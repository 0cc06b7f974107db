import Mathlib.Tactic.Common

/-!
# Scripts of atomic statements

A script runs statements against a store `σ`, each choosing how to go on from what it returned. Every
statement is atomic by itself (a failing one leaves the store as it was), the script as a whole is
not: it stops at the first failure, and what the statements before it did stays.

`run` carries a script out with a fault schedule; `Leaves s t` says that the script, started on `s`,
can leave `t` behind when it is stopped before any of its statements or comes to its end. What `run`
leaves behind is one of these stores (`run_leaves`), and everything that has to hold whenever the script
stops is proved along `Leaves` (`Preserves`).
-/

theorem Except.bind_ok {ε α β : Type} {x : Except ε α} {f : α → Except ε β} {b : β} :
    (x >>= f) = .ok b ↔ ∃ a, x = .ok a ∧ f a = .ok b := by
  cases x with
  | error e => exact ⟨nofun, nofun⟩
  | ok a => exact ⟨fun h => ⟨a, rfl, h⟩, fun ⟨_, ha, h⟩ => by cases ha; exact h⟩

theorem Except.mapError_ok {ε ε' α : Type} {f : ε → ε'} {x : Except ε α} {a : α} :
    x.mapError f = .ok a ↔ x = .ok a := by
  cases x <;> simp [Except.mapError]

/-- Statements over a store `σ`, rejected with an `ε`, the whole returning an `α` or failing. -/
inductive Script (σ ε α : Type) : Type 1
  | done (result : Except ε α)
  | exec {β : Type} (stmt : σ → Except ε (β × σ)) (next : β → Script σ ε α)

/-- Why a script did not return: a statement was rejected by the store, or did not come about. -/
inductive Failure (ε : Type)
  | rejected (e : ε)
  | interrupted
deriving DecidableEq, Repr

namespace Script

variable {σ ε α β : Type}

def bind (f : α → Script σ ε β) : Script σ ε α → Script σ ε β
  | done (.ok a) => f a
  | done (.error e) => done (.error e)
  | exec stmt next => exec stmt fun x => bind f (next x)

instance : Monad (Script σ ε) where
  pure a := done (.ok a)
  bind p f := bind f p

def query (f : σ → Except ε α) : Script σ ε α :=
  exec (fun s => (f s).map fun a => (a, s)) fun a => done (.ok a)

def update (f : σ → Except ε (α × σ)) : Script σ ε α := exec f fun a => done (.ok a)

/-- Carry out the script; `budget` is the number of statements that still come about (`none`: all
of them). Returns the outcome, the store left behind and the rest of the budget. -/
def run : Script σ ε α → Option Nat → σ → Except (Failure ε) α × σ × Option Nat
  | done (.ok a), budget, s => (.ok a, s, budget)
  | done (.error e), budget, s => (.error (.rejected e), s, budget)
  | exec stmt next, budget, s =>
    if budget = some 0 then (.error .interrupted, s, budget)
    else match stmt s with
      | .ok (x, s') => run (next x) (budget.map (· - 1)) s'
      | .error e => (.error (.rejected e), s, budget.map (· - 1))

/-- The script, started on `s`, returns `a` and the store `t` when every statement comes about. -/
def Returns (p : Script σ ε α) (s : σ) (a : α) (t : σ) : Prop :=
  match p with
  | done r => r = .ok a ∧ t = s
  | exec stmt next => ∃ x s', stmt s = .ok (x, s') ∧ Returns (next x) s' a t

/-- The script, started on `s`, can leave `t` behind: it may stop before any statement. -/
def Leaves (p : Script σ ε α) (s t : σ) : Prop :=
  match p with
  | done _ => t = s
  | exec stmt next => t = s ∨ ∃ x s', stmt s = .ok (x, s') ∧ Leaves (next x) s' t

/-! ### Rules -/

theorem bind_ok (a : α) (f : α → Script σ ε β) : bind f (done (.ok a)) = f a := rfl

theorem bind_error (e : ε) (f : α → Script σ ε β) : bind f (done (.error e)) = done (.error e) := rfl

theorem returns_done {r : Except ε α} {s t : σ} {a : α} :
    Returns (done r) s a t ↔ r = .ok a ∧ t = s := Iff.rfl

theorem leaves_done {r : Except ε α} {s t : σ} : Leaves (done r) s t ↔ t = s := Iff.rfl

section
variable {γ : Type} {stmt : σ → Except ε (γ × σ)} {next : γ → Script σ ε α} {s t : σ}

theorem bind_exec (f : α → Script σ ε β) :
    bind f (exec stmt next) = exec stmt fun x => bind f (next x) := rfl

theorem returns_exec {a : α} :
    Returns (exec stmt next) s a t ↔ ∃ x s', stmt s = .ok (x, s') ∧ Returns (next x) s' a t := Iff.rfl

theorem leaves_exec :
    Leaves (exec stmt next) s t ↔ t = s ∨ ∃ x s', stmt s = .ok (x, s') ∧ Leaves (next x) s' t := Iff.rfl

theorem run_exec {budget : Option Nat} : run (exec stmt next) budget s =
    if budget = some 0 then (.error .interrupted, s, budget)
    else match stmt s with
      | .ok (x, s') => run (next x) (budget.map (· - 1)) s'
      | .error e => (.error (.rejected e), s, budget.map (· - 1)) := by
  rw [run]

end

theorem run_ok (a : α) (budget : Option Nat) (s : σ) :
    run (done (.ok a) : Script σ ε α) budget s = (.ok a, s, budget) := rfl

theorem run_error (e : ε) (budget : Option Nat) (s : σ) :
    run (done (.error e) : Script σ ε α) budget s = (.error (.rejected e), s, budget) := rfl

@[simp] theorem returns_pure {a b : α} {s t : σ} :
    Returns (pure a : Script σ ε α) s b t ↔ a = b ∧ t = s := by
  simp [pure, returns_done]

@[simp] theorem leaves_pure {a : α} {s t : σ} : Leaves (pure a : Script σ ε α) s t ↔ t = s := Iff.rfl

theorem bind_def (p : Script σ ε α) (f : α → Script σ ε β) : (p >>= f) = p.bind f := rfl

theorem returns_bind {p : Script σ ε α} {f : α → Script σ ε β} {s t : σ} {b : β} :
    Returns (p >>= f) s b t ↔ ∃ a s', p.Returns s a s' ∧ (f a).Returns s' b t := by
  rw [bind_def]
  induction p generalizing s with
  | done r =>
    cases r with
    | error e => simp [bind_error, returns_done]
    | ok a =>
      simp only [bind_ok, returns_done, Except.ok.injEq]
      constructor
      · intro h
        exact ⟨a, s, ⟨rfl, rfl⟩, h⟩
      · rintro ⟨_, _, ⟨rfl, rfl⟩, h⟩; exact h
  | exec stmt next ih =>
    simp only [bind_exec, returns_exec, ih]
    constructor
    · rintro ⟨x, s₁, hs, a, s₂, hp, hf⟩
      exact ⟨a, s₂, ⟨x, s₁, hs, hp⟩, hf⟩
    · rintro ⟨a, s₂, ⟨x, s₁, hs, hp⟩, hf⟩
      exact ⟨x, s₁, hs, a, s₂, hp, hf⟩

/-- A script whose result is wrapped up at the end. -/
theorem returns_bind_pure {p : Script σ ε α} {f : α → β} {s t : σ} {b : β} :
    Returns (p >>= fun a => pure (f a)) s b t ↔ ∃ a, p.Returns s a t ∧ b = f a := by
  rw [returns_bind]
  refine exists_congr fun a => ?_
  constructor
  · rintro ⟨s', hp, hpure⟩
    obtain ⟨hb, rfl⟩ := returns_pure.1 hpure
    exact ⟨hp, hb.symm⟩
  · rintro ⟨hp, rfl⟩
    exact ⟨t, hp, returns_pure.2 ⟨rfl, rfl⟩⟩

theorem leaves_start (p : Script σ ε α) (s : σ) : p.Leaves s s := by
  cases p with
  | done r => rfl
  | exec stmt next => exact .inl rfl

theorem Returns.leaves {p : Script σ ε α} {s t : σ} {a : α} (h : p.Returns s a t) : p.Leaves s t := by
  induction p generalizing s with
  | done r => exact h.2
  | exec stmt next ih =>
    obtain ⟨x, s', hs, hp⟩ := h
    exact .inr ⟨x, s', hs, ih x hp⟩

theorem leaves_bind {p : Script σ ε α} {f : α → Script σ ε β} {s t : σ} :
    Leaves (p >>= f) s t ↔ p.Leaves s t ∨ ∃ a s', p.Returns s a s' ∧ (f a).Leaves s' t := by
  rw [bind_def]
  induction p generalizing s with
  | done r =>
    cases r with
    | error e => simp [bind_error, leaves_done, returns_done]
    | ok a =>
      simp only [bind_ok, leaves_done, returns_done]
      constructor
      · intro h
        exact .inr ⟨a, s, ⟨rfl, rfl⟩, h⟩
      · rintro (rfl | ⟨b, s', ⟨hb, rfl⟩, h⟩)
        · exact leaves_start _ _
        · cases hb; exact h
  | exec stmt next ih =>
    simp only [bind_exec, leaves_exec, returns_exec, ih]
    constructor
    · rintro (rfl | ⟨x, s₁, hs, h | ⟨a, s₂, hp, hf⟩⟩)
      · exact .inl (.inl rfl)
      · exact .inl (.inr ⟨x, s₁, hs, h⟩)
      · exact .inr ⟨a, s₂, ⟨x, s₁, hs, hp⟩, hf⟩
    · rintro ((rfl | ⟨x, s₁, hs, h⟩) | ⟨a, s₂, ⟨x, s₁, hs, hp⟩, hf⟩)
      · exact .inl rfl
      · exact .inr ⟨x, s₁, hs, .inl h⟩
      · exact .inr ⟨x, s₁, hs, .inr ⟨a, s₂, hp, hf⟩⟩

theorem returns_query {f : σ → Except ε α} {s t : σ} {a : α} :
    (query f).Returns s a t ↔ f s = .ok a ∧ t = s := by
  simp only [query, returns_exec, returns_done]
  constructor
  · rintro ⟨x, s', hs, hx, rfl⟩
    cases hf : f s with
    | error e => rw [hf] at hs; cases hs
    | ok b =>
      rw [hf] at hs
      cases hs; cases hx
      exact ⟨rfl, rfl⟩
  · rintro ⟨hf, rfl⟩
    exact ⟨a, t, by rw [hf]; rfl, rfl, rfl⟩

@[simp] theorem leaves_query {f : σ → Except ε α} {s t : σ} : (query f).Leaves s t ↔ t = s := by
  refine ⟨?_, fun h => .inl h⟩
  rintro (h | ⟨x, s', hs, rfl⟩)
  · exact h
  · dsimp only at hs
    cases hf : f s with
    | error e => rw [hf] at hs; cases hs
    | ok b => rw [hf] at hs; cases hs; rfl

theorem returns_update {f : σ → Except ε (α × σ)} {s t : σ} {a : α} :
    (update f).Returns s a t ↔ f s = .ok (a, t) := by
  simp only [update, returns_exec, returns_done]
  constructor
  · rintro ⟨x, s', hs, hx, rfl⟩
    cases hx; exact hs
  · intro h
    exact ⟨a, t, h, rfl, rfl⟩

theorem leaves_update {f : σ → Except ε (α × σ)} {s t : σ} :
    (update f).Leaves s t ↔ t = s ∨ ∃ a, f s = .ok (a, t) := by
  simp only [update, leaves_exec, leaves_done]
  constructor
  · rintro (h | ⟨x, s', hs, rfl⟩)
    exacts [.inl h, .inr ⟨x, hs⟩]
  · rintro (h | ⟨a, h⟩)
    exacts [.inl h, .inr ⟨a, t, h, rfl⟩]

theorem Returns.unique {p : Script σ ε α} {s t t' : σ} {a a' : α} (h : p.Returns s a t)
    (h' : p.Returns s a' t') : a = a' ∧ t = t' := by
  induction p generalizing s with
  | done r =>
    obtain ⟨rfl, rfl⟩ := h
    obtain ⟨h, rfl⟩ := h'
    cases h; exact ⟨rfl, rfl⟩
  | exec stmt next ih =>
    obtain ⟨x, s₁, hs, hp⟩ := h
    obtain ⟨x', s₁', hs', hp'⟩ := h'
    rw [hs] at hs'; cases hs'
    exact ih x hp hp'

/-! ### Carrying a script out -/

theorem run_bind (p : Script σ ε α) (f : α → Script σ ε β) (budget : Option Nat) (s : σ) :
    (p >>= f).run budget s =
      match p.run budget s with
      | (.ok a, s', rest) => (f a).run rest s'
      | (.error e, s', rest) => (.error e, s', rest) := by
  rw [bind_def]
  induction p generalizing s budget with
  | done r => cases r <;> rfl
  | exec stmt next ih =>
    rw [bind_exec, run_exec, run_exec]
    split
    · rfl
    · cases stmt s with
      | error e => rfl
      | ok x => exact ih _ _ _

theorem run_query_ok {f : σ → Except ε α} {s : σ} {a : α} (hf : f s = .ok a) (n : Nat) :
    (query f).run (some (n + 1)) s = (.ok a, s, some n) := by
  simp [query, run_exec, run_ok, hf, Except.map]

theorem run_query_zero (f : σ → Except ε α) (s : σ) :
    (query f).run (some 0) s = (.error .interrupted, s, some 0) := by
  simp [query, run_exec]

theorem run_update_zero (f : σ → Except ε (α × σ)) (s : σ) :
    (update f).run (some 0) s = (.error .interrupted, s, some 0) := by
  simp [update, run_exec]

/-- Whatever the schedule, the store left behind is one `Leaves` allows. -/
theorem run_leaves (p : Script σ ε α) (budget : Option Nat) (s : σ) :
    p.Leaves s (p.run budget s).2.1 := by
  induction p generalizing s budget with
  | done r => cases r <;> rfl
  | exec stmt next ih =>
    rw [run_exec]
    split
    · exact .inl rfl
    · split
      · rename_i x s' hs
        exact .inr ⟨x, s', hs, ih x _ _⟩
      · exact .inl rfl

theorem run_returns {p : Script σ ε α} {budget : Option Nat} {s t : σ} {a : α} {rest : Option Nat}
    (h : p.run budget s = (.ok a, t, rest)) : p.Returns s a t := by
  induction p generalizing s budget with
  | done r =>
    cases r with
    | error e => simp [run_error] at h
    | ok b => simp only [run_ok, Prod.mk.injEq, Except.ok.injEq] at h; exact ⟨by rw [h.1], h.2.1.symm⟩
  | exec stmt next ih =>
    rw [run_exec] at h
    split at h
    · simp at h
    · split at h
      · rename_i x s' hs
        exact ⟨x, s', hs, ih x h⟩
      · simp at h

theorem returns_of_run {p : Script σ ε α} {s t : σ} {a : α} (h : (p.run none s).1 = .ok a)
    (ht : (p.run none s).2.1 = t) : p.Returns s a t :=
  run_returns (Prod.ext h (Prod.ext ht rfl))

theorem Returns.run {p : Script σ ε α} {s t : σ} {a : α} (h : p.Returns s a t) :
    p.run none s = (.ok a, t, none) := by
  induction p generalizing s with
  | done r => obtain ⟨rfl, rfl⟩ := h; rfl
  | exec stmt next ih =>
    obtain ⟨x, s', hs, hp⟩ := h
    simp only [run_exec, reduceCtorEq, ↓reduceIte, hs, Option.map_none, ih x hp]

/-! ### Invariants -/

/-- `I` holds wherever the script stops, if it held at the start. -/
def Preserves (I : σ → Prop) (p : Script σ ε α) : Prop := ∀ s t, I s → p.Leaves s t → I t

variable {I : σ → Prop}

theorem Preserves.pure (a : α) : Preserves I (pure a : Script σ ε α) := fun _ _ hs h => h ▸ hs

theorem Preserves.bind {p : Script σ ε α} {f : α → Script σ ε β} (hp : Preserves I p)
    (hf : ∀ a, Preserves I (f a)) : Preserves I (p >>= f) := by
  intro s t hs h
  rcases leaves_bind.1 h with h | ⟨a, s', hr, h⟩
  · exact hp s t hs h
  · exact hf a s' t (hp s s' hs hr.leaves) h

theorem Preserves.query (f : σ → Except ε α) : Preserves I (query f) :=
  fun _ _ hs h => leaves_query.1 h ▸ hs

theorem Preserves.update {f : σ → Except ε (α × σ)} (h : ∀ s a t, I s → f s = .ok (a, t) → I t) :
    Preserves I (update f) := by
  intro s t hs hl
  rcases leaves_update.1 hl with rfl | ⟨a, ha⟩
  exacts [hs, h s a t hs ha]

/-! ### Scripts that fail -/

theorem run_bind_error {p : Script σ ε α} {f : α → Script σ ε β} {budget rest : Option Nat} {s t : σ} {e : Failure ε}
    (h : (p >>= f).run budget s = (.error e, t, rest)) :
    p.run budget s = (.error e, t, rest) ∨
      ∃ a s' budget', p.run budget s = (.ok a, s', budget') ∧ (f a).run budget' s' = (.error e, t, rest) := by
  rw [run_bind] at h
  rcases hp : p.run budget s with ⟨e' | a, s', budget'⟩
  · rw [hp] at h
    cases h
    exact .inl rfl
  · rw [hp] at h
    exact .inr ⟨a, s', budget', rfl, h⟩

/-- A single statement that fails has done nothing. -/
theorem run_update_error {f : σ → Except ε (α × σ)} {budget rest : Option Nat} {s t : σ} {e : Failure ε}
    (h : (update f).run budget s = (.error e, t, rest)) : t = s := by
  rw [update, run_exec] at h
  split at h
  · cases h; rfl
  · split at h <;> cases h; rfl

theorem run_query {f : σ → Except ε α} {budget rest : Option Nat} {s t : σ} {result : Except (Failure ε) α}
    (h : (query f).run budget s = (result, t, rest)) : t = s := by
  have := run_leaves (query f) budget s
  rw [h] at this
  exact leaves_query.1 this

/-! ### Statements that go one way -/

/-- Every statement of the script goes up in `R`. -/
def Ascends (R : σ → σ → Prop) : Script σ ε α → Prop
  | done _ => True
  | exec stmt next => (∀ s x s', stmt s = .ok (x, s') → R s s') ∧ ∀ x, Ascends R (next x)

variable {R : σ → σ → Prop}

theorem Ascends.pure (a : α) : Ascends R (pure a : Script σ ε α) := trivial

theorem Ascends.bind {p : Script σ ε α} {f : α → Script σ ε β} (hp : p.Ascends R) (hf : ∀ a, (f a).Ascends R) :
    (p >>= f).Ascends R := by
  rw [bind_def]
  induction p with
  | done r =>
    cases r with
    | error e => trivial
    | ok a => exact hf a
  | exec stmt next ih => exact ⟨hp.1, fun x => ih x (hp.2 x)⟩

theorem Ascends.update {f : σ → Except ε (α × σ)} (h : ∀ s a t, f s = .ok (a, t) → R s t) : (update f).Ascends R :=
  ⟨h, fun _ => trivial⟩

theorem Ascends.query (hrefl : ∀ s, R s s) (f : σ → Except ε α) : (query f).Ascends R := by
  refine ⟨fun s x s' h => ?_, fun _ => trivial⟩
  dsimp only at h
  cases hf : f s with
  | error e => rw [hf] at h; cases h
  | ok a =>
    rw [hf] at h
    cases h
    exact hrefl s

/-- Where the script stops is between its start and its end. -/
theorem Ascends.between (hrefl : ∀ s, R s s) (htrans : ∀ s t u, R s t → R t u → R s u) {p : Script σ ε α}
    (hp : p.Ascends R) {s t u : σ} {a : α} (hleaves : p.Leaves s t) (hreturns : p.Returns s a u) : R t u := by
  induction p generalizing s t with
  | done r =>
    obtain ⟨-, rfl⟩ := hreturns
    rw [leaves_done.1 hleaves]
    exact hrefl u
  | exec stmt next ih =>
    obtain ⟨x, s₁, hs, hnext⟩ := hreturns
    rcases hleaves with rfl | ⟨x', s₁', hs', hleaves⟩
    · exact htrans _ _ _ (hp.1 _ _ _ hs) (ih x (hp.2 x) (leaves_start _ s₁) hnext)
    · rw [hs] at hs'
      cases hs'
      exact ih x (hp.2 x) hleaves hnext

end Script
