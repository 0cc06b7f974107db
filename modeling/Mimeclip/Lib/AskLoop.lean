import Mathlib.Data.Nat.Find
import Mathlib.Data.Stream.Init
import Mimeclip.Lib.Run

/-!
# Loops that ask

A loop that asks its environment for an answer in every state in which it does not exit, and goes on or returns as
the answer says. `run` is what it returns after some answers, if they are enough. The environment may be bound to
allow some answers only, which can depend on the state (`Allows`), and some of the answers count.

If there is a rank, which no answer raises and each that counts lowers, the loop asks for at most as many answers
that count as the rank says, and returns if such answers keep coming (`Ranking.stops`).
-/

structure AskLoop (σ ι ρ : Type*) where
  exit : σ → Option ρ
  step : σ → ι → Except ρ σ

namespace AskLoop
variable {σ ι ρ : Type*} (l : AskLoop σ ι ρ)

/-- What the loop returns, and `none` if it asks once more. -/
def run : List ι → σ → Option ρ
  | [], s => l.exit s
  | i :: is, s =>
    match l.exit s with
    | some r => some r
    | none =>
      match l.step s i with
      | .error r => some r
      | .ok t => run is t

def GoesOn (s : σ) (i : ι) (t : σ) : Prop := l.exit s = none ∧ l.step s i = .ok t

variable {l} {s t : σ} {i : ι} {is : List ι} {r : ρ}

theorem run_of_exit (h : l.exit s = some r) (is : List ι) : l.run is s = some r := by
  cases is with
  | nil => exact h
  | cons i is => rw [run, h]

theorem run_of_error (hexit : l.exit s = none) (hstep : l.step s i = .error r) : l.run (i :: is) s = some r := by
  rw [run, hexit]
  dsimp only
  rw [hstep]

theorem run_cons (h : l.GoesOn s i t) : l.run (i :: is) s = l.run is t := by
  obtain ⟨hexit, hstep⟩ := h
  rw [run, hexit]
  dsimp only
  rw [hstep]

theorem run_eq_exit (h : Run l.GoesOn s is t) : l.run is s = l.exit t := by
  induction h with
  | nil => rfl
  | cons hgo _ ih => rw [run_cons hgo, ih]

/-- The loop asks once more in the state to which the answers lead. -/
theorem run_eq_none : l.run is s = none ↔ ∃ t, Run l.GoesOn s is t ∧ l.exit t = none := by
  constructor
  · intro h
    induction is generalizing s with
    | nil => exact ⟨s, .nil s, h⟩
    | cons i is ih =>
      cases hexit : l.exit s with
      | some r =>
        rw [run_of_exit hexit] at h
        cases h
      | none =>
        cases hstep : l.step s i with
        | error r =>
          rw [run_of_error hexit hstep] at h
          cases h
        | ok t =>
          have hgo : l.GoesOn s i t := ⟨hexit, hstep⟩
          rw [run_cons hgo] at h
          obtain ⟨u, hrun, hu⟩ := ih h
          exact ⟨u, .cons hgo hrun, hu⟩
  · rintro ⟨t, hrun, ht⟩
    induction hrun with
    | nil => exact ht
    | cons hgo _ ih =>
      rw [run_cons hgo]
      exact ih ht

/-- The loop exits or is told to return in the state to which some of the answers lead. -/
theorem run_eq_some : l.run is s = some r ↔ ∃ before after t, is = before ++ after ∧ Run l.GoesOn s before t ∧
    (l.exit t = some r ∨ ∃ i rest, after = i :: rest ∧ l.exit t = none ∧ l.step t i = .error r) := by
  constructor
  · intro h
    induction is generalizing s with
    | nil => exact ⟨[], [], s, rfl, .nil s, .inl h⟩
    | cons i is ih =>
      cases hexit : l.exit s with
      | some r' =>
        rw [run_of_exit hexit] at h
        exact ⟨[], i :: is, s, rfl, .nil s, .inl (hexit.trans h)⟩
      | none =>
        cases hstep : l.step s i with
        | error r' =>
          rw [run_of_error hexit hstep] at h
          cases h
          exact ⟨[], i :: is, s, rfl, .nil s, .inr ⟨i, is, rfl, hexit, hstep⟩⟩
        | ok t =>
          have hgo : l.GoesOn s i t := ⟨hexit, hstep⟩
          rw [run_cons hgo] at h
          obtain ⟨before, after, u, rfl, hrun, hreturns⟩ := ih h
          exact ⟨i :: before, after, u, rfl, .cons hgo hrun, hreturns⟩
  · rintro ⟨before, after, t, rfl, hrun, hreturns⟩
    induction hrun with
    | nil =>
      rcases hreturns with hexit | ⟨i, rest, rfl, hexit, hstep⟩
      · exact run_of_exit hexit after
      · exact run_of_error hexit hstep
    | cons hgo _ ih =>
      rw [List.cons_append, run_cons hgo]
      exact ih hreturns

/-! ### Ranks -/

/-- The answers are allowed, as long as the loop asks for them. -/
def Allows (l : AskLoop σ ι ρ) (allowed : σ → ι → Prop) (s : σ) (answers : Stream' ι) : Prop :=
  ∀ k t, Run l.GoesOn s (answers.take k) t → l.exit t = none → allowed t (answers.get k)

/-- A measure of the states that answers which count lower. -/
structure Ranking (l : AskLoop σ ι ρ) (allowed : σ → ι → Prop) (counts : ι → Bool) where
  inv : σ → Prop
  rank : σ → Nat
  pos {s : σ} : inv s → l.exit s = none → 0 < rank s
  lowers {s t : σ} {i : ι} : inv s → allowed s i → l.GoesOn s i t →
    inv t ∧ rank t + (if counts i then 1 else 0) ≤ rank s

variable {allowed : σ → ι → Prop} {counts : ι → Bool} {answers : Stream' ι}

/-- Where no answer that is allowed makes the loop return, it exits. -/
theorem Allows.exits (hallows : l.Allows allowed s answers) (hstep : ∀ t i, allowed t i → ∃ u, l.step t i = .ok u)
    {m : Nat} (h : l.run (answers.take m) s = some r) (hwaits : ∀ k < m, l.run (answers.take k) s = none) :
    ∃ t, l.exit t = some r := by
  cases m with
  | zero => exact ⟨s, h⟩
  | succ m =>
    obtain ⟨t, hrun, hasks⟩ := run_eq_none.1 (hwaits m (Nat.lt_succ_self m))
    obtain ⟨u, hu⟩ := hstep t _ (hallows m t hrun hasks)
    have hnext : Run l.GoesOn s (answers.take (m + 1)) u := by
      rw [Stream'.take_succ']
      exact hrun.snoc ⟨hasks, hu⟩
    exact ⟨u, run_eq_exit hnext ▸ h⟩

theorem countP_take_succ (k : Nat) :
    (answers.take (k + 1)).countP counts =
      (answers.take k).countP counts + if counts (answers.get k) then 1 else 0 := by
  rw [Stream'.take_succ', List.countP_append, List.countP_singleton]

/-- If answers that count keep coming, there are as many as one likes. -/
theorem exists_le_countP (h : ∀ i, ∃ j, i ≤ j ∧ counts (answers.get j) = true) (n : Nat) :
    ∃ k, n ≤ (answers.take k).countP counts := by
  induction n with
  | zero => exact ⟨0, Nat.zero_le _⟩
  | succ n ih =>
    obtain ⟨k, hk⟩ := ih
    obtain ⟨j, hkj, hj⟩ := h k
    refine ⟨j + 1, ?_⟩
    rw [countP_take_succ, if_pos hj]
    have hmono : (answers.take k).countP counts ≤ (answers.take j).countP counts := by
      rw [← Nat.min_eq_right hkj, ← Stream'.take_take]
      exact (List.take_sublist k _).countP_le
    omega

namespace Ranking
variable (ranking : Ranking l allowed counts)
include ranking

theorem run_le (hallows : l.Allows allowed s answers) (hs : ranking.inv s) {k : Nat}
    (hrun : Run l.GoesOn s (answers.take k) t) :
    ranking.inv t ∧ ranking.rank t + (answers.take k).countP counts ≤ ranking.rank s := by
  induction k generalizing t with
  | zero =>
    cases hrun
    exact ⟨hs, Nat.le_refl _⟩
  | succ k ih =>
    rw [Stream'.take_succ'] at hrun
    obtain ⟨u, t', hrun', hgo, hnil⟩ := hrun.step_at
    cases hnil
    obtain ⟨hu, hle⟩ := ih hrun'
    obtain ⟨ht, hlowers⟩ := ranking.lowers hu (hallows k u hrun' hgo.1) hgo
    rw [countP_take_succ]
    exact ⟨ht, by omega⟩

/-- Where the loop still asks, fewer answers counted than the rank says. -/
theorem countP_lt (hallows : l.Allows allowed s answers) (hs : ranking.inv s) {k : Nat}
    (h : l.run (answers.take k) s = none) : (answers.take k).countP counts < ranking.rank s := by
  obtain ⟨t, hrun, hexit⟩ := run_eq_none.1 h
  obtain ⟨ht, hle⟩ := ranking.run_le hallows hs hrun
  have hpos := ranking.pos ht hexit
  omega

/-- The loop returns after `m` answers, and at most `rank` of them count. -/
theorem stops (hallows : l.Allows allowed s answers) (hs : ranking.inv s)
    (hcounts : ∀ k, l.run (answers.take k) s = none → ∃ j, k ≤ j ∧ counts (answers.get j) = true) :
    ∃ m r, l.run (answers.take m) s = some r ∧ (∀ k < m, l.run (answers.take k) s = none) ∧
      (answers.take m).countP counts ≤ ranking.rank s := by
  have hreturns : ∃ m, (l.run (answers.take m) s).isSome := by
    by_contra hnever
    have hwaits : ∀ k, l.run (answers.take k) s = none := by
      intro k
      exact Option.not_isSome_iff_eq_none.1 fun hk => hnever ⟨k, hk⟩
    obtain ⟨k, hk⟩ := exists_le_countP (fun i => hcounts i (hwaits i)) (ranking.rank s)
    exact absurd (ranking.countP_lt hallows hs (hwaits k)) (Nat.not_lt.2 hk)
  obtain ⟨r, hr⟩ := Option.isSome_iff_exists.1 (Nat.find_spec hreturns)
  have hwaits : ∀ k < Nat.find hreturns, l.run (answers.take k) s = none := by
    intro k hk
    exact Option.not_isSome_iff_eq_none.1 (Nat.find_min hreturns hk)
  refine ⟨Nat.find hreturns, r, hr, hwaits, ?_⟩
  generalize Nat.find hreturns = m at hwaits ⊢
  cases m with
  | zero => exact Nat.zero_le _
  | succ m =>
    have hlt := ranking.countP_lt hallows hs (hwaits m (Nat.lt_succ_self m))
    rw [countP_take_succ]
    split_ifs <;> omega

end Ranking

end AskLoop
