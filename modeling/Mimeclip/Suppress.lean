import Mimeclip.Lib.Held

/-!
# Suppression of restored selections (`daemon/suppress.rs`)

`SuppressState` is one slot for the hash of the last restored entry. What it answers depends on the
calls so far only through the last `arm` call and whether a capture with its hash came in since
(`pendingArm`); `Tracks` relates the two and `Tracks.arm`, `Tracks.check` are the two calls. Instants are
readings of the monotonic clock in nanoseconds.
-/

namespace Mimeclip

def suppressTtl : Nat := 5_000_000_000

structure PendingHash where
  hash : String
  expiresAt : Nat
deriving DecidableEq, Repr

structure SuppressState where
  pending : Option PendingHash
deriving DecidableEq, Repr

namespace SuppressState

def default : SuppressState := ⟨none⟩

def armAt (hash : String) (now : Nat) (_ : SuppressState) : SuppressState :=
  ⟨some ⟨hash, now + suppressTtl⟩⟩

def shouldSuppressAt (hash : String) (now : Nat) (self : SuppressState) : Bool × SuppressState :=
  match self.pending with
  | some pending =>
    if now > pending.expiresAt then (false, ⟨none⟩)
    else if pending.hash = hash then (true, ⟨none⟩)
    else (false, self)
  | none => (false, self)

end SuppressState

/-! ### Histories of calls -/

inductive SuppressCall
  | arm (hash : String) (now : Nat)
  | check (hash : String) (now : Nat)

namespace SuppressCall

def arms : SuppressCall → Option (String × Nat)
  | arm hash now => some (hash, now)
  | check _ _ => none

def disarms : SuppressCall → String × Nat → Bool
  | arm _ _, _ => false
  | check hash _, armed => armed.1 == hash

/-- The last `arm` call, unless a check of its hash came after it. -/
def pendingArm (calls : List SuppressCall) : Option (String × Nat) := Held.held arms disarms calls

def after (armed : Option (String × Nat)) (call : SuppressCall) : Option (String × Nat) :=
  Held.next arms disarms armed call

theorem after_arm {armed : Option (String × Nat)} {hash : String} {now : Nat} :
    after armed (arm hash now) = some (hash, now) := Held.next_of_set rfl

theorem after_check {armed : Option (String × Nat)} {hash : String} {now : Nat} :
    after armed (check hash now) = armed.filter fun a => !a.1 == hash := Held.next_of_not_set rfl

theorem after_check_self {hash : String} {now t : Nat} :
    after (some (hash, t)) (check hash now) = none := by
  simp [after_check]

theorem after_check_ne {hash hash' : String} {now t : Nat} (h : hash' ≠ hash) :
    after (some (hash', t)) (check hash now) = some (hash', t) := by
  simp [after_check, h]

theorem pendingArm_snoc (calls : List SuppressCall) (call : SuppressCall) :
    pendingArm (calls ++ [call]) = after (pendingArm calls) call := Held.held_snoc

/-- The calls contain an `arm` of the hash, and after it neither another `arm` nor a check of the hash. -/
def LastArmed (hash : String) (now : Nat) (calls : List SuppressCall) : Prop :=
  ∃ before since, calls = before ++ arm hash now :: since ∧
    ∀ call ∈ since, (∀ h t, call ≠ arm h t) ∧ ∀ t, call ≠ check hash t

theorem pendingArm_eq_some {hash : String} {now : Nat} {calls : List SuppressCall} :
    pendingArm calls = some (hash, now) ↔ LastArmed hash now calls := by
  have hsince : ∀ call : SuppressCall, arms call = none ∧ disarms call (hash, now) = false ↔
      (∀ h t, call ≠ arm h t) ∧ ∀ t, call ≠ check hash t := by
    rintro (⟨h, t⟩ | ⟨h, t⟩)
    · simp [arms]
    · simp only [arms, disarms, beq_eq_false_iff_ne, ne_eq, true_and, reduceCtorEq, not_false_eq_true, implies_true]
      constructor
      · rintro hne t' ⟨⟩; exact hne rfl
      · rintro h rfl; exact h t rfl
  rw [pendingArm, Held.held_eq_some, LastArmed]
  constructor
  · rintro ⟨before, call, since, rfl, hcall, hs⟩
    cases call with
    | arm h t => cases hcall; exact ⟨before, since, rfl, fun call hc => (hsince call).1 (hs call hc)⟩
    | check h t => cases hcall
  · rintro ⟨before, since, rfl, hs⟩
    exact ⟨before, arm hash now, since, rfl, rfl, fun call hc => (hsince call).2 (hs call hc)⟩

end SuppressCall

/-! ### The slot -/

/-- What the slot holds at the time `clock`, given the pending `arm` call. -/
inductive Tracks (clock : Nat) : Option (String × Nat) → SuppressState → Prop
  | idle : Tracks clock none ⟨none⟩
  | armed {hash : String} {now : Nat} (hle : now ≤ clock) :
      Tracks clock (some (hash, now)) ⟨some ⟨hash, now + suppressTtl⟩⟩
  | expired {hash : String} {now : Nat} (hlt : now + suppressTtl < clock) :
      Tracks clock (some (hash, now)) ⟨none⟩

namespace Tracks
variable {clock now : Nat} {hash : String} {armed : Option (String × Nat)} {s : SuppressState}

theorem arm (s : SuppressState) : Tracks now (SuppressCall.after armed (.arm hash now)) (s.armAt hash now) := by
  rw [SuppressCall.after_arm]
  exact .armed (Nat.le_refl _)

theorem check (h : Tracks clock armed s) (hclock : clock ≤ now) :
    Tracks now (SuppressCall.after armed (.check hash now)) (s.shouldSuppressAt hash now).2 ∧
      ((s.shouldSuppressAt hash now).1 = true ↔ ∃ t, armed = some (hash, t) ∧ now ≤ t + suppressTtl) := by
  cases h with
  | idle => exact ⟨.idle, by simp [SuppressState.shouldSuppressAt]⟩
  | @armed hash' t hle =>
    by_cases hexp : now > t + suppressTtl
    · -- the slot is emptied, whatever the hash
      simp only [SuppressState.shouldSuppressAt, hexp, ↓reduceIte, Bool.false_eq_true, false_iff]
      refine ⟨?_, fun ⟨t', ht, hle⟩ => by cases ht; omega⟩
      by_cases hh : hash' = hash
      · rw [hh, SuppressCall.after_check_self]; exact .idle
      · rw [SuppressCall.after_check_ne hh]; exact .expired hexp
    · simp only [SuppressState.shouldSuppressAt, hexp, ↓reduceIte]
      by_cases hh : hash' = hash
      · subst hh
        simp only [↓reduceIte, true_iff]
        exact ⟨by rw [SuppressCall.after_check_self]; exact .idle, t, rfl, by omega⟩
      · simp only [hh, ↓reduceIte, Bool.false_eq_true, false_iff]
        refine ⟨?_, fun ⟨t', ht, _⟩ => by cases ht; exact hh rfl⟩
        rw [SuppressCall.after_check_ne hh]
        exact .armed (by omega)
  | @expired hash' t hlt =>
    simp only [SuppressState.shouldSuppressAt, Bool.false_eq_true, false_iff]
    refine ⟨?_, fun ⟨t', ht, hle⟩ => by cases ht; omega⟩
    by_cases hh : hash' = hash
    · rw [hh, SuppressCall.after_check_self]; exact .idle
    · rw [SuppressCall.after_check_ne hh]; exact .expired (by omega)

theorem mono {clock' : Nat} (h : Tracks clock armed s) (hclock : clock ≤ clock') : Tracks clock' armed s := by
  cases h with
  | idle => exact .idle
  | armed hle => exact .armed (Nat.le_trans hle hclock)
  | expired hlt => exact .expired (Nat.lt_of_lt_of_le hlt hclock)

end Tracks

/-! ### Runs -/

namespace SuppressCall

def time : SuppressCall → Nat
  | arm _ now => now
  | check _ now => now

def exec (s : SuppressState) : SuppressCall → SuppressState
  | arm hash now => s.armAt hash now
  | check hash now => (s.shouldSuppressAt hash now).2

/-- What `should_suppress_at` answers after the calls. -/
def answer (calls : List SuppressCall) (hash : String) (now : Nat) : Bool :=
  ((calls.foldl exec .default).shouldSuppressAt hash now).1

variable {calls before since : List SuppressCall} {hash hash' : String} {now now' clock : Nat}

theorem tracks_exec {call : SuppressCall} {armed : Option (String × Nat)} {s : SuppressState}
    (h : Tracks clock armed s) (hclock : clock ≤ call.time) : Tracks call.time (after armed call) (exec s call) := by
  cases call with
  | arm hash now => exact .arm s
  | check hash now => exact (h.check hclock).1

theorem tracks_run (hsorted : (calls.map time).Pairwise (· ≤ ·)) (hclock : ∀ call ∈ calls, call.time ≤ clock) :
    Tracks clock (pendingArm calls) (calls.foldl exec .default) := by
  induction calls using List.reverseRecOn generalizing clock with
  | nil => exact .idle
  | append_singleton calls call ih =>
    rw [List.map_append, List.pairwise_append] at hsorted
    obtain ⟨hsorted, -, hlast⟩ := hsorted
    rw [pendingArm_snoc, List.foldl_append]
    refine (tracks_exec (ih hsorted fun c hc => ?_) (Nat.le_refl _)).mono (hclock call (by simp))
    exact hlast c.time (List.mem_map_of_mem hc) call.time (by simp)

theorem answer_iff (hsorted : (calls.map time).Pairwise (· ≤ ·)) (hclock : ∀ call ∈ calls, call.time ≤ now) :
    answer calls hash now = true ↔ ∃ t, LastArmed hash t calls ∧ now ≤ t + suppressTtl := by
  rw [answer, ((tracks_run hsorted hclock).check (Nat.le_refl now)).2]
  exact exists_congr fun t => and_congr_left' pendingArm_eq_some

/-- A suppression is answered for one `arm` call: between two of them there is another. -/
theorem exists_arm_of_answers (hfirst : ∃ t, LastArmed hash t before)
    (hsecond : ∃ t, LastArmed hash' t (before ++ check hash now :: since)) : ∃ h t, arm h t ∈ since := by
  obtain ⟨t, hfirst⟩ := hfirst
  obtain ⟨t', hsecond⟩ := hsecond
  by_contra hnone
  rw [← pendingArm_eq_some] at hfirst hsecond
  have hempty : Held.held arms disarms (before ++ [check hash now]) = none := by
    rw [Held.held_snoc, show Held.held arms disarms before = _ from hfirst]
    exact after_check_self
  rw [pendingArm, List.append_cons, Held.held_append_of_not_set hempty] at hsecond
  · cases hsecond
  · rintro (⟨h, t⟩ | ⟨h, t⟩) hmem
    · exact absurd ⟨h, t, hmem⟩ hnone
    · rfl

/-- A check of another hash leaves what is armed. -/
theorem lastArmed_skip (hne : hash' ≠ hash) {t : Nat} :
    LastArmed hash t (before ++ check hash' now' :: since) ↔ LastArmed hash t (before ++ since) := by
  rw [← pendingArm_eq_some, ← pendingArm_eq_some]
  exact Held.held_skip rfl (by simpa [disarms] using hne.symm)

/-- The answer of `should_suppress_at` as a function of the history: it is yes if and only if the last `arm` call
was for the hash, at most `SUPPRESS_TTL` ago, and no check of the hash came since. So there is an `arm` call between
two suppressions, and a check of another hash changes nothing. -/
theorem suppression_law (calls : List SuppressCall) (hash : String) (now : Nat)
    (htimes : (calls.map time ++ [now]).Pairwise (· ≤ ·)) :
    (answer calls hash now = true ↔ ∃ t, LastArmed hash t calls ∧ now ≤ t + suppressTtl) ∧
      ∀ before hash' now' since, calls = before ++ check hash' now' :: since →
        (answer before hash' now' = true → answer calls hash now = true → ∃ h t, arm h t ∈ since) ∧
          (hash' ≠ hash → answer (before ++ since) hash now = answer calls hash now) := by
  obtain ⟨hsorted, -, hlast⟩ := List.pairwise_append.1 htimes
  have hclock : ∀ call ∈ calls, call.time ≤ now := fun call hc =>
    hlast call.time (List.mem_map_of_mem hc) now (List.mem_singleton.2 rfl)
  refine ⟨answer_iff hsorted hclock, ?_⟩
  rintro before hash' now' since rfl
  have hiff : answer _ hash now = true ↔ _ := answer_iff hsorted hclock
  have hskip : (before ++ since).Sublist (before ++ check hash' now' :: since) :=
    (List.sublist_cons_self _ since).append_left before
  constructor
  · intro hfirst hsecond
    rw [List.map_append, List.map_cons, List.pairwise_append] at hsorted
    have hbefore : ∀ call ∈ before, call.time ≤ now' := fun call hc =>
      hsorted.2.2 call.time (List.mem_map_of_mem hc) now' List.mem_cons_self
    have hfirst := (answer_iff hsorted.1 hbefore).1 hfirst
    exact exists_arm_of_answers (hfirst.imp fun t h => h.1) ((hiff.1 hsecond).imp fun t h => h.1)
  · intro hne
    have hshort : answer _ hash now = true ↔ _ :=
      answer_iff (hsorted.sublist (hskip.map time)) fun call hc => hclock call (hskip.subset hc)
    rw [Bool.eq_iff_iff, hshort, hiff]
    exact exists_congr fun t => and_congr_left' (lastArmed_skip hne).symm

/-- A hash is armed twice and suppressed in between, and another is checked each time. -/
def armedTwice : List SuppressCall :=
  [arm "abc" 0, check "xyz" 1, check "abc" 2, arm "abc" 3, check "xyz" 4]

theorem suppression_law_armedTwice :
    (answer armedTwice "abc" 5 = true ↔ ∃ t, LastArmed "abc" t armedTwice ∧ 5 ≤ t + suppressTtl) ∧
      ∀ before hash' now' since, armedTwice = before ++ check hash' now' :: since →
        (answer before hash' now' = true → answer armedTwice "abc" 5 = true → ∃ h t, arm h t ∈ since) ∧
          (hash' ≠ "abc" → answer (before ++ since) "abc" 5 = answer armedTwice "abc" 5) :=
  suppression_law armedTwice "abc" 5 (by decide)

end SuppressCall

end Mimeclip
