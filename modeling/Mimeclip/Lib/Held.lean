import Mathlib.Data.List.Induction
import Mathlib.Tactic.Common

/-!
# What the last event set

Some events set a register (`set e = some b`), some clear it when it holds a certain value
(`clears e b = true`), the others leave it alone. `held` is the value after a sequence of events, and
`held_eq_some` reads it off the sequence: the last event that set the register, unless one after it
cleared what it had set.
-/

/-- Splitting a list that ends in `e` at some element: at the end or before. -/
theorem List.snoc_eq_append_cons {α : Type*} {l before since : List α} {e x : α} :
    l ++ [e] = before ++ x :: since ↔
      l = before ∧ e = x ∧ since = [] ∨ ∃ since', since = since' ++ [e] ∧ l = before ++ x :: since' := by
  constructor
  · intro h
    rcases List.eq_nil_or_concat since with rfl | ⟨since', e', rfl⟩
    · obtain ⟨rfl, he⟩ := List.append_inj' h rfl
      cases he
      exact .inl ⟨rfl, rfl, rfl⟩
    · rw [List.concat_eq_append, ← List.cons_append, ← List.append_assoc] at h
      obtain ⟨rfl, he⟩ := List.append_inj' h rfl
      cases he
      exact .inr ⟨since', List.concat_eq_append, rfl⟩
  · rintro (⟨rfl, rfl, rfl⟩ | ⟨since', rfl, rfl⟩)
    · rfl
    · simp

namespace Held

variable {α β : Type*} (set : α → Option β) (clears : α → β → Bool)

/-- The register after one more event. -/
def next (value : Option β) (e : α) : Option β := (set e).or (value.filter fun b => !clears e b)

def held (events : List α) : Option β := events.foldl (next set clears) none

variable {set clears} {events : List α} {e : α} {b : β} {value : Option β}

theorem next_of_set (h : set e = some b) : next set clears value e = some b := by
  simp [next, h]

theorem next_of_not_set (h : set e = none) : next set clears value e = value.filter fun b => !clears e b := by
  simp [next, h]

theorem next_of_idle (h : set e = none) (hc : ∀ b, clears e b = false) : next set clears value e = value := by
  rw [next, h]
  cases value with
  | none => rfl
  | some b => simp [hc]

theorem held_snoc : held set clears (events ++ [e]) = next set clears (held set clears events) e := by
  rw [held, List.foldl_append]; rfl

theorem next_eq_some :
    next set clears value e = some b ↔ set e = some b ∨ set e = none ∧ value = some b ∧ clears e b = false := by
  rw [next]
  cases h : set e with
  | none => simp [Option.filter_eq_some_iff]
  | some b' => simp

theorem held_eq_some :
    held set clears events = some b ↔ ∃ before e since, events = before ++ e :: since ∧ set e = some b ∧
      ∀ e' ∈ since, set e' = none ∧ clears e' b = false := by
  induction events using List.reverseRecOn with
  | nil => simp [held]
  | append_singleton events e ih =>
    rw [held_snoc, next_eq_some, ih]
    constructor
    · rintro (h | ⟨h, ⟨before, e₀, since, rfl, he₀, hs⟩, hc⟩)
      · exact ⟨events, e, [], rfl, h, by simp⟩
      · refine ⟨before, e₀, since ++ [e], by simp, he₀, fun e' he' => ?_⟩
        rcases List.mem_append.1 he' with he' | he'
        · exact hs e' he'
        · obtain rfl := List.mem_singleton.1 he'
          exact ⟨h, hc⟩
    · rintro ⟨before, e₀, since, heq, he₀, hs⟩
      rcases List.snoc_eq_append_cons.1 heq with ⟨rfl, rfl, rfl⟩ | ⟨since', rfl, rfl⟩
      · exact .inl he₀
      · obtain ⟨h, hc⟩ := hs e (by simp)
        exact .inr ⟨h, ⟨before, e₀, since', rfl, he₀, fun e' he' => hs e' (by simp [he'])⟩, hc⟩

theorem exists_held (hset : e ∈ events) (he : set e = some b)
    (hclears : ∀ e ∈ events, ∀ b, clears e b = false) : ∃ b, held set clears events = some b := by
  induction events using List.reverseRecOn with
  | nil => cases hset
  | append_singleton events e' ih =>
    rw [held_snoc]
    cases hset' : set e' with
    | some b' => exact ⟨b', next_of_set hset'⟩
    | none =>
      rw [next_of_idle hset' (hclears e' (by simp))]
      rcases List.mem_append.1 hset with hset | hset
      · exact ih hset fun e he => hclears e (by simp [he])
      · rw [List.mem_singleton.1 hset, hset'] at he
        cases he

theorem held_append_of_not_set {since : List α} (h : held set clears events = none)
    (hset : ∀ e ∈ since, set e = none) : held set clears (events ++ since) = none := by
  induction since using List.reverseRecOn with
  | nil => rwa [List.append_nil]
  | append_singleton since e ih =>
    rw [← List.append_assoc, held_snoc, ih fun e he => hset e (List.mem_append_left _ he),
      next_of_not_set (hset e (by simp))]
    rfl

/-- An event that neither sets the register nor clears `b` does not matter for `b`. -/
theorem held_skip {since : List α} (hset : set e = none) (hclears : clears e b = false) :
    held set clears (events ++ e :: since) = some b ↔ held set clears (events ++ since) = some b := by
  induction since using List.reverseRecOn with
  | nil =>
    rw [held_snoc, next_eq_some, List.append_nil, hset, hclears]
    simp
  | append_singleton since e' ih =>
    rw [← List.cons_append, ← List.append_assoc, held_snoc, ← List.append_assoc, held_snoc, next_eq_some, next_eq_some,
      ih]

end Held
