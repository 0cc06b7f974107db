import Mathlib.Tactic.Common

/-!
# Runs of a labelled system

A system is a relation `step s a t`: in state `s` the event `a` can happen and lead to `t`. `Run`
closes it under composition, with the list of events. The rules are the induction principles the
systems of this development are proved with: an invariant kept by every step, where the events may be
restricted (`Run.invariant`), a preorder that every step goes up in (`Run.relates`), and forward
simulations of one system by another, which has the same events (`Run.simulates`) or those that are
seen of them (`Run.abstracts`, and `Run.realizes` for the other direction).
-/

variable {σ τ α : Type*}

/-- `s` leads to the last state by the events of the list, in order. -/
inductive Run (step : σ → α → σ → Prop) : σ → List α → σ → Prop
  | nil (s : σ) : Run step s [] s
  | cons {s t u : σ} {a : α} {as : List α} : step s a t → Run step t as u → Run step s (a :: as) u

namespace Run

variable {step : σ → α → σ → Prop} {s t u : σ} {a : α} {as bs : List α}

theorem single (h : step s a t) : Run step s [a] t := .cons h (.nil t)

theorem mono {step' : σ → α → σ → Prop} (hstep : ∀ s a t, step s a t → step' s a t) (h : Run step s as t) :
    Run step' s as t := by
  induction h with
  | nil => exact .nil _
  | cons h _ ih => exact .cons (hstep _ _ _ h) ih

theorem append (h : Run step s as t) (h' : Run step t bs u) : Run step s (as ++ bs) u := by
  induction h with
  | nil => exact h'
  | cons hs _ ih => exact .cons hs (ih h')

theorem snoc (h : Run step s as t) (h' : step t a u) : Run step s (as ++ [a]) u := h.append (single h')

theorem split (h : Run step s (as ++ bs) u) : ∃ t, Run step s as t ∧ Run step t bs u := by
  induction as generalizing s with
  | nil => exact ⟨s, .nil s, h⟩
  | cons a as ih =>
    cases h with
    | cons hs h =>
      obtain ⟨t, h₁, h₂⟩ := ih h
      exact ⟨t, .cons hs h₁, h₂⟩

theorem step_at (h : Run step s (as ++ a :: bs) u) :
    ∃ t t', Run step s as t ∧ step t a t' ∧ Run step t' bs u := by
  obtain ⟨t, h₁, h₂⟩ := h.split
  cases h₂ with
  | cons hs h₂ => exact ⟨t, _, h₁, hs, h₂⟩

theorem history {I : List α → σ → Prop} (hstep : ∀ as s a t, I as s → step s a t → I (as ++ [a]) t)
    (h : Run step s as t) {bs : List α} (hs : I bs s) : I (bs ++ as) t := by
  induction h generalizing bs with
  | nil => rwa [List.append_nil]
  | cons h _ ih =>
    have := ih (hstep _ _ _ _ hs h)
    rwa [List.append_assoc] at this

/-- The same, where the events are restricted. -/
theorem history_of {I : List α → σ → Prop} {P : α → Prop}
    (hstep : ∀ as s a t, I as s → P a → step s a t → I (as ++ [a]) t) (h : Run step s as t) {bs : List α}
    (hs : I bs s) (ha : ∀ a ∈ as, P a) : I (bs ++ as) t := by
  induction h generalizing bs with
  | nil => rwa [List.append_nil]
  | cons h _ ih =>
    obtain ⟨hhead, htail⟩ := List.forall_mem_cons.1 ha
    have := ih (hstep _ _ _ _ hs hhead h) htail
    rwa [List.append_assoc] at this

/-- What every step with an event in `P` preserves, a run with such events preserves. -/
theorem invariant {I : σ → Prop} {P : α → Prop}
    (hstep : ∀ s a t, I s → P a → step s a t → I t) (h : Run step s as t) (hs : I s)
    (ha : ∀ a ∈ as, P a) : I t := by
  induction h with
  | nil => exact hs
  | cons h _ ih =>
    obtain ⟨hhead, htail⟩ := List.forall_mem_cons.1 ha
    exact ih (hstep _ _ _ hs hhead h) htail

theorem preserves {I : σ → Prop} (hstep : ∀ s a t, I s → step s a t → I t) (h : Run step s as t)
    (hs : I s) : I t :=
  h.invariant (P := fun _ => True) (fun s a t hs _ => hstep s a t hs) hs fun _ _ => trivial

/-- Where every step from a state with `I` goes up in `R`, every run does. -/
theorem relates {I : σ → Prop} {R : σ → σ → Prop} (hrefl : ∀ s, R s s)
    (htrans : ∀ s t u, I s → R s t → R t u → R s u) (hstep : ∀ s a t, I s → step s a t → I t ∧ R s t)
    (h : Run step s as t) (hs : I s) : I t ∧ R s t := by
  induction h with
  | nil s => exact ⟨hs, hrefl s⟩
  | cons h _ ih =>
    obtain ⟨ht, hR⟩ := hstep _ _ _ hs h
    obtain ⟨hu, hR'⟩ := ih ht
    exact ⟨hu, htrans _ _ _ hs hR hR'⟩

/-- Where every step from related states is matched with the same event, every run is; the relation
may speak about the events still to come. -/
theorem simulates {step' : τ → α → τ → Prop} {R : List α → σ → τ → Prop}
    (hsim : ∀ a as s t s', R (a :: as) s s' → step s a t → ∃ t', step' s' a t' ∧ R as t t')
    (h : Run step s as t) {s' : τ} (hs : R as s s') : ∃ t', Run step' s' as t' ∧ R [] t t' := by
  induction h generalizing s' with
  | nil => exact ⟨s', .nil s', hs⟩
  | cons h _ ih =>
    obtain ⟨t', hstep', ht⟩ := hsim _ _ _ _ _ hs h
    obtain ⟨u', hrun, hu⟩ := ih ht
    exact ⟨u', .cons hstep' hrun, hu⟩

/-- Where every step from related states is matched with what is seen of its event, every run is: a step of
which nothing is seen leads to a related state. -/
theorem abstracts {β : Type*} {step' : τ → β → τ → Prop} {seen : α → Option β} {R : σ → τ → Prop}
    (hsim : ∀ s a t s', R s s' → step s a t →
      (seen a = none ∧ R t s') ∨ ∃ b t', seen a = some b ∧ step' s' b t' ∧ R t t')
    (h : Run step s as t) {s' : τ} (hs : R s s') : ∃ t', Run step' s' (as.filterMap seen) t' ∧ R t t' := by
  induction h generalizing s' with
  | nil => exact ⟨s', .nil s', hs⟩
  | cons h _ ih =>
    rcases hsim _ _ _ _ hs h with ⟨hseen, ht⟩ | ⟨b, t', hseen, hstep', ht⟩
    · obtain ⟨u', hrun, hu⟩ := ih ht
      exact ⟨u', by rwa [List.filterMap_cons_none hseen], hu⟩
    · obtain ⟨u', hrun, hu⟩ := ih ht
      exact ⟨u', by rw [List.filterMap_cons_some hseen]; exact .cons hstep' hrun, hu⟩

/-- Where what is seen of a step can be brought about from related states, so can what is seen of a run. -/
theorem realizes {β : Type*} {step' : τ → β → τ → Prop} {seen : α → Option β} {R : σ → τ → Prop}
    (hsim : ∀ s' b t' s, R s s' → step' s' b t' → ∃ as t, Run step s as t ∧ as.filterMap seen = [b] ∧ R t t')
    {s' t' : τ} {bs : List β} (h : Run step' s' bs t') (hs : R s s') :
    ∃ as t, Run step s as t ∧ as.filterMap seen = bs ∧ R t t' := by
  induction h generalizing s with
  | nil => exact ⟨[], s, .nil s, rfl, hs⟩
  | cons h _ ih =>
    obtain ⟨as, t, hrun, hseen, ht⟩ := hsim _ _ _ _ hs h
    obtain ⟨as', u, hrun', hseen', hu⟩ := ih ht
    exact ⟨as ++ as', u, hrun.append hrun', by rw [List.filterMap_append, hseen, hseen']; rfl, hu⟩

end Run
