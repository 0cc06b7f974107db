import Mathlib.Data.List.Basic
import Mathlib.Data.List.Induction

/-!
# Separator-terminated key/value streams

`stream sep rs` writes every record of `rs` as its key, a separator, its value, a separator. The
keys are assumed free of the separator, the values are not, so the stream does not determine the
records: two neighbouring records read back as one whose value swallowed the second key
(`stream_merge`). What it does determine is the first key (`stream_cons_key`) and, for records whose
values are separator-free too, everything (`stream_inj`).
-/

namespace Framing

variable {α : Type*} {sep : α}

/-- The records of `rs`, each key and each value followed by `sep`. -/
def stream (sep : α) (rs : List (List α × List α)) : List α :=
  rs.flatMap fun r => r.1 ++ sep :: (r.2 ++ [sep])

@[simp] theorem stream_nil : stream sep [] = [] := rfl

theorem stream_cons (k v : List α) (rs : List (List α × List α)) :
    stream sep ((k, v) :: rs) = k ++ sep :: (v ++ sep :: stream sep rs) := by
  simp [stream]

theorem stream_cons_ne_nil (r : List α × List α) (rs : List (List α × List α)) :
    stream sep (r :: rs) ≠ [] := by
  rw [stream_cons]; simp

theorem stream_append (rs ts : List (List α × List α)) :
    stream sep (rs ++ ts) = stream sep rs ++ stream sep ts := by
  simp [stream]

/-- Two neighbouring records read as one: the value of the first absorbs the second record. -/
theorem stream_merge (k v k' v' : List α) (rs : List (List α × List α)) :
    stream sep ((k, v ++ sep :: (k' ++ sep :: v')) :: rs) =
      stream sep ((k, v) :: (k', v') :: rs) := by
  simp [stream_cons]

theorem append_cons_inj_of_free {k k' v v' : List α} (hk : sep ∉ k) (hk' : sep ∉ k')
    (h : k ++ sep :: v = k' ++ sep :: v') : k = k' ∧ v = v' := by
  induction k generalizing k' with
  | nil =>
    cases k' with
    | nil => simpa using h
    | cons b k' => simp at h; exact absurd (by simp [h.1]) hk'
  | cons a k ih =>
    cases k' with
    | nil => simp at h; exact absurd (by simp [h.1]) hk
    | cons b k' =>
      simp only [List.cons_append, List.cons.injEq, List.mem_cons, not_or] at h hk hk'
      obtain ⟨rfl, rfl⟩ := ih hk.2 hk'.2 h.2
      exact ⟨by rw [h.1], rfl⟩

theorem stream_cons_key {k v k' v' : List α} {rs ts : List (List α × List α)} (hk : sep ∉ k)
    (hk' : sep ∉ k') (h : stream sep ((k, v) :: rs) = stream sep ((k', v') :: ts)) :
    k = k' ∧ v ++ sep :: stream sep rs = v' ++ sep :: stream sep ts := by
  rw [stream_cons, stream_cons] at h
  exact append_cons_inj_of_free hk hk' h

/-- Separator-free records are determined by their stream. -/
theorem stream_inj {rs ts : List (List α × List α)} (hrs : ∀ r ∈ rs, sep ∉ r.1 ∧ sep ∉ r.2)
    (hts : ∀ r ∈ ts, sep ∉ r.1 ∧ sep ∉ r.2) (h : stream sep rs = stream sep ts) : rs = ts := by
  induction rs generalizing ts with
  | nil =>
    cases ts with
    | nil => rfl
    | cons t ts => exact absurd h.symm (stream_cons_ne_nil t ts)
  | cons r rs ih =>
    cases ts with
    | nil => exact absurd h (stream_cons_ne_nil r rs)
    | cons t ts =>
      obtain ⟨k, v⟩ := r
      obtain ⟨k', v'⟩ := t
      obtain ⟨hk, hv⟩ := hrs (k, v) (by simp)
      obtain ⟨hk', hv'⟩ := hts (k', v') (by simp)
      obtain ⟨hkk, hrest⟩ := stream_cons_key hk hk' h
      obtain ⟨hvv, hrest⟩ := append_cons_inj_of_free hv hv' hrest
      have htail := ih (fun r hr => hrs r (by simp [hr])) (fun r hr => hts r (by simp [hr])) hrest
      dsimp only at hkk hvv
      rw [hkk, hvv, htail]

/-- A value followed by a separator that reads as another value, a separator and the records
`(k, w) :: rs` contains `k` between two separators. -/
theorem value_of_stream_cons {v v' k w : List α} {rs : List (List α × List α)}
    (h : v ++ [sep] = v' ++ sep :: stream sep ((k, w) :: rs)) :
    ∃ w', v = v' ++ sep :: (k ++ sep :: w') := by
  rw [stream_cons] at h
  induction rs using List.reverseRecOn with
  | nil =>
    have h' : v ++ [sep] = (v' ++ sep :: (k ++ sep :: w)) ++ [sep] := by simpa using h
    exact ⟨w, List.append_cancel_right h'⟩
  | append_singleton rs r =>
    obtain ⟨k', w'⟩ := r
    have h' : v ++ [sep] =
        (v' ++ sep :: (k ++ sep :: (w ++ sep :: (stream sep rs ++ (k' ++ sep :: w'))))) ++ [sep] := by
      simpa [stream_append, stream_cons] using h
    exact ⟨_, List.append_cancel_right h'⟩

end Framing
