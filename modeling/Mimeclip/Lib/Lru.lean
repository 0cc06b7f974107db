import Mathlib.Data.List.Induction
import Mathlib.Data.List.Perm.Basic

/-!
# Most-recent-first lists

A least-recently-used cache is a list with the most recent element first. Using an element moves it to
the front (`promote`); making room drops elements from the back until what is left fits (`evict`).
`evict_eq_iff` characterizes the result: the longest prefix that fits, which makes evicting for two
bounds at once the same as evicting for one after the other (`evict_and`).
-/

namespace Lru

variable {ι : Type*}

/-! ### Eviction -/

def dropUntil (fits : List ι → Bool) : List ι → List ι
  | [] => []
  | x :: xs => if fits (x :: xs) then x :: xs else dropUntil fits xs

/-- Drop elements from the back until the rest fits. -/
def evict (fits : List ι → Bool) (l : List ι) : List ι :=
  (dropUntil (fun back => fits back.reverse) l.reverse).reverse

variable {fits fits' : List ι → Bool} {l l' : List ι} {x : ι}

theorem dropUntil_cons (fits : List ι → Bool) (x : ι) (l : List ι) :
    dropUntil fits (x :: l) = if fits (x :: l) then x :: l else dropUntil fits l := rfl

theorem dropUntil_isSuffix (fits : List ι → Bool) (l : List ι) : dropUntil fits l <:+ l := by
  induction l with
  | nil => exact List.suffix_rfl
  | cons y l ih =>
    rw [dropUntil_cons]
    split_ifs
    · exact List.suffix_rfl
    · exact ih.trans (List.suffix_cons y l)

theorem fits_dropUntil (h : fits [] = true) (l : List ι) : fits (dropUntil fits l) = true := by
  induction l with
  | nil => exact h
  | cons y l ih =>
    rw [dropUntil_cons]
    split_ifs with hy
    exacts [hy, ih]

theorem dropUntil_of_fits (h : fits l = true) : dropUntil fits l = l := by
  cases l with
  | nil => rfl
  | cons y l => rw [dropUntil_cons, if_pos h]

theorem dropUntil_map {κ : Type*} (f : κ → ι) (l : List κ) :
    dropUntil fits (l.map f) = (dropUntil (fun m => fits (m.map f)) l).map f := by
  induction l with
  | nil => rfl
  | cons y l ih =>
    rw [List.map_cons, dropUntil_cons, dropUntil_cons, List.map_cons]
    split_ifs
    exacts [rfl, ih]

theorem dropUntil_congr (h : ∀ m, m <:+ l → fits m = fits' m) : dropUntil fits l = dropUntil fits' l := by
  induction l with
  | nil => rfl
  | cons y l ih =>
    rw [dropUntil_cons, dropUntil_cons, h _ List.suffix_rfl, ih fun m hm => h m (hm.trans (List.suffix_cons y l))]

theorem mem_dropUntil : x ∈ dropUntil fits l ↔ ∃ older newer, l = older ++ newer ∧ x ∈ newer ∧ fits newer = true := by
  induction l with
  | nil =>
    refine ⟨fun h => absurd h List.not_mem_nil, ?_⟩
    rintro ⟨older, newer, heq, hx, -⟩
    rw [(List.append_eq_nil_iff.1 heq.symm).2] at hx
    cases hx
  | cons y l ih =>
    rw [dropUntil_cons]
    split_ifs with hy
    · refine ⟨fun h => ⟨[], y :: l, rfl, h, hy⟩, ?_⟩
      rintro ⟨older, newer, heq, hx, -⟩
      rw [heq]
      exact List.mem_append_right _ hx
    · rw [ih]
      constructor
      · rintro ⟨older, newer, rfl, hx, hfits⟩
        exact ⟨y :: older, newer, rfl, hx, hfits⟩
      · rintro ⟨older, newer, heq, hx, hfits⟩
        cases older with
        | nil =>
          rw [List.nil_append] at heq
          exact absurd (heq ▸ hfits) hy
        | cons z older => exact ⟨older, newer, (List.cons.inj heq).2, hx, hfits⟩

theorem filter_isPrefix {p : ι → Bool} (h : l.Pairwise fun x y => p y = true → p x = true) : l.filter p <+: l := by
  induction l with
  | nil => exact List.prefix_rfl
  | cons y l ih =>
    obtain ⟨hy, hl⟩ := List.pairwise_cons.1 h
    cases hp : p y with
    | true =>
      rw [List.filter_cons_of_pos hp]
      exact List.cons_prefix_cons.2 ⟨rfl, ih hl⟩
    | false =>
      have hnil : (y :: l).filter p = [] := by
        refine List.filter_eq_nil_iff.2 fun x hx hpx => ?_
        rcases List.mem_cons.1 hx with rfl | hx
        · exact Bool.false_ne_true (hp.symm.trans hpx)
        · exact Bool.false_ne_true (hp.symm.trans (hy x hx hpx))
      rw [hnil]
      exact List.nil_prefix

@[simp] theorem evict_nil : evict fits [] = [] := rfl

theorem evict_concat (fits : List ι → Bool) (l : List ι) (x : ι) :
    evict fits (l ++ [x]) = if fits (l ++ [x]) then l ++ [x] else evict fits l := by
  rw [evict, List.reverse_append, List.reverse_singleton, List.singleton_append, dropUntil_cons]
  simp only [List.reverse_cons, List.reverse_reverse]
  split_ifs <;> simp [evict]

theorem evict_map {κ : Type*} (f : κ → ι) (l : List κ) :
    evict fits (l.map f) = (evict (fun m => fits (m.map f)) l).map f := by
  rw [evict, ← List.map_reverse, dropUntil_map, evict, List.map_reverse]
  simp only [List.map_reverse]

theorem evict_congr (h : ∀ m, m <+: l → fits m = fits' m) : evict fits l = evict fits' l := by
  rw [evict, evict, dropUntil_congr fun m hm => h m.reverse (List.reverse_suffix.1 (by rwa [List.reverse_reverse]))]

theorem evict_isPrefix (fits : List ι → Bool) (l : List ι) : evict fits l <+: l := by
  induction l using List.reverseRecOn with
  | nil => exact List.prefix_rfl
  | append_singleton l x ih =>
    rw [evict_concat]
    split_ifs
    · exact List.prefix_rfl
    · exact ih.trans (List.prefix_append l [x])

theorem fits_evict (h : fits [] = true) (l : List ι) : fits (evict fits l) = true := by
  induction l using List.reverseRecOn with
  | nil => exact h
  | append_singleton l x ih =>
    rw [evict_concat]
    split_ifs with hx
    exacts [hx, ih]

theorem prefix_evict (hp : l' <+: l) (hf : fits l' = true) : l' <+: evict fits l := by
  induction l using List.reverseRecOn with
  | nil => exact hp
  | append_singleton l x ih =>
    rw [evict_concat]
    rcases List.prefix_concat_iff.1 hp with rfl | hp
    · exact (if_pos hf).symm ▸ List.prefix_rfl
    · split_ifs
      · exact hp.trans (List.prefix_append l [x])
      · exact ih hp

theorem evict_eq_iff (h : fits [] = true) :
    evict fits l = l' ↔ l' <+: l ∧ fits l' = true ∧ ∀ m, m <+: l → fits m = true → m <+: l' := by
  constructor
  · rintro rfl
    exact ⟨evict_isPrefix fits l, fits_evict h l, fun m hm hf => prefix_evict hm hf⟩
  · rintro ⟨hp, hf, hmax⟩
    exact (hmax _ (evict_isPrefix fits l) (fits_evict h l)).eq_of_length_le (prefix_evict hp hf).length_le

def Shrinks (fits : List ι → Bool) : Prop := ∀ l m, m <+: l → fits l = true → fits m = true

theorem evict_and (h : fits [] = true) (h' : fits' [] = true) (hs : Shrinks fits) (l : List ι) :
    evict (fun m => fits m && fits' m) l = evict fits' (evict fits l) := by
  refine (evict_eq_iff (by simp [h, h'])).2 ⟨?_, ?_, ?_⟩
  · exact (evict_isPrefix _ _).trans (evict_isPrefix _ _)
  · rw [Bool.and_eq_true]
    exact ⟨hs _ _ (evict_isPrefix _ _) (fits_evict h l), fits_evict h' _⟩
  · intro m hm hf
    rw [Bool.and_eq_true] at hf
    exact prefix_evict (prefix_evict hm hf.1) hf.2

theorem evict_length (n : ℕ) (l : List ι) : evict (fun m => decide (m.length ≤ n)) l = l.take n := by
  refine (evict_eq_iff (by simp)).2 ⟨List.take_prefix n l, ?_, fun m hm hf => ?_⟩
  · exact decide_eq_true (List.length_take_le n l)
  · rw [List.prefix_take_iff]
    exact ⟨hm, of_decide_eq_true hf⟩

theorem shrinks_length (n : ℕ) : Shrinks fun m : List ι => decide (m.length ≤ n) :=
  fun _ _ hm h => decide_eq_true (Nat.le_trans hm.length_le (of_decide_eq_true h))

/-! ### Use -/

/-- Move the elements that `p` picks to the front, changed by `f`. -/
def promote (p : ι → Bool) (f : ι → ι) (l : List ι) : List ι :=
  (l.filter p).map f ++ l.filter fun x => !p x

variable {p : ι → Bool} {f : ι → ι}

theorem mem_promote : x ∈ promote p f l ↔ (∃ y ∈ l, p y = true ∧ f y = x) ∨ x ∈ l ∧ p x = false := by
  simp [promote, and_assoc]

theorem promote_perm (p : ι → Bool) (f : ι → ι) (l : List ι) :
    (promote p f l).Perm (l.map fun x => if p x then f x else x) := by
  induction l with
  | nil => exact .nil
  | cons x l ih =>
    rw [promote, List.map_cons]
    cases hx : p x with
    | true => simpa [List.filter_cons, hx, promote] using ih
    | false =>
      simp only [List.filter_cons, hx, Bool.false_eq_true, ↓reduceIte, Bool.not_false]
      exact List.perm_middle.trans (ih.cons x)

/-- Where `p` picks one element at most, and its new form goes before all others, the order is kept. -/
theorem pairwise_promote {r : ι → ι → Prop} (h : l.Pairwise r)
    (hone : ∀ x ∈ l, ∀ y ∈ l, p x = true → p y = true → x = y)
    (hfront : ∀ x ∈ l, p x = true → ∀ y ∈ l, r (f x) y) (hnd : l.Nodup) : (promote p f l).Pairwise r := by
  rw [promote, List.pairwise_append]
  refine ⟨?_, h.sublist List.filter_sublist, ?_⟩
  · rw [List.pairwise_map, List.pairwise_filter]
    refine hnd.imp_of_mem fun {x y} hx hy hne hpx hpy => absurd (hone x hx y hy hpx hpy) hne
  · intro a ha b hb
    obtain ⟨x, hx, rfl⟩ := List.mem_map.1 ha
    exact hfront x (List.mem_filter.1 hx).1 (List.mem_filter.1 hx).2 b (List.mem_filter.1 hb).1

end Lru
