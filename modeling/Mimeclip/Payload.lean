import Mathlib.Data.List.Pairwise
import Mathlib.Data.List.Perm.Lattice
import Mathlib.Data.List.Sort
import Mathlib.Order.Bounds.Basic
import Mimeclip.Bytes
import Mimeclip.Lib.Framing

/-!
# Normalized payloads and their hash (`daemon/watcher.rs`)

`normalizePayloads` groups a capture by MIME type and keeps the smallest payload of each type;
`payloadHash` hashes the sorted `(mime, data)` pairs. `mem_normalizePayloads` and
`normalizePayloads_sorted` say everything about the normal form: it is strictly sorted by MIME type
and pairs each type with the least of its payloads.
-/

namespace Mimeclip

abbrev Payloads := List (String × Bytes)

/-! ### The definitions -/

/-- An entry of the `grouped` map: a MIME type and the payloads seen for it, at least one. -/
structure Group where
  mime : String
  variants : List Bytes
  nonempty : variants ≠ []

/-- `grouped.entry(mime).or_default().push(data)`; the map is kept as its entries in key order. -/
def pushVariant (mime : String) (data : Bytes) : List Group → List Group
  | [] => [⟨mime, [data], by simp⟩]
  | g :: gs =>
    if mime < g.mime then ⟨mime, [data], by simp⟩ :: g :: gs
    else if mime = g.mime then ⟨g.mime, g.variants ++ [data], by simp⟩ :: gs
    else g :: pushVariant mime data gs

def groupPayloads (payloads : Payloads) : List Group :=
  payloads.foldl (fun gs p => pushVariant p.1 p.2 gs) []

/-- The `unique_variants` loop: the first occurrence of every payload. -/
def uniqueVariants (variants : List Bytes) : List Bytes :=
  variants.foldl (fun unique data => if unique.any (· == data) then unique else unique ++ [data]) []

theorem mem_uniqueVariants {data : Bytes} {variants : List Bytes} :
    data ∈ uniqueVariants variants ↔ data ∈ variants := by
  have aux : ∀ acc : List Bytes, data ∈ variants.foldl
      (fun unique data => if unique.any (· == data) then unique else unique ++ [data]) acc ↔
        data ∈ acc ∨ data ∈ variants := by
    induction variants with
    | nil => simp
    | cons x variants ih =>
      intro acc
      rw [List.foldl_cons, ih]
      by_cases hx : x ∈ acc
      · have : acc.any (· == x) = true := by simpa using hx
        simp only [this, ↓reduceIte, List.mem_cons]
        constructor
        · rintro (h | h)
          exacts [.inl h, .inr (.inr h)]
        · rintro (h | rfl | h)
          exacts [.inl h, .inl hx, .inr h]
      · have : acc.any (· == x) = false := by
          simp only [List.any_eq_false, beq_iff_eq]
          intro y hy e
          exact hx (e ▸ hy)
        simp [this, or_assoc]
  simpa [uniqueVariants] using aux []

/-- `unique_variants.sort(); unique_variants.remove(0)`; a group is never empty, so `remove` finds
an element. -/
def Group.smallest (g : Group) : Bytes :=
  ((uniqueVariants g.variants).insertionSort (· ≤ ·)).head <| by
    intro h
    obtain ⟨x, hx⟩ := List.exists_mem_of_ne_nil _ g.nonempty
    have : x ∈ (uniqueVariants g.variants).insertionSort (· ≤ ·) :=
      (List.mem_insertionSort _).2 (mem_uniqueVariants.2 hx)
    rw [h] at this
    exact absurd this List.not_mem_nil

def normalizePayloads (payloads : Payloads) : Payloads :=
  (groupPayloads payloads).map fun g => (g.mime, g.smallest)

def payloadLe (a b : String × Bytes) : Prop := a.1 < b.1 ∨ a.1 = b.1 ∧ a.2 ≤ b.2

instance : DecidableRel payloadLe := fun a b =>
  inferInstanceAs (Decidable (a.1 < b.1 ∨ a.1 = b.1 ∧ a.2 ≤ b.2))

/-- The bytes `payload_hash` feeds to its hasher. -/
def hashStream (payloads : Payloads) : Bytes :=
  (payloads.insertionSort payloadLe).flatMap fun (mime, data) =>
    asBytes mime ++ [0] ++ data ++ [0]

/-- `sha256` stands for `hex::encode(Sha256::digest(..))`. -/
def payloadHash (sha256 : Bytes → String) (payloads : Payloads) : String :=
  sha256 (hashStream payloads)

/-! ### The normal form -/

/-- Strictly sorted by MIME type; in particular no type occurs twice. -/
def MimeSorted (payloads : Payloads) : Prop := payloads.Pairwise fun a b => a.1 < b.1

instance (payloads : Payloads) : Decidable (MimeSorted payloads) :=
  inferInstanceAs (Decidable (payloads.Pairwise fun a b => a.1 < b.1))

theorem mem_pushVariant_mime {mime m : String} {data : Bytes} {gs : List Group}
    (h : m ∈ (pushVariant mime data gs).map Group.mime) : m = mime ∨ m ∈ gs.map Group.mime := by
  induction gs with
  | nil => simpa [pushVariant] using h
  | cons g gs ih =>
    rw [pushVariant] at h
    split_ifs at h with h1 h2
    · simpa using h
    · exact .inr (by simpa using h)
    · simp only [List.map_cons, List.mem_cons] at h ⊢
      rcases h with h | h
      · exact .inr (.inl h)
      · exact (ih h).imp_right .inr

theorem pushVariant_sorted (mime : String) (data : Bytes) {gs : List Group}
    (h : (gs.map Group.mime).Pairwise (· < ·)) :
    ((pushVariant mime data gs).map Group.mime).Pairwise (· < ·) := by
  induction gs with
  | nil => simp [pushVariant]
  | cons g gs ih =>
    rw [List.map_cons, List.pairwise_cons] at h
    obtain ⟨hg, hgs⟩ := h
    rw [pushVariant]
    split_ifs with h1 h2
    · simp only [List.map_cons, List.pairwise_cons, List.mem_cons]
      refine ⟨?_, hg, hgs⟩
      rintro m (rfl | hm)
      · exact h1
      · exact h1.trans (hg m hm)
    · exact List.pairwise_cons.2 ⟨hg, hgs⟩
    · rw [List.map_cons, List.pairwise_cons]
      refine ⟨fun m hm => ?_, ih hgs⟩
      rcases mem_pushVariant_mime hm with rfl | hm
      · exact lt_of_le_of_ne (not_lt.1 h1) (Ne.symm h2)
      · exact hg m hm

def HasVariant (gs : List Group) (mime : String) (data : Bytes) : Prop :=
  ∃ g ∈ gs, g.mime = mime ∧ data ∈ g.variants

theorem hasVariant_cons {g : Group} {gs : List Group} {mime : String} {data : Bytes} :
    HasVariant (g :: gs) mime data ↔ (g.mime = mime ∧ data ∈ g.variants) ∨ HasVariant gs mime data := by
  simp [HasVariant]

theorem hasVariant_pushVariant {mime m : String} {data d : Bytes} {gs : List Group} :
    HasVariant (pushVariant mime data gs) m d ↔ (m = mime ∧ d = data) ∨ HasVariant gs m d := by
  induction gs with
  | nil => simp [pushVariant, HasVariant, eq_comm]
  | cons g gs ih =>
    rw [pushVariant]
    split_ifs with h1 h2
    · simp [hasVariant_cons, eq_comm]
    · subst h2
      simp only [hasVariant_cons, List.mem_append, List.mem_singleton]
      constructor
      · rintro (⟨rfl, h | rfl⟩ | h)
        exacts [.inr (.inl ⟨rfl, h⟩), .inl ⟨rfl, rfl⟩, .inr (.inr h)]
      · rintro (⟨rfl, rfl⟩ | ⟨rfl, h⟩ | h)
        exacts [.inl ⟨rfl, .inr rfl⟩, .inl ⟨rfl, .inl h⟩, .inr h]
    · rw [hasVariant_cons, hasVariant_cons, ih]
      exact or_left_comm

theorem groupPayloads_spec (payloads : Payloads) :
    ((groupPayloads payloads).map Group.mime).Pairwise (· < ·) ∧
      ∀ m d, HasVariant (groupPayloads payloads) m d ↔ (m, d) ∈ payloads := by
  have aux : ∀ gs : List Group, (gs.map Group.mime).Pairwise (· < ·) →
      ((payloads.foldl (fun gs p => pushVariant p.1 p.2 gs) gs).map Group.mime).Pairwise (· < ·) ∧
        ∀ m d, HasVariant (payloads.foldl (fun gs p => pushVariant p.1 p.2 gs) gs) m d ↔
          HasVariant gs m d ∨ (m, d) ∈ payloads := by
    induction payloads with
    | nil => intro gs hgs; exact ⟨hgs, by simp⟩
    | cons p payloads ih =>
      intro gs hgs
      obtain ⟨h1, h2⟩ := ih _ (pushVariant_sorted p.1 p.2 hgs)
      refine ⟨h1, fun m d => ?_⟩
      rw [List.foldl_cons, h2, hasVariant_pushVariant, List.mem_cons, Prod.ext_iff]
      exact or_assoc.trans or_left_comm
  simpa [groupPayloads, HasVariant] using aux [] (by simp)

theorem Group.smallest_isLeast (g : Group) : IsLeast {d | d ∈ g.variants} g.smallest := by
  set sorted := (uniqueVariants g.variants).insertionSort (· ≤ ·) with hs
  have hmem : ∀ d, d ∈ sorted ↔ d ∈ g.variants := fun d =>
    (List.mem_insertionSort _).trans mem_uniqueVariants
  have hle : sorted.Pairwise (· ≤ ·) := List.pairwise_insertionSort _ _
  obtain ⟨x, rest, hx⟩ : ∃ x rest, sorted = x :: rest := by
    obtain ⟨y, hy⟩ := List.exists_mem_of_ne_nil _ g.nonempty
    exact List.exists_cons_of_ne_nil (List.ne_nil_of_mem ((hmem y).2 hy))
  have hsm : g.smallest = x := by
    simp only [Group.smallest, ← hs, hx, List.head_cons]
  rw [hx] at hmem hle
  rw [hsm]
  refine ⟨(hmem x).1 (by simp), fun d hd => ?_⟩
  rcases List.mem_cons.1 ((hmem d).2 hd) with rfl | hd
  · exact le_rfl
  · exact (List.pairwise_cons.1 hle).1 d hd

theorem normalizePayloads_sorted (payloads : Payloads) : MimeSorted (normalizePayloads payloads) := by
  have h := (groupPayloads_spec payloads).1
  rw [List.pairwise_map] at h
  exact List.pairwise_map.2 h

/-- The normal form pairs each MIME type with the least of its payloads. -/
theorem mem_normalizePayloads {payloads : Payloads} {m : String} {d : Bytes} :
    (m, d) ∈ normalizePayloads payloads ↔ IsLeast {x | (m, x) ∈ payloads} d := by
  obtain ⟨hs, hv⟩ := groupPayloads_spec payloads
  have key : ∀ g ∈ groupPayloads payloads, {x | (g.mime, x) ∈ payloads} = {x | x ∈ g.variants} := by
    intro g hg
    ext x
    simp only [Set.mem_ofPred_eq, ← hv]
    refine ⟨fun ⟨g', hg', hm, hx⟩ => ?_, fun hx => ⟨g, hg, rfl, hx⟩⟩
    have hnd : ((groupPayloads payloads).map Group.mime).Nodup := hs.imp fun h => h.ne
    exact List.inj_on_of_nodup_map hnd hg' hg hm ▸ hx
  simp only [normalizePayloads, List.mem_map, Prod.mk.injEq]
  constructor
  · rintro ⟨g, hg, rfl, rfl⟩
    rw [key g hg]
    exact g.smallest_isLeast
  · intro h
    obtain ⟨g, hg, rfl, -⟩ := (hv m d).2 h.1
    rw [key g hg] at h
    exact ⟨g, hg, rfl, g.smallest_isLeast.unique h⟩

theorem MimeSorted.nodup_mimes {ps : Payloads} (h : MimeSorted ps) : (ps.map Prod.fst).Nodup :=
  List.pairwise_map.2 (h.imp fun hlt => hlt.ne)

theorem MimeSorted.nodup {ps : Payloads} (h : MimeSorted ps) : ps.Nodup :=
  h.nodup_mimes.of_map Prod.fst

theorem MimeSorted.ext {ps qs : Payloads} (hp : MimeSorted ps) (hq : MimeSorted qs)
    (h : ∀ x, x ∈ ps ↔ x ∈ qs) : ps = qs :=
  ((List.perm_ext_iff_of_nodup hp.nodup hq.nodup).2 h).eq_of_pairwise
    (fun _ _ _ _ hab hba => absurd (hab.trans hba) (lt_irrefl _)) hp hq

theorem MimeSorted.unique {ps : Payloads} (h : MimeSorted ps) {m : String} {d d' : Bytes}
    (hd : (m, d) ∈ ps) (hd' : (m, d') ∈ ps) : d = d' :=
  congrArg Prod.snd (List.inj_on_of_nodup_map h.nodup_mimes hd hd' rfl)

theorem normalizePayloads_of_sorted {ps : Payloads} (h : MimeSorted ps) : normalizePayloads ps = ps := by
  refine (normalizePayloads_sorted ps).ext h fun ⟨m, d⟩ => ?_
  rw [mem_normalizePayloads]
  exact ⟨fun hl => hl.1, fun hd => ⟨hd, fun d' hd' => (h.unique hd hd').le⟩⟩

/-- Where no MIME type occurs twice, normalizing only sorts. -/
theorem normalizePayloads_perm {ps : Payloads} (h : (ps.map Prod.fst).Nodup) :
    (normalizePayloads ps).Perm ps := by
  refine (List.perm_ext_iff_of_nodup (normalizePayloads_sorted ps).nodup h.of_map).2 fun ⟨m, d⟩ => ?_
  rw [mem_normalizePayloads]
  refine ⟨fun hl => hl.1, fun hd => ⟨hd, fun d' hd' => ?_⟩⟩
  exact (congrArg Prod.snd (List.inj_on_of_nodup_map h hd hd' rfl)).le

theorem normalizePayloads_congr {ps qs : Payloads} (h : ∀ x, x ∈ ps ↔ x ∈ qs) :
    normalizePayloads ps = normalizePayloads qs := by
  refine (normalizePayloads_sorted ps).ext (normalizePayloads_sorted qs) fun ⟨m, d⟩ => ?_
  rw [mem_normalizePayloads, mem_normalizePayloads]
  simp only [h]

theorem mem_mimes_normalizePayloads {ps : Payloads} {m : String} :
    m ∈ (normalizePayloads ps).map (·.1) ↔ m ∈ ps.map (·.1) := by
  constructor
  · intro h
    obtain ⟨⟨m, d⟩, hd, rfl⟩ := List.mem_map.1 h
    exact List.mem_map_of_mem (mem_normalizePayloads.1 hd).1
  · intro h
    obtain ⟨⟨m, d⟩, hd, rfl⟩ := List.mem_map.1 h
    obtain ⟨g, hg, hm, -⟩ := ((groupPayloads_spec ps).2 m d).2 hd
    exact List.mem_map.2 ⟨_, List.mem_map_of_mem hg, hm⟩

/-- The normal form of a capture is determined by the set of its pairs, and so is its hash. -/
theorem normalizePayloads_canonical (sha256 : Bytes → String) (ps : Payloads) :
    MimeSorted (normalizePayloads ps) ∧
    (∀ m, ((normalizePayloads ps).map (·.1)).count m = if m ∈ ps.map (·.1) then 1 else 0) ∧
    (∀ m d, (m, d) ∈ normalizePayloads ps ↔ IsLeast {x | (m, x) ∈ ps} d) ∧
    (∀ qs : Payloads, (∀ p, p ∈ qs ↔ p ∈ ps) → normalizePayloads qs = normalizePayloads ps ∧
      payloadHash sha256 (normalizePayloads qs) = payloadHash sha256 (normalizePayloads ps)) ∧
    normalizePayloads (normalizePayloads ps) = normalizePayloads ps := by
  have hsorted := normalizePayloads_sorted ps
  refine ⟨hsorted, fun m => ?_, fun m d => mem_normalizePayloads, fun qs h => ?_, ?_⟩
  · rw [hsorted.nodup_mimes.count]
    simp only [mem_mimes_normalizePayloads]
  · have hsame := normalizePayloads_congr h
    exact ⟨hsame, congrArg (payloadHash sha256) hsame⟩
  · exact normalizePayloads_of_sorted hsorted

theorem hashStream_of_sorted {ps : Payloads} (h : MimeSorted ps) :
    hashStream ps = Framing.stream 0 (ps.map fun p => (asBytes p.1, p.2)) := by
  have hsort : ps.insertionSort payloadLe = ps :=
    List.Pairwise.insertionSort_eq (h.imp Or.inl)
  simp [hashStream, hsort, Framing.stream, List.flatMap_map]

end Mimeclip
