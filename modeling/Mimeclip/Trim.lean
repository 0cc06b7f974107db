import Mathlib.Algebra.BigOperators.Group.List.Basic
import Mathlib.Algebra.Order.BigOperators.Group.List
import Mimeclip.Capture
import Mimeclip.Lib.Lru

/-!
# What `trim` keeps

The rows that `trim` leaves are a function of the rows and the limits: of the most recent ones, as many as
`max_entries`, the oldest are dropped until the sizes of the rest fit (`trim_returns`). It does not look at
which row was just written. So an inserted entry is in the table afterwards if and only if the order of the
rows and the limits spare it (`insert_kept_iff`).
-/

namespace Mimeclip

def sizeSum (rows : List EntryRow) : Int := (rows.map (·.size)).sum

theorem sizeSum_perm {rows rows' : List EntryRow} (h : rows.Perm rows') : sizeSum rows = sizeSum rows' :=
  (h.map _).sum_eq

theorem sizeSum_nonneg {rows : List EntryRow} (h : ∀ r ∈ rows, 0 ≤ r.size) : 0 ≤ sizeSum rows :=
  List.sum_nonneg (by simpa using h)

theorem sizeSum_le_of_sublist {rows rows' : List EntryRow} (h : rows.Sublist rows')
    (hnonneg : ∀ r ∈ rows', 0 ≤ r.size) :
    sizeSum rows ≤ sizeSum rows' :=
  (h.map _).sum_le_sum (by simpa using hnonneg)

theorem Store.sumSizes_of_nonneg {s : Store} (h : ∀ r ∈ s.entries, 0 ≤ r.size)
    (hsum : sizeSum s.entries ≤ i64Max) : s.sumSizes = .ok (sizeSum s.entries) := by
  have aux : ∀ (rows : List EntryRow) (acc : Int), 0 ≤ acc → (∀ r ∈ rows, 0 ≤ r.size) →
      acc + sizeSum rows ≤ i64Max → rows.foldlM addSize acc = .ok (acc + sizeSum rows) := by
    intro rows
    induction rows with
    | nil => intro acc _ _ _; simp [sizeSum, pure, Except.pure]
    | cons r rows ih =>
      intro acc hacc hrows hle
      obtain ⟨hr, hrows⟩ := List.forall_mem_cons.1 hrows
      have hrest := sizeSum_nonneg hrows
      have hcons : sizeSum (r :: rows) = r.size + sizeSum rows := List.sum_cons
      rw [hcons] at hle ⊢
      rw [List.foldlM_cons, addSize, if_pos ⟨by omega, by omega⟩, ← Int.add_assoc]
      exact ih _ (by omega) hrows (by omega)
  rw [sumSizes, aux s.entries 0 le_rfl h (by omega), Int.zero_add]

theorem wrapI64_of_range {x : Int} (h : -(2 ^ 63) ≤ x) (hx : x ≤ i64Max) : wrapI64 x = x := by
  unfold i64Max at hx
  rw [wrapI64, Int.bmod_def]
  omega

theorem wrapI64_sub (x y : Int) : wrapI64 (wrapI64 x - y) = wrapI64 (x - y) := Int.bmod_sub_bmod

/-- The test of the eviction loop, when these rows are left. -/
def fitsLimit (maxHistorySize : UInt64) (rows : List EntryRow) : Bool :=
  decide (wrapI64 (sizeSum rows) ≤ asI64 maxHistorySize)

def oldestFirst (rows : List EntryRow) : List EntryRow := rows.insertionSort (byKeyThenId (·.lastUsedAt))

theorem oldestFirst_perm (rows : List EntryRow) : (oldestFirst rows).Perm rows := List.perm_insertionSort _ rows

theorem byKeyThenId.id_eq {a b : EntryRow} (h : byKeyThenId (·.lastUsedAt) a b)
    (h' : byKeyThenId (·.lastUsedAt) b a) : a.id = b.id := by
  rcases h with h | ⟨heq, h⟩ <;> rcases h' with h' | ⟨heq', h'⟩
  · exact absurd h' h.asymm
  · exact absurd heq' h.ne'
  · exact absurd heq h'.ne'
  · exact le_antisymm h h'

theorem oldestFirst_congr {rows rows' : List EntryRow} (h : rows.Perm rows') (hnodup : (rows.map (·.id)).Nodup) :
    oldestFirst rows = oldestFirst rows' := by
  refine ((oldestFirst_perm rows).trans (h.trans (oldestFirst_perm rows').symm)).eq_of_pairwise
    (fun a b ha hb hab hba => ?_) (List.pairwise_insertionSort _ _) (List.pairwise_insertionSort _ _)
  have ha' : a ∈ rows := (oldestFirst_perm rows).subset ha
  have hb' : b ∈ rows := h.symm.subset ((oldestFirst_perm rows').subset hb)
  exact List.inj_on_of_nodup_map hnodup ha' hb' (hab.id_eq hba)

namespace Database

variable {T : Type} {chrono : Chrono T} (plan : RecencyPlan) (self : Database)

/-! ### The rows `trim` keeps -/

def mostRecent (rows : List EntryRow) : List EntryRow := sqlLimit (asI64 self.maxEntries) (plan.order rows)

def kept (rows : List EntryRow) : List EntryRow :=
  Lru.dropUntil (fitsLimit self.maxHistorySize) (oldestFirst (self.mostRecent plan rows))

theorem mostRecent_sublist (rows : List EntryRow) : (self.mostRecent plan rows).Sublist (plan.order rows) := by
  rw [mostRecent, sqlLimit]
  split_ifs
  · exact .refl _
  · exact List.take_sublist _ _

theorem nodup_ids_mostRecent (s : Store) : ((self.mostRecent plan s.entries).map (·.id)).Nodup := by
  have horder : ((plan.order s.entries).map (·.id)).Nodup := ((plan.perm s.entries).map _).nodup_iff.2 s.nodup_ids
  exact horder.sublist ((self.mostRecent_sublist plan _).map _)

theorem dropExcess_perm (s : Store) : (self.dropExcess plan s).entries.Perm (self.mostRecent plan s.entries) := by
  have hids := (self.dropExcess plan s).nodup_ids
  refine (List.perm_ext_iff_of_nodup hids.of_map (self.nodup_ids_mostRecent plan s).of_map).2 fun r => ?_
  rw [dropExcess, Store.mem_deleteWhere, Bool.not_eq_false', List.contains_iff_mem]
  constructor
  · rintro ⟨hr, hid⟩
    obtain ⟨r', hr', hid⟩ := List.mem_map.1 hid
    have hmem : r' ∈ s.entries := (plan.perm _).subset ((self.mostRecent_sublist plan _).subset hr')
    exact Store.eq_of_id hmem hr hid ▸ hr'
  · intro hr
    exact ⟨(plan.perm _).subset ((self.mostRecent_sublist plan _).subset hr), List.mem_map_of_mem hr⟩

variable {plan self}

/-- The loop that evicts by size, when `rows` are the rows of the table and `remaining` is their size. -/
theorem evict_returns {limit : UInt64} {rows : List EntryRow} {remaining : Int} {s t : Store} {u : Unit}
    (hrows : s.entries.Perm rows) (hremaining : remaining = wrapI64 (sizeSum rows))
    (h : (evict limit (rows.map fun r => (r.id, r.size)) remaining).Returns s u t) :
    t.entries.Perm (Lru.dropUntil (fitsLimit limit) rows) := by
  induction rows generalizing s remaining with
  | nil => exact h.2 ▸ hrows
  | cons r rows ih =>
    rw [List.map_cons, evict] at h
    rw [Lru.dropUntil, fitsLimit, ← hremaining]
    by_cases hfits : remaining ≤ asI64 limit
    · rw [if_pos hfits] at h
      rw [if_pos (decide_eq_true hfits), (Script.returns_pure.1 h).2]
      exact hrows
    rw [if_neg hfits] at h
    rw [if_neg (by simpa using hfits)]
    obtain ⟨_, s', hs', h⟩ := Script.returns_bind.1 h
    cases Script.returns_update.1 hs'
    refine ih ?_ ?_ h
    · have hnodup : ((r :: rows).map (·.id)).Nodup := (hrows.map _).nodup_iff.1 s.nodup_ids
      have hne : ∀ r' ∈ rows, r'.id ≠ r.id := fun r' hr' heq =>
        (List.nodup_cons.1 hnodup).1 (List.mem_map.2 ⟨r', hr', heq⟩)
      have hfilter : (r :: rows).filter (fun r' => !(r'.id == r.id)) = rows := by
        rw [List.filter_cons_of_neg (by simp)]
        exact List.filter_eq_self.2 fun r' hr' => by simpa using hne r' hr'
      exact hfilter ▸ hrows.filter _
    · rw [hremaining, wrapI64_sub, sizeSum, List.map_cons, List.sum_cons, Int.add_comm, Int.add_sub_cancel]
      rfl

/-- SQLite can add up the sizes that the first phase leaves. -/
def Sums (self : Database) (plan : RecencyPlan) (s : Store) : Prop :=
  ∃ total, (self.dropExcess plan s).sumSizes = .ok total

theorem trim_returns_sums {s t : Store} {u : Unit} (h : (self.trim plan).Returns s u t) : self.Sums plan s := by
  rw [trim] at h
  obtain ⟨_, s₁, hs₁, h⟩ := Script.returns_bind.1 h
  cases Script.returns_update.1 hs₁
  obtain ⟨total, s₁, hs₁, -⟩ := Script.returns_bind.1 h
  exact ⟨total, (Script.returns_query.1 hs₁).1⟩

theorem trim_returns {s t : Store} {u : Unit} (h : (self.trim plan).Returns s u t) :
    sizeSum (self.mostRecent plan s.entries) ≤ i64Max ∧ t.entries.Perm (self.kept plan s.entries) := by
  rw [trim] at h
  obtain ⟨_, s₁, hs₁, h⟩ := Script.returns_bind.1 h
  cases Script.returns_update.1 hs₁
  obtain ⟨total, s₁, hs₁, h⟩ := Script.returns_bind.1 h
  obtain ⟨hsum, rfl⟩ := Script.returns_query.1 hs₁
  have hperm := self.dropExcess_perm plan s
  have hsorted : (oldestFirst (self.mostRecent plan s.entries)) = oldestFirst (self.dropExcess plan s).entries :=
    (oldestFirst_congr hperm (Store.nodup_ids _)).symm
  obtain ⟨(htotal : total = sizeSum _), hlow, hhigh⟩ := Store.sumSizes_ok hsum
  have hwrap : total = wrapI64 (sizeSum (oldestFirst (self.dropExcess plan s).entries)) := by
    rw [sizeSum_perm (oldestFirst_perm _), ← htotal, wrapI64_of_range hlow hhigh]
  refine ⟨by rw [← sizeSum_perm hperm, ← htotal]; exact hhigh, ?_⟩
  rw [kept, hsorted]
  split_ifs at h with hgt
  · obtain ⟨rows, s₂, hs₂, h⟩ := Script.returns_bind.1 h
    obtain ⟨hrows, rfl⟩ := Script.returns_query.1 hs₂
    cases hrows
    exact evict_returns (oldestFirst_perm _).symm hwrap h
  · obtain ⟨-, rfl⟩ := Script.returns_pure.1 h
    have hfits : fitsLimit self.maxHistorySize (oldestFirst (self.dropExcess plan s).entries) = true :=
      decide_eq_true (hwrap ▸ not_lt.1 hgt)
    rw [Lru.dropUntil_of_fits hfits]
    exact (oldestFirst_perm _).symm

/-- A limit that is positive as an `i64` holds afterwards. -/
theorem trim_returns_size {s t : Store} {u : Unit} (h : (self.trim plan).Returns s u t)
    (hnonneg : ∀ r ∈ s.entries, 0 ≤ r.size) (hlimit : self.maxHistorySize.toNat < 2 ^ 63) :
    sizeSum t.entries ≤ self.maxHistorySize.toNat := by
  obtain ⟨htotal, hkept⟩ := trim_returns h
  have hfits : fitsLimit self.maxHistorySize (self.kept plan s.entries) = true := by
    refine Lru.fits_dropUntil (decide_eq_true ?_) _
    rw [asI64_eq hlimit]
    exact Int.natCast_nonneg _
  have hsuffix : (self.kept plan s.entries) <:+ oldestFirst (self.mostRecent plan s.entries) :=
    Lru.dropUntil_isSuffix _ _
  have hmem : ∀ r ∈ oldestFirst (self.mostRecent plan s.entries), 0 ≤ r.size := fun r hr =>
    hnonneg r ((plan.perm _).subset ((self.mostRecent_sublist plan _).subset ((oldestFirst_perm _).subset hr)))
  have hle : sizeSum (self.kept plan s.entries) ≤ sizeSum (self.mostRecent plan s.entries) := by
    rw [← sizeSum_perm (oldestFirst_perm (self.mostRecent plan s.entries))]
    exact sizeSum_le_of_sublist hsuffix.sublist hmem
  have hpos : 0 ≤ sizeSum (self.kept plan s.entries) :=
    sizeSum_nonneg fun r hr => hmem r (hsuffix.subset hr)
  rw [sizeSum_perm hkept]
  rw [fitsLimit, decide_eq_true_iff, wrapI64_eq hpos (hle.trans htotal), asI64_eq hlimit] at hfits
  exact hfits

/-! ### What becomes of an inserted entry -/

/-- The rows of the table once the entry is written into it. -/
def writtenRows (chrono : Chrono T) (self : Database) (entry : NewEntry T) (s : Store) : List EntryRow :=
  match known s entry.hash with
  | some id => s.entries.map fun r =>
    if r.id = id then { r with toEntryColumns := refreshColumns chrono entry r.toEntryColumns } else r
  | none => s.entries ++ [⟨self.newColumns chrono entry, s.nextEntryId⟩]

/-- The limits leave room for the row: it is one of the `max_entries` most recent of the rows, and from some
row that is not newer on, the sizes of these fit. -/
def Spares (plan : RecencyPlan) (self : Database) (rows : List EntryRow) (row : EntryRow) : Prop :=
  ∃ older newer, oldestFirst (self.mostRecent plan rows) = older ++ newer ∧ row ∈ newer ∧
    wrapI64 (sizeSum newer) ≤ asI64 self.maxHistorySize

theorem mem_kept {rows : List EntryRow} {row : EntryRow} :
    row ∈ self.kept plan rows ↔ self.Spares plan rows row := by
  rw [kept, Lru.mem_dropUntil, Spares]
  simp only [fitsLimit, decide_eq_true_eq]

theorem Written.entries_eq {entry : NewEntry T} {s w : Store} {id : Int}
    (h : Written chrono self entry s id w) : w.entries = self.writtenRows chrono entry s := by
  cases h with
  | refreshed hid => rw [writtenRows, hid]; rfl
  | added s₁ hid hs₁ =>
    obtain ⟨rfl, hh, rfl⟩ := Store.insertEntry_ok hs₁
    rw [writtenRows, hid, Store.entries_addPayloads]; rfl

theorem Written.known_eq {entry : NewEntry T} {s w : Store} {id : Int}
    (h : Written chrono self entry s id w) : known w entry.hash = some id := by
  rw [known_eq_some]
  cases h with
  | refreshed hid =>
    obtain ⟨r, hr, hhash, rfl⟩ := known_eq_some.1 hid
    exact ⟨_, List.mem_map_of_mem hr, by simpa [refreshColumns] using hhash, by simp⟩
  | added s₁ hid hs₁ =>
    obtain ⟨rfl, hh, rfl⟩ := Store.insertEntry_ok hs₁
    exact ⟨_, by rw [Store.entries_addPayloads]; exact List.mem_concat_self, rfl, rfl⟩

/-- An insert that returned `id` has left its entry in the table if and only if the limits spare the row it
has written. -/
theorem insert_kept_iff (chrono : Chrono T) (plan : RecencyPlan) (self : Database) (entry : NewEntry T)
    {s t : Store} {id : Int} (h : (self.insert chrono plan entry).Returns s id t) :
    (∃ r ∈ t.entries, r.id = id ∧ r.hash = entry.hash) ↔
      ∃ row ∈ self.writtenRows chrono entry s, row.hash = entry.hash ∧
        self.Spares plan (self.writtenRows chrono entry s) row := by
  obtain ⟨w, hw, htrim⟩ := insert_returns h
  have hkept : ∀ r, r ∈ t.entries ↔ self.Spares plan w.entries r := fun r =>
    (trim_returns htrim).2.mem_iff.trans mem_kept
  obtain ⟨r₀, hr₀, hhash₀, hid₀⟩ := known_eq_some.1 hw.known_eq
  rw [← hw.entries_eq]
  constructor
  · rintro ⟨r, hr, -, hhash⟩
    exact ⟨r, (trim_frame htrim.leaves hr).1, hhash, (hkept r).1 hr⟩
  · rintro ⟨row, hrow, hhash, hspares⟩
    obtain rfl := Store.eq_of_hash hrow hr₀ (hhash.trans hhash₀.symm)
    exact ⟨row, (hkept row).2 hspares, hid₀, hhash⟩

/-- With room for two entries, a third text is copied. -/
theorem insert_kept_iff_third :
    let db := ofLimits ⟨2, 1024⟩
    let entry := textEntry "0f5ac9" "ok" 5
    let t := ((db.insert .tenSeconds .index entry).run none (bothCopied 2 1)).2.1
    (∃ r ∈ t.entries, r.id = 3 ∧ r.hash = "0f5ac9") ↔
      ∃ row ∈ db.writtenRows .tenSeconds entry (bothCopied 2 1), row.hash = "0f5ac9" ∧
        db.Spares .index (db.writtenRows .tenSeconds entry (bothCopied 2 1)) row :=
  insert_kept_iff .tenSeconds .index (ofLimits ⟨2, 1024⟩) (textEntry "0f5ac9" "ok" 5)
    (Script.returns_of_run (by decide) rfl)

/-- With room for one entry, and the clock set back between the two captures. -/
theorem reported_insert_dropped :
    let insert := (ofLimits ⟨1, 1024⟩).insert .tenSeconds .index
    ∃ s t, (insert (textEntry hiHash "hi" 5)).Returns .fresh 1 s ∧
      (insert (textEntry yoHash "yo" 0)).Returns s 2 t ∧ ¬ ∃ r ∈ t.entries, r.id = 2 ∧ r.hash = yoHash := by
  refine ⟨_, _, Script.returns_of_run (by decide) rfl, Script.returns_of_run (by decide) rfl, by decide⟩

/-! ### A table within the limits -/

theorem sqlLimit_of_length {x : UInt64} {rows : List EntryRow} (h : rows.length ≤ x.toNat) :
    sqlLimit (asI64 x) rows = rows := by
  rw [sqlLimit]
  split_ifs with hneg
  · rfl
  · refine List.take_of_length_le (h.trans ?_)
    have hx := x.toNat_lt
    rw [asI64_cases] at hneg ⊢
    split_ifs at hneg ⊢ <;> omega

theorem dropExcess_of_length {s : Store} (h : s.entries.length ≤ self.maxEntries.toNat) :
    self.dropExcess plan s = s := by
  rw [dropExcess, sqlLimit_of_length ((plan.perm _).length_eq.trans_le h)]
  refine s.deleteWhere_eq_self fun r hr => ?_
  rw [Bool.not_eq_false', List.contains_iff_mem]
  exact List.mem_map_of_mem ((plan.perm _).symm.subset hr)

/-- The limits hold, compared as unsigned integers. -/
structure Within (db : Database) (s : Store) : Prop where
  count : s.entries.length ≤ db.maxEntries.toNat
  nonneg : ∀ r ∈ s.entries, 0 ≤ r.size
  size : sizeSum s.entries ≤ db.maxHistorySize.toNat

/-- Either the limit is positive as an `i64` too, or there is nothing to evict, or SQLite cannot add up the
sizes and `trim` fails before it evicts. -/
def Sound (db : Database) (s : Store) : Prop :=
  db.maxHistorySize.toNat < 2 ^ 63 ∨ s.entries = [] ∨ i64Max < sizeSum s.entries

theorem evict_nil_leaves {limit : UInt64} {remaining : Int} {s t : Store}
    (h : (evict limit [] remaining).Leaves s t) : t = s := h

theorem Within.trim_leaves {s t : Store} (h : self.Within s) (hsound : self.Sound s)
    (hleaves : (self.trim plan).Leaves s t) : t = s := by
  rw [trim] at hleaves
  rcases Script.leaves_bind.1 hleaves with hfirst | ⟨_, s₁, hs₁, hrest⟩
  · rcases Script.leaves_update.1 hfirst with rfl | ⟨_, hupdate⟩
    · rfl
    · cases hupdate
      exact dropExcess_of_length h.count
  cases Script.returns_update.1 hs₁
  rw [dropExcess_of_length h.count] at hrest
  rcases Script.leaves_bind.1 hrest with hquery | ⟨total, s₂, hs₂, hevict⟩
  · exact Script.leaves_query.1 hquery
  obtain ⟨hsum, hs₂⟩ := Script.returns_query.1 hs₂
  obtain ⟨(htotal : total = sizeSum _), -, hhigh⟩ := Store.sumSizes_ok hsum
  rw [hs₂] at hevict
  rcases hsound with hlimit | hnil | hoverflow
  · have hle : ¬ total > asI64 self.maxHistorySize := by
      rw [asI64_eq hlimit, htotal]
      exact not_lt.2 h.size
    rw [if_neg hle] at hevict
    exact hevict
  · split_ifs at hevict
    · rcases Script.leaves_bind.1 hevict with hquery | ⟨rows, s₃, hs₃, hevict⟩
      · exact Script.leaves_query.1 hquery
      obtain ⟨hrows, rfl⟩ := Script.returns_query.1 hs₃
      cases hrows
      rw [hnil] at hevict
      exact evict_nil_leaves hevict
    · exact hevict
  · exact absurd (htotal ▸ hhigh) (not_le.2 hoverflow)

theorem evict_total (limit : UInt64) (rows : List (Int × Int)) (remaining : Int) (s : Store) :
    ∃ t, (evict limit rows remaining).Returns s () t := by
  induction rows generalizing remaining s with
  | nil => exact ⟨s, rfl, rfl⟩
  | cons row rows ih =>
    rw [evict]
    split_ifs
    · exact ⟨s, rfl, rfl⟩
    · obtain ⟨t, ht⟩ := ih (wrapI64 (remaining - row.2)) (s.deleteWhere (·.id == row.1))
      exact ⟨t, Script.returns_bind.2 ⟨(), _, Script.returns_update.2 rfl, ht⟩⟩

/-- `trim` returns unless SQLite cannot add up the sizes that are left. -/
theorem exists_trim_returns {plan : RecencyPlan} {s : Store} (h : self.Sums plan s) :
    ∃ t, (self.trim plan).Returns s () t := by
  obtain ⟨total, hsum⟩ := h
  obtain ⟨t, ht⟩ := evict_total self.maxHistorySize
    ((oldestFirst (self.dropExcess plan s).entries).map fun r => (r.id, r.size)) total (self.dropExcess plan s)
  have hrest : ∃ t, ((do
      if total > asI64 self.maxHistorySize then do
        let entries ← .query fun s =>
          .ok ((s.entries.insertionSort (byKeyThenId (·.lastUsedAt))).map fun r => (r.id, r.size))
        evict self.maxHistorySize entries total
      else pure ()) : Sql Unit).Returns (self.dropExcess plan s) () t := by
    split_ifs
    · exact ⟨t, Script.returns_bind.2 ⟨_, _, Script.returns_query.2 ⟨rfl, rfl⟩, ht⟩⟩
    · exact ⟨_, Script.returns_pure.2 ⟨rfl, rfl⟩⟩
  obtain ⟨t, ht⟩ := hrest
  refine ⟨t, Script.returns_bind.2 ⟨(), _, Script.returns_update.2 rfl, ?_⟩⟩
  exact Script.returns_bind.2 ⟨total, _, Script.returns_query.2 ⟨hsum, rfl⟩, ht⟩

/-- Outside of that, `trim` returns with an empty table. -/
theorem Within.trim_returns_nil {s : Store} (h : self.Within s) (plan : RecencyPlan) (hsound : ¬ self.Sound s) :
    ∃ t, (self.trim plan).Returns s () t ∧ t.entries = [] := by
  obtain ⟨hlimit, hnil, hsum⟩ : 2 ^ 63 ≤ self.maxHistorySize.toNat ∧ s.entries ≠ [] ∧ sizeSum s.entries ≤ i64Max := by
    simpa [Sound] using hsound
  have hneg : asI64 self.maxHistorySize < 0 := by
    have := self.maxHistorySize.toNat_lt
    rw [asI64_cases, if_neg (by omega)]
    omega
  have hsums : self.Sums plan s := by
    refine ⟨sizeSum s.entries, ?_⟩
    rw [dropExcess_of_length h.count]
    exact Store.sumSizes_of_nonneg h.nonneg hsum
  obtain ⟨t, ht⟩ := exists_trim_returns hsums
  refine ⟨t, ht, List.eq_nil_iff_forall_not_mem.2 fun r hr => ?_⟩
  obtain ⟨older, newer, hrows, hmem, hfits⟩ := mem_kept.1 ((trim_returns ht).2.mem_iff.1 hr)
  have hperm : (older ++ newer).Perm s.entries := by
    rw [← hrows, mostRecent, sqlLimit_of_length ((plan.perm _).length_eq.trans_le h.count)]
    exact (oldestFirst_perm _).trans (plan.perm _)
  have hnonneg : ∀ rows, rows ⊆ older ++ newer → 0 ≤ sizeSum rows := fun rows hsub =>
    sizeSum_nonneg fun r hr => h.nonneg r (hperm.subset (hsub hr))
  have hsplit : sizeSum older + sizeSum newer = sizeSum s.entries := by
    rw [← sizeSum_perm hperm, sizeSum, sizeSum, sizeSum, List.map_append, List.sum_append]
  have holder := hnonneg older (List.subset_append_left _ _)
  have hnewer := hnonneg newer (List.subset_append_right _ _)
  rw [wrapI64_eq hnewer (by omega)] at hfits
  omega

end Database

end Mimeclip
