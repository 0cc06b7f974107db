import Mimeclip.Trim

/-!
# One order of recency

With distinct timestamps, `trim` leaves the longest run of most recently used rows that is within both limits
(`trim_longest`): the rows that are kept are those of `Lru.evict` on the rows in the order of `list`. Of rows that
share a timestamp the first phase of `trim` spares those that `list` shows first, the second those with the higher
ids. What goes is always the end of the list if and only if the limits part no such rows (`agrees_iff`).
-/

namespace Mimeclip

/-- Some of the rows, and all that were used later than one of them. -/
structure RecentRun (rows run : List EntryRow) : Prop where
  sublist : run.Sublist rows
  closed : ∀ a ∈ run, ∀ b ∈ rows, a.lastUsedAt < b.lastUsedAt → b ∈ run

theorem RecencyPlan.strict (plan : RecencyPlan) {rows : List EntryRow} (h : (rows.map (·.lastUsedAt)).Nodup) :
    (plan.order rows).Pairwise fun a b => b.lastUsedAt < a.lastUsedAt := by
  have hnodup : ((plan.order rows).map (·.lastUsedAt)).Nodup := ((plan.perm rows).map _).nodup_iff.2 h
  exact ((plan.sorted rows).and (List.pairwise_map.1 hnodup)).imp fun h => h.1.lt_of_ne' h.2

namespace Database

variable {plan : RecencyPlan} {self : Database} {rows : List EntryRow}

def fits (self : Database) (rows : List EntryRow) : Bool :=
  decide (rows.length ≤ self.maxEntries.toNat) && decide (sizeSum rows ≤ self.maxHistorySize.toNat)

theorem fits_iff : self.fits rows = true ↔
    rows.length ≤ self.maxEntries.toNat ∧ sizeSum rows ≤ self.maxHistorySize.toNat := by
  simp [fits]

theorem fits_nil : self.fits [] = true := fits_iff.2 ⟨Nat.zero_le _, Int.natCast_nonneg _⟩

/-- The rows fit, and every run of most recently used rows that fits is part of them. -/
structure LongestRun (db : Database) (rows run : List EntryRow) : Prop where
  recent : RecentRun rows run
  count : run.length ≤ db.maxEntries.toNat
  size : sizeSum run ≤ db.maxHistorySize.toNat
  longest : ∀ run', RecentRun rows run' → run'.length ≤ db.maxEntries.toNat →
    sizeSum run' ≤ db.maxHistorySize.toNat → run' ⊆ run

section
variable {s : Store} (hdistinct : (s.entries.map (·.lastUsedAt)).Nodup)
include hdistinct

theorem oldestFirst_mostRecent (hcount : self.maxEntries.toNat < 2 ^ 63) :
    oldestFirst (self.mostRecent plan s.entries) = ((plan.order s.entries).take self.maxEntries.toNat).reverse := by
  have hsorted := (plan.strict hdistinct).sublist (List.take_sublist self.maxEntries.toNat _)
  have hids := self.nodup_ids_mostRecent plan s
  rw [mostRecent, asI64_eq hcount, sqlLimit, if_neg (by omega), Int.toNat_natCast] at hids ⊢
  rw [oldestFirst_congr (List.reverse_perm _).symm hids]
  exact List.Pairwise.insertionSort_eq (List.pairwise_reverse.2 (hsorted.imp fun hlt => .inl hlt))

/-- The two phases evict as one that takes the rows from the back of the list. -/
theorem kept_eq_evict (hnonneg : ∀ r ∈ s.entries, 0 ≤ r.size)
    (hsum : sizeSum (self.mostRecent plan s.entries) ≤ i64Max) (hcount : self.maxEntries.toNat < 2 ^ 63)
    (hlimit : self.maxHistorySize.toNat < 2 ^ 63) :
    self.kept plan s.entries = (Lru.evict self.fits (plan.order s.entries)).reverse := by
  have hrecent : oldestFirst (self.mostRecent plan s.entries) = _ := oldestFirst_mostRecent hdistinct hcount
  have htake : sizeSum ((plan.order s.entries).take self.maxEntries.toNat) ≤ i64Max := by
    rw [← sizeSum_perm (List.reverse_perm _), ← hrecent, sizeSum_perm (oldestFirst_perm _)]
    exact hsum
  have hmem : ∀ r ∈ (plan.order s.entries).take self.maxEntries.toNat, 0 ≤ r.size := fun r hr =>
    hnonneg r ((plan.perm _).subset (List.mem_of_mem_take hr))
  have hfits : ∀ m, m <:+ ((plan.order s.entries).take self.maxEntries.toNat).reverse →
      fitsLimit self.maxHistorySize m = decide (sizeSum m.reverse ≤ self.maxHistorySize.toNat) := by
    intro m hm
    have hle : sizeSum m ≤ sizeSum ((plan.order s.entries).take self.maxEntries.toNat) := by
      rw [← sizeSum_perm (List.reverse_perm ((plan.order s.entries).take _))]
      exact sizeSum_le_of_sublist hm.sublist fun r hr => hmem r (List.mem_reverse.1 hr)
    have hpos : 0 ≤ sizeSum m := sizeSum_nonneg fun r hr => hmem r (List.mem_reverse.1 (hm.subset hr))
    rw [fitsLimit, sizeSum_perm (List.reverse_perm m), wrapI64_eq hpos (hle.trans htake), asI64_eq hlimit]
  rw [show self.fits = fun m : List EntryRow => decide (m.length ≤ self.maxEntries.toNat) &&
      decide (sizeSum m ≤ self.maxHistorySize.toNat) from rfl,
    Lru.evict_and (by simp) (by simp [sizeSum]) (Lru.shrinks_length _), Lru.evict_length, Database.kept, hrecent,
    Lru.dropUntil_congr hfits, Lru.evict, List.reverse_reverse]

/-- The rows of a run come first in the order of recency. -/
theorem filter_run_isPrefix {run : List EntryRow} (h : RecentRun s.entries run) :
    (plan.order s.entries).filter (run.contains ·) <+: plan.order s.entries := by
  refine Lru.filter_isPrefix ((plan.strict hdistinct).imp_of_mem fun {a b} ha hb hlt hmem => ?_)
  rw [List.contains_iff_mem] at hmem ⊢
  exact h.closed b hmem a ((plan.perm _).subset ha) hlt

theorem filter_run_perm {run : List EntryRow} (h : RecentRun s.entries run) :
    ((plan.order s.entries).filter (run.contains ·)).Perm run := by
  have hrows : s.entries.Nodup := hdistinct.of_map
  have hrows' := (plan.perm _).nodup_iff.2 hrows
  refine (List.perm_ext_iff_of_nodup (hrows'.filter _) (hrows.sublist h.sublist)).2 fun r => ?_
  rw [List.mem_filter, List.contains_iff_mem, (plan.perm _).mem_iff]
  exact and_iff_right_of_imp fun hr => h.sublist.subset hr

theorem longestRun_of_perm {run : List EntryRow} (hsub : run.Sublist s.entries)
    (hperm : run.Perm (Lru.evict self.fits (plan.order s.entries))) : self.LongestRun s.entries run := by
  obtain ⟨hcount, hsize⟩ := fits_iff.1 (Lru.fits_evict (self.fits_nil) (plan.order s.entries))
  obtain ⟨rest, hrest⟩ := Lru.evict_isPrefix self.fits (plan.order s.entries)
  refine ⟨⟨hsub, fun a ha b hb hlt => ?_⟩, hperm.length_eq.trans_le hcount, (sizeSum_perm hperm).trans_le hsize, ?_⟩
  · have hb' : b ∈ plan.order s.entries := (plan.perm _).mem_iff.2 hb
    rw [← hrest] at hb'
    rcases List.mem_append.1 hb' with hb' | hb'
    · exact hperm.mem_iff.2 hb'
    · have hsorted := plan.strict hdistinct
      rw [← hrest, List.pairwise_append] at hsorted
      exact absurd hlt (hsorted.2.2 a (hperm.mem_iff.1 ha) b hb').asymm
  · intro run' hrun' hcount' hsize' r hr
    have hrun : ((plan.order s.entries).filter (run'.contains ·)).Perm run' := filter_run_perm hdistinct hrun'
    have hfits : self.fits ((plan.order s.entries).filter (run'.contains ·)) = true :=
      fits_iff.2 ⟨hrun.length_eq.trans_le hcount', (sizeSum_perm hrun).trans_le hsize'⟩
    have hpre := Lru.prefix_evict (filter_run_isPrefix hdistinct hrun') hfits
    exact hperm.mem_iff.2 (hpre.subset (hrun.mem_iff.2 hr))

end

/-- `trim` leaves the longest run of most recently used rows within the limits, as they were, and a second
`trim` leaves everything. -/
theorem trim_longest (plan : RecencyPlan) (self : Database) (s : Store)
    (hdistinct : (s.entries.map (·.lastUsedAt)).Nodup) (hnonneg : ∀ r ∈ s.entries, 0 ≤ r.size)
    (hsum : sizeSum s.entries < 2 ^ 63) (hcount : self.maxEntries.toNat < 2 ^ 63)
    (hlimit : self.maxHistorySize.toNat < 2 ^ 63) :
    ∃ t, (self.trim plan).Returns s () t ∧ self.LongestRun s.entries t.entries ∧
      (∀ r ∈ t.entries, t.payloadsOf r.id = s.payloadsOf r.id) ∧ ∀ plan' u, (self.trim plan').Leaves t u → u = t := by
  have hdrop : (self.dropExcess plan s).entries.Sublist s.entries := List.filter_sublist
  have hsums : self.Sums plan s := ⟨_, Store.sumSizes_of_nonneg (fun r hr => hnonneg r (hdrop.subset hr))
    ((sizeSum_le_of_sublist hdrop hnonneg).trans (Int.le_sub_one_of_lt hsum))⟩
  obtain ⟨t, ht⟩ := exists_trim_returns hsums
  obtain ⟨hrecent, hperm⟩ := trim_returns ht
  rw [kept_eq_evict hdistinct hnonneg hrecent hcount hlimit] at hperm
  have hsub : t.entries.Sublist s.entries := by
    obtain ⟨p, rfl⟩ := trim_leaves plan self ht.leaves
    exact List.filter_sublist
  have hrun := longestRun_of_perm hdistinct hsub (hperm.trans (List.reverse_perm _))
  refine ⟨t, ht, hrun, fun r hr => (trim_frame ht.leaves hr).2, fun plan' u hu => ?_⟩
  exact Within.trim_leaves ⟨hrun.count, fun r hr => hnonneg r (hsub.subset hr), hrun.size⟩ (.inl hlimit) hu

theorem trim_longest_yo :
    ∃ t, ((ofLimits ⟨10, 2⟩).trim .index).Returns (bothCopied 0 1) () t ∧
      (ofLimits ⟨10, 2⟩).LongestRun (bothCopied 0 1).entries t.entries ∧
      (∀ r ∈ t.entries, t.payloadsOf r.id = (bothCopied 0 1).payloadsOf r.id) ∧
      ∀ plan' u, ((ofLimits ⟨10, 2⟩).trim plan').Leaves t u → u = t :=
  trim_longest .index (ofLimits ⟨10, 2⟩) (bothCopied 0 1) (by decide) (by decide) (by decide) (by decide) (by decide)

/-! ### What `list` shows -/

section
variable {T : Type} {chrono : Chrono T} {s t : Store}

def rowEntry (chrono : Chrono T) (now : T) (s : Store) (row : EntryRow) : Entry T where
  id := row.id
  hash := row.hash
  kind := parseKind row.kind
  label := row.label
  preview := row.preview
  size := UInt64.ofInt row.size
  createdAt := (chrono.parse row.createdAt).getD now
  lastUsedAt := (chrono.parse row.lastUsedAt).getD now
  mimeTypes := (s.payloadsOf row.id).map (·.mimeType)

theorem listRows_returns {now : T} {rows : List EntryRow} {entries : List (Entry T)} :
    (listRows chrono now rows).Returns s entries t ↔ entries = rows.map (rowEntry chrono now s) ∧ t = s := by
  induction rows generalizing entries t with
  | nil => rw [listRows, Script.returns_pure]; exact and_congr_left' eq_comm
  | cons row rows ih =>
    rw [listRows, Script.returns_bind]
    constructor
    · rintro ⟨mimeTypes, _, hm, hret⟩
      obtain ⟨hm, rfl⟩ := Script.returns_query.1 hm
      obtain rfl := Except.ok.inj hm
      obtain ⟨rest, _, hrest, hret⟩ := Script.returns_bind.1 hret
      obtain ⟨rfl, rfl⟩ := ih.1 hrest
      obtain ⟨rfl, rfl⟩ := Script.returns_pure.1 hret
      exact ⟨rfl, rfl⟩
    · rintro ⟨rfl, rfl⟩
      exact ⟨_, _, Script.returns_query.2 ⟨rfl, rfl⟩, Script.returns_bind.2
        ⟨_, _, ih.2 ⟨rfl, rfl⟩, Script.returns_pure.2 ⟨rfl, rfl⟩⟩⟩

theorem list_returns {now : T} {limit : UInt64} {entries : List (Entry T)} :
    (list chrono plan now limit).Returns s entries t ↔
      entries = (sqlLimit (asI64 limit) (plan.order s.entries)).map (rowEntry chrono now s) ∧ t = s := by
  rw [list, Script.returns_bind]
  constructor
  · rintro ⟨rows, _, hrows, hret⟩
    obtain ⟨hrows, rfl⟩ := Script.returns_query.1 hrows
    obtain rfl := Except.ok.inj hrows
    exact listRows_returns.1 hret
  · intro h
    exact ⟨_, _, Script.returns_query.2 ⟨rfl, rfl⟩, listRows_returns.2 h⟩

/-! ### Ties -/

/-- Whatever order the queries leave tied rows in, `trim` deletes no row that `list` shows before one it keeps. -/
def Agrees (chrono : Chrono T) (self : Database) (s : Store) : Prop :=
  ∀ listPlan now limit shown, (list chrono listPlan now limit).Returns s shown s →
    ∀ trimPlan t, (self.trim trimPlan).Returns s () t →
      shown.Pairwise fun a b => b.id ∈ t.ids → a.id ∈ t.ids

/-- The limits spare all or none of the rows with one timestamp. -/
def TiesTogether (self : Database) (s : Store) : Prop :=
  ∀ plan, self.Sums plan s → ∀ a ∈ s.entries, ∀ b ∈ s.entries, a.lastUsedAt = b.lastUsedAt →
    self.Spares plan s.entries a → self.Spares plan s.entries b

theorem mem_mostRecent_of_lt {a b : EntryRow} (h : b ∈ self.mostRecent plan rows) (ha : a ∈ rows)
    (hlt : b.lastUsedAt < a.lastUsedAt) : a ∈ self.mostRecent plan rows := by
  have hsorted := plan.sorted rows
  have ha' : a ∈ plan.order rows := (plan.perm rows).mem_iff.2 ha
  rw [mostRecent, sqlLimit] at h ⊢
  split_ifs at h ⊢
  · exact ha'
  · rw [← List.take_append_drop (asI64 self.maxEntries).toNat (plan.order rows)] at ha' hsorted
    refine (List.mem_append.1 ha').resolve_right fun hdrop => ?_
    exact absurd hlt (not_lt.2 ((List.pairwise_append.1 hsorted).2.2 b h a hdrop))

/-- A row used later than one that is spared is spared too. -/
theorem Spares.of_lt {a b : EntryRow} (h : self.Spares plan rows b) (ha : a ∈ rows)
    (hlt : b.lastUsedAt < a.lastUsedAt) : self.Spares plan rows a := by
  obtain ⟨older, newer, hrows, hb, hfits⟩ := h
  have hsorted : (oldestFirst (self.mostRecent plan rows)).Pairwise (byKeyThenId (·.lastUsedAt)) :=
    List.pairwise_insertionSort _ _
  have hmem : b ∈ oldestFirst (self.mostRecent plan rows) := hrows ▸ List.mem_append_right _ hb
  have ha' : a ∈ oldestFirst (self.mostRecent plan rows) :=
    (oldestFirst_perm _).mem_iff.2 (mem_mostRecent_of_lt ((oldestFirst_perm _).mem_iff.1 hmem) ha hlt)
  rw [hrows] at ha' hsorted
  refine ⟨older, newer, hrows, (List.mem_append.1 ha').resolve_left fun holder => ?_, hfits⟩
  exact absurd hlt (not_lt.2 ((List.pairwise_append.1 hsorted).2.2 a holder b hb).le)

theorem mem_ids_trim {r : EntryRow} (h : (self.trim plan).Returns s () t) (hr : r ∈ s.entries) :
    r.id ∈ t.ids ↔ self.Spares plan s.entries r := by
  rw [← mem_kept, ← (trim_returns h).2.mem_iff, Store.mem_ids]
  constructor
  · rintro ⟨r', hr', hid⟩
    rwa [← Store.eq_of_id (trim_frame h.leaves hr').1 hr hid]
  · intro hr
    exact ⟨r, hr, rfl⟩

end

end Database

/-- The order of the rows in which ties come by descending id. -/
def RecencyPlan.newest : RecencyPlan where
  order rows := (oldestFirst rows).reverse
  perm rows := (List.reverse_perm _).trans (oldestFirst_perm rows)
  sorted rows := List.pairwise_reverse.2 ((List.pairwise_insertionSort _ rows).imp fun h => h.le)

/-- Some order of the rows has `b` before `a`, unless `a` was used later. -/
theorem RecencyPlan.exists_before {rows : List EntryRow} {a b : EntryRow} (ha : a ∈ rows) (hb : b ∈ rows)
    (hne : a.id ≠ b.id) (heq : a.lastUsedAt = b.lastUsedAt) :
    ∃ plan : RecencyPlan, ∃ l₁ l₂, plan.order rows = l₁ ++ a :: l₂ ∧ b ∈ l₁ := by
  have hbefore : ∀ (plan : RecencyPlan), ¬ (∃ l₁ l₂, plan.order rows = l₁ ++ a :: l₂ ∧ b ∈ l₂) →
      ∃ plan : RecencyPlan, ∃ l₁ l₂, plan.order rows = l₁ ++ a :: l₂ ∧ b ∈ l₁ := by
    intro plan hnot
    obtain ⟨l₁, l₂, hsplit⟩ := List.append_of_mem ((plan.perm rows).mem_iff.2 ha)
    have hb' : b ∈ l₁ ++ a :: l₂ := hsplit ▸ (plan.perm rows).mem_iff.2 hb
    rcases List.mem_append.1 hb' with hb' | hb'
    · exact ⟨plan, l₁, l₂, hsplit, hb'⟩
    · rcases List.mem_cons.1 hb' with rfl | hb'
      · exact absurd rfl hne
      · exact absurd ⟨l₁, l₂, hsplit, hb'⟩ hnot
  rcases lt_or_gt_of_ne hne with hlt | hlt
  · refine hbefore .newest ?_
    rintro ⟨l₁, l₂, hsplit, hmem⟩
    have hsorted : (RecencyPlan.newest.order rows).Pairwise fun a b => byKeyThenId (·.lastUsedAt) b a :=
      List.pairwise_reverse.2 (List.pairwise_insertionSort _ rows)
    rw [hsplit, List.pairwise_append, List.pairwise_cons] at hsorted
    rcases hsorted.2.1.1 b hmem with h | ⟨-, h⟩
    · exact absurd heq h.ne'
    · omega
  · refine hbefore .index ?_
    rintro ⟨l₁, l₂, hsplit, hmem⟩
    have hsorted : (RecencyPlan.index.order rows).Pairwise (byKeyThenId fun r => OrderDual.toDual r.lastUsedAt) :=
      List.pairwise_insertionSort _ rows
    rw [hsplit, List.pairwise_append, List.pairwise_cons] at hsorted
    rcases hsorted.2.1.1 b hmem with h | ⟨-, h⟩
    · exact absurd heq (OrderDual.toDual_lt_toDual.1 h).ne'
    · omega

namespace Database

/-- `list` and `trim` agree on the order of recency if and only if no boundary of `trim` parts tied rows. -/
theorem agrees_iff {T : Type} (chrono : Chrono T) (now : T) (self : Database) (s : Store) :
    self.Agrees chrono s ↔ self.TiesTogether s := by
  constructor
  · intro hagrees plan hsums a ha b hb heq hspared
    by_cases hid : a.id = b.id
    · exact Store.eq_of_id ha hb hid ▸ hspared
    obtain ⟨t, ht⟩ := exists_trim_returns hsums
    obtain ⟨listPlan, l₁, l₂, hsplit, hbefore⟩ := RecencyPlan.exists_before ha hb hid heq
    -- a limit past `i64::MAX` is none
    have hall : sqlLimit (asI64 0x8000000000000000) (listPlan.order s.entries) = listPlan.order s.entries :=
      if_pos (by decide)
    have hpair := hagrees listPlan now 0x8000000000000000 _ (list_returns.2 ⟨rfl, rfl⟩) plan t ht
    rw [hall, List.pairwise_map, hsplit, List.pairwise_append] at hpair
    have hkeeps := hpair.2.2 b hbefore a List.mem_cons_self
    exact (mem_ids_trim ht hb).1 (hkeeps ((mem_ids_trim ht ha).2 hspared))
  · intro htogether listPlan now limit shown hshown trimPlan t ht
    have hlisted : (sqlLimit (asI64 limit) (listPlan.order s.entries)).Sublist (listPlan.order s.entries) := by
      rw [sqlLimit]
      split_ifs
      exacts [.refl _, List.take_sublist _ _]
    rw [(list_returns.1 hshown).1, List.pairwise_map]
    refine ((listPlan.sorted s.entries).sublist hlisted).imp_of_mem fun {a b} ha hb hle hkept => ?_
    have ha' : a ∈ s.entries := (listPlan.perm _).subset (hlisted.subset ha)
    have hb' : b ∈ s.entries := (listPlan.perm _).subset (hlisted.subset hb)
    have hspared : self.Spares trimPlan s.entries b := (mem_ids_trim ht hb').1 hkept
    refine (mem_ids_trim ht ha').2 ?_
    rcases hle.lt_or_eq with hlt | heq
    · exact hspared.of_lt ha' hlt
    · exact htogether trimPlan (trim_returns_sums ht) b hb' a ha' heq hspared

/-- Two texts used at the same instant, with room for one: `list` shows the first before the second, and `trim`
deletes the first. -/
theorem tied_rows_parted :
    ∃ shown t, (list .tenSeconds .index 0 50).Returns (bothCopied 0 0) shown (bothCopied 0 0) ∧
      ((ofLimits ⟨10, 2⟩).trim .index).Returns (bothCopied 0 0) () t ∧ shown.map (·.id) = [1, 2] ∧ t.ids = [2] :=
  ⟨_, _, list_returns.2 ⟨rfl, rfl⟩, Script.returns_of_run (by decide) rfl, rfl, by decide⟩

end Database

end Mimeclip
