import Mathlib.Algebra.BigOperators.Group.List.Basic
import Mathlib.Algebra.Order.BigOperators.Group.List
import Mimeclip.DbRefs
import Mimeclip.Recency

/-!
# The history is an LRU cache

`Cache` is what the database is for: a list of items, the most recently used first, from whose back
items are dropped until the limits hold. `Holds` relates the tables to such a list, every operation is
shown to act on the tables as on the list (`Holds.trim`, `Holds.promote`, `Holds.push`,
`Holds.listRows`), and `database_refines_lru` puts a run of operations together.
-/

namespace Mimeclip

/-! ### The cache -/

structure Item (T : Type) where
  id : Int
  hash : String
  kind : EntryKind
  label : String
  preview : String
  size : UInt64
  createdAt : T
  lastUsedAt : T
  payloads : Payloads

namespace Item
variable {T : Type}

def ofNew (id : Int) (entry : NewEntry T) : Item T where
  id := id
  hash := entry.hash
  kind := entry.kind
  label := entry.label
  preview := entry.preview
  size := entry.size
  createdAt := entry.createdAt
  lastUsedAt := entry.createdAt
  payloads := entry.payloads

def refresh (entry : NewEntry T) (item : Item T) : Item T :=
  { item with kind := entry.kind, label := entry.label, preview := entry.preview, size := entry.size,
              lastUsedAt := entry.createdAt }

def touch (now : T) (item : Item T) : Item T := { item with lastUsedAt := now }

def entry (item : Item T) : Entry T where
  id := item.id
  hash := item.hash
  kind := item.kind
  label := item.label
  preview := item.preview
  size := item.size
  createdAt := item.createdAt
  lastUsedAt := item.lastUsedAt
  mimeTypes := item.payloads.map (·.1)

def row (chrono : Chrono T) (item : Item T) : EntryRow where
  id := item.id
  hash := item.hash
  kind := item.kind.label
  label := item.label
  preview := item.preview
  size := asI64 item.size
  createdAt := chrono.toRfc3339 item.createdAt
  lastUsedAt := chrono.toRfc3339 item.lastUsedAt
  timestamp := none

end Item

/-- The history, the most recently used item first, with the largest id handed out so far. -/
structure Cache (T : Type) where
  items : List (Item T)
  issued : Int
  limits : Limits

namespace Cache
variable {T : Type}

def empty (limits : Limits) : Cache T where
  items := []
  issued := 0
  limits := limits

def totalSize (items : List (Item T)) : Nat := (items.map (·.size.toNat)).sum

@[simp] theorem totalSize_reverse (items : List (Item T)) : totalSize items.reverse = totalSize items := by
  rw [totalSize, List.map_reverse, List.sum_reverse, totalSize]

def within (limits : Limits) (items : List (Item T)) : Bool :=
  decide (items.length ≤ limits.maxEntries.toNat) && decide (totalSize items ≤ limits.maxHistorySize.toNat)

theorem within_iff {limits : Limits} {items : List (Item T)} :
    within limits items = true ↔
      items.length ≤ limits.maxEntries.toNat ∧ totalSize items ≤ limits.maxHistorySize.toNat := by
  simp [within]

theorem within_nil (limits : Limits) : within limits ([] : List (Item T)) = true := by
  simp [within, totalSize]

theorem within_promote {limits : Limits} {items : List (Item T)} {p : Item T → Bool} {g : Item T → Item T}
    (hg : ∀ item, (g item).size = item.size) (h : within limits items = true) :
    within limits (Lru.promote p g items) = true := by
  rw [within_iff] at h ⊢
  have hperm := Lru.promote_perm p g items
  refine ⟨by simpa [hperm.length_eq] using h.1, ?_⟩
  rw [totalSize, (hperm.map _).sum_eq, List.map_map]
  have hsize : ((·.size.toNat) ∘ fun item => if p item then g item else item) =
      fun item : Item T => item.size.toNat := by
    funext item
    simp only [Function.comp_apply]
    split_ifs <;> simp [hg]
  rw [hsize]
  exact h.2

theorem within_filter {limits : Limits} {items : List (Item T)} (keep : Item T → Bool)
    (h : within limits items = true) : within limits (items.filter keep) = true := by
  rw [within_iff] at h ⊢
  refine ⟨(List.length_filter_le keep items).trans h.1, le_trans ?_ h.2⟩
  exact (List.filter_sublist.map _).sum_le_sum fun _ _ => Nat.zero_le _

/-- What the operations do to the history, and what they return. -/
inductive Step : Cache T → Op T × Output T → Cache T → Prop
  | refresh {c : Cache T} {entry : NewEntry T} {item : Item T} (hmem : item ∈ c.items)
      (hhash : item.hash = entry.hash) :
      Step c (.insert entry, .inserted item.id)
        { c with
          items := Lru.evict (within c.limits)
            (Lru.promote (·.hash == entry.hash) (·.refresh entry) c.items) }
  | push {c : Cache T} {entry : NewEntry T} {id : Int} (hnew : ∀ item ∈ c.items, item.hash ≠ entry.hash)
      (hid : c.issued < id) :
      Step c (.insert entry, .inserted id)
        { c with items := Lru.evict (within c.limits) (.ofNew id entry :: c.items), issued := id }
  | touch {c : Cache T} {now : T} {id : Int} :
      Step c (.touchLastUsed now id, .touched)
        { c with items := Lru.promote (·.id == id) (·.touch now) c.items }
  | delete {c : Cache T} {id : Int} :
      Step c (.delete id, .deleted (c.items.any (·.id == id)))
        { c with items := c.items.filter (·.id != id) }
  | clear {c : Cache T} : Step c (.clear, .cleared c.items.length) { c with items := [] }
  | setLimits {c : Cache T} {limits : Limits} :
      Step c (.setLimits limits, .limited)
        { c with limits, items := Lru.evict (within limits) c.items }
  | list {c : Cache T} {now : T} {k : UInt64} :
      Step c (.list now k, .listed ((c.items.take k.toNat).map (·.entry))) c

end Cache

def Database.limits (self : Database) : Limits := ⟨self.maxEntries, self.maxHistorySize⟩

/-- Limits that `as i64` does not turn negative. -/
def Limits.InRange (limits : Limits) : Prop :=
  limits.maxEntries.toNat < 2 ^ 63 ∧ limits.maxHistorySize.toNat < 2 ^ 63

instance : DecidablePred Limits.InRange := fun limits =>
  inferInstanceAs (Decidable (limits.maxEntries.toNat < 2 ^ 63 ∧ limits.maxHistorySize.toNat < 2 ^ 63))

theorem filter_keys_left {α κ : Type} [DecidableEq κ] {key : α → κ} {a b : List α}
    (h : ((a ++ b).map key).Nodup) : (a ++ b).filter (fun x => (a.map key).contains (key x)) = a := by
  rw [List.map_append, List.nodup_append] at h
  have ha : a.filter (fun x => (a.map key).contains (key x)) = a :=
    List.filter_eq_self.2 fun x hx => by simpa using ⟨x, hx, rfl⟩
  have hb : b.filter (fun x => (a.map key).contains (key x)) = [] := by
    refine List.filter_eq_nil_iff.2 fun x hx hc => ?_
    exact h.2.2 (key x) (by simpa using hc) (key x) (List.mem_map_of_mem hx) rfl
  rw [List.filter_append, ha, hb, List.append_nil]

/-! ### The tables and the list -/

/-- What the code relies on `chrono` for: the order of the texts is the order of the instants, and a
text it wrote it can read. -/
structure Chrono.Lawful {T : Type} [LinearOrder T] (chrono : Chrono T) : Prop where
  strictMono : StrictMono chrono.toRfc3339
  parse_toRfc3339 : ∀ t, chrono.parse (chrono.toRfc3339 t) = some t

/-- The tables of `s` hold the items. -/
structure Holds {T : Type} [LinearOrder T] (chrono : Chrono T) (s : Store) (items : List (Item T)) : Prop where
  rows : s.entries.Perm (items.map (·.row chrono))
  payloads : ∀ item ∈ items, s.rawPayloads item.id = item.payloads
  recency : items.Pairwise fun a b => b.lastUsedAt < a.lastUsedAt
  sizes : ∀ item ∈ items, item.size.toNat < 2 ^ 63
  referenced : s.Referenced
  cascade : s.cascade = true

namespace Holds

variable {T : Type} [LinearOrder T] {chrono : Chrono T} {s t : Store} {items : List (Item T)}

theorem fresh : Holds chrono .fresh ([] : List (Item T)) where
  rows := .nil
  payloads := by simp
  recency := .nil
  sizes := by simp
  referenced := by simp [Store.Referenced, Store.fresh]
  cascade := rfl

theorem mem_entries (h : Holds chrono s items) {r : EntryRow} :
    r ∈ s.entries ↔ ∃ item ∈ items, item.row chrono = r := by
  rw [h.rows.mem_iff, List.mem_map]

theorem mem_ids (h : Holds chrono s items) {id : Int} : id ∈ s.ids ↔ ∃ item ∈ items, item.id = id := by
  rw [Store.mem_ids]
  constructor
  · rintro ⟨r, hr, rfl⟩
    obtain ⟨item, hi, rfl⟩ := h.mem_entries.1 hr
    exact ⟨item, hi, rfl⟩
  · rintro ⟨item, hi, rfl⟩
    exact ⟨_, h.mem_entries.2 ⟨item, hi, rfl⟩, rfl⟩

theorem nodup_ids (h : Holds chrono s items) : (items.map (·.id)).Nodup := by
  have hp := (h.rows.map (·.id)).nodup_iff.1 s.nodup_ids
  rwa [List.map_map] at hp

theorem nodup_hashes (h : Holds chrono s items) : (items.map (·.hash)).Nodup := by
  have hp := (h.rows.map (·.hash)).nodup_iff.1 s.nodup_hashes
  rwa [List.map_map] at hp

theorem eq_of_id (h : Holds chrono s items) {a b : Item T} (ha : a ∈ items) (hb : b ∈ items)
    (hid : a.id = b.id) : a = b := List.inj_on_of_nodup_map h.nodup_ids ha hb hid

/-! #### Recency -/

variable (hchrono : chrono.Lawful)
include hchrono

theorem sorted_rows (h : Holds chrono s items) :
    (items.map (·.row chrono)).Pairwise fun a b => b.lastUsedAt < a.lastUsedAt :=
  List.pairwise_map.2 (h.recency.imp fun hlt => hchrono.strictMono hlt)

theorem nodup_lastUsedAt (h : Holds chrono s items) : (s.entries.map (·.lastUsedAt)).Nodup := by
  rw [(h.rows.map _).nodup_iff]
  exact List.pairwise_map.2 ((h.sorted_rows hchrono).imp fun hlt => hlt.ne')

theorem eq_of_lastUsedAt (h : Holds chrono s items) {a b : EntryRow} (ha : a ∈ s.entries)
    (hb : b ∈ s.entries) (heq : a.lastUsedAt = b.lastUsedAt) : a = b :=
  List.inj_on_of_nodup_map (h.nodup_lastUsedAt hchrono) ha hb heq

/-- Whatever the order of ties, `ORDER BY last_used_at DESC` yields the items in order. -/
theorem order_eq (h : Holds chrono s items) (plan : RecencyPlan) :
    plan.order s.entries = items.map (·.row chrono) := by
  refine ((plan.perm s.entries).trans h.rows).eq_of_pairwise (fun a b ha hb hab hba => ?_)
    (plan.sorted s.entries) ((h.sorted_rows hchrono).imp fun hlt => hlt.le)
  exact h.eq_of_lastUsedAt hchrono ((plan.perm _).mem_iff.1 ha) (h.rows.mem_iff.2 hb) (le_antisymm hba hab)

omit hchrono

/-! #### Deletion -/

theorem deleteWhere (h : Holds chrono s items) (p : EntryRow → Bool) (keep : Item T → Bool)
    (hp : ∀ item ∈ items, p (item.row chrono) = !keep item) :
    Holds chrono (s.deleteWhere p) (items.filter keep) where
  rows := by
    have hf : (items.map (·.row chrono)).filter (fun r => !p r) = (items.filter keep).map (·.row chrono) := by
      rw [List.filter_map]
      congr 1
      refine List.filter_congr fun item hi => ?_
      simp [hp item hi]
    rw [← hf]
    exact h.rows.filter _
  payloads item hi := by
    obtain ⟨hi, hk⟩ := List.mem_filter.1 hi
    rw [← h.payloads item hi, Store.rawPayloads, Store.payloadsOf_deleteWhere, Store.rawPayloads]
    rintro r hr hpr hid
    obtain ⟨item', hi', rfl⟩ := h.mem_entries.1 hr
    rw [h.eq_of_id hi' hi hid, hp item hi, hk] at hpr
    cases hpr
  recency := h.recency.sublist List.filter_sublist
  sizes item hi := h.sizes item (List.mem_filter.1 hi).1
  referenced := h.referenced.deleteWhere h.cascade p
  cascade := h.cascade

/-! #### Eviction -/

omit [LinearOrder T] in
theorem sizeSum_rows {rows : List (Item T)} (hsizes : ∀ item ∈ rows, item.size.toNat < 2 ^ 63) :
    sizeSum (rows.map (·.row chrono)) = Cache.totalSize rows := by
  induction rows with
  | nil => rfl
  | cons item rows ih =>
    have hrest := ih fun item' hi => hsizes item' (List.mem_cons_of_mem item hi)
    rw [sizeSum, Cache.totalSize] at hrest ⊢
    rw [List.map_cons, List.map_cons, List.sum_cons, hrest, List.map_cons, List.sum_cons, Nat.cast_add]
    exact congrArg (· + _) (asI64_eq (hsizes item List.mem_cons_self))

/-- The rows that `trim` leaves are those of the items that are not evicted, from the back on. -/
theorem kept_eq (h : Holds chrono s items) (hchrono : chrono.Lawful) {plan : RecencyPlan} {self : Database}
    (hself : self.limits.InRange) (hsum : sizeSum (self.mostRecent plan s.entries) ≤ i64Max) :
    self.kept plan s.entries = ((Lru.evict (Cache.within self.limits) items).map (·.row chrono)).reverse := by
  have hnonneg : ∀ r ∈ s.entries, 0 ≤ r.size := by
    intro r hr
    obtain ⟨item, hi, rfl⟩ := h.mem_entries.1 hr
    exact (Int.natCast_nonneg _).trans_eq (asI64_eq (h.sizes item hi)).symm
  have hfits : ∀ m, m <+: items → self.fits (m.map (·.row chrono)) = Cache.within self.limits m := by
    intro m hm
    rw [Database.fits, sizeSum_rows fun item hi => h.sizes item (hm.subset hi), List.length_map, Cache.within]
    exact congrArg (_ && ·) (decide_eq_decide.2 Int.ofNat_le)
  rw [Database.kept_eq_evict (h.nodup_lastUsedAt hchrono) hnonneg hsum hself.1 hself.2, h.order_eq hchrono,
    Lru.evict_map, Lru.evict_congr hfits]

/-- `trim` evicts from the back until both limits hold. -/
theorem trim (h : Holds chrono s items) (hchrono : chrono.Lawful) {plan : RecencyPlan} {self : Database}
    (hself : self.limits.InRange) {u : Unit} (hret : (self.trim plan).Returns s u t) :
    Holds chrono t (Lru.evict (Cache.within self.limits) items) ∧ t.entrySeq = s.entrySeq := by
  obtain ⟨hsum, hperm⟩ := Database.trim_returns hret
  obtain ⟨p, rfl⟩ := Database.trim_leaves plan self hret.leaves
  rw [h.kept_eq hchrono hself hsum] at hperm
  obtain ⟨rest, hrest⟩ := Lru.evict_isPrefix (Cache.within self.limits) items
  set kept := Lru.evict (Cache.within self.limits) items
  have hmem : ∀ r, r ∈ (s.deleteWhere p).entries ↔ ∃ item ∈ kept, item.row chrono = r := fun r => by
    rw [hperm.mem_iff, List.mem_reverse, List.mem_map]
  have hfilter : items.filter (fun item => (kept.map (·.id)).contains item.id) = kept := by
    rw [← hrest]
    exact filter_keys_left (hrest ▸ h.nodup_ids)
  refine ⟨hfilter ▸ h.deleteWhere p _ fun item hi => ?_, rfl⟩
  have hrow : item.row chrono ∈ s.entries := h.mem_entries.2 ⟨item, hi, rfl⟩
  have hkeep : item.row chrono ∈ (s.deleteWhere p).entries ↔ item.id ∈ kept.map (·.id) := by
    rw [hmem, List.mem_map]
    constructor
    · rintro ⟨item', hi', heq⟩
      exact ⟨item', hi', congrArg EntryRow.id heq⟩
    · rintro ⟨item', hi', hid⟩
      have hi'' : item' ∈ items := hrest ▸ List.mem_append_left rest hi'
      exact ⟨item', hi', congrArg (Item.row chrono) (h.eq_of_id hi'' hi hid)⟩
  rw [Store.mem_deleteWhere, and_iff_right hrow, ← List.contains_iff_mem] at hkeep
  cases hp : p (item.row chrono) with
  | false => rw [hkeep.1 hp]; rfl
  | true => rw [Bool.eq_false_iff.2 fun hc => Bool.false_ne_true ((hkeep.2 hc).symm.trans hp)]; rfl

/-! #### Updates and new rows -/

theorem promote (h : Holds chrono s items) {id : Int} {f : EntryColumns → EntryColumns}
    (hf : ∀ columns, (f columns).hash = columns.hash) {p : Item T → Bool} {g : Item T → Item T}
    (hp : ∀ item ∈ items, p item = true ↔ item.id = id)
    (hrow : ∀ item, (g item).row chrono = ⟨f (item.row chrono).toEntryColumns, item.id⟩)
    (hpay : ∀ item, (g item).payloads = item.payloads) (hsize : ∀ item ∈ items, (g item).size.toNat < 2 ^ 63)
    (hnow : ∀ item ∈ items, ∀ item' ∈ items, item'.lastUsedAt < (g item).lastUsedAt) :
    Holds chrono (s.updateEntry id f hf) (Lru.promote p g items) where
  rows := by
    refine ((h.rows.map _).trans ?_).trans ((Lru.promote_perm p g items).map _).symm
    rw [List.map_map, List.map_map]
    refine List.Perm.of_eq (List.map_congr_left fun item hi => ?_)
    by_cases hid : item.id = id
    · rw [Function.comp_apply, Function.comp_apply, if_pos ((hp item hi).2 hid), hrow]
      exact if_pos hid
    · rw [Function.comp_apply, Function.comp_apply, if_neg (mt (hp item hi).1 hid)]
      exact if_neg hid
  payloads item hi := by
    rw [Store.rawPayloads, Store.payloadsOf_updateEntry]
    rcases Lru.mem_promote.1 hi with ⟨item', hi', -, rfl⟩ | ⟨hi, -⟩
    · have hid : (g item').id = item'.id := congrArg EntryRow.id (hrow item')
      rw [hid, hpay]
      exact h.payloads item' hi'
    · exact h.payloads item hi
  recency := by
    refine Lru.pairwise_promote h.recency (fun a ha b hb hpa hpb => ?_)
      (fun a ha _ b hb => hnow a ha b hb) h.nodup_ids.of_map
    exact h.eq_of_id ha hb (((hp a ha).1 hpa).trans ((hp b hb).1 hpb).symm)
  sizes item hi := by
    rcases Lru.mem_promote.1 hi with ⟨item', hi', -, rfl⟩ | ⟨hi, -⟩
    exacts [hsize item' hi', h.sizes item hi]
  referenced := h.referenced.updateEntry
  cascade := h.cascade

theorem push (h : Holds chrono s items) {self : Database} (hself : self.hasLegacyTimestamp = false)
    {entry : NewEntry T} (hsize : entry.size.toNat < 2 ^ 63)
    (hnow : ∀ item ∈ items, item.lastUsedAt < entry.createdAt) (hh) :
    Holds chrono ((s.addEntry (self.newColumns chrono entry) hh).addPayloads s.nextEntryId entry.payloads)
      (.ofNew s.nextEntryId entry :: items) where
  rows := by
    rw [Store.entries_addPayloads, List.map_cons]
    have hrow : (Item.ofNew s.nextEntryId entry).row chrono = ⟨self.newColumns chrono entry, s.nextEntryId⟩ := by
      simp [Item.row, Item.ofNew, Database.newColumns, hself]
    rw [hrow]
    exact (List.perm_append_singleton _ _).trans (h.rows.cons _)
  payloads item hi := by
    have hnew : s.nextEntryId ∉ s.ids := fun hid => by
      obtain ⟨r, hr, hid⟩ := Store.mem_ids.1 hid
      exact absurd hid (Store.id_lt_nextEntryId hr).ne
    rw [Store.rawPayloads_addPayloads]
    rcases List.mem_cons.1 hi with rfl | hi
    · have hnil : (s.addEntry _ hh).rawPayloads s.nextEntryId = [] := h.referenced.rawPayloads_eq_nil hnew
      simp only [Item.ofNew, ↓reduceIte, hnil, List.nil_append]
    · have hid : item.id ≠ s.nextEntryId := fun hid => hnew (hid ▸ h.mem_ids.2 ⟨item, hi, rfl⟩)
      rw [if_neg hid, List.append_nil]
      exact h.payloads item hi
  recency := List.pairwise_cons.2 ⟨hnow, h.recency⟩
  sizes := List.forall_mem_cons.2 ⟨hsize, h.sizes⟩
  referenced := h.referenced.addEntry.addPayloads (by simp [Database.ids_addEntry]) _
  cascade := by simpa using h.cascade

/-! #### Listing -/

theorem list (h : Holds chrono s items) (hchrono : chrono.Lawful) {plan : RecencyPlan} {now : T} {k : UInt64}
    (hlen : items.length < 2 ^ 63) {entries : List (Entry T)}
    (hret : (Database.list chrono plan now k).Returns s entries t) :
    entries = (items.take k.toNat).map (·.entry) ∧ t = s := by
  obtain ⟨rfl, rfl⟩ := Database.list_returns.1 hret
  refine ⟨?_, rfl⟩
  have htake : sqlLimit (asI64 k) (plan.order t.entries) = (items.take k.toNat).map (·.row chrono) := by
    rw [h.order_eq hchrono, sqlLimit, List.map_take]
    by_cases hk : k.toNat < 2 ^ 63
    · rw [asI64_eq hk, if_neg (by omega), Int.toNat_natCast]
    · -- `as i64` turns the bound negative, so there is none, and none is needed
      have hneg : asI64 k < 0 := by
        rw [asI64_cases, if_neg hk]
        have := k.toNat_lt
        omega
      rw [if_pos hneg, List.take_of_length_le (by rw [List.length_map]; omega)]
  rw [htake, List.map_map]
  refine List.map_congr_left fun item hi => ?_
  have hpay : (t.payloadsOf item.id).map (·.mimeType) = item.payloads.map (·.1) := by
    rw [← h.payloads item (List.mem_of_mem_take hi), Store.rawPayloads, List.map_map]; rfl
  simp [Database.rowEntry, Item.row, Item.entry, ofInt_asI64, hchrono.parse_toRfc3339, hpay]

end Holds

/-! ### Refinement -/

namespace Op
variable {T : Type}

def times : Op T → List T
  | insert entry => [entry.createdAt]
  | touchLastUsed now _ => [now]
  | _ => []

def InRange : Op T → Prop
  | insert entry => entry.size.toNat < 2 ^ 63
  | setLimits limits => limits.InRange
  | _ => True

instance : DecidablePred (InRange : Op T → Prop)
  | insert entry => inferInstanceAs (Decidable (entry.size.toNat < 2 ^ 63))
  | setLimits limits => inferInstanceAs (Decidable limits.InRange)
  | touchLastUsed .. => .isTrue trivial
  | delete _ => .isTrue trivial
  | clear => .isTrue trivial
  | list .. => .isTrue trivial

end Op

section
variable {T : Type} [LinearOrder T]

/-- The connection holds the cache, and the calls still to come are in range and later than all of its
items. -/
structure Represents (chrono : Chrono T) (calls : List (Op T × Output T)) (c : Connection) (cache : Cache T) :
    Prop where
  holds : Holds chrono c.store cache.items
  issued : c.store.entrySeq = cache.issued
  limits : c.self.limits = cache.limits
  noTimestamp : c.self.hasLegacyTimestamp = false
  limitsInRange : cache.limits.InRange
  within : Cache.within cache.limits cache.items = true
  inRange : ∀ call ∈ calls, call.1.InRange
  increasing : (calls.flatMap fun call => call.1.times).Pairwise (· < ·)
  later : ∀ now ∈ calls.flatMap fun call => call.1.times, ∀ item ∈ cache.items, item.lastUsedAt < now

variable {chrono : Chrono T} (hchrono : chrono.Lawful) {plan : RecencyPlan}
include hchrono

omit hchrono in
/-- What is left to show after a call: the items are old or carry the instant of the call. -/
theorem Represents.next {call : Op T × Output T} {calls : List (Op T × Output T)} {c c' : Connection}
    {cache cache' : Cache T} (h : Represents chrono (call :: calls) c cache)
    (hholds : Holds chrono c'.store cache'.items) (hissued : c'.store.entrySeq = cache'.issued)
    (hself : c'.self = call.1.after c.self) (hlimits : cache'.limits = (call.1.after c.self).limits)
    (hwithin : Cache.within cache'.limits cache'.items = true)
    (hitems : ∀ item ∈ cache'.items,
      item.lastUsedAt ∈ call.1.times ∨ ∃ old ∈ cache.items, old.lastUsedAt = item.lastUsedAt) :
    Represents chrono calls c' cache' := by
  have hinc := h.increasing
  rw [List.flatMap_cons, List.pairwise_append] at hinc
  refine ⟨hholds, hissued, by rw [hself, hlimits], ?_, ?_, hwithin,
    fun call hc => h.inRange call (by simp [hc]), hinc.2.1, ?_⟩
  · rw [hself]
    cases call.1 <;> exact h.noTimestamp
  · rw [hlimits]
    have hold : c.self.limits.InRange := h.limits ▸ h.limitsInRange
    have hcall := h.inRange call (by simp)
    cases hop : call.1 with
    | setLimits limits => rw [hop] at hcall; exact hcall
    | _ => exact hold
  · intro now hnow item hi
    rcases hitems item hi with htime | ⟨old, ho, heq⟩
    · exact hinc.2.2 _ htime now hnow
    · rw [← heq]
      exact h.later now (by rw [List.flatMap_cons]; exact List.mem_append_right _ hnow) old ho

section
variable {calls : List (Op T × Output T)} {c : Connection} {cache : Cache T}

omit hchrono in
theorem Represents.later_call {call : Op T × Output T} (h : Represents chrono (call :: calls) c cache) :
    ∀ now ∈ call.1.times, ∀ item ∈ cache.items, item.lastUsedAt < now := fun now hnow =>
  h.later now (by rw [List.flatMap_cons]; exact List.mem_append_left _ hnow)

theorem Represents.insert {entry : NewEntry T} {id : Int} {t : Store}
    (h : Represents chrono ((.insert entry, .inserted id) :: calls) c cache)
    (hins : (c.self.insert chrono plan entry).Returns c.store id t) :
    ∃ cache', Cache.Step cache (.insert entry, .inserted id) cache' ∧ Represents chrono calls ⟨c.self, t⟩ cache' := by
  obtain ⟨w, hw, htrim⟩ := Database.insert_returns hins
  have hrange : entry.size.toNat < 2 ^ 63 := h.inRange _ List.mem_cons_self
  have hnow := h.later_call entry.createdAt (by simp [Op.times])
  have hlimits : c.self.limits.InRange := h.limits ▸ h.limitsInRange
  cases hw with
  | refreshed hid =>
    obtain ⟨e, he, hhash, rfl⟩ := Database.known_eq_some.1 hid
    obtain ⟨item, hi, rfl⟩ := h.holds.mem_entries.1 he
    have hp : ∀ item' ∈ cache.items, (item'.hash == entry.hash) = true ↔ item'.id = item.id := by
      intro item' hi'
      rw [beq_iff_eq]
      refine ⟨fun hh => congrArg Item.id ?_, fun hid => h.holds.eq_of_id hi' hi hid ▸ hhash⟩
      exact List.inj_on_of_nodup_map h.holds.nodup_hashes hi' hi (hh.trans hhash.symm)
    have hw := h.holds.promote (Database.refreshColumns_hash chrono entry) hp
      (g := (·.refresh entry)) (fun _ => rfl) (fun _ => rfl) (fun _ _ => hrange) fun _ _ => hnow
    obtain ⟨ht, hseq⟩ := hw.trim hchrono hlimits htrim
    rw [h.limits] at ht
    refine ⟨_, .refresh hi hhash, h.next ht (hseq.trans h.issued) rfl h.limits.symm
      (Lru.fits_evict (Cache.within_nil _) _) fun item' hi' => ?_⟩
    rcases Lru.mem_promote.1 ((Lru.evict_isPrefix _ _).subset hi') with ⟨old, ho, -, rfl⟩ | ⟨ho, -⟩
    exacts [.inl (by simp [Op.times, Item.refresh]), .inr ⟨item', ho, rfl⟩]
  | added s₁ hid hs₁ =>
    obtain ⟨rfl, hh, rfl⟩ := Store.insertEntry_ok hs₁
    have hnew : ∀ item ∈ cache.items, item.hash ≠ entry.hash := fun item hi =>
      Database.hash_ne_of_known_none hid (h.holds.mem_entries.2 ⟨item, hi, rfl⟩)
    have hw := h.holds.push h.noTimestamp hrange hnow hh
    obtain ⟨ht, hseq⟩ := hw.trim hchrono hlimits htrim
    rw [h.limits] at ht
    have hissued : t.entrySeq = c.store.nextEntryId := hseq.trans (by simp [Store.addEntry])
    refine ⟨_, .push hnew (h.issued ▸ c.store.entrySeq_lt_nextEntryId), h.next ht hissued rfl h.limits.symm
      (Lru.fits_evict (Cache.within_nil _) _) fun item' hi' => ?_⟩
    rcases List.mem_cons.1 ((Lru.evict_isPrefix _ _).subset hi') with rfl | ho
    exacts [.inl (by simp [Op.times, Item.ofNew]), .inr ⟨item', ho, rfl⟩]

omit hchrono in
theorem Represents.touch {now : T} {id : Int} {u : Unit} {t : Store}
    (h : Represents chrono ((.touchLastUsed now id, .touched) :: calls) c cache)
    (hret : (Database.touchLastUsed chrono now id).Returns c.store u t) :
    ∃ cache', Cache.Step cache (.touchLastUsed now id, .touched) cache' ∧
      Represents chrono calls ⟨c.self, t⟩ cache' := by
  cases Script.returns_update.1 hret
  have hid : ∀ item ∈ cache.items, (item.id == id) = true ↔ item.id = id := fun _ _ => beq_iff_eq
  have hw := h.holds.promote (Database.touchColumns_hash chrono now) (g := (·.touch now)) hid
    (fun _ => rfl) (fun _ => rfl) h.holds.sizes fun _ _ => h.later_call now (by simp [Op.times])
  refine ⟨_, .touch, h.next hw h.issued rfl h.limits.symm
    (Cache.within_promote (fun _ => rfl) h.within) fun item' hi' => ?_⟩
  rcases Lru.mem_promote.1 hi' with ⟨old, ho, -, rfl⟩ | ⟨ho, -⟩
  exacts [.inl (by simp [Op.times, Item.touch]), .inr ⟨item', ho, rfl⟩]

omit hchrono in
theorem Represents.delete {id : Int} {found : Bool} {t : Store}
    (h : Represents chrono ((.delete id, .deleted found) :: calls) c cache)
    (hret : (Database.delete id).Returns c.store found t) :
    ∃ cache', Cache.Step cache (.delete id, .deleted found) cache' ∧ Represents chrono calls ⟨c.self, t⟩ cache' := by
  cases Script.returns_update.1 hret
  have hw := h.holds.deleteWhere (·.id == id) (·.id != id) fun item _ => by rw [bne, Bool.not_not]; rfl
  have hfound : decide (0 < (c.store.entries.filter (·.id == id)).length) = cache.items.any (·.id == id) := by
    rw [Bool.eq_iff_iff, decide_eq_true_iff, List.length_filter_pos_iff, List.any_eq_true]
    constructor
    · rintro ⟨r, hr, hid⟩
      obtain ⟨item, hi, rfl⟩ := h.holds.mem_entries.1 hr
      exact ⟨item, hi, hid⟩
    · rintro ⟨item, hi, hid⟩
      exact ⟨_, h.holds.mem_entries.2 ⟨item, hi, rfl⟩, hid⟩
  rw [hfound] at h ⊢
  exact ⟨_, .delete, h.next hw h.issued rfl h.limits.symm
    (Cache.within_filter _ h.within) fun item' hi' => .inr ⟨item', (List.mem_filter.1 hi').1, rfl⟩⟩

omit hchrono in
theorem Represents.clear {n : Nat} {t : Store} (h : Represents chrono ((.clear, .cleared n) :: calls) c cache)
    (hret : Database.clear.Returns c.store n t) :
    ∃ cache', Cache.Step cache (.clear, .cleared n) cache' ∧ Represents chrono calls ⟨c.self, t⟩ cache' := by
  obtain ⟨_, _, hdel, hret⟩ := Script.returns_bind.1 hret
  obtain ⟨_, _, hvac, hret⟩ := Script.returns_bind.1 hret
  obtain ⟨rfl, rfl⟩ := Script.returns_pure.1 hret
  obtain ⟨-, rfl⟩ := Script.returns_query.1 hvac
  cases Script.returns_update.1 hdel
  have hw := h.holds.deleteWhere (fun _ => true) (fun _ => false) fun _ _ => rfl
  have hlen : c.store.entries.length = cache.items.length := by
    rw [h.holds.rows.length_eq, List.length_map]
  rw [List.filter_false] at hw
  rw [hlen] at h ⊢
  exact ⟨_, .clear, h.next hw h.issued rfl h.limits.symm (Cache.within_nil _) (by simp)⟩

theorem Represents.setLimits {limits : Limits} {u : Unit} {t : Store}
    (h : Represents chrono ((.setLimits limits, .limited) :: calls) c cache)
    (hret : (c.self.setLimits plan limits).Returns c.store u t) :
    ∃ cache', Cache.Step cache (.setLimits limits, .limited) cache' ∧
      Represents chrono calls ⟨c.self.withLimits limits, t⟩ cache' := by
  have hin : (c.self.withLimits limits).limits.InRange := h.inRange _ List.mem_cons_self
  obtain ⟨ht, hseq⟩ := h.holds.trim hchrono hin hret
  exact ⟨_, .setLimits, h.next ht (hseq.trans h.issued) rfl rfl (Lru.fits_evict (Cache.within_nil _) _)
    fun item hi => .inr ⟨item, (Lru.evict_isPrefix _ _).subset hi, rfl⟩⟩

theorem Represents.list {now : T} {limit : UInt64} {entries : List (Entry T)} {t : Store}
    (h : Represents chrono ((.list now limit, .listed entries) :: calls) c cache)
    (hret : (Database.list chrono plan now limit).Returns c.store entries t) :
    ∃ cache', Cache.Step cache (.list now limit, .listed entries) cache' ∧
      Represents chrono calls ⟨c.self, t⟩ cache' := by
  have hlen : cache.items.length < 2 ^ 63 := (Cache.within_iff.1 h.within).1.trans_lt h.limitsInRange.1
  obtain ⟨rfl, rfl⟩ := h.holds.list hchrono hlen hret
  exact ⟨_, .list, h.next h.holds h.issued rfl h.limits.symm h.within fun item hi => .inr ⟨item, hi, rfl⟩⟩

theorem Represents.step {call : Op T × Output T} {c' : Connection} (h : Represents chrono (call :: calls) c cache)
    (hstep : Op.Completes chrono plan c call c') :
    ∃ cache', Cache.Step cache call cache' ∧ Represents chrono calls c' cache' := by
  obtain ⟨op, out⟩ := call
  obtain ⟨self, store⟩ := c'
  obtain ⟨hret, rfl⟩ : (op.script chrono plan c.self).Returns c.store out store ∧ self = op.after c.self := hstep
  cases op with
  | insert entry =>
    obtain ⟨id, hins, rfl⟩ := Script.returns_bind_pure.1 hret
    exact h.insert hchrono hins
  | touchLastUsed now id =>
    obtain ⟨_, htouch, rfl⟩ := Script.returns_bind_pure.1 hret
    exact h.touch htouch
  | delete id =>
    obtain ⟨_, hdelete, rfl⟩ := Script.returns_bind_pure.1 hret
    exact h.delete hdelete
  | clear =>
    obtain ⟨_, hclear, rfl⟩ := Script.returns_bind_pure.1 hret
    exact h.clear hclear
  | setLimits limits =>
    obtain ⟨_, htrim, rfl⟩ := Script.returns_bind_pure.1 hret
    exact h.setLimits hchrono htrim
  | list now limit =>
    obtain ⟨_, hlist, rfl⟩ := Script.returns_bind_pure.1 hret
    exact h.list hchrono hlist

end

/-- From a fresh database on, every run of operations that return is a run of the cache with the same
results. No hash occurs twice and both limits hold wherever it ends. -/
theorem database_refines_lru (limits : Limits) (hlimits : limits.InRange) {calls : List (Op T × Output T)}
    {c : Connection} (hrun : Run (Op.Completes chrono plan) ⟨.ofLimits limits, .fresh⟩ calls c)
    (hrange : ∀ call ∈ calls, call.1.InRange)
    (hinc : (calls.flatMap fun call => call.1.times).Pairwise (· < ·)) :
    ∃ cache : Cache T, Run Cache.Step (.empty limits) calls cache ∧
      Holds chrono c.store cache.items ∧ c.self.limits = cache.limits ∧ c.store.entrySeq = cache.issued ∧
      (cache.items.map (·.hash)).Nodup ∧ cache.items.length ≤ cache.limits.maxEntries.toNat ∧
      Cache.totalSize cache.items ≤ cache.limits.maxHistorySize.toNat := by
  have hinit : Represents chrono calls ⟨.ofLimits limits, .fresh⟩ (.empty limits) :=
    ⟨.fresh, rfl, rfl, rfl, hlimits, Cache.within_nil _, hrange, hinc, by simp [Cache.empty]⟩
  obtain ⟨cache, hcache, h⟩ := hrun.simulates (R := Represents chrono)
    (fun _ _ _ _ _ h hstep => h.step hchrono hstep) hinit
  have hwithin := Cache.within_iff.1 h.within
  exact ⟨cache, hcache, h.holds, h.limits, h.issued, h.holds.nodup_hashes, hwithin.1, hwithin.2⟩

end

theorem Chrono.tenSeconds_lawful : tenSeconds.Lawful := by
  have hmono : StrictMono tenSeconds.toRfc3339 := by
    intro a b hab
    have hdigit : Char.ofNat (48 + a) < Char.ofNat (48 + b) := by
      refine Char.lt_def.2 (UInt32.lt_iff_toNat_lt.2 ?_)
      have ha := toNat_charOfNat (n := 48 + a) (by omega)
      have hb := toNat_charOfNat (n := 48 + b) (by omega)
      unfold Char.toNat at ha hb
      omega
    exact append_ofList_lt "2026-01-01T12:00:0" "+00:00" hdigit
  refine ⟨hmono, fun t => ?_⟩
  rw [tenSeconds]
  cases h : (List.finRange 10).find? fun second => tenSeconds.text second == tenSeconds.text t with
  | none => simpa using List.find?_eq_none.1 h t (List.mem_finRange t)
  | some second =>
    have htext := List.find?_some h
    rw [beq_iff_eq] at htext
    rw [hmono.injective htext] at h
    exact h

def copied (text : String) (second : Fin 10) : NewEntry (Fin 10) where
  hash := text
  kind := .text
  label := text
  preview := text
  size := 1
  createdAt := second
  payloads := [("text/plain", asBytes text)]

def sampleCalls : List (Op (Fin 10) × Output (Fin 10)) :=
  [(.insert (copied "a" 0), .inserted 1), (.insert (copied "b" 1), .inserted 2), (.touchLastUsed 2 1, .touched)]

def sampleStore : Store where
  entries :=
    [⟨⟨"a", "text", "a", "a", 1, "2026-01-01T12:00:00+00:00", "2026-01-01T12:00:02+00:00", none⟩, 1⟩,
     ⟨⟨"b", "text", "b", "b", 1, "2026-01-01T12:00:01+00:00", "2026-01-01T12:00:01+00:00", none⟩, 2⟩]
  payloads := [⟨1, 1, "text/plain", [97]⟩, ⟨2, 2, "text/plain", [98]⟩]
  entrySeq := 2
  payloadSeq := 2
  cascade := true
  entries_sorted := by decide
  hashes_unique := by decide
  payloads_sorted := by decide

theorem sampleCalls_run :
    Run (Op.Completes .tenSeconds .index) ⟨.ofLimits .default, .fresh⟩ sampleCalls
      ⟨.ofLimits .default, sampleStore⟩ := by
  have hstore : ((⟨.ofLimits .default, .fresh⟩ : Connection) |> (Op.insert (copied "a" 0)).exec .tenSeconds .index
      |> (Op.insert (copied "b" 1)).exec .tenSeconds .index |> (Op.touchLastUsed 2 1).exec .tenSeconds .index) =
      ⟨.ofLimits .default, sampleStore⟩ := by decide
  rw [← hstore]
  exact .cons (Op.completes_exec rfl) (.cons (Op.completes_exec rfl) (.single (Op.completes_exec rfl)))

theorem database_refines_lru_sample :
    ∃ cache : Cache (Fin 10), Run Cache.Step (.empty .default) sampleCalls cache ∧
      Holds .tenSeconds sampleStore cache.items ∧ (Database.ofLimits .default).limits = cache.limits ∧
      sampleStore.entrySeq = cache.issued ∧ (cache.items.map (·.hash)).Nodup ∧
      cache.items.length ≤ cache.limits.maxEntries.toNat ∧
      Cache.totalSize cache.items ≤ cache.limits.maxHistorySize.toNat :=
  database_refines_lru Chrono.tenSeconds_lawful .default (by decide) sampleCalls_run
    (by decide) (by decide)

end Mimeclip
