import Mathlib.Algebra.Order.Ring.Int
import Mathlib.Data.List.Sort
import Mimeclip.Payload

/-!
# The history database: tables and statements

The two tables as SQLite keeps them, with the constraints it enforces as fields (a primary key never
occurs twice, a hash never occurs twice), and the effect of every statement `common/db.rs` executes
on them.
-/

namespace Mimeclip

/-! ### Tables -/

structure EntryColumns where
  hash : String
  kind : String
  label : String
  preview : String
  size : Int
  createdAt : String
  lastUsedAt : String
  -- the column of the legacy schema
  timestamp : Option String
deriving DecidableEq, Repr

structure EntryRow extends EntryColumns where
  id : Int
deriving DecidableEq, Repr

structure PayloadRow where
  id : Int
  entryId : Int
  mimeType : String
  data : Bytes
deriving DecidableEq, Repr

/-- The database file, its tables in rowid order, with the constraints SQLite keeps on them. -/
@[ext] structure Store where
  entries : List EntryRow
  payloads : List PayloadRow
  -- `sqlite_sequence` of the two tables: the largest ids handed out
  entrySeq : Int
  payloadSeq : Int
  -- `payloads.entry_id` is declared `REFERENCES entries(id) ON DELETE CASCADE`
  cascade : Bool
  entries_sorted : entries.Pairwise fun a b => a.id < b.id
  hashes_unique : entries.Pairwise fun a b => a.hash ≠ b.hash
  payloads_sorted : payloads.Pairwise fun a b => a.id < b.id
deriving DecidableEq

theorem payloads_sorted_nil : ([] : List PayloadRow).Pairwise fun a b => a.id < b.id := .nil

/-- The tables `init` creates in a new file. -/
def Store.fresh : Store where
  entries := []
  payloads := []
  entrySeq := 0
  payloadSeq := 0
  cascade := true
  entries_sorted := .nil
  hashes_unique := .nil
  payloads_sorted := payloads_sorted_nil

inductive SqlError
  | constraint
  | overflow
  | full
  | noSuchTable
  | noSuchColumn
  | duplicateColumn
deriving DecidableEq, Repr

def asI64 (x : UInt64) : Int := x.toInt64.toInt

/-- `i64` arithmetic in a release build. -/
def wrapI64 (x : Int) : Int := x.bmod (2 ^ 64)

def i64Max : Int := 2 ^ 63 - 1

theorem wrapI64_eq {x : Int} (h : 0 ≤ x) (hx : x ≤ i64Max) : wrapI64 x = x := by
  unfold i64Max at hx
  rw [wrapI64, Int.bmod_def]
  omega

theorem asI64_cases (x : UInt64) :
    asI64 x = if x.toNat < 2 ^ 63 then (x.toNat : Int) else x.toNat - 2 ^ 64 := by
  rw [asI64, Int64.toInt, UInt64.toBitVec_toInt64, BitVec.toInt_eq_toNat_cond]
  simp only [UInt64.toNat_toBitVec]
  split <;> split <;> omega

theorem asI64_eq {x : UInt64} (h : x.toNat < 2 ^ 63) : asI64 x = x.toNat := by
  rw [asI64_cases, if_pos h]

theorem ofInt_asI64 (x : UInt64) : UInt64.ofInt (asI64 x) = x := by
  have hx := x.toNat_lt
  have hmod : (asI64 x % 2 ^ 64).toNat = x.toNat := by
    rw [asI64_cases]; split <;> omega
  rw [UInt64.ofInt, hmod]
  exact UInt64.ofNat_toNat

/-! ### Statements -/

namespace Store

/-- `AUTOINCREMENT`: one more than every id in the table and every id handed out before. -/
def nextEntryId (s : Store) : Int := (s.entries.map (·.id)).foldl max s.entrySeq + 1

def nextPayloadId (s : Store) : Int := (s.payloads.map (·.id)).foldl max s.payloadSeq + 1

theorem le_foldl_max (l : List Int) (a : Int) : a ≤ l.foldl max a ∧ ∀ x ∈ l, x ≤ l.foldl max a := by
  induction l generalizing a with
  | nil => simp
  | cons b l ih =>
    obtain ⟨h1, h2⟩ := ih (max a b)
    refine ⟨(le_max_left a b).trans h1, fun x hx => ?_⟩
    rcases List.mem_cons.1 hx with rfl | hx
    · exact (le_max_right a x).trans h1
    · exact h2 x hx

theorem id_lt_nextEntryId {s : Store} {r : EntryRow} (h : r ∈ s.entries) : r.id < s.nextEntryId :=
  Int.lt_add_one_of_le ((le_foldl_max _ _).2 r.id (List.mem_map_of_mem h))

theorem entrySeq_lt_nextEntryId (s : Store) : s.entrySeq < s.nextEntryId :=
  Int.lt_add_one_of_le (le_foldl_max _ _).1

theorem id_lt_nextPayloadId {s : Store} {q : PayloadRow} (h : q ∈ s.payloads) :
    q.id < s.nextPayloadId :=
  Int.lt_add_one_of_le ((le_foldl_max _ _).2 q.id (List.mem_map_of_mem h))

def addEntry (columns : EntryColumns) (s : Store) (h : ∀ r ∈ s.entries, r.hash ≠ columns.hash) : Store where
  entries := s.entries ++ [⟨columns, s.nextEntryId⟩]
  payloads := s.payloads
  entrySeq := s.nextEntryId
  payloadSeq := s.payloadSeq
  cascade := s.cascade
  entries_sorted := List.pairwise_append.2 ⟨s.entries_sorted, by simp, fun r hr r' hr' => by
    rw [List.mem_singleton.1 hr']; exact id_lt_nextEntryId hr⟩
  hashes_unique := List.pairwise_append.2 ⟨s.hashes_unique, by simp, fun r hr r' hr' => by
    rw [List.mem_singleton.1 hr']; exact h r hr⟩
  payloads_sorted := s.payloads_sorted

def insertEntry (columns : EntryColumns) (s : Store) : Except SqlError (Int × Store) :=
  if i64Max < s.nextEntryId then .error .full
  else if h : ∀ r ∈ s.entries, r.hash ≠ columns.hash then .ok (s.nextEntryId, s.addEntry columns h)
  else .error .constraint

def addPayload (entryId : Int) (mimeType : String) (data : Bytes) (s : Store) : Store where
  entries := s.entries
  payloads := s.payloads ++ [⟨s.nextPayloadId, entryId, mimeType, data⟩]
  entrySeq := s.entrySeq
  payloadSeq := s.nextPayloadId
  cascade := s.cascade
  entries_sorted := s.entries_sorted
  hashes_unique := s.hashes_unique
  payloads_sorted := List.pairwise_append.2 ⟨s.payloads_sorted, by simp, fun q hq q' hq' => by
    rw [List.mem_singleton.1 hq']; exact id_lt_nextPayloadId hq⟩

/-- `INSERT INTO payloads ..`; the foreign key is checked where it is declared. -/
def insertPayload (entryId : Int) (mimeType : String) (data : Bytes) (s : Store) :
    Except SqlError (Unit × Store) :=
  if i64Max < s.nextPayloadId then .error .full
  else if s.cascade && !s.entries.any (·.id == entryId) then .error .constraint
  else .ok ((), s.addPayload entryId mimeType data)

/-- `UPDATE entries SET .. WHERE id = ?`; no update of the program assigns the hash. -/
def updateEntry (id : Int) (f : EntryColumns → EntryColumns) (s : Store)
    (hf : ∀ c, (f c).hash = c.hash) : Store where
  entries := s.entries.map fun r => if r.id = id then { r with toEntryColumns := f r.toEntryColumns } else r
  payloads := s.payloads
  entrySeq := s.entrySeq
  payloadSeq := s.payloadSeq
  cascade := s.cascade
  entries_sorted := List.pairwise_map.2 <| s.entries_sorted.imp fun {a b} h => by
    split_ifs <;> exact h
  hashes_unique := List.pairwise_map.2 <| s.hashes_unique.imp fun {a b} h => by
    split_ifs <;> simpa [hf] using h
  payloads_sorted := s.payloads_sorted

/-- `DELETE FROM entries WHERE p`; where the cascade is declared it takes the payload rows along. -/
def deleteWhere (p : EntryRow → Bool) (s : Store) : Store where
  entries := s.entries.filter fun r => !p r
  payloads :=
    if s.cascade then s.payloads.filter fun q => !s.entries.any fun r => p r && r.id == q.entryId
    else s.payloads
  entrySeq := s.entrySeq
  payloadSeq := s.payloadSeq
  cascade := s.cascade
  entries_sorted := s.entries_sorted.sublist List.filter_sublist
  hashes_unique := s.hashes_unique.sublist List.filter_sublist
  payloads_sorted := by
    split_ifs
    · exact s.payloads_sorted.sublist List.filter_sublist
    · exact s.payloads_sorted

def addSize (total : Int) (r : EntryRow) : Except SqlError Int :=
  if -(2 ^ 63) ≤ total + r.size ∧ total + r.size ≤ i64Max then .ok (total + r.size)
  else .error .overflow

/-- `COALESCE(SUM(size), 0)`: SQLite adds up in table order. -/
def sumSizes (s : Store) : Except SqlError Int := s.entries.foldlM addSize 0

def payloadsOf (s : Store) (entryId : Int) : List PayloadRow :=
  (s.payloads.filter fun q => q.entryId == entryId).insertionSort fun a b => a.id ≤ b.id

/-- `SELECT mime_type, data FROM payloads WHERE entry_id = ?1 ORDER BY id`. -/
def rawPayloads (s : Store) (entryId : Int) : Payloads :=
  (s.payloadsOf entryId).map fun q => (q.mimeType, q.data)

/-! ### Rows -/

variable {s : Store}

theorem nodup_ids (s : Store) : (s.entries.map (·.id)).Nodup :=
  List.pairwise_map.2 (s.entries_sorted.imp fun h => h.ne)

theorem nodup_hashes (s : Store) : (s.entries.map (·.hash)).Nodup := List.pairwise_map.2 s.hashes_unique

theorem eq_of_id {r r' : EntryRow} (h : r ∈ s.entries) (h' : r' ∈ s.entries) (he : r.id = r'.id) :
    r = r' := List.inj_on_of_nodup_map s.nodup_ids h h' he

theorem eq_of_hash {r r' : EntryRow} (h : r ∈ s.entries) (h' : r' ∈ s.entries)
    (he : r.hash = r'.hash) : r = r' := List.inj_on_of_nodup_map s.nodup_hashes h h' he

theorem payloadsOf_eq (s : Store) (entryId : Int) :
    s.payloadsOf entryId = s.payloads.filter fun q => q.entryId == entryId :=
  List.Pairwise.insertionSort_eq ((s.payloads_sorted.sublist List.filter_sublist).imp fun h => h.le)

theorem mem_payloadsOf {q : PayloadRow} {entryId : Int} :
    q ∈ s.payloadsOf entryId ↔ q ∈ s.payloads ∧ q.entryId = entryId := by
  simp [payloadsOf_eq]

def ids (s : Store) : List Int := s.entries.map (·.id)

theorem mem_ids {id : Int} : id ∈ s.ids ↔ ∃ r ∈ s.entries, r.id = id := List.mem_map

theorem nextEntryId_notMem_ids (s : Store) : s.nextEntryId ∉ s.ids := by
  intro h
  obtain ⟨r, hr, hid⟩ := mem_ids.1 h
  exact (id_lt_nextEntryId hr).ne hid

@[simp] theorem ids_updateEntry {id : Int} {f : EntryColumns → EntryColumns} {hf} :
    (s.updateEntry id f hf).ids = s.ids := by
  rw [ids, updateEntry, List.map_map]
  refine List.map_congr_left fun r _ => ?_
  dsimp only [Function.comp_apply]
  split_ifs <;> rfl

@[simp] theorem cascade_updateEntry {id : Int} {f : EntryColumns → EntryColumns} {hf} :
    (s.updateEntry id f hf).cascade = s.cascade := rfl

@[simp] theorem cascade_addEntry {columns : EntryColumns} {h} :
    (s.addEntry columns h).cascade = s.cascade := rfl

theorem payloadsOf_updateEntry {id : Int} {f : EntryColumns → EntryColumns} {hf} {entryId : Int} :
    (s.updateEntry id f hf).payloadsOf entryId = s.payloadsOf entryId := rfl

theorem payloadsOf_addPayload {id entryId : Int} {mimeType : String} {data : Bytes} :
    (s.addPayload id mimeType data).payloadsOf entryId =
      s.payloadsOf entryId ++ if entryId = id then [⟨s.nextPayloadId, id, mimeType, data⟩] else [] := by
  rw [payloadsOf_eq, payloadsOf_eq, addPayload, List.filter_append]
  by_cases h : entryId = id
  · simp [h]
  · simp [h, Ne.symm h]

theorem mem_deleteWhere {p : EntryRow → Bool} {r : EntryRow} :
    r ∈ (s.deleteWhere p).entries ↔ r ∈ s.entries ∧ p r = false := by
  simp [deleteWhere]

theorem payloadsOf_deleteWhere {p : EntryRow → Bool} {entryId : Int}
    (h : ∀ r ∈ s.entries, p r = true → r.id ≠ entryId) :
    (s.deleteWhere p).payloadsOf entryId = s.payloadsOf entryId := by
  rw [payloadsOf_eq, payloadsOf_eq, deleteWhere]
  dsimp only
  split_ifs
  · rw [List.filter_filter]
    refine List.filter_congr fun q _ => ?_
    by_cases hq : q.entryId = entryId
    · have : ∀ r ∈ s.entries, p r = true → ¬ r.id = q.entryId := fun r hr hp => hq ▸ h r hr hp
      simpa [hq] using fun r hr hp => hq ▸ this r hr hp
    · simp [hq]
  · rfl

theorem payloadsOf_deleteWhere_of_mem {p : EntryRow → Bool} {r : EntryRow} (h : r ∈ (s.deleteWhere p).entries) :
    (s.deleteWhere p).payloadsOf r.id = s.payloadsOf r.id := by
  obtain ⟨hr, hp⟩ := mem_deleteWhere.1 h
  refine payloadsOf_deleteWhere fun r' hr' hp' hid => ?_
  rw [eq_of_id hr' hr hid, hp] at hp'
  cases hp'

theorem payloadsOf_deleteWhere_of_deleted (hc : s.cascade = true) {p : EntryRow → Bool} {r : EntryRow}
    (hr : r ∈ s.entries) (hp : p r = true) : (s.deleteWhere p).payloadsOf r.id = [] := by
  rw [payloadsOf_eq, deleteWhere]
  simp only [hc, ↓reduceIte, List.filter_filter, List.filter_eq_nil_iff]
  intro q _ hq
  simp only [Bool.and_eq_true, beq_iff_eq, Bool.not_eq_true', List.any_eq_false] at hq
  exact hq.2 r hr ⟨hp, hq.1.symm⟩

theorem sumSizes_ok {total : Int} (h : s.sumSizes = .ok total) :
    total = (s.entries.map (·.size)).sum ∧ -(2 ^ 63) ≤ total ∧ total ≤ i64Max := by
  have aux : ∀ (rows : List EntryRow) (acc : Int), -(2 ^ 63) ≤ acc ∧ acc ≤ i64Max →
      rows.foldlM addSize acc = .ok total →
      total = acc + (rows.map (·.size)).sum ∧ -(2 ^ 63) ≤ total ∧ total ≤ i64Max := by
    intro rows
    induction rows with
    | nil => rintro acc hacc ⟨⟩; exact ⟨by simp, hacc⟩
    | cons r rows ih =>
      intro acc hacc hfold
      rw [List.foldlM_cons, addSize] at hfold
      split_ifs at hfold with hr
      · obtain ⟨htotal, hrange⟩ := ih _ hr hfold
        exact ⟨by rw [htotal, List.map_cons, List.sum_cons]; omega, hrange⟩
      · cases hfold
  obtain ⟨htotal, hrange⟩ := aux s.entries 0 (by decide) h
  exact ⟨by rw [htotal, Int.zero_add], hrange⟩

theorem deleteWhere_eq_self (s : Store) {p : EntryRow → Bool} (h : ∀ r ∈ s.entries, p r = false) :
    s.deleteWhere p = s := by
  ext1
  · exact List.filter_eq_self.2 fun r hr => by rw [h r hr]; rfl
  · rw [deleteWhere]
    split_ifs
    · refine List.filter_eq_self.2 fun q _ => ?_
      rw [Bool.not_eq_true', List.any_eq_false]
      intro r hr
      exact by simp [h r hr]
    · rfl
  all_goals rfl

theorem deleteWhere_none (s : Store) : s.deleteWhere (fun _ => false) = s :=
  s.deleteWhere_eq_self fun _ _ => rfl

theorem deleteWhere_deleteWhere (s : Store) (p q : EntryRow → Bool) :
    (s.deleteWhere p).deleteWhere q = s.deleteWhere fun r => p r || q r := by
  ext1
  · simp only [deleteWhere, List.filter_filter]
    refine List.filter_congr fun r _ => ?_
    rw [Bool.not_or, Bool.and_comm]
  · simp only [deleteWhere]
    split_ifs with hc
    · rw [List.filter_filter]
      refine List.filter_congr fun x _ => ?_
      rw [Bool.eq_iff_iff]
      simp only [Bool.and_eq_true, Bool.not_eq_true', List.any_eq_false, List.mem_filter, beq_iff_eq,
        Bool.or_eq_true]
      constructor
      · rintro ⟨h1, h2⟩ r hr ⟨hpq, hid⟩
        cases hp : p r with
        | true => exact h2 r hr ⟨hp, hid⟩
        | false => exact h1 r ⟨hr, hp⟩ ⟨by simpa [hp] using hpq, hid⟩
      · intro h
        exact ⟨fun r hr hq => h r hr.1 ⟨.inr hq.1, hq.2⟩, fun r hr hp => h r hr ⟨.inl hp.1, hp.2⟩⟩
    · rfl
  all_goals rfl

end Store

end Mimeclip
