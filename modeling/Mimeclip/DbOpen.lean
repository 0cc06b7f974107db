import Mimeclip.Db

/-!
# Opening a history database

The file may come from an earlier version: its `entries` table may have the legacy `timestamp` column
and lack the columns that replaced it, and its `payloads` table may lack the foreign key. `openDb`
creates the tables that are missing and migrates the entries one statement at a time; a `payloads`
table that exists stays as it is (`openDb_returns`).
-/

namespace Mimeclip

/-! ### Database files -/

/-- A row of `entries` whose time columns may be NULL; a column the table lacks reads as NULL. -/
structure LegacyRow where
  id : Int
  hash : String
  kind : String
  label : String
  preview : String
  size : Int
  createdAt : Option String
  lastUsedAt : Option String
  timestamp : Option String
deriving DecidableEq, Repr

@[ext] structure EntriesTable where
  hasCreatedAt : Bool
  hasLastUsedAt : Bool
  hasTimestamp : Bool
  rows : List LegacyRow
  rows_sorted : rows.Pairwise fun a b => a.id < b.id
  hashes_unique : rows.Pairwise fun a b => a.hash ≠ b.hash
  noCreatedAt : hasCreatedAt = false → ∀ r ∈ rows, r.createdAt = none
  noLastUsedAt : hasLastUsedAt = false → ∀ r ∈ rows, r.lastUsedAt = none
  noTimestamp : hasTimestamp = false → ∀ r ∈ rows, r.timestamp = none

@[ext] structure PayloadsTable where
  rows : List PayloadRow
  cascade : Bool
  rows_sorted : rows.Pairwise fun a b => a.id < b.id

/-- A database file before it is opened. -/
@[ext] structure DbFile where
  entries : Option EntriesTable
  payloads : Option PayloadsTable
  entrySeq : Int
  payloadSeq : Int

namespace EntriesTable

def columns (t : EntriesTable) : List String :=
  ["id", "hash", "kind", "label", "preview", "size"] ++
    (if t.hasCreatedAt then ["created_at"] else []) ++
    (if t.hasLastUsedAt then ["last_used_at"] else []) ++
    (if t.hasTimestamp then ["timestamp"] else [])

def fresh : EntriesTable where
  hasCreatedAt := true
  hasLastUsedAt := true
  hasTimestamp := false
  rows := []
  rows_sorted := .nil
  hashes_unique := .nil
  noCreatedAt := nofun
  noLastUsedAt := nofun
  noTimestamp _ := nofun

def addCreatedAt (t : EntriesTable) : Except SqlError EntriesTable :=
  if t.hasCreatedAt then .error .duplicateColumn
  else .ok { t with hasCreatedAt := true, noCreatedAt := nofun }

def addLastUsedAt (t : EntriesTable) : Except SqlError EntriesTable :=
  if t.hasLastUsedAt then .error .duplicateColumn
  else .ok { t with hasLastUsedAt := true, noLastUsedAt := nofun }

def setCreatedAt (f : LegacyRow → Option String) (t : EntriesTable) : Except SqlError EntriesTable :=
  if h : t.hasCreatedAt then
    .ok { t with
      rows := t.rows.map fun r => { r with createdAt := f r }
      rows_sorted := List.pairwise_map.2 t.rows_sorted
      hashes_unique := List.pairwise_map.2 t.hashes_unique
      noCreatedAt := by simp [h]
      noLastUsedAt := fun hn => List.forall_mem_map.2 (t.noLastUsedAt hn)
      noTimestamp := fun hn => List.forall_mem_map.2 (t.noTimestamp hn) }
  else .error .noSuchColumn

def setLastUsedAt (f : LegacyRow → Option String) (t : EntriesTable) : Except SqlError EntriesTable :=
  if h : t.hasLastUsedAt then
    .ok { t with
      rows := t.rows.map fun r => { r with lastUsedAt := f r }
      rows_sorted := List.pairwise_map.2 t.rows_sorted
      hashes_unique := List.pairwise_map.2 t.hashes_unique
      noCreatedAt := fun hn => List.forall_mem_map.2 (t.noCreatedAt hn)
      noLastUsedAt := by simp [h]
      noTimestamp := fun hn => List.forall_mem_map.2 (t.noTimestamp hn) }
  else .error .noSuchColumn

end EntriesTable

namespace DbFile

def createEntries (f : DbFile) : DbFile := { f with entries := some (f.entries.getD .fresh) }

/-- `CREATE TABLE IF NOT EXISTS payloads ..`, with the foreign key. -/
def createPayloads (f : DbFile) : DbFile :=
  { f with payloads := some (f.payloads.getD { rows := [], cascade := true, rows_sorted := payloads_sorted_nil }) }

def alterEntries (stmt : EntriesTable → Except SqlError EntriesTable) (f : DbFile) :
    Except SqlError (Unit × DbFile) :=
  match f.entries with
  | none => .error .noSuchTable
  | some t => (stmt t).map fun t => ((), { f with entries := some t })

end DbFile

/-! ### `open` -/

namespace Database

abbrev FileSql := Script DbFile SqlError

def entriesColumnExists (columnName : String) : FileSql Bool :=
  .query fun f => .ok (f.entries.elim false fun t => t.columns.any (· == columnName))

/-- `COALESCE` takes the first value that is not NULL; `now` and `now'` are the clock readings of the
two updates. -/
def migrateEntriesSchema (now now' : String) : FileSql Unit := do
  let hasCreatedAt ← entriesColumnExists "created_at"
  let hasLastUsedAt ← entriesColumnExists "last_used_at"
  let hasTimestamp ← entriesColumnExists "timestamp"
  (if hasCreatedAt then pure () else .update (DbFile.alterEntries EntriesTable.addCreatedAt))
  (if hasLastUsedAt then pure () else .update (DbFile.alterEntries EntriesTable.addLastUsedAt))
  if hasTimestamp then
    .update (DbFile.alterEntries (EntriesTable.setCreatedAt fun r => (r.createdAt.or r.timestamp).or now))
    .update (DbFile.alterEntries
      (EntriesTable.setLastUsedAt fun r => ((r.lastUsedAt.or r.timestamp).or r.createdAt).or now'))
  else
    .update (DbFile.alterEntries (EntriesTable.setCreatedAt fun r => r.createdAt.or now))
    .update (DbFile.alterEntries
      (EntriesTable.setLastUsedAt fun r => (r.lastUsedAt.or r.createdAt).or now'))

/-- The pragmas and the index statements change no row. -/
def init (now now' : String) : FileSql Unit := do
  .update fun f => .ok ((), f.createEntries)
  .update fun f => .ok ((), f.createPayloads)
  migrateEntriesSchema now now'

/-- `Database::open`; `limits` are the ones of the configuration. -/
def openDb (limits : Limits) (now now' : String) : FileSql Database := do
  init now now'
  let hasLegacyTimestamp ← entriesColumnExists "timestamp"
  pure { maxEntries := limits.maxEntries, maxHistorySize := limits.maxHistorySize, hasLegacyTimestamp }

end Database

/-! ### The opened tables -/

def LegacyRow.migrate (now now' : String) (r : LegacyRow) : LegacyRow :=
  let createdAt := (r.createdAt.or r.timestamp).or now
  { r with createdAt, lastUsedAt := ((r.lastUsedAt.or r.timestamp).or createdAt).or now' }

def EntriesTable.migrate (now now' : String) (t : EntriesTable) : EntriesTable where
  hasCreatedAt := true
  hasLastUsedAt := true
  hasTimestamp := t.hasTimestamp
  rows := t.rows.map (·.migrate now now')
  rows_sorted := List.pairwise_map.2 t.rows_sorted
  hashes_unique := List.pairwise_map.2 t.hashes_unique
  noCreatedAt := nofun
  noLastUsedAt := nofun
  noTimestamp h := List.forall_mem_map.2 (t.noTimestamp h)

namespace EntriesTable

def withCreatedAt (t : EntriesTable) : EntriesTable := { t with hasCreatedAt := true, noCreatedAt := nofun }

def withLastUsedAt (t : EntriesTable) : EntriesTable :=
  { t with hasLastUsedAt := true, noLastUsedAt := nofun }

variable {t : EntriesTable}

theorem hasColumn_createdAt : (t.columns.any (· == "created_at")) = t.hasCreatedAt := by
  cases h : t.hasCreatedAt <;> cases h' : t.hasLastUsedAt <;> cases h'' : t.hasTimestamp <;>
    simp [columns, h, h', h'']

theorem hasColumn_lastUsedAt : (t.columns.any (· == "last_used_at")) = t.hasLastUsedAt := by
  cases h : t.hasCreatedAt <;> cases h' : t.hasLastUsedAt <;> cases h'' : t.hasTimestamp <;>
    simp [columns, h, h', h'']

theorem hasColumn_timestamp : (t.columns.any (· == "timestamp")) = t.hasTimestamp := by
  cases h : t.hasCreatedAt <;> cases h' : t.hasLastUsedAt <;> cases h'' : t.hasTimestamp <;>
    simp [columns, h, h', h'']

end EntriesTable

namespace Database
variable {limits : Limits} {now now' : String} {f g : DbFile} {t t' : EntriesTable}

theorem alter_returns {stmt : EntriesTable → Except SqlError EntriesTable} (hf : f.entries = some t)
    (hs : stmt t = .ok t') {u : Unit} :
    (Script.update (DbFile.alterEntries stmt)).Returns f u g ↔ g = { f with entries := some t' } := by
  rw [Script.returns_update, DbFile.alterEntries, hf]
  simp [hs, Except.map, eq_comm]

theorem columnExists_returns (hf : f.entries = some t) {name : String} {b : Bool} :
    (entriesColumnExists name).Returns f b g ↔ b = t.columns.any (· == name) ∧ g = f := by
  rw [entriesColumnExists, Script.returns_query, hf, Except.ok.injEq, eq_comm]; rfl

theorem ensureCreatedAt_returns (hf : f.entries = some t) {u : Unit} :
    (if t.hasCreatedAt then pure () else .update (DbFile.alterEntries EntriesTable.addCreatedAt) :
      FileSql Unit).Returns f u g ↔ g = { f with entries := some t.withCreatedAt } := by
  cases ht : t.hasCreatedAt with
  | true =>
    have : t.withCreatedAt = t := by ext1 <;> simp [EntriesTable.withCreatedAt, ht]
    rw [this, ← hf]; simp
  | false =>
    exact alter_returns hf (by simp [EntriesTable.addCreatedAt, ht, EntriesTable.withCreatedAt])

theorem ensureLastUsedAt_returns (hf : f.entries = some t) {b : Bool} (hb : b = t.hasLastUsedAt) {u : Unit} :
    (if b then pure () else .update (DbFile.alterEntries EntriesTable.addLastUsedAt) :
      FileSql Unit).Returns f u g ↔ g = { f with entries := some t.withLastUsedAt } := by
  cases ht : t.hasLastUsedAt with
  | true =>
    have : t.withLastUsedAt = t := by ext1 <;> simp [EntriesTable.withLastUsedAt, ht]
    rw [this, ← hf, hb, ht]; simp
  | false =>
    rw [hb, ht]
    exact alter_returns hf (by simp [EntriesTable.addLastUsedAt, ht, EntriesTable.withLastUsedAt])

theorem setTimes_returns (t t' : EntriesTable) (hf : f.entries = some t) {fc fl : LegacyRow → Option String}
    (hc : t.hasCreatedAt = true) (hl : t.hasLastUsedAt = true) (ht : t'.hasCreatedAt = true)
    (ht' : t'.hasLastUsedAt = true) (htt : t'.hasTimestamp = t.hasTimestamp)
    (hrows : t'.rows = t.rows.map fun r =>
      { r with createdAt := fc r, lastUsedAt := fl { r with createdAt := fc r } }) {u : Unit} :
    (do
      Script.update (DbFile.alterEntries (EntriesTable.setCreatedAt fc))
      Script.update (DbFile.alterEntries (EntriesTable.setLastUsedAt fl)) : FileSql Unit).Returns f u g ↔
        g = { f with entries := some t' } := by
  rw [Script.returns_bind]
  simp only [alter_returns hf (show EntriesTable.setCreatedAt fc t = _ from dif_pos hc),
    exists_eq_left, exists_const]
  refine (alter_returns (by rfl) (show EntriesTable.setLastUsedAt fl _ = .ok t' from ?_)).trans Iff.rfl
  rw [EntriesTable.setLastUsedAt, dif_pos hl, Except.ok.injEq]
  ext1
  · exact hc.trans ht.symm
  · exact hl.trans ht'.symm
  · exact htt.symm
  · rw [hrows]; exact List.map_map

/-- A table without the legacy column reads it as NULL, so both forms of the updates come to the same. -/
theorem migrateEntriesSchema_returns (hf : f.entries = some t) {u : Unit} :
    (migrateEntriesSchema now now').Returns f u g ↔
      g = { f with entries := some (t.migrate now now') } := by
  simp only [migrateEntriesSchema, Script.returns_bind, columnExists_returns hf,
    EntriesTable.hasColumn_createdAt, EntriesTable.hasColumn_lastUsedAt,
    EntriesTable.hasColumn_timestamp, and_assoc, exists_eq_left, exists_and_left,
    ensureCreatedAt_returns hf, exists_const]
  simp only [exists_eq_left, ensureLastUsedAt_returns (f := { f with entries := some t.withCreatedAt })
    (t := t.withCreatedAt) (b := t.hasLastUsedAt) rfl rfl, exists_const]
  cases ht : t.hasTimestamp with
  | true =>
    exact setTimes_returns t.withCreatedAt.withLastUsedAt (t.migrate now now') rfl rfl rfl rfl rfl rfl rfl
  | false =>
    refine setTimes_returns t.withCreatedAt.withLastUsedAt (t.migrate now now') rfl rfl rfl rfl rfl rfl
      (List.map_congr_left fun r hr => ?_)
    simp only [LegacyRow.migrate, t.noTimestamp ht r hr, Option.or_none]

theorem init_returns {u : Unit} :
    (init now now').Returns f u g ↔
      g = { f.createPayloads with entries := some ((f.entries.getD .fresh).migrate now now') } := by
  simp only [init, Script.returns_bind, Script.returns_update, Except.ok.injEq, Prod.mk.injEq, true_and,
    exists_const, exists_eq_left']
  exact migrateEntriesSchema_returns rfl

theorem openDb_returns {self : Database} :
    (openDb limits now now').Returns f self g ↔
      self = { ofLimits limits with hasLegacyTimestamp := f.entries.elim false (·.hasTimestamp) } ∧
      g = { f.createPayloads with entries := some ((f.entries.getD .fresh).migrate now now') } := by
  have hcol : ((f.entries.getD .fresh).migrate now now').columns.any (· == "timestamp") =
      f.entries.elim false (·.hasTimestamp) := by
    rw [EntriesTable.hasColumn_timestamp]
    cases f.entries <;> rfl
  rw [openDb, Script.returns_bind]
  constructor
  · rintro ⟨_, _, hinit, h⟩
    obtain rfl := init_returns.1 hinit
    obtain ⟨b, _, hb, h⟩ := Script.returns_bind.1 h
    obtain ⟨rfl, rfl⟩ := (columnExists_returns rfl).1 hb
    obtain ⟨rfl, rfl⟩ := Script.returns_pure.1 h
    exact ⟨by rw [hcol]; rfl, rfl⟩
  · rintro ⟨rfl, rfl⟩
    refine ⟨(), _, init_returns.2 rfl, Script.returns_bind.2 ⟨_, _, (columnExists_returns (by rfl)).2 ⟨rfl, rfl⟩, ?_⟩⟩
    exact Script.returns_pure.2 ⟨by rw [hcol]; rfl, rfl⟩

end Database

/-! ### The store of an opened file -/

def LegacyRow.row (r : LegacyRow) : EntryRow where
  id := r.id
  hash := r.hash
  kind := r.kind
  label := r.label
  preview := r.preview
  size := r.size
  createdAt := r.createdAt.getD ""
  lastUsedAt := r.lastUsedAt.getD ""
  timestamp := r.timestamp

/-- No time column that the queries read is NULL. -/
def LegacyRow.complete (r : LegacyRow) : Bool := r.createdAt.isSome && r.lastUsedAt.isSome

/-- The tables as the methods of `Database` read them. -/
def DbFile.toStore (f : DbFile) : Option Store :=
  match f.entries, f.payloads with
  | some t, some p =>
    if t.hasCreatedAt && t.hasLastUsedAt && t.rows.all LegacyRow.complete then
      some { entries := t.rows.map LegacyRow.row, payloads := p.rows, entrySeq := f.entrySeq,
             payloadSeq := f.payloadSeq, cascade := p.cascade
             entries_sorted := List.pairwise_map.2 t.rows_sorted
             hashes_unique := List.pairwise_map.2 t.hashes_unique
             payloads_sorted := p.rows_sorted }
    else none
  | _, _ => none

namespace DbFile
variable (f : DbFile)

def ids : List Int := f.entries.elim [] (·.rows.map (·.id))

def payloadRows : List PayloadRow := f.payloads.elim [] (·.rows)

/-- The payload rows of an opened file go with their entry: the table is new, or declared so. -/
def declaresCascade : Bool := f.payloads.elim true (·.cascade)

end DbFile

/-- Opening succeeds, and the tables it leaves hold the entries and the payload rows of the file. -/
theorem openDb_store {limits : Limits} {now now' : String} {f g : DbFile} {self : Database}
    (h : (Database.openDb limits now now').Returns f self g) :
    ∃ s, g.toStore = some s ∧ s.ids = f.ids ∧ s.payloads = f.payloadRows ∧
      s.cascade = f.declaresCascade ∧ s.entrySeq = f.entrySeq ∧ s.payloadSeq = f.payloadSeq := by
  obtain ⟨-, rfl⟩ := Database.openDb_returns.1 h
  have hcomplete : ((f.entries.getD .fresh).migrate now now').rows.all LegacyRow.complete = true := by
    refine List.all_eq_true.2 (List.forall_mem_map.2 fun r _ => ?_)
    simp [LegacyRow.migrate, LegacyRow.complete]
  refine ⟨_, by simp only [DbFile.toStore, DbFile.createPayloads, hcomplete]; rfl, ?_, ?_, ?_, rfl, rfl⟩
  · cases hf : f.entries <;> simp [Store.ids, DbFile.ids, hf, EntriesTable.migrate, EntriesTable.fresh,
      LegacyRow.row, LegacyRow.migrate]
  · cases hf : f.payloads <;> simp [DbFile.payloadRows, hf]
  · cases hf : f.payloads <;> simp [DbFile.declaresCascade, hf]

end Mimeclip
