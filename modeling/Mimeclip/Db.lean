import Mimeclip.Store
import Mimeclip.Types
import Mimeclip.Lib.Script

/-!
# The history database (`common/db.rs`)

The methods of `Database` as scripts of the statements they execute. The connection is in autocommit
mode: every statement commits by itself. The daemon opens one connection and holds its mutex for the
length of a method.

Outside the repository: the instants of `chrono` (`Chrono`), the Base64 encoder, and the order in
which SQLite yields rows that tie in `ORDER BY last_used_at DESC` (`RecencyPlan`).
-/

namespace Mimeclip

/-- What the code uses of `DateTime<Utc>`: its RFC 3339 text and the parser of it. -/
structure Chrono (T : Type) where
  toRfc3339 : T → String
  parse : String → Option T

/-- Ten instants, one second apart. -/
def Chrono.tenSeconds : Chrono (Fin 10) where
  toRfc3339 := text
  parse s := (List.finRange 10).find? fun second => text second == s
where
  text (second : Fin 10) : String :=
    "2026-01-01T12:00:0" ++ String.ofList [Char.ofNat (48 + second)] ++ "+00:00"

/-- For the numerals of `Fin 10`. -/
instance neZero_ten : NeZero 10 := ⟨by decide⟩

/-- The order in which SQLite yields the rows of an `ORDER BY last_used_at DESC`: rows with equal
timestamps may come in any order. -/
structure RecencyPlan where
  order : List EntryRow → List EntryRow
  perm : ∀ rows, (order rows).Perm rows
  sorted : ∀ rows, (order rows).Pairwise fun a b => b.lastUsedAt ≤ a.lastUsedAt

section
variable {β : Type} [LinearOrder β] (key : EntryRow → β)

def byKeyThenId (a b : EntryRow) : Prop := key a < key b ∨ key a = key b ∧ a.id ≤ b.id

instance : DecidableRel (byKeyThenId key) := fun a b =>
  inferInstanceAs (Decidable (key a < key b ∨ key a = key b ∧ a.id ≤ b.id))

instance : Std.Total (byKeyThenId key) where
  total a b := by
    rcases lt_trichotomy (key a) (key b) with h | h | h
    · exact .inl (.inl h)
    · exact (le_total a.id b.id).imp (fun hi => .inr ⟨h, hi⟩) fun hi => .inr ⟨h.symm, hi⟩
    · exact .inr (.inl h)

instance : IsTrans EntryRow (byKeyThenId key) where
  trans a b c hab hbc := by
    rcases hab with hab | ⟨hab, hi⟩ <;> rcases hbc with hbc | ⟨hbc, hj⟩
    · exact .inl (hab.trans hbc)
    · exact .inl (hbc ▸ hab)
    · exact .inl (hab ▸ hbc)
    · exact .inr ⟨hab.trans hbc, hi.trans hj⟩

theorem byKeyThenId.le {a b : EntryRow} (h : byKeyThenId key a b) : key a ≤ key b := by
  rcases h with h | ⟨h, -⟩
  exacts [h.le, h.le]

end

/-- The plan SQLite uses with `idx_entries_last_used_at`: ties by ascending id. -/
def RecencyPlan.index : RecencyPlan where
  order rows := rows.insertionSort (byKeyThenId fun r => OrderDual.toDual r.lastUsedAt)
  perm rows := List.perm_insertionSort _ rows
  sorted rows := (List.pairwise_insertionSort _ rows).imp fun h => OrderDual.toDual_le_toDual.1 h.le

/-- `LIMIT n`: a negative bound means no limit. -/
def sqlLimit (n : Int) (rows : List EntryRow) : List EntryRow :=
  if n < 0 then rows else rows.take n.toNat

/-! ### `Database` -/

structure Limits where
  maxEntries : UInt64
  maxHistorySize : UInt64
deriving DecidableEq, Repr

def Limits.default : Limits where
  maxEntries := 500
  maxHistorySize := 256 * 1024 * 1024

structure Database where
  maxEntries : UInt64
  maxHistorySize : UInt64
  hasLegacyTimestamp : Bool
deriving DecidableEq, Repr

structure NewEntry (T : Type) where
  hash : String
  kind : EntryKind
  label : String
  preview : String
  size : UInt64
  createdAt : T
  payloads : Payloads

namespace Database

abbrev Sql := Script Store SqlError

variable {T : Type} (chrono : Chrono T) (plan : RecencyPlan) (self : Database)

def findByHash (hash : String) : Sql (Option Int) :=
  .query fun s => .ok ((s.entries.find? (·.hash == hash)).map (·.id))

def evict (maxHistorySize : UInt64) : List (Int × Int) → Int → Sql Unit
  | [], _ => pure ()
  | (id, size) :: entries, remaining =>
    if remaining ≤ asI64 maxHistorySize then pure ()
    else do
      .update fun s => .ok ((), s.deleteWhere (·.id == id))
      evict maxHistorySize entries (wrapI64 (remaining - size))

/-- `DELETE FROM entries WHERE id NOT IN (SELECT id .. ORDER BY last_used_at DESC LIMIT ?1)`. -/
def dropExcess (s : Store) : Store :=
  let kept := (sqlLimit (asI64 self.maxEntries) (plan.order s.entries)).map (·.id)
  s.deleteWhere fun r => !kept.contains r.id

/-- The second phase reads the entries `ORDER BY last_used_at ASC, id ASC`. -/
def trim : Sql Unit := do
  .update fun s => .ok ((), self.dropExcess plan s)
  let total ← .query Store.sumSizes
  if total > asI64 self.maxHistorySize then do
    let entries ← .query fun s =>
      .ok ((s.entries.insertionSort (byKeyThenId (·.lastUsedAt))).map fun r => (r.id, r.size))
    evict self.maxHistorySize entries total
  else pure ()

def insertPayloads (id : Int) : Payloads → Sql Unit
  | [] => pure ()
  | (mime, data) :: payloads => do
    .update (Store.insertPayload id mime data)
    insertPayloads id payloads

def newColumns (entry : NewEntry T) : EntryColumns :=
  let createdAt := chrono.toRfc3339 entry.createdAt
  { hash := entry.hash, kind := entry.kind.label, label := entry.label, preview := entry.preview,
    size := asI64 entry.size, createdAt, lastUsedAt := createdAt,
    timestamp := if self.hasLegacyTimestamp then some createdAt else none }

def refreshColumns (entry : NewEntry T) (columns : EntryColumns) : EntryColumns :=
  { columns with
    kind := entry.kind.label, label := entry.label, preview := entry.preview
    size := asI64 entry.size, lastUsedAt := chrono.toRfc3339 entry.createdAt }

theorem refreshColumns_hash (entry : NewEntry T) (columns : EntryColumns) :
    (refreshColumns chrono entry columns).hash = columns.hash := rfl

def touchColumns (now : T) (columns : EntryColumns) : EntryColumns :=
  { columns with lastUsedAt := chrono.toRfc3339 now }

theorem touchColumns_hash (now : T) (columns : EntryColumns) :
    (touchColumns chrono now columns).hash = columns.hash := rfl

def insert (entry : NewEntry T) : Sql Int := do
  match ← findByHash entry.hash with
  | some id =>
    -- the hash exists: keep its creation time, update the rest
    .update fun s => .ok ((), s.updateEntry id _ (refreshColumns_hash chrono entry))
    self.trim plan
    pure id
  | none =>
    let id ← .update (Store.insertEntry (self.newColumns chrono entry))
    insertPayloads id entry.payloads
    self.trim plan
    pure id

def mimeTypesFor (entryId : Int) : Sql (List String) :=
  .query fun s => .ok ((s.payloadsOf entryId).map (·.mimeType))

/-- The loop of `list`; a timestamp that does not parse reads as `now`. -/
def listRows (now : T) : List EntryRow → Sql (List (Entry T))
  | [] => pure []
  | row :: rows => do
    let mimeTypes ← mimeTypesFor row.id
    let entries ← listRows now rows
    pure ({ id := row.id, hash := row.hash, kind := parseKind row.kind, label := row.label,
            preview := row.preview, size := UInt64.ofInt row.size,
            createdAt := (chrono.parse row.createdAt).getD now,
            lastUsedAt := (chrono.parse row.lastUsedAt).getD now, mimeTypes } :: entries)

def list (now : T) (limit : UInt64) : Sql (List (Entry T)) := do
  let rows ← .query fun s => .ok (sqlLimit (asI64 limit) (plan.order s.entries))
  listRows chrono now rows

/-- `b64` stands for the standard Base64 encoder. -/
def getPayloads (b64 : Bytes → String) (entryId : Int) : Sql (List MimePayload) :=
  .query fun s => .ok ((s.rawPayloads entryId).map fun (mimeType, data) => ⟨mimeType, b64 data⟩)

def getHash (entryId : Int) : Sql (Option String) :=
  .query fun s => .ok ((s.entries.find? (·.id == entryId)).map (·.hash))

def getRawPayloads (entryId : Int) : Sql Payloads :=
  .query fun s => .ok (s.rawPayloads entryId)

def touchLastUsed (now : T) (entryId : Int) : Sql Unit :=
  .update fun s => .ok ((), s.updateEntry entryId _ (touchColumns_hash chrono now))

def delete (entryId : Int) : Sql Bool :=
  .update fun s =>
    .ok (decide (0 < (s.entries.filter (·.id == entryId)).length), s.deleteWhere (·.id == entryId))

/-- The second statement is the checkpoint and `VACUUM` batch; it changes no row. -/
def clear : Sql Nat := do
  let n ← .update fun s => .ok (s.entries.length, s.deleteWhere fun _ => true)
  .query fun _ => .ok ()
  pure n

/-- The assignments of `set_limits`, which come before its `trim`. -/
def withLimits (limits : Limits) : Database :=
  { self with maxEntries := limits.maxEntries, maxHistorySize := limits.maxHistorySize }

/-- `Database::open` on a new file. -/
def ofLimits (limits : Limits) : Database where
  maxEntries := limits.maxEntries
  maxHistorySize := limits.maxHistorySize
  hasLegacyTimestamp := false

def setLimits (limits : Limits) : Sql Unit := (self.withLimits limits).trim plan

end Database

end Mimeclip
