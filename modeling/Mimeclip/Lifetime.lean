import Mimeclip.DbRefs
import Mimeclip.DbRows
import Mimeclip.Migration

/-!
# The history over several lives of the daemon

The daemon opens the history file when it starts and ends by exiting, with or without a call that has not come to its
end: the statements that are committed stay, and the next start opens what is there. Opening a file that this version
has opened before changes nothing in it, however far it comes (`openDb_leaves`). So the lives of the daemon are as one
history that is never closed, in which a start does no more than set the limits (`lives_as_one`).
-/

namespace Mimeclip

/-! ### The file of an opened history -/

def EntryRow.toLegacy (r : EntryRow) : LegacyRow where
  id := r.id
  hash := r.hash
  kind := r.kind
  label := r.label
  preview := r.preview
  size := r.size
  createdAt := r.createdAt
  lastUsedAt := r.lastUsedAt
  timestamp := r.timestamp

/-- A history that is open; without the column of the legacy schema, no row has a value in it. -/
structure OpenDb where
  conn : Connection
  noTimestamp : conn.self.hasLegacyTimestamp = false → ∀ r ∈ conn.store.entries, r.timestamp = none

namespace OpenDb

/-- What is in the file while the history is open, and after the daemon has exited. -/
def file (db : OpenDb) : DbFile where
  entries := some
    { hasCreatedAt := true
      hasLastUsedAt := true
      hasTimestamp := db.conn.self.hasLegacyTimestamp
      rows := db.conn.store.entries.map EntryRow.toLegacy
      rows_sorted := List.pairwise_map.2 db.conn.store.entries_sorted
      hashes_unique := List.pairwise_map.2 db.conn.store.hashes_unique
      noCreatedAt := nofun
      noLastUsedAt := nofun
      noTimestamp := fun h => List.forall_mem_map.2 (db.noTimestamp h) }
  payloads := some
    { rows := db.conn.store.payloads
      cascade := db.conn.store.cascade
      rows_sorted := db.conn.store.payloads_sorted }
  entrySeq := db.conn.store.entrySeq
  payloadSeq := db.conn.store.payloadSeq

variable (db : OpenDb)

theorem toStore_file : db.file.toStore = some db.conn.store := by
  have hcomplete : (db.conn.store.entries.map EntryRow.toLegacy).all LegacyRow.complete = true :=
    List.all_eq_true.2 (List.forall_mem_map.2 fun _ _ => rfl)
  have hrows : (db.conn.store.entries.map EntryRow.toLegacy).map LegacyRow.row = db.conn.store.entries := by
    rw [List.map_map]
    exact List.map_id _
  unfold DbFile.toStore file
  simp only [hcomplete, hrows, Bool.and_true, ↓reduceIte]

end OpenDb

/-! ### Opening a file -/

namespace Database

/-- A file on which opening has nothing to do. -/
structure Settled (f : DbFile) (t : EntriesTable) : Prop where
  entries : f.entries = some t
  payloads : f.payloads ≠ none
  createdAt : t.hasCreatedAt = true
  lastUsedAt : t.hasLastUsedAt = true
  filled : ∀ r ∈ t.rows, r.createdAt ≠ none ∧ r.lastUsedAt ≠ none

variable {f g : DbFile} {t : EntriesTable} {limits : Limits} {now now' : String}

theorem or_of_ne_none {α : Type} {a : Option α} (h : a ≠ none) (b : Option α) : a.or b = a := by
  cases a with
  | none => exact absurd rfl h
  | some a => rfl

/-- A statement that fails on the table or leaves it as it is. -/
theorem Settled.alter (h : Settled f t) {stmt : EntriesTable → Except SqlError EntriesTable}
    (hstmt : ∀ t', stmt t = .ok t' → t' = t) : Script.Preserves (· = f) (.update (DbFile.alterEntries stmt)) := by
  refine .update ?_
  rintro _ u g rfl hg
  rcases alter_leaves h.entries (Script.leaves_update.2 (.inr ⟨u, hg⟩)) with hsame | ⟨t', hok, rfl⟩
  · exact hsame
  · rw [hstmt t' hok, ← h.entries]

theorem Settled.setCreatedAt (h : Settled f t) {c : LegacyRow → Option String}
    (hc : ∀ r ∈ t.rows, c r = r.createdAt) :
    Script.Preserves (· = f) (.update (DbFile.alterEntries (EntriesTable.setCreatedAt c))) := by
  refine h.alter fun t' hok => ?_
  rw [EntriesTable.setCreatedAt, dif_pos h.createdAt, Except.ok.injEq] at hok
  rw [← hok]
  ext1
  · rfl
  · rfl
  · rfl
  · exact (List.map_congr_left fun r hr => by rw [hc r hr]; rfl).trans (List.map_id _)

theorem Settled.setLastUsedAt (h : Settled f t) {c : LegacyRow → Option String}
    (hc : ∀ r ∈ t.rows, c r = r.lastUsedAt) :
    Script.Preserves (· = f) (.update (DbFile.alterEntries (EntriesTable.setLastUsedAt c))) := by
  refine h.alter fun t' hok => ?_
  rw [EntriesTable.setLastUsedAt, dif_pos h.lastUsedAt, Except.ok.injEq] at hok
  rw [← hok]
  ext1
  · rfl
  · rfl
  · rfl
  · exact (List.map_congr_left fun r hr => by rw [hc r hr]; rfl).trans (List.map_id _)

theorem Settled.migrateEntriesSchema (h : Settled f t) :
    Script.Preserves (· = f) (migrateEntriesSchema now now') := by
  have hadd : Script.Preserves (· = f) (.update (DbFile.alterEntries EntriesTable.addCreatedAt)) :=
    h.alter fun t' hok => by simp [EntriesTable.addCreatedAt, h.createdAt] at hok
  have hadd' : Script.Preserves (· = f) (.update (DbFile.alterEntries EntriesTable.addLastUsedAt)) :=
    h.alter fun t' hok => by simp [EntriesTable.addLastUsedAt, h.lastUsedAt] at hok
  have hcreated : ∀ r ∈ t.rows, ∀ c, r.createdAt.or c = r.createdAt := fun r hr => or_of_ne_none (h.filled r hr).1
  have hused : ∀ r ∈ t.rows, ∀ c, r.lastUsedAt.or c = r.lastUsedAt := fun r hr => or_of_ne_none (h.filled r hr).2
  refine .bind (.query _) fun _ => .bind (.query _) fun _ => .bind (.query _) fun hasTimestamp => ?_
  refine .bind ?_ fun _ => .bind ?_ fun _ => ?_
  · split_ifs
    exacts [.pure _, hadd]
  · split_ifs
    exacts [.pure _, hadd']
  · split_ifs
    · refine .bind (h.setCreatedAt fun r hr => ?_) fun _ => h.setLastUsedAt fun r hr => ?_
      · rw [hcreated r hr, hcreated r hr]
      · rw [hused r hr, hused r hr, hused r hr]
    · refine .bind (h.setCreatedAt fun r hr => hcreated r hr _) fun _ => h.setLastUsedAt fun r hr => ?_
      rw [hused r hr, hused r hr]

theorem Settled.openDb (h : Settled f t) : Script.Preserves (· = f) (openDb limits now now') := by
  have hentries : f.createEntries = f := by
    rw [DbFile.createEntries, h.entries]
    exact DbFile.ext h.entries.symm rfl rfl rfl
  have hpayloads : f.createPayloads = f := by
    obtain ⟨p, hp⟩ := Option.ne_none_iff_exists'.1 h.payloads
    rw [DbFile.createPayloads, hp]
    exact DbFile.ext rfl hp.symm rfl rfl
  have hcreate : ∀ create : DbFile → DbFile, create f = f →
      Script.Preserves (· = f) (.update fun f => .ok ((), create f) : FileSql Unit) := by
    intro create hsame
    refine .update ?_
    rintro _ u g rfl hg
    cases hg
    exact hsame
  refine .bind (.bind (hcreate _ hentries) fun _ => .bind (hcreate _ hpayloads) fun _ => h.migrateEntriesSchema) ?_
  exact fun _ => .bind (.query _) fun _ => .pure _

end Database

namespace OpenDb
variable (db : OpenDb)

theorem settled_file : ∃ t, Database.Settled db.file t := by
  refine ⟨_, rfl, nofun, rfl, rfl, List.forall_mem_map.2 fun r _ => ?_⟩
  exact ⟨nofun, nofun⟩

/-- However far opening comes, the file of an opened history stays as it is. -/
theorem openDb_leaves {limits : Limits} {now now' : String} {g : DbFile}
    (h : (Database.openDb limits now now').Leaves db.file g) : g = db.file := by
  obtain ⟨t, ht⟩ := db.settled_file
  exact ht.openDb _ _ rfl h

theorem openDb_returns_file {limits : Limits} {now now' : String} {self : Database} {g : DbFile}
    (h : (Database.openDb limits now now').Returns db.file self g) :
    self = db.conn.self.withLimits limits ∧ g = db.file :=
  ⟨(Database.openDb_returns.1 h).1, db.openDb_leaves h.leaves⟩

/-- A file that the methods can read is that of an opened history. -/
theorem exists_of_toStore {f : DbFile} {s : Store} {self : Database} (hs : f.toStore = some s)
    (hself : self.hasLegacyTimestamp = f.entries.elim false (·.hasTimestamp)) :
    ∃ db : OpenDb, db.conn = ⟨self, s⟩ ∧ db.file = f := by
  unfold DbFile.toStore at hs
  split at hs
  · rename_i t p ht hp
    split_ifs at hs with htable
    simp only [Bool.and_eq_true, List.all_eq_true] at htable
    obtain ⟨⟨hcreated, hused⟩, hcomplete⟩ := htable
    obtain rfl := Option.some.inj hs
    rw [ht, Option.elim_some] at hself
    have hrow : ∀ r ∈ t.rows, r.row.toLegacy = r := by
      intro r hr
      obtain ⟨hc, hl⟩ := Bool.and_eq_true_iff.1 (hcomplete r hr)
      obtain ⟨created, hc⟩ := Option.isSome_iff_exists.1 hc
      obtain ⟨used, hl⟩ := Option.isSome_iff_exists.1 hl
      simp only [LegacyRow.row, EntryRow.toLegacy, hc, hl, Option.getD_some]
      rw [← hc, ← hl]
    refine ⟨⟨⟨self, _⟩, fun hno => List.forall_mem_map.2 fun r hr => ?_⟩, rfl, ?_⟩
    · exact t.noTimestamp (hself.symm.trans hno) r hr
    · refine DbFile.ext ?_ hp.symm rfl rfl
      rw [ht]
      refine congrArg some (EntriesTable.ext hcreated.symm hused.symm hself ?_)
      show (t.rows.map LegacyRow.row).map EntryRow.toLegacy = t.rows
      rw [List.map_map]
      exact (List.map_congr_left hrow).trans (List.map_id _)
  · cases hs

theorem exists_of_openDb {f g : DbFile} {limits : Limits} {now now' : String} {self : Database}
    (h : (Database.openDb limits now now').Returns f self g) : ∃ db : OpenDb, db.conn.self = self ∧ db.file = g := by
  obtain ⟨s, hs, -⟩ := openDb_store h
  obtain ⟨hself, rfl⟩ := Database.openDb_returns.1 h
  obtain ⟨db, hconn, hfile⟩ := @exists_of_toStore _ _ self hs (by rw [hself]; cases f.entries <;> rfl)
  exact ⟨db, congrArg Connection.self hconn, hfile⟩

/-- A call leaves an opened history. -/
theorem exists_of_ends {T : Type} {chrono : Chrono T} {plan : RecencyPlan} {op : Op T} {out : Option (Output T)}
    (db : OpenDb) {c : Connection} (h : op.Ends chrono plan db.conn out c) : ∃ db' : OpenDb, db'.conn = c := by
  refine ⟨⟨c, fun hno r hr => ?_⟩, rfl⟩
  have hlegacy : c.self.hasLegacyTimestamp = db.conn.self.hasLegacyTimestamp := by
    rw [h.stops.2]
    cases op <;> rfl
  rw [hlegacy] at hno
  rcases h.row hr with ⟨r₀, hkept⟩ | ⟨entry, payloads, hins⟩
  · rw [hkept.timestamp]
    exact db.noTimestamp hno r₀ hkept.mem
  · rw [hins.row]
    simp [Database.newColumns, hno]

end OpenDb

/-! ### Starting and exiting -/

/-- Between two lives of the daemon there is only the file. -/
inductive Lifetime
  | closed (f : DbFile)
  | opened (db : OpenDb)

/-- The daemon is started with the limits of its configuration, or exits before the history is opened; a call ends
with or without a result; and the daemon exits. -/
inductive LifetimeEvent (T : Type)
  | started (limits : Limits)
  | failed (limits : Limits)
  | call (op : Op T) (out : Option (Output T))
  | exited

/-- The events of a history that is never closed. -/
inductive HistoryEvent (T : Type)
  | limits (limits : Limits)
  | call (op : Op T) (out : Option (Output T))

section
variable {T : Type} (chrono : Chrono T) (plan : RecencyPlan)

def LifetimeEvent.seen : LifetimeEvent T → Option (HistoryEvent T)
  | started limits => some (.limits limits)
  | call op out => some (.call op out)
  | failed _ | exited => none

inductive Lifetime.Step : Lifetime → LifetimeEvent T → Lifetime → Prop
  | started {f g : DbFile} {db : OpenDb} {limits : Limits} {now now' : String}
      (hopen : (Database.openDb limits now now').Returns f db.conn.self g) (hfile : db.file = g) :
      Step (.closed f) (.started limits) (.opened db)
  | failed {f g : DbFile} {limits : Limits} {now now' : String}
      (hopen : (Database.openDb limits now now').Leaves f g) : Step (.closed f) (.failed limits) (.closed g)
  | call {db db' : OpenDb} {op : Op T} {out : Option (Output T)}
      (hcall : op.Ends chrono plan db.conn out db'.conn) : Step (.opened db) (.call op out) (.opened db')
  | exited {db : OpenDb} : Step (.opened db) .exited (.closed db.file)

inductive HistoryEvent.Step : Connection → HistoryEvent T → Connection → Prop
  | limits {c : Connection} {limits : Limits} : Step c (.limits limits) ⟨c.self.withLimits limits, c.store⟩
  | call {c c' : Connection} {op : Op T} {out : Option (Output T)} (hcall : op.Ends chrono plan c out c') :
      Step c (.call op out) c'

end

namespace Lifetime

/-- The history as it is in the life of the daemon, or after it. -/
inductive Shows : Lifetime → Connection → Prop
  | opened (db : OpenDb) : Shows (.opened db) db.conn
  | closed (db : OpenDb) : Shows (.closed db.file) db.conn

/-- The tables of the history. -/
def store : Lifetime → Option Store
  | closed f => f.toStore
  | opened db => some db.conn.store

variable {T : Type} {chrono : Chrono T} {plan : RecencyPlan} {l l' : Lifetime} {c c' : Connection}

theorem Shows.store_eq (h : l.Shows c) : l.store = some c.store := by
  cases h with
  | opened db => rfl
  | closed db => exact db.toStore_file

theorem OpenDb.conn_eq {db db' : OpenDb} (hfile : db'.file = db.file) {self : Database}
    (hself : db'.conn.self = self) : db'.conn = ⟨self, db.conn.store⟩ := by
  have hstore : some db'.conn.store = some db.conn.store := by
    rw [← db'.toStore_file, hfile, db.toStore_file]
  rw [← hself, ← Option.some.inj hstore]

theorem Shows.step {e : LifetimeEvent T} (h : l.Shows c) (hstep : Step chrono plan l e l') :
    (e.seen = none ∧ l'.Shows c) ∨ ∃ b c', e.seen = some b ∧ HistoryEvent.Step chrono plan c b c' ∧ l'.Shows c' := by
  cases h with
  | opened db =>
    cases hstep with
    | call hcall => exact .inr ⟨_, _, rfl, .call hcall, .opened _⟩
    | exited => exact .inl ⟨rfl, .closed db⟩
  | closed db =>
    cases hstep with
    | @started _ _ db' _ _ _ hopen hfile =>
      obtain ⟨hself, rfl⟩ := db.openDb_returns_file hopen
      have hconn := OpenDb.conn_eq hfile hself
      exact .inr ⟨_, _, rfl, .limits, hconn ▸ .opened db'⟩
    | failed hopen =>
      rw [db.openDb_leaves hopen]
      exact .inl ⟨rfl, .closed db⟩

theorem Shows.of_run {events : List (LifetimeEvent T)} (h : l.Shows c) (hrun : Run (Step chrono plan) l events l') :
    ∃ c', Run (HistoryEvent.Step chrono plan) c (events.filterMap LifetimeEvent.seen) c' ∧ l'.Shows c' :=
  hrun.abstracts (fun _ _ _ _ hR hstep => hR.step hstep) h

/-- What happens to an open history can happen to it over several lives. -/
theorem realized {db : OpenDb} {b : HistoryEvent T} (hstep : HistoryEvent.Step chrono plan db.conn b c) :
    ∃ events db', Run (Step chrono plan) (.opened db) events (.opened db') ∧
      events.filterMap LifetimeEvent.seen = [b] ∧ db'.conn = c := by
  cases hstep with
  | @limits limits =>
    obtain ⟨self, g, hopen⟩ : ∃ self g, (Database.openDb limits "" "").Returns db.file self g :=
      ⟨_, _, Database.openDb_returns.2 ⟨rfl, rfl⟩⟩
    obtain ⟨rfl, rfl⟩ := db.openDb_returns_file hopen
    let db' : OpenDb := ⟨⟨db.conn.self.withLimits limits, db.conn.store⟩, db.noTimestamp⟩
    have hstarted : Step chrono plan (.closed db.file) (.started limits) (.opened db') := .started hopen rfl
    exact ⟨[.exited, .started limits], db', .cons .exited (.single hstarted), rfl, rfl⟩
  | call hcall =>
    obtain ⟨db', rfl⟩ := db.exists_of_ends hcall
    exact ⟨_, db', .single (.call hcall), rfl, rfl⟩

theorem realized_run {db : OpenDb} {history : List (HistoryEvent T)}
    (hrun : Run (HistoryEvent.Step chrono plan) db.conn history c) :
    ∃ events db', Run (Step chrono plan) (.opened db) events (.opened db') ∧
      events.filterMap LifetimeEvent.seen = history ∧ db'.conn = c := by
  let R : Lifetime → Connection → Prop := fun l c => ∃ db : OpenDb, l = .opened db ∧ db.conn = c
  have hrealized : ∀ c b c' l, R l c → HistoryEvent.Step chrono plan c b c' → ∃ events l',
      Run (Step chrono plan) l events l' ∧ events.filterMap LifetimeEvent.seen = [b] ∧ R l' c' := by
    rintro c b c' _ ⟨db, rfl, rfl⟩ hstep
    obtain ⟨events, db', hlives, hseen, rfl⟩ := realized hstep
    exact ⟨events, _, hlives, hseen, db', rfl, rfl⟩
  obtain ⟨events, _, hlives, hseen, db', rfl, hconn⟩ := hrun.realizes hrealized ⟨db, rfl, rfl⟩
  exact ⟨events, db', hlives, hseen, hconn⟩

/-- Any number of lives of the daemon, each of which may end between two statements of a call or of opening, and a
history that is never closed and whose limits are set instead, do the same calls with the same results and leave the
same tables. -/
theorem lives_as_one (chrono : Chrono T) (plan : RecencyPlan) {f g : DbFile} {limits : Limits} {now now' : String}
    {self : Database} (hopen : (Database.openDb limits now now').Returns f self g) :
    ∃ db : OpenDb, db.conn.self = self ∧ db.file = g ∧
      (∀ events l, Run (Step chrono plan) (.opened db) events l →
        ∃ c, Run (HistoryEvent.Step chrono plan) db.conn (events.filterMap LifetimeEvent.seen) c ∧ l.Shows c) ∧
      ∀ history c, Run (HistoryEvent.Step chrono plan) db.conn history c →
        ∃ events l, Run (Step chrono plan) (.opened db) events l ∧
          events.filterMap LifetimeEvent.seen = history ∧ l.Shows c := by
  obtain ⟨db, hself, hfile⟩ := OpenDb.exists_of_openDb hopen
  refine ⟨db, hself, hfile, fun events l hrun => (Shows.opened db).of_run hrun, fun history c hrun => ?_⟩
  obtain ⟨events, db', hlives, hseen, rfl⟩ := realized_run hrun
  exact ⟨events, .opened db', hlives, hseen, .opened db'⟩

theorem lives_as_one_legacy :
    ∃ db : OpenDb, db.conn.self = { Database.ofLimits .default with hasLegacyTimestamp := true } ∧
      db.file.toStore = some legacyStore ∧
      ∀ events l, Run (Step .tenSeconds .index) (.opened db) events l →
        ∃ c, Run (HistoryEvent.Step .tenSeconds .index) db.conn (events.filterMap LifetimeEvent.seen) c ∧
          l.Shows c := by
  obtain ⟨self, g, hopen⟩ : ∃ self g, (Database.openDb .default "2026-05-01T00:00:00.000Z"
      "2026-05-01T00:00:00.001Z").Returns legacyFile self g := ⟨_, _, Database.openDb_returns.2 ⟨rfl, rfl⟩⟩
  obtain ⟨db, hself, hfile, hlives, -⟩ := lives_as_one .tenSeconds .index hopen
  obtain ⟨rfl, rfl⟩ := Database.openDb_returns.1 hopen
  exact ⟨db, hself, by rw [hfile]; decide, hlives⟩

end Lifetime

end Mimeclip
