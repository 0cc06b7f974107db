import Mimeclip.DbOpen
import Mimeclip.Lib.Run

/-!
# Migrations that are interrupted

`migrate_entries_schema` is a sequence of statements without a transaction. Whatever prefix of it has been
carried out, the table is in one of three stages (`Stage`): no cell is filled yet, `created_at` is filled, or
it is migrated. Migrating a table of any stage ends where an uninterrupted migration does, with the clock of
the run that filled `created_at` (`migrateEntriesSchema_restarts`).
-/

namespace Mimeclip

/-! ### Stages -/

def LegacyRow.fillCreatedAt (now : String) (r : LegacyRow) : LegacyRow :=
  { r with createdAt := (r.createdAt.or r.timestamp).or now }

namespace EntriesTable
variable {t t' : EntriesTable} {now now' : String}

/-- What a migration of `t` has made of it when it stops. -/
inductive Stage (now : String) (t : EntriesTable) : EntriesTable → Prop
  | unfilled {t' : EntriesTable} (hrows : t'.rows = t.rows) (htimestamp : t'.hasTimestamp = t.hasTimestamp) :
      Stage now t t'
  | dated {t' : EntriesTable} (hrows : t'.rows = t.rows.map (·.fillCreatedAt now))
      (htimestamp : t'.hasTimestamp = t.hasTimestamp) : Stage now t t'
  | migrated (now' : String) : Stage now t (t.migrate now now')

theorem migrate_congr (hrows : t'.rows = t.rows) (htimestamp : t'.hasTimestamp = t.hasTimestamp) :
    t'.migrate now now' = t.migrate now now' := by
  ext1
  · rfl
  · rfl
  · exact htimestamp
  · exact congrArg (List.map (·.migrate now now')) hrows

/-- The second clock reading is never used: `created_at` is filled by then. -/
theorem migrate_row (r : LegacyRow) : r.migrate now now' =
    { r with
      createdAt := some ((r.createdAt.or r.timestamp).getD now)
      lastUsedAt := some ((r.lastUsedAt.or r.timestamp).getD ((r.createdAt.or r.timestamp).getD now)) } := by
  rw [LegacyRow.migrate]
  cases r.createdAt <;> cases r.lastUsedAt <;> cases r.timestamp <;> rfl

theorem migrate_fillCreatedAt (r : LegacyRow) (c c' : String) :
    (r.fillCreatedAt now).migrate c c' = r.migrate now now' := by
  rw [migrate_row, migrate_row, LegacyRow.fillCreatedAt]
  cases r.createdAt <;> cases r.timestamp <;> rfl

theorem migrate_migrate_row (r : LegacyRow) (c c' : String) :
    (r.migrate now now').migrate c c' = r.migrate now now' := by
  rw [migrate_row, migrate_row]
  rfl

theorem migrate_migrate (c c' : String) : (t.migrate now now').migrate c c' = t.migrate now now' := by
  ext1
  · rfl
  · rfl
  · rfl
  · show (t.rows.map _).map _ = t.rows.map _
    rw [List.map_map]
    exact List.map_congr_left fun r _ => migrate_migrate_row r c c'

theorem migrate_clock (c' : String) : t.migrate now now' = t.migrate now c' := by
  ext1
  · rfl
  · rfl
  · rfl
  · exact List.map_congr_left fun r _ => (migrate_row r).trans (migrate_row r).symm

/-- Migrating again ends where the first migration would have, unless `created_at` was not filled. -/
theorem Stage.migrate (h : Stage now t t') (c c' : String) :
    t'.migrate c c' = t.migrate c c' ∨ t'.migrate c c' = t.migrate now now' := by
  cases h with
  | unfilled hrows htimestamp => exact .inl (migrate_congr hrows htimestamp)
  | dated hrows htimestamp =>
    right
    ext1
    · rfl
    · rfl
    · exact htimestamp
    · show t'.rows.map _ = t.rows.map _
      rw [hrows, List.map_map]
      exact List.map_congr_left fun r _ => migrate_fillCreatedAt r c c'
  | migrated now'' => exact .inr ((migrate_migrate c c').trans (migrate_clock now'))

theorem addCreatedAt_ok (h : t.addCreatedAt = .ok t') : t'.rows = t.rows ∧ t'.hasTimestamp = t.hasTimestamp := by
  rw [addCreatedAt] at h
  split_ifs at h
  cases h
  exact ⟨rfl, rfl⟩

theorem addLastUsedAt_ok (h : t.addLastUsedAt = .ok t') : t'.rows = t.rows ∧ t'.hasTimestamp = t.hasTimestamp := by
  rw [addLastUsedAt] at h
  split_ifs at h
  cases h
  exact ⟨rfl, rfl⟩

theorem setCreatedAt_ok {f : LegacyRow → Option String} (h : t.setCreatedAt f = .ok t') :
    t'.rows = t.rows.map (fun r => { r with createdAt := f r }) ∧ t'.hasTimestamp = t.hasTimestamp := by
  rw [setCreatedAt] at h
  split_ifs at h
  cases h
  exact ⟨rfl, rfl⟩

end EntriesTable

/-! ### Stopping a migration -/

namespace Database
variable {f g : DbFile} {t : EntriesTable} {now now' : String}

theorem alter_leaves {stmt : EntriesTable → Except SqlError EntriesTable} (hf : f.entries = some t)
    (h : (Script.update (DbFile.alterEntries stmt)).Leaves f g) :
    g = f ∨ ∃ t', stmt t = .ok t' ∧ g = { f with entries := some t' } := by
  refine (Script.leaves_update.1 h).imp id fun ⟨u, hu⟩ => ?_
  rw [DbFile.alterEntries, hf] at hu
  dsimp only at hu
  cases hs : stmt t with
  | error e => simp [hs, Except.map] at hu
  | ok t' =>
    rw [hs] at hu
    cases hu
    exact ⟨t', rfl, rfl⟩

theorem ensure_leaves {b : Bool} {stmt : EntriesTable → Except SqlError EntriesTable} (hf : f.entries = some t)
    (h : (if b then pure () else .update (DbFile.alterEntries stmt) : FileSql Unit).Leaves f g) :
    g = f ∨ ∃ t', stmt t = .ok t' ∧ g = { f with entries := some t' } := by
  split_ifs at h
  · exact .inl (Script.leaves_pure.1 h)
  · exact alter_leaves hf h

/-- The two updates: nothing, the first or both have been carried out. -/
theorem setTimes_leaves {fc fl : LegacyRow → Option String} (hf : f.entries = some t)
    (h : (do
      Script.update (DbFile.alterEntries (EntriesTable.setCreatedAt fc))
      Script.update (DbFile.alterEntries (EntriesTable.setLastUsedAt fl)) : FileSql Unit).Leaves f g) :
    g = f ∨ (∃ t', t.setCreatedAt fc = .ok t' ∧ g = { f with entries := some t' }) ∨
      (do
        Script.update (DbFile.alterEntries (EntriesTable.setCreatedAt fc))
        Script.update (DbFile.alterEntries (EntriesTable.setLastUsedAt fl)) : FileSql Unit).Returns f () g := by
  rcases Script.leaves_bind.1 h with h | ⟨u, f₁, hfirst, h⟩
  · exact (alter_leaves hf h).imp id .inl
  · rcases Script.leaves_update.1 h with rfl | ⟨u', h⟩
    · exact (alter_leaves hf hfirst.leaves).imp id .inl
    · exact .inr (.inr (Script.returns_bind.2 ⟨u, f₁, hfirst, Script.returns_update.2 h⟩))

/-- A table that has the columns is filled in two steps. -/
theorem setTimes_stage {u : EntriesTable} {fc fl : LegacyRow → Option String} (hf : f.entries = some u)
    (hrows : u.rows = t.rows) (htimestamp : u.hasTimestamp = t.hasTimestamp) (hc : u.hasCreatedAt = true)
    (hl : u.hasLastUsedAt = true) (hfc : ∀ r ∈ t.rows, { r with createdAt := fc r } = r.fillCreatedAt now)
    (hfl : ∀ r ∈ t.rows, { r.fillCreatedAt now with lastUsedAt := fl (r.fillCreatedAt now) } = r.migrate now now')
    (h : (do
      Script.update (DbFile.alterEntries (EntriesTable.setCreatedAt fc))
      Script.update (DbFile.alterEntries (EntriesTable.setLastUsedAt fl)) : FileSql Unit).Leaves f g) :
    ∃ t', g = { f with entries := some t' } ∧ t.Stage now t' := by
  rcases setTimes_leaves hf h with rfl | ⟨t', hset, rfl⟩ | hreturns
  · exact ⟨u, by rw [← hf], .unfilled hrows htimestamp⟩
  · obtain ⟨hrows', htimestamp'⟩ := EntriesTable.setCreatedAt_ok hset
    refine ⟨t', rfl, .dated ?_ (htimestamp'.trans htimestamp)⟩
    rw [hrows', hrows]
    exact List.map_congr_left hfc
  · refine ⟨_, (setTimes_returns u (t.migrate now now') hf hc hl rfl rfl htimestamp.symm ?_).1 hreturns, .migrated now'⟩
    rw [hrows]
    refine List.map_congr_left fun r hr => ?_
    rw [← hfl r hr, ← hfc r hr]

/-- Wherever a migration stops, only the entries have changed, and they are in one of the stages. -/
theorem migrateEntriesSchema_leaves (hf : f.entries = some t) (h : (migrateEntriesSchema now now').Leaves f g) :
    ∃ t', g = { f with entries := some t' } ∧ t.Stage now t' := by
  have hstart : f = { f with entries := some t } ∧ t.Stage now t := ⟨by rw [← hf], .unfilled rfl rfl⟩
  rw [migrateEntriesSchema] at h
  rcases Script.leaves_bind.1 h with hq | ⟨_, f₁, hb, h₁⟩
  · exact ⟨t, Script.leaves_query.1 hq ▸ hstart⟩
  obtain ⟨hcreated, hsame₁⟩ := (columnExists_returns hf).1 hb
  rw [hsame₁, hcreated, EntriesTable.hasColumn_createdAt] at h₁
  rcases Script.leaves_bind.1 h₁ with hq | ⟨_, f₂, hb, h₂⟩
  · exact ⟨t, Script.leaves_query.1 hq ▸ hstart⟩
  obtain ⟨hused, hsame₂⟩ := (columnExists_returns hf).1 hb
  rw [hsame₂, hused, EntriesTable.hasColumn_lastUsedAt] at h₂
  rcases Script.leaves_bind.1 h₂ with hq | ⟨_, f₃, hb, h₃⟩
  · exact ⟨t, Script.leaves_query.1 hq ▸ hstart⟩
  obtain ⟨htimestamp, hsame₃⟩ := (columnExists_returns hf).1 hb
  rw [hsame₃, htimestamp, EntriesTable.hasColumn_timestamp] at h₃
  rcases Script.leaves_bind.1 h₃ with hadd | ⟨_, f₄, hcreate, h₄⟩
  · rcases ensure_leaves hf hadd with hsame | ⟨t', hok, hg⟩
    · exact ⟨t, hsame ▸ hstart⟩
    · obtain ⟨hrows, hts⟩ := EntriesTable.addCreatedAt_ok hok
      exact ⟨t', hg, .unfilled hrows hts⟩
  rw [(ensureCreatedAt_returns hf).1 hcreate] at h₄
  rcases Script.leaves_bind.1 h₄ with hadd | ⟨_, f₅, huse, h₅⟩
  · rcases ensure_leaves (t := t.withCreatedAt) rfl hadd with hsame | ⟨t', hok, hg⟩
    · exact ⟨t.withCreatedAt, hsame, .unfilled rfl rfl⟩
    · obtain ⟨hrows, hts⟩ := EntriesTable.addLastUsedAt_ok hok
      exact ⟨t', hg, .unfilled hrows hts⟩
  rw [(ensureLastUsedAt_returns (t := t.withCreatedAt) rfl rfl).1 huse] at h₅
  cases ht : t.hasTimestamp with
  | true =>
    rw [ht, if_pos rfl] at h₅
    exact setTimes_stage (f := { f with entries := some t.withCreatedAt.withLastUsedAt }) rfl rfl rfl rfl rfl
      (fun _ _ => rfl) (fun _ _ => rfl) h₅
  | false =>
    rw [ht, if_neg Bool.false_ne_true] at h₅
    have hfc : ∀ r ∈ t.rows, { r with createdAt := r.createdAt.or now } = r.fillCreatedAt now := by
      intro r hr
      rw [LegacyRow.fillCreatedAt, t.noTimestamp ht r hr, Option.or_none]
    have hfl : ∀ r ∈ t.rows, { r.fillCreatedAt now with
        lastUsedAt := ((r.fillCreatedAt now).lastUsedAt.or (r.fillCreatedAt now).createdAt).or now' } =
          r.migrate now now' := by
      intro r hr
      simp only [LegacyRow.fillCreatedAt, LegacyRow.migrate, t.noTimestamp ht r hr, Option.or_none]
    exact setTimes_stage (f := { f with entries := some t.withCreatedAt.withLastUsedAt }) rfl rfl rfl rfl rfl
      hfc hfl h₅

/-! ### Starting again -/

theorem restarts_of_run {clocks : List (String × String)}
    (hrun : Run (fun f clock g => (migrateEntriesSchema clock.1 clock.2).Leaves f g) { f with entries := some t }
      clocks g) :
    ∃ t', g = { f with entries := some t' } ∧
      ∀ c c', ∃ clock ∈ (c, c') :: clocks, t'.migrate c c' = t.migrate clock.1 clock.2 := by
  have hstart : ∃ t', ({ f with entries := some t } : DbFile) = { f with entries := some t' } ∧
      ∀ c c', ∃ clock ∈ [(c, c')], t'.migrate c c' = t.migrate clock.1 clock.2 :=
    ⟨t, rfl, fun c c' => ⟨(c, c'), by simp, rfl⟩⟩
  refine hrun.history (I := fun clocks g => ∃ t', g = { f with entries := some t' } ∧
    ∀ c c', ∃ clock ∈ (c, c') :: clocks, t'.migrate c c' = t.migrate clock.1 clock.2) ?_ hstart
  rintro clocks _ clock g ⟨t', rfl, hbefore⟩ hleaves
  obtain ⟨t'', rfl, hstage⟩ := migrateEntriesSchema_leaves rfl hleaves
  refine ⟨t'', rfl, fun c c' => ?_⟩
  rcases hstage.migrate c c' with heq | heq
  · obtain ⟨clock', hmem, heq'⟩ := hbefore c c'
    refine ⟨clock', ?_, heq.trans heq'⟩
    rcases List.mem_cons.1 hmem with rfl | hmem
    · simp
    · simp [hmem]
  · obtain ⟨clock', hmem, heq'⟩ := hbefore clock.1 clock.2
    refine ⟨clock', ?_, heq.trans heq'⟩
    rcases List.mem_cons.1 hmem with rfl | hmem
    · simp
    · simp [hmem]

/-- A migration fills what is missing and changes nothing else, and a second one nothing at all. After any
number of migrations that were stopped, one that is not stopped comes to its end and leaves what an
uninterrupted migration leaves, with the clock of one of them. -/
theorem migrateEntriesSchema_restarts (f : DbFile) (t : EntriesTable) (now now' : String) :
    let file : DbFile := { f with entries := some t }
    (∃ migrated : EntriesTable, migrated.hasCreatedAt = true ∧ migrated.hasLastUsedAt = true ∧
      migrated.hasTimestamp = t.hasTimestamp ∧
      migrated.rows = t.rows.map (fun r => { r with
        createdAt := some ((r.createdAt.or r.timestamp).getD now)
        lastUsedAt := some ((r.lastUsedAt.or r.timestamp).getD ((r.createdAt.or r.timestamp).getD now)) }) ∧
      ∀ g, (migrateEntriesSchema now now').Returns file () g ↔ g = { f with entries := some migrated }) ∧
    (∀ g, (migrateEntriesSchema now now').Returns file () g →
      ∀ later later' g', (migrateEntriesSchema later later').Returns g () g' ↔ g' = g) ∧
    ∀ clocks stopped,
      Run (fun f clock g => (migrateEntriesSchema clock.1 clock.2).Leaves f g) file clocks stopped →
      ∃ g, (∀ g', (migrateEntriesSchema now now').Returns stopped () g' ↔ g' = g) ∧
        ∃ clock ∈ (now, now') :: clocks, (migrateEntriesSchema clock.1 clock.2).Returns file () g := by
  intro file
  have hreturns : ∀ now now' g, (migrateEntriesSchema now now').Returns file () g ↔
      g = { f with entries := some (t.migrate now now') } := fun now now' g => migrateEntriesSchema_returns rfl
  refine ⟨⟨t.migrate now now', rfl, rfl, rfl, ?_, hreturns now now'⟩, ?_, ?_⟩
  · exact List.map_congr_left fun r _ => EntriesTable.migrate_row r
  · intro g hg later later' g'
    obtain rfl := (hreturns now now' g).1 hg
    rw [migrateEntriesSchema_returns rfl, EntriesTable.migrate_migrate]
  · intro clocks stopped hrun
    obtain ⟨t', rfl, hstopped⟩ := restarts_of_run hrun
    obtain ⟨clock, hmem, heq⟩ := hstopped now now'
    refine ⟨_, fun g' => migrateEntriesSchema_returns rfl, clock, hmem, (hreturns _ _ _).2 ?_⟩
    rw [heq]

/-- A row with a timestamp and one without, before there were other times. -/
def legacyTable : EntriesTable where
  hasCreatedAt := false
  hasLastUsedAt := false
  hasTimestamp := true
  rows := [⟨1, "a", "text", "hi", "hi", 2, none, none, some "0"⟩, ⟨2, "b", "text", "yo", "yo", 2, none, none, none⟩]
  rows_sorted := by simp
  hashes_unique := by simp
  noCreatedAt := by simp
  noLastUsedAt := by simp
  noTimestamp := nofun

def legacyFile : DbFile := ⟨some legacyTable, none, 2, 0⟩

/-- The migration is interrupted between its two updates. -/
theorem migrateEntriesSchema_restarts_legacyFile :
    let (outcome, stopped, _) := (migrateEntriesSchema "5" "6").run (some 6) legacyFile
    outcome = .error .interrupted ∧
      (stopped.entries.map fun t => t.rows.map fun r => (r.createdAt, r.lastUsedAt)) =
        some [(some "0", none), (some "5", none)] ∧
      ∃ g, (∀ g', (migrateEntriesSchema "7" "8").Returns stopped () g' ↔ g' = g) ∧
        ∃ clock ∈ [("7", "8"), ("5", "6")], (migrateEntriesSchema clock.1 clock.2).Returns legacyFile () g :=
  ⟨rfl, rfl, (migrateEntriesSchema_restarts legacyFile legacyTable "7" "8").2.2 [("5", "6")] _
    (.single (Script.run_leaves _ (some 6) legacyFile))⟩

end Database

end Mimeclip
