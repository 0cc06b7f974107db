import Mimeclip.DbOpen
import Mimeclip.DbRun

/-!
# Payload rows refer to entries

Every deletion of the program names `entries` only and leaves the payload rows to the cascade. A table
created by this version declares it, and then no payload row outlives its entry
(`Op.Stops.referenced`); a table of an earlier version that lacks it is opened as it is, and the payload
rows of whatever is deleted stay. `payloadsReferenced_iff` gives the files on which the rows stay
referenced.
-/

namespace Mimeclip

def Store.Referenced (s : Store) : Prop := ∀ q ∈ s.payloads, q.entryId ∈ s.ids

instance (s : Store) : Decidable s.Referenced :=
  inferInstanceAs (Decidable (∀ q ∈ s.payloads, q.entryId ∈ s.ids))

namespace Store
variable {s : Store}

theorem Referenced.rawPayloads_eq_nil (h : s.Referenced) {id : Int} (hid : id ∉ s.ids) :
    s.rawPayloads id = [] := by
  rw [rawPayloads, List.map_eq_nil_iff, List.eq_nil_iff_forall_not_mem]
  intro q hq
  obtain ⟨hmem, rfl⟩ := mem_payloadsOf.1 hq
  exact hid (h q hmem)

theorem Referenced.addEntry (h : s.Referenced) {columns : EntryColumns} {hh} :
    (s.addEntry columns hh).Referenced := by
  intro q hq
  rw [Database.ids_addEntry]
  exact List.mem_append_left _ (h q hq)

theorem Referenced.addPayload (h : s.Referenced) {id : Int} (hid : id ∈ s.ids) {m : String} {d : Bytes} :
    (s.addPayload id m d).Referenced := by
  intro q hq
  rcases List.mem_append.1 hq with hq | hq
  · exact h q hq
  · rw [List.mem_singleton.1 hq]; exact hid

theorem Referenced.addPayloads (h : s.Referenced) {id : Int} (hid : id ∈ s.ids) (payloads : Payloads) :
    (s.addPayloads id payloads).Referenced := by
  induction payloads generalizing s with
  | nil => exact h
  | cons p payloads ih => exact ih (h.addPayload hid) hid

theorem Referenced.updateEntry (h : s.Referenced) {id : Int} {f : EntryColumns → EntryColumns} {hf} :
    (s.updateEntry id f hf).Referenced := by
  intro q hq
  rw [ids_updateEntry]
  exact h q hq

theorem Referenced.deleteWhere (h : s.Referenced) (hc : s.cascade = true) (p : EntryRow → Bool) :
    (s.deleteWhere p).Referenced := by
  intro q hq
  simp only [Store.deleteWhere, hc, ↓reduceIte, List.mem_filter, Bool.not_eq_true', List.any_eq_false,
    Bool.and_eq_true, beq_iff_eq] at hq
  obtain ⟨hq, hkept⟩ := hq
  obtain ⟨r, hr, hid⟩ := mem_ids.1 (h q hq)
  refine mem_ids.2 ⟨r, mem_deleteWhere.2 ⟨hr, ?_⟩, hid⟩
  by_contra hp
  exact hkept r hr ⟨Bool.not_eq_false _ ▸ hp, hid⟩

end Store

variable {T : Type} {chrono : Chrono T} {plan : RecencyPlan}

/-! ### With the cascade -/

theorem Database.Written.referenced {self : Database} {entry : NewEntry T} {s w : Store} {id : Int}
    (hw : Written chrono self entry s id w) (h : s.Referenced) :
    w.Referenced ∧ w.cascade = s.cascade := by
  cases hw with
  | refreshed hid => exact ⟨h.updateEntry, rfl⟩
  | added s₁ hid hs₁ =>
    obtain ⟨rfl, hh, rfl⟩ := Store.insertEntry_ok hs₁
    exact ⟨h.addEntry.addPayloads (by simp [ids_addEntry]) _, by simp⟩

theorem Op.Stops.referenced {c c' : Connection} {op : Op T} (h : Stops chrono plan c op c')
    (hI : c.store.Referenced ∧ c.store.cascade = true) :
    c'.store.Referenced ∧ c'.store.cascade = true := by
  refine h.preserves (I := fun s => s.Referenced ∧ s.cascade = true) ?_
    (fun s p hs => ⟨hs.1.deleteWhere hs.2 p, hs.2⟩) (fun s id now hs => ⟨hs.1.updateEntry, hs.2⟩) hI
  intro self entry s t _ ⟨hs, hc⟩ hleaves
  cases Database.insert_leaves hleaves with
  | unchanged => exact ⟨hs, hc⟩
  | partly id s₁ hid hs₁ k hk =>
    obtain ⟨rfl, hh, rfl⟩ := Store.insertEntry_ok hs₁
    exact ⟨hs.addEntry.addPayloads (by simp [Database.ids_addEntry]) _, by simpa using hc⟩
  | written hw ht =>
    obtain ⟨hw, hcw⟩ := hw.referenced hs
    obtain ⟨p, rfl⟩ := Database.trim_leaves plan self ht
    exact ⟨hw.deleteWhere (hcw.trans hc) p, hcw.trans hc⟩

/-! ### Without the cascade -/

/-- No payload row and no way to add one: one of the tables has handed out its last id. -/
def Store.Exhausted (s : Store) : Prop :=
  s.payloads = [] ∧ (i64Max ≤ s.entrySeq ∨ i64Max ≤ s.payloadSeq)

theorem Store.Exhausted.deleteWhere {s : Store} (h : s.Exhausted) (p : EntryRow → Bool) :
    (s.deleteWhere p).Exhausted := by
  refine ⟨?_, h.2⟩
  simp only [Store.deleteWhere, h.1]
  split_ifs <;> rfl

theorem Store.Exhausted.updateEntry {s : Store} (h : s.Exhausted) {id : Int}
    {f : EntryColumns → EntryColumns} {hf} : (s.updateEntry id f hf).Exhausted := h

theorem Database.insert_preserves_full {self : Database} {entry : NewEntry T} :
    Script.Preserves (fun s => s.payloads = [] ∧ i64Max ≤ s.payloadSeq) (self.insert chrono plan entry) := by
  have htrim : Script.Preserves (fun s => s.payloads = [] ∧ i64Max ≤ s.payloadSeq) (self.trim plan) :=
    trim_preserves plan self fun s p hs => ⟨(Store.Exhausted.deleteWhere ⟨hs.1, .inr hs.2⟩ p).1, hs.2⟩
  have hpayloads : ∀ id (payloads : Payloads), Script.Preserves
      (fun s => s.payloads = [] ∧ i64Max ≤ s.payloadSeq) (insertPayloads id payloads) := by
    intro id payloads
    induction payloads with
    | nil => exact .pure _
    | cons p payloads ih =>
      refine .bind (.update fun s _ t hs ht => ?_) fun _ => ih
      have : i64Max < s.nextPayloadId := by simpa [Store.nextPayloadId, hs.1] using Int.lt_add_one_of_le hs.2
      simp [Store.insertPayload, this] at ht
  rw [insert]
  refine .bind (.query _) fun found => ?_
  cases found with
  | some id =>
    refine .bind (.update fun s _ t hs ht => ?_) fun _ => .bind htrim fun _ => .pure _
    cases ht
    exact hs
  | none =>
    refine .bind (.update fun s id t hs ht => ?_) fun id => .bind (hpayloads id _) fun _ =>
      .bind htrim fun _ => .pure _
    obtain ⟨-, hh, rfl⟩ := Store.insertEntry_ok ht
    exact hs

theorem Op.Stops.exhausted {c c' : Connection} {op : Op T} (h : Stops chrono plan c op c')
    (hI : c.store.Exhausted) : c'.store.Exhausted := by
  refine h.preserves ?_ (fun s p hs => hs.deleteWhere p) (fun s id now hs => hs.updateEntry) hI
  intro self entry s t _ ⟨hs, hseq⟩ hleaves
  rcases hseq with hseq | hseq
  · -- no row of `entries` can be added
    cases Database.insert_leaves hleaves with
    | unchanged => exact ⟨hs, .inl hseq⟩
    | partly id s₁ hid hs₁ => exact absurd (Store.entrySeq_lt_of_insertEntry_ok hs₁) hseq.not_gt
    | written hw ht =>
      obtain ⟨p, rfl⟩ := Database.trim_leaves plan self ht
      cases hw with
      | refreshed hid =>
        have hex : s.Exhausted := ⟨hs, .inl hseq⟩
        exact hex.updateEntry.deleteWhere p
      | added s₁ hid hs₁ => exact absurd (Store.entrySeq_lt_of_insertEntry_ok hs₁) hseq.not_gt
  · obtain ⟨ht, hseq⟩ := Database.insert_preserves_full s t ⟨hs, hseq⟩ hleaves
    exact ⟨ht, .inr hseq⟩

/-- Where the cascade is missing, a deletion leaves the payload rows of the entry behind. -/
theorem not_referenced_of_delete {s : Store} (hc : s.cascade = false) {q : PayloadRow} (hq : q ∈ s.payloads) :
    ¬ (s.deleteWhere (·.id == q.entryId)).Referenced := by
  intro h
  have hq' : q ∈ (s.deleteWhere (·.id == q.entryId)).payloads := by simpa [Store.deleteWhere, hc] using hq
  obtain ⟨r, hr, hid⟩ := Store.mem_ids.1 (h q hq')
  have := (Store.mem_deleteWhere.1 hr).2
  simp [hid] at this

def emptyText [Inhabited T] : NewEntry T where
  hash := ""
  kind := .text
  label := ""
  preview := ""
  size := 0
  createdAt := default
  payloads := [("text/plain", [])]

theorem insert_leaves_payload [Inhabited T] (chrono : Chrono T) (plan : RecencyPlan) (self : Database)
    {s : Store} (hs : s.entries = []) (hp : s.payloads = []) (he : s.entrySeq < i64Max)
    (hseq : s.payloadSeq < i64Max) :
    ∃ t, (self.insert chrono plan emptyText).Leaves s t ∧ t.cascade = s.cascade ∧ t.payloads ≠ [] := by
  have hh : ∀ r ∈ s.entries, r.hash ≠ (self.newColumns chrono emptyText).hash := by simp [hs]
  have hid : ¬ i64Max < s.nextEntryId := by simpa [Store.nextEntryId, hs] using Int.add_one_le_of_lt he
  have hins : s.insertEntry (self.newColumns chrono emptyText) = .ok (s.nextEntryId, s.addEntry _ hh) := by
    rw [Store.insertEntry, if_neg hid, dif_pos hh]
  have hpid : ¬ i64Max < (s.addEntry _ hh).nextPayloadId := by
    simpa [Store.nextPayloadId, Store.addEntry, hp] using Int.add_one_le_of_lt hseq
  have hpay : (s.addEntry _ hh).insertPayload s.nextEntryId "text/plain" [] =
      .ok ((), (s.addEntry _ hh).addPayload s.nextEntryId "text/plain" []) := by
    rw [Store.insertPayload, if_neg hpid, if_neg]
    simp [Store.addEntry]
  have hfind : Database.known s (emptyText : NewEntry T).hash = none := by simp [Database.known, hs]
  refine ⟨(s.addEntry _ hh).addPayload s.nextEntryId "text/plain" [], ?_, rfl,
    List.append_ne_nil_of_right_ne_nil _ (List.cons_ne_nil _ _)⟩
  refine Script.leaves_bind.2 (.inr ⟨_, _, Database.findByHash_returns.2 ⟨hfind.symm, rfl⟩, ?_⟩)
  refine Script.leaves_bind.2 (.inr ⟨_, _, Script.returns_update.2 hins, ?_⟩)
  refine Script.leaves_bind.2 (.inl ?_)
  exact Script.leaves_bind.2 (.inr ⟨_, _, Script.returns_update.2 hpay, Script.leaves_start _ _⟩)

/-- Where a payload row can be added, some run ends in a store that has one. -/
theorem exists_payload [Inhabited T] (chrono : Chrono T) (plan : RecencyPlan) (self : Database) {s : Store}
    (hc : s.cascade = false) (hroom : s.payloads = [] → s.entrySeq < i64Max ∧ s.payloadSeq < i64Max) :
    ∃ (ops : List (Op T)) (c : Connection), Run (Op.Stops chrono plan) ⟨self, s⟩ ops c ∧
      c.store.cascade = false ∧ ∃ q, q ∈ c.store.payloads := by
  by_cases hp : s.payloads = []
  · -- in a store that was cleared there is nothing the insertion could evict or refresh
    obtain ⟨he, hseq⟩ := hroom hp
    set cleared := s.deleteWhere fun _ => true with hcl
    have hentries : cleared.entries = [] := by simp [hcl, Store.deleteWhere]
    have hpayloads : cleared.payloads = [] := by simp [hcl, Store.deleteWhere, hc, hp]
    obtain ⟨t, ht, htc, hne⟩ := insert_leaves_payload chrono plan self hentries hpayloads he hseq
    have hinsert : Op.Stops chrono plan ⟨self, cleared⟩ (.insert emptyText) ⟨self, t⟩ :=
      ⟨Script.leaves_bind.2 (.inl ht), rfl⟩
    have hclear : Op.Stops chrono plan ⟨self, s⟩ .clear ⟨self, cleared⟩ := Op.stops_clear _
    exact ⟨_, _, .cons hclear (.single hinsert), htc.trans hc, List.exists_mem_of_ne_nil _ hne⟩
  · exact ⟨[], _, .nil _, hc, List.exists_mem_of_ne_nil _ hp⟩

/-- On which files the payload rows stay referenced, whatever is done after opening and however it
ends: those without a `payloads` table, those whose table declares the cascade, and those in which no
payload row can ever be added. -/
theorem payloadsReferenced_iff [Inhabited T] (chrono : Chrono T) (plan : RecencyPlan) (limits : Limits)
    (now now' : String) (f g : DbFile) (self : Database) (s : Store)
    (hopen : (Database.openDb limits now now').Returns f self g) (hs : g.toStore = some s)
    (href : ∀ q ∈ f.payloadRows, q.entryId ∈ f.ids) :
    (∀ (ops : List (Op T)) (c : Connection), Run (Op.Stops chrono plan) ⟨self, s⟩ ops c →
      c.store.Referenced ∧ ∀ id ∉ c.store.ids, c.store.rawPayloads id = []) ↔
    f.declaresCascade = true ∨
      f.payloadRows = [] ∧ (i64Max ≤ f.entrySeq ∨ i64Max ≤ f.payloadSeq) := by
  obtain ⟨s', hs', hids, hpay, hcas, hes, hps⟩ := openDb_store hopen
  obtain rfl : s' = s := Option.some.inj (hs'.symm.trans hs)
  have hsref : s'.Referenced := by rw [Store.Referenced, hpay, hids]; exact href
  rw [← hpay, ← hcas, ← hes, ← hps]
  constructor
  · intro h
    by_contra hcon
    rw [not_or, Bool.not_eq_true] at hcon
    obtain ⟨hc, hroom⟩ := hcon
    have hroom' : s'.payloads = [] → s'.entrySeq < i64Max ∧ s'.payloadSeq < i64Max := by
      intro hp
      obtain ⟨he, hseq⟩ := not_or.1 (not_and.1 hroom hp)
      exact ⟨not_le.1 he, not_le.1 hseq⟩
    -- the payload row is orphaned by deleting its entry
    obtain ⟨ops, c, hrun, hcas', q, hq⟩ := exists_payload chrono plan self hc hroom'
    exact not_referenced_of_delete hcas' hq (h _ _ (hrun.snoc (Op.stops_delete c q.entryId))).1
  · intro h ops c hrun
    suffices hc : c.store.Referenced from ⟨hc, fun id hid => hc.rawPayloads_eq_nil hid⟩
    rcases h with hc | hex
    · exact (hrun.preserves (I := fun c : Connection => c.store.Referenced ∧ c.store.cascade = true)
        (fun _ _ _ hI hstep => hstep.referenced hI) ⟨hsref, hc⟩).1
    · have := hrun.preserves (I := fun c : Connection => c.store.Exhausted)
        (fun _ _ _ hI hstep => hstep.exhausted hI) hex
      intro q hq
      rw [this.1] at hq
      exact absurd hq List.not_mem_nil

def legacyFile : DbFile where
  entries := some
    { hasCreatedAt := false, hasLastUsedAt := false, hasTimestamp := true
      rows := [⟨1, "legacy-hash", "image", "PNG 1920x1080", "PNG 1920x1080", 123, none, none,
        some "2026-04-29T18:30:00+00:00"⟩]
      rows_sorted := by simp, hashes_unique := by simp
      noCreatedAt := by simp, noLastUsedAt := by simp, noTimestamp := nofun }
  payloads := some { rows := [⟨1, 1, "image/png", [0, 1, 2, 3]⟩], cascade := false, rows_sorted := by simp }
  entrySeq := 1
  payloadSeq := 1

def legacyStore : Store where
  entries := [⟨⟨"legacy-hash", "image", "PNG 1920x1080", "PNG 1920x1080", 123, "2026-04-29T18:30:00+00:00",
    "2026-04-29T18:30:00+00:00", some "2026-04-29T18:30:00+00:00"⟩, 1⟩]
  payloads := [⟨1, 1, "image/png", [0, 1, 2, 3]⟩]
  entrySeq := 1
  payloadSeq := 1
  cascade := false
  entries_sorted := by simp
  hashes_unique := by simp
  payloads_sorted := by simp

theorem payloadsReferenced_iff_legacy :
    (∀ (ops : List (Op (Fin 10))) (c : Connection),
      Run (Op.Stops .tenSeconds .index) ⟨{ Database.ofLimits .default with hasLegacyTimestamp := true }, legacyStore⟩
        ops c → c.store.Referenced ∧ ∀ id ∉ c.store.ids, c.store.rawPayloads id = []) ↔
    legacyFile.declaresCascade = true ∨
      legacyFile.payloadRows = [] ∧ (i64Max ≤ legacyFile.entrySeq ∨ i64Max ≤ legacyFile.payloadSeq) :=
  payloadsReferenced_iff .tenSeconds .index .default "2026-05-01T00:00:00.000Z" "2026-05-01T00:00:00.001Z"
    legacyFile _ _ legacyStore (Database.openDb_returns.2 ⟨rfl, rfl⟩) (by decide) (by decide)

/-- Deleting the image of the legacy file removes it from the list; its bytes are still there for
`get_payloads`. -/
theorem legacy_delete_leaves_payload :
    let opened := (Database.openDb .default "2026-05-01T00:00:00.000Z" "2026-05-01T00:00:00.001Z").run
      none legacyFile
    let (result, t, _) := (Database.delete 1).run none legacyStore
    opened.2.1.toStore = some legacyStore ∧ legacyStore.Referenced ∧ result = .ok true ∧
      t.entries = [] ∧ ¬ t.Referenced ∧ t.rawPayloads 1 = [("image/png", [0, 1, 2, 3])] := by
  decide

end Mimeclip
