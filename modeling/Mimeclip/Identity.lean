import Mimeclip.Lifetime
import Mimeclip.Recency
import Mimeclip.Capture

/-!
# What an id stands for

A client refers to an entry by the id it was listed with, at any time after. Over any number of lives of the daemon,
with calls that fail or are cut off anywhere, an id stands for one entry (`id_names_one_entry`), and every entry was
inserted by one call and has the payloads that call has written (`entry_was_inserted`). So what is restored under an
id that was listed is what was listed (`listed_is_restored`).
-/

namespace Mimeclip

/-! ### The history -/

namespace HistoryEvent
variable {T : Type} {chrono : Chrono T} {plan : RecencyPlan} {c c' : Connection} {e : HistoryEvent T}
  {history : List (HistoryEvent T)}

theorem Step.continues (h : Step chrono plan c e c') : c.store.Continues c'.store := by
  cases h with
  | limits => exact .refl _
  | call hcall => exact hcall.continues

theorem Step.sequenced (h : Step chrono plan c e c') (hseq : c.store.Sequenced) : c'.store.Sequenced := by
  cases h with
  | limits => exact hseq
  | call hcall => exact hcall.sequenced hseq

/-- Every row was there at the start, or was inserted by one of the calls. -/
structure Origin (chrono : Chrono T) (start : Store) (history : List (HistoryEvent T)) (s : Store) : Prop where
  issued : s.PayloadsIssued
  rows : ∀ r ∈ s.entries, (∃ r₀, start.Kept s r₀ r) ∨ ∃ entry out, .call (.insert entry) out ∈ history ∧
    r.hash = entry.hash ∧ r.createdAt = chrono.toRfc3339 entry.createdAt ∧
      s.rawPayloads r.id <+: entry.payloads ∧ (out ≠ none → s.rawPayloads r.id = entry.payloads)

theorem Origin.start {start : Store} (h : start.PayloadsIssued) : Origin chrono start [] start :=
  ⟨h, fun r hr => .inl ⟨r, .refl hr⟩⟩

theorem Origin.step {start : Store} (h : Origin chrono start history c.store) (hstep : Step chrono plan c e c') :
    Origin chrono start (history ++ [e]) c'.store := by
  have hkeep : ∀ t : Store, ∀ r₀ r, c.store.Kept t r₀ r →
      (∃ r₀, start.Kept t r₀ r) ∨ ∃ entry out, .call (.insert entry) out ∈ history ++ [e] ∧
        r.hash = entry.hash ∧ r.createdAt = chrono.toRfc3339 entry.createdAt ∧
          t.rawPayloads r.id <+: entry.payloads ∧ (out ≠ none → t.rawPayloads r.id = entry.payloads) := by
    intro t r₀ r hkept
    rcases h.rows r₀ hkept.mem with ⟨r', hr'⟩ | ⟨entry, out, hmem, hhash, hcreated, hfirst, hall⟩
    · exact .inl ⟨r', hr'.trans hkept⟩
    · refine .inr ⟨entry, out, List.mem_append_left _ hmem, hkept.hash.trans hhash, hkept.createdAt.trans hcreated, ?_⟩
      rw [hkept.rawPayloads, hkept.id]
      exact ⟨hfirst, hall⟩
  cases hstep with
  | limits => exact ⟨h.issued, fun r hr => hkeep _ r r (.refl hr)⟩
  | @call _ op out hcall =>
    refine ⟨hcall.stops.payloadsIssued h.issued, fun r hr => ?_⟩
    rcases hcall.row hr with ⟨r₀, hkept⟩ | ⟨entry, payloads, hins⟩
    · exact hkeep _ r₀ r hkept
    · obtain rfl := hins.op_eq
      have hrows := hins.rows
      rw [hins.row] at hrows
      rw [h.issued.rawPayloads_nextEntryId, List.nil_append] at hrows
      refine .inr ⟨entry, out, by simp, by rw [hins.row]; rfl, by rw [hins.row]; rfl, ?_⟩
      rw [hins.row, hrows]
      exact ⟨hins.first, hins.all⟩

theorem Origin.of_run (hrun : Run (Step chrono plan) c history c') (hissued : c.store.PayloadsIssued) :
    Origin chrono c.store history c'.store := by
  have h := hrun.history (I := fun history c' => Origin chrono c.store history c'.store)
    (fun _ _ _ _ h hstep => h.step hstep) (Origin.start hissued)
  exact h

theorem continues_of_run (hrun : Run (Step chrono plan) c history c') : c.store.Continues c'.store := by
  have hsteps := hrun.relates (I := fun _ => True) (R := fun c c' => c.store.Continues c'.store)
    (fun c => .refl c.store) (fun _ _ _ _ h h' => h.trans h') (fun _ _ _ _ hstep => ⟨trivial, hstep.continues⟩)
  exact (hsteps trivial).2

theorem sequenced_of_run (hrun : Run (Step chrono plan) c history c') (hseq : c.store.Sequenced) :
    c'.store.Sequenced :=
  hrun.preserves (I := fun c => c.store.Sequenced) (fun _ _ _ hs hstep => hstep.sequenced hs) hseq

end HistoryEvent

/-! ### Over the lives of the daemon -/

def emptyHistory : OpenDb where
  conn := ⟨.ofLimits .default, .fresh⟩
  noTimestamp := by simp [Store.fresh]

def hiHistory : OpenDb where
  conn := ⟨.ofLimits .default, hiCopied⟩
  noTimestamp := by simp [hiCopied, textColumns]

/-- A text is copied. -/
def hiInserted : LifetimeEvent (Fin 10) := .call (.insert (textEntry hiHash "hi" 0)) (some (.inserted 1))

namespace Lifetime

theorem hiInserted_run : Run (Step .tenSeconds .index) (.opened emptyHistory) [hiInserted] (.opened hiHistory) :=
  .single (.call ⟨Script.returns_of_run rfl (by decide), rfl⟩)

theorem hi_restarted : Run (Step (T := Fin 10) .tenSeconds .index) (.opened hiHistory) [.exited, .started .default]
    (.opened hiHistory) := by
  obtain ⟨self, g, hopen⟩ : ∃ self g, (Database.openDb .default "" "").Returns hiHistory.file self g :=
    ⟨_, _, Database.openDb_returns.2 ⟨rfl, rfl⟩⟩
  obtain ⟨rfl, rfl⟩ := hiHistory.openDb_returns_file hopen
  exact .cons .exited (.single (.started hopen rfl))

variable {T : Type} {chrono : Chrono T} {plan : RecencyPlan} {l l' : Lifetime} {events events' : List (LifetimeEvent T)}

theorem Shows.continues {c : Connection} (h : l.Shows c) (hrun : Run (Step chrono plan) l events l') :
    ∃ c', l'.Shows c' ∧ c.store.Continues c'.store ∧ (c.store.Sequenced → c'.store.Sequenced) := by
  obtain ⟨c', hhistory, hshows⟩ := h.of_run hrun
  exact ⟨c', hshows, HistoryEvent.continues_of_run hhistory, HistoryEvent.sequenced_of_run hhistory⟩

/-- Whatever happens between two points, an id handed out before the first names at the second what it named at the
first: an entry with the same hash, creation time and payloads, or nothing. An entry that is gone does not come back,
and its id is not given to another. -/
theorem id_names_one_entry (chrono : Chrono T) (plan : RecencyPlan) (db : OpenDb) (hseq : db.conn.store.Sequenced)
    (hrun : Run (Step chrono plan) (.opened db) events l) (hrun' : Run (Step chrono plan) l events' l') :
    ∃ s t, l.store = some s ∧ l'.store = some t ∧ (∀ r ∈ s.entries, r.id ≤ s.entrySeq) ∧
      ∀ r ∈ t.entries, r.id ≤ s.entrySeq →
        ∃ r₀ ∈ s.entries, r.id = r₀.id ∧ r.hash = r₀.hash ∧ r.createdAt = r₀.createdAt ∧
          t.rawPayloads r.id = s.rawPayloads r.id := by
  obtain ⟨c, hshows, -, hsequenced⟩ := (Shows.opened db).continues hrun
  obtain ⟨c', hshows', hcontinues, -⟩ := hshows.continues hrun'
  refine ⟨_, _, hshows.store_eq, hshows'.store_eq, hsequenced hseq, fun r hr hid => ?_⟩
  obtain ⟨r₀, hkept⟩ := hcontinues.entries r hr hid
  exact ⟨r₀, hkept.mem, hkept.id, hkept.hash, hkept.createdAt, hkept.rawPayloads⟩

theorem id_names_one_entry_hi :
    ∃ s t, (opened hiHistory).store = some s ∧ (opened hiHistory).store = some t ∧
      (∀ r ∈ s.entries, r.id ≤ s.entrySeq) ∧
      ∀ r ∈ t.entries, r.id ≤ s.entrySeq →
        ∃ r₀ ∈ s.entries, r.id = r₀.id ∧ r.hash = r₀.hash ∧ r.createdAt = r₀.createdAt ∧
          t.rawPayloads r.id = s.rawPayloads r.id :=
  id_names_one_entry .tenSeconds .index emptyHistory (by decide) hiInserted_run hi_restarted

theorem LifetimeEvent.call_of_seen {op : Op T} {out : Option (Output T)}
    (h : .call op out ∈ events.filterMap LifetimeEvent.seen) : .call op out ∈ events := by
  obtain ⟨event, hevent, hseen⟩ := List.mem_filterMap.1 h
  cases event <;> cases hseen
  exact hevent

/-- Every entry was in the history at the start, or a call of the run has inserted it: it has the hash and the time of
what was inserted then, and the first of its payloads, all of them if that call returned. -/
theorem entry_was_inserted (chrono : Chrono T) (plan : RecencyPlan) (db : OpenDb)
    (hissued : db.conn.store.PayloadsIssued) (hrun : Run (Step chrono plan) (.opened db) events l) :
    ∃ s, l.store = some s ∧ ∀ r ∈ s.entries,
      (∃ r₀ ∈ db.conn.store.entries, r.id = r₀.id ∧ r.hash = r₀.hash ∧ r.createdAt = r₀.createdAt ∧
        s.rawPayloads r.id = db.conn.store.rawPayloads r.id) ∨
      ∃ entry out, .call (.insert entry) out ∈ events ∧ r.hash = entry.hash ∧
        r.createdAt = chrono.toRfc3339 entry.createdAt ∧ s.rawPayloads r.id <+: entry.payloads ∧
          (out ≠ none → s.rawPayloads r.id = entry.payloads) := by
  obtain ⟨c, hhistory, hshows⟩ := (Shows.opened db).of_run hrun
  refine ⟨_, hshows.store_eq, fun r hr => ?_⟩
  rcases (HistoryEvent.Origin.of_run hhistory hissued).rows r hr with ⟨r₀, hkept⟩ | ⟨entry, out, hmem, hrow⟩
  · exact .inl ⟨r₀, hkept.mem, hkept.id, hkept.hash, hkept.createdAt, hkept.rawPayloads⟩
  · exact .inr ⟨entry, out, LifetimeEvent.call_of_seen hmem, hrow⟩

theorem entry_was_inserted_hi :
    ∃ s, (opened hiHistory).store = some s ∧ ∀ r ∈ s.entries,
      (∃ r₀ ∈ emptyHistory.conn.store.entries, r.id = r₀.id ∧ r.hash = r₀.hash ∧ r.createdAt = r₀.createdAt ∧
        s.rawPayloads r.id = emptyHistory.conn.store.rawPayloads r.id) ∨
      ∃ entry out, .call (.insert entry) out ∈ [hiInserted] ++ [.exited, .started .default] ∧ r.hash = entry.hash ∧
        r.createdAt = Chrono.tenSeconds.toRfc3339 entry.createdAt ∧ s.rawPayloads r.id <+: entry.payloads ∧
          (out ≠ none → s.rawPayloads r.id = entry.payloads) :=
  entry_was_inserted .tenSeconds .index emptyHistory (by decide) (hiInserted_run.append hi_restarted)

/-! ### Restoring what was listed -/

theorem notMem_ids_of_restoreLookup (env : Env T) {now : T} {id : Int} {s t : Store}
    (h : (restoreLookup env now id).Returns s none t) : id ∉ s.ids := by
  obtain ⟨found, s₁, hfound, hrest⟩ := Script.returns_bind.1 h
  obtain ⟨hf, rfl⟩ := Script.returns_query.1 hfound
  cases found with
  | none =>
    intro hid
    obtain ⟨r, hr, rfl⟩ := Store.mem_ids.1 hid
    simpa using List.find?_eq_none.1 (Option.map_eq_none_iff.1 (Except.ok.inj hf)) r hr
  | some hash =>
    obtain ⟨payloads, s₂, -, htouch⟩ := Script.returns_bind.1 hrest
    obtain ⟨u, -, heq⟩ := Script.returns_bind_pure.1 htouch
    cases heq

/-- What a client was shown under an id is what is restored under it, however many lives of the daemon later: the
payloads the entry had then, of the types it was listed with. If the entry is gone by then, nothing is restored. -/
theorem listed_is_restored (env : Env T) (db : OpenDb) (hseq : db.conn.store.Sequenced) {shown restoring : OpenDb}
    (hrun : Run (Step env.chrono env.plan) (.opened db) events (.opened shown)) {now : T} {limit : UInt64}
    {entries : List (Entry T)} {s : Store}
    (hlist : (Database.list env.chrono env.plan now limit).Returns shown.conn.store entries s) {entry : Entry T}
    (hentry : entry ∈ entries)
    (hrun' : Run (Step env.chrono env.plan) (.opened shown) events' (.opened restoring)) {now' : T}
    {reply : Option (String × Payloads)} {t : Store}
    (hrestore : (restoreLookup env now' entry.id).Returns restoring.conn.store reply t) :
    reply = none ∧ entry.id ∉ restoring.conn.store.ids ∨
      ∃ payloads, reply = some (entry.hash, payloads) ∧ payloads.map (·.1) = entry.mimeTypes ∧
        payloads = shown.conn.store.rawPayloads entry.id := by
  cases reply with
  | none => exact .inl ⟨rfl, notMem_ids_of_restoreLookup env hrestore⟩
  | some reply =>
    obtain ⟨hash, payloads⟩ := reply
    obtain ⟨⟨r, hr, hid, rfl⟩, rfl, -⟩ := restoreLookup_returns env hrestore
    -- the row the entry was made of is still the one with its id
    obtain ⟨rfl, rfl⟩ := Database.list_returns.1 hlist
    obtain ⟨r₀, hr₀, rfl⟩ := List.mem_map.1 hentry
    have hlisted : r₀ ∈ shown.conn.store.entries := by
      rw [sqlLimit] at hr₀
      split_ifs at hr₀
      · exact (env.plan.perm _).subset hr₀
      · exact (env.plan.perm _).subset (List.mem_of_mem_take hr₀)
    obtain ⟨_, ⟨⟩, -, hsequenced⟩ := (Shows.opened db).continues hrun
    obtain ⟨_, ⟨⟩, hcontinues, -⟩ := (Shows.opened shown).continues hrun'
    obtain ⟨r₁, hkept⟩ := hcontinues.entries r hr (hid ▸ hsequenced hseq r₀ hlisted)
    obtain rfl : r₁ = r₀ := Store.eq_of_id hkept.mem hlisted (hkept.id.symm.trans hid)
    have hraw : restoring.conn.store.rawPayloads r₁.id = shown.conn.store.rawPayloads r₁.id :=
      hkept.id ▸ hkept.rawPayloads
    refine .inr ⟨_, by rw [hkept.hash]; rfl, ?_, hraw⟩
    show (restoring.conn.store.rawPayloads r₁.id).map (·.1) = (shown.conn.store.payloadsOf r₁.id).map (·.mimeType)
    rw [hraw, Store.rawPayloads, List.map_map]
    rfl

theorem listed_is_restored_hi :
    (some (hiHash, [("text/plain", asBytes "hi")]) : Option (String × Payloads)) = none ∧
        1 ∉ hiHistory.conn.store.ids ∨
      ∃ payloads, some (hiHash, [("text/plain", asBytes "hi")]) = some (hiHash, payloads) ∧
        payloads.map (·.1) = ["text/plain"] ∧ payloads = hiHistory.conn.store.rawPayloads 1 := by
  have hlist : (Database.list Env.sample.chrono Env.sample.plan 1 200).Returns hiHistory.conn.store
      [Database.rowEntry .tenSeconds 1 hiCopied ⟨textColumns hiHash "hi" 0 0, 1⟩] hiHistory.conn.store :=
    Database.list_returns.2 ⟨rfl, rfl⟩
  have hrestore : (restoreLookup Env.sample 2 1).Returns hiHistory.conn.store
      (some (hiHash, [("text/plain", asBytes "hi")])) _ := Script.returns_of_run rfl rfl
  exact listed_is_restored .sample emptyHistory (by decide) hiInserted_run hlist (List.mem_singleton_self _)
    hi_restarted hrestore

end Lifetime

end Mimeclip
