import Mimeclip.DbRefs
import Mimeclip.Restore
import Mimeclip.Watch

/-!
# Restoring and capturing again

What a capture stores is in normal form and hashed as it is stored, and nothing the daemon does afterwards
changes the payload rows or the hash of an entry (`Faithful`). So the source of a restored entry answers
with what is stored, the watcher accepts its offer whole, and a complete capture of it has the hash that
the restore has armed (`recapture`).
-/

namespace Mimeclip

/-- What `process_ready` stores: payloads in normal form, of types it requests, with data, within the
limit. -/
structure Capturable (payloads : Payloads) : Prop where
  sorted : MimeSorted payloads
  nonempty : payloads ≠ []
  wanted : ∀ p ∈ payloads, ¬ Skipped p.1 ∧ eqIgnoreAsciiCase p.1 passwordManagerHintMime = false
  data : ∀ p ∈ payloads, p.2 ≠ []
  size : (payloads.map (·.2.length)).sum ≤ maxPayloadBytes

/-! ### The store -/

/-- Every entry has the payload rows it was captured with, and the hash of these. -/
structure Faithful (sha256 : Bytes → String) (s : Store) : Prop where
  cascade : s.cascade = true
  referenced : s.Referenced
  entries : ∀ r ∈ s.entries,
    Capturable (s.rawPayloads r.id) ∧ payloadHash sha256 (s.rawPayloads r.id) = r.hash

namespace Faithful
variable {T : Type} {chrono : Chrono T} {plan : RecencyPlan} {sha256 : Bytes → String} {s t : Store}

theorem fresh : Faithful sha256 .fresh := ⟨rfl, by simp [Store.Referenced, Store.fresh], by simp [Store.fresh]⟩

theorem updateEntry (h : Faithful sha256 s) {id : Int} {f : EntryColumns → EntryColumns}
    (hf : ∀ c, (f c).hash = c.hash) : Faithful sha256 (s.updateEntry id f hf) := by
  refine ⟨h.cascade, h.referenced.updateEntry, fun r' hr' => ?_⟩
  obtain ⟨r, hr, rfl⟩ := List.mem_map.1 hr'
  obtain ⟨hcap, hhash⟩ := h.entries r hr
  split_ifs
  · exact ⟨hcap, hhash.trans (hf _).symm⟩
  · exact ⟨hcap, hhash⟩

theorem deleteWhere (h : Faithful sha256 s) (p : EntryRow → Bool) : Faithful sha256 (s.deleteWhere p) := by
  refine ⟨h.cascade, h.referenced.deleteWhere h.cascade p, fun r hr => ?_⟩
  rw [Store.rawPayloads, Store.payloadsOf_deleteWhere_of_mem hr]
  exact h.entries r (Store.mem_deleteWhere.1 hr).1

/-- Inserting a capture: a known hash keeps the payload rows it has, a new one gets those of the capture. -/
theorem insert (h : Faithful sha256 s) {self : Database} {entry : NewEntry T} {id : Int}
    (hcap : Capturable entry.payloads) (hhash : entry.hash = payloadHash sha256 entry.payloads)
    (hins : (self.insert chrono plan entry).Returns s id t) : Faithful sha256 t := by
  obtain ⟨w, hw, htrim⟩ := Database.insert_returns hins
  obtain ⟨p, rfl⟩ := Database.trim_leaves plan self htrim.leaves
  refine .deleteWhere ?_ p
  obtain ⟨hreferenced, hcascade⟩ := hw.referenced h.referenced
  refine ⟨hcascade.trans h.cascade, hreferenced, fun r hr => ?_⟩
  cases hw.whole hr with
  | other hne hs hp =>
    rw [Store.rawPayloads, hp]
    exact h.entries r hs
  | refreshed heq hs hp =>
    obtain ⟨r', hr', hhash', hid⟩ := Database.known_eq_some.1 hs
    rw [Store.rawPayloads, hp, ← hid, heq, ← hhash']
    exact h.entries r' hr'
  | added heq hs hid hp =>
    rw [hp, h.referenced.rawPayloads_eq_nil (hid ▸ s.nextEntryId_notMem_ids), List.nil_append]
    exact ⟨hcap, heq.symm ▸ hhash.symm⟩

/-- Operations other than `insert` delete rows or change columns. -/
theorem stops (h : Faithful sha256 s) {c c' : Connection} {op : Op T} (hs : c.store = s)
    (hop : ∀ entry, op ≠ .insert entry) (hcall : op.Stops chrono plan c c') : Faithful sha256 c'.store :=
  hcall.preserves (fun _ entry _ _ heq => absurd heq (hop entry)) (fun _ p hs => hs.deleteWhere p)
    (fun _ _ now hs => hs.updateEntry (Database.touchColumns_hash chrono now)) (hs ▸ h)

end Faithful

/-! ### The daemon -/

namespace Watch
variable {T : Type} {env : Env T}

theorem capturable_of_process {events : List WatchEvent} {pending : PendingOffer} {transfer : Transfer}
    {instant : Nat} {now : T} {suppress suppress' : SuppressState} {entry : NewEntry T}
    (haccepted : WatchState.Accepted events pending)
    (h : processReady env pending transfer instant now suppress = some (.store entry, suppress')) :
    Capturable entry.payloads ∧ entry.hash = payloadHash env.sha256 entry.payloads := by
  obtain ⟨payloads, hnil, hpayloads, hhash, hsub, hdata, hsize⟩ := processReady_store h
  obtain ⟨before, after, -, ⟨mimeTypes, -, hhint, hm, -⟩, -⟩ := haccepted
  have hmimes : (payloads.map (·.1)).Sublist pending.mimeTypes := hsub.trans List.filter_sublist
  have hnodup : (payloads.map (·.1)).Nodup := by
    refine List.Nodup.sublist hmimes ?_
    rw [hm]
    exact List.Nodup.filter _ (WatchState.nodup_eraseDups _)
  -- the types are distinct, so normalizing only sorts
  have hperm : (normalizePayloads payloads).Perm payloads := normalizePayloads_perm hnodup
  rw [hhash, hpayloads]
  refine ⟨⟨normalizePayloads_sorted payloads, ?_, fun p hp => ?_, fun p hp => ?_, ?_⟩, rfl⟩
  · intro hempty
    rw [hempty] at hperm
    exact hnil hperm.symm.eq_nil
  · have hp' : p.1 ∈ pending.mimeTypes := hmimes.subset (List.mem_map_of_mem (hperm.subset hp))
    rw [hm, List.mem_filter, List.mem_eraseDups] at hp'
    exact ⟨by simpa using hp'.2, hhint _ hp'.1⟩
  · exact hdata p (hperm.subset hp)
  · rw [(hperm.map _).sum_nat]
    exact hsize

structure Restorable (env : Env T) (labels : List (WatchLabel T)) (s : Watch T) : Prop where
  inv : Inv labels s
  store : Faithful env.sha256 s.session.conn.store
  storing : ∀ entry, s.session.storing = some entry →
    Capturable entry.payloads ∧ entry.hash = payloadHash env.sha256 entry.payloads

theorem Restorable.step {labels : List (WatchLabel T)} {s t : Watch T} {label : WatchLabel T}
    (h : Restorable env labels s) (hstep : SuccessfulStep env s label t) : Restorable env (labels ++ [label]) t := by
  refine ⟨h.inv.step hstep.1, ?_, ?_⟩
  · rcases hstep.conn_cases with hconn | ⟨now, id, reply, -, hget⟩ | ⟨entry, id, -, hentry, -, hins⟩ | ⟨op, hop, hcall⟩
    · rw [hconn]
      exact h.store
    · obtain ⟨-, -, hstore⟩ := restoreLookup_returns env hget
      rw [hstore]
      exact h.store.updateEntry (Database.touchColumns_hash env.chrono now)
    · obtain ⟨hcap, hhash⟩ := h.storing entry hentry
      exact h.store.insert hcap hhash hins
    · exact h.store.stops rfl hop hcall
  · intro entry he
    rcases hstep.1.storing_cases he with he | ⟨pending, transfer, instant, now, suppress, hready, -, hprocess⟩
    · exact h.storing entry he
    · exact capturable_of_process (h.inv.offers.ready pending hready) hprocess

theorem Restorable.of_run {limits : Limits} {labels : List (WatchLabel T)} {s : Watch T}
    (hrun : Run (SuccessfulStep env) (Watch.start ⟨.ofLimits limits, .fresh⟩) labels s) : Restorable env labels s :=
  show Restorable env ([] ++ labels) s from
    hrun.history (fun _ _ _ _ h hs => h.step hs) ⟨.start _, .fresh, nofun⟩

end Watch

/-! ### Capturing what is stored -/

theorem sendReply_of_mem {payloads : Payloads} (h : MimeSorted payloads) {p : String × Bytes} (hp : p ∈ payloads) :
    sendReply payloads p.1 = some p.2 := by
  rw [sendReply]
  cases hf : payloads.find? (·.1 == p.1) with
  | none => simpa using List.find?_eq_none.1 hf p hp
  | some q =>
    have hq : q.1 = p.1 := by simpa using List.find?_some hf
    have : (p.1, q.2) ∈ payloads := hq ▸ List.mem_of_find?_eq_some hf
    rw [Option.map_some, h.unique this hp]

/-- What the source writes for a type; nothing if it has no data of it. -/
def sent (payloads : Payloads) (mimeType : String) : Bytes := (sendReply payloads mimeType).getD []

section
variable {payloads : Payloads} (h : Capturable payloads) {mimeTypes : List String}
  (hperm : mimeTypes.Perm (payloads.map (·.1)))
include h hperm

theorem Capturable.sent_perm : (mimeTypes.map fun mime => (mime, sent payloads mime)).Perm payloads := by
  refine (hperm.map _).trans (.of_eq ?_)
  rw [List.map_map]
  refine (List.map_congr_left fun p hp => ?_).trans (List.map_id payloads)
  simp [sent, sendReply_of_mem h.sorted hp]

theorem Capturable.read_back {polls : List PollResult}
    (hdel : Delivers (sent payloads) maxPayloadBytes polls (newPipes mimeTypes) 0)
    {result : Except PayloadReadError Payloads}
    (hread : readPayloadPipes maxPayloadBytes payloadReadIdleTimeout polls mimeTypes = some result) :
    ∃ captured, result = .ok captured ∧ normalizePayloads captured = payloads := by
  have hsent := h.sent_perm hperm
  refine ⟨_, readPayloadPipes_of_delivers hdel ?_ (fun mime hm => ?_) hread, ?_⟩
  · have hsum := (hsent.map (·.2.length)).sum_nat
    rw [List.map_map] at hsum
    exact hsum.trans_le h.size
  · obtain ⟨p, hp, rfl⟩ := List.mem_map.1 (hperm.subset hm)
    rw [sent, sendReply_of_mem h.sorted hp]
    exact h.data p hp
  · rw [normalizePayloads_congr fun p => hsent.mem_iff, normalizePayloads_of_sorted h.sorted]

/-- `process_ready` of the offer, read completely, asks the suppression state about the hash of what is
stored. -/
theorem Capturable.process {T : Type} {env : Env T} {offer : UInt32} {transfer : Transfer} {instant : Nat} {now : T}
    {suppress suppress' : SuppressState} {verdict : Verdict T} (hflushed : transfer.flushed = true)
    (hrequested : transfer.requested ⟨offer, mimeTypes⟩ = mimeTypes)
    (hdel : Delivers (sent payloads) maxPayloadBytes transfer.polls (newPipes mimeTypes) 0)
    (hprocess : processReady env ⟨offer, mimeTypes⟩ transfer instant now suppress = some (verdict, suppress')) :
    ∃ captured,
      readPayloadPipes maxPayloadBytes payloadReadIdleTimeout transfer.polls mimeTypes = some (.ok captured) ∧
      normalizePayloads captured = payloads ∧
      verdict.isSuppressed = (suppress.shouldSuppressAt (payloadHash env.sha256 payloads) instant).1 := by
  unfold processReady at hprocess
  rw [hflushed, hrequested] at hprocess
  cases hread : readPayloadPipes maxPayloadBytes payloadReadIdleTimeout transfer.polls mimeTypes with
  | none => rw [hread] at hprocess; cases hprocess
  | some result =>
    obtain ⟨captured, rfl, hnormal⟩ := h.read_back hperm hdel hread
    rw [hread] at hprocess
    have hjudge : judgeCapture env captured instant now suppress = (verdict, suppress') := Option.some.inj hprocess
    have hne : captured ≠ [] := by
      rintro rfl
      exact h.nonempty hnormal.symm
    have hasked := (judgeCapture_suppress env hne instant now suppress).1
    rw [hjudge, hnormal] at hasked
    exact ⟨captured, rfl, hnormal, hasked⟩

end

namespace Watch
variable {T : Type}

/-- The payloads of an entry are well formed, and a `Restore` of it offers exactly these and arms its hash.
An offer of their types, in any order, is accepted whole, and if all of it is read then the hash of what
has been read, which `process_ready` asks the suppression state about, is that of the entry. -/
theorem recapture (env : Env T) (limits : Limits) {labels : List (WatchLabel T)} {s : Watch T}
    (hrun : Run (SuccessfulStep env) (start ⟨.ofLimits limits, .fresh⟩) labels s) {r : EntryRow}
    (hr : r ∈ s.session.conn.store.entries) :
    let payloads := s.session.conn.store.rawPayloads r.id
    ((payloads.map (·.1)).Nodup ∧ (payloads.map (·.2.length)).sum ≤ maxPayloadBytes ∧ ∀ p ∈ payloads,
      ¬ Skipped p.1 ∧ eqIgnoreAsciiCase p.1 passwordManagerHintMime = false ∧ p.2 ≠ []) ∧
    (∀ p ∈ payloads, sendReply payloads p.1 = some p.2) ∧
    (∀ now hash offered t, (restoreLookup env now r.id).Returns s.session.conn.store (some (hash, offered)) t →
      hash = r.hash ∧ offered = payloads) ∧
    ∀ (state : WatchState) (offer : UInt32) (mimeTypes : List String), mimeTypes.Perm (payloads.map (·.1)) →
      (state.dispatch (.dataOffer offer :: mimeTypes.map (.offer offer) ++ [.selection (some offer)])).ready =
        some ⟨offer, mimeTypes⟩ ∧
      ∀ (transfer : Transfer) instant now suppress verdict suppress', transfer.flushed = true →
        transfer.requested ⟨offer, mimeTypes⟩ = mimeTypes →
        Delivers (sent payloads) maxPayloadBytes transfer.polls (newPipes mimeTypes) 0 →
        processReady env ⟨offer, mimeTypes⟩ transfer instant now suppress = some (verdict, suppress') →
        (∃ captured, readPayloadPipes maxPayloadBytes payloadReadIdleTimeout transfer.polls mimeTypes =
            some (.ok captured) ∧ payloadHash env.sha256 (normalizePayloads captured) = r.hash) ∧
          verdict.isSuppressed = (suppress.shouldSuppressAt r.hash instant).1 := by
  intro payloads
  obtain ⟨hcap, hhash⟩ := (Restorable.of_run hrun).store.entries r hr
  have hnodup : (payloads.map (·.1)).Nodup := hcap.sorted.nodup_mimes
  have hmimes : ∀ mime ∈ payloads.map (·.1),
      ¬ Skipped mime ∧ eqIgnoreAsciiCase mime passwordManagerHintMime = false := by
    intro mime hm
    obtain ⟨p, hp, rfl⟩ := List.mem_map.1 hm
    exact hcap.wanted p hp
  refine ⟨⟨hnodup, hcap.size, fun p hp => ?_⟩, fun p hp => sendReply_of_mem hcap.sorted hp, ?_, ?_⟩
  · obtain ⟨hskip, hhint⟩ := hcap.wanted p hp
    exact ⟨hskip, hhint, hcap.data p hp⟩
  · intro now hash offered t hget
    obtain ⟨⟨r', hr', hid, rfl⟩, hoffered, -⟩ := restoreLookup_returns env hget
    exact ⟨by rw [Store.eq_of_id hr' hr hid], hoffered⟩
  · intro state offer mimeTypes hperm
    have hne : mimeTypes ≠ [] := by
      rintro rfl
      exact hcap.nonempty (List.map_eq_nil_iff.1 hperm.symm.eq_nil)
    refine ⟨?_, ?_⟩
    · exact WatchState.ready_of_wanted state offer (hperm.nodup_iff.2 hnodup) hne
        fun mime hm => hmimes mime (hperm.subset hm)
    · intro transfer instant now suppress verdict suppress' hflushed hrequested hdel hprocess
      obtain ⟨captured, hread, hnormal, hasked⟩ := hcap.process hperm hflushed hrequested hdel hprocess
      rw [hhash] at hasked
      exact ⟨⟨captured, hread, by rw [hnormal, hhash]⟩, hasked⟩

/-- The pair is restored, and its echo read, with the types the other way round, and suppressed. -/
theorem recapture_copyPair :
    let polls := [.ready [.chunk yChunk, .idle], .interrupted, .ready [.eof, .chunk xChunk], .ready [.eof]]
    (∃ captured, readPayloadPipes maxPayloadBytes payloadReadIdleTimeout polls ["text/plain", "text/html"] =
        some (.ok captured) ∧ payloadHash framedEnv.sha256 (normalizePayloads captured) = pairHash) ∧
      Verdict.isSuppressed (.suppressed : Verdict (Fin 10)) =
        ((SuppressState.default.armAt pairHash 1).shouldSuppressAt pairHash 2).1 := by
  intro polls
  have hdel : Delivers (sent [("text/html", asBytes "x"), ("text/plain", asBytes "y")]) maxPayloadBytes polls
      (newPipes ["text/plain", "text/html"]) 0 := by
    refine ⟨⟨.chunk (by decide), .idle, trivial⟩, ?_⟩
    rintro _ _ ⟨⟩
    refine ⟨⟨.eof (by decide), .chunk (by decide), trivial⟩, ?_⟩
    rintro _ _ ⟨⟩
    exact ⟨⟨.eof (by decide), trivial⟩, fun _ _ _ => trivial⟩
  have h := (recapture framedEnv .default copyPair_run (r := ⟨pairColumns, 1⟩) (List.mem_singleton_self _)).2.2.2
    .new 1 ["text/plain", "text/html"] (by decide)
  exact h.2 ⟨fun _ => true, true, polls⟩ 2 2 (SuppressState.default.armAt pairHash 1) .suppressed _ rfl rfl hdel rfl

end Watch

end Mimeclip
