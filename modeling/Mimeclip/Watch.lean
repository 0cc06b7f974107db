import Mimeclip.Echo
import Mimeclip.Offers
import Mimeclip.Pipes

/-!
# The watcher's loop (`run` and `process_ready` of `daemon/watcher.rs`)

After every batch of events the loop takes the offer in `ready`; `process_ready` requests its types, reads
them and stores what it has read, while the client threads go on. So a `Watch` is a `Session` whose captures
come from the offers of the compositor. Every offer that is processed was announced without the
password-manager hint, and only its types that are not skipped are requested and stored (`watch_filter`).
-/

namespace Mimeclip

/-- What a call of `process_ready` meets. -/
structure Transfer where
  -- `pipe()` succeeds for the type
  piped : String → Bool
  flushed : Bool
  polls : List PollResult

def Transfer.requested (transfer : Transfer) (pending : PendingOffer) : List String :=
  pending.mimeTypes.filter transfer.piped

/-- `process_ready` up to the insertion; `none` while it is still reading. -/
def processReady {T : Type} (env : Env T) (pending : PendingOffer) (transfer : Transfer) (instant : Nat) (now : T)
    (suppress : SuppressState) : Option (Verdict T × SuppressState) :=
  if !transfer.flushed then some (.unread, suppress)
  else
    match readPayloadPipes maxPayloadBytes payloadReadIdleTimeout transfer.polls (transfer.requested pending) with
    | none => none
    | some (.error _) => some (.unread, suppress)
    | some (.ok payloads) => some (judgeCapture env payloads instant now suppress)

structure Watch (T : Type) where
  session : Session T
  offers : WatchState

/-- `blocking_dispatch` handles a batch of events; `process_ready` takes an offer, requests types of it and
comes to a verdict; or a thread takes another step, the insertion among them. -/
inductive WatchLabel (T : Type)
  | dispatch (batch : List WatchEvent)
  | process (pending : PendingOffer) (requested : List String) (verdict : Verdict T)
  | session (e : SessionEvent T)

namespace WatchLabel
variable {T : Type}

def events (labels : List (WatchLabel T)) : List WatchEvent :=
  labels.flatMap fun
    | dispatch batch => batch
    | _ => []

theorem events_snoc (labels : List (WatchLabel T)) (label : WatchLabel T) :
    events (labels ++ [label]) = events labels ++ events [label] := List.flatMap_append ..

def Succeeds : WatchLabel T → Prop
  | session (.insert succeeded) => succeeded = true
  | session (.call _ succeeded) => succeeded = true
  | _ => True

end WatchLabel

namespace Watch
variable {T : Type} (env : Env T)

def start (conn : Connection) : Watch T := ⟨.start conn, .new⟩

inductive Step : Watch T → WatchLabel T → Watch T → Prop
  | dispatch {s : Watch T} {batch : List WatchEvent} (hready : s.offers.ready = none)
      (hidle : s.session.storing = none) (halive : s.session.alive = true) :
      Step s (.dispatch batch) { s with offers := s.offers.dispatch batch }
  | process {s : Watch T} {pending : PendingOffer} {transfer : Transfer} {instant : Nat} {now : T}
      {verdict : Verdict T} {suppress : SuppressState} (hready : s.offers.ready = some pending)
      (hprocess : processReady env pending transfer instant now s.session.suppress = some (verdict, suppress))
      (hclock : s.session.clock ≤ instant) (hidle : s.session.storing = none) (halive : s.session.alive = true) :
      Step s (.process pending (transfer.requested pending) verdict)
        { session := { s.session with suppress, clock := instant, storing := verdict.entry
                                      alive := !verdict.isPanic }
          offers := { s.offers with ready := none } }
  -- the captures of the session are the `process` steps
  | session {s : Watch T} {e : SessionEvent T} {session : Session T}
      (he : ∀ echoOf hash instant suppressed, e ≠ .capture echoOf hash instant suppressed)
      (hstep : Session.Step env s.session e session) : Step s (.session e) { s with session }

def SuccessfulStep (s : Watch T) (label : WatchLabel T) (t : Watch T) : Prop := Step env s label t ∧ label.Succeeds

variable {env}

/-- What is stored of an offer: the normal form of payloads that were read for types of it. -/
theorem processReady_store {pending : PendingOffer} {transfer : Transfer} {instant : Nat} {now : T}
    {suppress suppress' : SuppressState} {entry : NewEntry T}
    (h : processReady env pending transfer instant now suppress = some (.store entry, suppress')) :
    ∃ payloads : Payloads, payloads ≠ [] ∧ entry.payloads = normalizePayloads payloads ∧
      entry.hash = payloadHash env.sha256 (normalizePayloads payloads) ∧
      (payloads.map (·.1)).Sublist (transfer.requested pending) ∧ (∀ p ∈ payloads, p.2 ≠ []) ∧
      (payloads.map (·.2.length)).sum ≤ maxPayloadBytes := by
  unfold processReady at h
  split_ifs at h
  · cases h
  · split at h
    · cases h
    · cases h
    · rename_i payloads hread
      obtain ⟨hsub, hne, hsize⟩ := readPayloadPipes_ok hread
      obtain ⟨hnil, hpayloads, hhash⟩ := judgeCapture_store env (Option.some.inj h)
      exact ⟨payloads, hnil, hpayloads, hhash, hsub, hne, hsize⟩

section
variable {s t : Watch T} {label : WatchLabel T}

/-- What is about to be stored was so before, or comes of the offer that is processed. -/
theorem Step.storing_cases {entry : NewEntry T} (h : Step env s label t) (he : t.session.storing = some entry) :
    s.session.storing = some entry ∨ ∃ pending transfer instant now suppress,
      s.offers.ready = some pending ∧ label = .process pending (transfer.requested pending) (.store entry) ∧
        processReady env pending transfer instant now s.session.suppress = some (.store entry, suppress) := by
  cases h with
  | dispatch => exact .inl he
  | @process pending transfer instant now verdict suppress hready hprocess =>
    cases verdict <;> cases he
    exact .inr ⟨pending, transfer, instant, now, suppress, hready, rfl, hprocess⟩
  | session hcapture hsession =>
    cases hsession with
    | capture => exact absurd rfl (hcapture _ _ _ _)
    | insert => cases he
    | lookup | arm | call => exact .inl he

/-- A step that succeeds leaves the database alone, looks up an entry, inserts what is about to be stored, or is
another call. -/
theorem SuccessfulStep.conn_cases (h : SuccessfulStep env s label t) :
    t.session.conn = s.session.conn ∨
    (∃ now id reply, t.session.conn.self = s.session.conn.self ∧
      (restoreLookup env now id).Returns s.session.conn.store (some reply) t.session.conn.store) ∨
    (∃ entry id, label = .session (.insert true) ∧ s.session.storing = some entry ∧
      t.session.conn.self = s.session.conn.self ∧
      (s.session.conn.self.insert env.chrono env.plan entry).Returns s.session.conn.store id t.session.conn.store) ∨
    ∃ op : Op T, (∀ entry, op ≠ .insert entry) ∧ op.Stops env.chrono env.plan s.session.conn t.session.conn := by
  obtain ⟨hstep, hok⟩ := h
  cases hstep with
  | dispatch | process => exact .inl rfl
  | session hcapture hsession =>
    cases hsession with
    | @lookup now id hash payloads store hget => exact .inr (.inl ⟨now, id, _, rfl, hget⟩)
    | arm => exact .inl rfl
    | capture => exact absurd rfl (hcapture _ _ _ _)
    | @insert entry store succeeded hentry hins hdone =>
      obtain rfl : succeeded = true := hok
      obtain ⟨id, hins⟩ := hdone rfl
      exact .inr (.inr (.inl ⟨entry, id, rfl, hentry, rfl, hins⟩))
    | @call op conn succeeded hop hcall => exact .inr (.inr (.inr ⟨op, hop, hcall⟩))

end

structure Inv (labels : List (WatchLabel T)) (s : Watch T) : Prop where
  offers : s.offers.Follows (WatchLabel.events labels)
  storing : ∀ entry, s.session.storing = some entry → ∃ before pending requested since,
    labels = before ++ .process pending requested (.store entry) :: since

theorem Inv.start (conn : Connection) : Inv [] (start conn : Watch T) := ⟨.start, nofun⟩

theorem Inv.step {labels : List (WatchLabel T)} {s t : Watch T} {label : WatchLabel T} (h : Inv labels s)
    (hstep : Step env s label t) : Inv (labels ++ [label]) t := by
  obtain ⟨hoffers, hstoring⟩ := h
  constructor
  · rw [WatchLabel.events_snoc]
    cases hstep with
    | dispatch => simpa [WatchLabel.events] using hoffers.dispatch _
    | process =>
      refine ⟨?_, nofun⟩
      simpa [WatchLabel.events] using hoffers.pending
    | session => simpa [WatchLabel.events] using hoffers
  · intro entry he
    rcases hstep.storing_cases he with he | ⟨pending, transfer, instant, now, suppress, -, rfl, -⟩
    · obtain ⟨before, pending, requested, since, rfl⟩ := hstoring entry he
      exact ⟨before, pending, requested, since ++ [label], by simp⟩
    · exact ⟨labels, pending, _, [], rfl⟩

theorem Inv.of_run {conn : Connection} {labels : List (WatchLabel T)} {s : Watch T}
    (hrun : Run (Step env) (Watch.start conn) labels s) : Inv labels s :=
  show Inv ([] ++ labels) s from hrun.history (fun _ _ _ _ h hs => h.step hs) (.start conn)

/-- A selection is accepted exactly as `Offered` says, and what is in `ready` is what the last accepted one
put there. Every offer that is processed was accepted, `receive` is issued for its types only, and what is
inserted was read for these. -/
theorem watch_filter (env : Env T) (conn : Connection) {labels : List (WatchLabel T)} {s : Watch T}
    (hrun : Run (Step env) (start conn) labels s) :
    (∀ events id p, WatchState.selects (WatchState.new.dispatch events).pendingOffers id = some p ↔
      id = some p.offer ∧ WatchState.Offered events p) ∧
    (∀ events p, (WatchState.new.dispatch events).ready = some p → WatchState.Accepted events p) ∧
    (∀ before pending requested verdict since,
      labels = before ++ .process pending requested verdict :: since →
        WatchState.Accepted (WatchLabel.events before) pending ∧ requested.Sublist pending.mimeTypes ∧
          ∀ entry, verdict = .store entry → ∀ p ∈ entry.payloads, p.1 ∈ requested) ∧
    ∀ entry, s.session.storing = some entry → ∃ before pending requested since,
      labels = before ++ .process pending requested (.store entry) :: since := by
  refine ⟨fun events id p => WatchState.selects_iff, fun events p hp => ?_, ?_, (Inv.of_run hrun).storing⟩
  · have hfollows : WatchState.Follows ([] ++ events) (WatchState.new.dispatch events) := .dispatch .start events
    exact hfollows.ready p hp
  · rintro before pending requested verdict since rfl
    obtain ⟨u, u', hu, hstep, -⟩ := hrun.step_at
    cases hstep with
    | @process _ transfer instant now _ suppress hready hprocess hclock hidle halive =>
      refine ⟨(Inv.of_run hu).offers.ready pending hready, List.filter_sublist, ?_⟩
      rintro entry rfl ⟨m, d⟩ hp
      obtain ⟨payloads, -, hpayloads, -, hsub, -⟩ := processReady_store hprocess
      rw [hpayloads, mem_normalizePayloads] at hp
      exact hsub.subset (List.mem_map_of_mem (f := (·.1)) hp.1)

/-! ### A text is copied with its markup -/

/-- A batch of events selects an offer, which is read and stored. -/
theorem copy_run {s : Watch T} {b : List WatchEvent} {pending : PendingOffer} {transfer : Transfer} {instant : Nat}
    {now : T} {entry : NewEntry T} {suppress : SuppressState} {id : Int} {t : Store}
    (hready : s.offers.ready = none) (hstoring : s.session.storing = none) (halive : s.session.alive = true)
    (hclock : s.session.clock ≤ instant) (hdispatch : (s.offers.dispatch b).ready = some pending)
    (hprocess : processReady env pending transfer instant now s.session.suppress = some (.store entry, suppress))
    (hins : (s.session.conn.self.insert env.chrono env.plan entry).Returns s.session.conn.store id t) :
    Run (SuccessfulStep env) s
      [.dispatch b, .process pending (transfer.requested pending) (.store entry), .session (.insert true)]
      { session := { s.session with conn := ⟨s.session.conn.self, t⟩, suppress, clock := instant, storing := none
                                    alive := true }
        offers := { s.offers.dispatch b with ready := none } } := by
  refine .cons ⟨.dispatch hready hstoring halive, trivial⟩ ?_
  refine .cons ⟨.process hdispatch hprocess hclock hstoring halive, trivial⟩ ?_
  exact .single ⟨.session nofun (.insert_of id t rfl hins rfl), rfl⟩

def framedEnv : Env (Fin 10) := { Env.sample with sha256 := sampleSha256 }

/-- The application offers files too, and the markup twice. -/
def pairEvents : List WatchEvent :=
  [.dataOffer 1, .offer 1 "text/html", .offer 1 "application/vnd.portal.files", .offer 1 "text/plain",
    .offer 1 "text/html", .selection (some 1)]

def pairOffer : PendingOffer := ⟨1, ["text/html", "text/plain"]⟩

def xChunk : Chunk := ⟨asBytes "x", by decide, by decide⟩

def yChunk : Chunk := ⟨asBytes "y", by decide, by decide⟩

/-- The text comes first. -/
def pairTransfer : Transfer where
  piped _ := true
  flushed := true
  polls := [.ready [.idle, .chunk yChunk], .interrupted, .ready [.chunk xChunk, .eof], .ready [.eof]]

def pairHash : String := payloadHash sampleSha256 [("text/html", asBytes "x"), ("text/plain", asBytes "y")]

def pairEntry (second : Fin 10) : NewEntry (Fin 10) where
  hash := pairHash
  kind := .text
  label := "y"
  preview := "y"
  size := 2
  createdAt := second
  payloads := [("text/html", asBytes "x"), ("text/plain", asBytes "y")]

theorem pair_processed (second : Fin 10) (instant : Nat) :
    processReady framedEnv pairOffer pairTransfer instant second .default =
      some (.store (pairEntry second), .default) := rfl

def pairColumns : EntryColumns := (Database.ofLimits .default).newColumns .tenSeconds (pairEntry 0)

/-- The payload rows of the pair, with the columns of their entry. -/
def pairStored (columns : EntryColumns) : Store where
  entries := [⟨columns, 1⟩]
  payloads := [⟨1, 1, "text/html", asBytes "x"⟩, ⟨2, 1, "text/plain", asBytes "y"⟩]
  entrySeq := 1
  payloadSeq := 2
  cascade := true
  entries_sorted := by simp
  hashes_unique := by simp
  payloads_sorted := by decide

def pairCopied : Watch (Fin 10) where
  session := Session.start ⟨.ofLimits .default, pairStored pairColumns⟩
  offers := { WatchState.new.dispatch pairEvents with ready := none }

def copyPair : List (WatchLabel (Fin 10)) :=
  [.dispatch pairEvents, .process pairOffer ["text/html", "text/plain"] (.store (pairEntry 0)),
    .session (.insert true)]

theorem pair_inserted : ((Database.ofLimits .default).insert .tenSeconds .index (pairEntry 0)).Returns .fresh 1
    (pairStored pairColumns) := Script.returns_of_run (by rfl) (by rfl)

theorem copyPair_run : Run (SuccessfulStep framedEnv) (start ⟨.ofLimits .default, .fresh⟩) copyPair pairCopied :=
  copy_run (s := start ⟨.ofLimits .default, .fresh⟩) rfl rfl rfl (Nat.zero_le 0) rfl
    (pair_processed 0 0) pair_inserted

theorem watch_filter_copyPair :
    WatchState.Accepted pairEvents pairOffer ∧ ["text/html", "text/plain"].Sublist pairOffer.mimeTypes ∧
      ∀ entry, Verdict.store (pairEntry 0) = .store entry →
        ∀ p ∈ entry.payloads, p.1 ∈ ["text/html", "text/plain"] := by
  have hrun := copyPair_run.mono fun _ _ _ h => h.1
  exact (watch_filter framedEnv _ hrun).2.2.1 [.dispatch pairEvents] _ _ _ _ rfl

end Watch

end Mimeclip
