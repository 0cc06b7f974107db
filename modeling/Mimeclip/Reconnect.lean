import Mimeclip.Watch

/-!
# The watcher and its connections (`daemon/main.rs`)

When the connection to the compositor is lost, `watcher::run` returns an error, and `main` runs it again, unless the
error is of another kind: then the process exits. The history and what is armed are shared by all these runs, but the
offers belong to one. So an offer that is processed was accepted from the events of the connection it is read from,
and the daemon has gone on after every error but the last (`watcher_reconnects`).
-/

namespace Mimeclip

/-! ### Errors -/

inductive IoErrorKind
  | brokenPipe
  | connectionReset
  | connectionAborted
  | notConnected
  | unexpectedEof
  -- any other kind
  | other (code : Nat)
deriving DecidableEq, Repr

inductive ConnectError
  | noWaylandLib
  | noCompositor
  | invalidFd
deriving DecidableEq, Repr

inductive WaylandError
  | io (kind : IoErrorKind)
  | protocol
deriving DecidableEq, Repr

inductive DispatchError
  | badMessage
  | backend (error : WaylandError)
deriving DecidableEq, Repr

/-- What an error of `anyhow` consists of; `other` is what is none of these three. -/
inductive Cause
  | connect (error : ConnectError)
  | dispatch (error : DispatchError)
  | wayland (error : WaylandError)
  | other
deriving DecidableEq, Repr

def isRetryableWaylandIo : IoErrorKind → Bool
  | .brokenPipe | .connectionReset | .connectionAborted | .notConnected | .unexpectedEof => true
  | .other _ => false

def Cause.retryable : Cause → Bool
  | connect error => error == .noCompositor
  | dispatch (.backend (.io kind)) => isRetryableWaylandIo kind
  | dispatch _ => false
  | wayland (.io kind) => isRetryableWaylandIo kind
  | wayland _ => false
  | other => false

/-- `err` is the chain of causes. -/
def shouldRetryWatcherError (err : List Cause) : Bool := err.any Cause.retryable

/-! ### Connections -/

/-- Where the loop of `main` is: `run` is `connecting` until it has the data device, and `waiting` is the time between
two calls of it. -/
inductive WatcherPhase
  | connecting
  | watching (offers : WatchState)
  | waiting
  | exited

structure Supervised (T : Type) where
  session : Session T
  phase : WatcherPhase

inductive SupervisedLabel (T : Type)
  | connected
  | failed (err : List Cause)
  | retried
  | watch (label : WatchLabel T)

namespace Supervised
variable {T : Type} (env : Env T)

def start (conn : Connection) : Supervised T := ⟨.start conn, .connecting⟩

def afterError (err : List Cause) : WatcherPhase := if shouldRetryWatcherError err then .waiting else .exited

inductive Step : Supervised T → SupervisedLabel T → Supervised T → Prop
  | connected {session : Session T} (halive : session.alive = true) :
      Step ⟨session, .connecting⟩ .connected ⟨session, .watching .new⟩
  -- no compositor, no manager or seat, or a roundtrip that fails
  | unconnected {session : Session T} {err : List Cause} (halive : session.alive = true) :
      Step ⟨session, .connecting⟩ (.failed err) ⟨session, afterError err⟩
  -- `blocking_dispatch` fails; the offers are dropped with the state of the watcher
  | failed {session : Session T} {offers : WatchState} {err : List Cause} (hidle : session.storing = none)
      (halive : session.alive = true) : Step ⟨session, .watching offers⟩ (.failed err) ⟨session, afterError err⟩
  | retried {session : Session T} (halive : session.alive = true) :
      Step ⟨session, .waiting⟩ .retried ⟨session, .connecting⟩
  | watch {session : Session T} {offers : WatchState} {label : WatchLabel T} {t : Watch T}
      (hstep : Watch.Step env ⟨session, offers⟩ label t) :
      Step ⟨session, .watching offers⟩ (.watch label) ⟨t.session, .watching t.offers⟩
  -- meanwhile the clients are served
  | session {session session' : Session T} {phase : WatcherPhase} {e : SessionEvent T}
      (hphase : phase = .connecting ∨ phase = .waiting)
      (he : ∀ echoOf hash instant suppressed, e ≠ .capture echoOf hash instant suppressed)
      (hstep : Session.Step env session e session') :
      Step ⟨session, phase⟩ (.watch (.session e)) ⟨session', phase⟩

/-- The labels of the connection that is open, or was the last to be. -/
def connection (labels : List (SupervisedLabel T)) : List (WatchLabel T) :=
  labels.foldl (fun connection label =>
    match label with
    | .connected => []
    | .watch label => connection ++ [label]
    | .failed _ | .retried => connection) []

theorem connection_connected (labels : List (SupervisedLabel T)) : connection (labels ++ [.connected]) = [] := by
  rw [connection, List.foldl_append]
  rfl

theorem connection_watch (labels : List (SupervisedLabel T)) (label : WatchLabel T) :
    connection (labels ++ [.watch label]) = connection labels ++ [label] := by
  rw [connection, List.foldl_append]
  rfl

variable {env}

structure Inv (labels : List (SupervisedLabel T)) (s : Supervised T) : Prop where
  watching : ∀ offers, s.phase = .watching offers → Watch.Inv (connection labels) ⟨s.session, offers⟩
  idle : (∀ offers, s.phase ≠ .watching offers) → s.session.storing = none

theorem Inv.start (conn : Connection) : Inv [] (start conn : Supervised T) := ⟨nofun, fun _ => rfl⟩

theorem afterError_ne (err : List Cause) (offers : WatchState) : afterError err ≠ .watching offers := by
  rw [afterError]
  split_ifs <;> nofun

theorem Inv.after {labels : List (SupervisedLabel T)} {session : Session T} {phase : WatcherPhase}
    (hphase : ∀ offers, phase ≠ .watching offers) (hidle : session.storing = none) : Inv labels ⟨session, phase⟩ :=
  ⟨fun offers h => absurd h (hphase offers), fun _ => hidle⟩

theorem Inv.step {labels : List (SupervisedLabel T)} {s t : Supervised T} {label : SupervisedLabel T}
    (h : Inv labels s) (hstep : Step env s label t) : Inv (labels ++ [label]) t := by
  cases hstep with
  | @connected session =>
    have hidle : session.storing = none := h.idle nofun
    refine ⟨?_, fun hphase => absurd rfl (hphase _)⟩
    rintro _ ⟨⟩
    rw [connection_connected]
    refine ⟨.start, fun entry he => ?_⟩
    rw [hidle] at he
    cases he
  | @unconnected _ err => exact .after (afterError_ne err) (h.idle nofun)
  | @failed _ _ err hidle => exact .after (afterError_ne err) hidle
  | retried => exact .after nofun (h.idle nofun)
  | @watch _ _ label t hwatch =>
    refine ⟨?_, fun hphase => absurd rfl (hphase _)⟩
    rintro _ ⟨⟩
    rw [connection_watch]
    exact (h.watching _ rfl).step hwatch
  | @session session session' phase e hphase he hsession =>
    have hnot : ∀ offers, phase ≠ .watching offers := by
      rcases hphase with rfl | rfl <;> nofun
    have hidle : session.storing = none := h.idle hnot
    refine .after hnot ?_
    cases hsession with
    | lookup | arm | call => exact hidle
    | insert => rfl
    | capture => exact absurd rfl (he _ _ _ _)

theorem Inv.of_run {conn : Connection} {labels : List (SupervisedLabel T)} {s : Supervised T}
    (hrun : Run (Step env) (Supervised.start conn) labels s) : Inv labels s :=
  show Inv ([] ++ labels) s from hrun.history (fun _ _ _ _ h hs => h.step hs) (.start conn)

theorem Step.exited_iff {s t : Supervised T} {label : SupervisedLabel T} (h : Step env s label t) :
    t.phase = .exited ↔ ∃ err, label = .failed err ∧ shouldRetryWatcherError err = false := by
  have hafter : ∀ err, afterError err = .exited ↔ shouldRetryWatcherError err = false := by
    intro err
    rw [afterError]
    cases shouldRetryWatcherError err <;> simp
  have hfailed : ∀ err : List Cause, (shouldRetryWatcherError err = false) ↔
      ∃ err', (SupervisedLabel.failed err : SupervisedLabel T) = .failed err' ∧
        shouldRetryWatcherError err' = false := by
    intro err
    constructor
    · intro h
      exact ⟨err, rfl, h⟩
    · rintro ⟨_, ⟨⟩, h⟩
      exact h
  cases h with
  | unconnected => exact (hafter _).trans (hfailed _)
  | failed => exact (hafter _).trans (hfailed _)
  | connected | retried | watch => exact iff_of_false nofun nofun
  | session hphase => rcases hphase with rfl | rfl <;> exact iff_of_false nofun nofun

theorem Step.running {s t : Supervised T} {label : SupervisedLabel T} (h : Step env s label t) : s.phase ≠ .exited := by
  cases h with
  | connected | unconnected | failed | retried | watch => nofun
  | session hphase => rcases hphase with rfl | rfl <;> nofun

/-- After an error of the connection the watcher can have another one, and nothing has changed but the offers. -/
theorem Step.reconnects {s t : Supervised T} {err : List Cause} (h : Step env s (.failed err) t)
    (hretry : shouldRetryWatcherError err = true) :
    Run (Step env) t [.retried, .connected] ⟨s.session, .watching .new⟩ := by
  have hwaiting : afterError err = .waiting := if_pos hretry
  cases h with
  | unconnected halive =>
    rw [hwaiting]
    exact .cons (.retried halive) (.single (.connected halive))
  | failed hidle halive =>
    rw [hwaiting]
    exact .cons (.retried halive) (.single (.connected halive))

section
variable {conn : Connection} {labels : List (SupervisedLabel T)} {s : Supervised T}

/-- What is processed was accepted in this connection, and what is stored of it was requested. -/
theorem processed_accepted {before since : List (SupervisedLabel T)} {pending : PendingOffer}
    {requested : List String} {verdict : Verdict T}
    (hrun : Run (Step env) (start conn) (before ++ .watch (.process pending requested verdict) :: since) s) :
    WatchState.Accepted (WatchLabel.events (connection before)) pending ∧ requested.Sublist pending.mimeTypes ∧
      ∀ entry, verdict = .store entry → ∀ p ∈ entry.payloads, p.1 ∈ requested := by
  obtain ⟨u, u', hu, hstep, -⟩ := hrun.step_at
  cases hstep with
  | @watch session offers _ t hwatch =>
    have hwatching := (Inv.of_run hu).watching offers rfl
    cases hwatch with
    | @process _ transfer instant now _ suppress hready hprocess =>
      refine ⟨hwatching.offers.ready pending hready, List.filter_sublist, ?_⟩
      rintro entry rfl ⟨mime, data⟩ hp
      obtain ⟨payloads, -, hpayloads, -, hsub, -⟩ := Watch.processReady_store hprocess
      rw [hpayloads, mem_normalizePayloads] at hp
      exact hsub.subset (List.mem_map_of_mem hp.1)

theorem storing_processed (hrun : Run (Step env) (start conn) labels s) {entry : NewEntry T}
    (hentry : s.session.storing = some entry) :
    ∃ pending requested, .process pending requested (.store entry) ∈ connection labels := by
  have hinv := Inv.of_run hrun
  cases hphase : s.phase with
  | watching offers =>
    obtain ⟨before, pending, requested, since, heq⟩ := (hinv.watching offers hphase).storing entry hentry
    exact ⟨pending, requested, heq ▸ by simp⟩
  | connecting | waiting | exited =>
    have hidle := hinv.idle (by rw [hphase]; nofun)
    rw [hidle] at hentry
    cases hentry

theorem exited_iff (hrun : Run (Step env) (start conn) labels s) :
    s.phase = .exited ↔ ∃ before err, labels = before ++ [.failed err] ∧ shouldRetryWatcherError err = false := by
  constructor
  · intro hphase
    rcases List.eq_nil_or_concat labels with rfl | ⟨before, label, rfl⟩
    · cases hrun
      cases hphase
    · rw [List.concat_eq_append] at hrun
      obtain ⟨u, u', -, hstep, hend⟩ := hrun.step_at
      cases hend
      obtain ⟨err, rfl, herr⟩ := hstep.exited_iff.1 hphase
      exact ⟨before, err, by simp, herr⟩
  · rintro ⟨before, err, rfl, herr⟩
    obtain ⟨u, u', -, hstep, hend⟩ := hrun.step_at
    cases hend
    exact hstep.exited_iff.2 ⟨err, rfl, herr⟩

theorem failed_reconnects {before since : List (SupervisedLabel T)} {err : List Cause}
    (hrun : Run (Step env) (start conn) (before ++ .failed err :: since) s) :
    shouldRetryWatcherError err = true ∧
        (∃ t, Run (Step env) (start conn) before t ∧
          Run (Step env) (start conn) (before ++ [.failed err, .retried, .connected]) ⟨t.session, .watching .new⟩) ∨
      shouldRetryWatcherError err = false ∧ since = [] := by
  obtain ⟨u, u', hu, hstep, hend⟩ := hrun.step_at
  cases hretry : shouldRetryWatcherError err with
  | true => exact .inl ⟨rfl, u, hu, hu.append (.cons hstep (hstep.reconnects hretry))⟩
  | false =>
    refine .inr ⟨rfl, ?_⟩
    have hexited := hstep.exited_iff.2 ⟨err, rfl, hretry⟩
    cases hend with
    | nil => rfl
    | cons hnext => exact absurd hexited hnext.running

end

/-- Over any number of connections, the offers that are processed were accepted from the events of the connection they
are processed in, so none is read, or its payloads stored, from one that is gone. The process exits at the first error
that is not one of the connection, and after any other it can be watching again, with all it had but the offers. -/
theorem watcher_reconnects (env : Env T) (conn : Connection) {labels : List (SupervisedLabel T)} {s : Supervised T}
    (hrun : Run (Step env) (start conn) labels s) :
    (∀ before pending requested verdict since,
      labels = before ++ .watch (.process pending requested verdict) :: since →
        WatchState.Accepted (WatchLabel.events (connection before)) pending ∧ requested.Sublist pending.mimeTypes ∧
          ∀ entry, verdict = .store entry → ∀ p ∈ entry.payloads, p.1 ∈ requested) ∧
    (∀ entry, s.session.storing = some entry →
      ∃ pending requested, .process pending requested (.store entry) ∈ connection labels) ∧
    (s.phase = .exited ↔ ∃ before err, labels = before ++ [.failed err] ∧ shouldRetryWatcherError err = false) ∧
    ∀ before err since, labels = before ++ .failed err :: since → shouldRetryWatcherError err = true ∧
        (∃ t, Run (Step env) (start conn) before t ∧
          Run (Step env) (start conn) (before ++ [.failed err, .retried, .connected]) ⟨t.session, .watching .new⟩) ∨
      shouldRetryWatcherError err = false ∧ since = [] := by
  refine ⟨?_, fun _ hentry => storing_processed hrun hentry, exited_iff hrun, ?_⟩
  · rintro before pending requested verdict since rfl
    exact processed_accepted hrun
  · rintro before err since rfl
    exact failed_reconnects hrun

/-! ### A connection that is lost -/

/-- The compositor goes away before the text that was copied is read, and the text is announced again. -/
def lostConnection : List (SupervisedLabel (Fin 10)) :=
  [.connected, .watch (.dispatch Watch.pairEvents), .failed [.other, .dispatch (.backend (.io .brokenPipe))],
    .retried, .connected, .watch (.dispatch Watch.pairEvents)]

def announcedAgain : Supervised (Fin 10) where
  session := .start ⟨.ofLimits .default, .fresh⟩
  phase := .watching (WatchState.new.dispatch Watch.pairEvents)

theorem lostConnection_run :
    Run (Step Watch.framedEnv) (start ⟨.ofLimits .default, .fresh⟩) lostConnection announcedAgain :=
  .cons (.connected rfl) (.cons (.watch (.dispatch rfl rfl rfl)) (.cons (.failed rfl rfl)
    (.cons (.retried rfl) (.cons (.connected rfl) (.single (.watch (.dispatch rfl rfl rfl)))))))

theorem watcher_reconnects_lost :
    WatchState.Accepted Watch.pairEvents Watch.pairOffer ∧
      ["text/html", "text/plain"].Sublist Watch.pairOffer.mimeTypes := by
  obtain ⟨t, hprocess⟩ : ∃ t, Watch.Step Watch.framedEnv ⟨announcedAgain.session, .dispatch .new Watch.pairEvents⟩
      (.process Watch.pairOffer (Watch.pairTransfer.requested Watch.pairOffer) (.store (Watch.pairEntry 0))) t :=
    ⟨_, .process rfl (Watch.pair_processed 0 0) (Nat.le_refl 0) rfl rfl⟩
  obtain ⟨haccepted, hsublist, -⟩ :=
    (watcher_reconnects Watch.framedEnv _ (lostConnection_run.snoc (.watch hprocess))).1 lostConnection _ _ _ [] rfl
  exact ⟨haccepted, hsublist⟩

end Supervised

end Mimeclip
