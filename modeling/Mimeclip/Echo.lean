import Mimeclip.Capture

/-!
# Echoes of restored selections

A restore sets the clipboard selection, and the watcher captures it like any other: the echo. `Session`
is the daemon between these two: the clients' `Restore` requests take the database lock and arm the
suppression state in two steps, the watcher asks the suppression state and inserts in two steps, and any
of them may come in between. An echo is suppressed exactly if the last hash armed before it is its own and
no capture with that hash was handled since (`echoes_suppressed_iff`).
-/

namespace Mimeclip

/-- `requests` counts the `Restore` requests; `looked` are those that have left the database block, with the
hash they are about to arm, `armed` those that have armed it, and when. The watcher is about to insert
`storing`; it is `alive` until it panics, which ends the process. -/
structure Session (T : Type) where
  conn : Connection
  suppress : SuppressState
  clock : Nat
  requests : Nat
  looked : List (Nat × String)
  armed : List (Nat × String × Nat)
  storing : Option (NewEntry T)
  alive : Bool

inductive SessionEvent (T : Type)
  | lookup (request : Nat) (now : T) (id : Int)
  | arm (request : Nat) (hash : String) (instant : Nat)
  | capture (echoOf : Option Nat) (hash : String) (instant : Nat) (suppressed : Bool)
  | insert (succeeded : Bool)
  | call (op : Op T) (succeeded : Bool)

namespace SessionEvent
variable {T : Type}

def suppressCall : SessionEvent T → Option SuppressCall
  | arm _ hash instant => some (.arm hash instant)
  | capture _ hash instant _ => some (.check hash instant)
  | _ => none

def suppressCalls (events : List (SessionEvent T)) : List SuppressCall := events.filterMap suppressCall

end SessionEvent

namespace Session
variable {T : Type} (env : Env T)

def start (conn : Connection) : Session T where
  conn := conn
  suppress := .default
  clock := 0
  requests := 0
  looked := []
  armed := []
  storing := none
  alive := true

/-- An echo is handled within the time-to-live of the `arm` call of its own request. -/
inductive Step : Session T → SessionEvent T → Session T → Prop
  | lookup {s : Session T} {now : T} {id : Int} {hash : String} {payloads : Payloads} {store : Store}
      (hget : (restoreLookup env now id).Returns s.conn.store (some (hash, payloads)) store)
      (halive : s.alive = true) :
      Step s (.lookup s.requests now id)
        { s with conn := ⟨s.conn.self, store⟩, requests := s.requests + 1
                 looked := (s.requests, hash) :: s.looked }
  | arm {s : Session T} {request : Nat} {hash : String} {instant : Nat} (hmem : (request, hash) ∈ s.looked)
      (hclock : s.clock ≤ instant) (halive : s.alive = true) :
      Step s (.arm request hash instant)
        { s with suppress := s.suppress.armAt hash instant, clock := instant
                 looked := s.looked.erase (request, hash), armed := (request, hash, instant) :: s.armed }
  | capture {s : Session T} {echoOf : Option Nat} {payloads : Payloads} {instant : Nat} {now : T}
      (hne : payloads ≠ []) (hclock : s.clock ≤ instant)
      (hecho : ∀ request, echoOf = some request → ∃ armedAt, instant ≤ armedAt + suppressTtl ∧
        (request, payloadHash env.sha256 (normalizePayloads payloads), armedAt) ∈ s.armed)
      (hidle : s.storing = none) (halive : s.alive = true) :
      Step s
        (.capture echoOf (payloadHash env.sha256 (normalizePayloads payloads)) instant
          (judgeCapture env payloads instant now s.suppress).1.isSuppressed)
        { s with suppress := (judgeCapture env payloads instant now s.suppress).2, clock := instant
                 storing := (judgeCapture env payloads instant now s.suppress).1.entry
                 alive := !(judgeCapture env payloads instant now s.suppress).1.isPanic }
  | insert {s : Session T} {entry : NewEntry T} {store : Store} {succeeded : Bool}
      (hentry : s.storing = some entry)
      (hins : (s.conn.self.insert env.chrono env.plan entry).Leaves s.conn.store store)
      (hok : succeeded = true → ∃ id, (s.conn.self.insert env.chrono env.plan entry).Returns s.conn.store id store)
      (halive : s.alive = true) :
      Step s (.insert succeeded) { s with conn := ⟨s.conn.self, store⟩, storing := none }
  | call {s : Session T} {op : Op T} {conn : Connection} {succeeded : Bool} (hop : ∀ entry, op ≠ .insert entry)
      (hcall : op.Stops env.chrono env.plan s.conn conn)
      (hok : succeeded = true → ∃ out, Op.Completes env.chrono env.plan s.conn (op, out) conn)
      (halive : s.alive = true) :
      Step s (.call op succeeded) { s with conn }

variable {env}

theorem Step.insert_of {s : Session T} {entry : NewEntry T} (id : Int) (store : Store)
    (hentry : s.storing = some entry)
    (hins : (s.conn.self.insert env.chrono env.plan entry).Returns s.conn.store id store)
    (halive : s.alive = true) : Step env s (.insert true) { s with conn := ⟨s.conn.self, store⟩, storing := none } :=
  .insert hentry hins.leaves (fun _ => ⟨id, hins⟩) halive

theorem Step.capture_of {s : Session T} {echoOf : Option Nat} {hash : String} {instant : Nat}
    {suppress : SuppressState} (payloads : Payloads) (now : T) (verdict : Verdict T) (hne : payloads ≠ [])
    (hhash : payloadHash env.sha256 (normalizePayloads payloads) = hash)
    (hjudge : judgeCapture env payloads instant now s.suppress = (verdict, suppress))
    (hclock : s.clock ≤ instant)
    (hecho : ∀ request, echoOf = some request → ∃ armedAt, instant ≤ armedAt + suppressTtl ∧
      (request, hash, armedAt) ∈ s.armed)
    (hidle : s.storing = none) (halive : s.alive = true) :
    Step env s (.capture echoOf hash instant verdict.isSuppressed)
      { s with suppress, clock := instant, storing := verdict.entry, alive := !verdict.isPanic } := by
  subst hhash
  have h : Step env s (.capture echoOf _ instant (judgeCapture env payloads instant now s.suppress).1.isSuppressed) _ :=
    .capture hne hclock hecho hidle halive
  rwa [hjudge] at h

structure Inv (events : List (SessionEvent T)) (s : Session T) : Prop where
  tracks : Tracks s.clock (SuppressCall.pendingArm (SessionEvent.suppressCalls events)) s.suppress
  armed_le : ∀ a ∈ s.armed, a.2.2 ≤ s.clock
  armed_le_last : ∀ a ∈ s.armed, ∀ hash t,
    SuppressCall.pendingArm (SessionEvent.suppressCalls events) = some (hash, t) → a.2.2 ≤ t

theorem Inv.start (conn : Connection) : Inv [] (start conn : Session T) where
  tracks := .idle
  armed_le := by simp [Session.start]
  armed_le_last := by simp [Session.start]

theorem pendingArm_snoc {events : List (SessionEvent T)} {e : SessionEvent T} :
    SuppressCall.pendingArm (SessionEvent.suppressCalls (events ++ [e])) =
      match e.suppressCall with
      | some call => SuppressCall.after (SuppressCall.pendingArm (SessionEvent.suppressCalls events)) call
      | none => SuppressCall.pendingArm (SessionEvent.suppressCalls events) := by
  rw [SessionEvent.suppressCalls, List.filterMap_append]
  cases he : e.suppressCall with
  | none => simp [SessionEvent.suppressCalls, he]
  | some call =>
    rw [show List.filterMap SessionEvent.suppressCall [e] = [call] by simp [he],
      SuppressCall.pendingArm_snoc]
    rfl

theorem Inv.step {events : List (SessionEvent T)} {s t : Session T} {e : SessionEvent T} (h : Inv events s)
    (hstep : Step env s e t) : Inv (events ++ [e]) t := by
  cases hstep with
  | lookup hget halive => exact ⟨by rw [pendingArm_snoc]; exact h.tracks, h.armed_le,
      by rw [pendingArm_snoc]; exact h.armed_le_last⟩
  | insert hentry hins hok halive => exact ⟨by rw [pendingArm_snoc]; exact h.tracks, h.armed_le,
      by rw [pendingArm_snoc]; exact h.armed_le_last⟩
  | call hop hcall hok halive => exact ⟨by rw [pendingArm_snoc]; exact h.tracks, h.armed_le,
      by rw [pendingArm_snoc]; exact h.armed_le_last⟩
  | @arm request hash instant hmem hclock halive =>
    have hle : ∀ a ∈ (request, hash, instant) :: s.armed, a.2.2 ≤ instant := by
      intro a ha
      rcases List.mem_cons.1 ha with rfl | ha
      exacts [Nat.le_refl _, (h.armed_le a ha).trans hclock]
    refine ⟨by rw [pendingArm_snoc]; exact .arm s.suppress, hle, fun a ha hash' t ht => ?_⟩
    rw [pendingArm_snoc] at ht
    dsimp only [SessionEvent.suppressCall] at ht
    rw [SuppressCall.after_arm] at ht
    cases ht
    exact hle a ha
  | @capture echoOf payloads instant now hne hclock hecho hidle halive =>
    refine ⟨?_, fun a ha => (h.armed_le a ha).trans hclock, fun a ha hash t ht => ?_⟩
    · rw [pendingArm_snoc]
      dsimp only
      rw [(judgeCapture_suppress env hne instant now s.suppress).2]
      exact (h.tracks.check hclock).1
    · rw [pendingArm_snoc] at ht
      dsimp only [SessionEvent.suppressCall] at ht
      rw [SuppressCall.after_check] at ht
      exact h.armed_le_last a ha hash t (Option.filter_eq_some_iff.1 ht).1

/-- When an echo is suppressed: the pending `arm` call is for its hash. It is in time, since it is the
call of the echo's own request or a later one. -/
theorem Inv.echo {events : List (SessionEvent T)} {s t : Session T} {request : Nat} {hash : String}
    {instant : Nat} {suppressed : Bool} (h : Inv events s)
    (hstep : Step env s (.capture (some request) hash instant suppressed) t) :
    suppressed = true ↔
      ∃ now, SuppressCall.LastArmed hash now (SessionEvent.suppressCalls events) := by
  cases hstep with
  | @capture _ payloads _ now hne hclock hecho hidle halive =>
    rw [(judgeCapture_suppress env hne instant now s.suppress).1, (h.tracks.check hclock).2]
    simp only [← SuppressCall.pendingArm_eq_some]
    refine exists_congr fun now => and_iff_left_of_imp fun hp => ?_
    obtain ⟨armedAt, hin, hmem⟩ := hecho request rfl
    have := h.armed_le_last _ hmem _ now hp
    dsimp only at this
    omega

theorem Step.suppressed {s t : Session T} {echoOf : Option Nat} {hash : String} {instant : Nat}
    (hstep : Step env s (.capture echoOf hash instant true) t) : t.conn = s.conn ∧ t.storing = none := by
  generalize he : SessionEvent.capture echoOf hash instant true = e at hstep
  cases hstep with
  | @capture _ payloads _ now hne hclock hecho hidle halive =>
    refine ⟨rfl, ?_⟩
    cases hj : (judgeCapture env payloads instant now s.suppress).1 <;> simp_all [Verdict.isSuppressed, Verdict.entry]
  | _ => cases he

/-- Every echo is suppressed, and leaves the store alone. -/
def EchoesSuppressed (env : Env T) (conn : Connection) (events : List (SessionEvent T)) : Prop :=
  ∀ before since request hash instant suppressed,
    events = before ++ .capture (some request) hash instant suppressed :: since →
      suppressed = true ∧ ∀ s t, Run (Step env) (start conn) before s →
        Step env s (.capture (some request) hash instant suppressed) t →
          t.conn = s.conn ∧ t.storing = none

/-- Before every echo the last `arm` call was for its hash, and no capture with that hash was checked
since. -/
def EchoesArmed (events : List (SessionEvent T)) : Prop :=
  ∀ before since request hash instant suppressed,
    events = before ++ .capture (some request) hash instant suppressed :: since →
      ∃ now, SuppressCall.LastArmed hash now (SessionEvent.suppressCalls before)

theorem echoes_suppressed_iff (env : Env T) (conn : Connection) {events : List (SessionEvent T)}
    {s : Session T} (hrun : Run (Step env) (start conn) events s) :
    EchoesSuppressed env conn events ↔ EchoesArmed events := by
  have hat : ∀ before since request hash instant suppressed,
      events = before ++ .capture (some request) hash instant suppressed :: since →
        (suppressed = true ↔
          ∃ now, SuppressCall.LastArmed hash now (SessionEvent.suppressCalls before)) := by
    rintro before since request hash instant suppressed rfl
    obtain ⟨u, u', hu, hstep, -⟩ := hrun.step_at
    have hinv : Inv ([] ++ before) u := hu.history (fun _ _ _ _ h hs => h.step hs) (.start conn)
    exact hinv.echo hstep
  constructor
  · intro h before since request hash instant suppressed he
    exact (hat before since request hash instant suppressed he).1
      (h before since request hash instant suppressed he).1
  · intro h before since request hash instant suppressed he
    obtain rfl : suppressed = true :=
      (hat before since request hash instant suppressed he).2 (h before since request hash instant suppressed he)
    exact ⟨rfl, fun u u' _ hstep => hstep.suppressed⟩

/-! ### Two restores within the time-to-live -/

def restoredBoth : Session (Fin 10) where
  conn := ⟨.ofLimits .default, bothCopied 2 3⟩
  suppress := ⟨some ⟨yoHash, 3 + suppressTtl⟩⟩
  clock := 3
  requests := 2
  looked := []
  armed := [(1, yoHash, 3), (0, hiHash, 2)]
  storing := none
  alive := true

def restoreBoth : List (SessionEvent (Fin 10)) :=
  [.capture none hiHash 0 false, .insert true, .capture none yoHash 1 false, .insert true,
   .lookup 0 2 1, .arm 0 hiHash 2, .lookup 1 3 2, .arm 1 yoHash 3]

theorem restoreBoth_run :
    Run (Step .sample) (start ⟨.ofLimits .default, .fresh⟩) restoreBoth restoredBoth := by
  have hlookupHi : (restoreLookup Env.sample 2 1).Returns (bothCopied 0 1)
      (some (hiHash, [("text/plain", asBytes "hi")])) (bothCopied 2 1) := Script.returns_of_run rfl (by decide)
  have hlookupYo : (restoreLookup Env.sample 3 2).Returns (bothCopied 2 1)
      (some (yoHash, [("text/plain", asBytes "yo")])) (bothCopied 2 3) := Script.returns_of_run rfl (by decide)
  refine .cons (.capture_of [("text/plain", asBytes "hi")] 0 (.store (textEntry hiHash "hi" 0))
    (by decide) (by decide) rfl (by decide) nofun rfl rfl) ?_
  refine .cons (.insert_of 1 hiCopied rfl (Script.returns_of_run rfl (by decide)) rfl) ?_
  refine .cons (.capture_of [("text/plain", asBytes "yo")] 1 (.store (textEntry yoHash "yo" 1))
    (by decide) (by decide) rfl (by decide) nofun rfl rfl) ?_
  refine .cons (.insert_of 2 (bothCopied 0 1) rfl (Script.returns_of_run rfl (by decide)) rfl) ?_
  refine .cons (.lookup hlookupHi rfl) ?_
  refine .cons (.arm (by decide) (by decide) rfl) ?_
  refine .cons (.lookup hlookupYo rfl) ?_
  exact .single (.arm (by decide) (by decide) rfl)

def recency (s : Session (Fin 10)) : List Int :=
  (RecencyPlan.index.order s.conn.store.entries).map (·.id)

theorem echoes_suppressed_iff_restoreBoth :
    EchoesSuppressed .sample ⟨.ofLimits .default, .fresh⟩ (restoreBoth ++ [.capture (some 1) yoHash 4 true]) ↔
      EchoesArmed (restoreBoth ++ [.capture (some 1) yoHash 4 true]) := by
  obtain ⟨t, hecho⟩ : ∃ t, Step .sample restoredBoth (.capture (some 1) yoHash 4 true) t := by
    refine ⟨_, .capture_of [("text/plain", asBytes "yo")] 4 .suppressed
      (by decide) (by decide) rfl (by decide) ?_ rfl rfl⟩
    rintro _ ⟨⟩
    exact ⟨3, by decide, by decide⟩
  exact echoes_suppressed_iff .sample _ (restoreBoth_run.snoc hecho)

/-- The echo of `hi` comes in within the time-to-live, is not suppressed, and changes the order. -/
theorem echo_stored_again :
    Run (Step .sample) (start ⟨.ofLimits .default, .fresh⟩) restoreBoth restoredBoth ∧
      ∃ t, Run (Step .sample) restoredBoth [.capture (some 0) hiHash 4 false, .insert true] t ∧
        ¬ EchoesSuppressed .sample ⟨.ofLimits .default, .fresh⟩
          (restoreBoth ++ [.capture (some 0) hiHash 4 false, .insert true]) ∧
        recency restoredBoth = [2, 1] ∧ recency t = [1, 2] := by
  refine ⟨restoreBoth_run, _, .cons (.capture_of [("text/plain", asBytes "hi")] 4
    (.store (textEntry hiHash "hi" 4)) (by decide) (by decide) rfl (by decide) ?_ rfl rfl)
    (.single (.insert_of 1 (bothCopied 4 3) rfl (Script.returns_of_run rfl (by decide)) rfl)),
    fun h => ?_, by decide, by decide⟩
  · rintro _ ⟨⟩
    exact ⟨2, by decide, by decide⟩
  · exact absurd (h restoreBoth [.insert true] 0 hiHash 4 false rfl).1 Bool.false_ne_true

end Session

end Mimeclip
