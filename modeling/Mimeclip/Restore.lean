import Mimeclip.Capture

/-!
# The restoring threads (`daemon/restore.rs`)

A `Restore` request is answered with `Ok` as soon as a thread is spawned for `restore_entry`, so that the
IPC stays responsive. The thread connects to the compositor, does a roundtrip, sets the selection to a
source that offers the payloads and serves it until it is cancelled. Nothing orders the threads: the
selection is that of the thread that set it last (`current_source`), which need not be the one that was
requested last.
-/

namespace Mimeclip

/-- Where a thread is in `restore_entry`: it is `bound` after the roundtrip, when it has the data control
manager and a seat, and `serving` once it has set the selection. -/
inductive RestorePhase
  | spawned
  | bound
  | serving
  | ended
deriving DecidableEq, Repr

structure RestoreThread where
  payloads : Payloads
  phase : RestorePhase

/-- The bytes written for a `Send` event; `none` if there are no data of the type. -/
def sendReply (payloads : Payloads) (mimeType : String) : Option Bytes :=
  (payloads.find? (·.1 == mimeType)).map (·.2)

structure Desktop where
  conn : Connection
  threads : List RestoreThread
  -- the thread whose source is the selection
  current : Option Nat

/-- `restore` is a request that is answered with `Ok`, with the payloads of the entry. The data device of a
thread may be `finished`, and `foreign` clients set the selection too. -/
inductive DesktopEvent (T : Type)
  | restore (now : T) (id : Int) (payloads : Payloads)
  | call (op : Op T)
  | connect (i : Nat)
  | setSelection (i : Nat)
  | fail (i : Nat)
  | cancelled (i : Nat)
  | finished (i : Nat)
  | foreign

namespace DesktopEvent
variable {T : Type}

def requested : DesktopEvent T → Option Payloads
  | restore _ _ payloads => some payloads
  | _ => none

def setBy : DesktopEvent T → Option Nat
  | setSelection i => some i
  | _ => none

def dropped : DesktopEvent T → Nat → Bool
  | finished j, i => i == j
  | foreign, _ => true
  | _, _ => false

end DesktopEvent

namespace Desktop
variable {T : Type} (env : Env T)

def start (conn : Connection) : Desktop where
  conn := conn
  threads := []
  current := none

def source (s : Desktop) : Option Payloads := s.current.bind fun i => s.threads[i]?.map (·.payloads)

def InPhase (s : Desktop) (i : Nat) (phase : RestorePhase) : Prop := s.threads[i]?.map (·.phase) = some phase

def goto (s : Desktop) (i : Nat) (phase : RestorePhase) : Desktop :=
  { s with threads := s.threads.modify i fun thread => { thread with phase } }

inductive Step : Desktop → DesktopEvent T → Desktop → Prop
  | restore {s : Desktop} {now : T} {id : Int} {hash : String} {payloads : Payloads} {store : Store}
      (hget : (restoreLookup env now id).Returns s.conn.store (some (hash, payloads)) store) :
      Step s (.restore now id payloads)
        { s with conn := ⟨s.conn.self, store⟩, threads := s.threads ++ [⟨payloads, .spawned⟩] }
  | call {s : Desktop} {op : Op T} {conn : Connection} (hcall : op.Stops env.chrono env.plan s.conn conn) :
      Step s (.call op) { s with conn }
  | connect {s : Desktop} {i : Nat} (hi : s.InPhase i .spawned)
      (hne : s.threads[i]?.map (·.payloads) ≠ some []) : Step s (.connect i) (s.goto i .bound)
  | setSelection {s : Desktop} {i : Nat} (hi : s.InPhase i .bound) :
      Step s (.setSelection i) { s.goto i .serving with current := some i }
  -- there is nothing to offer, no compositor, no manager or no seat
  | fail {s : Desktop} {i : Nat} (hi : s.InPhase i .spawned ∨ s.InPhase i .bound) :
      Step s (.fail i) (s.goto i .ended)
  | cancelled {s : Desktop} {i : Nat} (hi : s.InPhase i .serving) (hcurrent : s.current ≠ some i) :
      Step s (.cancelled i) (s.goto i .ended)
  | finished {s : Desktop} {i : Nat} (hi : s.InPhase i .serving) :
      Step s (.finished i) { s.goto i .ended with current := s.current.filter (· ≠ i) }
  | foreign {s : Desktop} : Step s .foreign { s with current := none }

variable {env}

def requests (events : List (DesktopEvent T)) : List Payloads := events.filterMap (·.requested)

/-- Thread `i` was the last to set the selection, and still holds it. -/
def SetLast (i : Nat) (events : List (DesktopEvent T)) : Prop :=
  ∃ before since, events = before ++ .setSelection i :: since ∧
    ∀ e ∈ since, (∀ j, e ≠ .setSelection j) ∧ e ≠ .finished i ∧ e ≠ .foreign

theorem setLast_iff {i : Nat} {events : List (DesktopEvent T)} :
    Held.held DesktopEvent.setBy DesktopEvent.dropped events = some i ↔ SetLast i events := by
  have hsince : ∀ e : DesktopEvent T, e.setBy = none ∧ e.dropped i = false ↔
      (∀ j, e ≠ .setSelection j) ∧ e ≠ .finished i ∧ e ≠ .foreign := by
    intro e
    cases e <;> simp [DesktopEvent.setBy, DesktopEvent.dropped]
    exact ne_comm
  rw [Held.held_eq_some, SetLast]
  constructor
  · rintro ⟨before, e, since, rfl, he, hs⟩
    cases e with
    | setSelection j => cases he; exact ⟨before, since, rfl, fun e he => (hsince e).1 (hs e he)⟩
    | _ => cases he
  · rintro ⟨before, since, rfl, hs⟩
    exact ⟨before, _, since, rfl, rfl, fun e he => (hsince e).2 (hs e he)⟩

structure Inv (events : List (DesktopEvent T)) (s : Desktop) : Prop where
  payloads : s.threads.map (·.payloads) = requests events
  current : s.current = Held.held DesktopEvent.setBy DesktopEvent.dropped events
  serving : ∀ i, s.current = some i → s.InPhase i .serving

theorem map_payloads_goto (s : Desktop) (i : Nat) (phase : RestorePhase) :
    (s.goto i phase).threads.map (·.payloads) = s.threads.map (·.payloads) := by
  refine List.ext_getElem? fun j => ?_
  simp only [goto, List.getElem?_map, List.getElem?_modify]
  split <;> cases s.threads[j]? <;> rfl

theorem inPhase_goto_ne {s : Desktop} {i j : Nat} {phase phase' : RestorePhase} (h : j ≠ i) :
    (s.goto i phase).InPhase j phase' ↔ s.InPhase j phase' := by
  simp [InPhase, goto, Ne.symm h]

theorem inPhase_goto_self {s : Desktop} {i : Nat} {phase phase' : RestorePhase} (h : s.InPhase i phase') :
    (s.goto i phase).InPhase i phase := by
  obtain ⟨thread, hthread, -⟩ := Option.map_eq_some_iff.1 h
  simp [InPhase, goto, hthread]

theorem InPhase.unique {s : Desktop} {i : Nat} {phase phase' : RestorePhase} (h : s.InPhase i phase)
    (h' : s.InPhase i phase') : phase = phase' := Option.some.inj (h.symm.trans h')

theorem Inv.start (conn : Connection) : Inv ([] : List (DesktopEvent T)) (start conn) where
  payloads := rfl
  current := rfl
  serving := nofun

theorem Inv.current_ne {events : List (DesktopEvent T)} {s : Desktop} (h : Inv events s) {i : Nat}
    {phase : RestorePhase} (hi : s.InPhase i phase) (hne : phase ≠ .serving) : s.current ≠ some i :=
  fun hcurrent => hne (hi.unique (h.serving i hcurrent))

theorem requests_snoc {events : List (DesktopEvent T)} {e : DesktopEvent T} (he : e.requested = none) :
    requests (events ++ [e]) = requests events := by
  simp [requests, he]

theorem held_snoc_idle {events : List (DesktopEvent T)} {e : DesktopEvent T} (hset : e.setBy = none)
    (hdrop : ∀ i, e.dropped i = false) :
    Held.held DesktopEvent.setBy DesktopEvent.dropped (events ++ [e]) =
      Held.held DesktopEvent.setBy DesktopEvent.dropped events := by
  rw [Held.held_snoc, Held.next_of_idle hset hdrop]

/-- A thread that does not hold the selection goes on. -/
theorem Inv.goto {events : List (DesktopEvent T)} {s : Desktop} (h : Inv events s) {e : DesktopEvent T} {i : Nat}
    {phase : RestorePhase} (hreq : e.requested = none) (hset : e.setBy = none)
    (hdrop : ∀ j, e.dropped j = false) (hi : s.current ≠ some i) : Inv (events ++ [e]) (s.goto i phase) := by
  refine ⟨?_, ?_, ?_⟩
  · rw [map_payloads_goto, h.payloads, requests_snoc hreq]
  · rw [held_snoc_idle hset hdrop]
    exact h.current
  · intro j hj
    have hji : j ≠ i := by
      rintro rfl
      exact hi hj
    exact (inPhase_goto_ne hji).2 (h.serving j hj)

theorem Inv.step {events : List (DesktopEvent T)} {s t : Desktop} {e : DesktopEvent T} (h : Inv events s)
    (hstep : Step env s e t) : Inv (events ++ [e]) t := by
  cases hstep with
  | @restore now id hash payloads store hget =>
    refine ⟨?_, ?_, ?_⟩
    · rw [List.map_append, h.payloads]
      simp [requests, DesktopEvent.requested]
    · rw [held_snoc_idle rfl fun _ => rfl]
      exact h.current
    · intro i hi
      obtain ⟨thread, hthread, -⟩ := Option.map_eq_some_iff.1 (h.serving i hi)
      rw [InPhase, List.getElem?_append_left (List.getElem?_eq_some_iff.1 hthread).1]
      exact h.serving i hi
  | call hcall =>
    refine ⟨by rw [requests_snoc rfl]; exact h.payloads, ?_, h.serving⟩
    rw [held_snoc_idle rfl fun _ => rfl]
    exact h.current
  | connect hi => exact h.goto rfl rfl (fun _ => rfl) (h.current_ne hi nofun)
  | @setSelection i hi =>
    have hset : (DesktopEvent.setSelection i : DesktopEvent T).setBy = some i := rfl
    refine ⟨by rw [requests_snoc rfl, ← h.payloads]; exact map_payloads_goto .., ?_, ?_⟩
    · rw [Held.held_snoc, Held.next_of_set hset]
    · rintro j ⟨⟩
      exact inPhase_goto_self hi
  | fail hi =>
    rcases hi with hi | hi
    · exact h.goto rfl rfl (fun _ => rfl) (h.current_ne hi nofun)
    · exact h.goto rfl rfl (fun _ => rfl) (h.current_ne hi nofun)
  | cancelled hi hcurrent => exact h.goto rfl rfl (fun _ => rfl) hcurrent
  | @finished i hi =>
    refine ⟨by rw [requests_snoc rfl, ← h.payloads]; exact map_payloads_goto .., ?_, fun j hj => ?_⟩
    · rw [Held.held_snoc, Held.next_of_not_set rfl, ← h.current]
      show s.current.filter _ = s.current.filter _
      congr 1
      funext j
      by_cases hji : j = i <;> simp [DesktopEvent.dropped, hji]
    · obtain ⟨hj, hne⟩ := Option.filter_eq_some_iff.1 hj
      exact (inPhase_goto_ne (by simpa using hne)).2 (h.serving j hj)
  | foreign =>
    refine ⟨by rw [requests_snoc rfl]; exact h.payloads, ?_, nofun⟩
    rw [Held.held_snoc, Held.next_of_not_set rfl, ← h.current]
    cases s.current <;> rfl

theorem Inv.of_run {conn : Connection} {events : List (DesktopEvent T)} {s : Desktop}
    (hrun : Run (Step env) (Desktop.start conn) events s) : Inv events s :=
  show Inv ([] ++ events) s from hrun.history (fun _ _ _ _ h hs => h.step hs) (.start conn)

theorem Inv.source_eq {events : List (DesktopEvent T)} {s : Desktop} (h : Inv events s) {i : Nat}
    (hi : s.current = some i) : s.source = (requests events)[i]? ∧ i < (requests events).length := by
  obtain ⟨thread, hthread, -⟩ := Option.map_eq_some_iff.1 (h.serving i hi)
  rw [source, hi, ← h.payloads, List.getElem?_map, List.length_map]
  exact ⟨rfl, (List.getElem?_eq_some_iff.1 hthread).1⟩

/-- Once all threads have set the selection, and no one else has, it is that of the thread that set it
last and offers the payloads the database had for its request; these are the payloads requested last if
the last thread to be spawned was also the last to set. -/
theorem current_source (env : Env T) (conn : Connection) {events : List (DesktopEvent T)} {s : Desktop}
    (hrun : Run (Step env) (start conn) events s) (hne : requests events ≠ [])
    (hset : ∀ i < (requests events).length, .setSelection i ∈ events)
    (hkept : ∀ e ∈ events, e ≠ .foreign ∧ ∀ i, e ≠ .finished i) :
    (∀ before now id payloads since, events = before ++ .restore now id payloads :: since →
      ∃ u, Run (Step env) (start conn) before u ∧ payloads = u.conn.store.rawPayloads id) ∧
    (∃ i payloads, SetLast i events ∧ (requests events)[i]? = some payloads ∧ s.source = some payloads) ∧
    (∀ i, s.current = some i ↔ SetLast i events) ∧
    (SetLast ((requests events).length - 1) events → s.source = (requests events).getLast?) := by
  have hinv := Inv.of_run hrun
  have hcurrent : ∀ i, s.current = some i ↔ SetLast i events := fun i => by rw [hinv.current, setLast_iff]
  refine ⟨?_, ?_, hcurrent, fun hlast => ?_⟩
  · rintro before now id payloads since rfl
    obtain ⟨u, u', hu, hstep, -⟩ := hrun.step_at
    cases hstep with
    | restore hget => exact ⟨u, hu, (restoreLookup_returns env hget).2.1⟩
  · have hclears : ∀ e ∈ events, ∀ i, DesktopEvent.dropped e i = false := by
      intro e he i
      obtain ⟨hforeign, hfinished⟩ := hkept e he
      cases e with
      | foreign => exact absurd rfl hforeign
      | finished j => exact absurd rfl (hfinished j)
      | _ => rfl
    have hfirst : (DesktopEvent.setSelection 0 : DesktopEvent T).setBy = some 0 := rfl
    obtain ⟨i, hi⟩ := Held.exists_held (hset 0 (List.length_pos_iff.2 hne)) hfirst hclears
    obtain ⟨hsource, hlt⟩ := hinv.source_eq (hinv.current.trans hi)
    rw [List.getElem?_eq_getElem hlt] at hsource
    exact ⟨i, _, setLast_iff.1 hi, List.getElem?_eq_getElem hlt, hsource⟩
  · rw [(hinv.source_eq ((hcurrent _).2 hlast)).1, List.getLast?_eq_getElem?]

/-! ### Two restores -/

def restores : List (DesktopEvent (Fin 10)) :=
  [.restore 2 1 [("text/plain", asBytes "hi")], .restore 3 2 [("text/plain", asBytes "yo")]]

def restoring (hi yo : RestorePhase) (current : Option Nat) : Desktop where
  conn := ⟨.ofLimits .default, bothCopied 2 3⟩
  threads := [⟨[("text/plain", asBytes "hi")], hi⟩, ⟨[("text/plain", asBytes "yo")], yo⟩]
  current

theorem restores_run : Run (Step .sample) (start ⟨.ofLimits .default, bothCopied 0 1⟩) restores
    (restoring .spawned .spawned none) := by
  have hhi : (restoreLookup Env.sample 2 1).Returns (bothCopied 0 1)
      (some (hiHash, [("text/plain", asBytes "hi")])) (bothCopied 2 1) := Script.returns_of_run rfl (by decide)
  have hyo : (restoreLookup Env.sample 3 2).Returns (bothCopied 2 1)
      (some (yoHash, [("text/plain", asBytes "yo")])) (bothCopied 2 3) := Script.returns_of_run rfl (by decide)
  exact .cons (.restore hhi) (.single (.restore hyo))

theorem current_source_in_order :
    ∃ i payloads, SetLast i (restores ++ [.connect 0, .setSelection 0, .connect 1, .setSelection 1]) ∧
      (requests (restores ++ [.connect 0, .setSelection 0, .connect 1, .setSelection 1]))[i]? = some payloads ∧
      (restoring .serving .serving (some 1)).source = some payloads := by
  have hset : Run (Step .sample) (restoring .spawned .spawned none)
      [.connect 0, .setSelection 0, .connect 1, .setSelection 1] (restoring .serving .serving (some 1)) :=
    .cons (.connect rfl (by decide)) (.cons (.setSelection rfl)
      (.cons (.connect rfl (by decide)) (.single (.setSelection rfl))))
  refine (current_source .sample _ (restores_run.append hset) (by decide) ?_ (by simp [restores])).2.1
  intro i hi
  match i, hi with
  | 0, _ | 1, _ => simp

/-- The threads set the selection in the other order: all have set it, but it is not the one requested last. -/
theorem last_request_overwritten :
    Run (Step .sample) (start ⟨.ofLimits .default, bothCopied 0 1⟩)
      (restores ++ [.connect 1, .setSelection 1, .connect 0, .setSelection 0, .cancelled 1])
      (restoring .serving .ended (some 0)) ∧
    (restoring .serving .ended (some 0)).source = some [("text/plain", asBytes "hi")] ∧
    (requests restores).getLast? = some [("text/plain", asBytes "yo")] ∧
    (restoring .serving .ended (some 0)).source ≠ (requests restores).getLast? := by
  have hset : Run (Step .sample) (restoring .spawned .spawned none)
      [.connect 1, .setSelection 1, .connect 0, .setSelection 0, .cancelled 1]
      (restoring .serving .ended (some 0)) :=
    .cons (.connect rfl (by decide)) (.cons (.setSelection rfl) (.cons (.connect rfl (by decide))
      (.cons (.setSelection rfl) (.single (.cancelled rfl (by decide))))))
  exact ⟨restores_run.append hset, rfl, rfl, by decide⟩

end Desktop

end Mimeclip
