import Mimeclip.PipeHistory
import Mimeclip.Lib.Run

/-!
# Source and reader

A clipboard source writes its representations one after the other, with writes that block while the pipe is
full, and `read_payload_pipes` polls and reads at the same time. A representation may be larger than its pipe,
and the source may keep a write end open until it has written everything.

What the reader has done is a function of the run (`readerLog`): its states are those of `readRounds` with the
results of `poll` in this log (`ReaderAt`). `Inv` says what the states of the system have in common: what is read,
buffered and not yet written of a pipe is its representation, and a pipe that is done is empty and closed. So one
of the two can always go on, and the reader returns everything (`transfer_completes`).
-/

namespace Mimeclip

/-! ### The system -/

structure Representation where
  mime : String
  data : Bytes
  -- the capacity of the pipe
  capacity : Nat
  capacity_pos : 0 < capacity
  -- the write end stays open when the representation is written
  keepsOpen : Bool

/-- A pipe with its two ends. -/
structure Channel where
  unwritten : Bytes
  writeOpen : Bool
  keepsOpen : Bool
  buffer : Bytes
  capacity : Nat
  capacity_pos : 0 < capacity
  pipe : PayloadPipe

def Representation.channel (r : Representation) : Channel where
  unwritten := r.data
  writeOpen := true
  keepsOpen := r.keepsOpen
  buffer := []
  capacity := r.capacity
  capacity_pos := r.capacity_pos
  pipe := ⟨r.mime, [], false⟩

/-- What `poll` reports: there is something to read, or the write end is closed. -/
def Channel.Ready (c : Channel) : Prop := c.buffer ≠ [] ∨ c.writeOpen = false

/-- A `read` returns some of what is buffered, or end of file; the third argument stays in the buffer. -/
inductive Channel.Reads (c : Channel) : PipeEvent → Bytes → Prop
  | chunk {chunk : Chunk} {rest : Bytes} (h : c.buffer = chunk.bytes ++ rest) : Reads c (.chunk chunk) rest
  | eof (hempty : c.buffer = []) (hclosed : c.writeOpen = false) : Reads c .eof []

inductive ReaderPhase
  | polling
  -- the `for` loop has come to the pipe `next`
  | reading (next : Nat) (reported : Nat → Bool)
  | returned (result : Except PayloadReadError Payloads)

structure TransferState where
  channels : List Channel
  -- what the source still writes, in order
  order : List Nat
  totalSize : Nat
  phase : ReaderPhase

namespace TransferState

def pipes (s : TransferState) : List PayloadPipe := s.channels.map (·.pipe)

def start (representations : List Representation) (order : List Nat) : TransferState where
  channels := representations.map (·.channel)
  order := order
  totalSize := 0
  phase := .polling

/-- Which step is made: one of the source, or one of `read_payload_pipes`. -/
inductive Action
  | source
  | poll
  -- the `for` loop passes a pipe that is done
  | pass
  -- the `for` loop handles what it finds at a pipe, which is `idle` where `poll` has reported nothing
  | handle (e : PipeEvent)
  -- what is read does not fit the limit
  | reject (e : PipeEvent)
  | round
  | finish

inductive Step (maxPayloadBytes : Nat) : TransferState → Action → TransferState → Prop
  | write {s : TransferState} {order : List Nat} {before after : List Channel} {c : Channel} {chunk rest : Bytes}
      (horder : s.order = before.length :: order) (hchannels : s.channels = before ++ c :: after)
      (hunwritten : c.unwritten = chunk ++ rest) (hne : chunk ≠ [])
      (hroom : c.buffer.length + chunk.length ≤ c.capacity) :
      Step maxPayloadBytes s .source
        { s with channels := before ++ { c with unwritten := rest, buffer := c.buffer ++ chunk } :: after }
  | written {s : TransferState} {order : List Nat} {before after : List Channel} {c : Channel}
      (horder : s.order = before.length :: order) (hchannels : s.channels = before ++ c :: after)
      (hwritten : c.unwritten = []) :
      Step maxPayloadBytes s .source
        { s with channels := before ++ { c with writeOpen := c.keepsOpen } :: after, order }
  | close {s : TransferState} {before after : List Channel} {c : Channel} (horder : s.order = [])
      (hchannels : s.channels = before ++ c :: after) (hopen : c.writeOpen = true) :
      Step maxPayloadBytes s .source { s with channels := before ++ { c with writeOpen := false } :: after }
  | poll {s : TransferState} {reported : Nat → Bool} (hphase : s.phase = .polling)
      (hreported : ∀ i, reported i = true → ∃ c, s.channels[i]? = some c ∧ c.pipe.done = false ∧ c.Ready)
      (hsome : ∃ i, reported i = true) :
      Step maxPayloadBytes s .poll { s with phase := .reading 0 reported }
  | pass {s : TransferState} {reported : Nat → Bool} {before after : List Channel} {c : Channel}
      (hphase : s.phase = .reading before.length reported) (hchannels : s.channels = before ++ c :: after)
      (hdone : c.pipe.done = true) :
      Step maxPayloadBytes s .pass { s with phase := .reading (before.length + 1) reported }
  | idle {s : TransferState} {reported : Nat → Bool} {before after : List Channel} {c : Channel}
      (hphase : s.phase = .reading before.length reported) (hchannels : s.channels = before ++ c :: after)
      (hactive : c.pipe.done = false) (hreported : reported before.length = false) :
      Step maxPayloadBytes s (.handle .idle) { s with phase := .reading (before.length + 1) reported }
  | read {s : TransferState} {reported : Nat → Bool} {before after : List Channel} {c : Channel} {e : PipeEvent}
      {buffer : Bytes} {pipe : PayloadPipe} {totalSize : Nat}
      (hphase : s.phase = .reading before.length reported) (hchannels : s.channels = before ++ c :: after)
      (hactive : c.pipe.done = false) (hreported : reported before.length = true) (hreads : c.Reads e buffer)
      (hhandle : c.pipe.handle maxPayloadBytes s.totalSize e = .ok (pipe, totalSize)) :
      Step maxPayloadBytes s (.handle e)
        { s with channels := before ++ { c with buffer, pipe } :: after, totalSize
                 phase := .reading (before.length + 1) reported }
  | reject {s : TransferState} {reported : Nat → Bool} {before after : List Channel} {c : Channel} {e : PipeEvent}
      {buffer : Bytes} {error : PayloadReadError} (hphase : s.phase = .reading before.length reported)
      (hchannels : s.channels = before ++ c :: after) (hactive : c.pipe.done = false)
      (hreported : reported before.length = true) (hreads : c.Reads e buffer)
      (hhandle : c.pipe.handle maxPayloadBytes s.totalSize e = .error error) :
      Step maxPayloadBytes s (.reject e) { s with phase := .returned (.error error) }
  | round {s : TransferState} {reported : Nat → Bool} (hphase : s.phase = .reading s.channels.length reported) :
      Step maxPayloadBytes s .round { s with phase := .polling }
  | finish {s : TransferState} (hphase : s.phase = .polling) (hdone : s.pipes.all (·.done) = true) :
      Step maxPayloadBytes s .finish { s with phase := .returned (.ok (payloadsOf s.pipes)) }

end TransferState

/-! ### What the reader has done -/

/-- The results of `poll` in the rounds that are over, and the events of the round in progress. -/
structure ReaderLog where
  polls : List PollResult
  events : List PipeEvent

namespace ReaderLog
open TransferState

def add (log : ReaderLog) : Action → ReaderLog
  | .source | .poll | .pass | .finish => log
  | .handle e => { log with events := log.events ++ [e] }
  | .reject e => ⟨log.polls ++ [.ready (log.events ++ [e])], []⟩
  | .round => ⟨log.polls ++ [.ready log.events], []⟩

end ReaderLog

def readerLog (actions : List TransferState.Action) : ReaderLog := actions.foldl ReaderLog.add ⟨[], []⟩

theorem readerLog_snoc (actions : List TransferState.Action) (a : TransferState.Action) :
    readerLog (actions ++ [a]) = (readerLog actions).add a := by
  rw [readerLog, List.foldl_append]; rfl

/-! ### Rounds in progress -/

/-- The `for` loop goes through the pipes in order. -/
theorem readReady_append {limit total : Nat} {pipes pipes' : List PayloadPipe} {events events' : List PipeEvent}
    (h : events.length = activeCount pipes) :
    readReady limit (pipes ++ pipes') (events ++ events') total = (do
      let (handled, total) ← readReady limit pipes events total
      let (handled', total) ← readReady limit pipes' events' total
      pure (handled ++ handled', total)) := by
  induction pipes generalizing events total with
  | nil =>
    obtain rfl := List.length_eq_zero_iff.1 h
    exact (bind_pure _).symm
  | cons pipe pipes ih =>
    rw [List.cons_append, readReady, readReady]
    cases hdone : pipe.done with
    | true =>
      have hcount : events.length = activeCount pipes := by simpa [activeCount, hdone] using h
      simp only [↓reduceIte, ih hcount, bind_assoc, pure_bind, List.cons_append]
    | false =>
      cases events with
      | nil => simp [activeCount, hdone] at h
      | cons e events =>
        have hcount : events.length = activeCount pipes := by simpa [activeCount, hdone] using h
        simp only [Bool.false_eq_true, ↓reduceIte, List.cons_append, List.headD_cons, List.tail_cons, ih hcount,
          bind_assoc, pure_bind]

section
variable {limit total total₀ : Nat} {old handled : List PayloadPipe} {pipe : PayloadPipe} {events : List PipeEvent}
  (hcount : events.length = activeCount old) (hround : readReady limit old events total₀ = .ok (handled, total))
include hcount hround

theorem readReady_snoc_done (hdone : pipe.done = true) :
    readReady limit (old ++ [pipe]) events total₀ = .ok (handled ++ [pipe], total) := by
  rw [← List.append_nil events, readReady_append hcount, hround]
  show (readReady limit [pipe] [] total >>= _) = _
  rw [readReady, if_pos hdone]; rfl

theorem readReady_snoc {e : PipeEvent} {pipe' : PayloadPipe} {total' : Nat} (hdone : pipe.done = false)
    (hhandle : pipe.handle limit total e = .ok (pipe', total')) :
    readReady limit (old ++ [pipe]) (events ++ [e]) total₀ = .ok (handled ++ [pipe'], total') := by
  rw [readReady_append hcount, hround]
  show (readReady limit [pipe] [e] total >>= _) = _
  rw [readReady, hdone, if_neg Bool.false_ne_true, List.headD_cons, hhandle]; rfl

end

theorem activeCount_snoc (pipes : List PayloadPipe) (pipe : PayloadPipe) :
    activeCount (pipes ++ [pipe]) = activeCount pipes + if pipe.done then 0 else 1 := by
  cases h : pipe.done <;> simp [activeCount, h]

/-- The reader is between two rounds, in a round, or has returned, and `log` is what it has done. -/
inductive ReaderAt (limit : Nat) (mimeTypes : List String) (log : ReaderLog) :
    List PayloadPipe → Nat → ReaderPhase → Prop
  | polling {pipes : List PayloadPipe} {total : Nat} (hquiet : ∀ poll ∈ log.polls, poll.Quiet)
      (hevents : log.events = []) (hrounds : readRounds limit log.polls (newPipes mimeTypes) 0 = .ok (pipes, total)) :
      ReaderAt limit mimeTypes log pipes total .polling
  | reading {old handled rest : List PayloadPipe} {total₀ total : Nat} {reported : Nat → Bool}
      (hquiet : ∀ poll ∈ log.polls, poll.Quiet)
      (hrounds : readRounds limit log.polls (newPipes mimeTypes) 0 = .ok (old ++ rest, total₀))
      (hcount : log.events.length = activeCount old)
      (hround : readReady limit old log.events total₀ = .ok (handled, total)) :
      ReaderAt limit mimeTypes log (handled ++ rest) total (.reading handled.length reported)
  | returned {pipes : List PayloadPipe} {total : Nat} {result : Except PayloadReadError Payloads}
      (hresult : ∀ idleTimeout, readPayloadPipes limit idleTimeout log.polls mimeTypes = some result) :
      ReaderAt limit mimeTypes log pipes total (.returned result)

theorem readRounds_snoc {limit total : Nat} {polls : List PollResult} {pipes pipes' : List PayloadPipe} {total' : Nat}
    (h : readRounds limit polls pipes total = .ok (pipes', total')) (events : List PipeEvent) :
    readRounds limit (polls ++ [.ready events]) pipes total = readReady limit pipes' events total' := by
  induction polls generalizing pipes total with
  | nil =>
    cases h
    exact bind_pure _
  | cons poll polls ih =>
    cases poll with
    | interrupted | failed | timedOut => exact ih h
    | ready events' =>
      obtain ⟨⟨pipes₁, total₁⟩, hr, h⟩ := Except.bind_ok.1 h
      rw [List.cons_append, readRounds, hr]
      exact ih h

theorem forall_quiet_snoc {polls : List PollResult} (h : ∀ poll ∈ polls, poll.Quiet) (events : List PipeEvent) :
    ∀ poll ∈ polls ++ [.ready events], PollResult.Quiet poll := by
  intro poll hpoll
  rcases List.mem_append.1 hpoll with hpoll | hpoll
  · exact h poll hpoll
  · rw [List.mem_singleton.1 hpoll]; trivial

namespace ReaderAt
open TransferState
variable {limit total : Nat} {mimeTypes : List String} {log : ReaderLog} {before after : List PayloadPipe}
  {pipe : PayloadPipe} {reported : Nat → Bool}

theorem split (h : ReaderAt limit mimeTypes log (before ++ after) total (.reading before.length reported)) :
    (∀ poll ∈ log.polls, PollResult.Quiet poll) ∧
      ∃ old total₀, readRounds limit log.polls (newPipes mimeTypes) 0 = .ok (old ++ after, total₀) ∧
        log.events.length = activeCount old ∧ readReady limit old log.events total₀ = .ok (before, total) := by
  generalize hpipes : before ++ after = pipes at h
  generalize hphase : ReaderPhase.reading before.length reported = phase at h
  cases h with
  | polling | returned => cases hphase
  | reading hquiet hrounds hcount hround =>
    injection hphase with hlength _
    obtain ⟨rfl, rfl⟩ := List.append_inj hpipes hlength
    exact ⟨hquiet, _, _, hrounds, hcount, hround⟩

theorem poll (h : ReaderAt limit mimeTypes log before total .polling) :
    ReaderAt limit mimeTypes log before total (.reading 0 reported) := by
  cases h with
  | polling hquiet hevents hrounds =>
    have hrounds : readRounds limit log.polls (newPipes mimeTypes) 0 = .ok ([] ++ before, total) := hrounds
    have hcount : log.events.length = activeCount [] := by rw [hevents]; rfl
    have hround : readReady limit [] log.events total = .ok ([], total) := rfl
    exact .reading hquiet hrounds hcount hround

/-- The `for` loop goes on to the next pipe. -/
theorem pass (h : ReaderAt limit mimeTypes log (before ++ pipe :: after) total (.reading before.length reported))
    (hdone : pipe.done = true) :
    ReaderAt limit mimeTypes log (before ++ pipe :: after) total (.reading (before.length + 1) reported) := by
  obtain ⟨hquiet, old, total₀, hrounds, hcount, hround⟩ := h.split
  rw [List.append_cons] at hrounds ⊢
  have hlength : before.length + 1 = (before ++ [pipe]).length := by simp
  rw [hlength]
  refine .reading hquiet hrounds ?_ (readReady_snoc_done hcount hround hdone)
  rw [hcount, activeCount_snoc, hdone]; rfl

section
variable (h : ReaderAt limit mimeTypes log (before ++ pipe :: after) total (.reading before.length reported))
  (hactive : pipe.done = false) {e : PipeEvent}
include h hactive

theorem handle {pipe' : PayloadPipe} {total' : Nat} (hhandle : pipe.handle limit total e = .ok (pipe', total')) :
    ReaderAt limit mimeTypes (log.add (.handle e)) (before ++ pipe' :: after) total'
      (.reading (before.length + 1) reported) := by
  obtain ⟨hquiet, old, total₀, hrounds, hcount, hround⟩ := h.split
  rw [List.append_cons] at hrounds ⊢
  have hlength : before.length + 1 = (before ++ [pipe']).length := by simp
  rw [hlength]
  refine .reading hquiet hrounds ?_ (readReady_snoc hcount hround hactive hhandle)
  show (log.events ++ [e]).length = _
  rw [List.length_append, hcount, activeCount_snoc, hactive]; rfl

theorem reject {error : PayloadReadError} (hhandle : pipe.handle limit total e = .error error)
    {pipes : List PayloadPipe} {total' : Nat} :
    ReaderAt limit mimeTypes (log.add (.reject e)) pipes total' (.returned (.error error)) := by
  obtain ⟨hquiet, old, total₀, hrounds, hcount, hround⟩ := h.split
  have hrejected : readReady limit (old ++ pipe :: after) (log.events ++ [e]) total₀ = .error error := by
    rw [readReady_append hcount, hround]
    show (readReady limit (pipe :: after) [e] total >>= _) = _
    rw [readReady, hactive, if_neg Bool.false_ne_true, List.headD_cons, hhandle]; rfl
  refine .returned fun idleTimeout => ?_
  show readPayloadPipes limit idleTimeout (log.polls ++ [.ready (log.events ++ [e])]) mimeTypes = _
  rw [readPayloadPipes, readLoop_eq (forall_quiet_snoc hquiet _), readRounds_snoc hrounds, hrejected]; rfl

end

theorem round (h : ReaderAt limit mimeTypes log before total (.reading before.length reported)) :
    ReaderAt limit mimeTypes (log.add .round) before total .polling := by
  have h' : ReaderAt limit mimeTypes log (before ++ []) total (.reading before.length reported) := by
    rwa [List.append_nil]
  obtain ⟨hquiet, old, total₀, hrounds, hcount, hround⟩ := h'.split
  rw [List.append_nil] at hrounds
  exact .polling (forall_quiet_snoc hquiet _) rfl ((readRounds_snoc hrounds _).trans hround)

theorem finish (h : ReaderAt limit mimeTypes log before total .polling) (hdone : before.all (·.done) = true) :
    ReaderAt limit mimeTypes log before total (.returned (.ok (payloadsOf before))) := by
  cases h with
  | polling hquiet _ hrounds =>
    refine .returned fun idleTimeout => ?_
    rw [readPayloadPipes, readLoop_eq hquiet, hrounds]
    simp only [hdone, ↓reduceIte]; rfl

theorem next_le {pipes : List PayloadPipe} {next : Nat}
    (h : ReaderAt limit mimeTypes log pipes total (.reading next reported)) : next ≤ pipes.length := by
  cases h with
  | reading => simp

theorem result {pipes : List PayloadPipe} {result : Except PayloadReadError Payloads}
    (h : ReaderAt limit mimeTypes log pipes total (.returned result)) :
    ∀ idleTimeout, readPayloadPipes limit idleTimeout log.polls mimeTypes = some result := by
  cases h with
  | returned hresult => exact hresult

theorem step {s t : TransferState} {action : Action}
    (h : ReaderAt limit mimeTypes log s.pipes s.totalSize s.phase) (hstep : Step limit s action t) :
    ReaderAt limit mimeTypes (log.add action) t.pipes t.totalSize t.phase := by
  have hmiddle {before after : List Channel} {c : Channel} (hchannels : s.channels = before ++ c :: after) :
      s.pipes = before.map (·.pipe) ++ c.pipe :: after.map (·.pipe) := by simp [pipes, hchannels]
  have hlength (before : List Channel) : before.length = (before.map (·.pipe)).length := by simp
  cases hstep with
  | write _ hchannels | written _ hchannels | close _ hchannels =>
    rw [hmiddle hchannels] at h
    simp only [pipes, List.map_append, List.map_cons]
    exact h
  | poll hphase =>
    rw [hphase] at h
    exact h.poll
  | pass hphase hchannels hdone =>
    rw [hphase, hmiddle hchannels, hlength] at h
    show ReaderAt limit mimeTypes log s.pipes s.totalSize (.reading _ _)
    rw [hmiddle hchannels, hlength]
    exact h.pass hdone
  | idle hphase hchannels hactive =>
    rw [hphase, hmiddle hchannels, hlength] at h
    show ReaderAt limit mimeTypes _ s.pipes s.totalSize (.reading _ _)
    rw [hmiddle hchannels, hlength]
    exact h.handle hactive rfl
  | read hphase hchannels hactive _ _ hhandle =>
    rw [hphase, hmiddle hchannels, hlength] at h
    simp only [pipes, List.map_append, List.map_cons]
    rw [hlength]
    exact h.handle hactive hhandle
  | reject hphase hchannels hactive _ _ hhandle =>
    rw [hphase, hmiddle hchannels, hlength] at h
    exact h.reject hactive hhandle
  | round hphase =>
    have hlength : s.channels.length = s.pipes.length := by simp [pipes]
    rw [hphase, hlength] at h
    exact h.round
  | finish hphase hdone =>
    rw [hphase] at h
    exact h.finish hdone

end ReaderAt

/-! ### The invariant -/

/-- What is read, buffered and not yet written is the representation. -/
structure Carries (c : Channel) (r : Representation) : Prop where
  mime : c.pipe.mime = r.mime
  data : c.pipe.data ++ c.buffer ++ c.unwritten = r.data

structure Linked (order : List Nat) (i : Nat) (c : Channel) : Prop where
  unwritten : c.unwritten ≠ [] → i ∈ order
  writeOpen : i ∈ order → c.writeOpen = true
  done : c.pipe.done = true → c.buffer = [] ∧ c.writeOpen = false

theorem Linked.not_done {order : List Nat} {i : Nat} {c : Channel} (h : Linked order i c) (hi : i ∈ order) :
    c.pipe.done = false := by
  by_contra hdone
  have hclosed := (h.done (by simpa using hdone)).2
  rw [h.writeOpen hi] at hclosed
  cases hclosed

theorem Carries.pipesSize_le {channels : List Channel} {representations : List Representation}
    (h : List.Forall₂ Carries channels representations) :
    pipesSize (channels.map (·.pipe)) ≤ (representations.map (·.data.length)).sum := by
  induction h with
  | nil => exact Nat.le_refl _
  | @cons c r channels representations hc hchannels ih =>
    have hlength := congrArg List.length hc.data
    rw [List.length_append, List.length_append] at hlength
    rw [List.map_cons, pipesSize_cons, List.map_cons, List.sum_cons]
    omega

theorem Carries.payloads_eq {channels : List Channel} {representations : List Representation}
    (h : List.Forall₂ Carries channels representations) (hread : ∀ c ∈ channels, c.buffer = [] ∧ c.unwritten = []) :
    payloadsOf (channels.map (·.pipe)) =
      (representations.map fun r => (r.mime, r.data)).filter fun p => !p.2.isEmpty := by
  induction h with
  | nil => rfl
  | @cons c r channels representations hc hchannels ih =>
    obtain ⟨⟨hbuffer, hunwritten⟩, htail⟩ := List.forall_mem_cons.1 hread
    have hdata := hc.data
    rw [hbuffer, hunwritten, List.append_nil, List.append_nil] at hdata
    rw [List.map_cons, payloadsOf, List.filterMap_cons, ← payloadsOf, ih htail, List.map_cons, List.filter_cons, hdata,
      hc.mime]
    by_cases hempty : r.data.isEmpty = true
    · simp [hempty]
    · simp [hempty]

theorem forall₂_middle {α β : Type} {R : α → β → Prop} {before after : List α} {c c' : α} {l : List β}
    (h : List.Forall₂ R (before ++ c :: after) l) (hR : ∀ r, R c r → R c' r) :
    List.Forall₂ R (before ++ c' :: after) l := by
  induction before generalizing l with
  | nil =>
    cases h with
    | cons hc hafter => exact .cons (hR _ hc) hafter
  | cons b before ih =>
    cases h with
    | cons hb hrest => exact .cons hb (ih hrest)

theorem getElem?_middle {α : Type} {before after : List α} {c' d : α} (c : α) {i : Nat}
    (h : (before ++ c' :: after)[i]? = some d) :
    i = before.length ∧ d = c' ∨ i ≠ before.length ∧ (before ++ c :: after)[i]? = some d := by
  rcases lt_trichotomy i before.length with hi | rfl | hi
  · rw [List.getElem?_append_left hi] at h ⊢
    exact .inr ⟨hi.ne, h⟩
  · rw [List.getElem?_append_right le_rfl, Nat.sub_self, List.getElem?_cons_zero] at h
    exact .inl ⟨rfl, (Option.some.inj h).symm⟩
  · obtain ⟨k, rfl⟩ := Nat.exists_eq_add_of_lt hi
    rw [List.getElem?_append_right hi.le] at h ⊢
    have hk : before.length + k + 1 - before.length = k + 1 := by omega
    rw [hk, List.getElem?_cons_succ] at h ⊢
    exact .inr ⟨hi.ne', h⟩

theorem exists_middle {α : Type} {l : List α} {i : Nat} {c : α} (h : l[i]? = some c) :
    ∃ before after, l = before ++ c :: after ∧ before.length = i := by
  obtain ⟨hi, rfl⟩ := List.getElem?_eq_some_iff.1 h
  refine ⟨l.take i, l.drop (i + 1), ?_, by simp [hi.le]⟩
  rw [List.getElem_cons_drop, List.take_append_drop]

theorem Channel.Ready.reads {c : Channel} (h : c.Ready) : ∃ e buffer, c.Reads e buffer := by
  cases hbuffer : c.buffer with
  | nil => exact ⟨.eof, [], .eof hbuffer (h.resolve_left (by simp [hbuffer]))⟩
  | cons b rest =>
    have hle : [b].length ≤ readChunkBytes := Nat.le_of_ble_eq_true rfl
    exact ⟨.chunk ⟨[b], by simp, hle⟩, rest, .chunk hbuffer⟩

theorem Channel.Reads.handled {c : Channel} {e : PipeEvent} {buffer : Bytes} {pipe : PayloadPipe} {total total' : Nat}
    (h : c.Reads e buffer) (hactive : c.pipe.done = false)
    (hhandle : c.pipe.handle limit total e = .ok (pipe, total')) :
    pipe.mime = c.pipe.mime ∧ pipe.data ++ buffer = c.pipe.data ++ c.buffer ∧
      (pipe.done = true → buffer = [] ∧ c.writeOpen = false) := by
  cases h with
  | @chunk chunk _ hbuffer =>
    rw [PayloadPipe.handle] at hhandle
    split_ifs at hhandle
    cases hhandle
    refine ⟨rfl, by rw [hbuffer, List.append_assoc], fun hdone => ?_⟩
    rw [hactive] at hdone
    cases hdone
  | eof hempty hclosed =>
    cases hhandle
    exact ⟨rfl, by rw [hempty], fun _ => ⟨rfl, hclosed⟩⟩

namespace TransferState

structure Inv (limit : Nat) (representations : List Representation) (s : TransferState) : Prop where
  content : List.Forall₂ Carries s.channels representations
  linked : ∀ i c, s.channels[i]? = some c → Linked s.order i c
  nodup : s.order.Nodup
  valid : ∀ i ∈ s.order, i < s.channels.length
  total : s.totalSize = pipesSize s.pipes
  reported : ∀ next reported, s.phase = .reading next reported →
    ∀ i c, next ≤ i → reported i = true → s.channels[i]? = some c → c.Ready
  returned : ∀ result, s.phase = .returned result →
    s.pipes.all (·.done) = true ∧ result = .ok (payloadsOf s.pipes)

variable {limit : Nat} {representations : List Representation} {order : List Nat} {s t : TransferState}
  {action : Action}

/-- Whatever the source does, the reader goes through the rounds of its log. -/
theorem readerAt_of_run {actions : List Action} (hrun : Run (Step limit) (start representations order) actions s) :
    ReaderAt limit (representations.map (·.mime)) (readerLog actions) s.pipes s.totalSize s.phase := by
  have hpipes : (start representations order).pipes = newPipes (representations.map (·.mime)) := by
    simp [start, pipes, newPipes, Representation.channel, Function.comp_def]
  have hstart : ReaderAt limit (representations.map (·.mime)) (readerLog []) (start representations order).pipes 0
      .polling := by
    rw [hpipes]
    exact .polling (fun _ h => absurd h List.not_mem_nil) rfl rfl
  refine hrun.history
    (I := fun actions s =>
      ReaderAt limit (representations.map (·.mime)) (readerLog actions) s.pipes s.totalSize s.phase) ?_ hstart
  intro actions s action t h hstep
  rw [readerLog_snoc]
  exact h.step hstep

theorem Inv.start (horder : order.Perm (List.range representations.length)) :
    Inv limit representations (start representations order) where
  content := by
    rw [TransferState.start]
    clear horder
    induction representations with
    | nil => exact .nil
    | cons r representations ih => exact .cons ⟨rfl, by simp [Representation.channel]⟩ ih
  linked i c hc := by
    rw [TransferState.start, List.getElem?_map] at hc
    obtain ⟨r, hr, rfl⟩ := Option.map_eq_some_iff.1 hc
    have hi : i < representations.length := (List.getElem?_eq_some_iff.1 hr).1
    exact ⟨fun _ => horder.symm.subset (List.mem_range.2 hi), fun _ => rfl, nofun⟩
  nodup := horder.nodup_iff.2 List.nodup_range
  valid i hi := by simpa [TransferState.start] using horder.subset hi
  total := by simp [TransferState.start, pipes, pipesSize, Representation.channel, Function.comp_def]
  reported _ _ h := by cases h
  returned _ h := by cases h

/-- A step of the source changes one channel and takes representations off the order. -/
theorem Inv.replace (h : Inv limit representations s) {before after : List Channel} {c c' : Channel} {order : List Nat}
    (hchannels : s.channels = before ++ c :: after) (hpipe : c'.pipe = c.pipe)
    (hcarries : ∀ r, Carries c r → Carries c' r) (hready : c.Ready → c'.Ready)
    (hlinked : Linked order before.length c') (horder : order.Sublist s.order)
    (hothers : ∀ i ∈ s.order, i ≠ before.length → i ∈ order) :
    Inv limit representations { s with channels := before ++ c' :: after, order } := by
  have hpipes : pipes { s with channels := before ++ c' :: after, order } = s.pipes := by
    simp [pipes, hchannels, hpipe]
  have hold : ∀ {i d}, (before ++ c' :: after)[i]? = some d →
      i = before.length ∧ d = c' ∨ i ≠ before.length ∧ s.channels[i]? = some d :=
    fun hd => hchannels ▸ getElem?_middle c hd
  refine ⟨forall₂_middle (hchannels ▸ h.content) hcarries, fun i d hd => ?_, h.nodup.sublist horder, fun i hi => ?_,
    by rw [hpipes]; exact h.total, fun next reported hphase i d hnext hrep hd => ?_,
    fun result hphase => by rw [hpipes]; exact h.returned result hphase⟩
  · rcases hold hd with ⟨rfl, rfl⟩ | ⟨hne, hd⟩
    · exact hlinked
    · obtain ⟨hunwritten, hopen, hdone⟩ := h.linked i d hd
      exact ⟨fun hu => hothers i (hunwritten hu) hne, fun hi => hopen (horder.subset hi), hdone⟩
  · have := h.valid i (horder.subset hi)
    simpa [hchannels] using this
  · have hrest := h.reported next reported hphase i
    rcases hold hd with ⟨rfl, rfl⟩ | ⟨-, hd⟩
    · exact hready (hrest c hnext hrep (by simp [hchannels]))
    · exact hrest d hnext hrep hd

theorem Inv.linked_middle (h : Inv limit representations s) {before after : List Channel} {c : Channel}
    (hchannels : s.channels = before ++ c :: after) : Linked s.order before.length c :=
  h.linked _ c (by simp [hchannels])

/-- The reader goes on to the next pipe of its round. -/
theorem Inv.next (h : Inv limit representations s) {before after : List Channel} {c c' : Channel} {total : Nat}
    {reported : Nat → Bool} (hphase : s.phase = .reading before.length reported)
    (hchannels : s.channels = before ++ c :: after)
    (hcarries : ∀ r, Carries c r → Carries c' r) (hlinked : Linked s.order before.length c')
    (htotal : total + c.pipe.data.length = s.totalSize + c'.pipe.data.length) :
    Inv limit representations
      { s with
        channels := before ++ c' :: after, totalSize := total, phase := .reading (before.length + 1) reported } := by
  have hold : ∀ {i d}, (before ++ c' :: after)[i]? = some d →
      i = before.length ∧ d = c' ∨ i ≠ before.length ∧ s.channels[i]? = some d :=
    fun hd => hchannels ▸ getElem?_middle c hd
  have hsum := h.total
  rw [pipes, hchannels, List.map_append, List.map_cons, pipesSize_append, pipesSize_cons] at hsum
  refine ⟨forall₂_middle (hchannels ▸ h.content) hcarries, fun i d hd => ?_, h.nodup, fun i hi => ?_, ?_, ?_, nofun⟩
  · rcases hold hd with ⟨rfl, rfl⟩ | ⟨-, hd⟩
    · exact hlinked
    · exact h.linked i d hd
  · have := h.valid i hi
    simpa [hchannels] using this
  · show total = pipesSize ((before ++ c' :: after).map (·.pipe))
    rw [List.map_append, List.map_cons, pipesSize_append, pipesSize_cons]
    omega
  · rintro _ _ ⟨⟩ i d hnext hrep hd
    rcases hold hd with ⟨rfl, -⟩ | ⟨-, hd⟩
    · omega
    · exact h.reported _ _ hphase i d (by omega) hrep hd

theorem Inv.skip (h : Inv limit representations s) {next : Nat} {reported : Nat → Bool}
    (hphase : s.phase = .reading next reported) :
    Inv limit representations { s with phase := .reading (next + 1) reported } := by
  refine { h with reported := ?_, returned := nofun }
  rintro _ _ ⟨⟩ i c hnext hrep hc
  exact h.reported next reported hphase i c (by omega) hrep hc

theorem Inv.not_rejected (h : Inv limit representations s)
    (hsize : (representations.map (·.data.length)).sum ≤ limit) {before after : List Channel} {c : Channel}
    (hchannels : s.channels = before ++ c :: after) {e : PipeEvent} {buffer : Bytes} (hreads : c.Reads e buffer)
    {error : PayloadReadError} : c.pipe.handle limit s.totalSize e ≠ .error error := by
  intro hhandle
  cases hreads with
  | eof => cases hhandle
  | @chunk chunk _ hbuffer =>
    rw [PayloadPipe.handle] at hhandle
    split_ifs at hhandle with hlarge
    -- after the read the pipes would still carry no more than the representations
    have hold : List.Forall₂ Carries (before ++ c :: after) representations := hchannels ▸ h.content
    have hcarries : ∀ r, Carries c r →
        Carries { c with buffer, pipe := { c.pipe with data := c.pipe.data ++ chunk.bytes } } r := by
      refine fun r hr => ⟨hr.mime, ?_⟩
      rw [← hr.data, hbuffer]
      simp only [List.append_assoc]
    have hcontent := forall₂_middle hold hcarries
    have hle := Carries.pipesSize_le hcontent
    have htotal := h.total
    rw [pipes, hchannels, List.map_append, List.map_cons, pipesSize_append, pipesSize_cons] at htotal
    rw [List.map_append, List.map_cons, pipesSize_append, pipesSize_cons, List.length_append] at hle
    omega

theorem Inv.step (h : Inv limit representations s) (hsize : (representations.map (·.data.length)).sum ≤ limit)
    (hstep : Step limit s action t) : Inv limit representations t := by
  cases hstep with
  | @write order before after c chunk rest horder hchannels hunwritten hne hroom =>
    have hc := h.linked_middle hchannels
    have hmem : before.length ∈ s.order := by simp [horder]
    refine h.replace hchannels rfl (fun r hr => ⟨hr.mime, ?_⟩) (fun _ => .inl (by simp [hne]))
      ⟨fun _ => hmem, hc.writeOpen, fun hdone => ?_⟩ (List.Sublist.refl _) fun i hi _ => hi
    · rw [← hr.data, hunwritten]
      simp only [List.append_assoc]
    · rw [hc.not_done hmem] at hdone
      cases hdone
  | @written order before after c horder hchannels hwritten =>
    have hc := h.linked_middle hchannels
    have hmem : before.length ∈ s.order := by simp [horder]
    have hnodup := h.nodup
    rw [horder, List.nodup_cons] at hnodup
    refine h.replace hchannels rfl (fun r hr => ⟨hr.mime, hr.data⟩) (fun hready => ?_)
      ⟨fun hne => absurd hwritten hne, fun hmem' => absurd hmem' hnodup.1, fun hdone => ?_⟩ ?_ fun i hi hne => ?_
    · refine hready.imp id fun hclosed => ?_
      rw [hc.writeOpen hmem] at hclosed
      cases hclosed
    · rw [hc.not_done hmem] at hdone
      cases hdone
    · rw [horder]
      exact List.sublist_cons_self ..
    · rw [horder] at hi
      exact (List.mem_cons.1 hi).resolve_left hne
  | @close before after c horder hchannels hopen =>
    have hc := h.linked_middle hchannels
    have hnone : ∀ i, i ∉ s.order := by simp [horder]
    exact h.replace hchannels rfl (fun r hr => ⟨hr.mime, hr.data⟩) (fun _ => .inr rfl)
      ⟨hc.unwritten, fun hmem => absurd hmem (hnone _), fun hdone => ⟨(hc.done hdone).1, rfl⟩⟩
      (List.Sublist.refl _) fun i hi _ => hi
  | @poll reported hphase hreported hsome =>
    refine { h with reported := ?_, returned := nofun }
    rintro _ _ ⟨⟩ i c - hrep hc
    obtain ⟨c', hc', -, hready⟩ := hreported i hrep
    rw [hc] at hc'
    cases hc'
    exact hready
  | pass hphase hchannels | idle hphase hchannels => exact h.skip hphase
  | @read reported before after c e buffer pipe totalSize hphase hchannels hactive hreported hreads hhandle =>
    have hc := h.linked_middle hchannels
    have htotal : s.totalSize ≤ limit := h.total ▸ (Carries.pipesSize_le h.content).trans hsize
    obtain ⟨hmime, hdata, hdone⟩ := hreads.handled hactive hhandle
    refine h.next hphase hchannels (fun r hr => ⟨hmime.trans hr.mime, ?_⟩)
      ⟨hc.unwritten, hc.writeOpen, hdone⟩ (handle_ok hhandle htotal).2.2
    rw [hdata]
    exact hr.data
  | @reject reported before after c e buffer error hphase hchannels hactive hreported hreads hhandle =>
    exact absurd hhandle (h.not_rejected hsize hchannels hreads)
  | round hphase => exact { h with reported := nofun, returned := nofun }
  | finish hphase hdone =>
    refine { h with reported := nofun, returned := ?_ }
    rintro _ ⟨⟩
    exact ⟨hdone, rfl⟩

/-! ### Progress -/

theorem poll_progress (hphase : s.phase = .polling) {i : Nat} {c : Channel} (hc : s.channels[i]? = some c)
    (hactive : c.pipe.done = false) (hready : c.Ready) : ∃ t, Step limit s .poll t := by
  have hreported : ∀ j, decide (j = i) = true → ∃ c, s.channels[j]? = some c ∧ c.pipe.done = false ∧ c.Ready := by
    intro j hj
    obtain rfl := of_decide_eq_true hj
    exact ⟨c, hc, hactive, hready⟩
  exact ⟨_, .poll hphase hreported ⟨i, by simp⟩⟩

section
variable (h : Inv limit representations s)
include h

/-- In a round the reader never waits: what `poll` has reported is still there. -/
theorem Inv.reader_progress {next : Nat} {reported : Nat → Bool} (hphase : s.phase = .reading next reported)
    (hle : next ≤ s.channels.length) : ∃ action t, Step limit s action t := by
  rcases hle.lt_or_eq with hlt | rfl
  · obtain ⟨before, after, hchannels, rfl⟩ := exists_middle (List.getElem?_eq_getElem hlt)
    generalize s.channels[before.length] = c at hchannels
    cases hdone : c.pipe.done with
    | true => exact ⟨_, _, .pass hphase hchannels hdone⟩
    | false =>
      cases hrep : reported before.length with
      | false => exact ⟨_, _, .idle hphase hchannels hdone hrep⟩
      | true =>
        have hready := h.reported _ _ hphase _ c le_rfl hrep (by simp [hchannels])
        obtain ⟨e, buffer, hreads⟩ := hready.reads
        cases hhandle : c.pipe.handle limit s.totalSize e with
        | error error => exact ⟨_, _, .reject hphase hchannels hdone hrep hreads hhandle⟩
        | ok out => exact ⟨_, _, .read hphase hchannels hdone hrep hreads hhandle⟩
  · exact ⟨_, _, .round hphase⟩

/-- While the reader waits, the source can go on, or has filled a pipe, or has closed them all. -/
theorem Inv.progress (hnext : ∀ next reported, s.phase = .reading next reported → next ≤ s.channels.length)
    (hnot : ∀ result, s.phase ≠ .returned result) : ∃ action t, Step limit s action t := by
  cases hphase : s.phase with
  | returned result => exact absurd hphase (hnot result)
  | reading next reported => exact h.reader_progress hphase (hnext next reported hphase)
  | polling =>
    by_cases hdone : s.pipes.all (·.done) = true
    · exact ⟨_, _, .finish hphase hdone⟩
    cases horder : s.order with
    | cons i order =>
      have hi : i < s.channels.length := h.valid i (by simp [horder])
      have hc : s.channels[i]? = some s.channels[i] := List.getElem?_eq_getElem hi
      generalize s.channels[i] = c at hc
      obtain ⟨before, after, hchannels, rfl⟩ := exists_middle hc
      cases hunwritten : c.unwritten with
      | nil => exact ⟨_, _, .written horder hchannels hunwritten⟩
      | cons b rest =>
        by_cases hbuffer : c.buffer = []
        · have hroom : c.buffer.length + [b].length ≤ c.capacity := by
            rw [hbuffer]
            exact c.capacity_pos
          exact ⟨_, _, .write horder hchannels hunwritten (List.cons_ne_nil b []) hroom⟩
        · have hactive := (h.linked _ c hc).not_done (by simp [horder])
          obtain ⟨t, ht⟩ := poll_progress hphase hc hactive (.inl hbuffer)
          exact ⟨_, t, ht⟩
    | nil =>
      have hexists : ∃ c ∈ s.channels, c.pipe.done = false := by
        simpa [pipes] using hdone
      obtain ⟨c, hmem, hactive⟩ := hexists
      obtain ⟨before, after, hchannels⟩ := List.append_of_mem hmem
      cases hopen : c.writeOpen with
      | true => exact ⟨_, _, .close horder hchannels hopen⟩
      | false =>
        obtain ⟨t, ht⟩ := poll_progress hphase (i := before.length) (by simp [hchannels]) hactive (.inr hopen)
        exact ⟨_, t, ht⟩

theorem Inv.finished {result : Except PayloadReadError Payloads} (hphase : s.phase = .returned result) :
    s.order = [] ∧ (∀ c ∈ s.channels, c.writeOpen = false) ∧
      result = .ok ((representations.map fun r => (r.mime, r.data)).filter fun p => !p.2.isEmpty) := by
  obtain ⟨hdone, rfl⟩ := h.returned result hphase
  have hchannel : ∀ c ∈ s.channels, c.pipe.done = true := by
    simpa [pipes] using hdone
  have hclosed : ∀ c ∈ s.channels, c.writeOpen = false := by
    intro c hc
    obtain ⟨i, hi⟩ := List.mem_iff_getElem?.1 hc
    exact ((h.linked i c hi).done (hchannel c hc)).2
  have horder : s.order = [] := by
    refine List.eq_nil_iff_forall_not_mem.2 fun i hi => ?_
    obtain ⟨c, hc⟩ : ∃ c, s.channels[i]? = some c := ⟨_, List.getElem?_eq_getElem (h.valid i hi)⟩
    have hopen := (h.linked i _ hc).writeOpen hi
    rw [hclosed _ (List.mem_of_getElem? hc)] at hopen
    cases hopen
  have hread : ∀ c ∈ s.channels, c.buffer = [] ∧ c.unwritten = [] := by
    intro c hc
    obtain ⟨i, hi⟩ := List.mem_iff_getElem?.1 hc
    have hlinked := h.linked i c hi
    refine ⟨(hlinked.done (hchannel c hc)).1, ?_⟩
    by_contra hne
    have := hlinked.unwritten hne
    rw [horder] at this
    cases this
  exact ⟨horder, hclosed, congrArg Except.ok (Carries.payloads_eq h.content hread)⟩

end

/-- The reader is always in the rounds of its log. One of the two can go on until the reader returns, and then the
source has closed every pipe and the reader has what it wrote: `read_payload_pipes` returns the representations that
are not empty, in the order of the pipes. -/
theorem transfer_completes (horder : order.Perm (List.range representations.length))
    (hsize : (representations.map (·.data.length)).sum ≤ limit) {actions : List Action}
    (hrun : Run (Step limit) (start representations order) actions s) :
    ReaderAt limit (representations.map (·.mime)) (readerLog actions) s.pipes s.totalSize s.phase ∧
    ((∀ result, s.phase ≠ .returned result) → ∃ action t, Step limit s action t) ∧
    ∀ result, s.phase = .returned result →
      s.order = [] ∧ (∀ c ∈ s.channels, c.writeOpen = false) ∧
      result = .ok ((representations.map fun r => (r.mime, r.data)).filter fun p => !p.2.isEmpty) ∧
      ∀ idleTimeout, readPayloadPipes limit idleTimeout (readerLog actions).polls (representations.map (·.mime)) =
        some result := by
  have h : Inv limit representations s :=
    hrun.preserves (fun _ _ _ hs hstep => hs.step hsize hstep) (.start horder)
  have hreader := readerAt_of_run hrun
  have hnext (next : Nat) (reported : Nat → Bool) (hphase : s.phase = .reading next reported) :
      next ≤ s.channels.length := by
    rw [hphase] at hreader
    simpa [pipes] using hreader.next_le
  refine ⟨hreader, h.progress hnext, fun result hphase => ?_⟩
  obtain ⟨hnone, hclosed, hresult⟩ := h.finished hphase
  rw [hphase] at hreader
  exact ⟨hnone, hclosed, hresult, hreader.result⟩

/-- A word that does not fit its pipe, and a letter. -/
def word : Representation := ⟨"text/plain", [104, 105], 1, Nat.one_pos, false⟩
def letter : Representation := ⟨"text/html", [98], 1, Nat.one_pos, true⟩

def wordChannel (unwritten buffer : Bytes) (writeOpen : Bool) (data : Bytes) (done : Bool) : Channel where
  unwritten
  writeOpen
  keepsOpen := false
  buffer
  capacity := 1
  capacity_pos := Nat.one_pos
  pipe := ⟨"text/plain", data, done⟩

def letterChannel (unwritten buffer : Bytes) (writeOpen : Bool) (data : Bytes) (done : Bool) : Channel where
  unwritten
  writeOpen
  keepsOpen := true
  buffer
  capacity := 1
  capacity_pos := Nat.one_pos
  pipe := ⟨"text/html", data, done⟩

def byteChunk (b : UInt8) : Chunk := ⟨[b], List.cons_ne_nil b [], Nat.le_of_ble_eq_true rfl⟩

/-- The letter is written first, and its pipe is closed last; the word is read byte by byte. -/
theorem word_run : Run (Step 3) (start [word, letter] [1, 0])
    [.source, .source, .source, .poll, .handle (.chunk (byteChunk 104)), .handle (.chunk (byteChunk 98)), .round,
      .source, .poll, .handle (.chunk (byteChunk 105)), .handle .idle, .round,
      .source, .poll, .handle .eof, .handle .idle, .round,
      .source, .poll, .pass, .handle .eof, .round, .finish]
    ⟨[wordChannel [] [] false [104, 105] true, letterChannel [] [] false [98] true], [], 3,
      .returned (.ok [("text/plain", [104, 105]), ("text/html", [98])])⟩ := by
  have hone {cs : List Channel} {c : Channel} {k : Nat} (hc : cs[k]? = some c) (hactive : c.pipe.done = false)
      (hready : c.Ready) : ∀ i, (i == k) = true → ∃ d, cs[i]? = some d ∧ d.pipe.done = false ∧ d.Ready := by
    intro i hi
    obtain rfl := eq_of_beq hi
    exact ⟨c, hc, hactive, hready⟩
  have hboth {c d : Channel} (hc : c.pipe.done = false ∧ c.Ready) (hd : d.pipe.done = false ∧ d.Ready) :
      ∀ i, decide (i < 2) = true → ∃ e, [c, d][i]? = some e ∧ e.pipe.done = false ∧ e.Ready := by
    intro i hi
    match i, of_decide_eq_true hi with
    | 0, _ => exact ⟨c, rfl, hc⟩
    | 1, _ => exact ⟨d, rfl, hd⟩
  have hdata {c : Channel} {b : UInt8} (h : c.buffer = [b]) : c.Ready := .inl (by simp [h])
  refine .cons (@Step.write 3 _ [0] [word.channel] [] _ [98] [] rfl rfl rfl (by simp) (Nat.le_refl 1)) ?_
  refine .cons (@Step.written 3 _ [0] [word.channel] [] _ rfl rfl rfl) ?_
  refine .cons (@Step.write 3 _ [] [] [_] _ [104] [105] rfl rfl rfl (by simp) (Nat.le_refl 1)) ?_
  refine .cons (@Step.poll 3 _ (fun i => decide (i < 2)) rfl (hboth ⟨rfl, hdata rfl⟩ ⟨rfl, hdata rfl⟩) ⟨0, rfl⟩) ?_
  refine .cons (@Step.read 3 _ _ [] [_] _ (.chunk (byteChunk 104)) [] _ 1 rfl rfl rfl rfl (.chunk rfl) rfl) ?_
  refine .cons (@Step.read 3 _ _ [_] [] _ (.chunk (byteChunk 98)) [] _ 2 rfl rfl rfl rfl (.chunk rfl) rfl) ?_
  refine .cons (@Step.round 3 _ _ rfl) ?_
  refine .cons (@Step.write 3 _ [] [] [_] _ [105] [] rfl rfl rfl (by simp) (Nat.le_refl 1)) ?_
  refine .cons (@Step.poll 3 _ (· == 0) rfl (hone rfl rfl (hdata rfl)) ⟨0, rfl⟩) ?_
  refine .cons (@Step.read 3 _ _ [] [_] _ (.chunk (byteChunk 105)) [] _ 3 rfl rfl rfl rfl (.chunk rfl) rfl) ?_
  refine .cons (@Step.idle 3 _ _ [_] [] _ rfl rfl rfl rfl) ?_
  refine .cons (@Step.round 3 _ _ rfl) ?_
  refine .cons (@Step.written 3 _ [] [] [_] _ rfl rfl rfl) ?_
  refine .cons (@Step.poll 3 _ (· == 0) rfl (hone rfl rfl (.inr rfl)) ⟨0, rfl⟩) ?_
  refine .cons (@Step.read 3 _ _ [] [_] _ .eof [] _ 3 rfl rfl rfl rfl (.eof rfl rfl) rfl) ?_
  refine .cons (@Step.idle 3 _ _ [_] [] _ rfl rfl rfl rfl) ?_
  refine .cons (@Step.round 3 _ _ rfl) ?_
  refine .cons (@Step.close 3 _ [_] [] _ rfl rfl rfl) ?_
  refine .cons (@Step.poll 3 _ (· == 1) rfl (hone rfl rfl (.inr rfl)) ⟨1, rfl⟩) ?_
  refine .cons (@Step.pass 3 _ _ [] [_] _ rfl rfl rfl) ?_
  refine .cons (@Step.read 3 _ _ [_] [] _ .eof [] _ 3 rfl rfl rfl rfl (.eof rfl rfl) rfl) ?_
  refine .cons (@Step.round 3 _ _ rfl) ?_
  exact .single (@Step.finish 3 _ rfl rfl)

theorem transfer_completes_word :
    (Except.ok [("text/plain", [104, 105]), ("text/html", [98])] : Except PayloadReadError Payloads) =
        .ok (([word, letter].map fun r => (r.mime, r.data)).filter fun p => !p.2.isEmpty) ∧
      ∀ idleTimeout, readPayloadPipes 3 idleTimeout
          [.ready [.chunk (byteChunk 104), .chunk (byteChunk 98)], .ready [.chunk (byteChunk 105), .idle],
            .ready [.eof, .idle], .ready [.eof]] ["text/plain", "text/html"] =
        some (.ok [("text/plain", [104, 105]), ("text/html", [98])]) := by
  have h := (transfer_completes (by decide) (by decide) word_run).2.2 _ rfl
  exact h.2.2

end TransferState

end Mimeclip
