import Mathlib.Data.List.Forall2
import Mimeclip.Pipes

/-!
# What the pipes have met

The outcome of `read_payload_pipes` does not depend on how the rounds interleave the pipes, but only on the
history of each pipe: the events it met in the rounds in which it was not done. `readRounds` are the rounds
without the exits of the loop, `readRounds_eq` says what they make of the histories, and `readLoop_eq` that
the loop adds nothing to them.

A pipe is done after a failed read or an invalid descriptor too, and what was read before stays in the
result; the result is complete if and only if no data came before such an event (`payloads_complete_iff`).
Where the sources send their streams and close the pipes, the outcome is a function of the streams
(`readPayloadPipes_of_streams`).
-/

namespace Mimeclip

/-! ### Rounds -/

def PollResult.Quiet : PollResult → Prop
  | .interrupted | .ready _ => True
  | .failed _ | .timedOut => False

/-- `pipes` and `total_size` after rounds with these results of `poll`. -/
def readRounds (maxPayloadBytes : Nat) :
    List PollResult → List PayloadPipe → Nat → Except PayloadReadError (List PayloadPipe × Nat)
  | [], pipes, totalSize => .ok (pipes, totalSize)
  | .ready events :: polls, pipes, totalSize => do
    let (pipes, totalSize) ← readReady maxPayloadBytes pipes events totalSize
    readRounds maxPayloadBytes polls pipes totalSize
  | _ :: polls, pipes, totalSize => readRounds maxPayloadBytes polls pipes totalSize

section
variable {limit idleTimeout total total' : Nat} {pipes pipes' : List PayloadPipe} {polls : List PollResult}

theorem readReady_of_done {events : List PipeEvent} (h : pipes.all (·.done) = true) :
    readReady limit pipes events total = .ok (pipes, total) := by
  induction pipes with
  | nil => rfl
  | cons pipe pipes ih =>
    rw [List.all_cons, Bool.and_eq_true] at h
    rw [readReady, if_pos h.1, ih h.2]; rfl

theorem readRounds_of_done (h : pipes.all (·.done) = true) :
    readRounds limit polls pipes total = .ok (pipes, total) := by
  induction polls with
  | nil => rfl
  | cons poll polls ih =>
    cases poll with
    | ready events => rw [readRounds, readReady_of_done h]; exact ih
    | interrupted | failed | timedOut => exact ih

/-- The loop stops at an error, and otherwise when every pipe is done. -/
theorem readLoop_eq (hquiet : ∀ poll ∈ polls, poll.Quiet) :
    readLoop limit idleTimeout polls pipes total =
      match readRounds limit polls pipes total with
      | .error e => some (.error e)
      | .ok (pipes', _) => if pipes'.all (·.done) then some (.ok pipes') else none := by
  induction polls generalizing pipes total with
  | nil => rfl
  | cons poll polls ih =>
    obtain ⟨hpoll, hpolls⟩ := List.forall_mem_cons.1 hquiet
    unfold readLoop
    by_cases hall : pipes.all (·.done) = true
    · rw [readRounds_of_done hall]
      simp only [hall, ↓reduceIte]
    · rw [if_neg hall]
      cases poll with
      | failed | timedOut => exact hpoll.elim
      | interrupted => exact ih hpolls
      | ready events =>
        rw [readRounds]
        dsimp only
        cases hr : readReady limit pipes events total with
        | error e => rfl
        | ok out => exact ih hpolls

theorem readRounds_of_run {s t : List PayloadPipe × Nat} (h : Run (readingLoop limit idleTimeout).GoesOn s polls t) :
    readRounds limit polls s.1 s.2 = .ok t := by
  induction h with
  | nil => rfl
  | cons hgo _ ih =>
    rcases readingLoop_goesOn hgo with ⟨rfl, rfl⟩ | ⟨events, rfl, hr⟩
    · exact ih
    · rw [readRounds, hr]
      exact ih

/-- Where the loop returns payloads, it stopped after rounds without an error. -/
theorem readLoop_rounds (h : readLoop limit idleTimeout polls pipes total = some (.ok pipes')) :
    ∃ before rest total', polls = before ++ rest ∧ readRounds limit before pipes total = .ok (pipes', total') ∧
      pipes'.all (·.done) = true := by
  obtain ⟨before, rest, total', hpolls, hrun, hdone⟩ := readLoop_returns h
  exact ⟨before, rest, total', hpolls, readRounds_of_run hrun, hdone⟩

end

/-! ### Histories -/

namespace PipeEvent

/-- The pipe is done after the event. -/
def ends : PipeEvent → Bool
  | idle | chunk _ => false
  | invalid | eof | failed => true

def bytes : PipeEvent → Bytes
  | chunk c => c.bytes
  | idle | invalid | eof | failed => []

end PipeEvent

def ended (history : List PipeEvent) : Bool := history.any (·.ends)

def bytesRead (history : List PipeEvent) : Bytes := history.flatMap (·.bytes)

/-- A round with these events, which are those of the pipes that are not done, in order. -/
def deal : List (List PipeEvent) → List PipeEvent → List (List PipeEvent)
  | [], _ => []
  | history :: histories, events =>
    if ended history then history :: deal histories events
    else (history ++ [events.headD .idle]) :: deal histories events.tail

def dealPoll (histories : List (List PipeEvent)) : PollResult → List (List PipeEvent)
  | .ready events => deal histories events
  | .interrupted | .failed _ | .timedOut => histories

/-- What each of `n` pipes has met. -/
def histories (n : Nat) (polls : List PollResult) : List (List PipeEvent) :=
  polls.foldl dealPoll (List.replicate n [])

def historiesSize (histories : List (List PipeEvent)) : Nat := (histories.map fun h => (bytesRead h).length).sum

structure Shows (pipe : PayloadPipe) (history : List PipeEvent) : Prop where
  data : pipe.data = bytesRead history
  done : pipe.done = ended history

@[simp] theorem bytesRead_snoc (history : List PipeEvent) (e : PipeEvent) :
    bytesRead (history ++ [e]) = bytesRead history ++ e.bytes := by simp [bytesRead]

@[simp] theorem ended_snoc (history : List PipeEvent) (e : PipeEvent) :
    ended (history ++ [e]) = (ended history || e.ends) := by simp [ended]

theorem historiesSize_cons (history : List PipeEvent) (hs : List (List PipeEvent)) :
    historiesSize (history :: hs) = (bytesRead history).length + historiesSize hs := rfl

theorem historiesSize_le_deal (hs : List (List PipeEvent)) (events : List PipeEvent) :
    historiesSize hs ≤ historiesSize (deal hs events) := by
  induction hs generalizing events with
  | nil => exact Nat.le_refl _
  | cons history hs ih =>
    rw [deal]
    split_ifs
    · exact Nat.add_le_add_left (ih events) _
    · rw [historiesSize_cons, historiesSize_cons, bytesRead_snoc, List.length_append]
      have := ih events.tail
      omega

theorem historiesSize_le_dealPolls (hs : List (List PipeEvent)) (polls : List PollResult) :
    historiesSize hs ≤ historiesSize (polls.foldl dealPoll hs) := by
  induction polls generalizing hs with
  | nil => exact Nat.le_refl _
  | cons poll polls ih =>
    refine le_trans ?_ (ih _)
    cases poll with
    | ready events => exact historiesSize_le_deal hs events
    | interrupted | failed | timedOut => exact Nat.le_refl _

theorem deal_of_ended {hs : List (List PipeEvent)} {events : List PipeEvent}
    (h : ∀ history ∈ hs, ended history = true) : deal hs events = hs := by
  induction hs with
  | nil => rfl
  | cons history hs ih =>
    obtain ⟨hhead, htail⟩ := List.forall_mem_cons.1 h
    rw [deal, if_pos hhead, ih htail]

theorem dealPolls_of_ended {hs : List (List PipeEvent)} {polls : List PollResult}
    (h : ∀ history ∈ hs, ended history = true) : polls.foldl dealPoll hs = hs := by
  induction polls with
  | nil => rfl
  | cons poll polls ih =>
    have hpoll : dealPoll hs poll = hs := by
      cases poll with
      | ready events => exact deal_of_ended h
      | interrupted | failed | timedOut => rfl
    rw [List.foldl_cons, hpoll, ih]

/-! ### The rounds in terms of the histories -/

section
variable {limit total total' : Nat} {pipe : PayloadPipe} {pipes : List PayloadPipe} {history : List PipeEvent}
  {hs : List (List PipeEvent)}

theorem handle_eq {e : PipeEvent} (hshows : Shows pipe history) (hle : total ≤ limit) :
    (total + e.bytes.length ≤ limit → ∃ pipe', pipe.handle limit total e = .ok (pipe', total + e.bytes.length) ∧
      pipe'.mime = pipe.mime ∧ Shows pipe' (history ++ [e])) ∧
    (limit < total + e.bytes.length → pipe.handle limit total e = .error (.tooLarge limit)) := by
  obtain ⟨hdata, hdone⟩ := hshows
  cases e with
  | chunk c =>
    have hshows' : Shows { pipe with data := pipe.data ++ c.bytes } (history ++ [.chunk c]) :=
      ⟨by simp [hdata, PipeEvent.bytes], by simp [hdone, PipeEvent.ends]⟩
    show (total + c.bytes.length ≤ limit → _) ∧ (limit < total + c.bytes.length → _)
    rw [PayloadPipe.handle]
    constructor
    · intro h
      rw [if_neg (by omega)]
      exact ⟨_, rfl, rfl, hshows'⟩
    · intro h
      rw [if_pos (by omega)]
  | idle =>
    exact ⟨fun _ => ⟨pipe, rfl, rfl, by simp [hdata, PipeEvent.bytes], by simp [hdone, PipeEvent.ends]⟩,
      fun h => absurd h (Nat.not_lt.2 hle)⟩
  | invalid | eof | failed =>
    exact ⟨fun _ => ⟨_, rfl, rfl, by simp [hdata, PipeEvent.bytes], by simp [PipeEvent.ends]⟩,
      fun h => absurd h (Nat.not_lt.2 hle)⟩

theorem readReady_eq (events : List PipeEvent) (hshows : List.Forall₂ Shows pipes hs) (hle : total ≤ limit) :
    (total + historiesSize (deal hs events) ≤ limit + historiesSize hs →
      ∃ pipes' total', readReady limit pipes events total = .ok (pipes', total') ∧
        total' + historiesSize hs = total + historiesSize (deal hs events) ∧
        pipes'.map (·.mime) = pipes.map (·.mime) ∧ List.Forall₂ Shows pipes' (deal hs events)) ∧
    (limit + historiesSize hs < total + historiesSize (deal hs events) →
      readReady limit pipes events total = .error (.tooLarge limit)) := by
  induction hshows generalizing events total with
  | nil => exact ⟨fun _ => ⟨[], total, rfl, rfl, rfl, .nil⟩, fun h => absurd h (by simpa [deal] using hle)⟩
  | @cons pipe history pipes hs hpipe hpipes ih =>
    rw [readReady, deal]
    cases hended : ended history with
    | true =>
      have hdone : pipe.done = true := hpipe.done.trans hended
      obtain ⟨hok, herror⟩ := @ih total events hle
      simp only [historiesSize_cons, hdone, ↓reduceIte]
      constructor
      · intro h
        obtain ⟨pipes', total', hr, hsum, hm, hshows⟩ := hok (by omega)
        rw [hr]
        exact ⟨pipe :: pipes', total', rfl, by omega, by simp [hm], .cons hpipe hshows⟩
      · intro h
        rw [herror (by omega)]; rfl
    | false =>
      have hdone : pipe.done = false := hpipe.done.trans hended
      obtain ⟨hhandle, htooLarge⟩ := handle_eq (e := events.headD .idle) hpipe hle
      have hgrows := historiesSize_le_deal hs events.tail
      simp only [historiesSize_cons, hdone, Bool.false_eq_true, ↓reduceIte, bytesRead_snoc, List.length_append]
      by_cases hfits : total + (events.headD .idle).bytes.length ≤ limit
      · obtain ⟨pipe', hp, hmime, hshows'⟩ := hhandle hfits
        obtain ⟨hok, herror⟩ := @ih (total + (events.headD .idle).bytes.length) events.tail hfits
        rw [hp]
        constructor
        · intro h
          obtain ⟨pipes', total', hr, hsum, hm, hshows⟩ := hok (by omega)
          refine ⟨pipe' :: pipes', total', ?_, by omega, by simp [hm, hmime], .cons hshows' hshows⟩
          change (readReady limit pipes events.tail _ >>= _) = _
          rw [hr]; rfl
        · intro h
          change (readReady limit pipes events.tail _ >>= _) = _
          rw [herror (by omega)]; rfl
      · rw [htooLarge (by omega)]
        exact ⟨fun h => by omega, fun _ => rfl⟩

/-- The rounds read what the histories say, unless that is more than the limit. -/
theorem readRounds_eq (polls : List PollResult) (hshows : List.Forall₂ Shows pipes hs)
    (htotal : total = historiesSize hs) (hle : total ≤ limit) :
    (historiesSize (polls.foldl dealPoll hs) ≤ limit → ∃ pipes',
      readRounds limit polls pipes total = .ok (pipes', historiesSize (polls.foldl dealPoll hs)) ∧
        pipes'.map (·.mime) = pipes.map (·.mime) ∧ List.Forall₂ Shows pipes' (polls.foldl dealPoll hs)) ∧
    (limit < historiesSize (polls.foldl dealPoll hs) →
      readRounds limit polls pipes total = .error (.tooLarge limit)) := by
  induction polls generalizing pipes hs total with
  | nil =>
    subst htotal
    exact ⟨fun _ => ⟨pipes, rfl, rfl, hshows⟩, fun h => absurd h (Nat.not_lt.2 hle)⟩
  | cons poll polls ih =>
    cases poll with
    | interrupted | failed | timedOut => exact ih hshows htotal hle
    | ready events =>
      obtain ⟨hok, herror⟩ := readReady_eq events hshows hle
      have hgrows := historiesSize_le_dealPolls (deal hs events) polls
      rw [List.foldl_cons, readRounds]
      by_cases hfits : total + historiesSize (deal hs events) ≤ limit + historiesSize hs
      · obtain ⟨pipes₁, total₁, hr, hsum, hm, hshows₁⟩ := hok hfits
        have htotal₁ : total₁ = historiesSize (deal hs events) := by omega
        have hrest := ih hshows₁ htotal₁ (by omega)
        rw [hm] at hrest
        rw [hr]
        exact hrest
      · rw [herror (by omega)]
        exact ⟨fun (h : historiesSize (polls.foldl dealPoll (deal hs events)) ≤ limit) => by omega, fun _ => rfl⟩

end

/-! ### The payloads -/

/-- The pairs of the pipes from which something was read. -/
def payloadsMet (mimeTypes : List String) (histories : List (List PipeEvent)) : Payloads :=
  (mimeTypes.zip histories).filterMap fun (mime, history) =>
    if (bytesRead history).isEmpty then none else some (mime, bytesRead history)

theorem payloadsOf_shows {pipes : List PayloadPipe} {hs : List (List PipeEvent)} (h : List.Forall₂ Shows pipes hs) :
    payloadsOf pipes = payloadsMet (pipes.map (·.mime)) hs := by
  induction h with
  | nil => rfl
  | cons hpipe hpipes ih =>
    rw [payloadsOf, List.filterMap_cons, ← payloadsOf, ih, payloadsMet, payloadsMet, List.map_cons,
      List.zip_cons_cons, List.filterMap_cons, hpipe.data]

theorem newPipes_shows (mimeTypes : List String) :
    List.Forall₂ Shows (newPipes mimeTypes) (List.replicate mimeTypes.length []) := by
  induction mimeTypes with
  | nil => exact .nil
  | cons mime mimeTypes ih => exact .cons ⟨rfl, rfl⟩ ih

theorem historiesSize_replicate (n : Nat) : historiesSize (List.replicate n []) = 0 := by
  induction n with
  | zero => rfl
  | succ n ih => rw [List.replicate_succ, historiesSize_cons, ih]; rfl

/-- The rounds from the start. -/
theorem readRounds_newPipes (limit : Nat) (polls : List PollResult) (mimeTypes : List String) :
    let met := histories mimeTypes.length polls
    (historiesSize met ≤ limit → ∃ pipes,
      readRounds limit polls (newPipes mimeTypes) 0 = .ok (pipes, historiesSize met) ∧
        pipes.map (·.mime) = mimeTypes ∧ List.Forall₂ Shows pipes met) ∧
    (limit < historiesSize met → readRounds limit polls (newPipes mimeTypes) 0 = .error (.tooLarge limit)) := by
  have h := readRounds_eq polls (newPipes_shows mimeTypes) (historiesSize_replicate _).symm
    (Nat.zero_le limit)
  rw [newPipes_mimes] at h
  exact h

theorem Shows.all_done {pipes : List PayloadPipe} {hs : List (List PipeEvent)} (h : List.Forall₂ Shows pipes hs) :
    pipes.all (·.done) = true ↔ ∀ history ∈ hs, ended history = true := by
  induction h with
  | nil => simp
  | cons hpipe hpipes ih => simp [hpipe.done, ih]

/-- Payloads are returned when every pipe has ended, and they are what the histories say. -/
theorem readPayloadPipes_histories {limit idleTimeout : Nat} {polls : List PollResult} {mimeTypes : List String}
    {payloads : Payloads} (h : readPayloadPipes limit idleTimeout polls mimeTypes = some (.ok payloads)) :
    (∀ history ∈ histories mimeTypes.length polls, ended history = true) ∧
      payloads = payloadsMet mimeTypes (histories mimeTypes.length polls) := by
  obtain ⟨pipes, hloop, rfl⟩ := readPayloadPipes_eq_ok.1 h
  obtain ⟨before, rest, total, rfl, hrounds, hdone⟩ := readLoop_rounds hloop
  obtain ⟨hok, herror⟩ := readRounds_newPipes limit before mimeTypes
  have hfits : historiesSize (histories mimeTypes.length before) ≤ limit := by
    by_contra hlarge
    rw [herror (by omega)] at hrounds
    cases hrounds
  obtain ⟨pipes', hpipes, hmimes, hshows⟩ := hok hfits
  rw [hpipes] at hrounds
  cases hrounds
  have hended := (Shows.all_done hshows).1 hdone
  have hmet : histories mimeTypes.length (before ++ rest) = histories mimeTypes.length before := by
    rw [histories, List.foldl_append]
    exact dealPolls_of_ended hended
  rw [hmet]
  exact ⟨hended, by rw [payloadsOf_shows hshows, hmimes]⟩

/-! ### Truncated payloads -/

/-- The pipe is not read again after an event that ends it. -/
def EndsOnce (history : List PipeEvent) : Prop :=
  ∀ e ∈ history, e.ends = true → ∃ pre, history = pre ++ [e] ∧ ended pre = false

theorem EndsOnce.deal {hs : List (List PipeEvent)} (h : ∀ history ∈ hs, EndsOnce history) (events : List PipeEvent) :
    ∀ history ∈ deal hs events, EndsOnce history := by
  induction hs generalizing events with
  | nil => exact h
  | cons history hs ih =>
    obtain ⟨hhead, htail⟩ := List.forall_mem_cons.1 h
    rw [Mimeclip.deal]
    split_ifs with hended
    · exact List.forall_mem_cons.2 ⟨hhead, ih htail events⟩
    · refine List.forall_mem_cons.2 ⟨fun e he hends => ?_, ih htail events.tail⟩
      rcases List.mem_append.1 he with he | he
      · exact absurd (List.any_eq_true.2 ⟨e, he, hends⟩) hended
      · obtain rfl := List.mem_singleton.1 he
        exact ⟨history, rfl, by simpa using hended⟩

theorem histories_endsOnce (n : Nat) (polls : List PollResult) :
    ∀ history ∈ histories n polls, EndsOnce history := by
  induction polls using List.reverseRecOn with
  | nil =>
    intro history hmem
    rw [List.eq_of_mem_replicate hmem]
    exact nofun
  | append_singleton polls poll ih =>
    rw [histories, List.foldl_append]
    cases poll with
    | ready events => exact EndsOnce.deal ih events
    | interrupted | failed | timedOut => exact ih

theorem EndsOnce.unique {history : List PipeEvent} (h : EndsOnce history) {e e' : PipeEvent} (he : e ∈ history)
    (hends : e.ends = true) (he' : e' ∈ history) (hends' : e'.ends = true) : e = e' := by
  obtain ⟨pre, hpre, -⟩ := h e he hends
  obtain ⟨pre', hpre', -⟩ := h e' he' hends'
  exact (List.append_singleton_inj.1 (hpre.symm.trans hpre')).2

/-- What is returned is what was read of each pipe, and every pipe it is returned for was read to its end of
file if and only if nothing had been read of those that failed or were invalid. -/
theorem payloads_complete_iff {limit idleTimeout : Nat} {polls : List PollResult} {mimeTypes : List String}
    {payloads : Payloads} (h : readPayloadPipes limit idleTimeout polls mimeTypes = some (.ok payloads)) :
    let met := histories mimeTypes.length polls
    payloads = payloadsMet mimeTypes met ∧
      ((∀ history ∈ met, bytesRead history ≠ [] → .eof ∈ history) ↔
        ∀ history ∈ met, .failed ∈ history ∨ .invalid ∈ history → bytesRead history = []) := by
  intro met
  obtain ⟨hended, hpayloads⟩ := readPayloadPipes_histories h
  refine ⟨hpayloads, ?_, ?_⟩
  · intro hcomplete history hmem hfailed
    by_contra hne
    have heof := hcomplete history hmem hne
    have honce := histories_endsOnce _ _ history hmem
    rcases hfailed with hfailed | hinvalid
    · cases honce.unique heof rfl hfailed rfl
    · cases honce.unique heof rfl hinvalid rfl
  · intro hempty history hmem hne
    obtain ⟨e, he, hends⟩ := List.any_eq_true.1 (hended history hmem)
    cases e with
    | eof => exact he
    | failed => exact absurd (hempty history hmem (.inl he)) hne
    | invalid => exact absurd (hempty history hmem (.inr he)) hne
    | idle | chunk => cases hends

theorem asBytes_hi_ne : asBytes "hi" ≠ [] := by decide

theorem length_asBytes_hi : (asBytes "hi").length ≤ readChunkBytes := by decide

def hiChunk : Chunk := ⟨asBytes "hi", asBytes_hi_ne, length_asBytes_hi⟩

/-- A text in one piece, markup in two between that and its end, and a third pipe at which the first round meets
`third`. -/
def threePolls (third : PipeEvent) : List PollResult :=
  [.ready [.chunk hiChunk, .idle, third], .interrupted, .ready [.idle, .chunk hiChunk],
    .ready [.eof, .chunk hiChunk], .ready [.eof]]

def threeMimes : List String := ["text/plain", "text/html", "text/uri-list"]

theorem payloads_complete_iff_invalid :
    let met := histories 3 (threePolls .invalid)
    [("text/plain", asBytes "hi"), ("text/html", asBytes "hihi")] = payloadsMet threeMimes met ∧
      ((∀ history ∈ met, bytesRead history ≠ [] → .eof ∈ history) ↔
        ∀ history ∈ met, .failed ∈ history ∨ .invalid ∈ history → bytesRead history = []) := by
  have hread : readPayloadPipes 6 10 (threePolls .invalid) threeMimes =
      some (.ok [("text/plain", asBytes "hi"), ("text/html", asBytes "hihi")]) := rfl
  exact payloads_complete_iff hread

/-- A signal interrupts the second read, and the text is returned as far as it was read. -/
theorem truncated_payload :
    let polls := [.ready [.chunk hiChunk], .ready [.failed]]
    readPayloadPipes maxPayloadBytes payloadReadIdleTimeout polls ["text/plain"] =
        some (.ok [("text/plain", asBytes "hi")]) ∧
      ¬ ∀ history ∈ histories 1 polls, bytesRead history ≠ [] → .eof ∈ history := by
  refine ⟨rfl, fun h => ?_⟩
  have heof := h [.chunk hiChunk, .failed] (by simp [histories, dealPoll, deal, ended, PipeEvent.ends]) (by decide)
  simp at heof

/-! ### Any schedule -/

/-- What is read of a pipe while its source sends the stream and closes the pipe. -/
structure Sending (stream : Bytes) (history : List PipeEvent) : Prop where
  pre : (bytesRead history).IsPrefix stream
  eof : .eof ∈ history → bytesRead history = stream
  unfailed : .failed ∉ history
  valid : .invalid ∉ history

def streamsSize (streams : List Bytes) : Nat := (streams.map (·.length)).sum

theorem Sending.eof_of_ended {stream : Bytes} {history : List PipeEvent} (h : Sending stream history)
    (hended : ended history = true) : .eof ∈ history := by
  obtain ⟨e, he, hends⟩ := List.any_eq_true.1 hended
  cases e with
  | eof => exact he
  | failed => exact absurd he h.unfailed
  | invalid => exact absurd he h.valid
  | idle | chunk => cases hends

section
variable {streams : List Bytes} {hs : List (List PipeEvent)} (hsend : List.Forall₂ Sending streams hs)
include hsend

theorem historiesSize_le_streams : historiesSize hs ≤ streamsSize streams := by
  induction hsend with
  | nil => exact Nat.le_refl _
  | cons hpipe hpipes ih => exact Nat.add_le_add hpipe.pre.length_le ih

theorem bytesRead_eq_streams (hended : ∀ history ∈ hs, ended history = true) : hs.map bytesRead = streams := by
  induction hsend with
  | nil => rfl
  | cons hpipe hpipes ih =>
    obtain ⟨hhead, htail⟩ := List.forall_mem_cons.1 hended
    rw [List.map_cons, hpipe.eof (hpipe.eof_of_ended hhead), ih htail]

end

theorem payloadsMet_eq (mimeTypes : List String) (hs : List (List PipeEvent)) :
    payloadsMet mimeTypes hs = (mimeTypes.zip (hs.map bytesRead)).filter fun p => !p.2.isEmpty := by
  induction mimeTypes generalizing hs with
  | nil => rfl
  | cons mime mimeTypes ih =>
    cases hs with
    | nil => rfl
    | cons history hs =>
      rw [payloadsMet, List.zip_cons_cons, List.filterMap_cons, ← payloadsMet, ih, List.map_cons, List.zip_cons_cons,
        List.filter_cons]
      by_cases h : (bytesRead history).isEmpty = true
      · simp [h]
      · simp [h]

/-- `pipes` and `total_size` after the rounds of `polls` and then the first `k` pipes of a round with `events`. -/
def readUpTo (maxPayloadBytes : Nat) (polls : List PollResult) (events : List PipeEvent) (k : Nat)
    (mimeTypes : List String) : Except PayloadReadError (List PayloadPipe × Nat) := do
  let (pipes, totalSize) ← readRounds maxPayloadBytes polls (newPipes mimeTypes) 0
  let (handled, totalSize) ← readReady maxPayloadBytes (pipes.take k) events totalSize
  pure (handled ++ pipes.drop k, totalSize)

theorem pipesSize_append (pipes pipes' : List PayloadPipe) :
    pipesSize (pipes ++ pipes') = pipesSize pipes + pipesSize pipes' := by simp [pipesSize]

theorem readRounds_ok {limit total total' : Nat} {polls : List PollResult} {pipes pipes' : List PayloadPipe}
    (h : readRounds limit polls pipes total = .ok (pipes', total')) (hsize : total = pipesSize pipes)
    (hle : total ≤ limit) : total' = pipesSize pipes' ∧ total' ≤ limit := by
  induction polls generalizing pipes total with
  | nil => cases h; exact ⟨hsize, hle⟩
  | cons poll polls ih =>
    cases poll with
    | interrupted | failed | timedOut => exact ih h hsize hle
    | ready events =>
      obtain ⟨⟨pipes₁, total₁⟩, hr, h⟩ := Except.bind_ok.1 h
      obtain ⟨-, hle₁, hsum⟩ := readReady_ok hr hle
      exact ih h (by omega) hle₁

/-- Throughout, `total_size` is the size of what is buffered, and within the limit. -/
theorem readUpTo_ok {limit k total : Nat} {polls : List PollResult} {events : List PipeEvent}
    {mimeTypes : List String} {pipes : List PayloadPipe}
    (h : readUpTo limit polls events k mimeTypes = .ok (pipes, total)) : total = pipesSize pipes ∧ total ≤ limit := by
  obtain ⟨⟨pipes₀, total₀⟩, hrounds, h⟩ := Except.bind_ok.1 h
  obtain ⟨⟨handled, total₁⟩, hready, h⟩ := Except.bind_ok.1 h
  cases h
  obtain ⟨hsize, hle⟩ := readRounds_ok hrounds (pipesSize_newPipes mimeTypes).symm (Nat.zero_le limit)
  obtain ⟨-, hle', hsum⟩ := readReady_ok hready hle
  have hsplit := pipesSize_append (pipes₀.take k) (pipes₀.drop k)
  rw [List.take_append_drop] at hsplit
  rw [pipesSize_append]
  exact ⟨by omega, hle'⟩

/-- Whatever is returned is determined by the streams and the limit, and something is returned once every pipe
has been read to its end of file. -/
theorem readPayloadPipes_of_streams {limit idleTimeout : Nat} {polls : List PollResult} {mimeTypes : List String}
    {streams : List Bytes} (hquiet : ∀ poll ∈ polls, poll.Quiet)
    (hsend : List.Forall₂ Sending streams (histories mimeTypes.length polls)) :
    (∀ result, readPayloadPipes limit idleTimeout polls mimeTypes = some result →
      result = if streamsSize streams ≤ limit then .ok ((mimeTypes.zip streams).filter fun p => !p.2.isEmpty)
        else .error (.tooLarge limit)) ∧
    ((∀ history ∈ histories mimeTypes.length polls, .eof ∈ history) →
      ∃ result, readPayloadPipes limit idleTimeout polls mimeTypes = some result) ∧
    ∀ before events k pipes total, readUpTo limit before events k mimeTypes = .ok (pipes, total) →
      total = pipesSize pipes ∧ total ≤ limit := by
  obtain ⟨hok, herror⟩ := readRounds_newPipes limit polls mimeTypes
  have hsize := historiesSize_le_streams hsend
  refine ⟨fun result h => ?_, fun heof => ?_, fun _ _ _ _ _ h => readUpTo_ok h⟩
  · by_cases hfits : historiesSize (histories mimeTypes.length polls) ≤ limit
    · obtain ⟨pipes, hrounds, hmimes, hshows⟩ := hok hfits
      rw [readPayloadPipes, readLoop_eq hquiet, hrounds] at h
      dsimp only at h
      split_ifs at h with hdone
      · cases h
        have hstreams := bytesRead_eq_streams hsend ((Shows.all_done hshows).1 hdone)
        have hle : streamsSize streams ≤ limit := by
          rw [← hstreams, streamsSize, List.map_map]
          exact hfits
        have hpayloads := payloadsOf_shows hshows
        rw [hmimes, payloadsMet_eq, hstreams] at hpayloads
        rw [if_pos hle]
        exact congrArg Except.ok hpayloads
      · cases h
    · rw [readPayloadPipes, readLoop_eq hquiet, herror (by omega)] at h
      cases h
      rw [if_neg (by omega)]; rfl
  · rw [readPayloadPipes, readLoop_eq hquiet]
    by_cases hfits : historiesSize (histories mimeTypes.length polls) ≤ limit
    · obtain ⟨pipes, hrounds, hmimes, hshows⟩ := hok hfits
      have hdone : pipes.all (·.done) = true :=
        (Shows.all_done hshows).2 fun history hmem => List.any_eq_true.2 ⟨.eof, heof history hmem, rfl⟩
      rw [hrounds]
      exact ⟨.ok (payloadsOf pipes), by simp [hdone, Except.map]⟩
    · rw [herror (by omega)]
      exact ⟨.error (.tooLarge limit), rfl⟩

/-- The streams, one of which is empty, fit the limit exactly. -/
theorem readPayloadPipes_of_streams_three :
    let streams := [asBytes "hi", asBytes "hihi", []]
    (∀ result, readPayloadPipes 6 10 (threePolls .eof) threeMimes = some result →
      result = if streamsSize streams ≤ 6 then .ok [("text/plain", asBytes "hi"), ("text/html", asBytes "hihi")]
        else .error (.tooLarge 6)) ∧
    ((∀ history ∈ histories 3 (threePolls .eof), .eof ∈ history) →
      ∃ result, readPayloadPipes 6 10 (threePolls .eof) threeMimes = some result) ∧
    ∀ before events k pipes total, readUpTo 6 before events k threeMimes = .ok (pipes, total) →
      total = pipesSize pipes ∧ total ≤ 6 := by
  intro streams
  have hmet : histories 3 (threePolls .eof) = [[.chunk hiChunk, .idle, .eof],
    [.idle, .chunk hiChunk, .chunk hiChunk, .eof], [.eof]] := rfl
  have hsend : List.Forall₂ Sending streams (histories 3 (threePolls .eof)) := by
    rw [hmet]
    refine .cons ⟨by decide, fun _ => by decide, by simp, by simp⟩ (.cons ?_ (.cons ?_ .nil))
    · exact ⟨by decide, fun _ => by decide, by simp, by simp⟩
    · exact ⟨by decide, fun _ => rfl, by simp, by simp⟩
  exact readPayloadPipes_of_streams (by simp [threePolls, PollResult.Quiet]) hsend

end Mimeclip
