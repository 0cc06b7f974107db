import Mathlib.Algebra.Ring.Nat
import Mimeclip.Lib.AskLoop
import Mimeclip.Lib.Script
import Mimeclip.Payload

/-!
# Reading the payload pipes (`read_payload_pipes` of `daemon/watcher.rs`)

All pipes of an offer are read in rounds: `poll` waits for some of the pipes that are not done, and each of
these is read once. What `poll` and `read` return is the list `polls`; `readPayloadPipes` returns `none`
if it is still waiting at its end. What it returns fits the limit (`readPayloadPipes_ok`), and it is what
the sources sent if every pipe is read to its end of file (`readPayloadPipes_of_delivers`).
-/

namespace Mimeclip

def maxPayloadBytes : Nat := 64 * 1024 * 1024

def readChunkBytes : Nat := 64 * 1024

def payloadReadIdleTimeout : Nat := 10

inductive PayloadReadError
  | tooLarge (limit : Nat)
  | timedOut (idleTimeout : Nat)
  | poll (errno : Int)
deriving DecidableEq, Repr

structure PayloadPipe where
  mime : String
  data : Bytes
  done : Bool
deriving DecidableEq, Repr

structure Chunk where
  bytes : Bytes
  nonempty : bytes ≠ []
  le : bytes.length ≤ readChunkBytes
deriving DecidableEq

/-- What a round finds at a pipe: no events (`idle`), `POLLNVAL` (`invalid`), or what `read` returned. -/
inductive PipeEvent
  | idle
  | invalid
  | eof
  | chunk (c : Chunk)
  | failed

/-- What `poll` returned: `EINTR` (`interrupted`), another error, nothing in time, or the events of the pipes
that are not done, in order. -/
inductive PollResult
  | interrupted
  | failed (errno : Int)
  | timedOut
  | ready (events : List PipeEvent)

def PayloadPipe.handle (maxPayloadBytes : Nat) (pipe : PayloadPipe) (totalSize : Nat) :
    PipeEvent → Except PayloadReadError (PayloadPipe × Nat)
  | .idle => .ok (pipe, totalSize)
  | .invalid | .eof | .failed => .ok ({ pipe with done := true }, totalSize)
  | .chunk c =>
    if c.bytes.length > maxPayloadBytes - totalSize then .error (.tooLarge maxPayloadBytes)
    else .ok ({ pipe with data := pipe.data ++ c.bytes }, totalSize + c.bytes.length)

/-- The `for` loop. -/
def readReady (maxPayloadBytes : Nat) :
    List PayloadPipe → List PipeEvent → Nat → Except PayloadReadError (List PayloadPipe × Nat)
  | [], _, totalSize => .ok ([], totalSize)
  | pipe :: pipes, events, totalSize =>
    if pipe.done then do
      let (pipes, totalSize) ← readReady maxPayloadBytes pipes events totalSize
      pure (pipe :: pipes, totalSize)
    else do
      let (pipe, totalSize) ← pipe.handle maxPayloadBytes totalSize (events.headD .idle)
      let (pipes, totalSize) ← readReady maxPayloadBytes pipes events.tail totalSize
      pure (pipe :: pipes, totalSize)

def readLoop (maxPayloadBytes idleTimeout : Nat) :
    List PollResult → List PayloadPipe → Nat → Option (Except PayloadReadError (List PayloadPipe))
  | [], pipes, _ => if pipes.all (·.done) then some (.ok pipes) else none
  | poll :: polls, pipes, totalSize =>
    if pipes.all (·.done) then some (.ok pipes)
    else match poll with
      | .interrupted => readLoop maxPayloadBytes idleTimeout polls pipes totalSize
      | .failed errno => some (.error (.poll errno))
      | .timedOut => some (.error (.timedOut idleTimeout))
      | .ready events =>
        match readReady maxPayloadBytes pipes events totalSize with
        | .error e => some (.error e)
        | .ok (pipes, totalSize) => readLoop maxPayloadBytes idleTimeout polls pipes totalSize

def newPipes (mimeTypes : List String) : List PayloadPipe := mimeTypes.map fun mime => ⟨mime, [], false⟩

def payloadsOf (pipes : List PayloadPipe) : Payloads :=
  pipes.filterMap fun pipe => if pipe.data.isEmpty then none else some (pipe.mime, pipe.data)

def readPayloadPipes (maxPayloadBytes idleTimeout : Nat) (polls : List PollResult) (mimeTypes : List String) :
    Option (Except PayloadReadError Payloads) :=
  (readLoop maxPayloadBytes idleTimeout polls (newPipes mimeTypes) 0).map fun result => result.map payloadsOf

/-- How many pipes are polled. -/
def activeCount (pipes : List PayloadPipe) : Nat := (pipes.filter (!·.done)).length

/-! ### The loop asks `poll` -/

/-- `readLoop` as a loop that asks `poll`. -/
def readingLoop (limit idleTimeout : Nat) :
    AskLoop (List PayloadPipe × Nat) PollResult (Except PayloadReadError (List PayloadPipe)) where
  exit := fun (pipes, _) => if pipes.all (·.done) then some (.ok pipes) else none
  step := fun (pipes, totalSize) poll =>
    match poll with
    | .interrupted => .ok (pipes, totalSize)
    | .failed errno => .error (.error (.poll errno))
    | .timedOut => .error (.error (.timedOut idleTimeout))
    | .ready events =>
      match readReady limit pipes events totalSize with
      | .error e => .error (.error e)
      | .ok s => .ok s

section
variable {limit idleTimeout total : Nat} {pipes pipes' : List PayloadPipe} {polls : List PollResult}
  {s t : List PayloadPipe × Nat}

theorem readLoop_eq_run :
    readLoop limit idleTimeout polls pipes total = (readingLoop limit idleTimeout).run polls (pipes, total) := by
  induction polls generalizing pipes total with
  | nil => rfl
  | cons poll polls ih =>
    unfold readLoop AskLoop.run readingLoop
    dsimp only
    split_ifs with hdone
    · rfl
    · cases poll with
      | interrupted => exact ih
      | failed | timedOut => rfl
      | ready events =>
        dsimp only
        cases hr : readReady limit pipes events total with
        | error e => rfl
        | ok out => exact ih

theorem readingLoop_asks : (readingLoop limit idleTimeout).exit s = none ↔ s.1.all (·.done) = false := by
  show (if s.1.all (·.done) then some _ else none) = none ↔ _
  split_ifs with hdone <;> simp [hdone]

/-- The loop goes on after an `EINTR`, and after a round without an error. -/
theorem readingLoop_goesOn {poll : PollResult} (h : (readingLoop limit idleTimeout).GoesOn s poll t) :
    poll = .interrupted ∧ t = s ∨ ∃ events, poll = .ready events ∧ readReady limit s.1 events s.2 = .ok t := by
  obtain ⟨-, hstep⟩ := h
  cases poll with
  | interrupted =>
    cases hstep
    exact .inl ⟨rfl, rfl⟩
  | failed | timedOut => cases hstep
  | ready events =>
    refine .inr ⟨events, rfl, ?_⟩
    unfold readingLoop at hstep
    dsimp only at hstep
    split at hstep
    · cases hstep
    · rename_i out hr
      cases hstep
      exact hr

/-- Where the loop returns payloads, every pipe is done after the rounds. -/
theorem readLoop_returns (h : readLoop limit idleTimeout polls pipes total = some (.ok pipes')) :
    ∃ before rest total', polls = before ++ rest ∧
      Run (readingLoop limit idleTimeout).GoesOn (pipes, total) before (pipes', total') ∧
      pipes'.all (·.done) = true := by
  rw [readLoop_eq_run] at h
  obtain ⟨before, rest, t, rfl, hrun, hexit | ⟨poll, rest, rfl, -, hstep⟩⟩ := AskLoop.run_eq_some.1 h
  · unfold readingLoop at hexit
    dsimp only at hexit
    split_ifs at hexit with hdone
    cases hexit
    exact ⟨before, rest, t.2, rfl, hrun, hdone⟩
  · unfold readingLoop at hstep
    cases poll with
    | interrupted | failed | timedOut => cases hstep
    | ready events =>
      dsimp only at hstep
      split at hstep <;> cases hstep

end

/-! ### What is read fits the limit -/

def pipesSize (pipes : List PayloadPipe) : Nat := (pipes.map (·.data.length)).sum

theorem pipesSize_cons {pipe : PayloadPipe} {pipes : List PayloadPipe} :
    pipesSize (pipe :: pipes) = pipe.data.length + pipesSize pipes := rfl

theorem handle_ok {limit total total' : Nat} {pipe pipe' : PayloadPipe} {e : PipeEvent}
    (h : pipe.handle limit total e = .ok (pipe', total')) (hle : total ≤ limit) :
    pipe'.mime = pipe.mime ∧ total' ≤ limit ∧ total' + pipe.data.length = total + pipe'.data.length := by
  cases e with
  | chunk c =>
    rw [PayloadPipe.handle] at h
    split_ifs at h with hc
    cases h
    refine ⟨rfl, by omega, ?_⟩
    rw [List.length_append]; omega
  | idle | invalid | eof | failed =>
    cases h
    exact ⟨rfl, hle, rfl⟩

theorem readReady_ok {limit total total' : Nat} {pipes pipes' : List PayloadPipe} {events : List PipeEvent}
    (h : readReady limit pipes events total = .ok (pipes', total')) (hle : total ≤ limit) :
    pipes'.map (·.mime) = pipes.map (·.mime) ∧ total' ≤ limit ∧
      total' + pipesSize pipes = total + pipesSize pipes' := by
  induction pipes generalizing events total pipes' total' with
  | nil => cases h; exact ⟨rfl, hle, rfl⟩
  | cons pipe pipes ih =>
    rw [readReady] at h
    split_ifs at h
    · obtain ⟨⟨rest, total₁⟩, hr, h⟩ := Except.bind_ok.1 h
      cases h
      obtain ⟨hm, hle', hsum⟩ := ih hr hle
      refine ⟨by simp [hm], hle', ?_⟩
      simp only [pipesSize_cons]; omega
    · obtain ⟨⟨pipe₁, total₁⟩, hp, h⟩ := Except.bind_ok.1 h
      obtain ⟨⟨rest, total₂⟩, hr, h⟩ := Except.bind_ok.1 h
      cases h
      obtain ⟨hmime, hle₁, hsum₁⟩ := handle_ok hp hle
      obtain ⟨hm, hle', hsum⟩ := ih hr hle₁
      refine ⟨by simp [hm, hmime], hle', ?_⟩
      simp only [pipesSize_cons]; omega

theorem readLoop_ok {limit idleTimeout total : Nat} {polls : List PollResult} {pipes pipes' : List PayloadPipe}
    (h : readLoop limit idleTimeout polls pipes total = some (.ok pipes')) (hsize : pipesSize pipes = total)
    (hle : total ≤ limit) : pipes'.map (·.mime) = pipes.map (·.mime) ∧ pipesSize pipes' ≤ limit := by
  obtain ⟨before, rest, total', rfl, hrun, -⟩ := readLoop_returns h
  have hinv := hrun.preserves
    (I := fun s => s.1.map (·.mime) = pipes.map (·.mime) ∧ pipesSize s.1 = s.2 ∧ s.2 ≤ limit) ?_ ⟨rfl, hsize, hle⟩
  · obtain ⟨hmimes, hsize', hle'⟩ := hinv
    exact ⟨hmimes, hsize' ▸ hle'⟩
  · rintro s poll t ⟨hmimes, hsize', hle'⟩ hgo
    rcases readingLoop_goesOn hgo with ⟨rfl, rfl⟩ | ⟨events, rfl, hr⟩
    · exact ⟨hmimes, hsize', hle'⟩
    · obtain ⟨hm, hle₁, hsum⟩ := readReady_ok hr hle'
      exact ⟨hm.trans hmimes, by omega, hle₁⟩

theorem newPipes_mimes (mimeTypes : List String) : (newPipes mimeTypes).map (·.mime) = mimeTypes := by
  rw [newPipes, List.map_map]
  exact List.map_id mimeTypes

theorem pipesSize_newPipes (mimeTypes : List String) : pipesSize (newPipes mimeTypes) = 0 := by
  simp [pipesSize, newPipes, Function.comp_def]

theorem readPayloadPipes_eq_ok {limit idleTimeout : Nat} {polls : List PollResult} {mimeTypes : List String}
    {payloads : Payloads} : readPayloadPipes limit idleTimeout polls mimeTypes = some (.ok payloads) ↔
      ∃ pipes, readLoop limit idleTimeout polls (newPipes mimeTypes) 0 = some (.ok pipes) ∧
        payloads = payloadsOf pipes := by
  constructor
  · intro h
    obtain ⟨result, hloop, hmap⟩ := Option.map_eq_some_iff.1 h
    cases result with
    | error e => cases hmap
    | ok pipes =>
      cases hmap
      exact ⟨pipes, hloop, rfl⟩
  · rintro ⟨pipes, hloop, rfl⟩
    rw [readPayloadPipes, hloop]
    rfl

theorem mem_payloadsOf {pipes : List PayloadPipe} {m : String} {d : Bytes} :
    (m, d) ∈ payloadsOf pipes ↔ d ≠ [] ∧ ∃ pipe ∈ pipes, pipe.mime = m ∧ pipe.data = d := by
  simp only [payloadsOf, List.mem_filterMap, Option.ite_none_left_eq_some, Option.some.injEq, Prod.mk.injEq,
    List.isEmpty_iff]
  constructor
  · rintro ⟨pipe, hp, hne, rfl, rfl⟩
    exact ⟨hne, pipe, hp, rfl, rfl⟩
  · rintro ⟨hne, pipe, hp, rfl, rfl⟩
    exact ⟨pipe, hp, hne, rfl, rfl⟩

theorem payloadsOf_mimes_sublist (pipes : List PayloadPipe) :
    ((payloadsOf pipes).map (·.1)).Sublist (pipes.map (·.mime)) := by
  induction pipes with
  | nil => exact .slnil
  | cons pipe pipes ih =>
    rw [payloadsOf, List.filterMap_cons, ← payloadsOf]
    split
    · exact ih.cons _
    · rename_i p hp
      split_ifs at hp
      cases hp
      exact ih.cons_cons _

theorem payloadsOf_size (pipes : List PayloadPipe) :
    ((payloadsOf pipes).map (·.2.length)).sum = pipesSize pipes := by
  induction pipes with
  | nil => rfl
  | cons pipe pipes ih =>
    rw [payloadsOf, List.filterMap_cons, ← payloadsOf, pipesSize_cons, ← ih]
    by_cases h : pipe.data = []
    · simp [h]
    · simp [h]

/-- The payloads belong to the requested types, none is empty, and together they fit the limit. -/
theorem readPayloadPipes_ok {limit idleTimeout : Nat} {polls : List PollResult} {mimeTypes : List String}
    {payloads : Payloads} (h : readPayloadPipes limit idleTimeout polls mimeTypes = some (.ok payloads)) :
    (payloads.map (·.1)).Sublist mimeTypes ∧ (∀ p ∈ payloads, p.2 ≠ []) ∧
      (payloads.map (·.2.length)).sum ≤ limit := by
  obtain ⟨pipes, hloop, rfl⟩ := readPayloadPipes_eq_ok.1 h
  obtain ⟨hm, hsize⟩ := readLoop_ok hloop (pipesSize_newPipes mimeTypes) (Nat.zero_le _)
  have hmimes : pipes.map (·.mime) = mimeTypes := hm.trans (newPipes_mimes mimeTypes)
  refine ⟨hmimes ▸ payloadsOf_mimes_sublist pipes, fun p hp => (mem_payloadsOf.1 hp).1, ?_⟩
  rw [payloadsOf_size]
  exact hsize

/-! ### Pipes that are read to their end -/

/-- What a source that sends `content` and then closes the pipe can lead to. -/
inductive PipeEvent.Honest (content : Bytes) (pipe : PayloadPipe) : PipeEvent → Prop
  | idle : Honest content pipe .idle
  | chunk {c : Chunk} (h : (pipe.data ++ c.bytes).IsPrefix content) : Honest content pipe (.chunk c)
  | eof (h : pipe.data = content) : Honest content pipe .eof

def HonestRound (content : String → Bytes) : List PayloadPipe → List PipeEvent → Prop
  | [], _ => True
  | pipe :: pipes, events =>
    if pipe.done then HonestRound content pipes events
    else (events.headD .idle).Honest (content pipe.mime) pipe ∧ HonestRound content pipes events.tail

/-- The sources send `content`, and neither `poll` nor `read` fails or times out. -/
def Delivers (content : String → Bytes) (maxPayloadBytes : Nat) :
    List PollResult → List PayloadPipe → Nat → Prop
  | [], _, _ => True
  | .interrupted :: polls, pipes, totalSize => Delivers content maxPayloadBytes polls pipes totalSize
  | .ready events :: polls, pipes, totalSize =>
    HonestRound content pipes events ∧ ∀ pipes' totalSize',
      readReady maxPayloadBytes pipes events totalSize = .ok (pipes', totalSize') →
        Delivers content maxPayloadBytes polls pipes' totalSize'
  | _ :: _, _, _ => False

structure Reads (content : String → Bytes) (pipe : PayloadPipe) : Prop where
  pre : pipe.data.IsPrefix (content pipe.mime)
  done : pipe.done = true → pipe.data = content pipe.mime

def contentSize (content : String → Bytes) (pipes : List PayloadPipe) : Nat :=
  (pipes.map fun pipe => (content pipe.mime).length).sum

section
variable {content : String → Bytes} {limit idleTimeout total total' : Nat} {pipes pipes' : List PayloadPipe}

theorem contentSize_cons {pipe : PayloadPipe} :
    contentSize content (pipe :: pipes) = (content pipe.mime).length + contentSize content pipes := rfl

theorem contentSize_congr (h : pipes'.map (·.mime) = pipes.map (·.mime)) :
    contentSize content pipes' = contentSize content pipes := by
  have := congrArg (fun mimes => (mimes.map fun mime => (content mime).length).sum) h
  simpa [contentSize, Function.comp_def] using this

theorem handle_honest {pipe : PayloadPipe} {e : PipeEvent} (he : e.Honest (content pipe.mime) pipe)
    (hreads : Reads content pipe) (hroom : total + (content pipe.mime).length ≤ limit + pipe.data.length) :
    ∃ pipe' total', pipe.handle limit total e = .ok (pipe', total') ∧ pipe'.mime = pipe.mime ∧
      Reads content pipe' ∧ total' + pipe.data.length = total + pipe'.data.length := by
  cases he with
  | idle => exact ⟨pipe, total, rfl, rfl, hreads, rfl⟩
  | eof h => exact ⟨{ pipe with done := true }, total, rfl, rfl, ⟨hreads.pre, fun _ => h⟩, rfl⟩
  | @chunk c h =>
    have hlen := h.length_le
    rw [List.length_append] at hlen
    refine ⟨{ pipe with data := pipe.data ++ c.bytes }, total + c.bytes.length, ?_, rfl, ⟨h, fun hd => ?_⟩, ?_⟩
    · rw [PayloadPipe.handle, if_neg (by omega)]
    · -- a pipe that is done has nothing left to send
      have hdata := hreads.done hd
      rw [← hdata] at hlen
      have := List.length_pos_iff.2 c.nonempty
      omega
    · rw [List.length_append]; omega

theorem pipesSize_le (hreads : ∀ pipe ∈ pipes, Reads content pipe) :
    pipesSize pipes ≤ contentSize content pipes := by
  induction pipes with
  | nil => exact Nat.le_refl _
  | cons pipe pipes ih =>
    obtain ⟨hpipe, hpipes⟩ := List.forall_mem_cons.1 hreads
    exact Nat.add_le_add hpipe.pre.length_le (ih hpipes)

theorem readReady_honest {events : List PipeEvent} (hround : HonestRound content pipes events)
    (hreads : ∀ pipe ∈ pipes, Reads content pipe)
    (hroom : total + contentSize content pipes ≤ limit + pipesSize pipes) :
    ∃ pipes' total', readReady limit pipes events total = .ok (pipes', total') ∧
      ∀ pipe ∈ pipes', Reads content pipe := by
  induction pipes generalizing events total with
  | nil => exact ⟨[], total, rfl, by simp⟩
  | cons pipe pipes ih =>
    obtain ⟨hpipe, hpipes⟩ := List.forall_mem_cons.1 hreads
    rw [contentSize_cons, pipesSize_cons] at hroom
    have hlen := hpipe.pre.length_le
    by_cases hdone : pipe.done = true
    · simp only [HonestRound, hdone, ↓reduceIte] at hround
      have hrest : total + contentSize content pipes ≤ limit + pipesSize pipes := by
        rw [hpipe.done hdone] at hroom
        omega
      obtain ⟨pipes', total', hr, hreads'⟩ := ih hround hpipes hrest
      refine ⟨pipe :: pipes', total', ?_, List.forall_mem_cons.2 ⟨hpipe, hreads'⟩⟩
      rw [readReady, if_pos hdone, hr]; rfl
    · simp only [HonestRound, hdone, Bool.false_eq_true, ↓reduceIte] at hround
      have hpipeRoom : total + (content pipe.mime).length ≤ limit + pipe.data.length := by
        have := pipesSize_le hpipes
        omega
      obtain ⟨pipe₁, total₁, hp, hmime, hreads₁, hsum⟩ := handle_honest hround.1 hpipe hpipeRoom
      have hrest : total₁ + contentSize content pipes ≤ limit + pipesSize pipes := by
        have := hreads₁.pre.length_le
        rw [hmime] at this
        omega
      obtain ⟨pipes', total', hr, hreads'⟩ := ih hround.2 hpipes hrest
      refine ⟨pipe₁ :: pipes', total', ?_, List.forall_mem_cons.2 ⟨hreads₁, hreads'⟩⟩
      rw [readReady, if_neg hdone, hp]
      change (readReady limit pipes events.tail total₁ >>= _) = _
      rw [hr]; rfl

theorem readLoop_honest {polls : List PollResult} (hdel : Delivers content limit polls pipes total)
    (hreads : ∀ pipe ∈ pipes, Reads content pipe) (hle : total ≤ limit)
    (hroom : total + contentSize content pipes ≤ limit + pipesSize pipes)
    {result : Except PayloadReadError (List PayloadPipe)}
    (h : readLoop limit idleTimeout polls pipes total = some result) :
    ∃ pipes', result = .ok pipes' ∧ pipes'.map (·.mime) = pipes.map (·.mime) ∧
      ∀ pipe ∈ pipes', pipe.data = content pipe.mime := by
  have hdone : pipes.all (·.done) = true → ∀ pipe ∈ pipes, pipe.data = content pipe.mime :=
    fun hall pipe hp => (hreads pipe hp).done (List.all_eq_true.1 hall pipe hp)
  induction polls generalizing pipes total with
  | nil =>
    unfold readLoop at h
    split_ifs at h with hall
    cases h
    exact ⟨pipes, rfl, rfl, hdone hall⟩
  | cons poll polls ih =>
    unfold readLoop at h
    split_ifs at h with hall
    · cases h
      exact ⟨pipes, rfl, rfl, hdone hall⟩
    · cases poll with
      | interrupted => exact ih hdel hreads hle hroom h hdone
      | failed | timedOut => exact hdel.elim
      | ready events =>
        obtain ⟨pipes₁, total₁, hr, hreads₁⟩ := readReady_honest hdel.1 hreads hroom
        obtain ⟨hm, hle₁, hsum⟩ := readReady_ok hr hle
        dsimp only at h
        rw [hr] at h
        have hroom₁ : total₁ + contentSize content pipes₁ ≤ limit + pipesSize pipes₁ := by
          rw [contentSize_congr hm]
          omega
        obtain ⟨pipes', rfl, hm', hdata⟩ := ih (hdel.2 _ _ hr) hreads₁ hle₁ hroom₁ h
          fun hall pipe hp => (hreads₁ pipe hp).done (List.all_eq_true.1 hall pipe hp)
        exact ⟨pipes', rfl, hm'.trans hm, hdata⟩

/-- Sources whose content fits the limit and is not empty are read completely. -/
theorem readPayloadPipes_of_delivers {polls : List PollResult} {mimeTypes : List String}
    (hdel : Delivers content limit polls (newPipes mimeTypes) 0)
    (hsize : (mimeTypes.map fun mime => (content mime).length).sum ≤ limit)
    (hne : ∀ mime ∈ mimeTypes, content mime ≠ []) {result : Except PayloadReadError Payloads}
    (h : readPayloadPipes limit idleTimeout polls mimeTypes = some result) :
    result = .ok (mimeTypes.map fun mime => (mime, content mime)) := by
  have hreads : ∀ pipe ∈ newPipes mimeTypes, Reads content pipe := by
    intro pipe hp
    obtain ⟨mime, -, rfl⟩ := List.mem_map.1 hp
    exact ⟨List.nil_prefix, nofun⟩
  have hroom : 0 + contentSize content (newPipes mimeTypes) ≤ limit + pipesSize (newPipes mimeTypes) := by
    rw [contentSize, newPipes, List.map_map]
    exact (Nat.zero_add _).trans_le (hsize.trans (Nat.le_add_right _ _))
  obtain ⟨loop, hloop, rfl⟩ := Option.map_eq_some_iff.1 h
  obtain ⟨pipes, rfl, hm, hdata⟩ := readLoop_honest hdel hreads (Nat.zero_le _) hroom hloop
  have hmimes : pipes.map (·.mime) = mimeTypes := hm.trans (newPipes_mimes mimeTypes)
  refine congrArg Except.ok ?_
  rw [← hmimes, List.map_map, payloadsOf]
  rw [← List.filterMap_eq_map]
  refine List.filterMap_congr fun pipe hp => ?_
  have hpne : content pipe.mime ≠ [] := hne _ (hmimes ▸ List.mem_map_of_mem hp)
  simp [hpne, hdata pipe hp]

end

end Mimeclip
