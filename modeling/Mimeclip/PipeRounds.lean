import Mimeclip.Lib.AskLoop
import Mimeclip.PipeHistory

/-!
# How long the pipes are read

`read_payload_pipes` has no counter, but what is left to do gets less in every round: the bytes that still fit the
limit, and the pipes that are not done (`workLeft`). Data takes a byte at least, and everything else that can be met
at a pipe ends the pipe. So the loop returns after at most as many rounds as there are bytes in the limit and pipes,
whatever the sources do, if `poll` does not return `EINTR` forever and its counts are right
(`readPayloadPipes_stops`).
-/

namespace Mimeclip

/-! ### What is left to do -/

def PipeEvent.isIdle : PipeEvent → Bool
  | idle => true
  | invalid | eof | chunk _ | failed => false

/-- How many of the first `n` events are those of a pipe that `poll` has found something at. -/
def readyCount (n : Nat) (events : List PipeEvent) : Nat := (events.take n).countP (!·.isIdle)

def workLeft (limit : Nat) (pipes : List PayloadPipe) (totalSize : Nat) : Nat := limit - totalSize + activeCount pipes

section
variable {limit total total' : Nat} {pipe pipe' : PayloadPipe} {pipes pipes' : List PayloadPipe}

theorem activeCount_cons : activeCount (pipe :: pipes) = (if pipe.done then 0 else 1) + activeCount pipes := by
  unfold activeCount
  cases hdone : pipe.done with
  | true => simp [hdone]
  | false => simp [hdone, Nat.add_comm]

theorem activeCount_pos (h : pipes.all (·.done) = false) : 0 < activeCount pipes := by
  obtain ⟨pipe, hmem, hdone⟩ := List.all_eq_false.1 h
  exact List.length_pos_of_mem (List.mem_filter.2 ⟨hmem, by simpa using hdone⟩)

theorem workLeft_cons : workLeft limit (pipe :: pipes) total =
    (if pipe.done then 0 else 1) + workLeft limit pipes total := by
  unfold workLeft
  rw [activeCount_cons]
  omega

theorem activeCount_newPipes (mimeTypes : List String) : activeCount (newPipes mimeTypes) = mimeTypes.length := by
  have hactive : ∀ pipe ∈ newPipes mimeTypes, (!pipe.done) = true := by
    intro pipe hmem
    obtain ⟨mime, -, rfl⟩ := List.mem_map.1 hmem
    rfl
  rw [activeCount, List.filter_eq_self.2 hactive, newPipes, List.length_map]

theorem workLeft_newPipes (limit : Nat) (mimeTypes : List String) :
    workLeft limit (newPipes mimeTypes) 0 = limit + mimeTypes.length := by
  rw [workLeft, activeCount_newPipes, Nat.sub_zero]

theorem handle_lowers {e : PipeEvent} (h : pipe.handle limit total e = .ok (pipe', total'))
    (hactive : pipe.done = false) :
    (if pipe'.done then 0 else 1) + (limit - total') + (if e.isIdle then 0 else 1) ≤ 1 + (limit - total) := by
  cases e with
  | idle =>
    cases h
    simp [hactive, PipeEvent.isIdle]
  | invalid | eof | failed =>
    cases h
    simp [PipeEvent.isIdle, Nat.add_comm]
  | chunk c =>
    have hpos := List.length_pos_iff.2 c.nonempty
    unfold PayloadPipe.handle at h
    dsimp only at h
    split_ifs at h with hlarge
    cases h
    simp only [hactive, PipeEvent.isIdle, Bool.false_eq_true, ↓reduceIte]
    omega

theorem readyCount_succ (n : Nat) (events : List PipeEvent) :
    readyCount (n + 1) events = (if (events.headD .idle).isIdle then 0 else 1) + readyCount n events.tail := by
  unfold readyCount
  cases events with
  | nil => simp [PipeEvent.isIdle]
  | cons e events =>
    rw [List.take_succ_cons, List.countP_cons, Nat.add_comm]
    cases e <;> rfl

/-- Every event that a round meets leaves less to do. -/
theorem readReady_lowers {events : List PipeEvent} (h : readReady limit pipes events total = .ok (pipes', total')) :
    workLeft limit pipes' total' + readyCount (activeCount pipes) events ≤ workLeft limit pipes total := by
  induction pipes generalizing events total pipes' total' with
  | nil =>
    cases h
    exact Nat.le_refl _
  | cons pipe pipes ih =>
    rw [readReady] at h
    split_ifs at h with hdone
    · obtain ⟨⟨rest, total₁⟩, hr, h⟩ := Except.bind_ok.1 h
      cases h
      have hrest := ih hr
      simp only [workLeft_cons, activeCount_cons, hdone, ↓reduceIte, Nat.zero_add]
      exact hrest
    · obtain ⟨⟨pipe₁, total₁⟩, hp, h⟩ := Except.bind_ok.1 h
      obtain ⟨⟨rest, total₂⟩, hr, h⟩ := Except.bind_ok.1 h
      cases h
      have hpipe := handle_lowers hp (Bool.eq_false_iff.2 hdone)
      have hrest := ih hr
      rw [workLeft_cons, workLeft_cons, activeCount_cons, if_neg hdone, Nat.add_comm 1 (activeCount pipes),
        readyCount_succ]
      unfold workLeft at hrest ⊢
      omega

end

/-! ### The loop and `poll` -/

/-- `poll` is not called again in this round. -/
def PollResult.endsWait : PollResult → Bool
  | interrupted => false
  | failed _ | timedOut | ready _ => true

theorem endsWait_iff {poll : PollResult} : poll.endsWait = true ↔ poll ≠ .interrupted := by
  cases poll <;> simp [PollResult.endsWait]

/-- In each round one result of `poll` is no `EINTR`. -/
def rounds (polls : List PollResult) : Nat := polls.countP (·.endsWait)

/-- Where `poll` says that some pipes are ready, it has found something at one of those that are polled. -/
def PollResult.Reports (pipes : List PayloadPipe) : PollResult → Prop
  | ready events => 0 < readyCount (activeCount pipes) events
  | interrupted | failed _ | timedOut => True

/-- What `poll` returns while the pipes are read. -/
structure Polling (limit idleTimeout : Nat) (mimeTypes : List String) (polls : Stream' PollResult) : Prop where
  answers : ∀ k, readPayloadPipes limit idleTimeout (polls.take k) mimeTypes = none →
    ∃ j, k ≤ j ∧ polls.get j ≠ .interrupted
  reports : ∀ k pipes totalSize, readPayloadPipes limit idleTimeout (polls.take k) mimeTypes = none →
    readRounds limit (polls.take k) (newPipes mimeTypes) 0 = .ok (pipes, totalSize) → (polls.get k).Reports pipes

theorem readPayloadPipes_eq_none {limit idleTimeout : Nat} {polls : List PollResult} {mimeTypes : List String} :
    readPayloadPipes limit idleTimeout polls mimeTypes = none ↔
      (readingLoop limit idleTimeout).run polls (newPipes mimeTypes, 0) = none := by
  rw [readPayloadPipes, Option.map_eq_none_iff, readLoop_eq_run]

/-- What is left to do, and a round that `poll` ends leaves less. -/
def readingRanking (limit idleTimeout : Nat) :
    (readingLoop limit idleTimeout).Ranking (fun s poll => poll.Reports s.1) (·.endsWait) where
  inv s := s.2 ≤ limit
  rank s := workLeft limit s.1 s.2
  pos _ hasks := Nat.add_pos_right _ (activeCount_pos (readingLoop_asks.1 hasks))
  lowers {s t poll} hle hreports hgo := by
    rcases readingLoop_goesOn hgo with ⟨rfl, rfl⟩ | ⟨events, rfl, hr⟩
    · exact ⟨hle, Nat.le_refl _⟩
    · refine ⟨(readReady_ok hr hle).2.1, ?_⟩
      have hready : 0 < readyCount (activeCount s.1) events := hreports
      have hlowers := readReady_lowers hr
      show workLeft limit t.1 t.2 + 1 ≤ workLeft limit s.1 s.2
      omega

/-! ### A source that never stops -/

/-- The loop polls some pipe. -/
theorem activeCount_pos_of_waits {limit idleTimeout total : Nat} {polls : List PollResult} {mimeTypes : List String}
    {pipes : List PayloadPipe} (h : readPayloadPipes limit idleTimeout polls mimeTypes = none)
    (hrounds : readRounds limit polls (newPipes mimeTypes) 0 = .ok (pipes, total)) : 0 < activeCount pipes := by
  obtain ⟨t, hrun, hasks⟩ := AskLoop.run_eq_none.1 (readPayloadPipes_eq_none.1 h)
  have ht := readRounds_of_run hrun
  rw [hrounds] at ht
  cases ht
  exact activeCount_pos (readingLoop_asks.1 hasks)

def endless (c : Chunk) : Stream' PollResult := Stream'.const (.ready [.chunk c])

theorem polling_endless (limit idleTimeout : Nat) (mimeTypes : List String) (c : Chunk) :
    Polling limit idleTimeout mimeTypes (endless c) where
  answers k _ := ⟨k, Nat.le_refl k, nofun⟩
  reports k pipes total hwaits hrounds := by
    have hpos := activeCount_pos_of_waits hwaits hrounds
    obtain ⟨n, hn⟩ := Nat.exists_eq_succ_of_ne_zero hpos.ne'
    show 0 < readyCount (activeCount pipes) [.chunk c]
    rw [hn, readyCount_succ]
    exact Nat.lt_of_lt_of_le Nat.one_pos (Nat.le_add_right 1 _)

theorem readLoop_endless {limit idleTimeout total : Nat} (c : Chunk) (k : Nat) {pipe : PayloadPipe}
    (hactive : pipe.done = false) (hle : total ≤ limit) :
    readLoop limit idleTimeout ((endless c).take k) [pipe] total =
      if total + k * c.bytes.length ≤ limit then none else some (.error (.tooLarge limit)) := by
  have hall : [pipe].all (·.done) = false := by rw [List.all_cons, hactive, Bool.false_and]
  induction k generalizing pipe total with
  | zero =>
    rw [Stream'.take_zero, readLoop, if_neg (Bool.eq_false_iff.1 hall), if_pos (by omega)]
  | succ k ih =>
    have htake : (endless c).take (k + 1) = .ready [.chunk c] :: (endless c).take k := rfl
    rw [htake, readLoop, if_neg (Bool.eq_false_iff.1 hall), Nat.succ_mul,
      readReady, if_neg (Bool.eq_false_iff.1 hactive), List.headD_cons, PayloadPipe.handle]
    by_cases hlarge : c.bytes.length > limit - total
    · rw [if_pos hlarge, if_neg (by omega)]
      rfl
    · rw [if_neg hlarge]
      have hrest := @ih (total + c.bytes.length) { pipe with data := pipe.data ++ c.bytes } hactive (by omega) hall
      rw [Nat.add_assoc, Nat.add_comm c.bytes.length] at hrest
      exact hrest

/-- A source that sends chunks without end is read until one of them does not fit the limit. If they are of one byte,
this takes one round more than there are bytes in the limit. -/
theorem readPayloadPipes_endless (limit idleTimeout : Nat) (mime : String) (c : Chunk) (k : Nat) :
    readPayloadPipes limit idleTimeout ((endless c).take k) [mime] =
      if k * c.bytes.length ≤ limit then none else some (.error (.tooLarge limit)) := by
  have hloop := @readLoop_endless limit idleTimeout 0 c k ⟨mime, [], false⟩ rfl (Nat.zero_le limit)
  rw [Nat.zero_add] at hloop
  rw [readPayloadPipes, newPipes, List.map_singleton, hloop]
  split_ifs <;> rfl

/-! ### The bound -/

/-- The pipes are read in at most as many rounds as there are bytes in the limit and pipes. -/
theorem readPayloadPipes_stops {limit idleTimeout : Nat} {mimeTypes : List String} {polls : Stream' PollResult}
    (h : Polling limit idleTimeout mimeTypes polls) :
    ∃ m result, readPayloadPipes limit idleTimeout (polls.take m) mimeTypes = some result ∧
      (∀ k < m, readPayloadPipes limit idleTimeout (polls.take k) mimeTypes = none) ∧
      rounds (polls.take m) ≤ limit + mimeTypes.length := by
  have hallows : (readingLoop limit idleTimeout).Allows (fun s poll => poll.Reports s.1) (newPipes mimeTypes, 0)
      polls := by
    intro k t hrun hasks
    have hwaits := readPayloadPipes_eq_none.2 (AskLoop.run_eq_none.2 ⟨t, hrun, hasks⟩)
    exact h.reports k t.1 t.2 hwaits (readRounds_of_run hrun)
  have hanswers : ∀ k, (readingLoop limit idleTimeout).run (polls.take k) (newPipes mimeTypes, 0) = none →
      ∃ j, k ≤ j ∧ (polls.get j).endsWait = true := by
    intro k hk
    obtain ⟨j, hkj, hne⟩ := h.answers k (readPayloadPipes_eq_none.2 hk)
    exact ⟨j, hkj, endsWait_iff.2 hne⟩
  obtain ⟨m, result, hreturns, hbefore, hrounds⟩ :=
    (readingRanking limit idleTimeout).stops hallows (Nat.zero_le limit) hanswers
  refine ⟨m, result.map payloadsOf, ?_, ?_, ?_⟩
  · rw [readPayloadPipes, readLoop_eq_run, hreturns]
    rfl
  · intro k hk
    exact readPayloadPipes_eq_none.2 (hbefore k hk)
  · rw [← workLeft_newPipes]
    exact hrounds

theorem readPayloadPipes_stops_hi :
    ∃ m result, readPayloadPipes maxPayloadBytes payloadReadIdleTimeout ((endless hiChunk).take m) ["text/plain"] =
        some result ∧
      (∀ k < m, readPayloadPipes maxPayloadBytes payloadReadIdleTimeout ((endless hiChunk).take k) ["text/plain"] =
        none) ∧
      rounds ((endless hiChunk).take m) ≤ maxPayloadBytes + 1 :=
  readPayloadPipes_stops (polling_endless maxPayloadBytes payloadReadIdleTimeout ["text/plain"] hiChunk)

end Mimeclip
