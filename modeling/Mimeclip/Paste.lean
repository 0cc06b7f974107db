import Mimeclip.Identity
import Mimeclip.Lib.AskLoop
import Mimeclip.Restore

/-!
# Pasting a restored entry (`write_all_to_fd` of `daemon/restore.rs`)

An application that pastes sends a file descriptor, and the thread of the restored entry writes the data of the type
to it, after it has made the descriptor blocking. Whenever that ends, the application has got an initial part of what
one insertion has stored under the type, and all of it if `write_all_to_fd` returns `Ok` (`pasted_was_inserted`). That
is what it does as long as the application reads on (`paste_completes`).
-/

namespace Mimeclip

inductive WriteFailure
  -- `EAGAIN`, of a pipe that is full and not blocking
  | wouldBlock
  | brokenPipe
  | other (errno : Int)
deriving DecidableEq, Repr

/-- What `write` returns. -/
inductive WriteAnswer
  | wrote (n : Nat)
  | interrupted
  | failed (failure : WriteFailure)
deriving DecidableEq, Repr

inductive PasteError
  | fcntl
  | writeZero
  | write (failure : WriteFailure)
deriving DecidableEq, Repr

/-- `Write::write_all`: the bytes that are written, and what is returned, if it is not writing any more. -/
def Write.writeAll : List WriteAnswer → Bytes → Bytes × Option (Except PasteError Unit)
  | _, [] => ([], some (.ok ()))
  | [], _ :: _ => ([], none)
  | .wrote 0 :: _, _ :: _ => ([], some (.error .writeZero))
  | .wrote (n + 1) :: answers, b :: rest =>
    let (written, result) := Write.writeAll answers (rest.drop n)
    (b :: rest.take n ++ written, result)
  | .interrupted :: answers, b :: rest => Write.writeAll answers (b :: rest)
  | .failed failure :: _, _ :: _ => ([], some (.error (.write failure)))

/-- The descriptor, and whether `fcntl` succeeds on it. -/
structure PasteFd where
  nonblocking : Bool
  getfl : Bool
  setfl : Bool

def setFdBlocking (fd : PasteFd) : Except PasteError PasteFd :=
  if !fd.getfl then .error .fcntl
  else if fd.nonblocking then if fd.setfl then .ok { fd with nonblocking := false } else .error .fcntl
  else .ok fd

def writeAllToFd (fd : PasteFd) (answers : List WriteAnswer) (data : Bytes) : Bytes × Option (Except PasteError Unit) :=
  match setFdBlocking fd with
  | .error e => ([], some (.error e))
  | .ok _ => Write.writeAll answers data

/-- A `Send` event: what is written, and the result if there are data of the type. -/
def sendEvent (payloads : Payloads) (mimeType : String) (fd : PasteFd) (answers : List WriteAnswer) :
    Bytes × Option (Except PasteError Unit) :=
  match sendReply payloads mimeType with
  | some data => writeAllToFd fd answers data
  | none => ([], none)

/-! ### What is written -/

theorem Write.writeAll_prefix (answers : List WriteAnswer) (data : Bytes) :
    (Write.writeAll answers data).1 <+: data ∧
      ((Write.writeAll answers data).2 = some (.ok ()) ↔ (Write.writeAll answers data).1 = data) := by
  induction answers generalizing data with
  | nil =>
    cases data with
    | nil => exact ⟨List.nil_prefix, iff_of_true rfl rfl⟩
    | cons b rest => exact ⟨List.nil_prefix, iff_of_false nofun nofun⟩
  | cons answer answers ih =>
    cases data with
    | nil =>
      rw [Write.writeAll]
      exact ⟨List.nil_prefix, iff_of_true rfl rfl⟩
    | cons b rest =>
      cases answer with
      | interrupted => exact ih (b :: rest)
      | failed failure => exact ⟨List.nil_prefix, iff_of_false nofun nofun⟩
      | wrote n =>
        cases n with
        | zero => exact ⟨List.nil_prefix, iff_of_false nofun nofun⟩
        | succ n =>
          obtain ⟨hinitial, hall⟩ := ih (rest.drop n)
          rw [Write.writeAll]
          have hsplit : b :: rest = (b :: rest.take n) ++ rest.drop n := by
            rw [List.cons_append, List.take_append_drop]
          refine ⟨?_, hall.trans ?_⟩
          · rw [hsplit]
            exact (List.prefix_append_right_inj _).2 hinitial
          · conv_rhs => rw [hsplit]
            exact (List.append_cancel_left_eq ..).symm.to_iff

/-- What is written is an initial part of the data, if there are any, and all of it if `Ok` is returned. -/
theorem sendEvent_prefix {payloads : Payloads} {mimeType : String} {fd : PasteFd} {answers : List WriteAnswer}
    {written : Bytes} {result : Option (Except PasteError Unit)}
    (h : sendEvent payloads mimeType fd answers = (written, result)) :
    written = [] ∧ result ≠ some (.ok ()) ∨ ∃ data, (mimeType, data) ∈ payloads ∧ written <+: data ∧
      (result = some (.ok ()) → written = data) := by
  rw [sendEvent] at h
  cases hreply : sendReply payloads mimeType with
  | none =>
    rw [hreply] at h
    cases h
    exact .inl ⟨rfl, nofun⟩
  | some data =>
    rw [hreply] at h
    dsimp only at h
    obtain ⟨p, hp, rfl⟩ := Option.map_eq_some_iff.1 hreply
    have hmime : p.1 = mimeType := by simpa using List.find?_some hp
    have hmem : (mimeType, p.2) ∈ payloads := hmime ▸ List.mem_of_find?_eq_some hp
    rw [writeAllToFd] at h
    cases hfd : setFdBlocking fd with
    | error e =>
      rw [hfd] at h
      cases h
      exact .inl ⟨rfl, nofun⟩
    | ok fd' =>
      rw [hfd] at h
      obtain ⟨hinitial, hall⟩ := Write.writeAll_prefix answers p.2
      dsimp only at h
      rw [h] at hinitial hall
      exact .inr ⟨p.2, hmem, hinitial, hall.1⟩

namespace Lifetime
variable {T : Type} {events : List (LifetimeEvent T)}

/-- Whatever an application gets for a restored entry, over any number of lives of the daemon, is an initial part of
what the entry was inserted with under that type and that hash, or had at the start; and it is all of it where
`write_all_to_fd` returns `Ok`. -/
theorem pasted_was_inserted (env : Env T) (db : OpenDb) (hissued : db.conn.store.PayloadsIssued) {restoring : OpenDb}
    (hrun : Run (Step env.chrono env.plan) (.opened db) events (.opened restoring)) {now : T} {id : Int} {hash : String}
    {payloads : Payloads} {t : Store}
    (hrestore : (restoreLookup env now id).Returns restoring.conn.store (some (hash, payloads)) t) {mimeType : String}
    {fd : PasteFd} {answers : List WriteAnswer} {written : Bytes} {result : Option (Except PasteError Unit)}
    (hpaste : sendEvent payloads mimeType fd answers = (written, result)) :
    written = [] ∧ result ≠ some (.ok ()) ∨
      ∃ data, written <+: data ∧ (result = some (.ok ()) → written = data) ∧
        ((∃ r₀ ∈ db.conn.store.entries, r₀.id = id ∧ r₀.hash = hash ∧
            (mimeType, data) ∈ db.conn.store.rawPayloads id) ∨
          ∃ entry out, .call (.insert entry) out ∈ events ∧ entry.hash = hash ∧ (mimeType, data) ∈ entry.payloads) := by
  rcases sendEvent_prefix hpaste with hnothing | ⟨data, hmem, hinitial, hall⟩
  · exact .inl hnothing
  refine .inr ⟨data, hinitial, hall, ?_⟩
  obtain ⟨⟨r, hr, rfl, rfl⟩, rfl, -⟩ := restoreLookup_returns env hrestore
  obtain ⟨c, hhistory, hshows⟩ := (Shows.opened db).of_run hrun
  cases hshows
  rcases (HistoryEvent.Origin.of_run hhistory hissued).rows r hr with ⟨r₀, hkept⟩ |
    ⟨entry, out, hcall, hhash, -, hfirst, -⟩
  · rw [hkept.rawPayloads] at hmem
    exact .inl ⟨r₀, hkept.mem, hkept.id.symm, hkept.hash.symm, hkept.id ▸ hmem⟩
  · exact .inr ⟨entry, out, LifetimeEvent.call_of_seen hcall, hhash.symm, hfirst.subset hmem⟩

/-- The text is pasted in two parts, after the daemon has been restarted. -/
theorem pasted_was_inserted_hi :
    asBytes "hi" = [] ∧ some (.ok ()) ≠ (some (.ok ()) : Option (Except PasteError Unit)) ∨
      ∃ data, asBytes "hi" <+: data ∧ (some (.ok ()) = (some (.ok ()) : Option (Except PasteError Unit)) →
          asBytes "hi" = data) ∧
        ((∃ r₀ ∈ emptyHistory.conn.store.entries, r₀.id = 1 ∧ r₀.hash = hiHash ∧
            ("text/plain", data) ∈ emptyHistory.conn.store.rawPayloads 1) ∨
          ∃ entry out, .call (.insert entry) out ∈ [hiInserted] ++ [.exited, .started .default] ∧ entry.hash = hiHash ∧
            ("text/plain", data) ∈ entry.payloads) := by
  have hrestore : (restoreLookup Env.sample 2 1).Returns hiHistory.conn.store
      (some (hiHash, [("text/plain", asBytes "hi")])) _ := Script.returns_of_run rfl rfl
  have hpaste : sendEvent [("text/plain", asBytes "hi")] "text/plain" ⟨true, true, true⟩
      [.wrote 1, .interrupted, .wrote 1] = (asBytes "hi", some (.ok ())) := by decide
  exact pasted_was_inserted .sample emptyHistory (by decide) (hiInserted_run.append hi_restarted) hrestore hpaste

end Lifetime

/-! ### Applications that read on -/

/-- `Write.writeAll` as a loop that asks `write`, in a state that is left to write. -/
def writingLoop : AskLoop Bytes WriteAnswer (Except PasteError Unit) where
  exit rest := if rest = [] then some (.ok ()) else none
  step rest answer :=
    match answer with
    | .wrote 0 => .error (.error .writeZero)
    | .wrote (n + 1) => .ok (rest.drop (n + 1))
    | .interrupted => .ok rest
    | .failed failure => .error (.error (.write failure))

theorem Write.writeAll_eq_run (answers : List WriteAnswer) (data : Bytes) :
    (Write.writeAll answers data).2 = writingLoop.run answers data := by
  induction answers generalizing data with
  | nil => cases data <;> rfl
  | cons answer answers ih =>
    cases data with
    | nil => rw [Write.writeAll]; rfl
    | cons b rest =>
      cases answer with
      | interrupted => exact ih (b :: rest)
      | failed failure => rfl
      | wrote n =>
        cases n with
        | zero => rfl
        | succ n => exact ih (rest.drop n)

/-- What `write` may return while the application keeps its end open and reads: of a blocking descriptor no `EAGAIN`. -/
def PasteFd.ReadOn (fd : PasteFd) : WriteAnswer → Prop
  | .wrote n => 0 < n
  | .interrupted => True
  | .failed failure => failure = .wouldBlock ∧ fd.nonblocking = true

def WriteAnswer.counts : WriteAnswer → Bool
  | interrupted => false
  | _ => true

theorem writingLoop_goesOn {fd : PasteFd} (hfd : fd.nonblocking = false) {answer : WriteAnswer}
    (h : fd.ReadOn answer) (rest : Bytes) : ∃ rest', writingLoop.step rest answer = .ok rest' := by
  cases answer with
  | interrupted => exact ⟨_, rfl⟩
  | wrote n =>
    obtain ⟨n, rfl⟩ := Nat.exists_eq_succ_of_ne_zero (Nat.pos_iff_ne_zero.1 h)
    exact ⟨_, rfl⟩
  | failed failure =>
    obtain ⟨-, hnonblocking⟩ := h
    rw [hfd] at hnonblocking
    cases hnonblocking

theorem writingLoop_exit {rest : Bytes} {result : Except PasteError Unit} (h : writingLoop.exit rest = some result) :
    result = .ok () := by
  unfold writingLoop at h
  dsimp only at h
  split_ifs at h
  cases h
  rfl

/-- What is left to write, and an answer that is no `EINTR` leaves less. -/
def writingRanking (fd : PasteFd) (hfd : fd.nonblocking = false) :
    writingLoop.Ranking (fun _ answer => fd.ReadOn answer) (·.counts) where
  inv _ := True
  rank := List.length
  pos {rest} _ hasks := by
    refine List.length_pos_iff.2 ?_
    rintro rfl
    cases hasks
  lowers {rest rest' answer} _ hallowed hgo := by
    obtain ⟨hasks, hstep⟩ := hgo
    have hne : rest ≠ [] := by
      rintro rfl
      cases hasks
    refine ⟨trivial, ?_⟩
    cases answer with
    | interrupted =>
      cases hstep
      exact Nat.le_refl _
    | failed failure =>
      obtain ⟨-, hnonblocking⟩ := hallowed
      rw [hfd] at hnonblocking
      cases hnonblocking
    | wrote n =>
      obtain ⟨n, rfl⟩ := Nat.exists_eq_succ_of_ne_zero (Nat.pos_iff_ne_zero.1 hallowed)
      cases hstep
      have hpos := List.length_pos_iff.2 hne
      rw [List.length_drop]
      show rest.length - (n + 1) + 1 ≤ rest.length
      omega

theorem setFdBlocking_blocking {fd fd' : PasteFd} (h : setFdBlocking fd = .ok fd') : fd'.nonblocking = false := by
  rw [setFdBlocking] at h
  split_ifs at h with hgetfl hnonblocking hsetfl
  · cases h
    rfl
  · cases h
    exact Bool.eq_false_iff.2 hnonblocking

/-- Where `fcntl` succeeds and the application reads on, all of the data is written, with at most as many calls of
`write` that are not interrupted as there are bytes, even if the descriptor was not blocking. -/
theorem paste_completes {fd fd' : PasteFd} {data : Bytes} {answers : Stream' WriteAnswer}
    (hfd : setFdBlocking fd = .ok fd')
    (hreads : ∀ k, (Write.writeAll (answers.take k) data).2 = none → fd'.ReadOn (answers.get k))
    (hanswers : ∀ k, ∃ j, k ≤ j ∧ answers.get j ≠ .interrupted) :
    ∃ m, writeAllToFd fd (answers.take m) data = (data, some (.ok ())) ∧
      (∀ k < m, (writeAllToFd fd (answers.take k) data).2 = none) ∧
      (answers.take m).countP (·.counts) ≤ data.length := by
  have hto : ∀ answers, writeAllToFd fd answers data = Write.writeAll answers data := by
    intro answers
    rw [writeAllToFd, hfd]
  have hallows : writingLoop.Allows (fun _ answer => fd'.ReadOn answer) data answers := by
    intro k rest hrun hasks
    refine hreads k ?_
    rw [Write.writeAll_eq_run]
    exact AskLoop.run_eq_none.2 ⟨rest, hrun, hasks⟩
  have hcounts : ∀ k, writingLoop.run (answers.take k) data = none → ∃ j, k ≤ j ∧ (answers.get j).counts = true := by
    intro k _
    obtain ⟨j, hkj, hne⟩ := hanswers k
    refine ⟨j, hkj, ?_⟩
    cases h : answers.get j <;> first | rfl | exact absurd h hne
  obtain ⟨m, result, hreturns, hbefore, hle⟩ :=
    (writingRanking fd' (setFdBlocking_blocking hfd)).stops hallows trivial hcounts
  obtain ⟨rest, hexit⟩ := hallows.exits
    (fun rest _ hallowed => writingLoop_goesOn (setFdBlocking_blocking hfd) hallowed rest) hreturns hbefore
  have hok : (Write.writeAll (answers.take m) data).2 = some (.ok ()) := by
    rw [Write.writeAll_eq_run, hreturns, writingLoop_exit hexit]
  refine ⟨m, ?_, fun k hk => ?_, hle⟩
  · rw [hto]
    exact Prod.ext ((Write.writeAll_prefix _ _).2.1 hok) hok
  · rw [hto, Write.writeAll_eq_run]
    exact hbefore k hk

def bytewise : Stream' WriteAnswer := Stream'.const (.wrote 1)

/-- A pipe that takes one byte at a time, of an application that has made it non-blocking. -/
theorem paste_completes_hi :
    ∃ m, writeAllToFd ⟨true, true, true⟩ (bytewise.take m) (asBytes "hi") = (asBytes "hi", some (.ok ())) ∧
      (∀ k < m, (writeAllToFd ⟨true, true, true⟩ (bytewise.take k) (asBytes "hi")).2 = none) ∧
      (bytewise.take m).countP (·.counts) ≤ (asBytes "hi").length := by
  have hfd : setFdBlocking ⟨true, true, true⟩ = .ok ⟨false, true, true⟩ := rfl
  have hone : ∀ k, bytewise.get k = .wrote 1 := fun _ => rfl
  refine paste_completes hfd (fun k _ => ?_) fun k => ⟨k, Nat.le_refl k, ?_⟩
  · rw [hone]
    exact Nat.one_pos
  · rw [hone]
    nofun

end Mimeclip
