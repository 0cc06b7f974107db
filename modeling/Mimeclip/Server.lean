import Mimeclip.Capture
import Mimeclip.ConfigFile
import Mimeclip.Screenshot

/-!
# Serving a client (`daemon/server.rs`)

`dispatch` answers a request, `handle_client` the lines of a client one after the other. What `serde_json` does not
read is answered with an error, but a line that is not UTF-8 ends the connection without a word: the requests of a
client are answered one by one if and only if there is no such line (`handleClient_serves_iff`).
-/

namespace Mimeclip

inductive Request
  | list (limit : Option UInt64)
  | decode (id : Int)
  | delete (id : Int)
  | restore (id : Int)
  | offerScreenshot (path : String)
  | reloadConfig
  | clear
  | ping
deriving DecidableEq, Repr

inductive Response (T : Type)
  | ok
  | list (entries : List (Entry T))
  | decode (payloads : List MimePayload)
  | error (message : String)
  | pong

/-- `serde_json` for the two types; an error is given as it is displayed. -/
structure SerdeJson (T : Type) where
  fromStr : String → Except String Request
  toString : Response T → String

/-- What the requests share: the functions that are not part of the repository, and the daemon's working directory
and configuration path. -/
structure Host (T : Type) where
  env : Env T
  toml : Toml
  json : SerdeJson T
  -- the standard Base64 encoder
  b64 : Bytes → String
  -- the `{:?}` of a `str`
  debug : String → String
  sqlMessage : Failure SqlError → String
  cwd : List Bytes
  configPath : String

/-- What the threads of the daemon share, and the payloads that restoring threads were spawned for. -/
structure Daemon where
  conn : Connection
  suppress : SuppressState
  offers : List Payloads

/-- What a request meets: what the other threads did before it, the clocks, the statements that still come about,
the environment and the files. -/
structure Moment (T : Type) where
  others : Daemon → Daemon
  now : T
  instant : Nat
  budget : Option Nat
  environment : Environment
  configFile : SavedFile
  fs : FileSystem

variable {T : Type}

/-! ### `dispatch` -/

def Daemon.exec {α : Type} (d : Daemon) (budget : Option Nat) (script : Database.Sql α) :
    Except (Failure SqlError) α × Daemon :=
  let (result, store, _) := script.run budget d.conn.store
  (result, { d with conn := { d.conn with store } })

/-- `Database::reload_config`, on the configuration that is loaded. -/
def reloadConfig (host : Host T) (moment : Moment T) (d : Daemon) (limits : Limits) :
    Except (Failure SqlError) Unit × Daemon :=
  let setLimits := d.conn.self.setLimits host.env.plan limits
  Daemon.exec { d with conn := { d.conn with self := d.conn.self.withLimits limits } } moment.budget setLimits

def dispatch (host : Host T) (moment : Moment T) (d : Daemon) : Request → Response T × Daemon
  | .ping => (.pong, d)
  | .reloadConfig =>
    match Config.load host.toml moment.environment moment.configFile with
    | .error e => (.error (e.message host.debug host.configPath), d)
    | .ok config =>
      match config.limits with
      | .error e => (.error (e.message host.debug), d)
      | .ok limits =>
        match reloadConfig host moment d limits with
        | (.ok (), d) => (.ok, d)
        | (.error e, d) => (.error (host.sqlMessage e), d)
  | .list limit =>
    match d.exec moment.budget (Database.list host.env.chrono host.env.plan moment.now (limit.getD 200)) with
    | (.ok entries, d) => (.list entries, d)
    | (.error e, d) => (.error (host.sqlMessage e), d)
  | .decode id =>
    match d.exec moment.budget (Database.getPayloads host.b64 id) with
    | (.ok payloads, d) => (.decode payloads, d)
    | (.error e, d) => (.error (host.sqlMessage e), d)
  | .delete id =>
    match d.exec moment.budget (Database.delete id) with
    | (.ok true, d) => (.ok, d)
    | (.ok false, d) => (.error ("no entry with id " ++ toString id), d)
    | (.error e, d) => (.error (host.sqlMessage e), d)
  | .offerScreenshot path =>
    match screenshotPayloads moment.fs host.cwd path with
    | .ok payloads => (.ok, { d with offers := d.offers ++ [payloads] })
    | .error e => (.error e.message, d)
  | .clear =>
    match d.exec moment.budget Database.clear with
    | (.ok _, d) => (.ok, d)
    | (.error e, d) => (.error (host.sqlMessage e), d)
  | .restore id =>
    match d.exec moment.budget (restoreLookup host.env moment.now id) with
    | (.ok (some (hash, payloads)), d) =>
      (.ok, { d with suppress := d.suppress.armAt hash moment.instant, offers := d.offers ++ [payloads] })
    | (.ok none, d) => (.error ("no entry with id " ++ toString id), d)
    | (.error e, d) => (.error (host.sqlMessage e), d)

/-! ### `handle_client` -/

/-- `BufRead::read_until` a newline, which is part of what is read, to the end. -/
def readLines : Bytes → Bytes → List Bytes
  | [], [] => []
  | line, [] => [line]
  | line, b :: bytes => if b = 10 then (line ++ [10]) :: readLines [] bytes else readLines (line ++ [b]) bytes

/-- `String::from_utf8`: decoding replaces nothing. -/
def fromUtf8 (bytes : Bytes) : Option String :=
  if asBytes (fromUtf8Lossy bytes) = bytes then some (fromUtf8Lossy bytes) else none

/-- An item of `BufRead::lines`; `none` is an error. A carriage return goes with the newline after it only. -/
def decodeLine (line : Bytes) : Option String :=
  (fromUtf8 line).map fun s =>
    if s.toList.getLast? = some '\n' then String.ofList (stripCr s.toList.dropLast) else s

def handleLine (host : Host T) (moment : Moment T) (d : Daemon) (line : String) : Response T × Daemon :=
  match host.json.fromStr line with
  | .error e => (.error ("parse error: " ++ e), d)
  | .ok req => dispatch host moment d req

def writeResponse (host : Host T) (response : Response T) : Bytes := asBytes (host.json.toString response) ++ [10]

/-- The bytes written, and what the daemon is then. -/
def handleLines (host : Host T) (d : Daemon) : List (Bytes × Moment T) → Bytes × Daemon
  | [] => ([], d)
  | (line, moment) :: lines =>
    match decodeLine line with
    | none => ([], moment.others d)
    | some line =>
      let d := moment.others d
      if line = "" then handleLines host d lines
      else
        let (response, d) := handleLine host moment d line
        let (out, d) := handleLines host d lines
        (writeResponse host response ++ out, d)

/-- `moments` is what the lines meet, one after the other. -/
def handleClient (host : Host T) (moments : Nat → Moment T) (d : Daemon) (bytes : Bytes) : Bytes × Daemon :=
  handleLines host d ((readLines [] bytes).mapIdx fun i line => (line, moments i))

/-! ### Lines -/

/-- What a client ends with a newline. -/
abbrev Line := { line : Bytes // 10 ∉ line }

def stream (lines : List Line) : Bytes := lines.flatMap fun line => line.val ++ [10]

theorem readLines_append {line part bytes : Bytes} (h : 10 ∉ line) :
    readLines part (line ++ 10 :: bytes) = (part ++ line ++ [10]) :: readLines [] bytes := by
  induction line generalizing part with
  | nil => rw [List.nil_append, List.append_nil, readLines, if_pos rfl]
  | cons b line ih =>
    obtain ⟨hb, hline⟩ := List.ne_and_not_mem_of_not_mem_cons h
    rw [List.cons_append, readLines, if_neg hb.symm, ih hline]
    simp only [List.append_assoc, List.cons_append, List.nil_append]

theorem readLines_stream (lines : List Line) :
    readLines [] (stream lines) = lines.map fun line => line.val ++ [10] := by
  induction lines with
  | nil => rfl
  | cons line lines ih =>
    rw [stream, List.flatMap_cons, List.append_assoc, List.singleton_append, readLines_append line.property,
      List.nil_append, List.map_cons, ← ih]
    rfl

def IsUtf8 (line : Bytes) : Prop := ∃ text, asBytes text = line

theorem fromUtf8_eq_some {bytes : Bytes} {text : String} : fromUtf8 bytes = some text ↔ asBytes text = bytes := by
  rw [fromUtf8]
  constructor
  · intro h
    split_ifs at h with hbytes
    cases h
    exact hbytes
  · rintro rfl
    rw [fromUtf8Lossy_asBytes, if_pos rfl]

theorem eq_newline_of_mem {c : Char} (h : 10 ∈ String.utf8EncodeChar c) : c = '\n' := by
  have hcode : c.toNat = 10 := toNat_of_mem_utf8EncodeChar (by decide) h
  rw [← Char.ofNat_toNat c, hcode]

theorem notMem_asBytes {text : String} (h : '\n' ∉ text.toList) : 10 ∉ asBytes text := by
  intro hmem
  rw [asBytes_eq] at hmem
  obtain ⟨c, hc, hb⟩ := List.mem_flatMap.1 hmem
  exact h (eq_newline_of_mem hb ▸ hc)

/-- The newline is a character of its own. -/
theorem fromUtf8_newline (line : Bytes) : fromUtf8 (line ++ [10]) = (fromUtf8 line).map (· ++ "\n") := by
  ext text
  simp only [Option.map_eq_some_iff, fromUtf8_eq_some]
  constructor
  · intro h
    rcases List.eq_nil_or_concat text.toList with hnil | ⟨cs, c, hcs⟩
    · rw [asBytes_eq, hnil] at h
      exact absurd h.symm (by simp)
    rw [List.concat_eq_append] at hcs
    rw [asBytes_eq, hcs, List.flatMap_append, List.flatMap_singleton] at h
    have hlast := congrArg List.getLast? h
    rw [List.getLast?_append_of_ne_nil _ String.utf8EncodeChar_ne_nil, List.getLast?_concat] at hlast
    obtain rfl := eq_newline_of_mem (List.mem_of_getLast? hlast)
    refine ⟨String.ofList cs, ?_, ?_⟩
    · rw [asBytes_eq, String.toList_ofList]
      exact List.append_cancel_right h
    · exact String.toList_inj.1 (by rw [String.toList_append, String.toList_ofList, hcs]; rfl)
  · rintro ⟨before, hbefore, rfl⟩
    rw [asBytes_append, hbefore]
    rfl

theorem decodeLine_newline (line : Bytes) :
    decodeLine (line ++ [10]) = (fromUtf8 line).map fun s => String.ofList (stripCr s.toList) := by
  rw [decodeLine, fromUtf8_newline, Option.map_map]
  congr 1
  funext s
  simp

example : decodeLine [104, 13, 10] = some "h" ∧ decodeLine [104, 13] = some "h\r" := by decide

theorem decodeLine_eq_none {line : Bytes} : decodeLine (line ++ [10]) = none ↔ ¬ IsUtf8 line := by
  rw [decodeLine_newline, Option.map_eq_none_iff, Option.eq_none_iff_forall_not_mem, IsUtf8, not_exists]
  exact forall_congr' fun text => not_congr fromUtf8_eq_some

/-- A line that is empty to `BufRead::lines`, which takes a carriage return before the newline. -/
theorem decodeLine_eq_empty {line : Bytes} : decodeLine (line ++ [10]) = some "" ↔ line = [] ∨ line = [13] := by
  rw [decodeLine_newline]
  constructor
  · intro h
    obtain ⟨text, htext, hempty⟩ := Option.map_eq_some_iff.1 h
    rw [fromUtf8_eq_some] at htext
    rw [String.ofList_eq_empty_iff, stripCr] at hempty
    have hchars : text.toList = [] ∨ text.toList = ['\r'] := by
      split_ifs at hempty with hlast
      · rw [List.getLast?_eq_some_iff] at hlast
        obtain ⟨before, hbefore⟩ := hlast
        rw [hbefore, List.dropLast_concat] at hempty
        exact .inr (by rw [hbefore, hempty]; rfl)
      · exact .inl hempty
    rcases hchars with hchars | hchars
    · exact .inl (by rw [← htext, asBytes_eq, hchars]; rfl)
    · exact .inr (by rw [← htext, asBytes_eq, hchars]; rfl)
  · rintro (rfl | rfl) <;> decide

/-! ### Answers -/

section
variable (host : Host T)

/-- `serde_json` reads the line, which ends before the carriage return if there is one. -/
def IsRequest (line : Bytes) (req : Request) : Prop :=
  ∃ text, decodeLine (line ++ [10]) = some text ∧ host.json.fromStr text = .ok req

/-- One response to each line that is not empty, in their order, and an error for what is no request. -/
inductive Answers (isEmpty : Bytes → Bool) : Daemon → List (Bytes × Moment T) → List (Response T) → Prop
  | nil {d} : Answers isEmpty d [] []
  | empty {d line moment lines responses} (hempty : isEmpty line = true)
      (hlines : Answers isEmpty (moment.others d) lines responses) :
      Answers isEmpty d ((line, moment) :: lines) responses
  | request {d line moment lines responses req} (hline : isEmpty line = false) (hreq : IsRequest host line req)
      (hlines : Answers isEmpty (dispatch host moment (moment.others d) req).2 lines responses) :
      Answers isEmpty d ((line, moment) :: lines) ((dispatch host moment (moment.others d) req).1 :: responses)
  | invalid {d line moment lines responses message} (hline : isEmpty line = false)
      (hreq : ∀ req, ¬ IsRequest host line req) (hlines : Answers isEmpty (moment.others d) lines responses) :
      Answers isEmpty d ((line, moment) :: lines) (.error message :: responses)

theorem Answers.length {isEmpty : Bytes → Bool} {d : Daemon} {lines : List (Bytes × Moment T)}
    {responses : List (Response T)} (h : Answers host isEmpty d lines responses) :
    responses.length = (lines.filter fun p => !isEmpty p.1).length := by
  induction h with
  | nil => rfl
  | empty hempty _ ih => rw [ih, List.filter_cons_of_neg (by simp [hempty])]
  | request hline _ _ ih => rw [List.length_cons, ih, List.filter_cons_of_pos (by simp [hline]), List.length_cons]
  | invalid hline _ _ ih => rw [List.length_cons, ih, List.filter_cons_of_pos (by simp [hline]), List.length_cons]

variable {host} {isEmpty : Bytes → Bool} {d : Daemon} {lines : List (Bytes × Moment T)}

section
variable {line : Bytes} {moment : Moment T}

theorem isRequest_iff {text : String} {req : Request} (htext : decodeLine (line ++ [10]) = some text) :
    IsRequest host line req ↔ host.json.fromStr text = .ok req := by
  constructor
  · rintro ⟨text', htext', hreq⟩
    rw [htext, Option.some.injEq] at htext'
    rw [htext']
    exact hreq
  · intro hreq
    exact ⟨text, htext, hreq⟩

/-- A line that `BufRead::lines` does not read as empty is not empty. -/
theorem isEmpty_eq_false (hempty : isEmpty line = true → decodeLine (line ++ [10]) = some "")
    (hne : decodeLine (line ++ [10]) ≠ some "") : isEmpty line = false :=
  Bool.eq_false_iff.2 (mt hempty hne)

theorem handleLines_invalid (h : decodeLine line = none) : (handleLines host d ((line, moment) :: lines)).1 = [] := by
  rw [handleLines, h]

theorem handleLines_empty (h : decodeLine line = some "") :
    handleLines host d ((line, moment) :: lines) = handleLines host (moment.others d) lines := by
  rw [handleLines, h]
  rfl

theorem handleLines_line {text : String} (h : decodeLine line = some text) (hne : text ≠ "") :
    (handleLines host d ((line, moment) :: lines)).1 =
      writeResponse host (handleLine host moment (moment.others d) text).1 ++
        (handleLines host (handleLine host moment (moment.others d) text).2 lines).1 := by
  rw [handleLines, h]
  dsimp only
  rw [if_neg hne]

end

/-- A line as it is read, with its newline. -/
def newlineEnded (p : Bytes × Moment T) : Bytes × Moment T := (p.1 ++ [10], p.2)

theorem newlineEnded_cons (line : Bytes) (moment : Moment T) (lines : List (Bytes × Moment T)) :
    ((line, moment) :: lines).map newlineEnded = (line ++ [10], moment) :: lines.map newlineEnded := rfl

theorem handleLines_answers (hutf8 : ∀ p ∈ lines, IsUtf8 p.1)
    (hempty : ∀ p ∈ lines, isEmpty p.1 = true ↔ decodeLine (p.1 ++ [10]) = some "") :
    ∃ responses, Answers host isEmpty d lines responses ∧
      (handleLines host d (lines.map newlineEnded)).1 = responses.flatMap (writeResponse host) := by
  induction lines generalizing d with
  | nil => exact ⟨[], .nil, rfl⟩
  | cons p lines ih =>
    obtain ⟨line, moment⟩ := p
    have hrest : ∀ d, ∃ responses, Answers host isEmpty d lines responses ∧
        (handleLines host d (lines.map newlineEnded)).1 = responses.flatMap (writeResponse host) := fun d =>
      ih (fun p hp => hutf8 p (List.mem_cons_of_mem _ hp)) fun p hp => hempty p (List.mem_cons_of_mem _ hp)
    have hline := hempty (line, moment) List.mem_cons_self
    rw [newlineEnded_cons]
    cases htext : decodeLine (line ++ [10]) with
    | none => exact absurd (hutf8 (line, moment) List.mem_cons_self) (decodeLine_eq_none.1 htext)
    | some text =>
      by_cases hne : text = ""
      · rw [hne] at htext
        obtain ⟨responses, hanswers, hout⟩ := hrest (moment.others d)
        exact ⟨responses, .empty (hline.2 htext) hanswers, by rw [handleLines_empty htext, hout]⟩
      have hfull : isEmpty line = false := by
        refine isEmpty_eq_false hline.1 ?_
        rw [htext]
        intro h
        exact hne (Option.some.inj h)
      rw [handleLines_line htext hne]
      cases hparse : host.json.fromStr text with
      | error e =>
        rw [handleLine, hparse]
        obtain ⟨responses, hanswers, hout⟩ := hrest (moment.others d)
        have hinvalid : ∀ req, ¬ IsRequest host line req := by
          intro req
          rw [isRequest_iff htext, hparse]
          exact nofun
        exact ⟨_, .invalid hfull hinvalid hanswers, by rw [List.flatMap_cons, hout]⟩
      | ok req =>
        rw [handleLine, hparse]
        obtain ⟨responses, hanswers, hout⟩ := hrest (dispatch host moment (moment.others d) req).2
        exact ⟨_, .request hfull ((isRequest_iff htext).2 hparse) hanswers, by rw [List.flatMap_cons, hout]⟩

theorem handleClient_stream (moments : Nat → Moment T) (lines : List Line) :
    handleClient host moments d (stream lines) =
      handleLines host d (((lines.map (·.val)).mapIdx fun i line => (line, moments i)).map newlineEnded) := by
  rw [handleClient, readLines_stream]
  congr 1
  exact List.ext_getElem? fun i => by simp [newlineEnded, Function.comp_def]

/-- A response is one line. -/
theorem count_writeResponse (hjson : ∀ r, '\n' ∉ (host.json.toString r).toList) (response : Response T) :
    (writeResponse host response).count 10 = 1 := by
  rw [writeResponse, List.count_append, List.count_eq_zero.2 (notMem_asBytes (hjson response))]
  rfl

theorem count_flatMap_writeResponse (hjson : ∀ r, '\n' ∉ (host.json.toString r).toList)
    (responses : List (Response T)) :
    (responses.flatMap (writeResponse host)).count 10 = responses.length := by
  induction responses with
  | nil => rfl
  | cons response responses ih =>
    rw [List.flatMap_cons, List.count_append, count_writeResponse hjson, ih, List.length_cons, Nat.add_comm]

/-- At most one response to each line that is not empty, and fewer if some line is not UTF-8, or empty to
`BufRead::lines` only. -/
theorem count_handleLines (hjson : ∀ r, '\n' ∉ (host.json.toString r).toList)
    (hempty : ∀ line, isEmpty line = true → line = [] ∨ line = [13]) :
    (handleLines host d (lines.map newlineEnded)).1.count 10 ≤ (lines.filter fun p => !isEmpty p.1).length ∧
      ((handleLines host d (lines.map newlineEnded)).1.count 10 = (lines.filter fun p => !isEmpty p.1).length →
        ∀ p ∈ lines, IsUtf8 p.1 ∧ (p.1 = [13] → isEmpty p.1 = true)) := by
  induction lines generalizing d with
  | nil => exact ⟨Nat.le_refl _, fun _ => nofun⟩
  | cons p lines ih =>
    obtain ⟨line, moment⟩ := p
    have hdecoded : isEmpty line = true → decodeLine (line ++ [10]) = some "" := fun h =>
      decodeLine_eq_empty.2 (hempty line h)
    rw [newlineEnded_cons]
    cases htext : decodeLine (line ++ [10]) with
    | none =>
      have hfull : isEmpty line = false := by
        refine isEmpty_eq_false hdecoded ?_
        rw [htext]
        exact nofun
      rw [handleLines_invalid htext, List.count_nil, List.filter_cons_of_pos (by simp [hfull]), List.length_cons]
      exact ⟨Nat.zero_le _, nofun⟩
    | some text =>
      have hutf8 : IsUtf8 line := not_not.1 fun h => by rw [decodeLine_eq_none.2 h] at htext; cases htext
      by_cases hne : text = ""
      · subst hne
        obtain ⟨hle, heq⟩ := @ih (moment.others d)
        rw [handleLines_empty htext]
        by_cases hline : isEmpty line = true
        · rw [List.filter_cons_of_neg (by simp [hline])]
          exact ⟨hle, fun h => List.forall_mem_cons.2 ⟨⟨hutf8, fun _ => hline⟩, heq h⟩⟩
        · rw [List.filter_cons_of_pos (by simpa using hline), List.length_cons]
          exact ⟨by omega, fun h => by omega⟩
      · have hfull : isEmpty line = false := by
          refine isEmpty_eq_false hdecoded ?_
          rw [htext]
          intro h
          exact hne (Option.some.inj h)
        obtain ⟨hle, heq⟩ := @ih (handleLine host moment (moment.others d) text).2
        rw [handleLines_line htext hne, List.count_append, count_writeResponse hjson,
          List.filter_cons_of_pos (by simp [hfull]), List.length_cons]
        refine ⟨by omega, fun h => List.forall_mem_cons.2 ⟨⟨hutf8, ?_⟩, heq (by omega)⟩⟩
        rintro rfl
        rw [decodeLine_eq_empty.2 (.inr rfl)] at htext
        exact absurd (Option.some.inj htext).symm hne

end

/-- One response to each line of the stream that is not empty, and nothing else is written. -/
def Serves (host : Host T) (isEmpty : Bytes → Bool) (moments : Nat → Moment T) (d : Daemon) (lines : List Line) :
    Prop :=
  ∃ responses, Answers host isEmpty d ((lines.map (·.val)).mapIdx fun i line => (line, moments i)) responses ∧
    (handleClient host moments d (stream lines)).1 = responses.flatMap (writeResponse host)

section
variable {host : Host T} {isEmpty : Bytes → Bool}

theorem serves_iff (hjson : ∀ r, '\n' ∉ (host.json.toString r).toList)
    (hempty : ∀ line, isEmpty line = true → line = [] ∨ line = [13]) (hnil : isEmpty [] = true)
    (moments : Nat → Moment T) (d : Daemon) (lines : List Line) :
    Serves host isEmpty moments d lines ↔
      ∀ line ∈ lines, IsUtf8 line.val ∧ (line.val = [13] → isEmpty line.val = true) := by
  have hlines : ((lines.map (·.val)).mapIdx fun i line => (line, moments i)).map (·.1) = lines.map (·.val) :=
    List.ext_getElem? fun i => by simp [Function.comp_def]
  have hmem : ∀ P : Bytes → Prop, (∀ p ∈ (lines.map (·.val)).mapIdx fun i line => (line, moments i), P p.1) ↔
      ∀ line ∈ lines, P line.val := by
    intro P
    rw [← List.forall_mem_map, hlines, List.forall_mem_map]
  refine Iff.trans ?_ (hmem fun line => IsUtf8 line ∧ (line = [13] → isEmpty line = true))
  rw [Serves, handleClient_stream]
  constructor
  · rintro ⟨responses, hanswers, hout⟩
    refine (count_handleLines (d := d) hjson hempty).2 ?_
    rw [hout, count_flatMap_writeResponse hjson, hanswers.length]
  · intro h
    refine handleLines_answers (fun p hp => (h p hp).1) fun p hp => ⟨fun hp => ?_, fun htext => ?_⟩
    · exact decodeLine_eq_empty.2 (hempty p.1 hp)
    · rcases decodeLine_eq_empty.1 htext with hline | hline
      · rw [hline]
        exact hnil
      · exact (h p hp).2 hline

end

/-- A line that is a lone carriage return is not answered; whether it is empty is a matter of what ends a line. With
that set aside, all lines are answered if and only if all are UTF-8. -/
theorem handleClient_serves_iff (host : Host T) (hjson : ∀ r, '\n' ∉ (host.json.toString r).toList)
    (moments : Nat → Moment T) (d : Daemon) (lines : List Line) :
    (Serves host (fun line => line == []) moments d lines ↔
      ∀ line ∈ lines, IsUtf8 line.val ∧ line.val ≠ [13]) ∧
    (Serves host (fun line => line == [] || line == [13]) moments d lines ↔ ∀ line ∈ lines, IsUtf8 line.val) := by
  refine ⟨(serves_iff hjson (fun line h => .inl (beq_iff_eq.1 h)) rfl moments d lines).trans ?_,
    (serves_iff hjson (fun line h => ?_) rfl moments d lines).trans ?_⟩
  · refine forall₂_congr fun line _ => and_congr_right fun _ => ⟨fun h hline => ?_, fun h hline => absurd hline h⟩
    have := h hline
    rw [hline] at this
    cases this
  · simpa using h
  · refine forall₂_congr fun line _ => and_iff_left fun hline => ?_
    rw [hline]
    rfl

/-! ### A line that is not UTF-8 -/

def escape (message : String) : String :=
  String.ofList (message.toList.flatMap fun c =>
    if c = '\n' then ['\\', 'n'] else if c = '"' ∨ c = '\\' then ['\\', c] else [c])

/-- JSON as far as a `ping` goes. -/
def sampleJson : SerdeJson (Fin 10) where
  fromStr line := if line = "\x7b\"cmd\":\"ping\"\x7d" then .ok .ping else .error "expected value at line 1 column 1"
  toString
    | .pong => "\x7b\"status\":\"pong\"\x7d"
    | .error message => "\x7b\"status\":\"error\",\"message\":\"" ++ escape message ++ "\"\x7d"
    | _ => "\x7b\"status\":\"ok\"\x7d"

theorem sampleJson_lines (r : Response (Fin 10)) : '\n' ∉ (sampleJson.toString r).toList := by
  cases r with
  | error message =>
    have hescape : '\n' ∉ (escape message).toList := by
      rw [escape, String.toList_ofList]
      intro h
      obtain ⟨c, -, hc⟩ := List.mem_flatMap.1 h
      split_ifs at hc with hnewline hquote
      · exact absurd hc (by decide)
      · rcases hquote with rfl | rfl <;> exact absurd hc (by decide)
      · exact hnewline (List.mem_singleton.1 hc).symm
    show '\n' ∉ ("\x7b\"status\":\"error\",\"message\":\"" ++ escape message ++ "\"\x7d").toList
    rw [String.toList_append, String.toList_append, List.mem_append, List.mem_append]
    rintro ((h | h) | h)
    exacts [absurd h (by decide), hescape h, absurd h (by decide)]
  | pong => decide
  | ok | list | decode =>
    show '\n' ∉ ("\x7b\"status\":\"ok\"\x7d").toList
    decide

def sampleHost : Host (Fin 10) where
  env := .sample
  toml := sampleToml
  json := sampleJson
  b64 _ := ""
  debug value := "\"" ++ value ++ "\""
  sqlMessage _ := "database is locked"
  cwd := []
  configPath := "/home/user/.config/mimeclip/config.toml"

def emptyFileSystem : FileSystem where
  node position := if position = [] then some .directory else none
  maxLinks := 40
  root := rfl
  parent {position name} h := absurd (if_neg (List.append_ne_nil_of_right_ne_nil position (List.cons_ne_nil name []))) h

def sampleMoment : Moment (Fin 10) where
  others d := d
  now := 0
  instant := 0
  budget := none
  environment := ⟨none, none⟩
  configFile := .absent
  fs := emptyFileSystem

def sampleDaemon : Daemon where
  conn := ⟨.ofLimits .default, hiCopied⟩
  suppress := .default
  offers := []

def pingLine : Line := ⟨asBytes "\x7b\"cmd\":\"ping\"\x7d", by decide⟩

/-- A `ping`, an empty line, something else, and a `ping` before a carriage return. -/
def mixedLines : List Line :=
  [pingLine, ⟨[], by decide⟩, ⟨asBytes "hello", by decide⟩, ⟨pingLine.val ++ [13], by decide⟩]

theorem handleClient_serves_iff_mixed :
    (Serves sampleHost (fun line => line == []) (fun _ => sampleMoment) sampleDaemon mixedLines ↔
      ∀ line ∈ mixedLines, IsUtf8 line.val ∧ line.val ≠ [13]) ∧
    (Serves sampleHost (fun line => line == [] || line == [13]) (fun _ => sampleMoment) sampleDaemon mixedLines ↔
      ∀ line ∈ mixedLines, IsUtf8 line.val) :=
  handleClient_serves_iff sampleHost sampleJson_lines (fun _ => sampleMoment) sampleDaemon mixedLines

/-- A byte `0xFF`, and then a `ping`: nothing is answered. -/
theorem invalid_line_unanswered :
    let lines : List Line := [⟨[0xFF], by decide⟩, pingLine]
    (handleClient sampleHost (fun _ => sampleMoment) sampleDaemon (stream lines)).1 = [] ∧
      ¬ Serves sampleHost (fun line => line == []) (fun _ => sampleMoment) sampleDaemon lines ∧
      ¬ Serves sampleHost (fun line => line == [] || line == [13]) (fun _ => sampleMoment) sampleDaemon lines := by
  intro lines
  have hnone : decodeLine [0xFF, 10] = none := by decide
  have hout : (handleClient sampleHost (fun _ => sampleMoment) sampleDaemon (stream lines)).1 = [] := by
    rw [handleClient_stream]
    exact handleLines_invalid hnone
  have hjson : ∀ r, '\n' ∉ (sampleHost.json.toString r).toList := sampleJson_lines
  refine ⟨hout, ?_, ?_⟩ <;> rintro ⟨responses, hanswers, hwritten⟩
  all_goals
    have hcount := count_flatMap_writeResponse hjson responses
    rw [← hwritten, hout, hanswers.length] at hcount
    exact absurd hcount (by decide)

end Mimeclip
