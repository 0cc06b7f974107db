import Mimeclip.ConfigSave
import Mimeclip.Requests

/-!
# The client (`cli/main.rs`)

`send_request` connects to the daemon, with five retries while it is not there yet, writes the request as one line and
reads one line back. What it returns is what the daemon has answered to this request (`sendRequest_iff`).
`mimeclip config set` saves the file and then has the daemon load the one that its own environment names: however it
ends, the daemon has the limits of before, or those it has loaded, and if both have the configuration in one place then
these are the ones that are shown (`configCommand_outcome`).
-/

namespace Mimeclip

variable {T : Type}

/-! ### Connecting -/

inductive ConnectFailure
  | notFound
  | connectionRefused
  | other
deriving DecidableEq, Repr

def ConnectFailure.retryable : ConnectFailure → Bool
  | notFound | connectionRefused => true
  | other => false

def retries : Nat := 5

/-- The `for` loop from an attempt on, with `left` retries; the number of the attempt that succeeds. -/
def connectFrom (connect : Nat → Except ConnectFailure Unit) : Nat → Nat → Except ConnectFailure Nat
  | 0, attempt => (connect attempt).map fun _ => attempt
  | left + 1, attempt =>
    match connect attempt with
    | .ok () => .ok attempt
    | .error e => if e.retryable then connectFrom connect left (attempt + 1) else .error e

/-- `connect` is what the attempts meet. -/
def connectWithRetry (connect : Nat → Except ConnectFailure Unit) : Except ConnectFailure Nat :=
  connectFrom connect retries 0

/-- The attempt succeeds, and those before it failed because the daemon was not there. -/
def Reaches (connect : Nat → Except ConnectFailure Unit) (attempt : Nat) : Prop :=
  connect attempt = .ok () ∧ ∀ i < attempt, ∃ e, connect i = .error e ∧ e.retryable = true

theorem connectFrom_ok {connect : Nat → Except ConnectFailure Unit} {left attempt k : Nat} :
    connectFrom connect left attempt = .ok k ↔ attempt ≤ k ∧ k ≤ attempt + left ∧ connect k = .ok () ∧
      ∀ i, attempt ≤ i → i < k → ∃ e, connect i = .error e ∧ e.retryable = true := by
  induction left generalizing attempt with
  | zero =>
    rw [connectFrom, Nat.add_zero]
    constructor
    · intro h
      cases hattempt : connect attempt with
      | error e => rw [hattempt] at h; cases h
      | ok u =>
        rw [hattempt] at h
        cases h
        exact ⟨Nat.le_refl _, Nat.le_refl _, hattempt, fun i hle hlt => absurd hle (Nat.not_le.2 hlt)⟩
    · rintro ⟨hle, hle', hk, -⟩
      obtain rfl : attempt = k := Nat.le_antisymm hle hle'
      rw [hk]
      rfl
  | succ left ih =>
    rw [connectFrom]
    cases hattempt : connect attempt with
    | ok u =>
      constructor
      · intro h
        cases h
        exact ⟨Nat.le_refl _, Nat.le_add_right _ _, hattempt, fun i hle hlt => by omega⟩
      · rintro ⟨hle, -, hk, hbefore⟩
        rcases Nat.eq_or_lt_of_le hle with rfl | hlt
        · rfl
        · obtain ⟨e, he, -⟩ := hbefore attempt (Nat.le_refl _) hlt
          rw [hattempt] at he
          cases he
    | error e =>
      dsimp only
      split_ifs with hretryable
      · rw [ih]
        constructor
        · rintro ⟨hle, hle', hk, hbefore⟩
          refine ⟨by omega, by omega, hk, fun i hi hlt => ?_⟩
          rcases Nat.eq_or_lt_of_le hi with rfl | hi
          · exact ⟨e, hattempt, hretryable⟩
          · exact hbefore i hi hlt
        · rintro ⟨hle, hle', hk, hbefore⟩
          have hne : attempt ≠ k := by
            rintro rfl
            rw [hattempt] at hk
            cases hk
          exact ⟨by omega, by omega, hk, fun i hi hlt => hbefore i (by omega) hlt⟩
      · refine iff_of_false nofun ?_
        rintro ⟨hle, -, hk, hbefore⟩
        rcases Nat.eq_or_lt_of_le hle with rfl | hlt
        · rw [hattempt] at hk
          cases hk
        · obtain ⟨e', he', hretry⟩ := hbefore attempt (Nat.le_refl _) hlt
          rw [hattempt] at he'
          cases he'
          exact hretryable hretry

/-- At most six attempts are made, and the first one that does not fail in this way decides. -/
theorem connectWithRetry_ok {connect : Nat → Except ConnectFailure Unit} :
    (∃ k, connectWithRetry connect = .ok k) ↔ ∃ k ≤ retries, Reaches connect k := by
  simp only [connectWithRetry, connectFrom_ok, Reaches, Nat.zero_le, true_and, Nat.zero_add, true_implies]

/-! ### Requests -/

/-- `serde_json` on the side of the client. -/
structure ClientJson (T : Type) where
  toString : Request → String
  fromStr : String → Except String (Response T)

inductive IpcError
  | connecting (failure : ConnectFailure)
  -- daemon closed connection
  | closed
  | reading
  | parsing (message : String)
deriving DecidableEq, Repr

/-- The first line of what the daemon has written. -/
def readResponse (client : ClientJson T) (written : Bytes) : Except IpcError (Response T) :=
  match readLines [] written with
  | [] => .error .closed
  | line :: _ =>
    match decodeLine line with
    | none => .error .reading
    | some text => (client.fromStr text).mapError .parsing

/-- `send_request`, and what the daemon is then. -/
def sendRequest (host : Host T) (client : ClientJson T) (connect : Nat → Except ConnectFailure Unit)
    (moments : Nat → Moment T) (d : Daemon) (req : Request) : Except IpcError (Response T) × Daemon :=
  match connectWithRetry connect with
  | .error e => (.error (.connecting e), d)
  | .ok _ =>
    let (written, d) := handleClient host moments d (asBytes (client.toString req) ++ [10])
    (readResponse client written, d)

/-- What is written for the value is one line, from which it is read back. -/
structure Transmits {α : Type} (write : α → String) (read : String → Except String α) (a : α) : Prop where
  back : read (write a) = .ok a
  nonempty : write a ≠ ""
  newline : '\n' ∉ (write a).toList
  carriageReturn : (write a).toList.getLast? ≠ some '\r'

namespace Transmits
variable {α : Type} {write : α → String} {read : String → Except String α} {a : α} (h : Transmits write read a)
include h

theorem readLines : readLines [] (asBytes (write a) ++ [10]) = [asBytes (write a) ++ [10]] := by
  have := readLines_stream [⟨asBytes (write a), notMem_asBytes h.newline⟩]
  simpa [stream] using this

theorem decodeLine : decodeLine (asBytes (write a) ++ [10]) = some (write a) := by
  rw [decodeLine_newline, fromUtf8_eq_some.2 rfl, Option.map_some, stripCr, if_neg h.carriageReturn,
    String.ofList_toList]

end Transmits

section
variable {host : Host T} {client : ClientJson T} {connect : Nat → Except ConnectFailure Unit}
  {moments : Nat → Moment T} {d : Daemon} {req : Request}

theorem handleClient_request (hreq : Transmits client.toString host.json.fromStr req) :
    handleClient host moments d (asBytes (client.toString req) ++ [10]) =
      (writeResponse host (dispatch host (moments 0) ((moments 0).others d) req).1,
        (dispatch host (moments 0) ((moments 0).others d) req).2) := by
  have hline : handleLine host (moments 0) ((moments 0).others d) (client.toString req) =
      dispatch host (moments 0) ((moments 0).others d) req := by
    rw [handleLine, hreq.back]
  rw [handleClient, hreq.readLines, List.mapIdx_cons, List.mapIdx_nil, handleLines, hreq.decodeLine]
  dsimp only
  rw [if_neg hreq.nonempty, hline]
  simp only [handleLines, List.append_nil]

theorem readResponse_written {response : Response T}
    (hresponse : Transmits host.json.toString client.fromStr response) :
    readResponse client (writeResponse host response) = .ok response := by
  rw [readResponse, writeResponse, hresponse.readLines]
  dsimp only
  rw [hresponse.decodeLine]
  dsimp only
  rw [hresponse.back]
  rfl

/-- The response that the client gets is the one to its request, and it gets one if and only if it reaches the daemon
in one of its attempts. -/
theorem sendRequest_iff (host : Host T) (client : ClientJson T) (connect : Nat → Except ConnectFailure Unit)
    (moments : Nat → Moment T) (d : Daemon) (req : Request) (hreq : Transmits client.toString host.json.fromStr req)
    (hresponse : Transmits host.json.toString client.fromStr
      (dispatch host (moments 0) ((moments 0).others d) req).1) (response : Response T) (d' : Daemon) :
    sendRequest host client connect moments d req = (.ok response, d') ↔
      dispatch host (moments 0) ((moments 0).others d) req = (response, d') ∧ ∃ k ≤ retries, Reaches connect k := by
  rw [sendRequest, ← connectWithRetry_ok]
  cases hconnect : connectWithRetry connect with
  | error e =>
    refine iff_of_false nofun ?_
    rintro ⟨-, k, ⟨⟩⟩
  | ok k =>
    dsimp only
    rw [handleClient_request hreq]
    dsimp only
    rw [readResponse_written hresponse]
    constructor
    · intro h
      cases h
      exact ⟨rfl, k, rfl⟩
    · rintro ⟨h, -⟩
      rw [h]

end

/-- The client of a `ping`. -/
def pingClient : ClientJson (Fin 10) where
  toString _ := "\x7b\"cmd\":\"ping\"\x7d"
  fromStr line := if line = "\x7b\"status\":\"pong\"\x7d" then .ok .pong else .error "expected value"

/-- The daemon comes up after the first attempt. -/
def lateDaemon : Nat → Except ConnectFailure Unit := fun i => if i = 0 then .error .notFound else .ok ()

theorem sendRequest_iff_ping :
    sendRequest sampleHost pingClient lateDaemon (fun _ => sampleMoment) sampleDaemon .ping =
        (.ok .pong, sampleDaemon) ↔
      dispatch sampleHost sampleMoment sampleDaemon .ping = (.pong, sampleDaemon) ∧
        ∃ k ≤ retries, Reaches lateDaemon k :=
  sendRequest_iff sampleHost pingClient lateDaemon (fun _ => sampleMoment) sampleDaemon .ping
    ⟨rfl, by decide, by decide, by decide⟩ ⟨rfl, by decide, by decide, by decide⟩ .pong sampleDaemon

/-! ### `mimeclip config set` -/

inductive CommandError
  | setting (error : ConfigSetError)
  | saving (failure : Failure FileError)
  | ipc (error : IpcError)
  -- could not apply configuration
  | refused (message : String)
  -- daemon returned an unexpected response while applying configuration
  | unexpected
  | printing (error : LoadError)
deriving DecidableEq

/-- What `reload_config` makes of the response. -/
def reloadResult : Except IpcError (Response T) → Except CommandError Unit
  | .ok .ok => .ok ()
  | .ok (.error message) => .error (.refused message)
  | .ok _ => .error .unexpected
  | .error e => .error (.ipc e)

/-- The limits that `print_config` shows. -/
def printConfig (toml : Toml) (env : Environment) (file : SavedFile) : Except CommandError Limits :=
  match Config.load toml env file with
  | .error e => .error (.printing e)
  | .ok config => config.limits.mapError fun e => .printing (.limits e)

section
variable (host : Host T) (client : ClientJson T) (connect : Nat → Except ConnectFailure Unit) (moment : Moment T)
  (umask : Nat) (env : Environment) (place daemonPlace : FilePlace)

/-- The part of `handle_config` after `save`. The client has the configuration in `place`, and the daemon in
`daemonPlace`: each goes by `config_path` in its own environment. -/
def applyConfig (disk : Disk) (d : Daemon) : Except CommandError Limits × Daemon :=
  let (answer, d) :=
    sendRequest host client connect (fun _ => { moment with configFile := readConfig daemonPlace disk.fs }) d
      .reloadConfig
  (do
    reloadResult answer
    printConfig host.toml env (readConfig place disk.fs), d)

/-- `handle_config` on a setting, in the environment `env` of the client; `budget` is how far `save` gets. -/
def configCommand (setting : ConfigSetting) (budget : Option Nat) (disk : Disk) (d : Daemon) :
    Except CommandError Limits × Disk × Daemon :=
  match Config.load host.toml env (readConfig place disk.fs) with
  | .error e => (.error (.setting (.load e)), disk, d)
  | .ok config =>
    match setting.apply config with
    | .error e => (.error (.setting e), disk, d)
    | .ok config =>
      match (saveToPath umask host.toml config place).run budget disk with
      | (.error e, disk, _) => (.error (.saving e), disk, d)
      | (.ok (), disk, _) =>
        let (result, d) := applyConfig host client connect moment env place daemonPlace disk d
        (result, disk, d)

end

section
variable {host : Host T} {client : ClientJson T} {connect : Nat → Except ConnectFailure Unit} {moment : Moment T}
  {umask : Nat} {env : Environment} {place daemonPlace : FilePlace} {setting : ConfigSetting} {budget : Option Nat}
  {disk disk' : Disk} {d d' : Daemon} {result : Except CommandError Limits}

/-- The limits of the configuration that the daemon loads, with its environment over the file. -/
def LoadsLimits (host : Host T) (moment : Moment T) (place : FilePlace) (disk : Disk) (limits : Limits) : Prop :=
  ∃ config, Config.load host.toml moment.environment (readConfig place disk.fs) = .ok config ∧
    config.limits = .ok limits

theorem reloadFrom_cases :
    (reloadFrom host moment d place disk).2.conn = d.conn ∧ (reloadFrom host moment d place disk).1 ≠ .ok ∨
      ∃ limits, LoadsLimits host moment place disk limits ∧
        (reloadFrom host moment d place disk).2.conn.self = d.conn.self.withLimits limits ∧
        ((reloadFrom host moment d place disk).1 = .ok → (d.conn.self.setLimits host.env.plan limits).Returns
          d.conn.store () (reloadFrom host moment d place disk).2.conn.store) := by
  have heffect : Effect host _ d .reloadConfig (reloadFrom host moment d place disk).1
    (reloadFrom host moment d place disk).2 := dispatch_effect .reloadConfig
  generalize (reloadFrom host moment d place disk).1 = response at heffect ⊢
  generalize (reloadFrom host moment d place disk).2 = d' at heffect ⊢
  cases heffect with
  | same hok => exact .inl ⟨rfl, hok⟩
  | limited hload hlimits hcall hresponse =>
    refine .inr ⟨_, ⟨_, hload, hlimits⟩, hcall.2, fun hok => ?_⟩
    rcases hresponse with ⟨hcompletes, -⟩ | ⟨message, rfl⟩
    · obtain ⟨_, hreturns, -⟩ := Script.returns_bind_pure.1 hcompletes.1
      exact hreturns
    · cases hok

theorem reloadResult_ok {answer : Except IpcError (Response T)} {u : Unit} (h : reloadResult answer = .ok u) :
    answer = .ok .ok := by
  cases answer with
  | error e => cases h
  | ok response => cases response <;> first | rfl | cases h

/-- The request does not reach the daemon, or the daemon reloads. -/
theorem applyConfig_cases (hreq : Transmits client.toString host.json.fromStr .reloadConfig)
    (hresponse : Transmits host.json.toString client.fromStr
      (reloadFrom host moment (moment.others d) daemonPlace disk).1)
    (h : applyConfig host client connect moment env place daemonPlace disk d = (result, d')) :
    d' = d ∧ (∃ e, result = .error e) ∨
      d' = (reloadFrom host moment (moment.others d) daemonPlace disk).2 ∧
        ∀ shown, result = .ok shown → (reloadFrom host moment (moment.others d) daemonPlace disk).1 = .ok ∧
          printConfig host.toml env (readConfig place disk.fs) = .ok shown := by
  rw [applyConfig, sendRequest] at h
  cases hconnect : connectWithRetry connect with
  | error e =>
    rw [hconnect] at h
    cases h
    exact .inl ⟨rfl, _, rfl⟩
  | ok k =>
    rw [hconnect] at h
    dsimp only at h
    rw [handleClient_request hreq] at h
    dsimp only at h
    have hread := readResponse_written hresponse
    rw [reloadFrom] at hread
    rw [hread] at h
    cases h
    refine .inr ⟨rfl, fun shown hshown => ?_⟩
    obtain ⟨u, hreload, hprint⟩ := Except.bind_ok.1 hshown
    exact ⟨Except.ok.inj (reloadResult_ok hreload), hprint⟩

section
variable (hstart : disk.fs.isDirectory place.start = true) (hparent : .parent ∉ place.dir)
  (hfree : ∀ written, resolveLink place disk.fs = .ok written → TemporaryFree written disk.fs)
include hstart hparent hfree

/-- Up to `save` nothing but the file is changed, and from then on the file is the new one. -/
theorem configCommand_cases (h : configCommand host client connect moment umask env place daemonPlace setting budget
    disk d = (result, disk', d')) :
    d' = d ∧ (∃ e, result = .error e) ∧ readConfig place disk'.fs = readConfig place disk.fs ∨
      ∃ config after, Config.load host.toml env (readConfig place disk.fs) = .ok config ∧
        setting.apply config = .ok after ∧ Saved host.toml after place disk' ∧
        (d' = d ∧ (∃ e, result = .error e) ∨
          applyConfig host client connect moment env place daemonPlace disk' d = (result, d')) := by
  rw [configCommand] at h
  cases hload : Config.load host.toml env (readConfig place disk.fs) with
  | error e =>
    rw [hload] at h
    cases h
    exact .inl ⟨rfl, ⟨_, rfl⟩, rfl⟩
  | ok config =>
    rw [hload] at h
    dsimp only at h
    cases happly : setting.apply config with
    | error e =>
      rw [happly] at h
      cases h
      exact .inl ⟨rfl, ⟨_, rfl⟩, rfl⟩
    | ok after =>
      rw [happly] at h
      dsimp only at h
      rcases hrun : (saveToPath umask host.toml after place).run budget disk with ⟨saved, disk₁, rest⟩
      rw [hrun] at h
      cases saved with
      | error e =>
        cases h
        have hleaves := Script.run_leaves (saveToPath umask host.toml after place) budget disk
        rw [hrun] at hleaves
        rcases (stopped_save hstart hparent hfree hleaves).1 with hsame | hsaved
        · exact .inl ⟨rfl, ⟨_, rfl⟩, hsame⟩
        · exact .inr ⟨config, after, rfl, happly, hsaved, .inl ⟨rfl, _, rfl⟩⟩
      | ok u =>
        have hsaved := finished_save hstart hparent hfree (Script.run_returns hrun)
        refine .inr ⟨config, after, rfl, happly, ?_⟩
        rcases happlied : applyConfig host client connect moment env place daemonPlace disk₁ d with ⟨result₁, d₁⟩
        dsimp only at h
        rw [happlied] at h
        cases h
        exact ⟨hsaved, .inr happlied⟩

end

theorem printConfig_ok {toml : Toml} {file : SavedFile} {shown : Limits} (h : printConfig toml env file = .ok shown) :
    ∃ config, Config.load toml env file = .ok config ∧ config.limits = .ok shown := by
  rw [printConfig] at h
  split at h
  · cases h
  · rename_i config hload
    exact ⟨config, hload, Except.mapError_ok.1 h⟩

/-- What a daemon loads that has its configuration where the client has it, and the same environment over it, is what
the client shows. -/
theorem LoadsLimits.shown {shown limits : Limits} (h : LoadsLimits host moment place disk limits)
    (hprint : printConfig host.toml moment.environment (readConfig place disk.fs) = .ok shown) : limits = shown := by
  obtain ⟨config, hload, hlimits⟩ := h
  obtain ⟨config', hload', hlimits'⟩ := printConfig_ok hprint
  cases hload.symm.trans hload'
  exact Except.ok.inj (hlimits.symm.trans hlimits')

/-- However `mimeclip config set` ends, the file is the old one or the new one, and the daemon has the limits of before
or those it loads where it has its configuration, with its environment over it. If the command succeeds then it has
these, its history is within them, and what is shown is what the client loads from the new file: where both have the
configuration in one place, with the same environment over it, that is what the daemon has. -/
theorem configCommand_outcome (hreq : Transmits client.toString host.json.fromStr .reloadConfig)
    (hstart : disk.fs.isDirectory place.start = true) (hparent : .parent ∉ place.dir)
    (hfree : ∀ written, resolveLink place disk.fs = .ok written → TemporaryFree written disk.fs)
    (h : configCommand host client connect moment umask env place daemonPlace setting budget disk d =
      (result, disk', d'))
    (hresponse : Transmits host.json.toString client.fromStr
      (reloadFrom host moment (moment.others d) daemonPlace disk').1) :
    (readConfig place disk'.fs = readConfig place disk.fs ∧ d' = d ∧ ∃ e, result = .error e) ∨
    ∃ config after, Config.load host.toml env (readConfig place disk.fs) = .ok config ∧
      setting.apply config = .ok after ∧ Saved host.toml after place disk' ∧
      (d' = d ∨ d'.conn = (moment.others d).conn ∨
        ∃ limits, LoadsLimits host moment daemonPlace disk' limits ∧
          d'.conn.self = (moment.others d).conn.self.withLimits limits) ∧
      ∀ shown, result = .ok shown → printConfig host.toml env (readConfig place disk'.fs) = .ok shown ∧
        ∃ limits, LoadsLimits host moment daemonPlace disk' limits ∧
          d'.conn.self = (moment.others d).conn.self.withLimits limits ∧
          (daemonPlace = place → moment.environment = env → limits = shown) ∧
          (limits.InRange → (∀ r ∈ (moment.others d).conn.store.entries, 0 ≤ r.size) →
            d'.conn.self.Within d'.conn.store) := by
  rcases configCommand_cases hstart hparent hfree h with
    ⟨hd, hresult, hsame⟩ | ⟨config, after, hload, happly, hsaved, h⟩
  · exact .inl ⟨hsame, hd, hresult⟩
  refine .inr ⟨config, after, hload, happly, hsaved, ?_⟩
  rcases h with ⟨rfl, e, rfl⟩ | happlied
  · exact ⟨.inl rfl, nofun⟩
  rcases applyConfig_cases hreq hresponse happlied with ⟨rfl, e, rfl⟩ | ⟨rfl, hok⟩
  · exact ⟨.inl rfl, nofun⟩
  rcases reloadFrom_cases (d := moment.others d) with ⟨hsame, hne⟩ | ⟨limits, hlimits, hself, htrim⟩
  · exact ⟨.inr (.inl hsame), fun shown hshown => absurd (hok shown hshown).1 hne⟩
  · refine ⟨.inr (.inr ⟨limits, hlimits, hself⟩), fun shown hshown => ?_⟩
    obtain ⟨hreload, hprint⟩ := hok shown hshown
    refine ⟨hprint, limits, hlimits, hself, ?_, fun hrange hnonneg => ?_⟩
    · rintro rfl rfl
      exact hlimits.shown hprint
    · obtain ⟨hcount, hsizes, hsize⟩ := Database.trim_returns_within (htrim hreload) hrange hnonneg
      rw [hself]
      exact ⟨hcount, hsizes, hsize⟩

end

/-- JSON that knows one more request. -/
def reloadHost : Host (Fin 10) :=
  { sampleHost with json := { sampleJson with fromStr := fun line =>
      if line = "\x7b\"cmd\":\"reload_config\"\x7d" then .ok .reloadConfig else sampleJson.fromStr line } }

def reloadClient : ClientJson (Fin 10) where
  toString _ := "\x7b\"cmd\":\"reload_config\"\x7d"
  fromStr line := if line = "\x7b\"status\":\"ok\"\x7d" then .ok .ok else .error "expected value"

/-- `mimeclip config set max-history-size 1GiB`. -/
def gibSet : Except CommandError Limits × Disk × Daemon :=
  configCommand reloadHost reloadClient lateDaemon sampleMoment 0o022 ⟨none, none⟩ stowedPlace stowedPlace
    (.maxHistorySize "1GiB") none stowed sampleDaemon

theorem reload_transmits : Transmits reloadClient.toString reloadHost.json.fromStr .reloadConfig :=
  ⟨rfl, by decide, by decide, by decide⟩

def Response.isOk : Response T → Bool
  | ok => true
  | _ => false

theorem Response.eq_ok {response : Response T} (h : response.isOk = true) : response = .ok := by
  cases response <;> first | rfl | cases h

theorem gibSet_reloads : (reloadFrom reloadHost sampleMoment sampleDaemon stowedPlace gibSet.2.1).1 = .ok :=
  Response.eq_ok (by decide +kernel)

theorem configCommand_outcome_gib :
    (readConfig stowedPlace gibSet.2.1.fs = readConfig stowedPlace stowed.fs ∧ gibSet.2.2 = sampleDaemon ∧
      ∃ e, gibSet.1 = .error e) ∨
    ∃ config after, Config.load sampleToml ⟨none, none⟩ (readConfig stowedPlace stowed.fs) = .ok config ∧
      (ConfigSetting.maxHistorySize "1GiB").apply config = .ok after ∧ Saved sampleToml after stowedPlace gibSet.2.1 ∧
      (gibSet.2.2 = sampleDaemon ∨ gibSet.2.2.conn = sampleDaemon.conn ∨
        ∃ limits, LoadsLimits reloadHost sampleMoment stowedPlace gibSet.2.1 limits ∧
          gibSet.2.2.conn.self = sampleDaemon.conn.self.withLimits limits) ∧
      ∀ shown, gibSet.1 = .ok shown →
        printConfig sampleToml ⟨none, none⟩ (readConfig stowedPlace gibSet.2.1.fs) = .ok shown ∧
        ∃ limits, LoadsLimits reloadHost sampleMoment stowedPlace gibSet.2.1 limits ∧
          gibSet.2.2.conn.self = sampleDaemon.conn.self.withLimits limits ∧
          (stowedPlace = stowedPlace → sampleMoment.environment = ⟨none, none⟩ → limits = shown) ∧
          (limits.InRange → (∀ r ∈ sampleDaemon.conn.store.entries, 0 ≤ r.size) →
            gibSet.2.2.conn.self.Within gibSet.2.2.conn.store) := by
  have hresponse : Transmits reloadHost.json.toString reloadClient.fromStr
      (reloadFrom reloadHost sampleMoment sampleDaemon stowedPlace gibSet.2.1).1 := by
    rw [gibSet_reloads]
    exact ⟨rfl, by decide, by decide, by decide⟩
  have hset : configCommand reloadHost reloadClient lateDaemon sampleMoment 0o022 ⟨none, none⟩ stowedPlace stowedPlace
      (.maxHistorySize "1GiB") none stowed sampleDaemon = (gibSet.1, gibSet.2.1, gibSet.2.2) := by
    rw [Prod.mk.eta, gibSet]
  exact configCommand_outcome reload_transmits (by decide) (by decide) stowed_temporaryFree hset hresponse

/-- A daemon that has its configuration in another place goes on with the limits it finds there. -/
example :
    let set := configCommand reloadHost reloadClient lateDaemon sampleMoment 0o022 ⟨none, none⟩ stowedPlace
      (configPlace [] (some "/y") none) (.maxHistorySize "1GiB") none stowed sampleDaemon
    set.1.toOption = some ⟨500, 1073741824⟩ ∧ set.2.2.conn.self = sampleDaemon.conn.self.withLimits .default := by
  decide +kernel

end Mimeclip
