import Mimeclip.Echo
import Mimeclip.Recency
import Mimeclip.Server

/-!
# Requests and the session

`dispatch` answers a request from the shared state, and `Session` is what the threads do to that state, one step after
the other. The two agree: the lines of a client, whatever bytes they are and whatever the other threads do in between,
are steps of the session, and no client inserts or captures (`handleClient_session`). A request that is answered with
an error has done nothing, unless it is a `Clear` or a `ReloadConfig` whose statements came about in part
(`dispatch_error`).
-/

namespace Mimeclip

variable {T : Type} {host : Host T} {moment : Moment T} {d d' : Daemon}

/-! ### What a request does -/

theorem Daemon.exec_eq {α : Type} {script : Database.Sql α} {budget : Option Nat}
    {result : Except (Failure SqlError) α} :
    d.exec budget script = (result, d') ↔ ∃ store rest, script.run budget d.conn.store = (result, store, rest) ∧
      d' = { d with conn := { d.conn with store } } := by
  rw [exec]
  rcases script.run budget d.conn.store with ⟨result', store', rest'⟩
  constructor
  · intro h
    cases h
    exact ⟨store', rest', rfl, rfl⟩
  · rintro ⟨store, rest, h, rfl⟩
    cases h
    rfl

namespace Database

theorem list_unchanged {chrono : Chrono T} {plan : RecencyPlan} {now : T} {limit : UInt64} {s t : Store}
    (h : (list chrono plan now limit).Leaves s t) : t = s := by
  have hrows : ∀ rows, Script.Preserves (· = s) (listRows chrono now rows) := by
    intro rows
    induction rows with
    | nil => exact .pure _
    | cons row rows ih => exact .bind (.query _) fun _ => .bind ih fun _ => .pure _
  exact Script.Preserves.bind (.query _) (fun rows => hrows rows) s t rfl h

/-- Where compacting the file fails, the rows have been deleted. -/
theorem clear_error {budget rest : Option Nat} {s t : Store} {e : Failure SqlError}
    (h : clear.run budget s = (.error e, t, rest)) : t = s ∨ t = s.deleteWhere fun _ => true := by
  rcases Script.run_bind_error h with h | ⟨n, s₁, budget₁, hdelete, h⟩
  · exact .inl (Script.run_update_error h)
  cases Script.returns_update.1 (Script.run_returns hdelete)
  rcases Script.run_bind_error h with h | ⟨u, s₂, budget₂, hvacuum, h⟩
  · exact .inr (Script.run_query h)
  · cases h

theorem clear_returns {s t : Store} {n : Nat} (h : clear.Returns s n t) : t = s.deleteWhere fun _ => true := by
  obtain ⟨m, s₁, hdelete, h⟩ := Script.returns_bind.1 h
  cases Script.returns_update.1 hdelete
  obtain ⟨u, hvacuum, -⟩ := Script.returns_bind_pure.1 h
  exact (Script.returns_query.1 hvacuum).2

end Database

/-- The touch of the entry is the last statement. -/
theorem restoreLookup_error {env : Env T} {now : T} {id : Int} {budget rest : Option Nat} {s t : Store}
    {e : Failure SqlError} (h : (restoreLookup env now id).run budget s = (.error e, t, rest)) : t = s := by
  rcases Script.run_bind_error h with hlookup | ⟨found, s₁, budget₁, hlookup, hfound⟩
  · exact Script.run_query hlookup
  obtain rfl := Script.run_query hlookup
  cases found with
  | none => cases hfound
  | some hash =>
    rcases Script.run_bind_error hfound with hraw | ⟨payloads, s₂, budget₂, hraw, hrest⟩
    · exact Script.run_query hraw
    obtain rfl := Script.run_query hraw
    rcases Script.run_bind_error hrest with htouch | ⟨u, s₃, budget₃, htouch, hend⟩
    · exact Script.run_update_error htouch
    · cases hend

theorem restoreLookup_none {env : Env T} {now : T} {id : Int} {s t : Store}
    (h : (restoreLookup env now id).Returns s none t) : t = s := by
  obtain ⟨found, s₁, hfound, h⟩ := Script.returns_bind.1 h
  obtain ⟨-, rfl⟩ := Script.returns_query.1 hfound
  cases found with
  | none => exact (Script.returns_pure.1 h).2
  | some hash =>
    obtain ⟨payloads, s₂, -, h⟩ := Script.returns_bind.1 h
    obtain ⟨u, s₃, -, h⟩ := Script.returns_bind.1 h
    cases (Script.returns_pure.1 h).1

/-- What comes of a request: where it is answered with an error, `cleared` and `limited` may be done in part. -/
inductive Effect (host : Host T) (moment : Moment T) (d : Daemon) : Request → Response T → Daemon → Prop
  | same {req : Request} {response : Response T} (hok : response ≠ .ok) : Effect host moment d req response d
  | deleted {id : Int} {conn : Connection}
      (hcall : Op.Completes host.env.chrono host.env.plan d.conn (.delete id, .deleted true) conn) :
      Effect host moment d (.delete id) .ok { d with conn }
  | cleared {response : Response T}
      (hresponse : (∃ n, Op.Completes host.env.chrono host.env.plan d.conn (.clear, .cleared n)
          ⟨d.conn.self, d.conn.store.deleteWhere fun _ => true⟩) ∧ response = .ok ∨
        ∃ message, response = .error message) :
      Effect host moment d .clear response
        { d with conn := ⟨d.conn.self, d.conn.store.deleteWhere fun _ => true⟩ }
  | limited {response : Response T} {config : Config} {limits : Limits} {conn : Connection}
      (hload : Config.load host.toml moment.environment moment.configFile = .ok config)
      (hlimits : config.limits = .ok limits)
      (hcall : Op.Stops host.env.chrono host.env.plan d.conn (.setLimits limits) conn)
      (hresponse : Op.Completes host.env.chrono host.env.plan d.conn (.setLimits limits, .limited) conn ∧
        response = .ok ∨ ∃ message, response = .error message) :
      Effect host moment d .reloadConfig response { d with conn }
  | offered {path : String} {payloads : Payloads}
      (hpayloads : screenshotPayloads moment.fs host.cwd path = .ok payloads) :
      Effect host moment d (.offerScreenshot path) .ok { d with offers := d.offers ++ [payloads] }
  | restored {id : Int} {hash : String} {payloads : Payloads} {store : Store}
      (hget : (restoreLookup host.env moment.now id).Returns d.conn.store (some (hash, payloads)) store) :
      Effect host moment d (.restore id) .ok
        { conn := { d.conn with store }, suppress := d.suppress.armAt hash moment.instant
          offers := d.offers ++ [payloads] }

section
variable {α : Type} {script : Database.Sql α} {budget : Option Nat}

theorem Daemon.exec_ok {a : α} (h : d.exec budget script = (.ok a, d')) :
    ∃ store, script.Returns d.conn.store a store ∧ d' = { d with conn := { d.conn with store } } := by
  obtain ⟨store, rest, hrun, rfl⟩ := exec_eq.1 h
  exact ⟨store, Script.run_returns hrun, rfl⟩

theorem Daemon.exec_leaves {result : Except (Failure SqlError) α} (h : d.exec budget script = (result, d')) :
    ∃ store, script.Leaves d.conn.store store ∧ d' = { d with conn := { d.conn with store } } := by
  obtain ⟨store, rest, hrun, rfl⟩ := exec_eq.1 h
  have hleaves := Script.run_leaves script budget d.conn.store
  rw [hrun] at hleaves
  exact ⟨store, hleaves, rfl⟩

/-- A script that changes nothing. -/
theorem Daemon.exec_same {result : Except (Failure SqlError) α} (h : d.exec budget script = (result, d'))
    (hsame : ∀ s, script.Leaves d.conn.store s → s = d.conn.store) : d' = d := by
  obtain ⟨store, hleaves, rfl⟩ := exec_leaves h
  rw [hsame store hleaves]

end

theorem dispatch_effect (req : Request) :
    Effect host moment d req (dispatch host moment d req).1 (dispatch host moment d req).2 := by
  cases req with
  | ping => exact .same nofun
  | reloadConfig =>
    rw [dispatch]
    cases hload : Config.load host.toml moment.environment moment.configFile with
    | error e => exact .same nofun
    | ok config =>
      dsimp only
      cases hlimits : config.limits with
      | error e => exact .same nofun
      | ok limits =>
        dsimp only
        rcases hexec : reloadConfig host moment d limits with ⟨result, d'⟩
        rw [reloadConfig] at hexec
        cases result with
        | ok u =>
          obtain ⟨store, hreturns, rfl⟩ := Daemon.exec_ok hexec
          have hcall : Op.Completes host.env.chrono host.env.plan d.conn (.setLimits limits, .limited)
              ⟨d.conn.self.withLimits limits, store⟩ :=
            ⟨Script.returns_bind_pure.2 ⟨u, hreturns, rfl⟩, rfl⟩
          exact .limited hload hlimits hcall.stops (.inl ⟨hcall, rfl⟩)
        | error e =>
          obtain ⟨store, hleaves, rfl⟩ := Daemon.exec_leaves hexec
          exact .limited hload hlimits ⟨Script.leaves_bind.2 (.inl hleaves), rfl⟩ (.inr ⟨_, rfl⟩)
  | list limit =>
    rw [dispatch]
    rcases hexec : d.exec moment.budget (Database.list host.env.chrono host.env.plan moment.now (limit.getD 200))
      with ⟨result, d'⟩
    obtain rfl := Daemon.exec_same hexec fun s hs => Database.list_unchanged hs
    cases result <;> exact .same nofun
  | decode id =>
    rw [dispatch]
    rcases hexec : d.exec moment.budget (Database.getPayloads host.b64 id) with ⟨result, d'⟩
    obtain rfl := Daemon.exec_same hexec fun s hs => Script.leaves_query.1 hs
    cases result <;> exact .same nofun
  | delete id =>
    rw [dispatch]
    rcases hexec : d.exec moment.budget (Database.delete id) with ⟨result, d'⟩
    cases result with
    | error e =>
      obtain ⟨store, rest, hrun, rfl⟩ := Daemon.exec_eq.1 hexec
      rw [Script.run_update_error hrun]
      exact .same nofun
    | ok found =>
      obtain ⟨store, hreturns, rfl⟩ := Daemon.exec_ok hexec
      cases found with
      | true => exact .deleted ⟨Script.returns_bind_pure.2 ⟨true, hreturns, rfl⟩, rfl⟩
      | false =>
        have hdelete := Script.returns_update.1 hreturns
        simp only [Except.ok.injEq, Prod.mk.injEq] at hdelete
        obtain ⟨hfound, rfl⟩ := hdelete
        rw [Store.deleteWhere_eq_self]
        · exact .same nofun
        · intro r hr
          by_contra hid
          have hmem : r ∈ d.conn.store.entries.filter (·.id == id) := List.mem_filter.2 ⟨hr, by simpa using hid⟩
          exact absurd (List.length_pos_of_mem hmem) (by simpa using hfound)
  | offerScreenshot path =>
    rw [dispatch]
    cases hpayloads : screenshotPayloads moment.fs host.cwd path with
    | error e => exact .same nofun
    | ok payloads => exact .offered hpayloads
  | clear =>
    rw [dispatch]
    rcases hexec : d.exec moment.budget Database.clear with ⟨result, d'⟩
    cases result with
    | error e =>
      obtain ⟨store, rest, hrun, rfl⟩ := Daemon.exec_eq.1 hexec
      rcases Database.clear_error hrun with rfl | rfl
      · exact .same nofun
      · exact .cleared (.inr ⟨_, rfl⟩)
    | ok n =>
      obtain ⟨store, hreturns, rfl⟩ := Daemon.exec_ok hexec
      obtain rfl := Database.clear_returns hreturns
      exact .cleared (.inl ⟨⟨n, Script.returns_bind_pure.2 ⟨n, hreturns, rfl⟩, rfl⟩, rfl⟩)
  | restore id =>
    rw [dispatch]
    rcases hexec : d.exec moment.budget (restoreLookup host.env moment.now id) with ⟨result, d'⟩
    cases result with
    | error e =>
      obtain ⟨store, rest, hrun, rfl⟩ := Daemon.exec_eq.1 hexec
      rw [restoreLookup_error hrun]
      exact .same nofun
    | ok found =>
      obtain ⟨store, hreturns, rfl⟩ := Daemon.exec_ok hexec
      cases found with
      | none =>
        rw [restoreLookup_none hreturns]
        exact .same nofun
      | some entry => exact .restored hreturns

/-! ### Requests that fail -/

namespace Database
variable {plan : RecencyPlan} {self : Database}

theorem evict_ascends {maxHistorySize : UInt64} (rows : List (Int × Int)) (remaining : Int) :
    (evict maxHistorySize rows remaining).Ascends fun s t => t.entries ⊆ s.entries := by
  induction rows generalizing remaining with
  | nil => exact .pure _
  | cons row rows ih =>
    rw [evict]
    split_ifs
    · exact .pure _
    · refine .bind (.update fun s _ t h => ?_) fun _ => ih _
      cases h
      exact List.filter_subset_self _

theorem trim_ascends : (self.trim plan).Ascends fun s t => t.entries ⊆ s.entries := by
  rw [trim]
  have hquery : ∀ {α : Type} (f : Store → Except SqlError α),
      (Script.query f).Ascends fun s t : Store => t.entries ⊆ s.entries :=
    fun f => .query (fun s => List.Subset.refl s.entries) f
  refine .bind (.update fun s _ t h => ?_) fun _ => .bind (hquery _) fun total => ?_
  · cases h
    exact List.filter_subset_self _
  · split_ifs
    · exact .bind (hquery _) fun rows => evict_ascends rows total
    · exact .pure _

/-- A `trim` that is stopped has deleted no row that it would have kept. -/
theorem trim_keeps {s t u : Store} {x : Unit} (hstop : (self.trim plan).Leaves s t)
    (hfull : (self.trim plan).Returns s x u) : u.entries ⊆ t.entries :=
  trim_ascends.between (R := fun s t => t.entries ⊆ s.entries) (fun s => List.Subset.refl s.entries)
    (fun _ _ _ hst htu => List.Subset.trans htu hst) hstop hfull

end Database

/-- After an error the daemon is as it was. The exceptions are a `Clear` that has deleted everything and then failed to
compact the file, and a `ReloadConfig` that has taken the limits over: the trimming has been stopped then, and what it
would have kept is there. -/
theorem dispatch_error (host : Host T) (moment : Moment T) {d d' : Daemon} {req : Request} {message : String}
    (h : dispatch host moment d req = (.error message, d')) :
    d'.suppress = d.suppress ∧ d'.offers = d.offers ∧
      (d'.conn = d.conn ∨
        req = .clear ∧ d'.conn.self = d.conn.self ∧ d'.conn.store.entries = [] ∨
        req = .reloadConfig ∧ ∃ config limits,
          Config.load host.toml moment.environment moment.configFile = .ok config ∧ config.limits = .ok limits ∧
          d'.conn.self = d.conn.self.withLimits limits ∧ d'.conn.store.entries ⊆ d.conn.store.entries ∧
          ∀ trimmed, ((d.conn.self.withLimits limits).trim host.env.plan).Returns d.conn.store () trimmed →
            trimmed.entries ⊆ d'.conn.store.entries) := by
  have heffect : Effect host moment d req _ _ := dispatch_effect req
  rw [h] at heffect
  cases heffect with
  | same => exact ⟨rfl, rfl, .inl rfl⟩
  | cleared => exact ⟨rfl, rfl, .inr (.inl ⟨rfl, rfl, by simp [Store.deleteWhere]⟩)⟩
  | @limited _ config limits conn hload hlimits hcall =>
    refine ⟨rfl, rfl, .inr (.inr ⟨rfl, config, limits, hload, hlimits, hcall.2, ?_⟩)⟩
    have htrim : ((d.conn.self.withLimits limits).trim host.env.plan).Leaves d.conn.store conn.store := by
      rcases Script.leaves_bind.1 hcall.1 with hleaves | ⟨_, s', hreturns, hpure⟩
      · exact hleaves
      · rw [Script.leaves_pure.1 hpure]
        exact hreturns.leaves
    refine ⟨?_, fun trimmed hfull => Database.trim_keeps htrim hfull⟩
    obtain ⟨p, hp⟩ := Database.trim_leaves _ _ htrim
    rw [hp]
    exact List.filter_subset_self _

/-- The rows of a `Clear` are gone, and the file cannot be compacted. -/
theorem dispatch_error_cleared :
    let cleared : Daemon := { sampleDaemon with conn := ⟨.ofLimits .default, hiCopied.deleteWhere fun _ => true⟩ }
    cleared.suppress = sampleDaemon.suppress ∧ cleared.offers = sampleDaemon.offers ∧
      (cleared.conn = sampleDaemon.conn ∨
        Request.clear = .clear ∧ cleared.conn.self = sampleDaemon.conn.self ∧ cleared.conn.store.entries = [] ∨
        Request.clear = .reloadConfig ∧ ∃ config limits,
          Config.load sampleToml ⟨none, none⟩ .absent = .ok config ∧ config.limits = .ok limits ∧
          cleared.conn.self = sampleDaemon.conn.self.withLimits limits ∧
          cleared.conn.store.entries ⊆ sampleDaemon.conn.store.entries ∧
          ∀ trimmed,
            ((sampleDaemon.conn.self.withLimits limits).trim .index).Returns sampleDaemon.conn.store () trimmed →
            trimmed.entries ⊆ cleared.conn.store.entries) :=
  @dispatch_error (Fin 10) sampleHost { sampleMoment with budget := some 1 } sampleDaemon _ .clear
    "database is locked" rfl

/-! ### The session -/

/-- The shared state, as the daemon and as the session has it. -/
structure Session.Shares (s : Session T) (d : Daemon) : Prop where
  conn : s.conn = d.conn
  suppress : s.suppress = d.suppress
  alive : s.alive = true

/-- What clients ask for: they never insert, and capture nothing. -/
def SessionEvent.ofClient : SessionEvent T → Bool
  | lookup .. | arm .. | call (.delete _) _ | call .clear _ | call (.setLimits _) _ => true
  | _ => false

theorem Session.Shares.call {s : Session T} (hs : s.Shares d) {op : Op T} {conn : Connection} (succeeded : Bool)
    (hclient : (SessionEvent.call op succeeded).ofClient = true)
    (hcall : op.Stops host.env.chrono host.env.plan d.conn conn)
    (hok : succeeded = true → ∃ out, Op.Completes host.env.chrono host.env.plan d.conn (op, out) conn) :
    ∃ events t, Run (Session.Step host.env) s events t ∧ t.Shares { d with conn } ∧ t.clock = s.clock ∧
      ∀ e ∈ events, e.ofClient = true := by
  have hop : ∀ entry, op ≠ .insert entry := by
    rintro entry rfl
    cases hclient
  have hstep : Session.Step host.env s (.call op succeeded) { s with conn } :=
    .call hop (hs.conn ▸ hcall) (hs.conn ▸ hok) hs.alive
  exact ⟨_, _, .single hstep, ⟨rfl, hs.suppress, hs.alive⟩, rfl, List.forall_mem_singleton.2 hclient⟩

theorem Effect.session {req : Request} {response : Response T} (h : Effect host moment d req response d')
    {s : Session T} (hs : s.Shares d) (hclock : s.clock ≤ moment.instant) :
    ∃ events t, Run (Session.Step host.env) s events t ∧ t.Shares d' ∧ t.clock ≤ moment.instant ∧
      ∀ e ∈ events, e.ofClient = true := by
  have hcalled : ∀ d', (∃ events t, Run (Session.Step host.env) s events t ∧ t.Shares d' ∧ t.clock = s.clock ∧
      ∀ e ∈ events, e.ofClient = true) → ∃ events t, Run (Session.Step host.env) s events t ∧ t.Shares d' ∧
        t.clock ≤ moment.instant ∧ ∀ e ∈ events, e.ofClient = true := by
    rintro d' ⟨events, t, hrun, ht, hsame, hclient⟩
    exact ⟨events, t, hrun, ht, hsame.trans_le hclock, hclient⟩
  cases h with
  | same => exact ⟨[], s, .nil s, hs, hclock, nofun⟩
  | offered => exact ⟨[], s, .nil s, ⟨hs.conn, hs.suppress, hs.alive⟩, hclock, nofun⟩
  | deleted hcall => exact hcalled _ (hs.call true rfl hcall.stops fun _ => ⟨_, hcall⟩)
  | cleared hresponse =>
    rcases hresponse with ⟨⟨n, hcall⟩, rfl⟩ | ⟨message, rfl⟩
    · exact hcalled _ (hs.call true rfl hcall.stops fun _ => ⟨_, hcall⟩)
    · exact hcalled _ (hs.call false rfl (Op.stops_clear d.conn) nofun)
  | limited hload hlimits hcall hresponse =>
    rcases hresponse with ⟨hcompletes, rfl⟩ | ⟨message, rfl⟩
    · exact hcalled _ (hs.call true rfl hcall fun _ => ⟨_, hcompletes⟩)
    · exact hcalled _ (hs.call false rfl hcall nofun)
  | @restored id hash payloads store hget =>
    have hlookup : Session.Step host.env s (.lookup s.requests moment.now id) _ := .lookup (hs.conn ▸ hget) hs.alive
    refine ⟨[_, .arm s.requests hash moment.instant], _, .cons hlookup
      (.single (.arm List.mem_cons_self hclock hs.alive)), ⟨?_, ?_, hs.alive⟩, Nat.le_refl _, ?_⟩
    · rw [← hs.conn]
    · rw [← hs.suppress]
    · exact List.forall_mem_cons.2 ⟨rfl, List.forall_mem_singleton.2 rfl⟩

/-- What the other threads do before each of the lines is a run of the session, of steps with `P`, and the clock does
not go back. -/
def Orderly (host : Host T) (P : SessionEvent T → Prop) : Nat → List (Bytes × Moment T) → Prop
  | _, [] => True
  | clock, (_, moment) :: lines =>
    (∀ (d : Daemon) (s : Session T), s.Shares d → s.clock ≤ clock →
      ∃ events t, Run (Session.Step host.env) s events t ∧ t.Shares (moment.others d) ∧ t.clock ≤ moment.instant ∧
        ∀ e ∈ events, P e) ∧
    Orderly host P moment.instant lines

theorem handleLine_session (line : String) {s : Session T} (hs : s.Shares d) (hclock : s.clock ≤ moment.instant) :
    ∃ events t, Run (Session.Step host.env) s events t ∧ t.Shares (handleLine host moment d line).2 ∧
      t.clock ≤ moment.instant ∧ ∀ e ∈ events, e.ofClient = true := by
  rw [handleLine]
  cases host.json.fromStr line with
  | error e => exact ⟨[], s, .nil s, hs, hclock, List.forall_mem_nil _⟩
  | ok req => exact (dispatch_effect req).session hs hclock

theorem handleLines_session {P : SessionEvent T → Prop} {lines : List (Bytes × Moment T)} {clock : Nat}
    (hothers : Orderly host P clock lines) {s : Session T} (hs : s.Shares d) (hclock : s.clock ≤ clock) :
    ∃ events t, Run (Session.Step host.env) s events t ∧ t.Shares (handleLines host d lines).2 ∧
      ∀ e ∈ events, P e ∨ e.ofClient = true := by
  induction lines generalizing d s clock with
  | nil => exact ⟨[], s, .nil s, hs, nofun⟩
  | cons p lines ih =>
    obtain ⟨line, moment⟩ := p
    obtain ⟨hfirst, hrest⟩ := hothers
    obtain ⟨before, s₁, hbefore, hs₁, hclock₁, hP⟩ := hfirst d s hs hclock
    rw [handleLines]
    cases hline : decodeLine line with
    | none => exact ⟨before, s₁, hbefore, hs₁, fun e he => .inl (hP e he)⟩
    | some text =>
      dsimp only
      by_cases hempty : text = ""
      · rw [if_pos hempty]
        obtain ⟨events, t, hrun, ht, hevents⟩ := ih hrest hs₁ hclock₁
        exact ⟨before ++ events, t, hbefore.append hrun, ht,
          List.forall_mem_append.2 ⟨fun e he => .inl (hP e he), hevents⟩⟩
      · rw [if_neg hempty]
        obtain ⟨asked, s₂, hasked, hs₂, hclock₂, hclient⟩ := handleLine_session text hs₁ hclock₁
        obtain ⟨events, t, hrun, ht, hevents⟩ := ih hrest hs₂ hclock₂
        exact ⟨before ++ (asked ++ events), t, hbefore.append (hasked.append hrun), ht, List.forall_mem_append.2
          ⟨fun e he => .inl (hP e he), List.forall_mem_append.2 ⟨fun e he => .inr (hclient e he), hevents⟩⟩⟩

/-- Whatever a client sends, and whatever the other threads do before each of its lines, the daemon goes through a run
of the session, in which the client deletes, clears, sets limits and restores, and does nothing else. -/
theorem handleClient_session (host : Host T) (moments : Nat → Moment T) (d : Daemon) (bytes : Bytes)
    {P : SessionEvent T → Prop} {s : Session T} (hs : s.Shares d)
    (hothers : Orderly host P s.clock ((readLines [] bytes).mapIdx fun i line => (line, moments i))) :
    ∃ events t, Run (Session.Step host.env) s events t ∧ t.Shares (handleClient host moments d bytes).2 ∧
      ∀ e ∈ events, P e ∨ e.ofClient = true :=
  handleLines_session hothers hs (Nat.le_refl _)

/-- JSON that knows one more request. -/
def restoreHost : Host (Fin 10) :=
  { sampleHost with json := { sampleJson with fromStr := fun line =>
      if line = "\x7b\"cmd\":\"restore\",\"id\":1\x7d" then .ok (.restore 1) else sampleJson.fromStr line } }

/-- A client restores the text and then sends garbage; no other thread does anything. -/
theorem handleClient_session_hi :
    ∃ events t, Run (Session.Step Env.sample) (Session.start ⟨.ofLimits .default, hiCopied⟩) events t ∧
      t.Shares (handleClient restoreHost (fun _ => sampleMoment) sampleDaemon
        (asBytes "\x7b\"cmd\":\"restore\",\"id\":1\x7d\n\nhello")).2 ∧
      ∀ e ∈ events, False ∨ e.ofClient = true := by
  have hquiet : ∀ (d : Daemon) (s : Session (Fin 10)), s.Shares d → s.clock ≤ 0 →
      ∃ events t, Run (Session.Step Env.sample) s events t ∧ t.Shares (sampleMoment.others d) ∧
        t.clock ≤ sampleMoment.instant ∧ ∀ e ∈ events, False :=
    fun d s hs hclock => ⟨[], s, .nil s, hs, hclock, nofun⟩
  exact handleClient_session restoreHost (fun _ => sampleMoment) sampleDaemon
    (asBytes "\x7b\"cmd\":\"restore\",\"id\":1\x7d\n\nhello") ⟨rfl, rfl, rfl⟩ ⟨hquiet, hquiet, hquiet, trivial⟩

end Mimeclip
