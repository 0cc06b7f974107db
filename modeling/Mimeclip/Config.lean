import Mimeclip.Trim

/-!
# Configuration (`common/config.rs`)

A configuration holds the two limits as the user writes them. `Config.limits` checks them and `set_limits` hands
them to `trim`, which compares the limit on the size as an `i64`. Limits below `2 ^ 63` never cost an entry of
a history that is within them; larger ones cost all of it (`limits_overEvict_iff`).
-/

namespace Mimeclip

/-! ### Sizes -/

/-- The errors of `Config::limits`. -/
inductive ConfigError
  | maxEntriesZero
  | invalidSize (value : String)
  | sizeTooLarge
  | sizeZero
deriving DecidableEq, Repr

/-- `debug` stands for the `{:?}` of a `str`. -/
def ConfigError.message (debug : String → String) : ConfigError → String
  | maxEntriesZero => "max_entries must be at least 1"
  | invalidSize value => "invalid history size " ++ debug value ++ "; use values such as 256MiB"
  | sizeTooLarge => "history size is too large"
  | sizeZero => "history size must be at least 1 byte"

def pushDigit (n : UInt64) (c : Char) : Option UInt64 :=
  if c.isDigit ∧ n.toNat * 10 + (c.toNat - 48) < 2 ^ 64 then some (UInt64.ofNat (n.toNat * 10 + (c.toNat - 48)))
  else none

/-- `str::parse::<u64>`, which takes a leading plus sign. -/
def parseU64 : List Char → Option UInt64
  | [] => none
  | ['+'] => none
  | '+' :: c :: cs => (c :: cs).foldlM pushDigit 0
  | c :: cs => (c :: cs).foldlM pushDigit 0

def stripSuffix (suffix cs : List Char) : Option (List Char) :=
  if suffix <:+ cs then some (cs.take (cs.length - suffix.length)) else none

def checkedMul (a b : UInt64) : Option UInt64 :=
  if a.toNat * b.toNat < 2 ^ 64 then some (a * b) else none

def sizeUnits : List (String × UInt64) :=
  [("gib", 1024 * 1024 * 1024), ("gb", 1024 * 1024 * 1024), ("mib", 1024 * 1024), ("mb", 1024 * 1024),
    ("kib", 1024), ("kb", 1024), ("b", 1)]

def parseSize (value : String) : Except ConfigError UInt64 :=
  let normalized := ((trim value).toList.map Char.toLower).filter (· ≠ ' ')
  let (number, multiplier) :=
    (sizeUnits.findSome? fun (suffix, multiplier) =>
      (stripSuffix suffix.toList normalized).map (·, multiplier)).getD (normalized, 1)
  match parseU64 number with
  | none => .error (.invalidSize value)
  | some number =>
    match checkedMul number multiplier with
    | none => .error .sizeTooLarge
    | some bytes => if bytes = 0 then .error .sizeZero else .ok bytes

def formatSize (bytes : UInt64) : String :=
  let units : List (String × UInt64) := [("GiB", 1024 * 1024 * 1024), ("MiB", 1024 * 1024), ("KiB", 1024)]
  match units.find? fun (_, divisor) => divisor ≤ bytes && bytes % divisor == 0 with
  | some (unit, divisor) => toString (bytes / divisor).toNat ++ " " ++ unit
  | none => toString bytes.toNat ++ " B"

/-! ### `Config` -/

structure Config where
  maxEntries : UInt64
  maxHistorySize : String
deriving DecidableEq, Repr

namespace Config

def default : Config where
  maxEntries := Limits.default.maxEntries
  maxHistorySize := formatSize Limits.default.maxHistorySize

def limits (config : Config) : Except ConfigError Limits := do
  if config.maxEntries = 0 then throw .maxEntriesZero
  let maxHistorySize ← parseSize config.maxHistorySize
  pure ⟨config.maxEntries, maxHistorySize⟩

theorem limits_default : default.limits = .ok .default := by decide

theorem limits_eq_ok {config : Config} {limits : Limits} : config.limits = .ok limits ↔
    config.maxEntries ≠ 0 ∧ limits.maxEntries = config.maxEntries ∧
      parseSize config.maxHistorySize = .ok limits.maxHistorySize := by
  rw [Config.limits]
  split_ifs with hzero
  · refine iff_of_false ?_ fun h => h.1 hzero
    intro h
    cases h
  · cases hsize : parseSize config.maxHistorySize with
    | error e =>
      refine iff_of_false ?_ ?_
      · intro h
        cases h
      · rintro ⟨-, -, h⟩
        cases h
    | ok bytes =>
      obtain ⟨maxEntries, maxHistorySize⟩ := limits
      constructor
      · intro h
        cases h
        exact ⟨hzero, rfl, rfl⟩
      · rintro ⟨-, rfl, h⟩
        cases h
        rfl

end Config

/-! ### Accepted limits -/

/-- What a capture of a stored content leaves as it is. -/
def Store.accounts (s : Store) : List (Int × String × Int) := s.entries.map fun r => (r.id, r.hash, r.size)

theorem Store.accounts_updateEntry {s : Store} {id : Int} {f : EntryColumns → EntryColumns} {hf}
    (h : ∀ r ∈ s.entries, r.id = id → (f r.toEntryColumns).size = r.size) :
    (s.updateEntry id f hf).accounts = s.accounts := by
  rw [accounts, updateEntry, List.map_map]
  refine List.map_congr_left fun r hr => ?_
  dsimp only [Function.comp_apply]
  split_ifs with hid
  · rw [hf, h r hr hid]
  · rfl

section
variable {s t : Store} (h : t.accounts = s.accounts)
include h

theorem map_eq_of_accounts {β : Type} (f : Int × String × Int → β) :
    (t.entries.map fun r => f (r.id, r.hash, r.size)) = s.entries.map fun r => f (r.id, r.hash, r.size) := by
  have := congrArg (List.map f) h
  rwa [Store.accounts, Store.accounts, List.map_map, List.map_map] at this

theorem sizeSum_eq_of_accounts : sizeSum t.entries = sizeSum s.entries :=
  congrArg List.sum (map_eq_of_accounts h (·.2.2))

theorem ids_eq_of_accounts : t.ids = s.ids := map_eq_of_accounts h (·.1)

theorem length_eq_of_accounts : t.entries.length = s.entries.length := by
  simpa [Store.accounts] using congrArg List.length h

theorem exists_mem_of_accounts {r : EntryRow} (hr : r ∈ s.entries) :
    ∃ r' ∈ t.entries, r'.id = r.id ∧ r'.hash = r.hash ∧ r'.size = r.size := by
  have hmem : (r.id, r.hash, r.size) ∈ t.accounts := h ▸ List.mem_map_of_mem hr
  obtain ⟨r', hr', heq⟩ := List.mem_map.1 hmem
  simp only [Prod.mk.injEq] at heq
  exact ⟨r', hr', heq⟩

theorem Database.Within.congr {db : Database} (hs : db.Within s) : db.Within t where
  count := (length_eq_of_accounts h).trans_le hs.count
  nonneg r hr := by
    obtain ⟨r', hr', -, -, hsize⟩ := exists_mem_of_accounts h.symm hr
    exact hsize ▸ hs.nonneg r' hr'
  size := (sizeSum_eq_of_accounts h).trans_le hs.size

theorem Database.Sound.congr {db : Database} (hs : db.Sound s) : db.Sound t := by
  rcases hs with hlimit | hnil | hoverflow
  · exact .inl hlimit
  · exact .inr (.inl (List.length_eq_zero_iff.1 ((length_eq_of_accounts h).trans (by rw [hnil]; rfl))))
  · exact .inr (.inr ((sizeSum_eq_of_accounts h).symm ▸ hoverflow))

end

variable {T : Type} {chrono : Chrono T} {plan : RecencyPlan}

/-- An insert of an entry the table has, with the size it has there. -/
def Op.Recaptures (s : Store) : Op T → Prop
  | insert entry => ∃ r ∈ s.entries, r.hash = entry.hash ∧ r.size = asI64 entry.size
  | _ => False

theorem Database.Within.insert_leaves {self : Database} {entry : NewEntry T} {s t : Store} (h : self.Within s)
    (hsound : self.Sound s) (hentry : (Op.insert entry).Recaptures s)
    (hleaves : (self.insert chrono plan entry).Leaves s t) : t.accounts = s.accounts := by
  obtain ⟨r, hr, hhash, hsize⟩ := hentry
  have hknown : known s entry.hash = some r.id := known_eq_some.2 ⟨r, hr, hhash, rfl⟩
  cases Database.insert_leaves hleaves with
  | unchanged => rfl
  | partly id s₁ hid => rw [hknown] at hid; cases hid
  | written hw ht =>
    cases hw with
    | added s₁ hid => rw [hknown] at hid; cases hid
    | refreshed hid =>
      rw [hknown] at hid
      cases hid
      have haccounts : (s.updateEntry r.id _ (refreshColumns_hash chrono entry)).accounts = s.accounts :=
        Store.accounts_updateEntry fun r' hr' hid => by
          rw [Store.eq_of_id hr' hr hid]
          exact hsize.symm
      rw [(h.congr haccounts).trim_leaves (hsound.congr haccounts) ht]
      exact haccounts

theorem Database.Within.stops_setLimits {self : Database} {limits : Limits} {s : Store} {c : Connection}
    (h : (self.withLimits limits).Within s) (hsound : (self.withLimits limits).Sound s)
    (hstep : Op.Stops chrono plan ⟨self, s⟩ (.setLimits limits) c) :
    c.self = self.withLimits limits ∧ c.store = s := by
  obtain ⟨hleaves, hself⟩ := hstep
  refine ⟨hself, ?_⟩
  rcases Script.leaves_bind.1 hleaves with htrim | ⟨_, s', htrim, hpure⟩
  · exact h.trim_leaves hsound htrim
  · exact (Script.leaves_pure.1 hpure).trans (h.trim_leaves hsound htrim.leaves)

theorem Database.Within.stops_recapture {db : Database} {s : Store} {c c' : Connection} {op : Op T}
    (h : db.Within s) (hsound : db.Sound s) (hself : c.self = db) (haccounts : c.store.accounts = s.accounts)
    (hop : op.Recaptures s) (hstep : Op.Stops chrono plan c op c') :
    c'.self = db ∧ c'.store.accounts = s.accounts := by
  cases op with
  | insert entry =>
    obtain ⟨hleaves, hself'⟩ := hstep
    refine ⟨hself'.trans hself, ?_⟩
    have hentry : (Op.insert entry).Recaptures c.store := by
      obtain ⟨r, hr, hhash, hsize⟩ := hop
      obtain ⟨r', hr', -, hhash', hsize'⟩ := exists_mem_of_accounts haccounts hr
      exact ⟨r', hr', hhash'.trans hhash, hsize'.trans hsize⟩
    subst hself
    have hinsert : ∀ t, (c.self.insert chrono plan entry).Leaves c.store t → t.accounts = s.accounts :=
      fun t hins => ((h.congr haccounts).insert_leaves (hsound.congr haccounts) hentry hins).trans haccounts
    rcases Script.leaves_bind.1 hleaves with hins | ⟨_, s', hins, hpure⟩
    · exact hinsert _ hins
    · exact Script.leaves_pure.1 hpure ▸ hinsert s' hins.leaves
  | touchLastUsed | delete | clear | setLimits | list => exact hop.elim

/-- Limits within which the history is, and captures that leave their sizes as they are: no row is ever
deleted, wherever the calls stop, if and only if the limit on the size is positive as an `i64`, or the table is
empty, or SQLite cannot add up its sizes. Otherwise `set_limits` returns with an empty table. -/
theorem limits_overEvict_iff (chrono : Chrono T) (plan : RecencyPlan) (self : Database) (s : Store)
    (config : Config) (limits : Limits) (_hconfig : config.limits = .ok limits)
    (hcount : s.entries.length ≤ limits.maxEntries.toNat) (hnonneg : ∀ r ∈ s.entries, 0 ≤ r.size)
    (hsize : sizeSum s.entries ≤ limits.maxHistorySize.toNat) :
    ((∀ ops c, (∀ op ∈ ops, op.Recaptures s) →
        Run (Op.Stops chrono plan) ⟨self, s⟩ (.setLimits limits :: ops) c → c.store.ids = s.ids) ↔
      limits.maxHistorySize.toNat < 2 ^ 63 ∨ s.entries = [] ∨ i64Max < sizeSum s.entries) ∧
    (¬ (limits.maxHistorySize.toNat < 2 ^ 63 ∨ s.entries = [] ∨ i64Max < sizeSum s.entries) →
      ∃ c, Op.Completes chrono plan ⟨self, s⟩ (.setLimits limits, .limited) c ∧ c.store.entries = []) := by
  have hwithin : (self.withLimits limits).Within s := ⟨hcount, hnonneg, hsize⟩
  have hempties (hunsound : ¬ (self.withLimits limits).Sound s) :
      ∃ c, Op.Completes chrono plan ⟨self, s⟩ (.setLimits limits, .limited) c ∧ c.store.entries = [] := by
    obtain ⟨t, ht, hnil⟩ := hwithin.trim_returns_nil plan hunsound
    exact ⟨⟨self.withLimits limits, t⟩, ⟨Script.returns_bind_pure.2 ⟨(), ht, rfl⟩, rfl⟩, hnil⟩
  refine ⟨⟨fun hkeeps => ?_, fun hsound ops c hops hrun => ?_⟩, hempties⟩
  · by_contra hunsound
    obtain ⟨c, hc, hnil⟩ := hempties hunsound
    have hids := hkeeps [] c (by simp) (.single hc.stops)
    rw [Store.ids, Store.ids, hnil, List.map_nil, eq_comm, List.map_eq_nil_iff] at hids
    exact hunsound (.inr (.inl hids))
  · cases hrun with
    | cons hset hrun =>
      obtain ⟨hself, hstore⟩ := hwithin.stops_setLimits hsound hset
      have hinv := hrun.invariant (I := fun c => c.self = self.withLimits limits ∧ c.store.accounts = s.accounts)
        (fun c op c' hc hop hstep => hwithin.stops_recapture hsound hc.1 hc.2 hop hstep)
        ⟨hself, by rw [hstore]⟩ hops
      exact ids_eq_of_accounts hinv.2

theorem limits_overEvict_iff_hi :
    ((∀ ops c, (∀ op ∈ ops, op.Recaptures hiCopied) →
        Run (Op.Stops .tenSeconds .index) ⟨.ofLimits .default, hiCopied⟩ (.setLimits .default :: ops) c →
          c.store.ids = hiCopied.ids) ↔
      Limits.default.maxHistorySize.toNat < 2 ^ 63 ∨ hiCopied.entries = [] ∨ i64Max < sizeSum hiCopied.entries) ∧
    (¬ (Limits.default.maxHistorySize.toNat < 2 ^ 63 ∨ hiCopied.entries = [] ∨ i64Max < sizeSum hiCopied.entries) →
      ∃ c, Op.Completes .tenSeconds .index ⟨.ofLimits .default, hiCopied⟩ (.setLimits .default, .limited) c ∧
        c.store.entries = []) :=
  limits_overEvict_iff .tenSeconds .index (.ofLimits .default) hiCopied .default .default Config.limits_default
    (by decide) (by decide) (by decide)

/-- `mimeclip config set max-history-size "8589934592 GiB"`, which is `2 ^ 63` bytes. -/
theorem large_limit_empties :
    let limits : Limits := ⟨500, 9223372036854775808⟩
    Config.limits ⟨500, "8589934592 GiB"⟩ = .ok limits ∧ hiCopied.entries.length ≤ limits.maxEntries.toNat ∧
      (∀ r ∈ hiCopied.entries, 0 ≤ r.size) ∧ sizeSum hiCopied.entries ≤ limits.maxHistorySize.toNat ∧
      ∃ c, Op.Completes .tenSeconds .index ⟨.ofLimits .default, hiCopied⟩ (.setLimits limits, .limited) c ∧
        c.store.ids ≠ hiCopied.ids := by
  refine ⟨by decide, by decide, by decide, by decide, _, Op.completes_exec (by rfl), by decide⟩

end Mimeclip
