import Mimeclip.SizeText

/-!
# The configuration file (`Config::load`, `save` and `mimeclip config set`)

`load` puts the environment over the file, and `config set` saves what `load` returned with one setting replaced. So
an override of the other setting ends up in the file: that setting keeps its value if and only if there is no such
override, or it has the value of the file (`configSet_iff`).
-/

namespace Mimeclip

/-- `toml::from_str` for a `Config`, where a setting that is missing has its default, and `toml::to_string_pretty`,
which fails on an integer that is no `i64`. -/
structure Toml where
  fromStr : String → Option Config
  toStringPretty : Config → Option String

/-- What is printed is read back. -/
def Toml.Lawful (toml : Toml) : Prop :=
  ∀ config text, toml.toStringPretty config = some text → toml.fromStr text = some config

inductive SavedFile
  | absent
  | unreadable
  | source (text : String)
deriving DecidableEq, Repr

/-- The values of `MIMECLIP_MAX_ENTRIES` and `MIMECLIP_MAX_HISTORY_SIZE`, those that are UTF-8. -/
structure Environment where
  maxEntries : Option String
  maxHistorySize : Option String
deriving DecidableEq, Repr

inductive LoadError
  | reading
  | parsing
  | parsingMaxEntries
  | limits (error : ConfigError)
deriving DecidableEq, Repr

/-- `path` is what `Path::display` shows of the configuration path. -/
def LoadError.message (debug : String → String) (path : String) : LoadError → String
  | reading => "reading configuration " ++ path
  | parsing => "parsing configuration " ++ path
  | parsingMaxEntries => "parsing MIMECLIP_MAX_ENTRIES as a positive integer"
  | limits error => error.message debug

namespace Config

def ofFile (toml : Toml) : SavedFile → Except LoadError Config
  | .absent => .ok default
  | .unreadable => .error .reading
  | .source text =>
    match toml.fromStr text with
    | some config => .ok config
    | none => .error .parsing

def overrideMaxEntries (config : Config) : Option String → Except LoadError Config
  | none => .ok config
  | some value =>
    match parseU64 value.toList with
    | some count => .ok { config with maxEntries := count }
    | none => .error .parsingMaxEntries

def overrideMaxHistorySize (config : Config) : Option String → Config
  | none => config
  | some value => { config with maxHistorySize := value }

def checkLimits (config : Config) : Except LoadError Config :=
  match config.limits with
  | .ok _ => .ok config
  | .error e => .error (.limits e)

def load (toml : Toml) (env : Environment) (file : SavedFile) : Except LoadError Config := do
  let config ← ofFile toml file
  let config ← config.overrideMaxEntries env.maxEntries
  (config.overrideMaxHistorySize env.maxHistorySize).checkLimits

end Config

/-! ### `mimeclip config set` -/

inductive ConfigSetting
  | maxHistorySize (size : String)
  | maxEntries (count : UInt64)
deriving DecidableEq, Repr

inductive ConfigSetError
  | load (error : LoadError)
  | size (error : ConfigError)
  | limits (error : ConfigError)
  | printing
deriving DecidableEq, Repr

/-- What `save` writes. -/
def save (toml : Toml) (config : Config) : Except ConfigSetError String :=
  match config.limits with
  | .error e => .error (.limits e)
  | .ok _ =>
    match toml.toStringPretty config with
    | some contents => .ok contents
    | none => .error .printing

def ConfigSetting.apply (config : Config) : ConfigSetting → Except ConfigSetError Config
  | maxHistorySize size =>
    match parseSize size with
    | .ok bytes => .ok { config with maxHistorySize := formatSize bytes }
    | .error e => .error (.size e)
  | maxEntries count => .ok { config with maxEntries := count }

/-- The part of `handle_config` up to `save`: the contents that the file has then. -/
def configSet (toml : Toml) (env : Environment) (file : SavedFile) (setting : ConfigSetting) :
    Except ConfigSetError String :=
  match Config.load toml env file with
  | .error e => .error (.load e)
  | .ok config => do save toml (← setting.apply config)

/-! ### What is saved -/

/-- The other setting is not overridden, or with the value it has. -/
def Environment.Agrees (env : Environment) (limits : Limits) : ConfigSetting → Prop
  | .maxHistorySize _ => ∀ value, env.maxEntries = some value → parseU64 value.toList = some limits.maxEntries
  | .maxEntries _ => ∀ value, env.maxHistorySize = some value → parseSize value = .ok limits.maxHistorySize

/-- The named setting has the value given, the other the value it had. -/
def ConfigSetting.Changes (before after : Limits) : ConfigSetting → Prop
  | maxHistorySize size => parseSize size = .ok after.maxHistorySize ∧ after.maxEntries = before.maxEntries
  | maxEntries count => after.maxEntries = count ∧ after.maxHistorySize = before.maxHistorySize

section
variable {toml : Toml} {env : Environment} {setting : ConfigSetting} {config after : Config}

theorem Config.overrideMaxEntries_ok {override : Option String} (h : config.overrideMaxEntries override = .ok after) :
    after.maxHistorySize = config.maxHistorySize ∧
      (override = none → after.maxEntries = config.maxEntries) ∧
      ∀ value, override = some value → parseU64 value.toList = some after.maxEntries := by
  cases override with
  | none =>
    cases h
    exact ⟨rfl, fun _ => rfl, nofun⟩
  | some value =>
    rw [Config.overrideMaxEntries] at h
    split at h
    · rename_i count hcount
      cases h
      refine ⟨rfl, nofun, ?_⟩
      rintro _ ⟨⟩
      exact hcount
    · cases h

theorem Config.checkLimits_ok (h : config.checkLimits = .ok after) : after = config := by
  rw [Config.checkLimits] at h
  split at h <;> cases h
  rfl

/-- A setting that is overridden has the value of the override, and another that of the file. -/
theorem Config.load_ok {text : String} {before : Config} (htext : toml.fromStr text = some before)
    (h : Config.load toml env (.source text) = .ok config) :
    config.maxHistorySize = env.maxHistorySize.getD before.maxHistorySize ∧
      (env.maxEntries = none → config.maxEntries = before.maxEntries) ∧
      ∀ value, env.maxEntries = some value → parseU64 value.toList = some config.maxEntries := by
  have hload : Config.load toml env (.source text) = (before.overrideMaxEntries env.maxEntries).bind fun counted =>
      (counted.overrideMaxHistorySize env.maxHistorySize).checkLimits := by
    rw [Config.load, Config.ofFile, htext]
    rfl
  rw [hload] at h
  cases hentries : before.overrideMaxEntries env.maxEntries with
  | error e => rw [hentries] at h; cases h
  | ok counted =>
    obtain ⟨hsize, hnone, hsome⟩ := overrideMaxEntries_ok hentries
    rw [hentries] at h
    have hconfig := checkLimits_ok h
    cases hover : env.maxHistorySize with
    | none =>
      rw [hover] at hconfig
      subst hconfig
      exact ⟨hsize, hnone, hsome⟩
    | some value =>
      rw [hover] at hconfig
      subst hconfig
      exact ⟨rfl, hnone, hsome⟩

theorem save_ok {contents : String} (h : save toml config = .ok contents) :
    ∃ limits, config.limits = .ok limits ∧ toml.toStringPretty config = some contents := by
  rw [save] at h
  split at h
  · cases h
  · rename_i limits hlimits
    split at h
    · rename_i contents' hprint
      cases h
      exact ⟨limits, hlimits, hprint⟩
    · cases h

theorem configSet_ok {file : SavedFile} {saved : String} (h : configSet toml env file setting = .ok saved) :
    ∃ config after limits, Config.load toml env file = .ok config ∧ setting.apply config = .ok after ∧
      after.limits = .ok limits ∧ toml.toStringPretty after = some saved := by
  rw [configSet] at h
  split at h
  · cases h
  · rename_i config hload
    cases happly : setting.apply config with
    | error e => rw [happly] at h; cases h
    | ok after =>
      rw [happly] at h
      obtain ⟨limits, hlimits, hprint⟩ := save_ok h
      exact ⟨config, after, limits, hload, happly, hlimits, hprint⟩

/-- What is printed is loaded again, where nothing is overridden. -/
theorem Config.load_printed (htoml : toml.Lawful) {contents : String} {limits : Limits}
    (hprint : toml.toStringPretty config = some contents) (hlimits : config.limits = .ok limits) :
    Config.load toml ⟨none, none⟩ (.source contents) = .ok config := by
  have hfile : Config.ofFile toml (.source contents) = .ok config := by
    rw [Config.ofFile, htoml config contents hprint]
  have hload : Config.load toml ⟨none, none⟩ (.source contents) = config.checkLimits := by
    rw [Config.load, hfile]
    rfl
  rw [hload, Config.checkLimits, hlimits]

/-- The count of what was loaded is that of the file, or of an override. -/
theorem Environment.agrees_maxHistorySize {before : Config} {limits : Limits} (size : String)
    (hcount : limits.maxEntries = before.maxEntries)
    (hnone : env.maxEntries = none → config.maxEntries = before.maxEntries)
    (hsome : ∀ value, env.maxEntries = some value → parseU64 value.toList = some config.maxEntries) :
    env.Agrees limits (.maxHistorySize size) ↔ config.maxEntries = limits.maxEntries := by
  unfold Environment.Agrees
  cases henv : env.maxEntries with
  | none => exact iff_of_true nofun ((hnone henv).trans hcount.symm)
  | some value =>
    have hvalue := hsome value henv
    constructor
    · intro h
      exact Option.some.inj (hvalue.symm.trans (h value rfl))
    · rintro h _ ⟨⟩
      exact hvalue.trans (congrArg some h)

theorem Environment.agrees_maxEntries {before : Config} {limits : Limits} {bytes : UInt64} (count : UInt64)
    (hbytes : parseSize before.maxHistorySize = .ok limits.maxHistorySize)
    (hsize : config.maxHistorySize = env.maxHistorySize.getD before.maxHistorySize)
    (hloaded : parseSize config.maxHistorySize = .ok bytes) :
    env.Agrees limits (.maxEntries count) ↔ bytes = limits.maxHistorySize := by
  unfold Environment.Agrees
  rw [hsize] at hloaded
  cases henv : env.maxHistorySize with
  | none =>
    rw [henv, Option.getD_none, hbytes] at hloaded
    exact iff_of_true nofun (Except.ok.inj hloaded).symm
  | some value =>
    rw [henv, Option.getD_some] at hloaded
    constructor
    · intro h
      exact Except.ok.inj (hloaded.symm.trans (h value rfl))
    · rintro h _ ⟨⟩
      exact hloaded.trans (congrArg Except.ok h)

/-- `config set` changes the named setting only, if and only if the other one is not overridden, or with the value
it has. -/
theorem configSet_iff (htoml : toml.Lawful) {text saved : String} {before : Config} {limits : Limits}
    (htext : toml.fromStr text = some before) (hlimits : before.limits = .ok limits)
    (hsaved : configSet toml env (.source text) setting = .ok saved) :
    (∃ after limits', toml.fromStr saved = some after ∧ after.limits = .ok limits' ∧
      setting.Changes limits limits') ↔ env.Agrees limits setting := by
  obtain ⟨config, after, limits', hload, happly, hafter, hprint⟩ := configSet_ok hsaved
  have hread := htoml after saved hprint
  have hunique : (∃ after limits', toml.fromStr saved = some after ∧ after.limits = .ok limits' ∧
      setting.Changes limits limits') ↔ setting.Changes limits limits' := by
    constructor
    · rintro ⟨_, _, hread', hafter', hchanges⟩
      cases hread.symm.trans hread'
      cases hafter.symm.trans hafter'
      exact hchanges
    · intro h
      exact ⟨after, limits', hread, hafter, h⟩
  obtain ⟨hsize, hnone, hsome⟩ := Config.load_ok htext hload
  obtain ⟨-, hcount, hbytes⟩ := Config.limits_eq_ok.1 hlimits
  obtain ⟨-, hcount', hbytes'⟩ := Config.limits_eq_ok.1 hafter
  rw [hunique]
  cases setting with
  | maxHistorySize size =>
    unfold ConfigSetting.apply at happly
    dsimp only at happly
    split at happly
    · rename_i bytes hparse
      cases happly
      have hgiven : parseSize size = .ok limits'.maxHistorySize := by
        rw [← hbytes', parseSize_printed (parseSize_ok hparse), hparse]
      rw [Environment.agrees_maxHistorySize size hcount hnone hsome, ← hcount']
      exact and_iff_right hgiven
    · cases happly
  | maxEntries count =>
    cases happly
    rw [Environment.agrees_maxEntries count hbytes hsize hbytes']
    exact and_iff_right hcount'

end

/-! ### A saved override -/

/-- What TOML makes of a few configurations. -/
def sampleToml : Toml where
  fromStr text := (samples.find? (·.2 == text)).map (·.1)
  toStringPretty config := (samples.find? (·.1 == config)).map (·.2)
where
  samples : List (Config × String) :=
    [(⟨500, "256 MiB"⟩, "max_entries = 500\nmax_history_size = \"256 MiB\"\n"),
      (⟨500, "1 GiB"⟩, "max_entries = 500\nmax_history_size = \"1 GiB\"\n"),
      (⟨10, "1 GiB"⟩, "max_entries = 10\nmax_history_size = \"1 GiB\"\n")]

theorem sampleToml_lawful : sampleToml.Lawful := by
  intro config text h
  obtain ⟨sample, hfind, rfl⟩ := Option.map_eq_some_iff.1 h
  have hall : ∀ sample ∈ sampleToml.samples, sampleToml.fromStr sample.2 = some sample.1 := by decide
  have hconfig := List.find?_some hfind
  rw [beq_iff_eq] at hconfig
  rw [hall sample (List.mem_of_find?_eq_some hfind), hconfig]

theorem configSet_iff_gib :
    (∃ after limits', sampleToml.fromStr "max_entries = 500\nmax_history_size = \"1 GiB\"\n" = some after ∧
      after.limits = .ok limits' ∧
      (ConfigSetting.maxHistorySize "1gb").Changes ⟨500, 256 * 1024 * 1024⟩ limits') ↔
    (Environment.mk (some "500") none).Agrees ⟨500, 256 * 1024 * 1024⟩ (.maxHistorySize "1gb") :=
  @configSet_iff sampleToml ⟨some "500", none⟩ (.maxHistorySize "1gb") sampleToml_lawful
    "max_entries = 500\nmax_history_size = \"256 MiB\"\n" _ ⟨500, "256 MiB"⟩ _ (by decide) (by decide) (by decide)

/-- `MIMECLIP_MAX_ENTRIES=10 mimeclip config set max-history-size 1GiB`. -/
theorem override_saved :
    let text := "max_entries = 500\nmax_history_size = \"256 MiB\"\n"
    let saved := "max_entries = 10\nmax_history_size = \"1 GiB\"\n"
    let setting := ConfigSetting.maxHistorySize "1GiB"
    sampleToml.fromStr text = some ⟨500, "256 MiB"⟩ ∧
    Config.limits ⟨500, "256 MiB"⟩ = .ok ⟨500, 256 * 1024 * 1024⟩ ∧
    configSet sampleToml ⟨some "10", none⟩ (.source text) setting = .ok saved ∧
    ¬ ∃ after limits', sampleToml.fromStr saved = some after ∧ after.limits = .ok limits' ∧
      setting.Changes ⟨500, 256 * 1024 * 1024⟩ limits' := by
  refine ⟨by decide, by decide, by decide, ?_⟩
  rintro ⟨after, limits', hread, hlimits, -, hother⟩
  have hafter : after = ⟨10, "1 GiB"⟩ := Option.some.inj (hread.symm.trans (by decide))
  subst hafter
  rw [(Config.limits_eq_ok.1 hlimits).2.1] at hother
  exact absurd hother (by decide)

end Mimeclip
