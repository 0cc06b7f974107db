import Mimeclip.ConfigFile
import Mimeclip.Text

/-!
# `mimeclip config` (`interactive_config` of `cli/main.rs`)

The settings are asked for one after the other, and an empty answer keeps a value. What is kept is what was loaded,
with the environment over the file, and it is saved: a setting that is not answered keeps the value of the file if and
only if it is not overridden, or with that value (`interactiveConfig_iff`). Two answers are as two calls of
`mimeclip config set` (`interactiveConfig_sets`).
-/

namespace Mimeclip

inductive InteractiveError
  -- standard input or output is not a terminal
  | noTerminal
  | load (error : LoadError)
  | limits (error : ConfigError)
  | size (error : ConfigError)
  | count
  | save (error : ConfigSetError)
deriving DecidableEq, Repr

/-- `size` is the answer to the first prompt. -/
def answerSize (config : Config) (size : String) : Except InteractiveError Config :=
  if size = "" then .ok config
  else
    match parseSize size with
    | .ok bytes => .ok { config with maxHistorySize := formatSize bytes }
    | .error e => .error (.size e)

def answerCount (config : Config) (count : String) : Except InteractiveError Config :=
  if count = "" then .ok config
  else
    match parseU64 count.toList with
    | some n => .ok { config with maxEntries := n }
    | none => .error .count

/-- The contents that the file has then; `prompt` trims the lines it has read. -/
def interactiveConfig (toml : Toml) (env : Environment) (file : SavedFile) (terminal : Bool)
    (sizeLine countLine : String) : Except InteractiveError String := do
  if !terminal then throw .noTerminal
  let config ← (Config.load toml env file).mapError .load
  let _ ← config.limits.mapError .limits
  let config ← answerSize config (trim sizeLine)
  let config ← answerCount config (trim countLine)
  let _ ← config.limits.mapError .limits
  (save toml config).mapError .save

/-- A setting has the value that was answered, and one without an answer the value it had. -/
structure Answered (size count : String) (before after : Limits) : Prop where
  size : if size = "" then after.maxHistorySize = before.maxHistorySize else parseSize size = .ok after.maxHistorySize
  count : if count = "" then after.maxEntries = before.maxEntries else parseU64 count.toList = some after.maxEntries

section
variable {toml : Toml} {env : Environment} {file : SavedFile} {terminal : Bool} {sizeLine countLine saved : String}

/-- What was loaded, and what is saved. -/
theorem interactiveConfig_ok (h : interactiveConfig toml env file terminal sizeLine countLine = .ok saved) :
    ∃ config sized after limits, Config.load toml env file = .ok config ∧
      answerSize config (trim sizeLine) = .ok sized ∧ answerCount sized (trim countLine) = .ok after ∧
      after.limits = .ok limits ∧ toml.toStringPretty after = some saved := by
  unfold interactiveConfig at h
  cases terminal with
  | false => cases h
  | true =>
    obtain ⟨config, hload, h⟩ := Except.bind_ok.1 h
    obtain ⟨_, -, h⟩ := Except.bind_ok.1 h
    obtain ⟨sized, hsized, h⟩ := Except.bind_ok.1 h
    obtain ⟨after, hafter, h⟩ := Except.bind_ok.1 h
    obtain ⟨_, -, h⟩ := Except.bind_ok.1 h
    obtain ⟨limits, hlimits, hprint⟩ := save_ok (Except.mapError_ok.1 h)
    exact ⟨config, sized, after, limits, Except.mapError_ok.1 hload, hsized, hafter, hlimits, hprint⟩

theorem answerSize_ok {config sized : Config} {size : String} {bytes : UInt64}
    (h : answerSize config size = .ok sized) (hsized : parseSize sized.maxHistorySize = .ok bytes) :
    sized.maxEntries = config.maxEntries ∧
      if size = "" then parseSize config.maxHistorySize = .ok bytes else parseSize size = .ok bytes := by
  rw [answerSize] at h
  split_ifs at h ⊢
  · cases h
    exact ⟨rfl, hsized⟩
  · split at h
    · rename_i answered hparse
      cases h
      rw [parseSize_printed (parseSize_ok hparse)] at hsized
      exact ⟨rfl, hsized ▸ hparse⟩
    · cases h

theorem answerCount_ok {sized after : Config} {count : String} (h : answerCount sized count = .ok after) :
    after.maxHistorySize = sized.maxHistorySize ∧
      if count = "" then after.maxEntries = sized.maxEntries else parseU64 count.toList = some after.maxEntries := by
  rw [answerCount] at h
  split_ifs at h ⊢
  · cases h
    exact ⟨rfl, rfl⟩
  · split at h
    · rename_i n hparse
      cases h
      exact ⟨rfl, hparse⟩
    · cases h

/-- The settings have the values that were answered, and those that were not answered the values of the file, if and
only if what is not answered is not overridden, or with the value of the file. -/
theorem interactiveConfig_iff (htoml : toml.Lawful) {text : String} {before : Config} {limits : Limits}
    (htext : toml.fromStr text = some before) (hlimits : before.limits = .ok limits)
    (hsaved : interactiveConfig toml env (.source text) terminal sizeLine countLine = .ok saved) :
    (∃ after limits', toml.fromStr saved = some after ∧ after.limits = .ok limits' ∧
      Answered (trim sizeLine) (trim countLine) limits limits') ↔
    (trim sizeLine = "" → env.Agrees limits (.maxEntries 0)) ∧
      (trim countLine = "" → env.Agrees limits (.maxHistorySize "")) := by
  obtain ⟨config, sized, after, limits', hload, hsized, hafter, hlimits', hprint⟩ := interactiveConfig_ok hsaved
  have hread := htoml after saved hprint
  have hunique : (∃ after limits', toml.fromStr saved = some after ∧ after.limits = .ok limits' ∧
      Answered (trim sizeLine) (trim countLine) limits limits') ↔
        Answered (trim sizeLine) (trim countLine) limits limits' := by
    constructor
    · rintro ⟨_, _, hread', hafter', h⟩
      cases hread.symm.trans hread'
      cases hlimits'.symm.trans hafter'
      exact h
    · intro h
      exact ⟨after, limits', hread, hlimits', h⟩
  obtain ⟨hsize, hnone, hsome⟩ := Config.load_ok htext hload
  obtain ⟨-, hcount, hbytes⟩ := Config.limits_eq_ok.1 hlimits
  obtain ⟨-, hcount', hbytes'⟩ := Config.limits_eq_ok.1 hlimits'
  obtain ⟨hkept, hcounted⟩ := answerCount_ok hafter
  rw [hkept] at hbytes'
  obtain ⟨hkeptCount, hanswered⟩ := answerSize_ok hsized hbytes'
  rw [hkeptCount] at hcounted
  rw [hunique]
  -- one setting after the other
  have hsizes : (if trim sizeLine = "" then limits'.maxHistorySize = limits.maxHistorySize
      else parseSize (trim sizeLine) = .ok limits'.maxHistorySize) ↔
        (trim sizeLine = "" → env.Agrees limits (.maxEntries 0)) := by
    split_ifs at hanswered ⊢ with hempty
    · rw [forall_prop_of_true hempty, Environment.agrees_maxEntries 0 hbytes hsize hanswered]
    · exact iff_of_true hanswered fun h => absurd h hempty
  have hcounts : (if trim countLine = "" then limits'.maxEntries = limits.maxEntries
      else parseU64 (trim countLine).toList = some limits'.maxEntries) ↔
        (trim countLine = "" → env.Agrees limits (.maxHistorySize "")) := by
    rw [hcount']
    split_ifs at hcounted ⊢ with hempty
    · rw [forall_prop_of_true hempty, Environment.agrees_maxHistorySize "" hcount hnone hsome, hcounted]
    · exact iff_of_true hcounted fun h => absurd h hempty
  rw [← hsizes, ← hcounts]
  exact ⟨fun h => ⟨h.size, h.count⟩, fun h => ⟨h.1, h.2⟩⟩

theorem interactiveConfig_iff_gib :
    (∃ after limits', sampleToml.fromStr "max_entries = 10\nmax_history_size = \"1 GiB\"\n" = some after ∧
      after.limits = .ok limits' ∧
      Answered (trim "1gib\n") (trim "\n") ⟨500, 256 * 1024 * 1024⟩ limits') ↔
    (trim "1gib\n" = "" → (Environment.mk (some "10") none).Agrees ⟨500, 256 * 1024 * 1024⟩ (.maxEntries 0)) ∧
      (trim "\n" = "" → (Environment.mk (some "10") none).Agrees ⟨500, 256 * 1024 * 1024⟩ (.maxHistorySize "")) :=
  @interactiveConfig_iff sampleToml ⟨some "10", none⟩ true "1gib\n" "\n" _ sampleToml_lawful
    "max_entries = 500\nmax_history_size = \"256 MiB\"\n" ⟨500, "256 MiB"⟩ _ (by decide) (by decide) (by decide)

/-- Without overrides, two answers are as two calls of `config set`. -/
theorem interactiveConfig_sets (htoml : toml.Lawful) (hsize : trim sizeLine ≠ "") {n : UInt64}
    (hcount : parseU64 (trim countLine).toList = some n) {mid : String}
    (hsaved : interactiveConfig toml ⟨none, none⟩ file terminal sizeLine countLine = .ok saved)
    (hmid : configSet toml ⟨none, none⟩ file (.maxHistorySize (trim sizeLine)) = .ok mid) :
    configSet toml ⟨none, none⟩ (.source mid) (.maxEntries n) = .ok saved := by
  obtain ⟨config, sized, after, limits, hload, hsized, hafter, hlimits, hprint⟩ := interactiveConfig_ok hsaved
  obtain ⟨config', set, limits', hload', hset, hlimits', hprint'⟩ := configSet_ok hmid
  cases hload.symm.trans hload'
  have hne : trim countLine ≠ "" := by
    intro h
    rw [h] at hcount
    cases hcount
  -- the first call has saved the size that was answered
  have hsame : sized = set := by
    rw [answerSize, if_neg hsize] at hsized
    unfold ConfigSetting.apply at hset
    dsimp only at hset
    cases hparse : parseSize (trim sizeLine) with
    | error e =>
      rw [hparse] at hset
      cases hset
    | ok bytes =>
      rw [hparse] at hset hsized
      cases hset
      cases hsized
      rfl
  subst hsame
  rw [answerCount, if_neg hne, hcount] at hafter
  cases hafter
  rw [configSet, Config.load_printed htoml hprint' hlimits']
  show save toml { sized with maxEntries := n } = .ok saved
  rw [save, hlimits, hprint]

end

end Mimeclip
