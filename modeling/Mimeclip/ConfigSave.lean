import Mimeclip.Bounds
import Mimeclip.SavePath

/-!
# Saving the configuration

A daemon that reads the configuration while it is saved, or after a save that was cut off, finds the old one or all of
the new one (`save_atomic`), and goes on with the limits of the one it has found (`reload_during_save`).
-/

namespace Mimeclip

open Paths Paths.Tree

/-! ### Writing the file -/

section
variable {umask : Nat} {place : FilePlace} {f g : Disk} {d : List Bytes}

theorem FilePlace.temporary_eq {fs : FileSystem} (hd : place.directory fs = some d) :
    place.temporary fs = some (d ++ [temporaryName place.file]) := by
  rw [temporary, hd, Option.map_some]

theorem temporary_ne_target : d ++ [temporaryName place.file] ≠ d ++ [place.file] := by
  intro h
  exact temporaryName_ne place.file (List.cons.inj (List.append_cancel_left h)).1

theorem openTemporary_ok (hd : place.directory f.fs = some d)
    (hreplaceable : Replaceable f.fs (d ++ [temporaryName place.file])) {q : List Bytes}
    (h : openTemporary umask place f = .ok (q, g)) :
    q = d ++ [temporaryName place.file] ∧ SameBut q f g ∧
      ∃ readable, g.fs.node q = some (.file (.regular [] readable)) := by
  unfold openTemporary at h
  rw [place.temporary_eq hd] at h
  dsimp only at h
  cases hnode : f.fs.node (d ++ [temporaryName place.file]) with
  | none =>
    rw [hnode] at h
    dsimp only at h
    split_ifs at h with hset
    cases h
    exact ⟨rfl, (SameBut.put _ _ f).chmod _, true, Disk.node_put hset⟩
  | some v =>
    obtain ⟨data, readable, rfl⟩ := hreplaceable v hnode
    simp only [hnode, truncate, Except.ok.injEq, Prod.mk.injEq] at h
    obtain ⟨rfl, rfl⟩ := h
    exact ⟨rfl, .put _ _ f, readable, Disk.node_put (settable_of_node hnode nofun)⟩

variable {q : List Bytes} {data bytes : Bytes} {readable : Bool}

theorem append_spec (b : UInt8) (hq : f.fs.node q = some (.file (.regular data readable))) :
    SameBut q f (append q b f) ∧
      (append q b f).fs.node q = some (.file (.regular (data ++ [b]) readable)) := by
  unfold append
  rw [hq]
  exact ⟨.put _ _ f, Disk.node_put (settable_of_node hq nofun)⟩

theorem writeAll_leaves (hq : f.fs.node q = some (.file (.regular data readable)))
    (h : (writeAll q bytes).Leaves f g) :
    SameBut q f g ∧ ∃ data', g.fs.node q = some (.file (.regular data' readable)) := by
  induction bytes generalizing f data with
  | nil =>
    obtain rfl := Script.leaves_pure.1 h
    exact ⟨.refl _ _, data, hq⟩
  | cons b bytes ih =>
    obtain ⟨hsame, hnode⟩ := append_spec b hq
    rcases Script.leaves_bind.1 h with h | ⟨_, f₁, hr, h⟩
    · rcases Script.leaves_update.1 h with rfl | ⟨_, h⟩
      · exact ⟨.refl _ _, data, hq⟩
      · cases h
        exact ⟨hsame, _, hnode⟩
    · cases Script.returns_update.1 hr
      obtain ⟨hrest, data', hdata'⟩ := ih hnode h
      exact ⟨hsame.trans hrest, data', hdata'⟩

theorem writeAll_returns {u : Unit} (hq : f.fs.node q = some (.file (.regular data readable)))
    (h : (writeAll q bytes).Returns f u g) : g.fs.node q = some (.file (.regular (data ++ bytes) readable)) := by
  induction bytes generalizing f data with
  | nil =>
    obtain ⟨-, rfl⟩ := Script.returns_pure.1 h
    rw [List.append_nil, hq]
  | cons b bytes ih =>
    obtain ⟨_, f₁, hr, h⟩ := Script.returns_bind.1 h
    cases Script.returns_update.1 hr
    rw [ih (append_spec b hq).2 h, List.append_assoc, List.singleton_append]

theorem restrictFile_ok (hd : place.directory f.fs = some d)
    (hq : f.fs.node (d ++ [temporaryName place.file]) = some (.file (.regular data readable))) {u : Unit}
    (h : restrictFile place f = .ok (u, g)) :
    SameBut (d ++ [temporaryName place.file]) f g ∧
      g.fs.node (d ++ [temporaryName place.file]) = some (.file (.regular data true)) ∧
      g.mode (d ++ [temporaryName place.file]) = 0o600 := by
  have hrestricted := setPermissions_name hd (by rw [NotLink, hq]; nofun) h
  exact ⟨hrestricted.same, hrestricted.contents _ _ hq, hrestricted.mode_eq⟩

/-- The contents are in place; nothing else has changed, and the temporary file is gone. -/
structure Renamed (place : FilePlace) (d : List Bytes) (data : Bytes) (f g : Disk) : Prop where
  maxLinks : g.fs.maxLinks = f.fs.maxLinks
  target : g.fs.node (d ++ [place.file]) = some (.file (.regular data true))
  mode : g.mode (d ++ [place.file]) = 0o600
  replaced : f.fs.isDirectory (d ++ [place.file]) = false
  others : ∀ p, p ≠ d ++ [temporaryName place.file] → p ≠ d ++ [place.file] →
    g.fs.node p = f.fs.node p ∧ g.mode p = f.mode p

theorem rename_ok (hd : place.directory f.fs = some d)
    (hq : f.fs.node (d ++ [temporaryName place.file]) = some (.file (.regular data true)))
    (hmode : f.mode (d ++ [temporaryName place.file]) = 0o600) {u : Unit} (h : rename place f = .ok (u, g)) :
    Renamed place d data f g := by
  unfold rename at h
  rw [place.temporary_eq hd, place.target_eq hd] at h
  simp only [hq] at h
  cases hdir : f.fs.isDirectory (d ++ [place.file]) with
  | true =>
    rw [hdir] at h
    cases h
  | false =>
    rw [hdir] at h
    cases h
    have hne : d ++ [place.file] ≠ d ++ [temporaryName place.file] := temporary_ne_target.symm
    have hdne : d ≠ d ++ [temporaryName place.file] := fun heq => by simpa using congrArg List.length heq
    -- the place is still in a directory when the temporary file has left it
    have hsettable : (f.put (d ++ [temporaryName place.file]) none).fs.Settable (d ++ [place.file]) := by
      refine settable_concat ?_ ?_
      · refine isDirectory_iff.2 ((Disk.node_put_ne hdne).trans (f.fs.parent (n := temporaryName place.file) ?_))
        rw [hq]
        exact Option.some_ne_none _
      · refine isDirectory_eq_false fun hnode => ?_
        rw [Disk.node_put_ne hne, ← isDirectory_iff, hdir] at hnode
        cases hnode
    refine ⟨by simp, Disk.node_put hsettable, (if_pos rfl).trans hmode, hdir, fun p hp hp' => ⟨?_, ?_⟩⟩
    · exact (Disk.node_put_ne hp').trans (Disk.node_put_ne hp)
    · rw [Disk.mode_chmod, if_neg hp', Disk.mode_put, Disk.mode_put]

/-- Before the renaming the temporary file may be there, and nothing else has changed. -/
structure Unfinished (place : FilePlace) (d : List Bytes) (f g : Disk) : Prop where
  same : SameBut (d ++ [temporaryName place.file]) f g
  temporary : Replaceable g.fs (d ++ [temporaryName place.file])

section
variable (hd : place.directory f.fs = some d) (hdir : f.fs.isDirectory d = true)
  (hreplaceable : Replaceable f.fs (d ++ [temporaryName place.file])) {contents : String}
include hd hdir hreplaceable

/-- All that is left to do when the bytes have been written. -/
theorem finish_ok {f₁ f₂ : Disk} (hsame : SameBut (d ++ [temporaryName place.file]) f f₁)
    (hnode : f₁.fs.node (d ++ [temporaryName place.file]) = some (.file (.regular data readable))) {u u' : Unit}
    (hrestrict : restrictFile place f₁ = .ok (u, f₂)) (hrename : rename place f₂ = .ok (u', g)) :
    Renamed place d data f g := by
  have hd₁ := directory_of_sameBut hd hdir hreplaceable hsame
  obtain ⟨hsame₂, hnode₂, hmode⟩ := restrictFile_ok hd₁ hnode hrestrict
  have hsame' := hsame.trans hsame₂
  obtain ⟨hlinks, htarget, hmode', hreplaced, hothers⟩ :=
    rename_ok (directory_of_sameBut hd hdir hreplaceable hsame') hnode₂ hmode hrename
  refine ⟨hlinks.trans hsame'.maxLinks, htarget, hmode', ?_, fun p hp hp' => ?_⟩
  · rw [Tree.isDirectory, ← hsame'.node _ temporary_ne_target.symm]
    exact hreplaced
  · obtain ⟨hnode', hmodes⟩ := hothers p hp hp'
    exact ⟨hnode'.trans (hsame'.node p hp), hmodes.trans (hsame'.mode p hp)⟩

theorem replaceFile_leaves (h : (replaceFile umask place contents).Leaves f g) :
    Unfinished place d f g ∨ Renamed place d (asBytes contents) f g := by
  have hstart : Unfinished place d f f := ⟨.refl _ _, hreplaceable⟩
  rw [replaceFile] at h
  rcases Script.leaves_bind.1 h with h | ⟨q, f₁, hopen, h⟩
  · rcases Script.leaves_update.1 h with rfl | ⟨q, h⟩
    · exact .inl hstart
    · obtain ⟨rfl, hsame, readable, hnode⟩ := openTemporary_ok hd hreplaceable h
      exact .inl ⟨hsame, replaceable_of_node hnode⟩
  obtain ⟨rfl, hsame₁, readable, hnode₁⟩ := openTemporary_ok hd hreplaceable (Script.returns_update.1 hopen)
  rcases Script.leaves_bind.1 h with h | ⟨_, f₂, hwrite, h⟩
  · obtain ⟨hsame₂, data, hnode₂⟩ := writeAll_leaves hnode₁ h
    exact .inl ⟨hsame₁.trans hsame₂, replaceable_of_node hnode₂⟩
  have hsame₂ := hsame₁.trans (writeAll_leaves hnode₁ hwrite.leaves).1
  have hnode₂ := writeAll_returns hnode₁ hwrite
  rcases Script.leaves_bind.1 h with h | ⟨_, f₃, hrestrict, h⟩
  · rcases Script.leaves_update.1 h with rfl | ⟨_, h⟩
    · exact .inl ⟨hsame₂, replaceable_of_node hnode₂⟩
    · obtain ⟨hsame₃, hnode₃, -⟩ := restrictFile_ok (directory_of_sameBut hd hdir hreplaceable hsame₂) hnode₂ h
      exact .inl ⟨hsame₂.trans hsame₃, replaceable_of_node hnode₃⟩
  have hrestrict := Script.returns_update.1 hrestrict
  rcases Script.leaves_update.1 h with rfl | ⟨_, hrename⟩
  · obtain ⟨hsame₃, hnode₃, -⟩ := restrictFile_ok (directory_of_sameBut hd hdir hreplaceable hsame₂) hnode₂ hrestrict
    exact .inl ⟨hsame₂.trans hsame₃, replaceable_of_node hnode₃⟩
  · exact .inr (finish_ok hd hdir hreplaceable hsame₂ hnode₂ hrestrict hrename)

theorem replaceFile_returns {u : Unit} (h : (replaceFile umask place contents).Returns f u g) :
    Renamed place d (asBytes contents) f g := by
  rw [replaceFile] at h
  obtain ⟨q, f₁, hopen, h⟩ := Script.returns_bind.1 h
  obtain ⟨rfl, hsame₁, readable, hnode₁⟩ := openTemporary_ok hd hreplaceable (Script.returns_update.1 hopen)
  obtain ⟨_, f₂, hwrite, h⟩ := Script.returns_bind.1 h
  obtain ⟨_, f₃, hrestrict, h⟩ := Script.returns_bind.1 h
  exact finish_ok hd hdir hreplaceable (hsame₁.trans (writeAll_leaves hnode₁ hwrite.leaves).1)
    (writeAll_returns hnode₁ hwrite) (Script.returns_update.1 hrestrict) (Script.returns_update.1 h)

end

end

/-! ### Saving -/

/-- No program but this one has made the temporary file, so it is none that is left of an earlier save. -/
def TemporaryFree (place : FilePlace) (fs : FileSystem) : Prop :=
  ∀ q, place.temporary fs = some q → Replaceable fs q

section
variable {umask : Nat} {toml : Toml} {config : Config} {place : FilePlace} {f g f₁ : Disk} {d : List Bytes}

/-- What was there has the permissions it had, but the directory may be one that only its owner can enter. -/
def FilePlace.KeepsModes (place : FilePlace) (f g : Disk) : Prop :=
  ∀ p, f.fs.node p ≠ none → g.mode p = f.mode p ∨ place.directory f.fs = some p ∧ g.mode p = 0o700

/-- The directory has been made, and nothing is in the way of the temporary file. -/
structure Ready (place : FilePlace) (f f₁ : Disk) (d : List Bytes) : Prop where
  built : Built place.start place.dir f.fs f₁.fs
  modes : place.KeepsModes f f₁
  directory : place.directory f₁.fs = some d
  isDirectory : f₁.fs.isDirectory d = true
  temporary : Replaceable f₁.fs (d ++ [temporaryName place.file])

theorem Ready.of_returns (hstart : f.fs.isDirectory place.start = true) (hparent : .parent ∉ place.dir)
    (hfree : TemporaryFree place f.fs) {u : Unit}
    (h : (createDirAll umask place.start place.dir.reverse).Returns f u f₁) : ∃ d, Ready place f f₁ d := by
  have hparent' : .parent ∉ place.dir.reverse := fun hmem => hparent (List.mem_reverse.1 hmem)
  have hbuilt := createDirAll_leaves hparent' h.leaves
  obtain ⟨d, hd, hdir⟩ := createDirAll_returns hstart hparent' h
  rw [List.reverse_reverse] at hbuilt hd
  refine ⟨d, hbuilt, fun p hp => .inl (createDirAll_mode h.leaves hp), hd, hdir, ?_⟩
  rcases hbuilt with hsame | ⟨-, -, hempty⟩
  · rw [hsame] at hd ⊢
    exact hfree _ (place.temporary_eq hd)
  · intro v hv
    rw [(hempty d hd).2] at hv
    cases hv

/-- A directory that was there before is the one the path led to. -/
theorem Ready.directory_of_node (h : Ready place f f₁ d) (hnode : f.fs.node d ≠ none) :
    place.directory f.fs = some d := by
  rcases h.built with hsame | ⟨-, -, hempty⟩
  · exact hsame ▸ h.directory
  · exact absurd (hempty d h.directory).1 hnode

/-- Where saving stops: while directories are made, before the renaming, or after it. -/
inductive SaveStage (toml : Toml) (config : Config) (place : FilePlace) (f g : Disk) : Prop
  | making (h : Built place.start place.dir f.fs g.fs) (hmodes : place.KeepsModes f g)
  | unfinished {f₁ : Disk} {d : List Bytes} (hready : Ready place f f₁ d) (h : Unfinished place d f₁ g)
  | renamed {f₁ : Disk} {d : List Bytes} {contents : String} (hready : Ready place f f₁ d)
      (hcontents : toml.toStringPretty config = some contents) (h : Renamed place d (asBytes contents) f₁ g)

theorem Ready.restrict (h : Ready place f f₁ d) {f₂ : Disk} {u : Unit}
    (hrestrict : restrictDirectory place f₁ = .ok (u, f₂)) : Ready place f f₂ d := by
  cases setPermissions_directory h.directory h.isDirectory hrestrict
  refine ⟨h.built, fun p hp => ?_, h.directory, h.isDirectory, h.temporary⟩
  rw [Disk.mode_chmod]
  split_ifs with hpd
  · exact .inr ⟨hpd ▸ h.directory_of_node (hpd ▸ hp), rfl⟩
  · exact h.modes p hp

theorem saveResolved_leaves (hstart : f.fs.isDirectory place.start = true) (hparent : .parent ∉ place.dir)
    (hfree : TemporaryFree place f.fs) (h : (saveResolved umask toml config place).Leaves f g) :
    SaveStage toml config place f g := by
  rw [saveResolved] at h
  rcases Script.leaves_bind.1 h with h | ⟨_, f₁, hcreate, h⟩
  · have hbuilt := createDirAll_leaves (fun hmem => hparent (List.mem_reverse.1 hmem)) h
    rw [List.reverse_reverse] at hbuilt
    exact .making hbuilt fun p hp => .inl (createDirAll_mode h hp)
  obtain ⟨d, hready⟩ := Ready.of_returns hstart hparent hfree hcreate
  rcases Script.leaves_bind.1 h with h | ⟨_, f₂, hrestrict, h⟩
  · rcases Script.leaves_update.1 h with rfl | ⟨_, h⟩
    · exact .making hready.built hready.modes
    · exact .making (hready.restrict h).built (hready.restrict h).modes
  have hready := hready.restrict (Script.returns_update.1 hrestrict)
  cases hprint : toml.toStringPretty config with
  | none =>
    rw [hprint] at h
    obtain rfl := Script.leaves_query.1 h
    exact .making hready.built hready.modes
  | some contents =>
    rw [hprint] at h
    rcases replaceFile_leaves hready.directory hready.isDirectory hready.temporary h with h | h
    exacts [.unfinished hready h, .renamed hready hprint h]

theorem saveResolved_returns (hstart : f.fs.isDirectory place.start = true) (hparent : .parent ∉ place.dir)
    (hfree : TemporaryFree place f.fs) {u : Unit} (h : (saveResolved umask toml config place).Returns f u g) :
    ∃ f₁ d contents, Ready place f f₁ d ∧ toml.toStringPretty config = some contents ∧
      Renamed place d (asBytes contents) f₁ g := by
  rw [saveResolved] at h
  obtain ⟨_, f₁, hcreate, h⟩ := Script.returns_bind.1 h
  obtain ⟨d, hready⟩ := Ready.of_returns hstart hparent hfree hcreate
  obtain ⟨_, f₂, hrestrict, h⟩ := Script.returns_bind.1 h
  have hready := hready.restrict (Script.returns_update.1 hrestrict)
  cases hprint : toml.toStringPretty config with
  | none =>
    rw [hprint] at h
    cases (Script.returns_query.1 h).1
  | some contents =>
    rw [hprint] at h
    exact ⟨f₂, d, contents, hready, rfl, replaceFile_returns hready.directory hready.isDirectory hready.temporary h⟩

/-! ### What is read -/

theorem Renamed.keeps {data : Bytes} (h : Renamed place d data f g)
    (htemp : Replaceable f.fs (d ++ [temporaryName place.file])) (hlink : NotLink f.fs (d ++ [place.file])) :
    f.fs.Keeps (· = d ++ [temporaryName place.file]) g.fs := by
  refine ⟨fun p v hp hv => ?_, ?_⟩
  · by_cases htarget : p = d ++ [place.file]
    · subst htarget
      refine ⟨_, h.target, ?_⟩
      cases v with
      | directory => exact absurd (isDirectory_iff.2 hv) (by rw [h.replaced]; decide)
      | file data => exact .file _ _
      | link absolute target => exact absurd hv (hlink absolute target)
    · refine ⟨v, (h.others p hp htarget).1.trans hv, ?_⟩
      cases v
      exacts [.directory, .file _ _, .link _ _]
  · rintro p v rfl hv
    obtain ⟨data, readable, rfl⟩ := htemp v hv
    exact ⟨_, rfl⟩

theorem readConfig_resolved {fs : FileSystem} {q : List Bytes} (h : fs.resolve place.start place.components = some q) :
    readConfig place fs = savedNode (fs.node q) := by
  rw [readConfig, h, Option.bind_some]

theorem readConfig_unresolved {fs : FileSystem} (h : fs.resolve place.start place.components = none) :
    readConfig place fs = .absent := by
  rw [readConfig, h, Option.bind_none, savedNode]

theorem readConfig_target {fs : FileSystem} (hd : place.directory fs = some d)
    (hlink : NotLink fs (d ++ [place.file])) : readConfig place fs = savedNode (fs.node (d ++ [place.file])) := by
  have hwalk := walk_concat hd hlink
  cases hnode : fs.node (d ++ [place.file]) with
  | none =>
    rw [hnode, Option.map_none] at hwalk
    exact readConfig_unresolved hwalk
  | some v =>
    rw [hnode, Option.map_some] at hwalk
    rw [readConfig_resolved hwalk, hnode]

theorem savedNode_contents (contents : String) :
    savedNode (some (.file (.regular (asBytes contents) true))) = .source contents := by
  rw [savedNode, fromUtf8_eq_some.2 rfl]

theorem readConfig_built {fs fs' : FileSystem} (h : Built place.start place.dir fs fs') :
    readConfig place fs' = readConfig place fs := by
  rcases h with rfl | ⟨hnone, -, hempty⟩
  · rfl
  · rw [readConfig_unresolved (walk_append_none hnone _)]
    cases hd : place.directory fs' with
    | none => exact readConfig_unresolved (walk_append_none hd _)
    | some d =>
      have hmissing := (hempty d hd).2 place.file
      rw [readConfig_target hd (by rw [NotLink, hmissing]; nofun), hmissing, savedNode]

theorem Ready.notLink (h : Ready place f f₁ d) (hlink : ∀ q, place.target f.fs = some q → NotLink f.fs q) :
    NotLink f₁.fs (d ++ [place.file]) := by
  rcases h.built with hsame | ⟨-, -, hempty⟩
  · have hd := h.directory
    rw [hsame] at hd ⊢
    exact hlink _ (place.target_eq hd)
  · rw [NotLink, (hempty d h.directory).2 place.file]
    nofun

/-- The path leads to a file that has the contents, which only its owner reads and writes. -/
structure HasContents (place : FilePlace) (contents : String) (disk : Disk) : Prop where
  leads : ∃ q, disk.fs.resolve place.start place.components = some q ∧
    disk.fs.node q = some (.file (.regular (asBytes contents) true)) ∧ disk.mode q = 0o600

theorem HasContents.readConfig {contents : String} (h : HasContents place contents g) :
    readConfig place g.fs = .source contents := by
  obtain ⟨q, hq, hnode, -⟩ := h.leads
  rw [readConfig_resolved hq, hnode, savedNode_contents]

/-- The configuration is in its place, with limits that have been checked. -/
structure Saved (toml : Toml) (config : Config) (place : FilePlace) (disk : Disk) : Prop where
  limits : ∃ limits, config.limits = .ok limits
  contents : ∃ contents, toml.toStringPretty config = some contents ∧ HasContents place contents disk

theorem Saved.of_limits {limits : Limits} (hlimits : config.limits = .ok limits)
    (h : ∃ contents, toml.toStringPretty config = some contents ∧ HasContents place contents g) :
    Saved toml config place g := ⟨⟨limits, hlimits⟩, h⟩

theorem Ready.hasContents {contents : String} (hready : Ready place f f₁ d)
    (hlink : ∀ q, place.target f.fs = some q → NotLink f.fs q) (h : Renamed place d (asBytes contents) f₁ g) :
    HasContents place contents g := by
  have hd : place.directory g.fs = some d := (h.keeps hready.temporary (hready.notLink hlink)).resolve h.maxLinks
    hready.directory (hready.temporary.ne_of_isDirectory hready.isDirectory)
  refine ⟨d ++ [place.file], (walk_concat hd (by rw [h.target]; nofun)).trans ?_, h.target, h.mode⟩
  rw [h.target, Option.map_some]

/-- Without a link, what is read is what is in the place. -/
theorem SaveStage.readConfig (h : SaveStage toml config place f g)
    (hlink : ∀ q, place.target f.fs = some q → NotLink f.fs q) :
    readConfig place g.fs = readConfig place f.fs ∨
      ∃ contents, toml.toStringPretty config = some contents ∧ HasContents place contents g := by
  cases h with
  | making h _ => exact .inl (readConfig_built h)
  | @unfinished f₁ d hready h =>
    have hnotlink := hready.notLink hlink
    have hd := directory_of_sameBut hready.directory hready.isDirectory hready.temporary h.same
    have hne : d ++ [place.file] ≠ d ++ [temporaryName place.file] := temporary_ne_target.symm
    have hnode := h.same.node _ hne
    refine .inl ((readConfig_target hd ?_).trans ?_)
    · rw [NotLink, hnode]
      exact hnotlink
    · rw [hnode, ← readConfig_target hready.directory hnotlink, readConfig_built hready.built]
  | renamed hready hcontents h => exact .inr ⟨_, hcontents, hready.hasContents hlink h⟩

/-- The place is a link, which leads to where the file is written. -/
structure LinkResolved (place written : FilePlace) (fs : FileSystem) (d : List Bytes) : Prop where
  resolved : fs.resolve place.start place.components = some (d ++ [written.file])
  directory : written.directory fs = some d
  isDirectory : fs.isDirectory d = true
  start : written.start = []
  noParent : .parent ∉ written.dir
  notLink : NotLink fs (d ++ [written.file])

theorem resolveLink_ok {written : FilePlace} {fs : FileSystem} (hstart : fs.isDirectory place.start = true)
    (h : resolveLink place fs = .ok written) :
    (written = place ∧ ∀ q, place.target fs = some q → NotLink fs q) ∨ ∃ d, LinkResolved place written fs d := by
  unfold resolveLink at h
  split at h
  · split at h
    · cases h
    rename_i q hq
    split at h
    · cases h
    rename_i file hfile
    cases h
    obtain ⟨d, rfl⟩ := List.getLast?_eq_some_iff.1 hfile
    obtain ⟨v, hv, hnotlink⟩ := (walks_of_walk hq).node ⟨_, isDirectory_iff.1 hstart, nofun⟩
    have hdir : fs.isDirectory d = true := isDirectory_iff.2 (fs.parent (hv ▸ Option.some_ne_none v))
    rw [List.dropLast_concat]
    refine .inr ⟨d, hq, walk_names hdir, hdir, rfl, ?_, ?_⟩
    · intro hmem
      obtain ⟨n, -, hn⟩ := List.mem_map.1 hmem
      cases hn
    · intro absolute target hlink
      exact hnotlink absolute target (Option.some.inj (hv.symm.trans hlink))
  · rename_i hnotlink
    cases h
    refine .inl ⟨rfl, fun q hq absolute target hlink => hnotlink absolute target ?_⟩
    rw [hq, Option.bind_some, hlink]

section
variable {written : FilePlace} (hl : LinkResolved place written f.fs d)
include hl

theorem LinkResolved.built {g : FileSystem} (h : Built written.start written.dir f.fs g) : g = f.fs := by
  rcases h with hsame | ⟨hnone, -⟩
  · exact hsame
  · exact absurd (hl.directory.symm.trans hnone) (Option.some_ne_none d)

theorem LinkResolved.ready {d' : List Bytes} (h : Ready written f f₁ d') : f₁.fs = f.fs ∧ d' = d := by
  have hsame := hl.built h.built
  have hd := h.directory
  rw [hsame, hl.directory, Option.some.injEq] at hd
  exact ⟨hsame, hd.symm⟩

theorem LinkResolved.hasContents {contents : String} {d' : List Bytes} (hready : Ready written f f₁ d')
    (h : Renamed written d' (asBytes contents) f₁ g) : HasContents place contents g := by
  obtain ⟨hsame, rfl⟩ := hl.ready hready
  have hkeeps := h.keeps hready.temporary (hsame ▸ hl.notLink)
  exact ⟨_, hkeeps.resolve h.maxLinks (hsame ▸ hl.resolved) temporary_ne_target.symm, h.target, h.mode⟩

/-- What is read through the link is what is in the place it leads to. -/
theorem LinkResolved.readConfig (h : SaveStage toml config written f g) :
    readConfig place g.fs = readConfig place f.fs ∨
      ∃ contents, toml.toStringPretty config = some contents ∧ HasContents place contents g := by
  have hne : d ++ [written.file] ≠ d ++ [temporaryName written.file] := temporary_ne_target.symm
  cases h with
  | making h _ => exact .inl (by rw [hl.built h])
  | unfinished hready h =>
    obtain ⟨hsame, rfl⟩ := hl.ready hready
    have hwalk := (h.same.keeps hready.temporary).resolve h.same.maxLinks (hsame ▸ hl.resolved) hne
    refine .inl ?_
    rw [readConfig_resolved hwalk, readConfig_resolved hl.resolved, h.same.node _ hne, hsame]
  | renamed hready hcontents h => exact .inr ⟨_, hcontents, hl.hasContents hready h⟩

end

/-- Of what was there, the directory may be one that only its owner can enter now, and the file and the temporary file
may be other ones. All else is what it was, with the permissions it had. -/
def FilePlace.Spares (place : FilePlace) (f g : Disk) : Prop :=
  ∀ p v, f.fs.node p = some v →
    (g.fs.node p = some v ∧
      (g.mode p = f.mode p ∨ place.directory f.fs = some p ∧ g.mode p = 0o700)) ∨
    (∃ data, v = .file data) ∧ (place.temporary f.fs = some p ∨ place.target f.fs = some p)

theorem SaveStage.spares (h : SaveStage toml config place f g)
    (hlink : ∀ q, place.target f.fs = some q → NotLink f.fs q) : place.Spares f g := by
  intro p v hv
  have hp : f.fs.node p ≠ none := hv ▸ Option.some_ne_none v
  have hgrown : ∀ {f₁ : Disk}, Built place.start place.dir f.fs f₁.fs → f₁.fs.node p = some v := fun hbuilt =>
    (hbuilt.grown.node_eq hp).trans hv
  -- what is in the directory was there before, so the directory was
  have hdirectory : ∀ {f₁ : Disk} {d n}, Ready place f f₁ d → p = d ++ [n] → place.directory f.fs = some d := by
    rintro f₁ d n hready rfl
    exact hready.directory_of_node (f.fs.parent hp ▸ Option.some_ne_none _)
  have htemporary : ∀ {f₁ : Disk} {d}, Ready place f f₁ d → p = d ++ [temporaryName place.file] →
      (∃ data, v = .file data) ∧ place.temporary f.fs = some p := by
    intro f₁ d hready htemp
    obtain ⟨data, readable, rfl⟩ := hready.temporary v (htemp ▸ hgrown hready.built)
    exact ⟨⟨_, rfl⟩, htemp ▸ place.temporary_eq (hdirectory hready htemp)⟩
  cases h with
  | making h hmodes => exact .inl ⟨hgrown h, hmodes p hp⟩
  | @unfinished f₁ d hready h =>
    by_cases htemp : p = d ++ [temporaryName place.file]
    · exact .inr ((htemporary hready htemp).imp_right .inl)
    · refine .inl ⟨(h.same.node p htemp).trans (hgrown hready.built), ?_⟩
      rw [h.same.mode p htemp]
      exact hready.modes p hp
  | @renamed f₁ d contents hready hcontents h =>
    by_cases htemp : p = d ++ [temporaryName place.file]
    · exact .inr ((htemporary hready htemp).imp_right .inl)
    by_cases htarget : p = d ++ [place.file]
    · have hnode : f₁.fs.node (d ++ [place.file]) = some v := htarget ▸ hgrown hready.built
      refine .inr ⟨?_, .inr (htarget ▸ place.target_eq (hdirectory hready htarget))⟩
      cases v with
      | directory => exact absurd (isDirectory_iff.2 hnode) (by rw [h.replaced]; decide)
      | file data => exact ⟨data, rfl⟩
      | link absolute target => exact absurd hnode (hready.notLink hlink absolute target)
    · obtain ⟨hnode, hmode⟩ := h.others p htemp htarget
      refine .inl ⟨hnode.trans (hgrown hready.built), ?_⟩
      rw [hmode]
      exact hready.modes p hp

/-- What `save` does in the place that is resolved. -/
theorem saveToPath_leaves (h : (saveToPath umask toml config place).Leaves f g) :
    g = f ∨ ∃ limits written, config.limits = .ok limits ∧ resolveLink place f.fs = .ok written ∧
      (saveResolved umask toml config written).Leaves f g := by
  rw [saveToPath] at h
  rcases Script.leaves_bind.1 h with hcheck | ⟨limits, _, hcheck, hrest⟩
  · exact .inl (Script.leaves_query.1 hcheck)
  obtain ⟨hlimits, rfl⟩ := Script.returns_query.1 hcheck
  rcases Script.leaves_bind.1 hrest with hresolve | ⟨written, _, hresolve, hsave⟩
  · exact .inl (Script.leaves_query.1 hresolve)
  obtain ⟨hwritten, rfl⟩ := Script.returns_query.1 hresolve
  exact .inr ⟨limits, written, Except.mapError_ok.1 hlimits, hwritten, hsave⟩

theorem saveToPath_returns {u : Unit} (h : (saveToPath umask toml config place).Returns f u g) :
    ∃ limits written, config.limits = .ok limits ∧ resolveLink place f.fs = .ok written ∧
      (saveResolved umask toml config written).Returns f u g := by
  rw [saveToPath] at h
  obtain ⟨limits, _, hcheck, hrest⟩ := Script.returns_bind.1 h
  obtain ⟨hlimits, rfl⟩ := Script.returns_query.1 hcheck
  obtain ⟨written, _, hresolve, hsave⟩ := Script.returns_bind.1 hrest
  obtain ⟨hwritten, rfl⟩ := Script.returns_query.1 hresolve
  exact ⟨limits, written, Except.mapError_ok.1 hlimits, hwritten, hsave⟩

section
variable (hstart : f.fs.isDirectory place.start = true) (hparent : .parent ∉ place.dir)
  (hfree : ∀ written, resolveLink place f.fs = .ok written → TemporaryFree written f.fs)
include hstart hparent hfree

/-- The configuration that is read is the old one or the new one, and nothing else has been touched. -/
theorem stopped_save (h : (saveToPath umask toml config place).Leaves f g) :
    (readConfig place g.fs = readConfig place f.fs ∨ Saved toml config place g) ∧
    (g = f ∨ ∃ written, resolveLink place f.fs = .ok written ∧ written.Spares f g) := by
  rcases saveToPath_leaves h with rfl | ⟨limits, written, hlimits, hwritten, hsave⟩
  · exact ⟨.inl rfl, .inl rfl⟩
  rcases resolveLink_ok hstart hwritten with ⟨rfl, hlink⟩ | ⟨d, hl⟩
  · have hstage := saveResolved_leaves hstart hparent (hfree written hwritten) hsave
    exact ⟨(hstage.readConfig hlink).imp_right (Saved.of_limits hlimits), .inr ⟨written, hwritten, hstage.spares hlink⟩⟩
  · have hroot : f.fs.isDirectory written.start = true := hl.start ▸ isDirectory_iff.2 f.fs.root
    have hstage := saveResolved_leaves hroot hl.noParent (hfree written hwritten) hsave
    have hlink : ∀ q, written.target f.fs = some q → NotLink f.fs q := by
      intro q hq
      rw [written.target_eq hl.directory, Option.some.injEq] at hq
      exact hq ▸ hl.notLink
    exact ⟨(hl.readConfig hstage).imp_right (Saved.of_limits hlimits), .inr ⟨written, hwritten, hstage.spares hlink⟩⟩

theorem finished_save {u : Unit} (h : (saveToPath umask toml config place).Returns f u g) :
    Saved toml config place g := by
  obtain ⟨limits, written, hlimits, hwritten, hsave⟩ := saveToPath_returns h
  refine .of_limits hlimits ?_
  rcases resolveLink_ok hstart hwritten with ⟨rfl, hlink⟩ | ⟨d, hl⟩
  · obtain ⟨f₁, d, contents, hready, hprint, hrenamed⟩ :=
      saveResolved_returns hstart hparent (hfree written hwritten) hsave
    exact ⟨contents, hprint, hready.hasContents hlink hrenamed⟩
  · have hroot : f.fs.isDirectory written.start = true := hl.start ▸ isDirectory_iff.2 f.fs.root
    obtain ⟨f₁, d', contents, hready, hprint, hrenamed⟩ :=
      saveResolved_returns hroot hl.noParent (hfree written hwritten) hsave
    exact ⟨contents, hprint, hl.hasContents hready hrenamed⟩

end

end

/-- Wherever `save` stops, the configuration is the old one or the new one as a whole. Nothing has been touched but
the file and the temporary file, so a link is still there, and no permissions but theirs and those of their directory,
which only its owner can enter then; and once `save` has returned, the new one is in place. -/
theorem save_atomic (umask : Nat) (toml : Toml) (config : Config) (place : FilePlace) (f : Disk)
    (hstart : f.fs.isDirectory place.start = true) (hparent : .parent ∉ place.dir)
    (hfree : ∀ written, resolveLink place f.fs = .ok written → TemporaryFree written f.fs) :
    (∀ g, (saveToPath umask toml config place).Leaves f g →
      (readConfig place g.fs = readConfig place f.fs ∨ Saved toml config place g) ∧
      (g = f ∨ ∃ written, resolveLink place f.fs = .ok written ∧ written.Spares f g)) ∧
    ∀ u g, (saveToPath umask toml config place).Returns f u g → Saved toml config place g :=
  ⟨fun _ h => stopped_save hstart hparent hfree h, fun _ _ h => finished_save hstart hparent hfree h⟩

/-- `/x/mimeclip/config.toml` is a link to `/managed.toml`. -/
def stowed : Disk where
  fs := {
    node := fun position =>
      if position = [] ∨ position = [asBytes "x"] ∨ position = [asBytes "x", asBytes "mimeclip"] then some .directory
      else if position = [asBytes "x", asBytes "mimeclip", asBytes "config.toml"] then
        some (.link true [.name (asBytes "managed.toml")])
      else if position = [asBytes "managed.toml"] then
        some (.file (.regular (asBytes "max_entries = 500\nmax_history_size = \"256 MiB\"\n") true))
      else none
    maxLinks := 40
    root := rfl
    parent := by
      intro position name h
      split_ifs at h with hdirectory hlink hmanaged
      · rcases hdirectory with hnil | hx | hmimeclip
        · exact absurd hnil (List.append_ne_nil_of_right_ne_nil position (List.cons_ne_nil name []))
        · exact if_pos (.inl (List.append_inj' (show _ = [] ++ [_] from hx) rfl).1)
        · exact if_pos (.inr (.inl (List.append_inj' (show _ = [asBytes "x"] ++ [_] from hmimeclip) rfl).1))
      · have hlink' : position ++ [name] = [asBytes "x", asBytes "mimeclip"] ++ [_] := hlink
        exact if_pos (.inr (.inr (List.append_inj' hlink' rfl).1))
      · exact if_pos (.inl (List.append_inj' (show _ = [] ++ [_] from hmanaged) rfl).1)
      · exact absurd rfl h }
  mode _ := 0o644

def stowedPlace : FilePlace := configPlace [] (some "/x") none

theorem stowed_written : resolveLink stowedPlace stowed.fs = .ok ⟨[], [], asBytes "managed.toml"⟩ := by decide

theorem stowed_temporaryFree : ∀ written, resolveLink stowedPlace stowed.fs = .ok written →
    TemporaryFree written stowed.fs := by
  intro written h q hq v hv
  rw [stowed_written] at h
  cases h
  have htemp : stowed.fs.node [asBytes "managed.toml.tmp"] = none := rfl
  have hposition : q = [asBytes "managed.toml.tmp"] := Option.some.inj (hq.symm.trans (by decide))
  rw [hposition, htemp] at hv
  cases hv

theorem save_atomic_stowed :
    (∀ g, (saveToPath 0o022 sampleToml ⟨500, "1 GiB"⟩ stowedPlace).Leaves stowed g →
      (readConfig stowedPlace g.fs = readConfig stowedPlace stowed.fs ∨
        Saved sampleToml ⟨500, "1 GiB"⟩ stowedPlace g) ∧
      (g = stowed ∨ ∃ written, resolveLink stowedPlace stowed.fs = .ok written ∧ written.Spares stowed g)) ∧
    ∀ u g, (saveToPath 0o022 sampleToml ⟨500, "1 GiB"⟩ stowedPlace).Returns stowed u g →
      Saved sampleToml ⟨500, "1 GiB"⟩ stowedPlace g :=
  save_atomic 0o022 sampleToml ⟨500, "1 GiB"⟩ stowedPlace stowed (by decide) (by decide) stowed_temporaryFree

/-! ### The daemon -/

section
variable {T : Type} {host : Host T} {moment : Moment T} {d : Daemon} {place : FilePlace} {config : Config}
  {limits : Limits}

/-- What the daemon does on a `reload_config`, with the files as they are. -/
def reloadFrom (host : Host T) (moment : Moment T) (d : Daemon) (place : FilePlace) (disk : Disk) :
    Response T × Daemon :=
  dispatch host { moment with configFile := readConfig place disk.fs } d .reloadConfig

/-- What has been saved is what the daemon loads, and the limits are set even if trimming fails. -/
theorem Saved.reload {disk : Disk} (h : Saved host.toml config place disk) (htoml : host.toml.Lawful)
    (henv : moment.environment = ⟨none, none⟩) :
    ∃ limits, config.limits = .ok limits ∧ (reloadFrom host moment d place disk).2.conn.self =
        d.conn.self.withLimits limits ∧
      ((reloadFrom host moment d place disk).1 = .ok →
        (d.conn.self.setLimits host.env.plan limits).Returns d.conn.store ()
          (reloadFrom host moment d place disk).2.conn.store) := by
  obtain ⟨limits, hlimits⟩ := h.limits
  obtain ⟨contents, hprint, hcontents⟩ := h.contents
  refine ⟨limits, hlimits, ?_⟩
  have hload := Config.load_printed htoml hprint hlimits
  simp only [reloadFrom, dispatch, hcontents.readConfig, henv, hload, hlimits, reloadConfig, Daemon.exec]
  rcases hrun : (d.conn.self.setLimits host.env.plan limits).run moment.budget d.conn.store with ⟨result, store, rest⟩
  cases result with
  | error e => exact ⟨rfl, nofun⟩
  | ok u => exact ⟨rfl, fun _ => Script.run_returns hrun⟩

end

/-- A daemon that has its configuration there and reloads it while it is saved, or after a save that was cut off, does
what it would have done before, or has the limits that are saved from then on. Once `save` has returned it has those,
and when it has answered with `Ok`, the history is within them. -/
theorem reload_during_save {T : Type} (host : Host T) (moment : Moment T) (d : Daemon) (umask : Nat)
    (config : Config) (place : FilePlace) (f : Disk) (htoml : host.toml.Lawful)
    (henv : moment.environment = ⟨none, none⟩) (hstart : f.fs.isDirectory place.start = true)
    (hparent : .parent ∉ place.dir)
    (hfree : ∀ written, resolveLink place f.fs = .ok written → TemporaryFree written f.fs)
    (hnonneg : ∀ r ∈ d.conn.store.entries, 0 ≤ r.size) :
    (∀ g, (saveToPath umask host.toml config place).Leaves f g →
      reloadFrom host moment d place g = reloadFrom host moment d place f ∨
        ∃ limits, config.limits = .ok limits ∧
          (reloadFrom host moment d place g).2.conn.self = d.conn.self.withLimits limits) ∧
    ∀ u g, (saveToPath umask host.toml config place).Returns f u g →
      ∃ limits, config.limits = .ok limits ∧
        (reloadFrom host moment d place g).2.conn.self = d.conn.self.withLimits limits ∧
        (limits.InRange → (reloadFrom host moment d place g).1 = .ok →
          (d.conn.self.withLimits limits).Within (reloadFrom host moment d place g).2.conn.store) := by
  refine ⟨fun g h => ?_, fun u g h => ?_⟩
  · rcases (stopped_save hstart hparent hfree h).1 with hsame | hsaved
    · refine .inl ?_
      rw [reloadFrom, hsame, reloadFrom]
    · obtain ⟨limits, hlimits, hself, -⟩ := hsaved.reload htoml henv
      exact .inr ⟨limits, hlimits, hself⟩
  · obtain ⟨limits, hlimits, hself, hreturns⟩ := (finished_save hstart hparent hfree h).reload htoml henv
    refine ⟨limits, hlimits, hself, fun hrange hok => ?_⟩
    obtain ⟨hcount, hsizes, hsize⟩ := Database.trim_returns_within (hreturns hok) hrange hnonneg
    exact ⟨hcount, hsizes, hsize⟩

theorem reload_during_save_stowed :
    (∀ g, (saveToPath 0o022 sampleToml ⟨500, "1 GiB"⟩ stowedPlace).Leaves stowed g →
      reloadFrom sampleHost sampleMoment sampleDaemon stowedPlace g =
          reloadFrom sampleHost sampleMoment sampleDaemon stowedPlace stowed ∨
        ∃ limits, Config.limits ⟨500, "1 GiB"⟩ = .ok limits ∧
          (reloadFrom sampleHost sampleMoment sampleDaemon stowedPlace g).2.conn.self =
            sampleDaemon.conn.self.withLimits limits) ∧
    ∀ u g, (saveToPath 0o022 sampleToml ⟨500, "1 GiB"⟩ stowedPlace).Returns stowed u g →
      ∃ limits, Config.limits ⟨500, "1 GiB"⟩ = .ok limits ∧
        (reloadFrom sampleHost sampleMoment sampleDaemon stowedPlace g).2.conn.self =
          sampleDaemon.conn.self.withLimits limits ∧
        (limits.InRange → (reloadFrom sampleHost sampleMoment sampleDaemon stowedPlace g).1 = .ok →
          (sampleDaemon.conn.self.withLimits limits).Within
            (reloadFrom sampleHost sampleMoment sampleDaemon stowedPlace g).2.conn.store) :=
  reload_during_save sampleHost sampleMoment sampleDaemon 0o022 ⟨500, "1 GiB"⟩ stowedPlace stowed sampleToml_lawful
    rfl (by decide) (by decide) stowed_temporaryFree (by decide)

end Mimeclip
