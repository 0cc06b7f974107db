import Mimeclip.Disk

/-!
# The files of the history (`common/ipc.rs`, `common/db.rs`)

Before the daemon opens the database, `db_path` makes its directory and takes that away from all other users, and
`Database::open` takes the files of the database away from them each time when SQLite may have made some. Whatever
SQLite does in between, and wherever the daemon is stopped, a file of the history is in a directory that only its owner
can enter, or it is the one that was there before (`history_private`).
-/

namespace Mimeclip

open Paths Paths.Tree

/-- Where `db_path` has the database, in a process whose working directory is `cwd`; the variables are those that are
UTF-8. -/
def historyPlace (cwd : List Bytes) (xdgDataHome home : Option String) : FilePlace :=
  let (base, dir) : Bytes × List (Component Bytes) :=
    match xdgDataHome with
    | some base => (asBytes base, [])
    | none => (asBytes (home.getD "/tmp"), [.name (asBytes ".local"), .name (asBytes "share")])
  { start := if isAbsolute base then [] else cwd
    dir := parsePath base ++ dir ++ [.name (asBytes "mimeclip")]
    file := asBytes "history.db" }

/-- What SQLite does to one of its files: it writes it, and makes it with some mode if there is none, or removes it. -/
inductive SqliteCall
  | wrote (suffix data : Bytes) (mode : Nat)
  | removed (suffix : Bytes)
deriving DecidableEq, Repr

/-- What follows the path of the database in the names of its files. -/
def databaseSuffixes : List Bytes := [[], asBytes "-wal", asBytes "-shm"]

section
variable (umask : Nat) (place : FilePlace)

def dbPath : DiskScript Unit := do
  createDirAll umask place.start place.dir.reverse
  .update (restrictDirectory place)

def databasePath (suffix : Bytes) : List (Component Bytes) := place.dir ++ [.name (place.file ++ suffix)]

/-- A file that is there has its permissions set. -/
def restrictDatabaseFile (suffix : Bytes) : DiskScript Unit := do
  match ← .query fun disk => .ok (disk.fs.resolve place.start (databasePath place suffix)).isSome with
  | true => .update (setPermissions place.start (databasePath place suffix) 0o600)
  | false => pure ()

def restrictFiles : List Bytes → DiskScript Unit
  | [] => pure ()
  | suffix :: suffixes => do
    restrictDatabaseFile place suffix
    restrictFiles suffixes

def restrictDatabasePermissions : DiskScript Unit := restrictFiles place databaseSuffixes

/-- SQLite follows no link that is in the place of one of the files. -/
def SqliteCall.carryOut (call : SqliteCall) (disk : Disk) : Except FileError (Unit × Disk) :=
  match place.directory disk.fs with
  | none => .error .database
  | some d =>
    match call with
    | wrote suffix data mode =>
      match disk.fs.node (d ++ [place.file ++ suffix]) with
      | none =>
        if disk.fs.isDirectory d then
          .ok ((), (disk.put (d ++ [place.file ++ suffix]) (some (.file (.regular data true)))).chmod
            (d ++ [place.file ++ suffix]) mode)
        else .error .database
      | some (.file (.regular _ readable)) =>
        .ok ((), disk.put (d ++ [place.file ++ suffix]) (some (.file (.regular data readable))))
      | some _ => .error .database
    | removed suffix =>
      match disk.fs.node (d ++ [place.file ++ suffix]) with
      | some (.file (.regular _ _)) => .ok ((), disk.put (d ++ [place.file ++ suffix]) none)
      | _ => .error .database

def carryOutAll : List SqliteCall → DiskScript Unit
  | [] => pure ()
  | call :: calls => do
    .update (call.carryOut place)
    carryOutAll calls

/-- `Database::open`, as far as its files go: `opening` is what `Connection::open` does, `init` what the statements of
`init` do. -/
def openFiles (opening init : List SqliteCall) : DiskScript Unit := do
  restrictDatabasePermissions place
  carryOutAll place opening
  restrictDatabasePermissions place
  carryOutAll place init
  restrictDatabasePermissions place

def startFiles (opening init : List SqliteCall) : DiskScript Unit := do
  dbPath umask place
  openFiles place opening init

/-- What is done to the files as long as the daemon runs. -/
def daemonFiles (opening init later : List SqliteCall) : DiskScript Unit := do
  startFiles umask place opening init
  carryOutAll place later

end

/-! ### One file -/

/-- No other node has changed than that at `q`, which is no directory or link that was not there. -/
structure Touched (q : List Bytes) (f g : Disk) : Prop where
  same : SameBut q f g
  resolve : ∀ start cs p, p ≠ q → f.fs.resolve start cs = some p → g.fs.resolve start cs = some p
  notLink : NotLink f.fs q → NotLink g.fs q

section
variable {place : FilePlace} {f g : Disk} {d q : List Bytes} {mode : Nat} {suffix : Bytes} {u : Unit}

theorem Restricted.touched (h : Restricted q mode f g) : Touched q f g := by
  obtain ⟨v, v', hv, hv', halike⟩ := h.alike
  have hkeeps : f.fs.Keeps (fun _ => False) g.fs := by
    refine ⟨fun p w _ hw => ?_, nofun⟩
    by_cases hp : p = q
    · subst hp
      cases hv.symm.trans hw
      exact ⟨v', hv', halike⟩
    · exact ⟨w, (h.same.node p hp).trans hw, .refl w⟩
  refine ⟨h.same, fun start cs p _ hwalk => hkeeps.resolve h.same.maxLinks hwalk id, ?_⟩
  intro hlink absolute target hnode
  cases hv'.symm.trans hnode
  cases halike
  exact hlink _ _ hv

/-- A file is written, made or removed. -/
theorem Touched.put {v : Option (Paths.Node Bytes FileNode)} (hset : f.fs.Settable q)
    (hreplaceable : Replaceable f.fs q) (hv : ∀ absolute target, v ≠ some (.link absolute target)) :
    Touched q f (f.put q v) := by
  refine ⟨.put _ _ f, fun start cs p hp hwalk => ?_, fun _ absolute target => ?_⟩
  · exact ((SameBut.put q v f).keeps hreplaceable).resolve Disk.maxLinks_put hwalk hp
  · rw [Disk.node_put hset]
    exact hv absolute target

theorem Touched.chmod (h : Touched q f g) : Touched q f (g.chmod q mode) := ⟨h.same.chmod mode, h.resolve, h.notLink⟩

theorem carryOut_touched {call : SqliteCall} (hd : place.directory f.fs = some d)
    (h : call.carryOut place f = .ok (u, g)) : ∃ suffix, Touched (d ++ [place.file ++ suffix]) f g := by
  unfold SqliteCall.carryOut at h
  rw [hd] at h
  dsimp only at h
  cases call with
  | wrote suffix data mode =>
    dsimp only at h
    split at h
    · rename_i hnone
      split_ifs at h with hdir
      cases h
      have hset := settable_concat hdir (isDirectory_eq_false (by rw [hnone]; nofun))
      have hput : Touched _ f (f.put _ (some (.file (.regular data true)))) :=
        .put hset (by rw [Replaceable, hnone]; nofun) fun _ _ => nofun
      exact ⟨suffix, hput.chmod⟩
    · rename_i hnode
      cases h
      exact ⟨suffix, .put (settable_of_node hnode nofun) (replaceable_of_node hnode) fun _ _ => nofun⟩
    · cases h
  | removed suffix =>
    dsimp only at h
    split at h
    · rename_i hnode
      cases h
      exact ⟨suffix, .put (settable_of_node hnode nofun) (replaceable_of_node hnode) fun _ _ => nofun⟩
    · cases h

/-! ### The directory -/

/-- None of the files of the history is a link. -/
def Unlinked (place : FilePlace) (fs : FileSystem) : Prop :=
  ∀ d, place.directory fs = some d → ∀ suffix, NotLink fs (d ++ [place.file ++ suffix])

/-- Only its owner can enter the directory. -/
structure Closed (place : FilePlace) (d : List Bytes) (disk : Disk) : Prop where
  directory : place.directory disk.fs = some d
  isDirectory : disk.fs.isDirectory d = true
  notLink : ∀ suffix, NotLink disk.fs (d ++ [place.file ++ suffix])
  mode : disk.mode d = 0o700

theorem Closed.touched (h : Closed place d f) (ht : Touched (d ++ [place.file ++ suffix]) f g) : Closed place d g := by
  have hne : d ≠ d ++ [place.file ++ suffix] := by simp
  refine ⟨ht.resolve _ _ d hne h.directory, ?_, fun suffix' => ?_, (ht.same.mode d hne).trans h.mode⟩
  · rw [Tree.isDirectory, ht.same.node d hne]
    exact h.isDirectory
  · by_cases hsuffix : d ++ [place.file ++ suffix'] = d ++ [place.file ++ suffix]
    · rw [hsuffix]
      exact ht.notLink (h.notLink suffix)
    · rw [NotLink, ht.same.node _ hsuffix]
      exact h.notLink suffix'

theorem carryOutAll_closed (calls : List SqliteCall) : (carryOutAll place calls).Preserves (Closed place d) := by
  induction calls with
  | nil => exact .pure ()
  | cons call calls ih =>
    refine .bind (.update fun f u g hf h => ?_) fun _ => ih
    obtain ⟨suffix, ht⟩ := carryOut_touched hf.directory h
    exact hf.touched ht

theorem restrictDatabaseFile_leaves (hf : Closed place d f) (h : (restrictDatabaseFile place suffix).Leaves f g) :
    g = f ∨ Restricted (d ++ [place.file ++ suffix]) 0o600 f g := by
  rcases Script.leaves_bind.1 h with h | ⟨there, _, hquery, h⟩
  · exact .inl (Script.leaves_query.1 h)
  obtain ⟨-, rfl⟩ := Script.returns_query.1 hquery
  cases there with
  | false => exact .inl (Script.leaves_pure.1 h)
  | true =>
    rcases Script.leaves_update.1 h with rfl | ⟨u, h⟩
    exacts [.inl rfl, .inr (setPermissions_name hf.directory (hf.notLink suffix) h)]

/-- What setting permissions keeps in a directory that is closed. -/
theorem restrictFiles_preserves {I : Disk → Prop}
    (hI : ∀ f g suffix, I f → Restricted (d ++ [place.file ++ suffix]) 0o600 f g → I g) (suffixes : List Bytes) :
    (restrictFiles place suffixes).Preserves fun disk => Closed place d disk ∧ I disk := by
  induction suffixes with
  | nil => exact .pure ()
  | cons suffix suffixes ih =>
    refine .bind (fun f g hf h => ?_) fun _ => ih
    rcases restrictDatabaseFile_leaves hf.1 h with rfl | hrestricted
    exacts [hf, ⟨hf.1.touched hrestricted.touched, hI f g suffix hf.2 hrestricted⟩]

theorem restrictDatabasePermissions_closed : (restrictDatabasePermissions place).Preserves (Closed place d) := by
  intro f g hf h
  exact (restrictFiles_preserves (I := fun _ => True) (fun _ _ _ _ _ => trivial) _ f g ⟨hf, trivial⟩ h).1

theorem openFiles_closed (opening init : List SqliteCall) :
    (openFiles place opening init).Preserves (Closed place d) :=
  .bind restrictDatabasePermissions_closed fun _ => .bind (carryOutAll_closed opening) fun _ =>
    .bind restrictDatabasePermissions_closed fun _ => .bind (carryOutAll_closed init) fun _ =>
      restrictDatabasePermissions_closed

/-- The file is only its owner's, if there is one. -/
def Private (q : List Bytes) (disk : Disk) : Prop := disk.fs.node q ≠ none → disk.mode q = 0o600

theorem Private.restricted {q' : List Bytes} (hf : Private q f) (h : Restricted q' 0o600 f g) : Private q g := by
  intro hnode
  by_cases hq : q = q'
  · rw [hq, h.mode_eq]
  · rw [h.same.mode q hq]
    exact hf (h.same.node q hq ▸ hnode)

theorem restrictDatabaseFile_returns (hf : Closed place d f) (h : (restrictDatabaseFile place suffix).Returns f u g) :
    Private (d ++ [place.file ++ suffix]) g := by
  obtain ⟨there, _, hquery, h⟩ := Script.returns_bind.1 h
  obtain ⟨hthere, rfl⟩ := Script.returns_query.1 hquery
  intro hnode
  cases there with
  | false =>
    obtain ⟨-, rfl⟩ := Script.returns_pure.1 h
    obtain ⟨v, hv⟩ := Option.ne_none_iff_exists'.1 hnode
    have hwalk := walk_concat hf.directory (hf.notLink suffix)
    rw [hv, Option.map_some] at hwalk
    rw [databasePath, Tree.resolve, hwalk] at hthere
    cases hthere
  | true =>
    have hrestricted := setPermissions_name hf.directory (hf.notLink suffix) (Script.returns_update.1 h)
    exact hrestricted.mode_eq

theorem restrictFiles_returns {suffixes : List Bytes} (hf : Closed place d f)
    (h : (restrictFiles place suffixes).Returns f u g) :
    ∀ suffix ∈ suffixes, Private (d ++ [place.file ++ suffix]) g := by
  induction suffixes generalizing f with
  | nil => nofun
  | cons suffix suffixes ih =>
    obtain ⟨_, f₁, hfirst, hrest⟩ := Script.returns_bind.1 h
    have hclosed : Closed place d f₁ := by
      rcases restrictDatabaseFile_leaves hf hfirst.leaves with rfl | hrestricted
      exacts [hf, hf.touched hrestricted.touched]
    have hnow := restrictDatabaseFile_returns hf hfirst
    -- setting the permissions of the other files keeps those of this one
    have hkept := restrictFiles_preserves (fun _ _ _ hprivate => hprivate.restricted) suffixes f₁ g ⟨hclosed, hnow⟩
      hrest.leaves
    intro suffix' hmem
    rcases List.mem_cons.1 hmem with rfl | hmem
    exacts [hkept.2, ih hclosed hrest suffix' hmem]

/-! ### From the start on -/

section
variable {umask : Nat} (hstart : f.fs.isDirectory place.start = true) (hparent : .parent ∉ place.dir)
  (hunlinked : Unlinked place f.fs)
include hparent

/-- While directories are made, a file in the directory of the history is one that was there before. -/
theorem createDirAll_files (h : (createDirAll umask place.start place.dir.reverse).Leaves f g)
    (hd : place.directory g.fs = some d) {n : Bytes} (hnode : g.fs.node (d ++ [n]) ≠ none) :
    g.fs.node (d ++ [n]) = f.fs.node (d ++ [n]) ∧ g.mode (d ++ [n]) = f.mode (d ++ [n]) ∧
      place.directory f.fs = some d := by
  have hbuilt := createDirAll_leaves (fun hmem => hparent (List.mem_reverse.1 hmem)) h
  rw [List.reverse_reverse] at hbuilt
  rcases hbuilt with hsame | ⟨-, -, hempty⟩
  · rw [hsame] at hd hnode ⊢
    exact ⟨rfl, createDirAll_mode h hnode, hd⟩
  · exact absurd ((hempty d hd).2 n) hnode

include hstart hunlinked

theorem dbPath_returns (h : (dbPath umask place).Returns f u g) : ∃ d, Closed place d g := by
  obtain ⟨_, f₁, hcreate, hrestrict⟩ := Script.returns_bind.1 h
  obtain ⟨d, hd, hdir⟩ := createDirAll_returns hstart (fun hmem => hparent (List.mem_reverse.1 hmem)) hcreate
  rw [List.reverse_reverse] at hd
  cases setPermissions_directory hd hdir (Script.returns_update.1 hrestrict)
  refine ⟨d, hd, hdir, fun suffix absolute target hlink => ?_, if_pos rfl⟩
  obtain ⟨hnode, -, hd₀⟩ := createDirAll_files hparent hcreate.leaves hd (hlink ▸ Option.some_ne_none _)
  exact hunlinked d hd₀ suffix absolute target (hnode ▸ hlink)

theorem startFiles_leaves {opening init : List SqliteCall} (h : (startFiles umask place opening init).Leaves f g) :
    (createDirAll umask place.start place.dir.reverse).Leaves f g ∨ ∃ d, Closed place d g := by
  rcases Script.leaves_bind.1 h with h | ⟨_, f₁, hpath, h⟩
  · rcases Script.leaves_bind.1 h with h | ⟨_, f₀, hcreate, h⟩
    · exact .inl h
    · rcases Script.leaves_update.1 h with rfl | ⟨u, hrestrict⟩
      · exact .inl hcreate.leaves
      · exact .inr (dbPath_returns hstart hparent hunlinked
          (Script.returns_bind.2 ⟨_, f₀, hcreate, Script.returns_update.2 hrestrict⟩))
  · obtain ⟨d, hclosed⟩ := dbPath_returns hstart hparent hunlinked hpath
    exact .inr ⟨d, openFiles_closed opening init f₁ g hclosed h⟩

theorem startFiles_returns {opening init : List SqliteCall} (h : (startFiles umask place opening init).Returns f u g) :
    ∃ d, Closed place d g ∧ ∀ suffix ∈ databaseSuffixes, Private (d ++ [place.file ++ suffix]) g := by
  obtain ⟨_, f₁, hpath, hopened⟩ := Script.returns_bind.1 h
  obtain ⟨d, hclosed⟩ := dbPath_returns hstart hparent hunlinked hpath
  refine ⟨d, openFiles_closed opening init f₁ g hclosed hopened.leaves, ?_⟩
  -- the last of the calls sets the permissions of all files
  obtain ⟨_, f₂, h₂, hopened⟩ := Script.returns_bind.1 hopened
  obtain ⟨_, f₃, h₃, hopened⟩ := Script.returns_bind.1 hopened
  obtain ⟨_, f₄, h₄, hopened⟩ := Script.returns_bind.1 hopened
  obtain ⟨_, f₅, h₅, hopened⟩ := Script.returns_bind.1 hopened
  have hclosed₂ := restrictDatabasePermissions_closed f₁ f₂ hclosed h₂.leaves
  have hclosed₃ := carryOutAll_closed opening f₂ f₃ hclosed₂ h₃.leaves
  have hclosed₄ := restrictDatabasePermissions_closed f₃ f₄ hclosed₃ h₄.leaves
  exact restrictFiles_returns (carryOutAll_closed init f₄ f₅ hclosed₄ h₅.leaves) hopened

theorem daemonFiles_leaves {opening init later : List SqliteCall}
    (h : (daemonFiles umask place opening init later).Leaves f g) :
    (createDirAll umask place.start place.dir.reverse).Leaves f g ∨ ∃ d, Closed place d g := by
  rcases Script.leaves_bind.1 h with h | ⟨_, f₁, hstarted, h⟩
  · exact startFiles_leaves hstart hparent hunlinked h
  · obtain ⟨d, hclosed, -⟩ := startFiles_returns hstart hparent hunlinked hstarted
    exact .inr ⟨d, carryOutAll_closed later f₁ g hclosed h⟩

end

end

/-- Wherever the daemon is stopped, a file of the history is in a directory that only its owner can enter, or it is the
one that was there before, with the permissions it had; and once the database is open, its files are their owner's. -/
theorem history_private (umask : Nat) {place : FilePlace} {f : Disk} (opening init later : List SqliteCall)
    (hstart : f.fs.isDirectory place.start = true) (hparent : .parent ∉ place.dir) (hunlinked : Unlinked place f.fs) :
    (∀ g, (daemonFiles umask place opening init later).Leaves f g → ∀ d suffix, place.directory g.fs = some d →
      g.fs.node (d ++ [place.file ++ suffix]) ≠ none → g.mode d = 0o700 ∨
        g.fs.node (d ++ [place.file ++ suffix]) = f.fs.node (d ++ [place.file ++ suffix]) ∧
          g.mode (d ++ [place.file ++ suffix]) = f.mode (d ++ [place.file ++ suffix])) ∧
    ∀ u g, (startFiles umask place opening init).Returns f u g → ∃ d, place.directory g.fs = some d ∧
      g.mode d = 0o700 ∧ ∀ suffix ∈ databaseSuffixes, Private (d ++ [place.file ++ suffix]) g := by
  refine ⟨fun g h d suffix hd hnode => ?_, fun u g h => ?_⟩
  · rcases daemonFiles_leaves hstart hparent hunlinked h with hcreate | ⟨d', hclosed⟩
    · obtain ⟨hsame, hsame', -⟩ := createDirAll_files hparent hcreate hd hnode
      exact .inr ⟨hsame, hsame'⟩
    · obtain rfl : d' = d := Option.some.inj (hclosed.directory.symm.trans hd)
      exact .inl hclosed.mode
  · obtain ⟨d, hclosed, hprivate⟩ := startFiles_returns hstart hparent hunlinked h
    exact ⟨d, hclosed.directory, hclosed.mode, hprivate⟩

/-- A history that others can read, of a daemon that did not restrict it. -/
def readableHistory : Disk where
  fs := {
    node := fun position =>
      if position = [] ∨ position = [asBytes "x"] ∨ position = [asBytes "x", asBytes "mimeclip"] then some .directory
      else if position = [asBytes "x", asBytes "mimeclip", asBytes "history.db"] then some (.file (.regular [1] true))
      else none
    maxLinks := 40
    root := rfl
    parent := by
      intro position name h
      split_ifs at h with hdirectory hfile
      · rcases hdirectory with hnil | hx | hmimeclip
        · exact absurd hnil (List.append_ne_nil_of_right_ne_nil position (List.cons_ne_nil name []))
        · exact if_pos (.inl (List.append_inj' (show _ = [] ++ [_] from hx) rfl).1)
        · exact if_pos (.inr (.inl (List.append_inj' (show _ = [asBytes "x"] ++ [_] from hmimeclip) rfl).1))
      · have hfile' : position ++ [name] = [asBytes "x", asBytes "mimeclip"] ++ [_] := hfile
        exact if_pos (.inr (.inr (List.append_inj' hfile' rfl).1))
      · exact absurd rfl h }
  mode _ := 0o755

/-- SQLite makes the log with the permissions of the database. -/
def logWritten : List SqliteCall := [.wrote (asBytes "-wal") [2] 0o600, .wrote [] [1, 2] 0o644]

theorem history_private_readable :
    (∀ g, (daemonFiles 0o022 (historyPlace [] (some "/x") none) [] logWritten [.removed (asBytes "-wal")]).Leaves
        readableHistory g → ∀ d suffix, (historyPlace [] (some "/x") none).directory g.fs = some d →
      g.fs.node (d ++ [asBytes "history.db" ++ suffix]) ≠ none → g.mode d = 0o700 ∨
        g.fs.node (d ++ [asBytes "history.db" ++ suffix]) =
            readableHistory.fs.node (d ++ [asBytes "history.db" ++ suffix]) ∧
          g.mode (d ++ [asBytes "history.db" ++ suffix]) =
            readableHistory.mode (d ++ [asBytes "history.db" ++ suffix])) ∧
    ∀ u g, (startFiles 0o022 (historyPlace [] (some "/x") none) [] logWritten).Returns readableHistory u g →
      ∃ d, (historyPlace [] (some "/x") none).directory g.fs = some d ∧ g.mode d = 0o700 ∧
        ∀ suffix ∈ databaseSuffixes, Private (d ++ [asBytes "history.db" ++ suffix]) g := by
  have hunlinked : Unlinked (historyPlace [] (some "/x") none) readableHistory.fs := by
    intro d _ suffix absolute target h
    simp only [readableHistory] at h
    split_ifs at h <;> cases h
  exact history_private 0o022 [] logWritten [.removed (asBytes "-wal")] (by decide) (by decide) hunlinked

example :
    let disk := ((startFiles 0o022 (historyPlace [] (some "/x") none) [] logWritten).run none readableHistory).2.1
    disk.mode [asBytes "x"] = 0o755 ∧ disk.mode [asBytes "x", asBytes "mimeclip"] = 0o700 ∧
      disk.mode [asBytes "x", asBytes "mimeclip", asBytes "history.db"] = 0o600 := by decide +kernel

end Mimeclip
