import Mimeclip.Disk

/-!
# `save_to_path` (`common/config.rs`)

The calls with which a configuration is saved, as scripts over the files: a link in the place of the configuration is
resolved, the directories on the way are made, and the contents are written to a temporary file that is renamed. The
name of that is another one than the file's (`temporaryName_ne`).
-/

namespace Mimeclip

open Paths Paths.Tree

/-! ### Places -/

/-- `config_path`, in a process whose working directory is `cwd`; the variables are those that are UTF-8. -/
def configPlace (cwd : List Bytes) (xdgConfigHome home : Option String) : FilePlace :=
  let (base, dir) : Bytes × List (Component Bytes) :=
    match xdgConfigHome, home with
    | some base, _ => (asBytes base, [])
    | none, some home => (asBytes home, [.name (asBytes ".config")])
    | none, none => (asBytes "/tmp", [])
  { start := if isAbsolute base then [] else cwd
    dir := parsePath base ++ dir ++ [.name (asBytes "mimeclip")]
    file := asBytes "config.toml" }

/-- `Path::file_stem`. -/
def fileStem (name : Bytes) : Bytes :=
  match extension name with
  | none => name
  | some after => name.take (name.length - after.length - 1)

/-- `with_extension("toml.tmp")`. -/
def temporaryName (name : Bytes) : Bytes := fileStem name ++ asBytes ".toml.tmp"

def FilePlace.temporary (place : FilePlace) (fs : FileSystem) : Option (List Bytes) :=
  (place.directory fs).map (· ++ [temporaryName place.file])

/-- What `Config::load` reads; `Path::exists` is false of what cannot be resolved. -/
def savedNode : Option (Paths.Node Bytes FileNode) → SavedFile
  | none => .absent
  | some (.file (.regular data true)) =>
    match fromUtf8 data with
    | some text => .source text
    | none => .unreadable
  | some _ => .unreadable

def readConfig (place : FilePlace) (fs : FileSystem) : SavedFile :=
  savedNode ((fs.resolve place.start place.components).bind fs.node)

/-! ### `save_to_path` -/

section
variable (umask : Nat)

/-- The mode of what a new file is created with. -/
def newFile (q : List Bytes) (disk : Disk) : Disk :=
  (disk.put q (some (.file (.regular [] true)))).chmod q (0o666 &&& (0o777 ^^^ umask))

/-- What opening a file for writing does to the one that is there; a device takes what is written. -/
def truncate (q : List Bytes) (disk : Disk) : Except FileError (List Bytes × Disk) :=
  match disk.fs.node q with
  | some (.file (.regular _ readable)) => .ok (q, disk.put q (some (.file (.regular [] readable))))
  | some (.file .special) => .ok (q, disk)
  | _ => .error .writing

/-- Opening follows a link, but no link to a file that is missing. -/
def openTemporary (place : FilePlace) (disk : Disk) : Except FileError (List Bytes × Disk) :=
  match place.temporary disk.fs with
  | none => .error .writing
  | some q =>
    match disk.fs.node q with
    | none => if disk.fs.Settable q then .ok (q, newFile umask q disk) else .error .writing
    | some (.link _ _) =>
      match disk.fs.resolve place.start (place.dir ++ [.name (temporaryName place.file)]) with
      | none => .error .writing
      | some q => truncate q disk
    | some _ => truncate q disk

def append (q : List Bytes) (b : UInt8) (disk : Disk) : Disk :=
  match disk.fs.node q with
  | some (.file (.regular data readable)) => disk.put q (some (.file (.regular (data ++ [b]) readable)))
  | _ => disk

/-- `write_all` to what was opened; however the bytes are cut into calls of `write`, what is there in between is what
is there between two of these. -/
def writeAll (q : List Bytes) : Bytes → DiskScript Unit
  | [] => pure ()
  | b :: bytes => do
    .update fun disk => .ok ((), append q b disk)
    writeAll q bytes

/-- `restrict_file_permissions` of the temporary file. -/
def restrictFile (place : FilePlace) : Disk → Except FileError (Unit × Disk) :=
  setPermissions place.start (place.dir ++ [.name (temporaryName place.file)]) 0o600

/-- `rename` of the temporary file, which follows no link and replaces no directory. -/
def rename (place : FilePlace) (disk : Disk) : Except FileError (Unit × Disk) :=
  match place.temporary disk.fs, place.target disk.fs with
  | some source, some target =>
    match disk.fs.node source, disk.fs.isDirectory target with
    | none, _ | some .directory, _ | _, true => .error .saving
    | some v, false => .ok ((), ((disk.put source none).put target (some v)).chmod target (disk.mode source))
  | _, _ => .error .saving

/-- A link in the place of the configuration is resolved. -/
def resolveLink (place : FilePlace) (fs : FileSystem) : Except FileError FilePlace :=
  match (place.target fs).bind fs.node with
  | some (.link _ _) =>
    match fs.resolve place.start place.components with
    | none => .error .resolving
    | some q =>
      match q.getLast? with
      | none => .error .noParent
      | some file => .ok ⟨[], q.dropLast.map .name, file⟩
  | _ => .ok place

def replaceFile (place : FilePlace) (contents : String) : DiskScript Unit := do
  let q ← .update (openTemporary umask place)
  writeAll q (asBytes contents)
  .update (restrictFile place)
  .update (rename place)

/-- `save_to_path`, when the link is resolved. -/
def saveResolved (toml : Toml) (config : Config) (place : FilePlace) : DiskScript Unit := do
  createDirAll umask place.start place.dir.reverse
  .update (restrictDirectory place)
  match toml.toStringPretty config with
  | none => .query fun _ => .error .printing
  | some contents => replaceFile umask place contents

def saveToPath (toml : Toml) (config : Config) (place : FilePlace) : DiskScript Unit := do
  let _ ← .query fun _ => config.limits.mapError .limits
  let place ← .query fun disk => resolveLink place disk.fs
  saveResolved umask toml config place

end

/-! ### The name of the temporary file -/

theorem extension_of_dot (before : Bytes) {after : Bytes} (h : 46 ∉ after) :
    extension (before ++ 46 :: after) = if before = [] then none else some after := by
  have hafter : ((before ++ 46 :: after).reverse.takeWhile fun b => decide (b ≠ 46)).reverse = after := by
    have hkept : ∀ b ∈ after.reverse, decide (b ≠ 46) = true := by
      intro b hb
      rw [decide_eq_true_eq]
      rintro rfl
      exact h (List.mem_reverse.1 hb)
    rw [List.reverse_append, List.reverse_cons, List.append_assoc, List.takeWhile_append_of_pos hkept,
      List.singleton_append, List.takeWhile_cons_of_neg (by decide), List.append_nil, List.reverse_reverse]
  unfold extension
  dsimp only
  rw [hafter]
  have hlength : (before ++ 46 :: after).length - after.length - 1 = before.length := by
    rw [List.length_append, List.length_cons]
    omega
  rw [hlength, List.take_left]

theorem extension_without_dot {name : Bytes} (h : 46 ∉ name) : extension name = none := by
  have hafter : (name.reverse.takeWhile fun b => decide (b ≠ 46)).reverse = name := by
    rw [List.takeWhile_eq_self_iff.2, List.reverse_reverse]
    intro b hb
    rw [decide_eq_true_eq]
    rintro rfl
    exact h (List.mem_reverse.1 hb)
  unfold extension
  dsimp only
  rw [hafter, Nat.sub_self, Nat.zero_sub, List.take_zero, if_pos rfl]

/-- The temporary file is another one. -/
theorem temporaryName_ne (name : Bytes) : temporaryName name ≠ name := by
  have hlength : (asBytes ".toml.tmp").length = 9 := by decide
  have hself : name ++ asBytes ".toml.tmp" ≠ name := by
    intro h
    have := congrArg List.length h
    rw [List.length_append, hlength] at this
    omega
  by_cases hdot : 46 ∈ name
  · -- the last dot: what is before it is the stem
    obtain ⟨after, before, hsplit, hafter⟩ := List.eq_append_cons_of_mem (List.mem_reverse.2 hdot)
    have hname : name = before.reverse ++ 46 :: after.reverse := by
      rw [← List.reverse_reverse name, hsplit, List.reverse_append, List.reverse_cons, List.append_assoc,
        List.singleton_append]
    have hno : 46 ∉ after.reverse := mt List.mem_reverse.1 hafter
    have hext := extension_of_dot before.reverse hno
    rw [← hname] at hext
    rw [temporaryName, fileStem, hext]
    split_ifs with hbefore
    · exact hself
    · intro h
      have hstem : name.take (name.length - after.reverse.length - 1) = before.reverse := by
        have hcount : name.length - after.reverse.length - 1 = before.reverse.length := by
          rw [hname, List.length_append, List.length_cons]
          omega
        rw [hcount, hname, List.take_left]
      dsimp only at h
      rw [hstem] at h
      have heq : asBytes ".toml.tmp" = 46 :: after.reverse := List.append_cancel_left (h.trans hname)
      have htail : after.reverse = asBytes "toml.tmp" := (List.cons.inj heq).2.symm
      exact hafter (List.mem_reverse.1 (htail ▸ by decide))
  · rw [temporaryName, fileStem, extension_without_dot hdot]
    exact hself

end Mimeclip
