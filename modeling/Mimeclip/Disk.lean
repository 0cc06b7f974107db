import Mathlib.Data.List.TakeWhile
import Mimeclip.Lib.FileTree
import Mimeclip.Server

/-!
# Files and directories

The calls with which directories are made and permissions are set, as scripts over the files. Wherever
`create_dir_all` is left off, nothing else has changed and there is nothing in the last of the directories
(`createDirAll_leaves`), and what was there before has the permissions it had (`createDirAll_mode`). A file of which
another is made, or that is taken away, leads no path elsewhere (`directory_of_sameBut`).
-/

namespace Mimeclip

open Paths Paths.Tree

/-- A path, by the directory it starts in and its last name. -/
structure FilePlace where
  start : List Bytes
  dir : List (Component Bytes)
  file : Bytes
deriving DecidableEq

namespace FilePlace
variable (place : FilePlace) (fs : FileSystem)

def components : List (Component Bytes) := place.dir ++ [.name place.file]

def directory : Option (List Bytes) := fs.resolve place.start place.dir

def target : Option (List Bytes) := (place.directory fs).map (· ++ [place.file])

end FilePlace

/-- The files, and the permission bits of what is at a position. -/
structure Disk where
  fs : FileSystem
  mode : List Bytes → Nat

/-- Why directories are not made, or what is in them is not written. -/
inductive FileError
  | limits (error : ConfigError)
  | resolving
  -- `expect("configuration path has a parent")` panics
  | noParent
  | creating
  | restricting
  | printing
  | writing
  | saving
  | database
deriving DecidableEq, Repr

abbrev DiskScript := Script Disk FileError

namespace Disk

/-- The node at a position that is in a directory and has none. -/
def put (q : List Bytes) (v : Option (Paths.Node Bytes FileNode)) (disk : Disk) : Disk :=
  if h : disk.fs.Settable q then { disk with fs := disk.fs.set q v h } else disk

def chmod (q : List Bytes) (mode : Nat) (disk : Disk) : Disk :=
  { disk with mode := fun p => if p = q then mode else disk.mode p }

end Disk

/-- The outcome of one `mkdir`: `there` if the name is taken, `missing` if its directory is. -/
inductive Mkdir
  | created
  | there
  | missing
deriving DecidableEq, Repr

section
variable (umask : Nat)

def mkdir (start : List Bytes) (dir : List (Component Bytes)) (last : Component Bytes) (disk : Disk) :
    Except FileError (Mkdir × Disk) :=
  match disk.fs.resolve start dir, last with
  | none, _ => .ok (.missing, disk)
  | some p, .name n =>
    if disk.fs.node (p ++ [n]) = none ∧ disk.fs.isDirectory p = true then
      .ok (.created, (disk.put (p ++ [n]) (some .directory)).chmod (p ++ [n]) (0o777 &&& (0o777 ^^^ umask)))
    else .ok (.there, disk)
  | some _, _ => .ok (.there, disk)

/-- `Path::is_dir`, without which an error of `mkdir` is one of `create_dir_all`. -/
def ensureDir (start : List Bytes) (dir : List (Component Bytes)) : DiskScript Unit :=
  .query fun disk =>
    match disk.fs.resolve start dir with
    | some p => if disk.fs.isDirectory p then .ok () else .error .creating
    | none => .error .creating

/-- `create_dir_all` of a path that is given from its end. -/
def createDirAll (start : List Bytes) : List (Component Bytes) → DiskScript Unit
  | [] => pure ()
  | .current :: above => createDirAll start above
  | last :: above => do
    match ← .update (mkdir umask start above.reverse last) with
    | .created => pure ()
    | .there => ensureDir start (last :: above).reverse
    | .missing =>
      createDirAll start above
      match ← .update (mkdir umask start above.reverse last) with
      | .created => pure ()
      | _ => ensureDir start (last :: above).reverse

/-- `set_permissions`, which follows links. All modes that are set let the owner read. -/
def setPermissions (start : List Bytes) (path : List (Component Bytes)) (mode : Nat) (disk : Disk) :
    Except FileError (Unit × Disk) :=
  match disk.fs.resolve start path with
  | none => .error .restricting
  | some q =>
    match disk.fs.node q with
    | some (.file (.regular data _)) => .ok ((), (disk.put q (some (.file (.regular data true)))).chmod q mode)
    | _ => .ok ((), disk.chmod q mode)

/-- `restrict_directory_permissions`. -/
def restrictDirectory (place : FilePlace) : Disk → Except FileError (Unit × Disk) :=
  setPermissions place.start place.dir 0o700

end

/-! ### Rules -/

namespace Disk
variable {disk : Disk} {q p : List Bytes} {v : Option (Paths.Node Bytes FileNode)} {mode : Nat}

@[simp] theorem fs_chmod : (disk.chmod q mode).fs = disk.fs := rfl

@[simp] theorem maxLinks_put : (disk.put q v).fs.maxLinks = disk.fs.maxLinks := by
  rw [put]
  split_ifs <;> rfl

@[simp] theorem mode_put : (disk.put q v).mode = disk.mode := by
  rw [put]
  split_ifs <;> rfl

theorem mode_chmod : (disk.chmod q mode).mode p = if p = q then mode else disk.mode p := rfl

theorem node_put (h : disk.fs.Settable q) : (disk.put q v).fs.node q = v := by
  rw [put, dif_pos h]
  exact node_set_self (h := h)

theorem node_put_ne (hp : p ≠ q) : (disk.put q v).fs.node p = disk.fs.node p := by
  rw [put]
  split_ifs with h
  · exact node_set_ne (h := h) hp
  · rfl

end Disk

section
variable {umask : Nat} {start : List Bytes} {dir : List (Component Bytes)} {last : Component Bytes} {disk disk' : Disk}

/-- What a call of `mkdir` has done. -/
inductive MkdirDone (umask : Nat) (start : List Bytes) (dir : List (Component Bytes)) (last : Component Bytes)
    (disk : Disk) : Mkdir → Disk → Prop
  | missing (h : disk.fs.resolve start dir = none) : MkdirDone umask start dir last disk .missing disk
  | there {p : List Bytes} (h : disk.fs.resolve start dir = some p) : MkdirDone umask start dir last disk .there disk
  | created {p : List Bytes} {n : Bytes} (hlast : last = .name n) (h : disk.fs.resolve start dir = some p)
      (hn : disk.fs.node (p ++ [n]) = none) (hp : disk.fs.isDirectory p = true) :
      MkdirDone umask start dir last disk .created
        ((disk.put (p ++ [n]) (some .directory)).chmod (p ++ [n]) (0o777 &&& (0o777 ^^^ umask)))

theorem mkdir_done {r : Mkdir} (h : mkdir umask start dir last disk = .ok (r, disk')) :
    MkdirDone umask start dir last disk r disk' := by
  unfold mkdir at h
  split at h
  · rename_i hnone
    cases h
    exact .missing hnone
  · rename_i p n hp
    split_ifs at h with hcreate
    · cases h
      exact .created rfl hp hcreate.1 hcreate.2
    · cases h
      exact .there hp
  · rename_i p hp _
    cases h
    exact .there hp

end

/-! ### Making directories -/

/-- Only directories have been made. -/
structure Grown (f g : FileSystem) : Prop where
  maxLinks : g.maxLinks = f.maxLinks
  node : ∀ q, g.node q = f.node q ∨ f.node q = none ∧ g.node q = some .directory

namespace Grown
variable {f g h : FileSystem}

theorem refl (f : FileSystem) : Grown f f := ⟨rfl, fun _ => .inl rfl⟩

theorem trans (hfg : Grown f g) (hgh : Grown g h) : Grown f h := by
  refine ⟨hgh.maxLinks.trans hfg.maxLinks, fun q => ?_⟩
  rcases hfg.node q with hq | ⟨hnone, hdir⟩
  · rw [← hq]
    exact hgh.node q
  · rcases hgh.node q with hq | ⟨hq, -⟩
    · exact .inr ⟨hnone, hq.trans hdir⟩
    · rw [hdir] at hq
      cases hq

theorem node_eq (hfg : Grown f g) {q : List Bytes} (hq : f.node q ≠ none) : g.node q = f.node q :=
  (hfg.node q).resolve_right fun hnew => hq hnew.1

theorem node_none (hfg : Grown f g) {q : List Bytes} (hq : g.node q = none) : f.node q = none := by
  rcases hfg.node q with hsame | ⟨hnone, -⟩
  exacts [hsame ▸ hq, hnone]

theorem keeps (hfg : Grown f g) : f.Keeps (fun _ => False) g :=
  ⟨fun _ v _ hv => ⟨v, (hfg.node_eq (hv ▸ Option.some_ne_none v)).trans hv, .refl v⟩, nofun⟩

theorem resolve (hfg : Grown f g) {p q : List Bytes} {cs : List (Component Bytes)} (h : f.resolve p cs = some q) :
    g.resolve p cs = some q := hfg.keeps.resolve hfg.maxLinks h id

end Grown

/-- Nothing has changed, or where the path leads now, if it does, there is a new directory that is empty. -/
def Built (start : List Bytes) (cs : List (Component Bytes)) (f g : FileSystem) : Prop :=
  g = f ∨ f.resolve start cs = none ∧ Grown f g ∧
    ∀ x, g.resolve start cs = some x → f.node x = none ∧ ∀ n, g.node (x ++ [n]) = none

theorem Built.grown {start : List Bytes} {cs : List (Component Bytes)} {f g : FileSystem} (h : Built start cs f g) :
    Grown f g := by
  rcases h with rfl | ⟨-, h, -⟩
  exacts [.refl _, h]

theorem grown_mkdir {umask : Nat} {disk : Disk} {p : List Bytes} {n : Bytes} (hn : disk.fs.node (p ++ [n]) = none) :
    Grown disk.fs (((disk.put (p ++ [n]) (some .directory)).chmod (p ++ [n]) umask)).fs := by
  refine ⟨Disk.maxLinks_put, fun q => ?_⟩
  by_cases hq : q = p ++ [n]
  · subst hq
    by_cases hset : disk.fs.Settable (p ++ [n])
    · exact .inr ⟨hn, Disk.node_put hset⟩
    · rw [Disk.fs_chmod, Disk.put, dif_neg hset]
      exact .inl rfl
  · exact .inl (Disk.node_put_ne hq)

/-- The path leads to a directory. -/
def Made (start : List Bytes) (cs : List (Component Bytes)) (fs : FileSystem) : Prop :=
  ∃ p, fs.resolve start cs = some p ∧ fs.isDirectory p = true

section
variable {umask : Nat} {start : List Bytes} {cs : List (Component Bytes)} {f g : Disk}

/-- Where the directory of a name is missing, the name has not been made. -/
theorem Built.name {f g : FileSystem} (h : Built start cs f g) (hnone : f.resolve start cs = none) (n : Bytes) :
    Built start (cs ++ [.name n]) f g := by
  rcases h with rfl | ⟨-, hgrown, hempty⟩
  · exact .inl rfl
  · refine .inr ⟨walk_append_none hnone _, hgrown, fun x hx => ?_⟩
    obtain ⟨q, hq⟩ := (walks_of_walk hx).exists_start
    have hmissing := (hempty q hq.walk_eq).2 n
    have hwalk := walk_concat (n := n) hq.walk_eq (by rw [hmissing]; nofun)
    rw [hmissing, Option.map_none] at hwalk
    exact absurd (hx.symm.trans hwalk) (Option.some_ne_none x)

theorem Built.current {f g : FileSystem} (h : Built start cs f g) : Built start (cs ++ [.current]) f g := by
  rcases h with rfl | ⟨hnone, hgrown, hempty⟩
  · exact .inl rfl
  · refine .inr ⟨walk_append_none hnone _, hgrown, fun x hx => ?_⟩
    obtain ⟨q, hq⟩ := (walks_of_walk hx).exists_start
    have hwalk := walk_concat_current hq.walk_eq
    split_ifs at hwalk with hdir
    · obtain rfl : x = q := Option.some.inj (hx.symm.trans hwalk)
      exact hempty x hq.walk_eq
    · exact absurd (hx.symm.trans hwalk) (Option.some_ne_none x)

theorem Made.current {fs : FileSystem} (h : Made start cs fs) : Made start (cs ++ [.current]) fs := by
  obtain ⟨p, hp, hdir⟩ := h
  refine ⟨p, ?_, hdir⟩
  rw [Tree.resolve, walk_concat_current hp, if_pos hdir]

section
variable {p : List Bytes} {n : Bytes} {mode : Nat} (hp : g.fs.resolve start cs = some p)
  (hn : g.fs.node (p ++ [n]) = none) (hdir : g.fs.isDirectory p = true)
include hp hn hdir

theorem resolve_mkdir :
    ((g.put (p ++ [n]) (some .directory)).chmod (p ++ [n]) mode).fs.resolve start (cs ++ [.name n]) =
        some (p ++ [n]) ∧
      ((g.put (p ++ [n]) (some .directory)).chmod (p ++ [n]) mode).fs.isDirectory (p ++ [n]) = true := by
  have hmade : ((g.put (p ++ [n]) (some .directory)).chmod (p ++ [n]) mode).fs.node (p ++ [n]) = some .directory :=
    Disk.node_put (settable_concat hdir (isDirectory_eq_false (by rw [hn]; nofun)))
  refine ⟨(walk_concat ((grown_mkdir hn).resolve hp) (by rw [hmade]; nofun)).trans ?_, isDirectory_iff.2 hmade⟩
  rw [hmade, Option.map_some]

/-- A directory that was made is new, and it is empty. -/
theorem built_mkdir (hgrown : Grown f.fs g.fs) (hnone : f.fs.resolve start (cs ++ [.name n]) = none) :
    Built start (cs ++ [.name n]) f.fs ((g.put (p ++ [n]) (some .directory)).chmod (p ++ [n]) mode).fs := by
  refine .inr ⟨hnone, hgrown.trans (grown_mkdir hn), fun x hx => ?_⟩
  obtain rfl : p ++ [n] = x := Option.some.inj ((resolve_mkdir hp hn hdir).1.symm.trans hx)
  refine ⟨hgrown.node_none hn, fun m => ?_⟩
  have hne : p ++ [n] ++ [m] ≠ p ++ [n] := fun heq => by simpa using congrArg List.length heq
  refine (Disk.node_put_ne hne).trans ?_
  exact node_eq_none_of_isPrefix (by rw [hn]; nofun) (List.prefix_append _ _) hne

theorem made_mkdir : Made start (cs ++ [.name n]) ((g.put (p ++ [n]) (some .directory)).chmod (p ++ [n]) mode).fs :=
  ⟨p ++ [n], resolve_mkdir hp hn hdir⟩

end

theorem createDirAll_name {umask : Nat} {start : List Bytes} {n : Bytes} {above : List (Component Bytes)} :
    createDirAll umask start (.name n :: above) = (do
      match ← .update (mkdir umask start above.reverse (.name n)) with
      | .created => pure ()
      | .there => ensureDir start (.name n :: above).reverse
      | .missing =>
        createDirAll umask start above
        match ← .update (mkdir umask start above.reverse (.name n)) with
        | .created => pure ()
        | _ => ensureDir start (.name n :: above).reverse) := rfl

theorem createDirAll_current {umask : Nat} {start : List Bytes} {above : List (Component Bytes)} :
    createDirAll umask start (.current :: above) = createDirAll umask start above := rfl

theorem ensureDir_returns {u : Unit} (h : (ensureDir start cs).Returns f u g) : Made start cs g.fs := by
  obtain ⟨hcheck, rfl⟩ := Script.returns_query.1 h
  split at hcheck
  · rename_i p hp
    split_ifs at hcheck with hdir
    exact ⟨p, hp, hdir⟩
  · cases hcheck

theorem MkdirDone.made {last : Component Bytes} {r : Mkdir} (h : MkdirDone umask start cs last f r g)
    (hr : r = .created) : Made start (cs ++ [last]) g.fs := by
  cases h with
  | missing | there => cases hr
  | created hlast hp hn hdir => exact hlast ▸ made_mkdir hp hn hdir

theorem createDirAll_returns (hstart : f.fs.isDirectory start = true) {above : List (Component Bytes)}
    (hparent : .parent ∉ above) {u : Unit} (h : (createDirAll umask start above).Returns f u g) :
    Made start above.reverse g.fs := by
  induction above generalizing g with
  | nil =>
    obtain ⟨-, rfl⟩ := Script.returns_pure.1 h
    exact ⟨start, walk_nil, hstart⟩
  | cons last above ih =>
    have hrest := fun hmem => hparent (List.mem_cons_of_mem last hmem)
    rw [List.reverse_cons]
    cases last with
    | parent => exact absurd List.mem_cons_self hparent
    | current =>
      rw [createDirAll_current] at h
      exact (ih hrest h).current
    | name n =>
      rw [createDirAll_name, List.reverse_cons] at h
      obtain ⟨r, f₁, hr, h⟩ := Script.returns_bind.1 h
      have hdone := mkdir_done (Script.returns_update.1 hr)
      cases r with
      | created =>
        obtain ⟨-, rfl⟩ := Script.returns_pure.1 h
        exact hdone.made rfl
      | there => exact ensureDir_returns h
      | missing =>
        obtain ⟨_, f₂, -, h⟩ := Script.returns_bind.1 h
        obtain ⟨r, f₃, hr, h⟩ := Script.returns_bind.1 h
        have hdone := mkdir_done (Script.returns_update.1 hr)
        cases r with
        | created =>
          obtain ⟨-, rfl⟩ := Script.returns_pure.1 h
          exact hdone.made rfl
        | there | missing => exact ensureDir_returns h

/-- Wherever `create_dir_all` stops, it has only made directories, on the way of the path. -/
theorem createDirAll_leaves {above : List (Component Bytes)}
    (hparent : .parent ∉ above) (h : (createDirAll umask start above).Leaves f g) :
    Built start above.reverse f.fs g.fs := by
  induction above generalizing g with
  | nil => exact .inl (congrArg Disk.fs (Script.leaves_pure.1 h))
  | cons last above ih =>
    have hrest := fun hmem => hparent (List.mem_cons_of_mem last hmem)
    rw [List.reverse_cons]
    cases last with
    | parent => exact absurd List.mem_cons_self hparent
    | current =>
      rw [createDirAll_current] at h
      exact (ih hrest h).current
    | name n =>
      rw [createDirAll_name, List.reverse_cons] at h
      -- the call of `mkdir` that comes first makes the directory, or changes nothing
      have hfirst : ∀ {r : Mkdir} {f₁ : Disk}, MkdirDone umask start above.reverse (.name n) f r f₁ →
          Built start (above.reverse ++ [.name n]) f.fs f₁.fs := by
        intro r f₁ hdone
        cases hdone with
        | missing | there => exact .inl rfl
        | created hlast hp hn hdir =>
          cases hlast
          refine built_mkdir hp hn hdir (.refl _) ((walk_concat hp (by rw [hn]; nofun)).trans ?_)
          rw [hn, Option.map_none]
      rcases Script.leaves_bind.1 h with h | ⟨r, f₁, hr, h⟩
      · rcases Script.leaves_update.1 h with rfl | ⟨r, h⟩
        exacts [.inl rfl, hfirst (mkdir_done h)]
      have hdone := mkdir_done (Script.returns_update.1 hr)
      cases r with
      | created => exact Script.leaves_pure.1 h ▸ hfirst hdone
      | there => exact Script.leaves_query.1 h ▸ hfirst hdone
      | missing =>
        obtain ⟨hnone⟩ := hdone
        have habove : ∀ {f₂ : Disk}, (createDirAll umask start above).Leaves f f₂ →
            Built start (above.reverse ++ [.name n]) f.fs f₂.fs := fun hleaves => (ih hrest hleaves).name hnone n
        rcases Script.leaves_bind.1 h with h | ⟨_, f₂, hcreate, h⟩
        · exact habove h
        -- the directory is there now, so the second call makes the name, or changes nothing
        have hsecond : ∀ {r : Mkdir} {f₃ : Disk}, MkdirDone umask start above.reverse (.name n) f₂ r f₃ →
            Built start (above.reverse ++ [.name n]) f.fs f₃.fs := by
          intro r f₃ hdone
          cases hdone with
          | missing | there => exact habove hcreate.leaves
          | created hlast hp hn hdir =>
            cases hlast
            exact built_mkdir hp hn hdir (ih hrest hcreate.leaves).grown (walk_append_none hnone _)
        rcases Script.leaves_bind.1 h with h | ⟨r, f₃, hr, h⟩
        · rcases Script.leaves_update.1 h with rfl | ⟨r, h⟩
          exacts [habove hcreate.leaves, hsecond (mkdir_done h)]
        have hdone := mkdir_done (Script.returns_update.1 hr)
        cases r with
        | created => exact Script.leaves_pure.1 h ▸ hsecond hdone
        | there | missing => exact Script.leaves_query.1 h ▸ hsecond hdone

/-- What is there has the permissions it had. -/
theorem createDirAll_preserves (q : List Bytes) (m : Nat) (above : List (Component Bytes)) :
    (createDirAll umask start above).Preserves fun disk => disk.fs.node q ≠ none ∧ disk.mode q = m := by
  have hmkdir : ∀ dir last, (Script.update (mkdir umask start dir last)).Preserves
      fun disk : Disk => disk.fs.node q ≠ none ∧ disk.mode q = m := by
    intro dir last
    refine .update fun s r t hs h => ?_
    cases mkdir_done h with
    | missing | there => exact hs
    | @created p n hlast hp hn hdir =>
      have hq : q ≠ p ++ [n] := by
        rintro rfl
        exact hs.1 hn
      refine ⟨fun hnone => hs.1 ((Disk.node_put_ne hq).symm.trans hnone), ?_⟩
      rw [Disk.mode_chmod, if_neg hq, Disk.mode_put]
      exact hs.2
  induction above with
  | nil => exact .pure ()
  | cons last above ih =>
    cases last with
    | current => exact ih
    | parent | name n =>
      refine .bind (hmkdir _ _) fun r => ?_
      cases r with
      | created => exact .pure ()
      | there => exact .query _
      | missing =>
        refine .bind ih fun _ => .bind (hmkdir _ _) fun r => ?_
        cases r with
        | created => exact .pure ()
        | there | missing => exact .query _

theorem createDirAll_mode {above : List (Component Bytes)} (h : (createDirAll umask start above).Leaves f g)
    {q : List Bytes} (hq : f.fs.node q ≠ none) : g.mode q = f.mode q :=
  (createDirAll_preserves q (f.mode q) above f g ⟨hq, rfl⟩ h).2

end

/-! ### Files -/

def NotLink (fs : FileSystem) (q : List Bytes) : Prop := ∀ absolute target, fs.node q ≠ some (.link absolute target)

/-- Nothing has changed but what is at `q`, and its permissions. -/
structure SameBut (q : List Bytes) (f g : Disk) : Prop where
  maxLinks : g.fs.maxLinks = f.fs.maxLinks
  node : ∀ p, p ≠ q → g.fs.node p = f.fs.node p
  mode : ∀ p, p ≠ q → g.mode p = f.mode p

/-- There is a regular file, or nothing. -/
def Replaceable (fs : FileSystem) (q : List Bytes) : Prop :=
  ∀ v, fs.node q = some v → ∃ data readable, v = .file (.regular data readable)

namespace SameBut
variable {f g h : Disk} {q : List Bytes}

theorem refl (q : List Bytes) (f : Disk) : SameBut q f f := ⟨rfl, fun _ _ => rfl, fun _ _ => rfl⟩

theorem trans (hfg : SameBut q f g) (hgh : SameBut q g h) : SameBut q f h := by
  refine ⟨hgh.maxLinks.trans hfg.maxLinks, fun p hp => ?_, fun p hp => ?_⟩
  · exact (hgh.node p hp).trans (hfg.node p hp)
  · exact (hgh.mode p hp).trans (hfg.mode p hp)

theorem put (q : List Bytes) (v : Option (Paths.Node Bytes FileNode)) (disk : Disk) :
    SameBut q disk (disk.put q v) :=
  ⟨Disk.maxLinks_put, fun _ hp => Disk.node_put_ne hp, fun _ _ => by rw [Disk.mode_put]⟩

theorem chmod (hfg : SameBut q f g) (mode : Nat) : SameBut q f (g.chmod q mode) := by
  refine ⟨hfg.maxLinks, hfg.node, fun p hp => ?_⟩
  rw [Disk.mode_chmod, if_neg hp, hfg.mode p hp]

theorem keeps (hfg : SameBut q f g) (hq : Replaceable f.fs q) : f.fs.Keeps (· = q) g.fs := by
  refine ⟨fun p v hp hv => ⟨v, (hfg.node p hp).trans hv, ?_⟩, ?_⟩
  · exact .refl v
  · rintro p v rfl hv
    obtain ⟨data, readable, rfl⟩ := hq v hv
    exact ⟨_, rfl⟩

end SameBut

theorem Replaceable.ne_of_isDirectory {fs : FileSystem} {p q : List Bytes} (hq : Replaceable fs q)
    (hp : fs.isDirectory p = true) : p ≠ q := by
  rintro rfl
  obtain ⟨data, readable, h⟩ := hq _ (isDirectory_iff.1 hp)
  cases h

section
variable {place : FilePlace} {f g : Disk} {d q : List Bytes} {data : Bytes} {readable : Bool} {mode : Nat} {n : Bytes}

theorem FilePlace.target_eq {fs : FileSystem} (hd : place.directory fs = some d) :
    place.target fs = some (d ++ [place.file]) := by
  rw [target, hd, Option.map_some]

theorem replaceable_of_node (hq : f.fs.node q = some (.file (.regular data readable))) : Replaceable f.fs q := by
  intro v hv
  exact ⟨data, readable, Option.some.inj (hv.symm.trans hq)⟩

theorem directory_of_sameBut (hd : place.directory f.fs = some d) (hdir : f.fs.isDirectory d = true)
    (hreplaceable : Replaceable f.fs q) (h : SameBut q f g) : place.directory g.fs = some d :=
  (h.keeps hreplaceable).resolve h.maxLinks hd (hreplaceable.ne_of_isDirectory hdir)

theorem setPermissions_directory {start : List Bytes} {path : List (Component Bytes)} {u : Unit}
    (hd : f.fs.resolve start path = some d) (hdir : f.fs.isDirectory d = true)
    (h : setPermissions start path mode f = .ok (u, g)) : g = f.chmod d mode := by
  unfold setPermissions at h
  rw [hd] at h
  simp only [isDirectory_iff.1 hdir, Except.ok.injEq, Prod.mk.injEq] at h
  exact h.2.symm

/-- What is at `q` has its permissions set, and nothing else has changed. -/
structure Restricted (q : List Bytes) (mode : Nat) (f g : Disk) : Prop where
  same : SameBut q f g
  alike : ∃ v v', f.fs.node q = some v ∧ g.fs.node q = some v' ∧ v.Alike v'
  contents : ∀ data readable, f.fs.node q = some (.file (.regular data readable)) →
    g.fs.node q = some (.file (.regular data true))
  mode_eq : g.mode q = mode

theorem Restricted.chmod {v : Paths.Node Bytes FileNode} (hnode : f.fs.node q = some v)
    (hv : ∀ data readable, v ≠ .file (.regular data readable)) : Restricted q mode f (f.chmod q mode) := by
  refine ⟨(SameBut.refl q f).chmod mode, ⟨v, v, hnode, hnode, .refl v⟩, fun data readable hdata => ?_, if_pos rfl⟩
  exact absurd (Option.some.inj (hnode.symm.trans hdata)) (hv data readable)

theorem Restricted.put (hnode : f.fs.node q = some (.file (.regular data readable))) :
    Restricted q mode f ((f.put q (some (.file (.regular data true)))).chmod q mode) := by
  have hput := Disk.node_put (v := some (.file (.regular data true))) (settable_of_node hnode nofun)
  refine ⟨(SameBut.put q _ f).chmod mode, ⟨_, _, hnode, hput, .file _ _⟩, fun data' readable' hdata => ?_, if_pos rfl⟩
  cases hnode.symm.trans hdata
  exact hput

/-- The last name is that of no link. -/
theorem setPermissions_name {u : Unit} (hd : place.directory f.fs = some d) (hlink : NotLink f.fs (d ++ [n]))
    (h : setPermissions place.start (place.dir ++ [.name n]) mode f = .ok (u, g)) :
    Restricted (d ++ [n]) mode f g := by
  have hwalk := walk_concat hd hlink
  unfold setPermissions at h
  rw [Tree.resolve, hwalk] at h
  cases hnode : f.fs.node (d ++ [n]) with
  | none =>
    rw [hnode] at h
    cases h
  | some v =>
    rw [hnode, Option.map_some] at h
    dsimp only at h
    rw [hnode] at h
    split at h
    · rename_i hv
      cases hv
      cases h
      exact .put hnode
    · rename_i hv
      cases h
      exact .chmod hnode fun data readable heq => hv data readable (congrArg some heq)

end

end Mimeclip
