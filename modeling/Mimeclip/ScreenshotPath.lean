import Mimeclip.Lib.Maze
import Mimeclip.Server

/-!
# The path of a screenshot

`mimeclip screenshot` sends the path as it is typed, decoded as UTF-8 with replacements, and the daemon resolves it in
its own working directory. Both mean one file, whatever the file system holds, if and only if the path names none, or
leads through the two working directories to one place, with the same path from there on (`sameFile_iff`).
-/

namespace Mimeclip

open Paths Paths.Component

/-- The request of `mimeclip screenshot`: `to_string_lossy` of the argument. -/
def screenshotRequest (arg : Bytes) : Request := .offerScreenshot (fromUtf8Lossy arg)

/-- What the payloads hold is the file at the position, and its path. -/
def OffersFile (fs : FileSystem) (position : List Bytes) (payloads : Payloads) : Prop :=
  ∃ data mime, fs.node position = some (.file (.regular data true)) ∧ screenshotMime position = some mime ∧
    payloads = screenshotOffer mime data (fromUtf8Lossy (renderPath position))

/-- An `Ok` is for the file that the argument names in the client's working directory, whatever the files are. -/
def SameFile {T : Type} (host : Host T) (moment : Moment T) (d : Daemon) (cwd : List Bytes) (arg : Bytes) : Prop :=
  ∀ fs : FileSystem, fs.isDirectory cwd = true → fs.isDirectory host.cwd = true →
    ∀ d', dispatch host { moment with fs } d (screenshotRequest arg) = (.ok, d') →
      ∃ position payloads, d'.offers = d.offers ++ [payloads] ∧ OffersFile fs position payloads ∧
        canonicalize fs host.cwd (asBytes (fromUtf8Lossy arg)) = some position ∧
        canonicalize fs cwd arg = some position

/-! ### Decoding with replacements -/

def lossy (name : Bytes) : Bytes := asBytes (fromUtf8Lossy name)

theorem lossy_eq_nil {path : Bytes} : lossy path = [] ↔ path = [] := fromUtf8Lossy_eq_ascii nofun

theorem lossy_append_slash (before after : Bytes) :
    lossy (before ++ 47 :: after) = lossy before ++ 47 :: lossy after := by
  have hslash : String.utf8EncodeChar (Char.ofNat (47 : UInt8).toNat) = [47] := by decide
  rw [lossy, lossy, lossy, asBytes_eq, asBytes_eq, asBytes_eq, fromUtf8Lossy, fromUtf8Lossy, fromUtf8Lossy,
    String.toList_ofList, String.toList_ofList, String.toList_ofList, lossyChars_append .none (by decide),
    List.flatMap_append, List.flatMap_cons, hslash]
  rfl

theorem slash_mem_lossy {part : Bytes} (h : 47 ∈ lossy part) : 47 ∈ part := by
  rw [lossy, asBytes_eq, fromUtf8Lossy, String.toList_ofList] at h
  obtain ⟨c, hc, hb⟩ := List.mem_flatMap.1 h
  have hcode : c.toNat = 47 := toNat_of_mem_utf8EncodeChar (by decide) hb
  have hmem := mem_of_mem_lossyChars .none (show Ascii c by rw [Ascii, hcode]; decide) hc
  rwa [hcode] at hmem

theorem splitOn_lossy (path : Bytes) : (lossy path).splitOn 47 = (path.splitOn 47).map lossy := by
  induction hlength : path.length using Nat.strong_induction_on generalizing path with
  | _ length ih =>
    by_cases hslash : 47 ∈ path
    · obtain ⟨before, after, rfl, hbefore⟩ := List.eq_append_cons_of_mem hslash
      have hshort : after.length < length := by
        rw [← hlength, List.length_append, List.length_cons]
        omega
      rw [lossy_append_slash, List.splitOn_append_cons_self, List.splitOn_append_cons_self, List.map_append,
        ih _ hshort after rfl, List.splitOn_eq_singleton hbefore,
        List.splitOn_eq_singleton (mt slash_mem_lossy hbefore)]
      rfl
    · rw [List.splitOn_eq_singleton hslash, List.splitOn_eq_singleton (mt slash_mem_lossy hslash)]
      rfl

theorem component_lossy (part : Bytes) : component (lossy part) = (component part).map lossy := by
  have hascii : ∀ b ∈ [(46 : UInt8)], b < 0x80 := List.forall_mem_singleton.2 (by decide)
  have hdot : lossy part = [46] ↔ part = [46] := fromUtf8Lossy_eq_ascii hascii
  have hdots : lossy part = [46, 46] ↔ part = [46, 46] :=
    fromUtf8Lossy_eq_ascii (List.forall_mem_cons.2 ⟨by decide, hascii⟩)
  rw [component, component]
  simp only [lossy_eq_nil, hdot, hdots]
  split_ifs <;> rfl

theorem parsePath_lossy (path : Bytes) : parsePath (lossy path) = (parsePath path).map (map lossy) := by
  rw [parsePath, parsePath, splitOn_lossy, List.map_map, List.map_map]
  exact List.map_congr_left fun part _ => component_lossy part

/-! ### Where the two paths part -/

section
variable (clientCwd daemonCwd : List Bytes)

/-- The directories that are there, whatever the files are. -/
def knownDirectory (position : List Bytes) : Bool := position.isPrefixOf clientCwd || position.isPrefixOf daemonCwd

/-- Where the path leads through known directories, and what is left of it. -/
def settlePath (cwd : List Bytes) (path : Bytes) : List Bytes × List (Component Bytes) :=
  Tree.settle (knownDirectory clientCwd daemonCwd) (if isAbsolute path then [] else cwd) (parsePath path)

variable {clientCwd daemonCwd}

theorem knownDirectory_iff {position : List Bytes} :
    knownDirectory clientCwd daemonCwd position = true ↔ position <+: clientCwd ∨ position <+: daemonCwd := by
  rw [knownDirectory, Bool.or_eq_true, List.isPrefixOf_iff_prefix, List.isPrefixOf_iff_prefix]

theorem knownDirectory_of_isPrefix {p q : List Bytes} (hq : knownDirectory clientCwd daemonCwd q = true) (h : p <+: q) :
    knownDirectory clientCwd daemonCwd p = true :=
  knownDirectory_iff.2 ((knownDirectory_iff.1 hq).imp h.trans h.trans)

variable {fs : FileSystem}

theorem isDirectory_of_isPrefix {p q : List Bytes} (hq : fs.isDirectory q = true) (h : p <+: q) :
    fs.isDirectory p = true := by
  obtain ⟨rest, rfl⟩ := h
  induction rest using List.reverseRecOn with
  | nil => rwa [List.append_nil] at hq
  | append_singleton rest n ih =>
    refine ih ?_
    have := Tree.isDirectory_dropLast hq
    rwa [← List.append_assoc, List.dropLast_concat] at this

theorem isDirectory_of_known (hclient : fs.isDirectory clientCwd = true) (hdaemon : fs.isDirectory daemonCwd = true)
    (p : List Bytes) (hp : knownDirectory clientCwd daemonCwd p = true) : fs.isDirectory p = true :=
  (knownDirectory_iff.1 hp).elim (isDirectory_of_isPrefix hclient) (isDirectory_of_isPrefix hdaemon)

theorem canonicalize_settlePath (hclient : fs.isDirectory clientCwd = true) (hdaemon : fs.isDirectory daemonCwd = true)
    {cwd : List Bytes} (hcwd : fs.isDirectory cwd = true) {path : Bytes} (hpath : path ≠ []) :
    canonicalize fs cwd path =
      fs.resolve (settlePath clientCwd daemonCwd cwd path).1 (settlePath clientCwd daemonCwd cwd path).2 := by
  rw [canonicalize, if_neg hpath]
  refine Tree.walk_settle (isDirectory_of_known hclient hdaemon) ?_ _
  split_ifs
  exacts [Tree.isDirectory_iff.2 fs.root, hcwd]

theorem knownDirectory_settlePath {cwd : List Bytes} (hcwd : knownDirectory clientCwd daemonCwd cwd = true)
    (path : Bytes) : knownDirectory clientCwd daemonCwd (settlePath clientCwd daemonCwd cwd path).1 = true := by
  refine Tree.known_settle (fun p hp => knownDirectory_of_isPrefix hp (List.dropLast_prefix p)) ?_ _
  split_ifs
  exacts [knownDirectory_of_isPrefix hcwd List.nil_prefix, hcwd]

/-- What is left begins with a name that leads out of the known directories. -/
theorem settlePath_cases (cwd : List Bytes) (path : Bytes) :
    (settlePath clientCwd daemonCwd cwd path).2 = [] ∨
      ∃ n rest, (settlePath clientCwd daemonCwd cwd path).2 = .name n :: rest ∧
        knownDirectory clientCwd daemonCwd ((settlePath clientCwd daemonCwd cwd path).1 ++ [n]) = false :=
  Tree.settle_cases _ _

theorem startsWithName_settlePath {cwd : List Bytes} {path : Bytes}
    (hend : EndsInName (settlePath clientCwd daemonCwd cwd path).2) :
    StartsWithName (settlePath clientCwd daemonCwd cwd path).2 := by
  rcases settlePath_cases cwd path with hnil | ⟨n, rest, hleft, -⟩
  · rw [hnil] at hend
    exact absurd hend not_endsInName_nil
  · exact ⟨n, rest, hleft⟩

theorem knownDirectory_client : knownDirectory clientCwd daemonCwd clientCwd = true :=
  knownDirectory_iff.2 (.inl List.prefix_rfl)

theorem knownDirectory_daemon : knownDirectory clientCwd daemonCwd daemonCwd = true :=
  knownDirectory_iff.2 (.inr List.prefix_rfl)

end

theorem exists_length_lt (names : List Bytes) : ∃ N, ∀ n ∈ names, n.length < N := by
  induction names with
  | nil => exact ⟨0, nofun⟩
  | cons n names ih =>
    obtain ⟨N, hN⟩ := ih
    refine ⟨max N (n.length + 1), List.forall_mem_cons.2 ⟨by omega, fun n' hn' => ?_⟩⟩
    have := hN n' hn'
    omega

theorem screenshotMime_png {N : Nat} (hN : 0 < N) :
    screenshotMime [List.replicate N 97 ++ asBytes ".png"] = some "image/png" := by
  have hbytes : List.replicate N 97 ++ asBytes ".png" = List.replicate N 97 ++ [46, 112, 110, 103] :=
    congrArg (List.replicate N 97 ++ ·) (by decide)
  have hafter : ((List.replicate N (97 : UInt8) ++ [46, 112, 110, 103]).reverse.takeWhile (· ≠ 46)).reverse =
      [112, 110, 103] := by
    rw [List.reverse_append]
    rfl
  have hbefore : (List.replicate N (97 : UInt8) ++ [46, 112, 110, 103]).take
      ((List.replicate N (97 : UInt8) ++ [46, 112, 110, 103]).length - 3 - 1) = List.replicate N 97 := by
    rw [List.length_append, List.length_replicate]
    exact List.take_left' (List.length_replicate ..)
  have hne : List.replicate N (97 : UInt8) ≠ [] := by
    intro h
    have := congrArg List.length h
    rw [List.length_replicate, List.length_nil] at this
    omega
  have hextension : extension (List.replicate N 97 ++ asBytes ".png") = some [112, 110, 103] := by
    rw [hbytes, extension]
    simp only [hafter]
    rw [if_neg]
    intro h
    exact hne (hbefore.symm.trans h)
  simp only [screenshotMime, List.getLast?_singleton, Option.bind_eq_bind, Option.bind_some, hextension]
  decide

/-- Whatever is known, and a path that leads out of it: some files are as the path wants them. -/
theorem exists_maze (clientCwd daemonCwd start : List Bytes) (first : Bytes) (rest used : List Bytes) (width : Nat)
    (hstart : knownDirectory clientCwd daemonCwd start = true)
    (hfirst : knownDirectory clientCwd daemonCwd (start ++ [first]) = false) (hused : first ∈ used)
    (hwidth : 0 < width) :
    ∃ m : Maze Bytes, m.known = knownDirectory clientCwd daemonCwd ∧ m.start = start ∧ m.first = first ∧
      m.rest = rest ∧ m.width = width ∧ screenshotMime [m.leaf] = some "image/png" ∧
      ∀ n ∈ used, n ≠ m.fresh ∧ n ≠ m.leaf := by
  obtain ⟨N, hN⟩ := exists_length_lt (clientCwd ++ daemonCwd ++ used)
  have hcwds : ∀ p, knownDirectory clientCwd daemonCwd p = true → ∀ n ∈ p, n.length < N := by
    intro p hp n hn
    refine hN n (List.mem_append_left _ (List.mem_append.2 ?_))
    exact (knownDirectory_iff.1 hp).imp (fun h => h.subset hn) fun h => h.subset hn
  have hfresh : ∀ n : Bytes, n.length < N → n ≠ List.replicate N 97 ∧ n ≠ List.replicate N 97 ++ asBytes ".png" := by
    intro n hn
    refine ⟨?_, ?_⟩ <;> rintro rfl
    · rw [List.length_replicate] at hn
      omega
    · rw [List.length_append, List.length_replicate] at hn
      omega
  have husedN : ∀ n ∈ used, n.length < N := fun n hn => hN n (List.mem_append_right _ hn)
  obtain ⟨hne, hneLeaf⟩ := hfresh first (husedN first hused)
  refine ⟨{
    known := knownDirectory clientCwd daemonCwd
    start, first, rest, width
    fresh := List.replicate N 97
    leaf := List.replicate N 97 ++ asBytes ".png"
    known_nil := knownDirectory_of_isPrefix hstart List.nil_prefix
    known_of_append := fun h => knownDirectory_of_isPrefix h (List.prefix_append _ _)
    known_start := hstart
    unknown_first := hfirst
    fresh_not_mem := fun hp hn => (hfresh _ (hcwds _ hp _ hn)).1 rfl
    leaf_not_mem := fun hp hn => (hfresh _ (hcwds _ hp _ hn)).2 rfl
    first_ne_fresh := hne
    first_ne_leaf := hneLeaf
    fresh_ne_leaf := fun h => by
      have hlength := congrArg List.length h
      rw [List.length_append, show (asBytes ".png").length = 4 by decide] at hlength
      omega
    width_pos := hwidth }, rfl, rfl, rfl, rfl, rfl,
    screenshotMime_png (Nat.zero_lt_of_lt (husedN first hused)), fun n hn => hfresh n (husedN n hn)⟩

section
variable {clientCwd daemonCwd : List Bytes}

/-- The file of the maze, from either working directory. -/
theorem canonicalize_maze {m : Maze Bytes} (hknown : m.known = knownDirectory clientCwd daemonCwd) (file : FileNode)
    {cwd : List Bytes} (hcwd : knownDirectory clientCwd daemonCwd cwd = true) {path : Bytes} (hpath : path ≠ [])
    (hwidth : (settlePath clientCwd daemonCwd cwd path).2.length ≤ m.width)
    (hfresh : ∀ n ∈ names (settlePath clientCwd daemonCwd cwd path).2, n ≠ m.fresh ∧ n ≠ m.leaf) :
    canonicalize (m.tree file) cwd path = some [m.leaf] ↔
      (settlePath clientCwd daemonCwd cwd path).1 = m.start ∧
        names (settlePath clientCwd daemonCwd cwd path).2 = m.first :: m.rest ∧
        EndsInName (settlePath clientCwd daemonCwd cwd path).2 := by
  have hdir : ∀ p, knownDirectory clientCwd daemonCwd p = true → (m.tree file).isDirectory p = true := fun p hp =>
    Maze.isDirectory_of_known (hknown ▸ hp)
  rw [canonicalize_settlePath (hdir _ knownDirectory_client) (hdir _ knownDirectory_daemon) (hdir _ hcwd) hpath]
  refine Maze.resolve_leaf (hknown ▸ knownDirectory_settlePath hcwd path) ?_ hwidth hfresh
  rw [hknown]
  exact settlePath_cases cwd path

/-- Some files are offered, and are those of the client only if it comes to the same place. -/
theorem exists_fileSystem {arg : Bytes} (hne : lossy arg ≠ [])
    (hend : EndsInName (settlePath clientCwd daemonCwd daemonCwd (lossy arg)).2) :
    ∃ (fs : FileSystem) (leaf : Bytes), fs.isDirectory clientCwd = true ∧ fs.isDirectory daemonCwd = true ∧
      fs.node [leaf] = some (.file (.regular [] true)) ∧ screenshotMime [leaf] = some "image/png" ∧
      canonicalize fs daemonCwd (lossy arg) = some [leaf] ∧
      (canonicalize fs clientCwd arg = some [leaf] →
        settlePath clientCwd daemonCwd clientCwd arg = settlePath clientCwd daemonCwd daemonCwd (lossy arg)) := by
  rcases settlePath_cases daemonCwd (lossy arg) with hnil | ⟨first, rest, hleft, hunknown⟩
  · rw [hnil] at hend
    exact absurd hend not_endsInName_nil
  obtain ⟨m, hknown, hstart, hfirst, hrest, hwidth, hmime, hfresh⟩ := exists_maze clientCwd daemonCwd _ first
    (names rest)
    (names (settlePath clientCwd daemonCwd clientCwd arg).2 ++
      names (settlePath clientCwd daemonCwd daemonCwd (lossy arg)).2)
    (max (settlePath clientCwd daemonCwd clientCwd arg).2.length
      (settlePath clientCwd daemonCwd daemonCwd (lossy arg)).2.length)
    (knownDirectory_settlePath knownDirectory_daemon (lossy arg)) hunknown
    (List.mem_append_right _ (by rw [hleft]; exact List.mem_cons_self))
    (lt_max_of_lt_right (by rw [hleft]; exact Nat.succ_pos _))
  have hclientLeaf := canonicalize_maze hknown (.regular [] true) knownDirectory_client (mt lossy_eq_nil.2 hne)
    (hwidth ▸ le_max_left ..) fun n hn => hfresh n (List.mem_append_left _ hn)
  have hdaemonLeaf := canonicalize_maze hknown (.regular [] true) knownDirectory_daemon hne
    (hwidth ▸ le_max_right ..) fun n hn => hfresh n (List.mem_append_right _ hn)
  have hnames : names (settlePath clientCwd daemonCwd daemonCwd (lossy arg)).2 = m.first :: m.rest := by
    rw [hleft, hfirst, hrest]
    rfl
  refine ⟨m.tree (.regular [] true), m.leaf, Maze.isDirectory_of_known (hknown ▸ knownDirectory_client),
    Maze.isDirectory_of_known (hknown ▸ knownDirectory_daemon), Maze.node_leaf, hmime,
    hdaemonLeaf.2 ⟨hstart.symm, hnames, hend⟩, fun hleaf => ?_⟩
  obtain ⟨hplace, hsame, hend'⟩ := hclientLeaf.1 hleaf
  have hsuffix : (settlePath clientCwd daemonCwd daemonCwd (lossy arg)).2 <:+ (parsePath arg).map (map lossy) :=
    parsePath_lossy arg ▸ Tree.settle_suffix _ _
  exact Prod.ext (hplace.trans hstart) (eq_of_names (Tree.settle_suffix _ _) hsuffix
    (startsWithName_settlePath hend') ⟨first, rest, hleft⟩ (hsame.trans hnames.symm))

end

/-! ### The two readings -/

/-- The path names no file, or both processes are led to one place, with the same path from there on. -/
def SamePlace (clientCwd daemonCwd : List Bytes) (arg : Bytes) : Prop :=
  lossy arg = [] ∨ ¬ EndsInName (settlePath clientCwd daemonCwd daemonCwd (lossy arg)).2 ∨
    settlePath clientCwd daemonCwd clientCwd arg = settlePath clientCwd daemonCwd daemonCwd (lossy arg)

section
variable {T : Type} {host : Host T} {moment : Moment T} {d : Daemon} {cwd : List Bytes} {arg : Bytes}

/-- A path in UTF-8 that does not depend on the working directory, or does for two processes in one. -/
theorem SamePlace.of_utf8 {daemonCwd : List Bytes} (hutf8 : lossy arg = arg)
    (h : isAbsolute arg = true ∨ cwd = daemonCwd) : SamePlace cwd daemonCwd arg := by
  refine .inr (.inr ?_)
  unfold settlePath
  rw [hutf8]
  rcases h with habsolute | rfl
  · rw [if_pos habsolute, if_pos habsolute]
  · rfl

theorem dispatch_offerScreenshot {path : String} {d' : Daemon} :
    dispatch host moment d (.offerScreenshot path) = (.ok, d') ↔
      ∃ payloads, screenshotPayloads moment.fs host.cwd path = .ok payloads ∧
        d' = { d with offers := d.offers ++ [payloads] } := by
  rw [dispatch]
  cases screenshotPayloads moment.fs host.cwd path with
  | error e => exact iff_of_false nofun nofun
  | ok payloads =>
    constructor
    · intro h
      cases h
      exact ⟨payloads, rfl, rfl⟩
    · rintro ⟨_, ⟨⟩, rfl⟩
      rfl

theorem SamePlace.sameFile (h : SamePlace cwd host.cwd arg) : SameFile host moment d cwd arg := by
  intro fs hclient hdaemon d' hd
  obtain ⟨payloads, hpayloads, rfl⟩ := dispatch_offerScreenshot.1 hd
  obtain ⟨position, data, mime, hposition, hnode, -, hmime, rfl⟩ := screenshotPayloads_ok.1 hpayloads
  refine ⟨position, _, rfl, ⟨data, mime, hnode, hmime, rfl⟩, hposition, ?_⟩
  have hne : lossy arg ≠ [] := fun hnil => by
    rw [show asBytes (fromUtf8Lossy arg) = [] from hnil, canonicalize, if_pos rfl] at hposition
    cases hposition
  have hresolve := canonicalize_settlePath hclient hdaemon hdaemon hne
  rw [lossy, hposition] at hresolve
  rcases h with hnil | hdirectory | hsame
  · exact absurd hnil hne
  · have hstart := isDirectory_of_known hclient hdaemon _ (knownDirectory_settlePath knownDirectory_daemon (lossy arg))
    have hdir := Tree.isDirectory_of_walk hstart hdirectory hresolve.symm
    rw [Tree.isDirectory_iff, hnode] at hdir
    cases hdir
  · rw [canonicalize_settlePath hclient hdaemon hclient (mt lossy_eq_nil.2 hne), hsame]
    exact hresolve.symm

theorem SameFile.samePlace (h : SameFile host moment d cwd arg) : SamePlace cwd host.cwd arg := by
  by_contra hnot
  rw [SamePlace, not_or, not_or, not_not] at hnot
  obtain ⟨hne, hend, hdiff⟩ := hnot
  obtain ⟨fs, leaf, hclient, hdaemon, hnode, hmime, hposition, hsame⟩ := exists_fileSystem hne hend
  obtain ⟨position, payloads, -, -, hdaemonPosition, hclientPosition⟩ := h fs hclient hdaemon _
    (dispatch_offerScreenshot.2 ⟨_, screenshotPayloads_ok.2 ⟨[leaf], [], "image/png", hposition, hnode,
      Nat.zero_le _, hmime, rfl⟩, rfl⟩)
  obtain rfl := Option.some.inj (hposition.symm.trans hdaemonPosition)
  exact hdiff (hsame hclientPosition)

end

/-- The daemon's answer is for the client's file, whatever the files are, if and only if the path names no file, or
both are led to one place with the same path left. -/
theorem sameFile_iff {T : Type} (host : Host T) (moment : Moment T) (d : Daemon) (cwd : List Bytes) (arg : Bytes) :
    SameFile host moment d cwd arg ↔ SamePlace cwd host.cwd arg :=
  ⟨SameFile.samePlace, SamePlace.sameFile⟩

/-! ### Two files of one name -/

def twoShots : FileSystem where
  node position :=
    if position = [] ∨ position = [asBytes "home"] then some .directory
    else if position = [asBytes "a.png"] then some (.file (.regular [1] true))
    else if position = [asBytes "home", asBytes "a.png"] then some (.file (.regular [2] true))
    else none
  maxLinks := 40
  root := rfl
  parent {position name} h := by
    split_ifs at h with hdirectory hshot hhome
    · rcases hdirectory with hnil | hname
      · exact absurd hnil (List.append_ne_nil_of_right_ne_nil position (List.cons_ne_nil name []))
      · exact if_pos (.inl (List.append_inj' (show _ = [] ++ [_] from hname) rfl).1)
    · exact if_pos (.inl (List.append_inj' (show _ = [] ++ [_] from hshot) rfl).1)
    · exact if_pos (.inr (List.append_inj' (show _ = [asBytes "home"] ++ [_] from hhome) rfl).1)
    · exact absurd rfl h

/-- `mimeclip screenshot a.png` in `/home`, with the daemon in `/`. -/
theorem relative_path_parted :
    canonicalize twoShots sampleHost.cwd (asBytes "a.png") = some [asBytes "a.png"] ∧
    canonicalize twoShots [asBytes "home"] (asBytes "a.png") = some [asBytes "home", asBytes "a.png"] ∧
    ¬ SameFile sampleHost sampleMoment sampleDaemon [asBytes "home"] (asBytes "a.png") := by
  have hdaemon : canonicalize twoShots sampleHost.cwd (asBytes "a.png") = some [asBytes "a.png"] := by decide
  have hclient : canonicalize twoShots [asBytes "home"] (asBytes "a.png") = some [asBytes "home", asBytes "a.png"] := by
    decide
  refine ⟨hdaemon, hclient, fun h => ?_⟩
  have hpayloads : screenshotPayloads twoShots sampleHost.cwd (fromUtf8Lossy (asBytes "a.png")) = .ok _ :=
    screenshotPayloads_ok.2 ⟨_, [1], "image/png", by rw [fromUtf8Lossy_asBytes]; exact hdaemon, rfl, by decide,
      by decide, rfl⟩
  obtain ⟨position, payloads, -, -, hdaemon', hclient'⟩ :=
    h twoShots (by decide) (by decide) _ (dispatch_offerScreenshot.2 ⟨_, hpayloads, rfl⟩)
  rw [fromUtf8Lossy_asBytes, hdaemon] at hdaemon'
  rw [hclient, ← hdaemon'] at hclient'
  exact absurd (congrArg (·.map List.length) hclient') (by decide)

end Mimeclip
