import Mathlib.Data.List.Infix
import Mathlib.Tactic.Common

/-!
# Path resolution

A directory tree with symbolic links, and `walk`, which takes a path component by component: a name goes down,
a link puts its target in front of what is left. A position is the list of names that lead to it from the root.

A walk does not depend on how it begins, as long as that is in directories one knows of (`walk_settle`), and a path
that does not end in a name leads to a directory (`isDirectory_of_walk`). The names of a path and of a renaming of it
tell whether what is left of them is the same (`Component.eq_of_names`).
-/

namespace Paths

inductive Component (ν : Type*)
  | current
  | parent
  | name (n : ν)
deriving DecidableEq

inductive Node (ν φ : Type*)
  | directory
  | file (data : φ)
  | link (absolute : Bool) (target : List (Component ν))

/-- At most `maxLinks` links are followed on the way. -/
structure Tree (ν φ : Type*) where
  node : List ν → Option (Node ν φ)
  maxLinks : Nat
  root : node [] = some .directory
  parent {p : List ν} {n : ν} : node (p ++ [n]) ≠ none → node p = some .directory

variable {ν φ : Type*}

namespace Component

def name? : Component ν → Option ν
  | name n => some n
  | _ => none

def names (cs : List (Component ν)) : List ν := cs.filterMap name?

/-- The path can name something that is not a directory. -/
def EndsInName (cs : List (Component ν)) : Prop := ∃ n, cs.getLast? = some (name n)

def StartsWithName (cs : List (Component ν)) : Prop := ∃ n rest, cs = name n :: rest

/-- A renaming. -/
def map (f : ν → ν) : Component ν → Component ν
  | current => current
  | parent => parent
  | name n => name (f n)

section
variable {c : Component ν} {cs before : List (Component ν)}

theorem EndsInName.append (h : EndsInName cs) (before : List (Component ν)) : EndsInName (before ++ cs) := by
  obtain ⟨n, hn⟩ := h
  exact ⟨n, by rw [List.getLast?_append, hn]; rfl⟩

theorem EndsInName.of_append (h : EndsInName (before ++ cs)) (hcs : cs ≠ []) : EndsInName cs := by
  obtain ⟨n, hn⟩ := h
  rw [List.getLast?_append_of_ne_nil _ hcs] at hn
  exact ⟨n, hn⟩

theorem endsInName_cons (h : cs ≠ []) : EndsInName (c :: cs) ↔ EndsInName cs := by
  rw [EndsInName, EndsInName, List.getLast?_cons, List.getLast?_eq_some_getLast h]
  rfl

theorem not_endsInName_nil : ¬ EndsInName ([] : List (Component ν)) := by
  rintro ⟨n, hn⟩
  cases hn

theorem endsInName_cons_of_ne (hc : ∀ n, c ≠ name n) : EndsInName (c :: cs) ↔ EndsInName cs := by
  cases cs with
  | nil =>
    refine iff_of_false ?_ not_endsInName_nil
    rintro ⟨n, hn⟩
    exact hc n (Option.some.inj hn)
  | cons c' cs => exact endsInName_cons (List.cons_ne_nil c' cs)

theorem names_ne_nil (h : EndsInName cs) : names cs ≠ [] := by
  obtain ⟨n, hn⟩ := h
  exact List.ne_nil_of_mem (List.mem_filterMap.2 ⟨name n, List.mem_of_getLast? hn, rfl⟩)

variable {f : ν → ν} {ds es : List (Component ν)}

theorem names_map : names (cs.map (map f)) = (names cs).map f := by
  rw [names, names, List.filterMap_map, List.map_filterMap]
  refine List.filterMap_congr fun c _ => ?_
  cases c <;> rfl

theorem eq_of_suffix (hsuffix : ds <:+ es) (hes : StartsWithName es) (hlength : (names ds).length = (names es).length) :
    ds = es := by
  obtain ⟨before, rfl⟩ := hsuffix
  cases before with
  | nil => rfl
  | cons c before =>
    obtain ⟨n, rest, heq⟩ := hes
    cases heq
    rw [List.cons_append, names, names, List.filterMap_cons_some (show (name n).name? = some n from rfl),
      List.filterMap_append, List.length_cons, List.length_append] at hlength
    omega

theorem map_eq_self (h : (names cs).map f = names cs) : cs.map (map f) = cs := by
  induction cs with
  | nil => rfl
  | cons c cs ih =>
    cases c with
    | current | parent => rw [List.map_cons, ih h]; rfl
    | name n =>
      obtain ⟨hn, hrest⟩ := List.cons.inj h
      rw [List.map_cons, ih hrest, map, hn]

/-- What is left of a path and of a renaming of it is the same, if it has the same names. -/
theorem eq_of_names (hds : ds <:+ cs) (hes : es <:+ cs.map (map f)) (hds' : StartsWithName ds)
    (hes' : StartsWithName es) (hnames : names ds = names es) : ds = es := by
  obtain ⟨es, hes₀, rfl⟩ := List.suffix_map_iff.1 hes
  rw [names_map] at hnames
  have hlength : (names ds).length = (names es).length := by rw [hnames, List.length_map]
  have hstart : StartsWithName es := by
    obtain ⟨n, rest, hn⟩ := hes'
    cases es with
    | nil => cases hn
    | cons c es => cases c <;> cases hn; exact ⟨_, es, rfl⟩
  have heq : ds = es := by
    rcases List.suffix_or_suffix_of_suffix hds hes₀ with h | h
    · exact eq_of_suffix h hstart hlength
    · exact (eq_of_suffix h hds' hlength.symm).symm
  subst heq
  exact (map_eq_self hnames.symm).symm

end

end Component

namespace Tree

variable (t : Tree ν φ)

def isDirectory (p : List ν) : Bool :=
  match t.node p with
  | some .directory => true
  | _ => false

/-- One pass; `follow` goes on from where a link is met. -/
def walkWith (follow : List ν → List (Component ν) → Option (List ν)) :
    List ν → List (Component ν) → Option (List ν)
  | p, [] => some p
  | p, .current :: cs => if t.isDirectory p then walkWith follow p cs else none
  | p, .parent :: cs => if t.isDirectory p then walkWith follow p.dropLast cs else none
  | p, .name n :: cs =>
    match t.node (p ++ [n]) with
    | none => none
    | some (.link absolute target) => follow (if absolute then [] else p) (target ++ cs)
    | some _ => walkWith follow (p ++ [n]) cs

/-- The position that a path leads to from `p`, through at most `links` links. -/
def walk : Nat → List ν → List (Component ν) → Option (List ν)
  | 0 => t.walkWith fun _ _ => none
  | links + 1 => t.walkWith (walk links)

def resolve (p : List ν) (cs : List (Component ν)) : Option (List ν) := t.walk t.maxLinks p cs

/-! ### Rules -/

variable {t} {links : Nat} {p q : List ν} {n : ν} {cs : List (Component ν)}

theorem walkWith_current (follow : List ν → List (Component ν) → Option (List ν)) :
    t.walkWith follow p (.current :: cs) = if t.isDirectory p then t.walkWith follow p cs else none := rfl

theorem walkWith_parent (follow : List ν → List (Component ν) → Option (List ν)) :
    t.walkWith follow p (.parent :: cs) = if t.isDirectory p then t.walkWith follow p.dropLast cs else none := rfl

theorem walkWith_name (follow : List ν → List (Component ν) → Option (List ν)) :
    t.walkWith follow p (.name n :: cs) =
      match t.node (p ++ [n]) with
      | none => none
      | some (.link absolute target) => follow (if absolute then [] else p) (target ++ cs)
      | some _ => t.walkWith follow (p ++ [n]) cs := rfl

theorem isDirectory_iff : t.isDirectory p = true ↔ t.node p = some .directory := by
  rw [isDirectory]
  rcases t.node p with - | (_ | _ | _) <;> simp

theorem walk_nil : t.walk links p [] = some p := by
  cases links <;> rfl

theorem walk_current (h : t.isDirectory p = true) : t.walk links p (.current :: cs) = t.walk links p cs := by
  cases links <;> rw [walk, walkWith_current, if_pos h]

theorem walk_parent (h : t.isDirectory p = true) :
    t.walk links p (.parent :: cs) = t.walk links p.dropLast cs := by
  cases links <;> rw [walk, walkWith_parent, if_pos h]

theorem walk_current_ne (h : t.isDirectory p = false) : t.walk links p (.current :: cs) = none := by
  cases links <;> rw [walk, walkWith_current, if_neg (Bool.eq_false_iff.1 h)]

theorem walk_parent_ne (h : t.isDirectory p = false) : t.walk links p (.parent :: cs) = none := by
  cases links <;> rw [walk, walkWith_parent, if_neg (Bool.eq_false_iff.1 h)]

theorem walk_missing (h : t.node (p ++ [n]) = none) : t.walk links p (.name n :: cs) = none := by
  cases links <;> rw [walk, walkWith_name, h]

theorem walk_directory (h : t.isDirectory (p ++ [n]) = true) :
    t.walk links p (.name n :: cs) = t.walk links (p ++ [n]) cs := by
  rw [isDirectory_iff] at h
  cases links <;> rw [walk, walkWith_name, h]

theorem walk_file {data : φ} (h : t.node (p ++ [n]) = some (.file data)) :
    t.walk links p (.name n :: cs) = t.walk links (p ++ [n]) cs := by
  cases links <;> rw [walk, walkWith_name, h]

theorem walk_link {absolute : Bool} {target : List (Component ν)}
    (h : t.node (p ++ [n]) = some (.link absolute target)) :
    t.walk (links + 1) p (.name n :: cs) = t.walk links (if absolute then [] else p) (target ++ cs) := by
  rw [walk, walkWith_name, h]

theorem walk_link_zero {absolute : Bool} {target : List (Component ν)}
    (h : t.node (p ++ [n]) = some (.link absolute target)) : t.walk 0 p (.name n :: cs) = none := by
  rw [walk, walkWith_name, h]

theorem isDirectory_dropLast (h : t.isDirectory p = true) : t.isDirectory p.dropLast = true := by
  rw [isDirectory_iff] at h ⊢
  rcases List.eq_nil_or_concat p with rfl | ⟨q, n, rfl⟩
  · exact t.root
  · rw [List.concat_eq_append] at h ⊢
    rw [List.dropLast_concat]
    exact t.parent (h ▸ Option.some_ne_none _)

/-! ### Where a path leads -/

theorem walk_stuck (hp : t.isDirectory p = false) (hcs : cs ≠ []) : t.walk links p cs = none := by
  cases cs with
  | nil => exact absurd rfl hcs
  | cons c cs =>
    cases c with
    | current => exact walk_current_ne hp
    | parent => exact walk_parent_ne hp
    | name n =>
      refine walk_missing (by_contra fun hn => ?_)
      rw [isDirectory_iff.2 (t.parent hn)] at hp
      cases hp

/-- A path that does not end in a name leads from a directory to a directory. -/
theorem isDirectory_of_walk (hp : t.isDirectory p = true) (hcs : ¬ Component.EndsInName cs)
    (h : t.walk links p cs = some q) : t.isDirectory q = true := by
  induction links using Nat.strong_induction_on generalizing p cs with
  | _ links ihl =>
    induction cs generalizing p with
    | nil =>
      rw [walk_nil] at h
      exact Option.some.inj h ▸ hp
    | cons c cs ih =>
      have hcs' : ¬ Component.EndsInName cs := fun hend => hcs (hend.append [c])
      cases c with
      | current =>
        rw [walk_current hp] at h
        exact ih hp hcs' h
      | parent =>
        rw [walk_parent hp] at h
        exact ih (isDirectory_dropLast hp) hcs' h
      | name n =>
        have hne : cs ≠ [] := by
          rintro rfl
          exact hcs ⟨n, rfl⟩
        cases hn : t.node (p ++ [n]) with
        | none =>
          rw [walk_missing hn] at h
          cases h
        | some node =>
          cases node with
          | directory =>
            have hdir := isDirectory_iff.2 hn
            rw [walk_directory hdir] at h
            exact ih hdir hcs' h
          | file data =>
            rw [walk_file hn, walk_stuck (by rw [isDirectory, hn]) hne] at h
            cases h
          | link absolute target =>
            cases links with
            | zero =>
              rw [walk_link_zero hn] at h
              cases h
            | succ links =>
              rw [walk_link hn] at h
              refine ihl links (Nat.lt_succ_self links) ?_ (fun hend => hcs' (hend.of_append hne)) h
              split_ifs
              exacts [isDirectory_iff.2 t.root, hp]

/-- The components up to the first that leaves what is known. -/
def settle (known : List ν → Bool) : List ν → List (Component ν) → List ν × List (Component ν)
  | p, [] => (p, [])
  | p, .current :: cs => settle known p cs
  | p, .parent :: cs => settle known p.dropLast cs
  | p, .name n :: cs => if known (p ++ [n]) then settle known (p ++ [n]) cs else (p, .name n :: cs)

section
variable {known : List ν → Bool}

theorem walk_settle (hknown : ∀ p, known p = true → t.isDirectory p = true) (hp : t.isDirectory p = true)
    (cs : List (Component ν)) : t.walk links p cs = t.walk links (settle known p cs).1 (settle known p cs).2 := by
  induction cs generalizing p with
  | nil => rfl
  | cons c cs ih =>
    cases c with
    | current => rw [walk_current hp, settle, ih hp]
    | parent => rw [walk_parent hp, settle, ih (isDirectory_dropLast hp)]
    | name n =>
      rw [settle]
      split_ifs with hn
      · rw [walk_directory (hknown _ hn), ih (hknown _ hn)]
      · rfl

theorem known_settle (hdrop : ∀ p, known p = true → known p.dropLast = true) (hp : known p = true)
    (cs : List (Component ν)) : known (settle known p cs).1 = true := by
  induction cs generalizing p with
  | nil => exact hp
  | cons c cs ih =>
    cases c with
    | current => exact ih hp
    | parent => exact ih (hdrop p hp)
    | name n =>
      rw [settle]
      split_ifs with hn
      exacts [ih hn, hp]

theorem settle_suffix (p : List ν) (cs : List (Component ν)) : (settle known p cs).2 <:+ cs := by
  induction cs generalizing p with
  | nil => exact List.suffix_rfl
  | cons c cs ih =>
    cases c with
    | current => exact (ih p).trans (List.suffix_cons _ cs)
    | parent => exact (ih _).trans (List.suffix_cons _ cs)
    | name n =>
      rw [settle]
      split_ifs
      exacts [(ih _).trans (List.suffix_cons _ cs), List.suffix_rfl]

/-- What is left begins with a name that leads out of what is known. -/
theorem settle_cases (p : List ν) (cs : List (Component ν)) :
    (settle known p cs).2 = [] ∨ ∃ n rest, (settle known p cs).2 = .name n :: rest ∧
      known ((settle known p cs).1 ++ [n]) = false := by
  induction cs generalizing p with
  | nil => exact .inl rfl
  | cons c cs ih =>
    cases c with
    | current => exact ih p
    | parent => exact ih _
    | name n =>
      rw [settle]
      split_ifs with hn
      · exact ih _
      · exact .inr ⟨n, cs, rfl, Bool.eq_false_iff.2 hn⟩

end

end Tree

end Paths
