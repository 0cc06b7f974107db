import Mimeclip.Lib.Paths

/-!
# Changing a directory tree

`set` puts a node at a position of a directory, or takes away what is there, unless that is a directory. A walk depends
on the directories and links it meets: where a tree has kept these, a path leads where it led, whatever else has come
(`Keeps.resolve`). A path is walked in parts (`Walks.exists_append`), so what its last name leads to is told by where
the rest leads and what is there (`walk_concat`).
-/

namespace Paths

variable {ν φ : Type*}

/-- The nodes are of one kind; a file may have other data. -/
inductive Node.Alike : Node ν φ → Node ν φ → Prop
  | directory : Alike .directory .directory
  | file (data data' : φ) : Alike (.file data) (.file data')
  | link (absolute : Bool) (target : List (Component ν)) : Alike (.link absolute target) (.link absolute target)

theorem Node.Alike.refl (v : Node ν φ) : v.Alike v := by
  cases v
  exacts [.directory, .file _ _, .link _ _]

namespace Tree

/-- The steps of a walk that leads somewhere. -/
inductive Walks (t : Tree ν φ) : Nat → List ν → List (Component ν) → List ν → Prop
  | nil {links p} : Walks t links p [] p
  | current {links p cs q} (hp : t.isDirectory p = true) (h : Walks t links p cs q) :
      Walks t links p (.current :: cs) q
  | parent {links p cs q} (hp : t.isDirectory p = true) (h : Walks t links p.dropLast cs q) :
      Walks t links p (.parent :: cs) q
  | name {links p n cs q v} (hn : t.node (p ++ [n]) = some v) (hv : ∀ absolute target, v ≠ .link absolute target)
      (h : Walks t links (p ++ [n]) cs q) : Walks t links p (.name n :: cs) q
  | link {links p n cs q absolute target} (hn : t.node (p ++ [n]) = some (.link absolute target))
      (h : Walks t links (if absolute then [] else p) (target ++ cs) q) : Walks t (links + 1) p (.name n :: cs) q

/-- Everything that is in `t` is in `t'`, but for some files. -/
structure Keeps (lost : List ν → Prop) (t t' : Tree ν φ) : Prop where
  node : ∀ q v, ¬ lost q → t.node q = some v → ∃ v', t'.node q = some v' ∧ v.Alike v'
  file : ∀ q v, lost q → t.node q = some v → ∃ data, v = .file data

variable {t t' : Tree ν φ} {links : Nat} {p q : List ν} {n : ν} {cs ds : List (Component ν)}

/-! ### Setting a node -/

section
variable [DecidableEq ν]

/-- The position is in a directory, and there is no directory there. -/
def Settable (t : Tree ν φ) (p : List ν) : Prop :=
  p ≠ [] ∧ t.isDirectory p.dropLast = true ∧ t.isDirectory p = false

instance (t : Tree ν φ) (p : List ν) : Decidable (t.Settable p) :=
  inferInstanceAs (Decidable (p ≠ [] ∧ t.isDirectory p.dropLast = true ∧ t.isDirectory p = false))

def set (t : Tree ν φ) (p : List ν) (v : Option (Node ν φ)) (h : t.Settable p) : Tree ν φ where
  node q := if q = p then v else t.node q
  maxLinks := t.maxLinks
  root := by rw [if_neg h.1.symm, t.root]
  parent := by
    intro q n hn
    have hqp : q ≠ p := by
      rintro rfl
      have hlen : q ++ [n] ≠ q := fun heq => by simpa using congrArg List.length heq
      rw [if_neg hlen] at hn
      have hdir := isDirectory_iff.2 (t.parent hn)
      rw [h.2.2] at hdir
      cases hdir
    rw [if_neg hqp]
    split_ifs at hn with heq
    · obtain rfl : q = p.dropLast := by rw [← heq, List.dropLast_concat]
      exact isDirectory_iff.1 h.2.1
    · exact t.parent hn

variable {v : Option (Node ν φ)} {h : t.Settable p}

theorem node_set_self : (t.set p v h).node p = v := if_pos rfl

theorem node_set_ne (hq : q ≠ p) : (t.set p v h).node q = t.node q := if_neg hq

omit [DecidableEq ν] in
theorem settable_concat (hp : t.isDirectory p = true) (hn : t.isDirectory (p ++ [n]) = false) :
    t.Settable (p ++ [n]) :=
  ⟨List.concat_ne_nil n p, by rwa [List.dropLast_concat], hn⟩

end

/-! ### Where nodes can be -/

theorem isDirectory_eq_false (h : t.node p ≠ some .directory) : t.isDirectory p = false :=
  Bool.eq_false_iff.2 fun hp => h (isDirectory_iff.1 hp)

theorem settable_of_node {v : Node ν φ} (h : t.node p = some v) (hv : v ≠ .directory) : t.Settable p := by
  have hdir : t.isDirectory p = false := isDirectory_eq_false fun hp => hv (Option.some.inj (h.symm.trans hp))
  rcases List.eq_nil_or_concat p with rfl | ⟨q, n, rfl⟩
  · rw [isDirectory_iff.2 t.root] at hdir
    cases hdir
  · rw [List.concat_eq_append] at h hdir ⊢
    exact settable_concat (isDirectory_iff.2 (t.parent (h ▸ Option.some_ne_none v))) hdir

/-- Below what is no directory there is nothing. -/
theorem node_eq_none_of_isPrefix (hp : t.node p ≠ some .directory) (hpq : p <+: q) (hne : q ≠ p) : t.node q = none := by
  obtain ⟨rest, rfl⟩ := hpq
  induction rest using List.reverseRecOn with
  | nil => exact absurd (List.append_nil p) hne
  | append_singleton rest n ih =>
    rw [← List.append_assoc]
    by_contra hn
    have hdir := t.parent hn
    by_cases hrest : p ++ rest = p
    · rw [hrest] at hdir
      exact hp hdir
    · rw [ih hrest] at hdir
      cases hdir

theorem isDirectory_of_isPrefix (hq : t.node q ≠ none) (h : p <+: q) (hne : q ≠ p) : t.isDirectory p = true := by
  by_contra hp
  exact hq (node_eq_none_of_isPrefix (fun hnode => hp (isDirectory_iff.2 hnode)) h hne)

/-! ### Walks -/

theorem walk_name {v : Node ν φ} (hn : t.node (p ++ [n]) = some v) (hv : ∀ absolute target, v ≠ .link absolute target) :
    t.walk links p (.name n :: cs) = t.walk links (p ++ [n]) cs := by
  cases v with
  | directory => exact walk_directory (isDirectory_iff.2 hn)
  | file data => exact walk_file hn
  | link absolute target => exact absurd rfl (hv absolute target)

theorem Walks.walk_eq (h : t.Walks links p cs q) : t.walk links p cs = some q := by
  induction h with
  | nil => exact walk_nil
  | current hp _ ih => rw [walk_current hp, ih]
  | parent hp _ ih => rw [walk_parent hp, ih]
  | name hn hv _ ih => rw [walk_name hn hv, ih]
  | link hn _ ih => rw [walk_link hn, ih]

theorem walks_of_walk (h : t.walk links p cs = some q) : t.Walks links p cs q := by
  induction links using Nat.strong_induction_on generalizing p cs with
  | _ links ihl =>
    induction cs generalizing p with
    | nil =>
      rw [walk_nil] at h
      exact Option.some.inj h ▸ .nil
    | cons c cs ih =>
      cases c with
      | current =>
        cases hp : t.isDirectory p with
        | true => exact .current hp (ih (by rwa [walk_current hp] at h))
        | false => rw [walk_current_ne hp] at h; cases h
      | parent =>
        cases hp : t.isDirectory p with
        | true => exact .parent hp (ih (by rwa [walk_parent hp] at h))
        | false => rw [walk_parent_ne hp] at h; cases h
      | name n =>
        cases hn : t.node (p ++ [n]) with
        | none => rw [walk_missing hn] at h; cases h
        | some v =>
          cases v with
          | directory => exact .name hn nofun (ih (by rwa [walk_name hn nofun] at h))
          | file data => exact .name hn nofun (ih (by rwa [walk_name hn nofun] at h))
          | link absolute target =>
            cases links with
            | zero => rw [walk_link_zero hn] at h; cases h
            | succ links =>
              rw [walk_link hn] at h
              exact .link hn (ihl links (Nat.lt_succ_self links) h)

/-- What a walk leads to is there, and no link. -/
theorem Walks.node (h : t.Walks links p cs q)
    (hp : ∃ v, t.node p = some v ∧ ∀ absolute target, v ≠ .link absolute target) :
    ∃ v, t.node q = some v ∧ ∀ absolute target, v ≠ .link absolute target := by
  have hdirectory : ∀ p, t.isDirectory p = true →
      ∃ v, t.node p = some v ∧ ∀ absolute target, v ≠ .link absolute target :=
    fun p hp => ⟨_, isDirectory_iff.1 hp, nofun⟩
  induction h with
  | nil => exact hp
  | current _ _ ih => exact ih hp
  | parent hdir _ ih => exact ih (hdirectory _ (isDirectory_dropLast hdir))
  | name hn hv _ ih => exact ih ⟨_, hn, hv⟩
  | @link _ p _ _ _ absolute _ hn _ ih =>
    refine ih ?_
    cases absolute with
    | true => exact hdirectory [] (isDirectory_iff.2 t.root)
    | false => exact hp

/-- The names of a directory lead to it. -/
theorem walk_names (h : t.isDirectory q = true) : t.walk links [] (q.map .name) = some q := by
  have hstep : ∀ (rest p : List ν), p ++ rest = q → t.Walks links p (rest.map .name) q := by
    intro rest
    induction rest with
    | nil =>
      intro p hp
      rw [List.append_nil] at hp
      exact hp ▸ .nil
    | cons n rest ih =>
      intro p hp
      have happend : (p ++ [n]) ++ rest = q := by rw [← hp, List.append_assoc, List.singleton_append]
      refine .name (isDirectory_iff.1 ?_) nofun (ih (p ++ [n]) happend)
      by_cases hrest : rest = []
      · rw [hrest, List.append_nil] at happend
        rwa [happend]
      · refine isDirectory_of_isPrefix (q := q) ?_ ⟨rest, happend⟩ fun heq => hrest ?_
        · rw [isDirectory_iff.1 h]
          exact Option.some_ne_none _
        · rw [← heq] at happend
          exact List.append_right_eq_self.1 happend
  exact (hstep q [] rfl).walk_eq

/-! ### Walking in parts -/

/-- What is left of a path goes on from where its beginning leads. -/
theorem Walks.exists_append (h : t.Walks links p cs q) :
    ∃ left, ∀ ds, t.walk links p (cs ++ ds) = t.walk left q ds := by
  induction h with
  | @nil links p => exact ⟨links, fun ds => rfl⟩
  | current hp _ ih =>
    obtain ⟨left, hleft⟩ := ih
    exact ⟨left, fun ds => by rw [List.cons_append, walk_current hp, hleft]⟩
  | parent hp _ ih =>
    obtain ⟨left, hleft⟩ := ih
    exact ⟨left, fun ds => by rw [List.cons_append, walk_parent hp, hleft]⟩
  | name hn hv _ ih =>
    obtain ⟨left, hleft⟩ := ih
    exact ⟨left, fun ds => by rw [List.cons_append, walk_name hn hv, hleft]⟩
  | link hn _ ih =>
    obtain ⟨left, hleft⟩ := ih
    exact ⟨left, fun ds => by rw [List.cons_append, walk_link hn, ← List.append_assoc, hleft]⟩

theorem Walks.exists_start {r : List ν} (h : t.Walks links p (cs ++ ds) r) : ∃ q, t.Walks links p cs q := by
  generalize hes : cs ++ ds = es at h
  induction h generalizing cs with
  | nil =>
    obtain ⟨rfl, rfl⟩ := List.append_eq_nil_iff.1 hes
    exact ⟨_, .nil⟩
  | current hp _ ih =>
    rcases List.append_eq_cons_iff.1 hes with ⟨rfl, -⟩ | ⟨cs, rfl, rfl⟩
    · exact ⟨_, .nil⟩
    · obtain ⟨q, hq⟩ := ih rfl
      exact ⟨q, .current hp hq⟩
  | parent hp _ ih =>
    rcases List.append_eq_cons_iff.1 hes with ⟨rfl, -⟩ | ⟨cs, rfl, rfl⟩
    · exact ⟨_, .nil⟩
    · obtain ⟨q, hq⟩ := ih rfl
      exact ⟨q, .parent hp hq⟩
  | name hn hv _ ih =>
    rcases List.append_eq_cons_iff.1 hes with ⟨rfl, -⟩ | ⟨cs, rfl, rfl⟩
    · exact ⟨_, .nil⟩
    · obtain ⟨q, hq⟩ := ih rfl
      exact ⟨q, .name hn hv hq⟩
  | link hn _ ih =>
    rcases List.append_eq_cons_iff.1 hes with ⟨rfl, -⟩ | ⟨cs, rfl, rfl⟩
    · exact ⟨_, .nil⟩
    · obtain ⟨q, hq⟩ := ih (List.append_assoc ..)
      exact ⟨q, .link hn hq⟩

theorem walk_append_none (h : t.walk links p cs = none) (ds : List (Component ν)) :
    t.walk links p (cs ++ ds) = none := by
  cases hr : t.walk links p (cs ++ ds) with
  | none => rfl
  | some r =>
    obtain ⟨q, hq⟩ := (walks_of_walk hr).exists_start
    rw [hq.walk_eq] at h
    cases h

/-- A last name that is no link. -/
theorem walk_concat (h : t.walk links p cs = some q)
    (hlink : ∀ absolute target, t.node (q ++ [n]) ≠ some (.link absolute target)) :
    t.walk links p (cs ++ [.name n]) = (t.node (q ++ [n])).map fun _ => q ++ [n] := by
  obtain ⟨left, hleft⟩ := (walks_of_walk h).exists_append
  rw [hleft]
  cases hn : t.node (q ++ [n]) with
  | none => rw [walk_missing hn, Option.map_none]
  | some v =>
    rw [walk_name hn, walk_nil, Option.map_some]
    rintro absolute target rfl
    exact hlink absolute target hn

theorem walk_concat_current (h : t.walk links p cs = some q) :
    t.walk links p (cs ++ [.current]) = if t.isDirectory q then some q else none := by
  obtain ⟨left, hleft⟩ := (walks_of_walk h).exists_append
  rw [hleft]
  split_ifs with hq
  · rw [walk_current hq, walk_nil]
  · exact walk_current_ne (Bool.eq_false_iff.2 hq)

/-! ### Trees that agree -/

section
variable {lost : List ν → Prop}

theorem Keeps.isDirectory (h : t.Keeps lost t') (hp : t.isDirectory p = true) : t'.isDirectory p = true := by
  have hnode := isDirectory_iff.1 hp
  have hkept : ¬ lost p := by
    intro hlost
    obtain ⟨data, hdata⟩ := h.file p _ hlost hnode
    cases hdata
  obtain ⟨v', hv', halike⟩ := h.node p _ hkept hnode
  cases halike
  exact isDirectory_iff.2 hv'

theorem Keeps.walks (h : t.Keeps lost t') (hwalk : t.Walks links p cs q) (hq : ¬ lost q) :
    t'.Walks links p cs q := by
  induction hwalk with
  | nil => exact .nil
  | current hp _ ih => exact .current (h.isDirectory hp) (ih hq)
  | parent hp _ ih => exact .parent (h.isDirectory hp) (ih hq)
  | @name links p n cs q v hn hv hrest ih =>
    by_cases hlost : lost (p ++ [n])
    · -- nothing is below a file, so the walk ends there
      obtain ⟨data, rfl⟩ := h.file _ _ hlost hn
      have hcs : cs = [] := by
        by_contra hcs
        have hstuck : t.walk links (p ++ [n]) cs = none := walk_stuck (by rw [Tree.isDirectory, hn]) hcs
        rw [hrest.walk_eq] at hstuck
        cases hstuck
      subst hcs
      cases hrest
      exact absurd hlost hq
    · obtain ⟨v', hv', halike⟩ := h.node _ _ hlost hn
      refine .name hv' ?_ (ih hq)
      rintro absolute target rfl
      cases halike
      exact hv absolute target rfl
  | @link _ p n _ _ absolute target hn _ ih =>
    have hkept : ¬ lost (p ++ [n]) := by
      intro hlost
      obtain ⟨data, hdata⟩ := h.file _ _ hlost hn
      cases hdata
    obtain ⟨v', hv', halike⟩ := h.node _ _ hkept hn
    cases halike
    exact .link hv' (ih hq)

/-- Where the directories and the links are kept, a path leads where it led. -/
theorem Keeps.resolve (h : t.Keeps lost t') (hlinks : t'.maxLinks = t.maxLinks) (hwalk : t.resolve p cs = some q)
    (hq : ¬ lost q) : t'.resolve p cs = some q := by
  rw [Tree.resolve, hlinks]
  exact (h.walks (walks_of_walk hwalk) hq).walk_eq

end

end Tree

end Paths
