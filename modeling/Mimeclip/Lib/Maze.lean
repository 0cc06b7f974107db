import Mimeclip.Lib.Paths
import Mathlib.Tactic.SplitIfs

/-!
# A tree that tells paths apart

Any directories, and one name that leads out of them: there is a tree in which a path through this name leads to a
file, and only paths with the same names do (`Maze.resolve_leaf`). The name is a link to the bottom
of a deep chain of directories, on every level of which the next name is a link to the bottom of the next chain;
the last one leads to the file. The chains are one, of which each link skips a part.
-/

namespace Paths

open Component

/-- The directories one knows, the name that leads out of them at `start`, and the names to follow. -/
structure Maze (ν : Type*) where
  known : List ν → Bool
  start : List ν
  first : ν
  rest : List ν
  width : Nat
  fresh : ν
  leaf : ν
  known_nil : known [] = true
  known_of_append {p : List ν} {n : ν} : known (p ++ [n]) = true → known p = true
  known_start : known start = true
  unknown_first : known (start ++ [first]) = false
  fresh_not_mem {p : List ν} : known p = true → fresh ∉ p
  leaf_not_mem {p : List ν} : known p = true → leaf ∉ p
  first_ne_fresh : first ≠ fresh
  first_ne_leaf : first ≠ leaf
  fresh_ne_leaf : fresh ≠ leaf
  width_pos : 0 < width

namespace Maze

variable {ν φ : Type*} (m : Maze ν)

/-- The bottom of a chain, or the file. -/
def target (k : Nat) : List (Component ν) :=
  if k < m.rest.length then List.replicate ((k + 1) * m.width) (.name m.fresh) else [.name m.leaf]

def node [DecidableEq ν] (data : φ) (p : List ν) : Option (Node ν φ) :=
  if m.known p then some .directory
  else if p = m.start ++ [m.first] then some (.link true (m.target 0))
  else if p = [m.leaf] then some (.file data)
  else if p = List.replicate p.length m.fresh then
    if p.length ≤ m.rest.length * m.width then some .directory else none
  else if p.dropLast = List.replicate (p.length - 1) m.fresh ∧ 2 ≤ p.length ∧
      m.rest[(p.length - 2) / m.width]? = p.getLast? then
    some (.link true (m.target ((p.length - 2) / m.width + 1)))
  else none

section
variable {m} {data : φ} {p : List ν} {n : ν} {d : Nat}

theorem not_known_of_fresh (h : m.fresh ∈ p) : m.known p = false :=
  Bool.eq_false_iff.2 fun hp => m.fresh_not_mem hp h

theorem ne_first_of_fresh (h : m.fresh ∈ p) : p ≠ m.start ++ [m.first] := by
  rintro rfl
  rcases List.mem_append.1 h with h | h
  · exact m.fresh_not_mem m.known_start h
  · exact m.first_ne_fresh (List.mem_singleton.1 h).symm

variable [DecidableEq ν]

theorem node_known (hp : m.known p = true) : m.node data p = some .directory := by
  rw [node, if_pos hp]

theorem node_first : m.node data (m.start ++ [m.first]) = some (.link true (m.target 0)) := by
  rw [node, if_neg (by rw [m.unknown_first]; decide), if_pos rfl]

theorem node_leaf : m.node data [m.leaf] = some (.file data) := by
  have hknown : m.known [m.leaf] = false :=
    Bool.eq_false_iff.2 fun hp => m.leaf_not_mem hp (List.mem_singleton.2 rfl)
  have hfirst : [m.leaf] ≠ m.start ++ [m.first] := by
    intro h
    have hlast := congrArg List.getLast? h
    rw [List.getLast?_concat] at hlast
    exact m.first_ne_leaf (Option.some.inj hlast).symm
  rw [node, if_neg (by rw [hknown]; decide), if_neg hfirst, if_pos rfl]

theorem node_level (hpos : 0 < d) (hd : d ≤ m.rest.length * m.width) :
    m.node data (List.replicate d m.fresh) = some .directory := by
  have hmem : m.fresh ∈ List.replicate d m.fresh := List.mem_replicate.2 ⟨by omega, rfl⟩
  have hleaf : List.replicate d m.fresh ≠ [m.leaf] := by
    intro h
    rw [h, List.mem_singleton] at hmem
    exact m.fresh_ne_leaf hmem
  rw [node, if_neg (by rw [not_known_of_fresh hmem]; decide), if_neg (ne_first_of_fresh hmem), if_neg hleaf,
    List.length_replicate, if_pos rfl, if_pos hd]

theorem node_chain (hpos : 0 < d) (hn : n ≠ m.fresh) :
    m.node data (List.replicate d m.fresh ++ [n]) =
      if m.rest[(d - 1) / m.width]? = some n then some (.link true (m.target ((d - 1) / m.width + 1))) else none := by
  have hmem : m.fresh ∈ List.replicate d m.fresh ++ [n] :=
    List.mem_append_left _ (List.mem_replicate.2 ⟨by omega, rfl⟩)
  have hlength : (List.replicate d m.fresh ++ [n]).length = d + 1 := by simp
  have hleaf : List.replicate d m.fresh ++ [n] ≠ [m.leaf] := by
    intro h
    rw [h] at hlength
    simp at hlength
    omega
  have hlevel : List.replicate d m.fresh ++ [n] ≠ List.replicate (d + 1) m.fresh := by
    intro h
    exact hn (List.eq_of_mem_replicate (h ▸ List.mem_append_right _ (List.mem_singleton.2 rfl)))
  rw [node, if_neg (by rw [not_known_of_fresh hmem]; decide), if_neg (ne_first_of_fresh hmem), if_neg hleaf, hlength,
    if_neg hlevel, List.dropLast_concat, List.getLast?_concat]
  simp only [Nat.add_sub_cancel, true_and, show 2 ≤ d + 1 by omega, show d + 1 - 2 = d - 1 by omega]

/-- In a chain the next name is a link, and there is no other. -/
theorem node_next {k : Nat} (hk : k < m.rest.length) (hd : k * m.width < d) (hd' : d ≤ (k + 1) * m.width)
    (hn : n ≠ m.fresh) :
    m.node data (List.replicate d m.fresh ++ [n]) =
      if n = m.rest[k] then some (.link true (m.target (k + 1))) else none := by
  have hindex : (d - 1) / m.width = k := Nat.div_eq_of_lt_le (by omega) (by omega)
  rw [node_chain (by omega) hn, hindex, List.getElem?_eq_getElem hk]
  simp only [Option.some.injEq, eq_comm]

theorem node_outside (hp : m.known p = true) (hn : m.known (p ++ [n]) = false) (hne : p ++ [n] ≠ m.start ++ [m.first])
    (hfresh : n ≠ m.fresh) (hleaf : n ≠ m.leaf) : m.node data (p ++ [n]) = none := by
  have hlast : ∀ q : List ν, p ++ [n] = q → n ∈ q := by
    rintro q rfl
    exact List.mem_append_right p (List.mem_singleton.2 rfl)
  rw [node, if_neg (by rw [hn]; decide), if_neg hne, if_neg fun h => hleaf (List.mem_singleton.1 (hlast _ h)),
    if_neg fun h => hfresh (List.eq_of_mem_replicate (hlast _ h)), if_neg]
  rintro ⟨hchain, hlength, -⟩
  rw [List.dropLast_concat] at hchain
  refine m.fresh_not_mem hp ?_
  rw [hchain]
  exact List.mem_replicate.2 ⟨by omega, rfl⟩

/-! ### Walks -/

theorem node_parent (h : m.node data (p ++ [n]) ≠ none) : m.node data p = some .directory := by
  rw [node, List.length_append, List.length_singleton, List.dropLast_concat, List.getLast?_concat] at h
  split_ifs at h with hknown hfirst hleaf hlevel hdepth hchain
  · exact node_known (m.known_of_append hknown)
  · rw [(List.append_inj' hfirst rfl).1]
    exact node_known m.known_start
  · cases p with
    | nil => exact node_known m.known_nil
    | cons c p => simp at hleaf
  · rw [List.replicate_succ'] at hlevel
    have hp := (List.append_inj' hlevel rfl).1
    rcases Nat.eq_zero_or_pos p.length with hzero | hpos
    · rw [List.length_eq_zero_iff.1 hzero]
      exact node_known m.known_nil
    · rw [hp]
      exact node_level hpos (by omega)
  · exact absurd rfl h
  · obtain ⟨hp, hlength, hrest⟩ := hchain
    rw [Nat.add_sub_cancel] at hp
    obtain ⟨hlt, -⟩ := List.getElem?_eq_some_iff.1 hrest
    rw [Nat.div_lt_iff_lt_mul m.width_pos] at hlt
    rw [hp]
    exact node_level (by omega) (by omega)
  · exact absurd rfl h

/-- One link for every name. -/
def tree (m : Maze ν) (data : φ) : Tree ν φ where
  node := m.node data
  maxLinks := m.rest.length + 1
  root := node_known m.known_nil
  parent := node_parent

variable {links k : Nat} {cs : List (Component ν)}

theorem isDirectory_of_known (hp : m.known p = true) : (m.tree data).isDirectory p = true :=
  Tree.isDirectory_iff.2 (node_known hp)

theorem isDirectory_level (hd : d ≤ m.rest.length * m.width) :
    (m.tree data).isDirectory (List.replicate d m.fresh) = true := by
  rcases Nat.eq_zero_or_pos d with rfl | hpos
  · exact isDirectory_of_known m.known_nil
  · exact Tree.isDirectory_iff.2 (node_level hpos hd)

theorem walk_descend {j : Nat} (h : d + j ≤ m.rest.length * m.width) :
    (m.tree data).walk links (List.replicate d m.fresh) (List.replicate j (.name m.fresh) ++ cs) =
      (m.tree data).walk links (List.replicate (d + j) m.fresh) cs := by
  induction j generalizing d with
  | zero => rfl
  | succ j ih =>
    have hstep : (m.tree data).isDirectory (List.replicate (d + 1) m.fresh) = true := isDirectory_level (by omega)
    rw [List.replicate_succ'] at hstep
    rw [List.replicate_succ, List.cons_append, Tree.walk_directory hstep, ← List.replicate_succ', ih (by omega),
      Nat.add_right_comm, Nat.add_assoc]

theorem walk_target_lt (hk : k < m.rest.length) : (m.tree data).walk links [] (m.target k ++ cs) =
    (m.tree data).walk links (List.replicate ((k + 1) * m.width) m.fresh) cs := by
  have hfits : 0 + (k + 1) * m.width ≤ m.rest.length * m.width := by
    rw [Nat.zero_add]
    exact Nat.mul_le_mul_right m.width hk
  rw [target, if_pos hk, ← Nat.zero_add ((k + 1) * m.width), ← walk_descend hfits, Nat.zero_add]
  rfl

theorem walk_target_leaf (hk : m.rest.length ≤ k) :
    (m.tree data).walk links [] (m.target k ++ cs) = some [m.leaf] ↔ cs = [] := by
  have hleaf : (m.tree data).node ([] ++ [m.leaf]) = some (.file data) := node_leaf
  rw [target, if_neg (Nat.not_lt.2 hk), List.singleton_append, Tree.walk_file hleaf]
  constructor
  · intro h
    by_contra hcs
    rw [Tree.walk_stuck _ hcs] at h
    · cases h
    · rw [Tree.isDirectory, hleaf]
  · rintro rfl
    exact Tree.walk_nil

/-- A link leads on, if the bottom of its chain does. -/
theorem walk_target (n : ν) (hchain : k < m.rest.length →
      ((m.tree data).walk links (List.replicate ((k + 1) * m.width) m.fresh) cs = some [m.leaf] ↔
        names cs = m.rest.drop k ∧ EndsInName cs ∧ m.rest.length - k ≤ links)) :
    (m.tree data).walk links [] (m.target k ++ cs) = some [m.leaf] ↔
      names cs = m.rest.drop k ∧ EndsInName (.name n :: cs) ∧ m.rest.length - k ≤ links := by
  by_cases hk : k < m.rest.length
  · rw [walk_target_lt hk, hchain hk]
    refine and_congr_right fun hrest => and_congr_left' ?_
    have hne : cs ≠ [] := by
      rintro rfl
      exact absurd (congrArg List.length hrest) (by rw [List.length_drop]; exact (Nat.sub_pos_of_lt hk).ne)
    exact (endsInName_cons hne).symm
  · rw [walk_target_leaf (Nat.not_lt.1 hk), List.drop_eq_nil_of_le (Nat.not_lt.1 hk)]
    constructor
    · rintro rfl
      exact ⟨rfl, ⟨n, rfl⟩, by omega⟩
    · rintro ⟨hnil, hend, -⟩
      by_contra hne
      exact names_ne_nil ((endsInName_cons hne).1 hend) hnil

/-- In a chain, the names that lead on are those of the rest, one after the other. -/
theorem walk_chain (hk : k < m.rest.length) (hd : k * m.width + cs.length < d) (hd' : d ≤ (k + 1) * m.width)
    (hfresh : ∀ n ∈ names cs, n ≠ m.fresh) :
    (m.tree data).walk links (List.replicate d m.fresh) cs = some [m.leaf] ↔
      names cs = m.rest.drop k ∧ EndsInName cs ∧ m.rest.length - k ≤ links := by
  induction cs generalizing links k d with
  | nil =>
    refine iff_of_false ?_ fun h => not_endsInName_nil h.2.1
    rw [Tree.walk_nil]
    intro h
    have hmem : m.fresh ∈ List.replicate d m.fresh := List.mem_replicate.2 ⟨by omega, rfl⟩
    rw [Option.some.inj h, List.mem_singleton] at hmem
    exact m.fresh_ne_leaf hmem
  | cons c cs ih =>
    have hdir : (m.tree data).isDirectory (List.replicate d m.fresh) = true :=
      isDirectory_level (hd'.trans (Nat.mul_le_mul_right m.width hk))
    rw [List.length_cons] at hd
    cases c with
    | current =>
      rw [Tree.walk_current hdir, ih hk (by omega) hd' hfresh, endsInName_cons_of_ne nofun]
      rfl
    | parent =>
      rw [Tree.walk_parent hdir, List.dropLast_replicate, ih hk (by omega) (by omega) hfresh,
        endsInName_cons_of_ne nofun]
      rfl
    | name n =>
      have hn : n ≠ m.fresh := hfresh n List.mem_cons_self
      have hfresh' : ∀ n ∈ names cs, n ≠ m.fresh := fun n' hn' => hfresh n' (List.mem_cons_of_mem n hn')
      have hnode : (m.tree data).node (List.replicate d m.fresh ++ [n]) = _ := node_next hk (by omega) hd' hn
      have hnames : names (.name n :: cs) = m.rest.drop k ↔ n = m.rest[k] ∧ names cs = m.rest.drop (k + 1) := by
        rw [List.drop_eq_getElem_cons hk]
        exact List.cons_eq_cons
      rw [hnames]
      by_cases hname : n = m.rest[k]
      · rw [if_pos hname] at hnode
        rw [and_iff_right hname]
        cases links with
        | zero =>
          rw [Tree.walk_link_zero hnode]
          exact iff_of_false nofun fun h => by omega
        | succ links =>
          rw [Tree.walk_link hnode, if_pos rfl]
          have hwidth : (k + 1 + 1) * m.width = (k + 1) * m.width + m.width := Nat.succ_mul ..
          have hwidth' : (k + 1) * m.width = k * m.width + m.width := Nat.succ_mul ..
          rw [walk_target n fun hlast => ih hlast (by omega) (Nat.le_refl _) hfresh']
          exact and_congr_right fun _ => and_congr_right fun _ => by omega
      · rw [if_neg hname] at hnode
        rw [Tree.walk_missing hnode]
        exact iff_of_false nofun fun h => hname h.1.1

theorem walk_start (hcs : cs.length < m.width) (hfresh : ∀ n ∈ names cs, n ≠ m.fresh) :
    (m.tree data).resolve m.start (.name m.first :: cs) = some [m.leaf] ↔
      names cs = m.rest ∧ EndsInName (.name m.first :: cs) := by
  have hnode : (m.tree data).node (m.start ++ [m.first]) = _ := node_first
  have hchain : 0 < m.rest.length → ((m.tree data).walk m.rest.length (List.replicate ((0 + 1) * m.width) m.fresh) cs =
      some [m.leaf] ↔ names cs = m.rest.drop 0 ∧ EndsInName cs ∧ m.rest.length - 0 ≤ m.rest.length) := fun h =>
    walk_chain h (by omega) (Nat.le_refl _) hfresh
  rw [Tree.resolve, show (m.tree data).maxLinks = m.rest.length + 1 from rfl, Tree.walk_link hnode, if_pos rfl,
    walk_target m.first hchain, List.drop_zero, Nat.sub_zero]
  simp only [Nat.le_refl, and_true]

/-- Only what comes by the first name and goes on with the rest leads to the file. -/
theorem resolve_leaf (hp : m.known p = true)
    (hcs : cs = [] ∨ ∃ n rest, cs = .name n :: rest ∧ m.known (p ++ [n]) = false) (hwidth : cs.length ≤ m.width)
    (hfresh : ∀ n ∈ names cs, n ≠ m.fresh ∧ n ≠ m.leaf) :
    (m.tree data).resolve p cs = some [m.leaf] ↔ p = m.start ∧ names cs = m.first :: m.rest ∧ EndsInName cs := by
  rcases hcs with rfl | ⟨n, rest, rfl, hunknown⟩
  · refine iff_of_false ?_ fun h => not_endsInName_nil h.2.2
    rw [Tree.resolve, Tree.walk_nil]
    intro h
    rw [Option.some.inj h] at hp
    exact m.leaf_not_mem hp (List.mem_singleton.2 rfl)
  · have hnames : names (.name n :: rest) = n :: names rest := rfl
    rw [List.length_cons] at hwidth
    by_cases hfirst : p ++ [n] = m.start ++ [m.first]
    · obtain ⟨rfl, hn⟩ := List.append_inj' hfirst rfl
      obtain rfl := (List.cons.inj hn).1
      rw [walk_start hwidth fun n' hn' => (hfresh n' (List.mem_cons_of_mem _ hn')).1, hnames, List.cons_eq_cons]
      simp only [true_and]
    · obtain ⟨hn, hleaf⟩ := hfresh n List.mem_cons_self
      have hnode : (m.tree data).node (p ++ [n]) = none := node_outside hp hunknown hfirst hn hleaf
      rw [Tree.resolve, Tree.walk_missing hnode]
      refine iff_of_false nofun ?_
      rintro ⟨rfl, hsame, -⟩
      rw [hnames] at hsame
      exact hfirst (by rw [(List.cons.inj hsame).1])

end

end Maze

end Paths
