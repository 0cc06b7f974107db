import Mathlib.Algebra.Group.Nat.Defs
import Mathlib.Data.List.Lex
import Mathlib.Order.Basic
import Mathlib.Tactic.Common

/-!
# Decimals of a fixed width

Texts of one length that are put in front compare first (`append_lt_append`), as the quotient does for numbers
(`lex_of_mul_add_lt`). So decimals of one width are in the order of the numbers (`pad_lt`).
-/

namespace Digits

/-! ### Lexicographic order -/

section
variable {α : Type*} [LT α] {a b : List α}

theorem append_lt_append (hlength : a.length = b.length) (h : a < b) (x y : List α) : a ++ x < b ++ y := by
  induction a generalizing b with
  | nil =>
    rw [List.length_nil, eq_comm, List.length_eq_zero_iff] at hlength
    exact absurd (hlength ▸ h) (List.not_lt_nil _)
  | cons c a ih =>
    cases b with
    | nil => exact absurd h (List.not_lt_nil _)
    | cons d b =>
      rw [List.cons_append, List.cons_append, List.cons_lt_cons_iff]
      rcases List.cons_lt_cons_iff.1 h with hlt | ⟨rfl, hlt⟩
      · exact .inl hlt
      · exact .inr ⟨rfl, ih (Nat.succ.inj hlength) hlt⟩

/-- Fields of one width, and what comes after them. -/
theorem append_lt_append_of_lex (hlength : a.length = b.length) {x y : List α} (h : a < b ∨ a = b ∧ x < y) :
    a ++ x < b ++ y := by
  rcases h with hlt | ⟨rfl, hlt⟩
  · exact append_lt_append hlength hlt x y
  · exact List.append_left_lt hlt

end

theorem lex_of_mul_add_lt {d a a' b b' : Nat} (hb' : b' < d) (h : a * d + b < a' * d + b') :
    a < a' ∨ a = a' ∧ b < b' := by
  rcases lt_trichotomy a a' with hlt | rfl | hgt
  · exact .inl hlt
  · exact .inr ⟨rfl, by omega⟩
  · have := Nat.mul_le_mul_right d (Nat.succ_le_of_lt hgt)
    rw [Nat.succ_mul] at this
    omega

theorem lex_of_lt {d n m : Nat} (hd : 0 < d) (h : n < m) : n / d < m / d ∨ n / d = m / d ∧ n % d < m % d := by
  refine lex_of_mul_add_lt (Nat.mod_lt m hd) ?_
  rwa [Nat.mul_comm, Nat.mul_comm (m / d), Nat.div_add_mod, Nat.div_add_mod]

/-! ### Digits -/

def digit (n : Nat) : Char := Char.ofNat (48 + n)

/-- The last `width` digits. -/
def pad : Nat → Nat → List Char
  | 0, _ => []
  | width + 1, n => pad width (n / 10) ++ [digit (n % 10)]

theorem digit_lt {n m : Nat} (h : n < m) (hm : m < 10) : digit n < digit m := by
  have : ∀ m < 10, ∀ n < m, digit n < digit m := by decide
  exact this m hm n h

variable {width n m : Nat}

@[simp] theorem length_pad (width n : Nat) : (pad width n).length = width := by
  induction width generalizing n with
  | zero => rfl
  | succ width ih => rw [pad, List.length_append, ih]; rfl

theorem pad_lt (h : n < m) (hm : m < 10 ^ width) : pad width n < pad width m := by
  induction width generalizing n m with
  | zero =>
    rw [Nat.pow_zero] at hm
    omega
  | succ width ih =>
    rw [Nat.pow_succ] at hm
    refine append_lt_append_of_lex (by simp) ?_
    rcases lex_of_lt (d := 10) (by decide) h with hdiv | ⟨hdiv, hmod⟩
    · exact .inl (ih hdiv (by omega))
    · exact .inr ⟨by rw [hdiv], List.cons_lt_cons_iff.2 (.inl (digit_lt hmod (Nat.mod_lt m (by decide))))⟩

/-- A field of a fixed width, and what comes after it. -/
theorem pad_append_lt {x y : List Char} (hm : m < 10 ^ width) (h : n < m ∨ n = m ∧ x < y) :
    pad width n ++ x < pad width m ++ y := by
  refine append_lt_append_of_lex (by simp) ?_
  rcases h with hlt | ⟨rfl, hlt⟩
  · exact .inl (pad_lt hlt hm)
  · exact .inr ⟨rfl, hlt⟩

/-- The last digits do not depend on what comes before them. -/
theorem pad_mod (width n : Nat) : pad width (n % 10 ^ width) = pad width n := by
  induction width generalizing n with
  | zero => rfl
  | succ width ih =>
    have hdiv : n % 10 ^ (width + 1) / 10 = n / 10 % 10 ^ width := by rw [Nat.pow_succ', Nat.mod_mul_right_div_self]
    have hmod : n % 10 ^ (width + 1) % 10 = n % 10 := Nat.mod_mod_of_dvd n ⟨10 ^ width, Nat.pow_succ'⟩
    rw [pad, pad, hdiv, hmod, ih]

theorem pad_add (width width' n : Nat) : pad (width + width') n = pad width (n / 10 ^ width') ++ pad width' n := by
  induction width' generalizing n with
  | zero => rw [Nat.add_zero, Nat.pow_zero, Nat.div_one, pad, List.append_nil]
  | succ width' ih => rw [← Nat.add_assoc, pad, pad, ih, Nat.div_div_eq_div_mul, ← Nat.pow_succ', List.append_assoc]

theorem mem_pad {c : Char} (h : c ∈ pad width n) : ∃ d < 10, c = digit d := by
  induction width generalizing n with
  | zero => cases h
  | succ width ih =>
    rw [pad, List.mem_append, List.mem_singleton] at h
    rcases h with h | rfl
    · exact ih h
    · exact ⟨n % 10, Nat.mod_lt n (by decide), rfl⟩

end Digits
