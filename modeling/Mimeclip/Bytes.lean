import Mathlib.Data.List.Lex
import Mathlib.Data.String.Basic

/-!
# Bytes and text

`Vec<u8>` is a list of bytes, ordered lexicographically. A Rust `String` is a Lean `String`: both are
UTF-8, and the bytewise order of `str` is the order of the code points, which is Lean's.
-/

namespace Mimeclip

instance linearOrderUInt8 : LinearOrder UInt8 where
  le_refl := UInt8.le_refl
  le_trans _ _ _ := UInt8.le_trans
  le_antisymm _ _ := UInt8.le_antisymm
  le_total := UInt8.le_total
  toDecidableLE := inferInstance
  lt_iff_le_not_ge a b := by
    simp only [UInt8.le_iff_toNat_le, UInt8.lt_iff_toNat_lt]; omega

abbrev Bytes := List UInt8

def asBytes (s : String) : Bytes := s.toUTF8.data.toList

theorem asBytes_inj {s t : String} : asBytes s = asBytes t ↔ s = t := by
  refine ⟨fun h => String.toByteArray_inj.1 ?_, fun h => by rw [h]⟩
  exact ByteArray.ext (Array.toList_inj.1 h)

theorem toNat_charOfNat {n : Nat} (h : n < 0xD800) : (Char.ofNat n).toNat = n := by
  have hn : n.isValidChar := .inl h
  rw [Char.ofNat, dif_pos hn]; rfl

theorem append_ofList_lt (pre post : String) {c d : Char} (h : c < d) :
    pre ++ String.ofList [c] ++ post < pre ++ String.ofList [d] ++ post := by
  rw [String.lt_iff]
  simp only [String.toList_append, String.toList_ofList, List.append_assoc, List.singleton_append]
  exact List.append_left_lt (List.cons_lt_cons_iff.2 (.inl h))

/-- A MIME string as Wayland delivers it: it comes as a C string, so it holds no NUL byte. -/
def NulFree (s : String) : Prop := 0 ∉ asBytes s

instance (s : String) : Decidable (NulFree s) := inferInstanceAs (Decidable (0 ∉ asBytes s))

def startsWith (s pre : String) : Bool := pre.toList.isPrefixOf s.toList

/-- `str::eq_ignore_ascii_case`: `Char.toLower` changes the ASCII letters only. -/
def eqIgnoreAsciiCase (s t : String) : Bool :=
  s.toList.map Char.toLower == t.toList.map Char.toLower

end Mimeclip
