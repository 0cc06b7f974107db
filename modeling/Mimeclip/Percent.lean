import Mimeclip.Types
import Mimeclip.Utf8

/-!
# `percent_decode`

`u8::from_str_radix` takes two hexadecimal digits, and also a plus sign and one digit. So `percent_decode` decodes
the percent triplets of a text (`decodeTriplets`), and those with a plus sign too: it is right on the texts that
have none of these (`percentDecode_iff`).
-/

namespace Mimeclip

/-- Every `%` that two hexadecimal digits follow stands for the byte they denote. -/
def decodeTriplets : Bytes → Bytes
  | 37 :: h :: l :: bytes =>
    match hexDigit h, hexDigit l with
    | some high, some low => (high * 16 + low) :: decodeTriplets bytes
    | _, _ => 37 :: decodeTriplets (h :: l :: bytes)
  | b :: bytes => b :: decodeTriplets bytes
  | [] => []

/-- Some `%+` is followed by a hexadecimal digit. -/
def HasPlusTriplet (bytes : Bytes) : Prop := ∃ l, (hexDigit l).isSome ∧ [37, 43, l] <:+: bytes

theorem hexDigit_lt {l d : UInt8} (h : hexDigit l = some d) : d.toNat < 16 := by
  rw [hexDigit] at h
  simp only [UInt8.le_iff_toNat_le] at h
  split_ifs at h with h₁ h₂ h₃
  all_goals cases h
  · rw [UInt8.toNat_sub_of_le _ _ (UInt8.le_iff_toNat_le.2 h₁.1)]
    exact Nat.lt_of_le_of_lt (Nat.sub_le_sub_right h₁.2 _) (by decide)
  · rw [UInt8.toNat_sub_of_le _ _ (UInt8.le_trans (by decide) (UInt8.le_iff_toNat_le.2 h₂.1))]
    exact Nat.lt_of_le_of_lt (Nat.sub_le_sub_right h₂.2 _) (by decide)
  · rw [UInt8.toNat_sub_of_le _ _ (UInt8.le_trans (by decide) (UInt8.le_iff_toNat_le.2 h₃.1))]
    exact Nat.lt_of_le_of_lt (Nat.sub_le_sub_right h₃.2 _) (by decide)

theorem fromStrRadix16_plus (l : UInt8) : fromStrRadix16 43 l = hexDigit l := if_pos rfl

theorem fromStrRadix16_digits {h l : UInt8} (hh : h ≠ 43) :
    fromStrRadix16 h l = (hexDigit h).bind fun high => (hexDigit l).map fun low => high * 16 + low := by
  rw [fromStrRadix16, if_neg hh]
  cases hexDigit h <;> cases hexDigit l <;> rfl

theorem decodeTriplets_digits {h l high low : UInt8} (hh : hexDigit h = some high) (hl : hexDigit l = some low)
    (bytes : Bytes) : decodeTriplets (37 :: h :: l :: bytes) = (high * 16 + low) :: decodeTriplets bytes := by
  rw [decodeTriplets, hh, hl]

theorem decodeTriplets_copy {h l : UInt8} (hnot : ∀ high low, ¬ (hexDigit h = some high ∧ hexDigit l = some low))
    (bytes : Bytes) : decodeTriplets (37 :: h :: l :: bytes) = 37 :: decodeTriplets (h :: l :: bytes) := by
  rw [decodeTriplets]
  cases hh : hexDigit h with
  | none => rfl
  | some high =>
    cases hl : hexDigit l with
    | none => rfl
    | some low => exact absurd ⟨hh, hl⟩ (hnot high low)

theorem hasPlusTriplet_cons {b : UInt8} {bytes : Bytes} :
    HasPlusTriplet (b :: bytes) ↔
      (∃ l, (hexDigit l).isSome ∧ [37, 43, l] <+: b :: bytes) ∨ HasPlusTriplet bytes := by
  simp only [HasPlusTriplet, List.infix_cons_iff, and_or_left, exists_or]

theorem hasPlusTriplet_cons_ne {b : UInt8} {bytes : Bytes} (h : b ≠ 37) :
    HasPlusTriplet (b :: bytes) ↔ HasPlusTriplet bytes := by
  rw [hasPlusTriplet_cons, or_iff_right]
  rintro ⟨l, -, hpre⟩
  exact h (List.cons_prefix_cons.1 hpre).1.symm

theorem ne_of_hexDigit {h d : UInt8} (hd : hexDigit h = some d) : h ≠ 37 ∧ h ≠ 43 := by
  refine ⟨?_, ?_⟩ <;> rintro rfl <;> cases hd

/-- The decoders agree on a byte that both pass on. -/
theorem lossyChars_cons_inj {p : Option Utf8Pending} {b : UInt8} {bs bs' : Bytes} :
    lossyChars p (b :: bs) = lossyChars p (b :: bs') ↔
      lossyChars (lossyStep p b).2 bs = lossyChars (lossyStep p b).2 bs' := by
  rw [lossyChars_cons, lossyChars_cons, List.append_cancel_left_eq]

theorem lossyChars_ascii_ne {p : Option Utf8Pending} (hp : Pending p) {b b' : UInt8} (hb : b < 0x80) (hb' : b' < 0x80)
    (hne : b ≠ b') (bs bs' : Bytes) : lossyChars p (b :: bs) ≠ lossyChars p (b' :: bs') := by
  rw [lossyChars_cons, lossyChars_cons, lossyStep_ascii hp hb, lossyStep_ascii hp hb', List.append_assoc,
    List.append_assoc]
  intro h
  have hchar : Char.ofNat b.toNat = Char.ofNat b'.toNat := (List.cons.inj (List.append_cancel_left h)).1
  rw [UInt8.lt_iff_toNat_lt] at hb hb'
  refine hne (UInt8.toNat_inj.1 ?_)
  rw [← toNat_charOfNat (n := b.toNat) (hb.trans (by decide)), hchar, toNat_charOfNat (hb'.trans (by decide))]

theorem lossyChars_percentDecode {p : Option Utf8Pending} (hp : Pending p) (bytes : Bytes) :
    lossyChars p (percentDecodeBytes bytes) = lossyChars p (decodeTriplets bytes) ↔ ¬ HasPlusTriplet bytes := by
  fun_induction percentDecodeBytes bytes generalizing p with
  | case1 h l bytes b hb ih =>
    by_cases hplus : h = 43
    · -- the one byte against a copied `%`
      subst hplus
      rw [fromStrRadix16_plus] at hb
      have hlt := hexDigit_lt hb
      rw [decodeTriplets_copy (by rintro high low ⟨h, -⟩; cases h)]
      refine iff_of_false (lossyChars_ascii_ne hp ?_ (by decide) ?_ _ _) (not_not.2 ?_)
      · exact UInt8.lt_iff_toNat_lt.2 (hlt.trans (by decide))
      · rintro rfl
        exact absurd hlt (by decide)
      · exact hasPlusTriplet_cons.2 (.inl ⟨l, by rw [hb]; rfl, List.prefix_append [37, 43, l] bytes⟩)
    · rw [fromStrRadix16_digits hplus] at hb
      obtain ⟨high, hh, hb⟩ := Option.bind_eq_some_iff.1 hb
      obtain ⟨low, hl, rfl⟩ := Option.map_eq_some_iff.1 hb
      rw [decodeTriplets_digits hh hl, lossyChars_cons_inj, ih (pending_lossyStep p _), hasPlusTriplet_cons,
        hasPlusTriplet_cons_ne (ne_of_hexDigit hh).1, hasPlusTriplet_cons_ne (ne_of_hexDigit hl).1, or_iff_right]
      rintro ⟨l', -, hpre⟩
      exact hplus (List.cons_prefix_cons.1 (List.cons_prefix_cons.1 hpre).2).1.symm
  | case2 h l bytes hb ih =>
    have hnot : ∀ high low, ¬ (hexDigit h = some high ∧ hexDigit l = some low) := by
      rintro high low ⟨hh, hl⟩
      rw [fromStrRadix16_digits (ne_of_hexDigit hh).2, hh, hl] at hb
      cases hb
    rw [decodeTriplets_copy hnot, lossyChars_cons_inj, ih (pending_lossyStep p _), @hasPlusTriplet_cons 37,
      or_iff_right]
    rintro ⟨l', hl', hpre⟩
    obtain ⟨rfl, hdigit⟩ := List.cons_prefix_cons.1 (List.cons_prefix_cons.1 hpre).2
    obtain ⟨rfl, -⟩ := List.cons_prefix_cons.1 hdigit
    rw [fromStrRadix16_plus] at hb
    rw [hb] at hl'
    cases hl'
  | case3 b bytes hne ih =>
    have hcopy : decodeTriplets (b :: bytes) = b :: decodeTriplets bytes := by
      rw [decodeTriplets]
      exact hne
    rw [hcopy, lossyChars_cons_inj, ih (pending_lossyStep p _), hasPlusTriplet_cons, or_iff_right]
    rintro ⟨l, -, post, hpre⟩
    obtain ⟨rfl, rfl⟩ := List.cons.inj hpre
    exact hne 43 l post rfl rfl
  | case4 => exact iff_of_true rfl (by rintro ⟨l, -, hinfix⟩; cases List.infix_nil.1 hinfix)

/-- `percent_decode` decodes the percent triplets and nothing else if and only if no `%+` comes before a digit. -/
theorem percentDecode_iff (s : String) :
    percentDecode s = fromUtf8Lossy (decodeTriplets (asBytes s)) ↔ ¬ HasPlusTriplet (asBytes s) := by
  rw [← lossyChars_percentDecode .none, percentDecode, fromUtf8Lossy, fromUtf8Lossy]
  exact String.ofList_inj

theorem percentDecode_plus : percentDecode "%+A" = "\n" ∧ fromUtf8Lossy (decodeTriplets (asBytes "%+A")) = "%+A" := by
  decide

end Mimeclip
