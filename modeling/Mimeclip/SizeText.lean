import Mimeclip.Config

/-!
# Sizes as text (`parse_size` and `format_size`)

`format_size` takes the largest unit that divides the size, `parse_size` the first suffix that fits. The one reads
back what the other prints (`parseSize_formatSize`).
-/

namespace Mimeclip

/-! ### Digits -/

section
variable {cs : List Char}

theorem le_ofDigitChars (cs : List Char) (acc : Nat) : acc ≤ Nat.ofDigitChars 10 cs acc := by
  rw [Nat.ofDigitChars_eq_ofDigitChars_zero]
  have := Nat.le_mul_of_pos_left acc (Nat.pow_pos (n := cs.length) (show 0 < 10 by decide))
  omega

theorem foldlM_pushDigit (hdigits : ∀ c ∈ cs, c.isDigit) {acc : Nat} (hfits : Nat.ofDigitChars 10 cs acc < 2 ^ 64) :
    cs.foldlM pushDigit (UInt64.ofNat acc) = some (UInt64.ofNat (Nat.ofDigitChars 10 cs acc)) := by
  induction cs generalizing acc with
  | nil => rfl
  | cons c cs ih =>
    have hacc : acc < 2 ^ 64 := (le_ofDigitChars (c :: cs) acc).trans_lt hfits
    rw [Nat.ofDigitChars_cons, Nat.mul_comm] at hfits ⊢
    have hstep : pushDigit (UInt64.ofNat acc) c = some (UInt64.ofNat (acc * 10 + (c.toNat - 48))) := by
      rw [pushDigit, UInt64.toNat_ofNat', Nat.mod_eq_of_lt hacc]
      exact if_pos ⟨hdigits c List.mem_cons_self, (le_ofDigitChars cs _).trans_lt hfits⟩
    rw [List.foldlM_cons, hstep]
    exact ih (fun c' hc => hdigits c' (List.mem_cons_of_mem c hc)) hfits

end

theorem isDigit_spec {d : Char} (h : d.isDigit) : d.toLower = d ∧ d ≠ ' ' ∧ ¬ isWhitespace d := by
  rw [Char.isDigit, Bool.and_eq_true, decide_eq_true_eq, decide_eq_true_eq, ge_iff_le, UInt32.le_iff_toNat_le,
    UInt32.le_iff_toNat_le] at h
  have hlow : 48 ≤ d.toNat := h.1
  have hhigh : d.toNat ≤ 57 := h.2
  have hten : ∀ k < 10, let d := Char.ofNat (48 + k); d.toLower = d ∧ d ≠ ' ' ∧ ¬ isWhitespace d := by decide
  have := hten (d.toNat - 48) (by omega)
  rwa [show 48 + (d.toNat - 48) = d.toNat by omega, Char.ofNat_toNat] at this

theorem isDigit_toDigits {n : Nat} {c : Char} (h : c ∈ Nat.toDigits 10 n) : c.isDigit :=
  Nat.isDigit_of_mem_toDigits (by decide) (by decide) h

theorem parseU64_toDigits (n : UInt64) : parseU64 (Nat.toDigits 10 n.toNat) = some n := by
  have hparse : (Nat.toDigits 10 n.toNat).foldlM pushDigit 0 = some n := by
    have hvalue : Nat.ofDigitChars 10 (Nat.toDigits 10 n.toNat) 0 = n.toNat := Nat.ofDigitChars_ten_toDigits
    have hfits := foldlM_pushDigit (fun c hc => isDigit_toDigits hc) (hvalue ▸ n.toNat_lt)
    rwa [hvalue, UInt64.ofNat_toNat] at hfits
  have hdigits : ∀ c ∈ Nat.toDigits 10 n.toNat, c.isDigit := fun c hc => isDigit_toDigits hc
  cases hcs : Nat.toDigits 10 n.toNat with
  | nil => exact absurd hcs Nat.toDigits_ne_nil
  | cons c cs =>
    rw [hcs] at hparse hdigits
    have hplus : c ≠ '+' := by
      rintro rfl
      exact absurd (hdigits '+' List.mem_cons_self) (by decide)
    rw [parseU64]
    · exact hparse
    · intro h _
      exact hplus h
    · intro c' cs' h
      exact absurd h hplus

/-! ### Units -/

/-- A suffix without digits is one of what comes after the digits. -/
theorem suffix_digits_append {suffix digits unit : List Char} (hdigits : ∀ c ∈ digits, c.isDigit)
    (hsuffix : ∀ c ∈ suffix, ¬ c.isDigit) : suffix <:+ digits ++ unit ↔ suffix <:+ unit := by
  refine ⟨fun h => ?_, fun h => h.trans (List.suffix_append digits unit)⟩
  rcases List.suffix_or_suffix_of_suffix h (List.suffix_append digits unit) with h' | ⟨pre, rfl⟩
  · exact h'
  · have hpre : pre = [] := by
      refine List.eq_nil_iff_forall_not_mem.2 fun c hc => ?_
      exact hsuffix c (List.mem_append_left unit hc) (hdigits c ((List.suffix_append_self_iff.1 h).subset hc))
    rw [hpre]
    exact List.suffix_rfl

theorem stripSuffix_digits_append {suffix digits unit : List Char} (hdigits : ∀ c ∈ digits, c.isDigit)
    (hsuffix : ∀ c ∈ suffix, ¬ c.isDigit) :
    stripSuffix suffix (digits ++ unit) = (stripSuffix suffix unit).map (digits ++ ·) := by
  rw [stripSuffix, stripSuffix]
  by_cases h : suffix <:+ unit
  · have hlength := h.length_le
    rw [if_pos ((suffix_digits_append hdigits hsuffix).2 h), if_pos h, Option.map_some, List.length_append,
      Nat.add_sub_assoc hlength, List.take_length_add_append]
  · rw [if_neg ((suffix_digits_append hdigits hsuffix).not.2 h), if_neg h, Option.map_none]

/-- The units that `format_size` prints. -/
def printedUnits : List (String × UInt64) :=
  [("GiB", 1024 * 1024 * 1024), ("MiB", 1024 * 1024), ("KiB", 1024), ("B", 1)]

theorem findSome?_sizeUnits {digits : List Char} (hdigits : ∀ c ∈ digits, c.isDigit) {unit : String} {divisor : UInt64}
    (hunit : (unit, divisor) ∈ printedUnits) :
    (sizeUnits.findSome? fun (suffix, multiplier) =>
      (stripSuffix suffix.toList (digits ++ unit.toList.map Char.toLower)).map (·, multiplier)) =
        some (digits, divisor) := by
  have hstrip : ∀ p ∈ sizeUnits, (stripSuffix p.1.toList (digits ++ unit.toList.map Char.toLower)).map (·, p.2) =
      ((stripSuffix p.1.toList (unit.toList.map Char.toLower)).map (·, p.2)).map fun q => (digits ++ q.1, q.2) := by
    intro p hp
    have hletters : ∀ p ∈ sizeUnits, p.1.toList.all (fun c => !c.isDigit) = true := by decide
    have hsuffix : ∀ c ∈ p.1.toList, ¬ c.isDigit := fun c hc => by simpa using List.all_eq_true.1 (hletters p hp) c hc
    rw [stripSuffix_digits_append hdigits hsuffix, Option.map_map, Option.map_map]
    rfl
  have hlast : (sizeUnits.findSome? fun p => (stripSuffix p.1.toList (unit.toList.map Char.toLower)).map (·, p.2)) =
      some ([], divisor) := by
    have hprinted : ∀ u ∈ printedUnits, (sizeUnits.findSome? fun p =>
        (stripSuffix p.1.toList (u.1.toList.map Char.toLower)).map (·, p.2)) = some ([], u.2) := by decide
    exact hprinted (unit, divisor) hunit
  rw [← List.head?_filterMap] at hlast ⊢
  refine (congrArg List.head? (List.filterMap_congr hstrip)).trans ?_
  rw [← List.map_filterMap, List.head?_map, hlast, Option.map_some, List.append_nil]

theorem checkedMul_div {n d : UInt64} (h : n % d = 0) : checkedMul (n / d) d = some n := by
  have hmod : n.toNat % d.toNat = 0 := by rw [← UInt64.toNat_mod, h]; rfl
  have hmul : (n / d).toNat * d.toNat = n.toNat := by
    rw [UInt64.toNat_div, Nat.div_mul_cancel (Nat.dvd_of_mod_eq_zero hmod)]
  rw [checkedMul, hmul, if_pos n.toNat_lt, Option.some.injEq, ← UInt64.toNat_inj, UInt64.toNat_mul, hmul,
    Nat.mod_eq_of_lt n.toNat_lt]

theorem formatSize_spec (n : UInt64) : ∃ number unit divisor, (unit, divisor) ∈ printedUnits ∧
    formatSize n = toString number.toNat ++ " " ++ unit ∧ checkedMul number divisor = some n := by
  rw [formatSize]
  dsimp only
  split
  · rename_i unit divisor hfind
    have hdivides := List.find?_some hfind
    rw [Bool.and_eq_true, beq_iff_eq] at hdivides
    exact ⟨n / divisor, unit, divisor, List.mem_append_left [("B", 1)] (List.mem_of_find?_eq_some hfind), rfl,
      checkedMul_div hdivides.2⟩
  · refine ⟨n, "B", 1, by decide, by rw [String.append_assoc]; rfl, ?_⟩
    have := checkedMul_div (n := n) (d := 1) UInt64.mod_one
    rwa [UInt64.div_one] at this

/-! ### Reading a printed size -/

/-- What `parse_size` makes of a text before it looks for a unit. -/
def normalize (value : String) : List Char := ((trim value).toList.map Char.toLower).filter (· ≠ ' ')

theorem parseSize_of_normalize {value : String} {digits : List Char} {number multiplier n : UInt64}
    (hunit : (sizeUnits.findSome? fun (suffix, multiplier) =>
      (stripSuffix suffix.toList (normalize value)).map (·, multiplier)) = some (digits, multiplier))
    (hdigits : parseU64 digits = some number) (hmul : checkedMul number multiplier = some n) (hn : n ≠ 0) :
    parseSize value = .ok n := by
  rw [normalize] at hunit
  unfold parseSize
  simp only [hunit, Option.getD_some, hdigits, hmul, if_neg hn]

theorem parseSize_ok {value : String} {n : UInt64} (h : parseSize value = .ok n) : n ≠ 0 := by
  unfold parseSize at h
  dsimp only at h
  split at h
  · cases h
  · split at h
    · cases h
    · split_ifs at h with hzero
      cases h
      exact hzero

theorem trim_eq_self {s : String} (hfirst : ∀ c, s.toList.head? = some c → ¬ isWhitespace c)
    (hlast : ∀ c, s.toList.getLast? = some c → ¬ isWhitespace c) : trim s = s := by
  have hdrop : ∀ cs : List Char, (∀ c, cs.head? = some c → ¬ isWhitespace c) → cs.dropWhile isWhitespace = cs := by
    intro cs hcs
    cases cs with
    | nil => rfl
    | cons c cs => exact List.dropWhile_cons_of_neg (hcs c rfl)
  rw [trim, hdrop _ hfirst, hdrop _ (by simpa using hlast), List.reverse_reverse, String.ofList_toList]

theorem normalize_printed {number : Nat} {unit : String} {divisor : UInt64} (hunit : (unit, divisor) ∈ printedUnits) :
    normalize (toString number ++ " " ++ unit) = Nat.toDigits 10 number ++ unit.toList.map Char.toLower := by
  have hletters : ∀ u ∈ printedUnits, (u.1.toList.map Char.toLower).filter (· ≠ ' ') = u.1.toList.map Char.toLower ∧
      ∃ c, u.1.toList.getLast? = some c ∧ ¬ isWhitespace c := by
    simp only [printedUnits, List.forall_mem_cons]
    refine ⟨⟨by decide, 'B', by decide⟩, ⟨by decide, 'B', by decide⟩, ⟨by decide, 'B', by decide⟩,
      ⟨by decide, 'B', by decide⟩, nofun⟩
  obtain ⟨hkept, c, hc, hblank⟩ := hletters _ hunit
  have hdigit : ∀ d ∈ Nat.toDigits 10 number, d.toLower = d ∧ d ≠ ' ' ∧ ¬ isWhitespace d :=
    fun d hd => isDigit_spec (isDigit_toDigits hd)
  have hchars : (toString number ++ " " ++ unit).toList = Nat.toDigits 10 number ++ ' ' :: unit.toList := by
    rw [Nat.toString_eq_repr, String.toList_append, String.toList_append, Nat.toList_repr, List.append_assoc]
    rfl
  have htrim : trim (toString number ++ " " ++ unit) = toString number ++ " " ++ unit := by
    refine trim_eq_self ?_ ?_
    · intro d hd
      rw [hchars, List.head?_append_of_ne_nil _ Nat.toDigits_ne_nil] at hd
      exact (hdigit d (List.mem_of_head? hd)).2.2
    · intro d hd
      rw [hchars, List.getLast?_append, List.getLast?_cons, hc] at hd
      cases hd
      exact hblank
  have hlower : (Nat.toDigits 10 number).map Char.toLower = Nat.toDigits 10 number := by
    rw [List.map_congr_left fun d hd => (hdigit d hd).1, List.map_id']
  have hfilter : (Nat.toDigits 10 number).filter (· ≠ ' ') = Nat.toDigits 10 number :=
    List.filter_eq_self.2 fun d hd => decide_eq_true (hdigit d hd).2.1
  rw [normalize, htrim, hchars, List.map_append, List.map_cons, hlower, List.filter_append, hfilter,
    List.filter_cons_of_neg (by decide), hkept]

theorem parseSize_printed {n : UInt64} (hn : n ≠ 0) : parseSize (formatSize n) = .ok n := by
  obtain ⟨number, unit, divisor, hunit, hprint, hmul⟩ := formatSize_spec n
  have hfind := findSome?_sizeUnits (fun c hc => isDigit_toDigits (n := number.toNat) hc) hunit
  rw [← normalize_printed hunit, ← hprint] at hfind
  exact parseSize_of_normalize hfind (parseU64_toDigits number) hmul hn

/-- `parse_size` reads what `format_size` prints, of every size that it may return. -/
theorem parseSize_formatSize :
    (∀ n : UInt64, 1 ≤ n → parseSize (formatSize n) = .ok n) ∧
    ∀ value n, parseSize value = .ok n → parseSize (formatSize n) = .ok n := by
  refine ⟨fun n hn => parseSize_printed ?_, fun value n h => parseSize_printed (parseSize_ok h)⟩
  rintro rfl
  exact absurd hn (by decide)

theorem parseSize_formatSize_half :
    parseSize (formatSize 1536) = .ok 1536 ∧ parseSize (formatSize 6144) = .ok 6144 :=
  ⟨parseSize_formatSize.1 1536 (by decide), parseSize_formatSize.2 " 6 KB " 6144 (by decide)⟩

end Mimeclip
