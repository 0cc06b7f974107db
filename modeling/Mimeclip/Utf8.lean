import Mimeclip.Text

/-!
# Decoding UTF-8

`lossyChars` reads a byte at a time (`lossyStep`), and gives back what was encoded (`fromUtf8Lossy_asBytes`). An
ASCII byte stands for itself wherever it comes. The bytes of texts are in the order of the texts
(`asBytes_strictMono`).
-/

namespace Mimeclip

/-! ### Bytes of a string -/

theorem asBytes_eq (s : String) : asBytes s = s.toList.flatMap String.utf8EncodeChar := by
  have h : s.toUTF8 = (s.toList.flatMap String.utf8EncodeChar).toByteArray := (String.utf8Encode_toList (b := s)).symm
  rw [asBytes, h, List.data_toByteArray]

theorem asBytes_append (s t : String) : asBytes (s ++ t) = asBytes s ++ asBytes t := by
  rw [asBytes_eq, asBytes_eq, asBytes_eq, String.toList_append, List.flatMap_append]

def Ascii (c : Char) : Prop := c.toNat < 0x80

/-- The bytes of a character are those of its scalar value, by width. -/
theorem utf8EncodeChar_cases (c : Char) :
    c.toNat < 0x80 ∧ String.utf8EncodeChar c = [UInt8.ofNat c.toNat] ∨
    (0x80 ≤ c.toNat ∧ c.toNat < 0x800) ∧ String.utf8EncodeChar c =
      [UInt8.ofNat (c.toNat / 64 % 32 + 0xC0), UInt8.ofNat (c.toNat % 64 + 0x80)] ∨
    (0x800 ≤ c.toNat ∧ c.toNat < 0x10000) ∧ String.utf8EncodeChar c =
      [UInt8.ofNat (c.toNat / 4096 % 16 + 0xE0), UInt8.ofNat (c.toNat / 64 % 64 + 0x80),
        UInt8.ofNat (c.toNat % 64 + 0x80)] ∨
    0x10000 ≤ c.toNat ∧ String.utf8EncodeChar c =
      [UInt8.ofNat (c.toNat / 262144 % 8 + 0xF0), UInt8.ofNat (c.toNat / 4096 % 64 + 0x80),
        UInt8.ofNat (c.toNat / 64 % 64 + 0x80), UInt8.ofNat (c.toNat % 64 + 0x80)] := by
  rcases Nat.lt_or_ge c.toNat 0x80 with h₁ | h₁
  · exact .inl ⟨h₁, if_pos (Nat.le_of_lt_succ h₁)⟩
  have hnot₁ := Nat.not_le_of_lt h₁
  rcases Nat.lt_or_ge c.toNat 0x800 with h₂ | h₂
  · exact .inr (.inl ⟨⟨h₁, h₂⟩, (if_neg hnot₁).trans (if_pos (Nat.le_of_lt_succ h₂))⟩)
  have hnot₂ := Nat.not_le_of_lt h₂
  rcases Nat.lt_or_ge c.toNat 0x10000 with h₃ | h₃
  · refine .inr (.inr (.inl ⟨⟨h₂, h₃⟩, ?_⟩))
    exact (if_neg hnot₁).trans ((if_neg hnot₂).trans (if_pos (Nat.le_of_lt_succ h₃)))
  · refine .inr (.inr (.inr ⟨h₃, ?_⟩))
    exact (if_neg hnot₁).trans ((if_neg hnot₂).trans (if_neg (Nat.not_le_of_lt h₃)))

theorem utf8EncodeChar_ascii {c : Char} (h : Ascii c) : String.utf8EncodeChar c = [UInt8.ofNat c.toNat] :=
  if_pos (Nat.le_of_lt_succ h)

theorem asBytes_ofList_ascii {cs : List Char} (h : ∀ c ∈ cs, Ascii c) :
    asBytes (String.ofList cs) = cs.map fun c => UInt8.ofNat c.toNat := by
  rw [asBytes_eq, String.toList_ofList]
  induction cs with
  | nil => rfl
  | cons c cs ih =>
    rw [List.flatMap_cons, utf8EncodeChar_ascii (h c List.mem_cons_self), List.map_cons,
      ih fun c' hc => h c' (List.mem_cons_of_mem c hc)]
    rfl

theorem toNat_ofNat_byte {n : Nat} (h : n < 256) : (UInt8.ofNat n).toNat = n := by
  rw [UInt8.toNat_ofNat', Nat.mod_eq_of_lt h]

/-- The bytes of a longer sequence are no ASCII bytes. -/
theorem toNat_of_mem_utf8EncodeChar {c : Char} {b : UInt8} (hb : b < 0x80) (h : b ∈ String.utf8EncodeChar c) :
    c.toNat = b.toNat := by
  have hlong : ∀ n, 0x80 ≤ n → n < 256 → b ≠ UInt8.ofNat n := by
    rintro n hn hlt rfl
    rw [UInt8.lt_iff_toNat_lt, toNat_ofNat_byte hlt] at hb
    exact absurd hb (Nat.not_lt.2 hn)
  obtain ⟨hc, he⟩ | ⟨-, he⟩ | ⟨-, he⟩ | ⟨-, he⟩ := utf8EncodeChar_cases c
  all_goals rw [he] at h
  · rw [List.mem_singleton.1 h, toNat_ofNat_byte (hc.trans (by decide))]
  all_goals simp only [List.mem_cons, List.not_mem_nil, or_false] at h
  · rcases h with h | h <;> exact absurd h (hlong _ (by omega) (by omega))
  · rcases h with h | h | h <;> exact absurd h (hlong _ (by omega) (by omega))
  · rcases h with h | h | h | h <;> exact absurd h (hlong _ (by omega) (by omega))

/-! ### A first byte -/

/-- The least and the greatest scalar value that the sequence can decode to. -/
def Utf8Pending.least (p : Utf8Pending) : Nat := (p.bits * 64 + p.lo.toNat % 64) * 64 ^ p.rest

def Utf8Pending.greatest (p : Utf8Pending) : Nat := (p.bits * 64 + p.hi.toNat % 64 + 1) * 64 ^ p.rest - 1

/-- What the sequence decodes to is a character, and no ASCII character. -/
structure Utf8Pending.Valid (p : Utf8Pending) : Prop where
  lo : 0x80 ≤ p.lo.toNat
  hi : p.hi.toNat ≤ 0xBF
  wide : 0x80 ≤ p.least
  scalar : p.greatest < 0xD800 ∨ 0xDFFF < p.least ∧ p.greatest < 0x110000

/-- The bounds of the second byte bound what the sequence decodes to. -/
theorem Utf8Pending.Valid.of_bounds {rest bits : Nat} {lo hi : UInt8} (l h : Nat) (hlo : lo.toNat = l)
    (hhi : hi.toNat = h) (hbyte : 0x80 ≤ l ∧ h ≤ 0xBF) (hwide : 0x80 ≤ (bits * 64 + l % 64) * 64 ^ rest)
    (hscalar : (bits * 64 + h % 64 + 1) * 64 ^ rest ≤ 0xD800 ∨
      0xDFFF < (bits * 64 + l % 64) * 64 ^ rest ∧ (bits * 64 + h % 64 + 1) * 64 ^ rest ≤ 0x110000) :
    Utf8Pending.Valid ⟨rest, lo, hi, bits⟩ := by
  subst hlo hhi
  have hpos : 0 < (bits * 64 + hi.toNat % 64 + 1) * 64 ^ rest :=
    Nat.mul_pos (Nat.succ_pos _) (Nat.pow_pos (by decide))
  refine ⟨hbyte.1, hbyte.2, hwide, ?_⟩
  rcases hscalar with hbelow | ⟨habove, hbelow⟩
  · exact .inl (Nat.lt_of_lt_of_le (Nat.sub_one_lt_of_lt hpos) hbelow)
  · exact .inr ⟨habove, Nat.lt_of_lt_of_le (Nat.sub_one_lt_of_lt hpos) hbelow⟩

theorem utf8Lead_ofNat {n : Nat} (h : n < 256) : utf8Lead (UInt8.ofNat n) =
    if n < 0x80 then .ascii (Char.ofNat n)
    else if n < 0xC2 then .invalid
    else if n < 0xE0 then .multi ⟨0, 0x80, 0xBF, n % 32⟩
    else if n = 0xE0 then .multi ⟨1, 0xA0, 0xBF, 0⟩
    else if n = 0xED then .multi ⟨1, 0x80, 0x9F, 13⟩
    else if n < 0xF0 then .multi ⟨1, 0x80, 0xBF, n % 16⟩
    else if n = 0xF0 then .multi ⟨2, 0x90, 0xBF, 0⟩
    else if n < 0xF4 then .multi ⟨2, 0x80, 0xBF, n % 8⟩
    else if n = 0xF4 then .multi ⟨2, 0x80, 0x8F, 4⟩
    else .invalid := by
  simp only [utf8Lead, UInt8.lt_iff_toNat_lt, ← UInt8.toNat_inj, UInt8.toNat_ofNat', Nat.mod_eq_of_lt h]
  rfl

/-- A first byte is a character, or in no sequence, or begins a sequence of a character that is not ASCII. -/
theorem utf8Lead_cases (b : UInt8) : b.toNat < 0x80 ∧ utf8Lead b = .ascii (Char.ofNat b.toNat) ∨
    0x80 ≤ b.toNat ∧ (utf8Lead b = .invalid ∨ ∃ p : Utf8Pending, p.Valid ∧ utf8Lead b = .multi p) := by
  have hlead := utf8Lead_ofNat b.toNat_lt
  rw [UInt8.ofNat_toNat] at hlead
  by_cases h₁ : b.toNat < 0x80
  · exact .inl ⟨h₁, hlead.trans (if_pos h₁)⟩
  rw [if_neg h₁] at hlead
  refine .inr ⟨Nat.le_of_not_lt h₁, ?_⟩
  by_cases h₂ : b.toNat < 0xC2
  · exact .inl (hlead.trans (if_pos h₂))
  rw [if_neg h₂] at hlead
  by_cases h₃ : b.toNat < 0xE0
  · rw [if_pos h₃] at hlead
    exact .inr ⟨_, .of_bounds 0x80 0xBF rfl rfl (by decide) (by omega) (.inl (by omega)), hlead⟩
  rw [if_neg h₃] at hlead
  by_cases h₄ : b.toNat = 0xE0
  · rw [if_pos h₄] at hlead
    exact .inr ⟨_, .of_bounds 0xA0 0xBF rfl rfl (by decide) (by decide) (.inl (by decide)), hlead⟩
  rw [if_neg h₄] at hlead
  by_cases h₅ : b.toNat = 0xED
  · rw [if_pos h₅] at hlead
    exact .inr ⟨_, .of_bounds 0x80 0x9F rfl rfl (by decide) (by decide) (.inl (by decide)), hlead⟩
  rw [if_neg h₅] at hlead
  by_cases h₆ : b.toNat < 0xF0
  · rw [if_pos h₆] at hlead
    exact .inr ⟨_, .of_bounds 0x80 0xBF rfl rfl (by decide) (by omega) (by omega), hlead⟩
  rw [if_neg h₆] at hlead
  by_cases h₇ : b.toNat = 0xF0
  · rw [if_pos h₇] at hlead
    exact .inr ⟨_, .of_bounds 0x90 0xBF rfl rfl (by decide) (by decide) (.inr (by decide)), hlead⟩
  rw [if_neg h₇] at hlead
  by_cases h₈ : b.toNat < 0xF4
  · rw [if_pos h₈] at hlead
    exact .inr ⟨_, .of_bounds 0x80 0xBF rfl rfl (by decide) (by omega) (.inr (by omega)), hlead⟩
  rw [if_neg h₈] at hlead
  by_cases h₉ : b.toNat = 0xF4
  · rw [if_pos h₉] at hlead
    exact .inr ⟨_, .of_bounds 0x80 0x8F rfl rfl (by decide) (by decide) (.inr (by decide)), hlead⟩
  · exact .inl (hlead.trans (if_neg h₉))

/-! ### One byte -/

def lossyFirst (b : UInt8) : List Char × Option Utf8Pending :=
  match utf8Lead b with
  | .ascii c => ([c], none)
  | .multi p => ([], some p)
  | .invalid => ([replacementChar], none)

/-- The characters that a byte completes, and the sequence it leaves open. -/
def lossyStep : Option Utf8Pending → UInt8 → List Char × Option Utf8Pending
  | none, b => lossyFirst b
  | some p, b =>
    if p.lo ≤ b ∧ b ≤ p.hi then
      match p.rest with
      | 0 => ([Char.ofNat (p.bits * 64 + b.toNat % 64)], none)
      | n + 1 => ([], some ⟨n, 0x80, 0xBF, p.bits * 64 + b.toNat % 64⟩)
    else (replacementChar :: (lossyFirst b).1, (lossyFirst b).2)

theorem lossyChars_cons (p : Option Utf8Pending) (b : UInt8) (bs : Bytes) :
    lossyChars p (b :: bs) = (lossyStep p b).1 ++ lossyChars (lossyStep p b).2 bs := by
  cases p with
  | none =>
    rw [lossyChars, lossyStep, lossyFirst]
    cases utf8Lead b <;> rfl
  | some p =>
    rw [lossyChars, lossyStep]
    split_ifs
    · obtain ⟨rest, lo, hi, bits⟩ := p
      cases rest <;> rfl
    · rw [lossyFirst]
      cases utf8Lead b <;> rfl

/-- The next byte of a sequence that has begun is not an ASCII byte. -/
def Pending (p : Option Utf8Pending) : Prop := ∀ q, p = some q → 0x80 ≤ q.lo

theorem Pending.none : Pending none := nofun

theorem pending_lossyFirst (b : UInt8) : Pending (lossyFirst b).2 := by
  rw [lossyFirst]
  obtain ⟨-, h⟩ | ⟨-, h | ⟨p, hp, h⟩⟩ := utf8Lead_cases b
  all_goals rw [h]
  · exact .none
  · exact .none
  · rintro q ⟨⟩
    exact UInt8.le_iff_toNat_le.2 hp.lo

theorem pending_lossyStep (p : Option Utf8Pending) (b : UInt8) : Pending (lossyStep p b).2 := by
  cases p with
  | none => exact pending_lossyFirst b
  | some p =>
    rw [lossyStep]
    split_ifs
    · obtain ⟨rest, lo, hi, bits⟩ := p
      cases rest with
      | zero => exact .none
      | succ n => rintro q ⟨⟩; exact UInt8.le_refl _
    · exact pending_lossyFirst b

/-- An ASCII byte ends a sequence that is open, and is a character of its own. -/
theorem lossyStep_ascii {p : Option Utf8Pending} (hp : Pending p) {b : UInt8} (h : b < 0x80) :
    lossyStep p b = ((p.map fun _ => replacementChar).toList ++ [Char.ofNat b.toNat], none) := by
  have hfirst : lossyFirst b = ([Char.ofNat b.toNat], none) := by rw [lossyFirst, utf8Lead, if_pos h]
  cases p with
  | none => exact hfirst
  | some q =>
    have hlo : ¬ q.lo ≤ b := UInt8.not_le.2 (UInt8.lt_of_lt_of_le h (hp q rfl))
    rw [lossyStep, if_neg fun hb => hlo hb.1, hfirst]
    rfl

theorem lossyChars_ascii {b : UInt8} (h : b < 0x80) (bs : Bytes) :
    lossyChars none (b :: bs) = Char.ofNat b.toNat :: lossyChars none bs := by
  rw [lossyChars_cons, lossyStep_ascii .none h]
  rfl

/-! ### A character -/

section
variable {n m bits : Nat} {lo hi : UInt8} {bs : Bytes}

theorem lossyChars_continue (h : m < 256) (hlo : lo.toNat ≤ m) (hhi : m ≤ hi.toNat) :
    lossyChars (some ⟨n + 1, lo, hi, bits⟩) (UInt8.ofNat m :: bs) =
      lossyChars (some ⟨n, 0x80, 0xBF, bits * 64 + m % 64⟩) bs := by
  have hm := toNat_ofNat_byte h
  rw [lossyChars, if_pos ⟨UInt8.le_iff_toNat_le.2 (hm.symm ▸ hlo), UInt8.le_iff_toNat_le.2 (hm.symm ▸ hhi)⟩, hm]

theorem lossyChars_last (h : m < 256) (hlo : lo.toNat ≤ m) (hhi : m ≤ hi.toNat) :
    lossyChars (some ⟨0, lo, hi, bits⟩) (UInt8.ofNat m :: bs) =
      Char.ofNat (bits * 64 + m % 64) :: lossyChars none bs := by
  have hm := toNat_ofNat_byte h
  rw [lossyChars, if_pos ⟨UInt8.le_iff_toNat_le.2 (hm.symm ▸ hlo), UInt8.le_iff_toNat_le.2 (hm.symm ▸ hhi)⟩, hm]

/-- A byte after the second, of which six bits are read. -/
theorem lossyChars_tail (v : Nat) :
    lossyChars (some ⟨n + 1, 0x80, 0xBF, bits⟩) (UInt8.ofNat (v % 64 + 0x80) :: bs) =
      lossyChars (some ⟨n, 0x80, 0xBF, bits * 64 + v % 64⟩) bs := by
  rw [lossyChars_continue (by omega) (show 128 ≤ v % 64 + 128 by omega) (show v % 64 + 128 ≤ 191 by omega),
    show (v % 64 + 0x80) % 64 = v % 64 by omega]

theorem lossyChars_final (v : Nat) :
    lossyChars (some ⟨0, 0x80, 0xBF, bits⟩) (UInt8.ofNat (v % 64 + 0x80) :: bs) =
      Char.ofNat (bits * 64 + v % 64) :: lossyChars none bs := by
  rw [lossyChars_last (by omega) (show 128 ≤ v % 64 + 128 by omega) (show v % 64 + 128 ≤ 191 by omega),
    show (v % 64 + 0x80) % 64 = v % 64 by omega]

theorem lossyChars_lead_ascii (h : n < 0x80) :
    lossyChars none (UInt8.ofNat n :: bs) = Char.ofNat n :: lossyChars none bs := by
  rw [lossyChars, utf8Lead_ofNat (by omega), if_pos h]

theorem lossyChars_lead {p : Utf8Pending} (h : utf8Lead (UInt8.ofNat n) = .multi p) :
    lossyChars none (UInt8.ofNat n :: bs) = lossyChars (some p) bs := by
  rw [lossyChars, h]

/-- The second byte of three, whose bounds depend on the first. -/
theorem lossyChars_three {v : Nat} (h : 0x800 ≤ v) (hv : v < 0xD800 ∨ 0xDFFF < v) (h' : v ≤ 0xFFFF) :
    lossyChars none (UInt8.ofNat (v / 4096 % 16 + 0xE0) :: UInt8.ofNat (v / 64 % 64 + 0x80) :: bs) =
      lossyChars (some ⟨0, 0x80, 0xBF, v / 64⟩) bs := by
  have hlead := utf8Lead_ofNat (n := v / 4096 % 16 + 0xE0) (by omega)
  rw [if_neg (by omega), if_neg (by omega), if_neg (by omega)] at hlead
  by_cases hE0 : v / 4096 = 0
  · rw [if_pos (by omega)] at hlead
    rw [lossyChars_lead hlead, lossyChars_continue (by omega) (show 160 ≤ _ by omega) (show _ ≤ 191 by omega),
      show 0 * 64 + (v / 64 % 64 + 0x80) % 64 = v / 64 by omega]
  by_cases hED : v / 4096 = 13
  · rw [if_neg (by omega), if_pos (by omega)] at hlead
    rw [lossyChars_lead hlead, lossyChars_continue (by omega) (show 128 ≤ _ by omega) (show _ ≤ 159 by omega),
      show 13 * 64 + (v / 64 % 64 + 0x80) % 64 = v / 64 by omega]
  · rw [if_neg (by omega), if_neg (by omega), if_pos (by omega)] at hlead
    rw [lossyChars_lead hlead, lossyChars_tail,
      show (v / 4096 % 16 + 0xE0) % 16 * 64 + v / 64 % 64 = v / 64 by omega]

theorem lossyChars_four {v : Nat} (h : 0x10000 ≤ v) (h' : v ≤ 0x10FFFF) :
    lossyChars none (UInt8.ofNat (v / 262144 % 8 + 0xF0) :: UInt8.ofNat (v / 4096 % 64 + 0x80) :: bs) =
      lossyChars (some ⟨1, 0x80, 0xBF, v / 4096⟩) bs := by
  have hlead := utf8Lead_ofNat (n := v / 262144 % 8 + 0xF0) (by omega)
  rw [if_neg (by omega), if_neg (by omega), if_neg (by omega), if_neg (by omega), if_neg (by omega),
    if_neg (by omega)] at hlead
  by_cases hF0 : v / 262144 = 0
  · rw [if_pos (by omega)] at hlead
    rw [lossyChars_lead hlead, lossyChars_continue (by omega) (show 144 ≤ _ by omega) (show _ ≤ 191 by omega),
      show 0 * 64 + (v / 4096 % 64 + 0x80) % 64 = v / 4096 by omega]
  by_cases hF4 : v / 262144 = 4
  · rw [if_neg (by omega), if_neg (by omega), if_pos (by omega)] at hlead
    rw [lossyChars_lead hlead, lossyChars_continue (by omega) (show 128 ≤ _ by omega) (show _ ≤ 143 by omega),
      show 4 * 64 + (v / 4096 % 64 + 0x80) % 64 = v / 4096 by omega]
  · rw [if_neg (by omega), if_pos (by omega)] at hlead
    rw [lossyChars_lead hlead, lossyChars_tail,
      show (v / 262144 % 8 + 0xF0) % 8 * 64 + v / 4096 % 64 = v / 4096 by omega]

end

theorem lossyChars_encode (c : Char) (bs : Bytes) :
    lossyChars none (String.utf8EncodeChar c ++ bs) = c :: lossyChars none bs := by
  have hvalid : c.toNat < 0xD800 ∨ 0xDFFF < c.toNat ∧ c.toNat < 0x110000 := c.valid
  have hc : ∀ n, n = c.toNat → Char.ofNat n = c := fun n hn => hn ▸ Char.ofNat_toNat c
  obtain ⟨h, he⟩ | ⟨h, he⟩ | ⟨h, he⟩ | ⟨h, he⟩ := utf8EncodeChar_cases c
  all_goals rw [he]
  · rw [List.singleton_append, lossyChars_lead_ascii h, hc _ rfl]
  · have hlead : utf8Lead (UInt8.ofNat (c.toNat / 64 % 32 + 0xC0)) = .multi ⟨0, 0x80, 0xBF, c.toNat / 64⟩ := by
      rw [utf8Lead_ofNat (by omega), if_neg (by omega), if_neg (by omega), if_pos (by omega),
        show (c.toNat / 64 % 32 + 0xC0) % 32 = c.toNat / 64 by omega]
    rw [List.cons_append, List.singleton_append, lossyChars_lead hlead, lossyChars_final, hc _ (by omega)]
  · rw [List.cons_append, List.cons_append, List.singleton_append,
      lossyChars_three h.1 (by omega) (by omega), lossyChars_final, hc _ (by omega)]
  · rw [List.cons_append, List.cons_append, List.cons_append, List.singleton_append,
      lossyChars_four h (by omega), lossyChars_tail, lossyChars_final, hc _ (by omega)]

theorem fromUtf8Lossy_asBytes (s : String) : fromUtf8Lossy (asBytes s) = s := by
  have h : ∀ cs : List Char, lossyChars none (cs.flatMap String.utf8EncodeChar) = cs := by
    intro cs
    induction cs with
    | nil => rfl
    | cons c cs ih => rw [List.flatMap_cons, lossyChars_encode, ih]
  rw [fromUtf8Lossy, asBytes_eq, h, String.ofList_toList]

/-! ### ASCII characters -/

theorem Utf8Pending.Valid.next {p : Utf8Pending} (hp : p.Valid) {b : UInt8} (hb : p.lo ≤ b ∧ b ≤ p.hi) {n : Nat}
    (hrest : p.rest = n + 1) : Utf8Pending.Valid ⟨n, 0x80, 0xBF, p.bits * 64 + b.toNat % 64⟩ := by
  obtain ⟨hlo, hhi, hwide, hscalar⟩ := hp
  obtain ⟨hlow, hhigh⟩ := hb
  rw [UInt8.le_iff_toNat_le] at hlow hhigh
  have hleast : p.least ≤ Utf8Pending.least ⟨n, 0x80, 0xBF, p.bits * 64 + b.toNat % 64⟩ := by
    rw [Utf8Pending.least, Utf8Pending.least, hrest, Nat.pow_succ', ← Nat.mul_assoc]
    refine Nat.mul_le_mul_right _ ?_
    show _ ≤ (p.bits * 64 + b.toNat % 64) * 64 + 128 % 64
    omega
  have hgreatest : Utf8Pending.greatest ⟨n, 0x80, 0xBF, p.bits * 64 + b.toNat % 64⟩ ≤ p.greatest := by
    rw [Utf8Pending.greatest, Utf8Pending.greatest, hrest, Nat.pow_succ', ← Nat.mul_assoc]
    refine Nat.sub_le_sub_right (Nat.mul_le_mul_right _ ?_) 1
    dsimp only
    rw [show (0xBF : UInt8).toNat % 64 = 63 from rfl]
    omega
  refine ⟨Nat.le_refl _, Nat.le_refl _, ?_, ?_⟩
  · omega
  · omega

theorem not_ascii_replacementChar : ¬ Ascii replacementChar := show ¬ (0xFFFD < 0x80) by decide

theorem Utf8Pending.Valid.not_ascii {p : Utf8Pending} (hp : p.Valid) {b : UInt8} (hb : p.lo ≤ b ∧ b ≤ p.hi)
    (hrest : p.rest = 0) : ¬ Ascii (Char.ofNat (p.bits * 64 + b.toNat % 64)) := by
  obtain ⟨hlo, hhi, hwide, hscalar⟩ := hp
  obtain ⟨hlow, hhigh⟩ := hb
  rw [UInt8.le_iff_toNat_le] at hlow hhigh
  rw [Utf8Pending.least, hrest, Nat.pow_zero, Nat.mul_one] at hwide hscalar
  rw [Utf8Pending.greatest, hrest, Nat.pow_zero, Nat.mul_one, Nat.add_sub_cancel] at hscalar
  have hvalid : (p.bits * 64 + b.toNat % 64).isValidChar := by
    rcases hscalar with h | h
    · exact .inl (by omega)
    · exact .inr ⟨by omega, by omega⟩
  have htoNat : (Char.ofNat (p.bits * 64 + b.toNat % 64)).toNat = p.bits * 64 + b.toNat % 64 := by
    rw [Char.ofNat, dif_pos hvalid]
    rfl
  rw [Ascii, htoNat]
  omega

/-- The sequence that is open, if one is. -/
def ValidPending (p : Option Utf8Pending) : Prop := ∀ q, p = some q → q.Valid

theorem ValidPending.none : ValidPending none := nofun

theorem ValidPending.pending {p : Option Utf8Pending} (hp : ValidPending p) : Pending p := fun q hq =>
  UInt8.le_iff_toNat_le.2 (hp q hq).lo

/-- What a first byte gives: itself, if it is an ASCII byte, and nothing ASCII else. -/
theorem lossyFirst_spec (b : UInt8) : ValidPending (lossyFirst b).2 ∧
    (∀ c ∈ (lossyFirst b).1, Ascii c → b < 0x80 ∧ c = Char.ofNat b.toNat) ∧
    (0x80 ≤ b → (∃ c ∈ (lossyFirst b).1, ¬ Ascii c) ∨ (lossyFirst b).2.isSome) := by
  rw [lossyFirst, UInt8.lt_iff_toNat_lt, UInt8.le_iff_toNat_le]
  obtain ⟨hb, h⟩ | ⟨-, h | ⟨p, hp, h⟩⟩ := utf8Lead_cases b
  all_goals rw [h]
  · exact ⟨.none, fun c hc _ => ⟨hb, List.mem_singleton.1 hc⟩, fun hle => absurd hb (Nat.not_lt.2 hle)⟩
  · refine ⟨.none, fun c hc hascii => ?_, fun _ => .inl ⟨_, List.mem_singleton.2 rfl, not_ascii_replacementChar⟩⟩
    rw [List.mem_singleton.1 hc] at hascii
    exact absurd hascii not_ascii_replacementChar
  · refine ⟨?_, nofun, fun _ => .inr rfl⟩
    rintro q ⟨⟩
    exact hp

theorem lossyStep_spec {p : Option Utf8Pending} (hp : ValidPending p) (b : UInt8) : ValidPending (lossyStep p b).2 ∧
    (∀ c ∈ (lossyStep p b).1, Ascii c → b < 0x80 ∧ c = Char.ofNat b.toNat) ∧
    (p.isSome ∨ 0x80 ≤ b → (∃ c ∈ (lossyStep p b).1, ¬ Ascii c) ∨ (lossyStep p b).2.isSome) := by
  obtain ⟨hvalid, hascii, hother⟩ := lossyFirst_spec b
  cases p with
  | none => exact ⟨hvalid, hascii, fun h => hother (h.resolve_left nofun)⟩
  | some q =>
    have hq := hp q rfl
    rw [lossyStep]
    split_ifs with hb
    · obtain ⟨rest, lo, hi, bits⟩ := q
      cases rest with
      | zero =>
        have hnot := hq.not_ascii hb rfl
        refine ⟨.none, fun c hc h => ?_, fun _ => .inl ⟨_, List.mem_singleton.2 rfl, hnot⟩⟩
        rw [List.mem_singleton.1 hc] at h
        exact absurd h hnot
      | succ n =>
        refine ⟨?_, nofun, fun _ => .inr rfl⟩
        rintro _ ⟨⟩
        exact hq.next hb rfl
    · refine ⟨hvalid, fun c hc h => ?_, fun _ => .inl ⟨_, List.mem_cons_self, not_ascii_replacementChar⟩⟩
      rcases List.mem_cons.1 hc with rfl | hc
      · exact absurd h not_ascii_replacementChar
      · exact hascii c hc h

/-- No ASCII character is made up. -/
theorem mem_of_mem_lossyChars {p : Option Utf8Pending} (hp : ValidPending p) {bs : Bytes} {c : Char} (hc : Ascii c)
    (h : c ∈ lossyChars p bs) : UInt8.ofNat c.toNat ∈ bs := by
  induction bs generalizing p with
  | nil =>
    cases p with
    | none => cases h
    | some q =>
      rw [lossyChars, List.mem_singleton] at h
      exact absurd (h ▸ hc) not_ascii_replacementChar
  | cons b bs ih =>
    obtain ⟨hvalid, hascii, -⟩ := lossyStep_spec hp b
    rw [lossyChars_cons, List.mem_append] at h
    rcases h with h | h
    · obtain ⟨hb, rfl⟩ := hascii c h hc
      rw [UInt8.lt_iff_toNat_lt] at hb
      rw [toNat_charOfNat (hb.trans (by decide)), UInt8.ofNat_toNat]
      exact List.mem_cons_self
    · exact List.mem_cons_of_mem b (ih hvalid h)

/-- A sequence that is open becomes a character that is not ASCII. -/
theorem exists_not_ascii {p : Option Utf8Pending} (hp : ValidPending p) (hopen : p.isSome) (bs : Bytes) :
    ∃ c ∈ lossyChars p bs, ¬ Ascii c := by
  induction bs generalizing p with
  | nil =>
    cases p with
    | none => cases hopen
    | some q => exact ⟨_, List.mem_singleton.2 rfl, not_ascii_replacementChar⟩
  | cons b bs ih =>
    obtain ⟨hvalid, -, hother⟩ := lossyStep_spec hp b
    rw [lossyChars_cons]
    rcases hother (.inl hopen) with ⟨c, hc, hnot⟩ | hopen'
    · exact ⟨c, List.mem_append_left _ hc, hnot⟩
    · obtain ⟨c, hc, hnot⟩ := ih hvalid hopen'
      exact ⟨c, List.mem_append_right _ hc, hnot⟩

/-- A text of ASCII characters is decoded from itself. -/
theorem bytes_of_lossyChars_ascii {bs : Bytes} (h : ∀ c ∈ lossyChars none bs, Ascii c) :
    bs = (lossyChars none bs).map fun c => UInt8.ofNat c.toNat := by
  induction bs with
  | nil => rfl
  | cons b bs ih =>
    have hb : b < 0x80 := by
      by_contra hb
      obtain ⟨hvalid, -, hother⟩ := lossyStep_spec .none b
      rw [lossyChars_cons] at h
      rcases hother (.inr (UInt8.not_lt.1 hb)) with ⟨c, hc, hnot⟩ | hopen
      · exact hnot (h c (List.mem_append_left _ hc))
      · obtain ⟨c, hc, hnot⟩ := exists_not_ascii hvalid hopen bs
        exact hnot (h c (List.mem_append_right _ hc))
    rw [lossyChars_ascii hb] at h ⊢
    have hcode : (Char.ofNat b.toNat).toNat = b.toNat :=
      toNat_charOfNat ((UInt8.lt_iff_toNat_lt.1 hb).trans (by decide))
    rw [List.map_cons, ← ih fun c hc => h c (List.mem_cons_of_mem _ hc), hcode, UInt8.ofNat_toNat]

theorem lossyChars_append {p : Option Utf8Pending} (hp : Pending p) {b : UInt8} (hb : b < 0x80) (as bs : Bytes) :
    lossyChars p (as ++ b :: bs) = lossyChars p as ++ Char.ofNat b.toNat :: lossyChars none bs := by
  induction as generalizing p with
  | nil =>
    rw [List.nil_append, lossyChars_cons, lossyStep_ascii hp hb]
    cases p <;> rfl
  | cons a as ih =>
    rw [List.cons_append, lossyChars_cons, lossyChars_cons, ih (pending_lossyStep p a), List.append_assoc]

theorem ascii_of_utf8EncodeChar {c : Char} (h : ∀ b ∈ String.utf8EncodeChar c, b < 0x80) : Ascii c := by
  have hpos := c.utf8Size_pos
  rw [← String.length_utf8EncodeChar] at hpos
  obtain ⟨b, hb⟩ := List.exists_mem_of_length_pos hpos
  rw [Ascii, toNat_of_mem_utf8EncodeChar (h b hb) hb]
  exact UInt8.lt_iff_toNat_lt.1 (h b hb)

/-- Only what is ASCII decodes to it. -/
theorem fromUtf8Lossy_eq_ascii {bs t : Bytes} (ht : ∀ b ∈ t, b < 0x80) : asBytes (fromUtf8Lossy bs) = t ↔ bs = t := by
  have hof : ∀ bs : Bytes, asBytes (fromUtf8Lossy bs) = t → bs = t := by
    intro bs h
    have hascii : ∀ c ∈ lossyChars none bs, Ascii c := by
      intro c hc
      refine ascii_of_utf8EncodeChar fun b hb => ht b ?_
      rw [← h, asBytes_eq, fromUtf8Lossy, String.toList_ofList]
      exact List.mem_flatMap.2 ⟨c, hc, hb⟩
    rw [bytes_of_lossyChars_ascii hascii, ← asBytes_ofList_ascii hascii]
    exact h
  refine ⟨hof bs, ?_⟩
  rintro rfl
  have hcode : ∀ b ∈ bs, (Char.ofNat b.toNat).toNat = b.toNat := fun b hb =>
    toNat_charOfNat ((UInt8.lt_iff_toNat_lt.1 (ht b hb)).trans (by decide))
  have htext : asBytes (String.ofList (bs.map fun b => Char.ofNat b.toNat)) = bs := by
    rw [asBytes_ofList_ascii, List.map_map]
    · refine (List.map_congr_left fun b hb => ?_).trans (List.map_id bs)
      rw [Function.comp_apply, hcode b hb, UInt8.ofNat_toNat, id]
    · intro c hc
      obtain ⟨b, hb, rfl⟩ := List.mem_map.1 hc
      rw [Ascii, hcode b hb]
      exact UInt8.lt_iff_toNat_lt.1 (ht b hb)
  rw [← htext, fromUtf8Lossy_asBytes]

/-! ### The order of texts -/

theorem cons_ofNat_lt {a b : Nat} {x y : Bytes} (hb : b < 256) (h : a < b ∨ a = b ∧ x < y) :
    UInt8.ofNat a :: x < UInt8.ofNat b :: y := by
  rcases h with h | ⟨rfl, h⟩
  · refine List.cons_lt_cons_iff.2 (.inl (UInt8.lt_iff_toNat_lt.2 ?_))
    rwa [UInt8.toNat_ofNat', UInt8.toNat_ofNat', Nat.mod_eq_of_lt hb, Nat.mod_eq_of_lt (h.trans hb)]
  · exact List.cons_lt_cons_iff.2 (.inr ⟨rfl, h⟩)

theorem utf8EncodeChar_lt {c d : Char} (h : c < d) (x y : Bytes) :
    String.utf8EncodeChar c ++ x < String.utf8EncodeChar d ++ y := by
  have hlt : c.toNat < d.toNat := h
  have hvalid : d.toNat < 0xD800 ∨ 0xDFFF < d.toNat ∧ d.toNat < 0x110000 := d.valid
  have hc := utf8EncodeChar_cases c
  have hd := utf8EncodeChar_cases d
  generalize c.toNat = n at *
  generalize d.toNat = m at *
  obtain ⟨h₁, he⟩ | ⟨h₁, he⟩ | ⟨h₁, he⟩ | ⟨h₁, he⟩ := hc
  all_goals obtain ⟨h₂, he'⟩ | ⟨h₂, he'⟩ | ⟨h₂, he'⟩ | ⟨h₂, he'⟩ := hd
  all_goals try omega
  all_goals rw [he, he', List.cons_append, List.cons_append]
  all_goals refine cons_ofNat_lt (by omega) ?_
  all_goals try exact .inl (by omega)
  all_goals simp only [List.cons_append, List.nil_append]
  · rcases Nat.lt_or_ge (n / 64) (m / 64) with h₁ | h₁
    · exact .inl (by omega)
    · exact .inr ⟨by omega, cons_ofNat_lt (by omega) (.inl (by omega))⟩
  · rcases Nat.lt_or_ge (n / 4096) (m / 4096) with h₁ | h₁
    · exact .inl (by omega)
    refine .inr ⟨by omega, cons_ofNat_lt (by omega) ?_⟩
    rcases Nat.lt_or_ge (n / 64) (m / 64) with h₂ | h₂
    · exact .inl (by omega)
    · exact .inr ⟨by omega, cons_ofNat_lt (by omega) (.inl (by omega))⟩
  · rcases Nat.lt_or_ge (n / 262144) (m / 262144) with h₁ | h₁
    · exact .inl (by omega)
    refine .inr ⟨by omega, cons_ofNat_lt (by omega) ?_⟩
    rcases Nat.lt_or_ge (n / 4096) (m / 4096) with h₂ | h₂
    · exact .inl (by omega)
    refine .inr ⟨by omega, cons_ofNat_lt (by omega) ?_⟩
    rcases Nat.lt_or_ge (n / 64) (m / 64) with h₃ | h₃
    · exact .inl (by omega)
    · exact .inr ⟨by omega, cons_ofNat_lt (by omega) (.inl (by omega))⟩

theorem asBytes_strictMono : StrictMono asBytes := by
  have hchars : ∀ cs ds : List Char, cs < ds →
      cs.flatMap String.utf8EncodeChar < ds.flatMap String.utf8EncodeChar := by
    intro cs
    induction cs with
    | nil =>
      intro ds h
      cases ds with
      | nil => exact absurd h (List.not_lt_nil _)
      | cons d ds =>
        rw [List.flatMap_nil, List.flatMap_cons]
        have hpos := d.utf8Size_pos
        rw [← String.length_utf8EncodeChar] at hpos
        cases hd : String.utf8EncodeChar d with
        | nil => rw [hd] at hpos; exact absurd hpos (Nat.lt_irrefl 0)
        | cons b bs => exact List.nil_lt_cons ..
    | cons c cs ih =>
      intro ds h
      cases ds with
      | nil => exact absurd h (List.not_lt_nil _)
      | cons d ds =>
        rw [List.flatMap_cons, List.flatMap_cons]
        rcases List.cons_lt_cons_iff.1 h with hlt | ⟨rfl, hlt⟩
        · exact utf8EncodeChar_lt hlt _ _
        · exact List.append_left_lt (ih ds hlt)
  intro s t h
  rw [asBytes_eq, asBytes_eq]
  exact hchars s.toList t.toList (String.lt_iff.1 h)

end Mimeclip
