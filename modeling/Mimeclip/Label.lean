import Mimeclip.Types

/-!
# Labels that are cut (`build_label` of `common/types.rs`)

A text of more than 120 bytes is cut at byte 120, which need not be the end of a character: there
`&trimmed[..120]` panics. Nothing else in `build_label` does (`buildLabel_iff`).
-/

namespace Mimeclip

theorem utf8ByteSize_ofList_cons (c : Char) (cs : List Char) :
    (String.ofList (c :: cs)).utf8ByteSize = c.utf8Size + (String.ofList cs).utf8ByteSize := by
  have : String.ofList (c :: cs) = String.singleton c ++ String.ofList cs := by
    apply String.toList_injective
    simp
  rw [this, String.utf8ByteSize_append, String.utf8ByteSize_singleton]

theorem takeBytes_zero {cs pre : List Char} :
    takeBytes 0 cs = some pre ↔ pre.IsPrefix cs ∧ (String.ofList pre).utf8ByteSize = 0 := by
  rw [takeBytes, Option.some.injEq, String.utf8ByteSize_eq_zero_iff, String.ofList_eq_empty_iff]
  constructor
  · rintro rfl
    exact ⟨List.nil_prefix, rfl⟩
  · intro h
    exact h.2.symm

theorem takeBytes_eq_some {n : Nat} {cs pre : List Char} :
    takeBytes n cs = some pre ↔ pre.IsPrefix cs ∧ (String.ofList pre).utf8ByteSize = n := by
  induction cs generalizing n pre with
  | nil =>
    cases n with
    | zero => exact takeBytes_zero
    | succ n =>
      rw [List.prefix_nil]
      refine ⟨nofun, ?_⟩
      rintro ⟨rfl, h⟩
      simp at h
  | cons c cs ih =>
    cases n with
    | zero => exact takeBytes_zero
    | succ n =>
      have hpos := c.utf8Size_pos
      rw [takeBytes]
      constructor
      · intro h
        split_ifs at h with hfits
        obtain ⟨rest, hrest, rfl⟩ := Option.map_eq_some_iff.1 h
        obtain ⟨hpre, hsize⟩ := ih.1 hrest
        refine ⟨List.cons_prefix_cons.2 ⟨rfl, hpre⟩, ?_⟩
        rw [utf8ByteSize_ofList_cons, hsize]
        omega
      · rintro ⟨hpre, hsize⟩
        cases pre with
        | nil => simp at hsize
        | cons d rest =>
          obtain ⟨rfl, hrest⟩ := List.cons_prefix_cons.1 hpre
          rw [utf8ByteSize_ofList_cons] at hsize
          rw [if_pos (by omega), ih.2 ⟨hrest, by omega⟩, Option.map_some]

theorem sliceTo_eq_some {n : Nat} {s pre : String} :
    sliceTo n s = some pre ↔ (∃ post, s = pre ++ post) ∧ pre.utf8ByteSize = n := by
  rw [sliceTo, Option.map_eq_some_iff]
  constructor
  · rintro ⟨cs, htake, rfl⟩
    obtain ⟨⟨post, hpost⟩, hsize⟩ := takeBytes_eq_some.1 htake
    exact ⟨⟨String.ofList post, by rw [← String.ofList_append, hpost, String.ofList_toList]⟩, hsize⟩
  · rintro ⟨⟨post, rfl⟩, hsize⟩
    refine ⟨pre.toList, takeBytes_eq_some.2 ⟨?_, ?_⟩, String.ofList_toList⟩
    · rw [String.toList_append]
      exact List.prefix_append ..
    · rw [String.ofList_toList, hsize]

/-- Slicing does not panic if and only if the index is a character boundary. -/
theorem sliceTo_isSome {n : Nat} {s : String} :
    (∃ pre, sliceTo n s = some pre) ↔ (⟨n⟩ : String.Pos.Raw).IsValid s := by
  simp only [sliceTo_eq_some]
  rw [String.Pos.Raw.isValid_iff_exists_append]
  constructor
  · rintro ⟨pre, ⟨post, rfl⟩, rfl⟩
    exact ⟨pre, post, rfl, rfl⟩
  · rintro ⟨pre, post, rfl, hpos⟩
    exact ⟨pre, ⟨post, rfl⟩, (congrArg String.Pos.Raw.byteIdx hpos).symm⟩

/-! ### `build_label` -/

/-- The text that labels an entry of kind `Text`, if it has one. -/
def labelText (payloads : Payloads) : Option String :=
  (((getPayload payloads "text/plain;charset=utf-8").or (getPayload payloads "text/plain")).or
    ((payloads.find? fun p => startsWith p.1 "text/").map (·.2))).map fun data => trim (fromUtf8Lossy data)

section
variable {blobSize : Bytes → Option (Nat × Nat)} {payloads : Payloads}

theorem buildLabel_text {trimmed : String} (h : labelText payloads = some trimmed) :
    buildLabel blobSize .text payloads =
      if trimmed.utf8ByteSize > 120 then (sliceTo 120 trimmed).map (· ++ "…") else some trimmed := by
  obtain ⟨data, hdata, rfl⟩ := Option.map_eq_some_iff.1 h
  simp only [buildLabel, hdata]

theorem buildLabel_text_none (blobSize : Bytes → Option (Nat × Nat)) (h : labelText payloads = none) :
    buildLabel blobSize .text payloads = some "text" := by
  have hdata := Option.map_eq_none_iff.1 h
  simp only [buildLabel, hdata]

theorem buildLabel_of_ne_text (blobSize : Bytes → Option (Nat × Nat)) (payloads : Payloads) {kind : EntryKind}
    (hkind : kind ≠ .text) :
    ∃ label, buildLabel blobSize kind payloads = some label := by
  cases kind with
  | text => exact absurd rfl hkind
  | image => exact ⟨_, rfl⟩
  | other => exact ⟨_, rfl⟩
  | file | uri =>
    rw [buildLabel]
    split
    · split <;> exact ⟨_, rfl⟩
    · exact ⟨_, rfl⟩

end

/-- The text itself, or a beginning of it with an ellipsis. -/
def Abbreviates (label text : String) : Prop := label = text ∨ ∃ pre post, text = pre ++ post ∧ label = pre ++ "…"

/-- There is a label, and it abbreviates the text of the entry, if and only if byte 120 of a longer text is a
character boundary. -/
theorem buildLabel_iff (blobSize : Bytes → Option (Nat × Nat)) (kind : EntryKind) (payloads : Payloads) :
    (∃ label, buildLabel blobSize kind payloads = some label ∧
      (kind = .text → ∀ text, labelText payloads = some text → Abbreviates label text)) ↔
    (kind = .text → ∀ text, labelText payloads = some text →
      text.utf8ByteSize ≤ 120 ∨ (⟨120⟩ : String.Pos.Raw).IsValid text) := by
  by_cases hkind : kind = .text
  · subst hkind
    cases htext : labelText payloads with
    | none =>
      have hlabel := buildLabel_text_none blobSize htext
      exact ⟨fun _ _ _ => nofun, fun _ => ⟨"text", hlabel, fun _ _ => nofun⟩⟩
    | some text =>
      rw [buildLabel_text htext]
      by_cases hlong : text.utf8ByteSize > 120
      · rw [if_pos hlong]
        constructor
        · rintro ⟨label, hlabel, -⟩ - _ ⟨⟩
          obtain ⟨pre, hpre, -⟩ := Option.map_eq_some_iff.1 hlabel
          exact .inr (sliceTo_isSome.1 ⟨pre, hpre⟩)
        · intro h
          obtain ⟨pre, hpre⟩ := sliceTo_isSome.2 ((h rfl text rfl).resolve_left (by omega))
          obtain ⟨⟨post, hpost⟩, -⟩ := sliceTo_eq_some.1 hpre
          refine ⟨pre ++ "…", by rw [hpre, Option.map_some], ?_⟩
          rintro - _ ⟨⟩
          exact .inr ⟨pre, post, hpost, rfl⟩
      · rw [if_neg hlong]
        refine ⟨?_, fun _ => ⟨text, rfl, ?_⟩⟩
        · rintro - - _ ⟨⟩
          exact .inl (by omega)
        · rintro - _ ⟨⟩
          exact .inl rfl
  · obtain ⟨label, hlabel⟩ := buildLabel_of_ne_text blobSize payloads hkind
    exact ⟨fun _ h => absurd h hkind, fun _ => ⟨label, hlabel, fun h => absurd h hkind⟩⟩

/-- A text of 119 letters and an `é`: byte 120 is the second of its two. -/
theorem buildLabel_panics : ¬ ∃ label,
    buildLabel (fun _ => none) .text [("text/plain", List.replicate 119 97 ++ [0xC3, 0xA9])] = some label := by
  have h : buildLabel (fun _ => none) .text [("text/plain", List.replicate 119 97 ++ [0xC3, 0xA9])] = none := by
    decide +kernel
  rw [h]
  exact nofun

end Mimeclip
