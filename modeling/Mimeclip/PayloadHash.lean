import Mimeclip.Payload

/-!
# When the payload hash identifies a capture

The hashed bytes separate MIME types and payloads by NUL bytes, but a payload may contain NUL bytes
itself. So a capture with two or more types always hashes like the capture that has only the first
type and the remaining records inside its payload; a capture with one type is told apart from all
others unless its payload embeds a NUL-delimited MIME string sorted after its own
(`payloadHash_inj_iff`). Captures without NUL bytes in their payloads never collide with each other
(`payloadHash_inj_of_nulFree`).
-/

namespace Mimeclip

/-- `ps` is what `normalizePayloads` returns for some capture. -/
def IsNormalized (ps : Payloads) : Prop :=
  ∃ captured : Payloads, (∀ p ∈ captured, NulFree p.1) ∧ normalizePayloads captured = ps

theorem isNormalized_iff {ps : Payloads} :
    IsNormalized ps ↔ MimeSorted ps ∧ ∀ p ∈ ps, NulFree p.1 := by
  constructor
  · rintro ⟨captured, hfree, rfl⟩
    refine ⟨normalizePayloads_sorted captured, fun ⟨m, d⟩ hp => ?_⟩
    exact hfree (m, d) (mem_normalizePayloads.1 hp).1
  · rintro ⟨hs, hfree⟩
    exact ⟨ps, hfree, normalizePayloads_of_sorted hs⟩

def records (ps : Payloads) : List (Bytes × Bytes) := ps.map fun p => (asBytes p.1, p.2)

theorem records_inj {ps qs : Payloads} (h : records ps = records qs) : ps = qs := by
  refine List.map_injective_iff.2 (fun p q hpq => ?_) h
  simp only [Prod.mk.injEq, asBytes_inj] at hpq
  exact Prod.ext hpq.1 hpq.2

section
variable {sha256 : Bytes → String} (hsha : Function.Injective sha256)
include hsha

theorem payloadHash_eq_iff {ps qs : Payloads} (hp : IsNormalized ps) (hq : IsNormalized qs) :
    payloadHash sha256 ps = payloadHash sha256 qs ↔
      Framing.stream 0 (records ps) = Framing.stream 0 (records qs) := by
  rw [payloadHash, payloadHash, hsha.eq_iff, hashStream_of_sorted (isNormalized_iff.1 hp).1,
    hashStream_of_sorted (isNormalized_iff.1 hq).1, records, records]

theorem payloadHash_inj_of_nulFree {ps qs : Payloads} (hp : IsNormalized ps) (hq : IsNormalized qs)
    (hp0 : ∀ p ∈ ps, 0 ∉ p.2) (hq0 : ∀ q ∈ qs, 0 ∉ q.2)
    (h : payloadHash sha256 ps = payloadHash sha256 qs) : ps = qs := by
  have free : ∀ {rs : Payloads}, IsNormalized rs → (∀ r ∈ rs, 0 ∉ r.2) →
      ∀ r ∈ records rs, 0 ∉ r.1 ∧ 0 ∉ r.2 := by
    intro rs hrs h0 r hr
    obtain ⟨p, hp, rfl⟩ := List.mem_map.1 hr
    exact ⟨(isNormalized_iff.1 hrs).2 p hp, h0 p hp⟩
  exact records_inj (Framing.stream_inj (free hp hp0) (free hq hq0)
    ((payloadHash_eq_iff hsha hp hq).1 h))

end

/-- One MIME type at most, and no MIME string sorted after it sits between two NUL bytes of its
payload. -/
def Unambiguous : Payloads → Prop
  | [] => True
  | [(mime, data)] => ∀ (mime' : String) (pre post : Bytes), NulFree mime' → mime < mime' →
      data ≠ pre ++ 0 :: (asBytes mime' ++ 0 :: post)
  | _ :: _ :: _ => False

theorem IsNormalized.merge {m m' : String} {d d' : Bytes} {ps : Payloads}
    (h : IsNormalized ((m, d) :: (m', d') :: ps)) :
    IsNormalized ((m, d ++ 0 :: (asBytes m' ++ 0 :: d')) :: ps) := by
  obtain ⟨hs, hfree⟩ := isNormalized_iff.1 h
  obtain ⟨hm, hs⟩ := List.pairwise_cons.1 hs
  refine isNormalized_iff.2 ⟨List.pairwise_cons.2 ⟨fun p hp => ?_, (List.pairwise_cons.1 hs).2⟩, ?_⟩
  · exact hm p (by simp [hp])
  · intro p hp
    rcases List.mem_cons.1 hp with rfl | hp
    · exact hfree (m, d) (by simp)
    · exact hfree p (by simp [hp])

theorem IsNormalized.split {m m' : String} {pre post : Bytes}
    (h : IsNormalized [(m, pre ++ 0 :: (asBytes m' ++ 0 :: post))]) (hm' : NulFree m') (hlt : m < m') :
    IsNormalized [(m, pre), (m', post)] := by
  obtain ⟨-, hfree⟩ := isNormalized_iff.1 h
  have hm : NulFree m := hfree (m, pre ++ 0 :: (asBytes m' ++ 0 :: post)) (by simp)
  refine isNormalized_iff.2 ⟨by simpa [MimeSorted] using hlt, ?_⟩
  rintro p hp
  rcases List.mem_cons.1 hp with rfl | hp
  · exact hm
  · rw [List.mem_singleton.1 hp]; exact hm'

section
variable {sha256 : Bytes → String} (hsha : Function.Injective sha256) {ps : Payloads} (hp : IsNormalized ps)
include hsha hp

theorem unambiguous_of_inj
    (h : ∀ qs, IsNormalized qs → payloadHash sha256 ps = payloadHash sha256 qs → ps = qs) : Unambiguous ps := by
  match ps with
  | [] => trivial
  | [(m, d)] =>
    -- a payload that embeds a later MIME string also reads as a capture of two types
    rintro m' pre post hm' hlt rfl
    have hq := hp.split hm' hlt
    have hst := @Framing.stream_merge _ 0 (asBytes m) pre (asBytes m') post []
    have hhash := (payloadHash_eq_iff hsha hp hq).2 (by simpa [records] using hst)
    exact absurd (congrArg List.length (h _ hq hhash)) (by simp)
  | (m, d) :: (m', d') :: rest =>
    -- the first payload can absorb the second record
    have hq := hp.merge
    have hst := @Framing.stream_merge _ 0 (asBytes m) d (asBytes m') d' (records rest)
    have hhash := (payloadHash_eq_iff hsha hp hq).2 (by simpa [records] using hst.symm)
    exact absurd (congrArg List.length (h _ hq hhash)) (by simp)

theorem eq_of_unambiguous (hu : Unambiguous ps) {qs : Payloads} (hq : IsNormalized qs)
    (heq : payloadHash sha256 ps = payloadHash sha256 qs) : ps = qs := by
  have hst := (payloadHash_eq_iff hsha hp hq).1 heq
  match ps, qs with
  | [], [] => rfl
  | [], q :: qs => exact absurd hst.symm (Framing.stream_cons_ne_nil _ _)
  | _ :: _ :: _, _ => exact absurd hu id
  | [(m, d)], [] => exact absurd hst (Framing.stream_cons_ne_nil _ _)
  | [(m, d)], (n, e) :: rest =>
    obtain ⟨-, hpf⟩ := isNormalized_iff.1 hp
    obtain ⟨hqs, hqf⟩ := isNormalized_iff.1 hq
    have hm : NulFree m := hpf (m, d) (by simp)
    have hn : NulFree n := hqf (n, e) (by simp)
    obtain ⟨hkey, hval⟩ := Framing.stream_cons_key hm hn hst
    obtain rfl := asBytes_inj.1 hkey
    match rest with
    | [] =>
      have hval' : d ++ [0] = e ++ [0] := hval
      rw [List.append_cancel_right hval']
    | (n', e') :: rest =>
      obtain ⟨post, hd⟩ := Framing.value_of_stream_cons hval
      have hlt : m < n' := (List.pairwise_cons.1 hqs).1 (n', e') (by simp)
      exact absurd hd (hu n' e post (hqf (n', e') (by simp)) hlt)

end

/-- A capture shares its hash with no other capture if and only if it is `Unambiguous`. -/
theorem payloadHash_inj_iff (sha256 : Bytes → String) (hsha : Function.Injective sha256)
    (ps : Payloads) (hp : IsNormalized ps) :
    (∀ qs, IsNormalized qs → payloadHash sha256 ps = payloadHash sha256 qs → ps = qs) ↔
      Unambiguous ps :=
  ⟨unambiguous_of_inj hsha hp, fun hu _ hq heq => eq_of_unambiguous hsha hp hu hq heq⟩

/-- An injective hash that agrees with SHA-256 on `"text/plain\0hi\0"`. -/
def sampleSha256 (bytes : Bytes) : String :=
  if bytes = asBytes "text/plain" ++ [0, 104, 105, 0] then
    "29af18af177ea8ddcfc446c48c2318e16a6e7b3fe9f4c7a5a4f142f38ed3c00d"
  else String.ofList ('#' :: bytes.map fun b => Char.ofNat b.toNat)

theorem sampleSha256_injective : Function.Injective sampleSha256 := by
  have hbyte : Function.Injective fun b : UInt8 => Char.ofNat b.toNat := by
    have hval : ∀ b : UInt8, (Char.ofNat b.toNat).toNat = b.toNat := fun b =>
      toNat_charOfNat (by have := b.toNat_lt; omega)
    intro a b h
    exact UInt8.toNat_inj.1 (by rw [← hval a, ← hval b]; exact congrArg Char.toNat h)
  have hne : ∀ cs : List Char, String.ofList ('#' :: cs) ≠
      "29af18af177ea8ddcfc446c48c2318e16a6e7b3fe9f4c7a5a4f142f38ed3c00d" := by
    intro cs h
    have := congrArg String.toList h
    simp at this
  intro a b h
  unfold sampleSha256 at h
  split_ifs at h with ha hb hb
  · rw [ha, hb]
  · exact absurd h.symm (hne _)
  · exact absurd h (hne _)
  · have := String.ofList_injective h
    exact hbyte.list_map (List.cons.inj this).2

theorem payloadHash_inj_iff_sample :
    (∀ qs, IsNormalized qs →
      payloadHash sampleSha256 [("text/plain", [104, 105])] = payloadHash sampleSha256 qs →
        [("text/plain", [104, 105])] = qs) ↔
      Unambiguous [("text/plain", [104, 105])] :=
  payloadHash_inj_iff sampleSha256 sampleSha256_injective _
    (isNormalized_iff.2 ⟨by decide, by decide⟩)

/-- Copying `x` as HTML and `y` as text hashes like copying HTML that reads `x`, NUL, `text/plain`,
NUL, `y`. -/
theorem payloadHash_collision :
    IsNormalized [("text/html", [120]), ("text/plain", [121])] ∧
      IsNormalized [("text/html", [120, 0] ++ asBytes "text/plain" ++ [0, 121])] ∧
      [("text/html", [120]), ("text/plain", [121])] ≠
        [("text/html", [120, 0] ++ asBytes "text/plain" ++ [0, 121])] ∧
      ∀ sha256, payloadHash sha256 [("text/html", [120]), ("text/plain", [121])] =
        payloadHash sha256 [("text/html", [120, 0] ++ asBytes "text/plain" ++ [0, 121])] := by
  refine ⟨isNormalized_iff.2 ⟨by decide, by decide⟩, isNormalized_iff.2 ⟨by decide, by decide⟩,
    by decide, fun sha256 => congrArg sha256 (by decide)⟩

end Mimeclip
