import Mimeclip.PipeHistory
import Mimeclip.RoundTrip
import Mimeclip.ScreenshotPath

/-!
# A screenshot in the history

The daemon offers a screenshot like a restored entry, but arms nothing, so that its own watcher captures it. The limit
of `screenshot_payloads` is one on the image, that of `read_payload_pipes` one on all that is offered: unless its hash
is armed, an image that is accepted is stored if and only if it leaves room for its path and its URI
(`screenshot_stored_iff`), and the largest that are accepted do not (`CapturesWhole.not_stored`).
-/

namespace Mimeclip

/-! ### Offers that are sent whole -/

/-- The payloads with data; the others are not stored. -/
def withData (payloads : Payloads) : Payloads := payloads.filter fun p => !p.2.isEmpty

theorem withData_size (payloads : Payloads) :
    ((withData payloads).map (·.2.length)).sum = (payloads.map (·.2.length)).sum := by
  induction payloads with
  | nil => rfl
  | cons p payloads ih =>
    rw [withData, List.filter_cons, ← withData]
    by_cases h : p.2 = []
    · simp [h, ih]
    · simp [h, ih]

theorem normalizePayloads_withData {ps payloads : Payloads} (h : MimeSorted payloads) (hperm : ps.Perm payloads) :
    normalizePayloads (withData ps) = withData payloads := by
  have hcaptured : (withData ps).Perm (withData payloads) := hperm.filter _
  rw [normalizePayloads_congr fun p => hcaptured.mem_iff]
  exact normalizePayloads_of_sorted (h.sublist List.filter_sublist)

section
variable {limit idleTimeout : Nat} {polls : List PollResult} {mimeTypes : List String} {content : String → Bytes}

/-- What the sources send is returned if and only if it fits the limit. -/
theorem readPayloadPipes_sent (hquiet : ∀ poll ∈ polls, poll.Quiet)
    (hsend : List.Forall₂ Sending (mimeTypes.map content) (histories mimeTypes.length polls))
    {result : Except PayloadReadError Payloads}
    (h : readPayloadPipes limit idleTimeout polls mimeTypes = some result) :
    let sent := mimeTypes.map fun mime => (mime, content mime)
    ((∃ payloads, result = .ok payloads) ↔ (sent.map (·.2.length)).sum ≤ limit) ∧
      ∀ payloads, result = .ok payloads → payloads = withData sent := by
  intro sent
  have hzip : mimeTypes.zip (mimeTypes.map content) = sent := by
    have := List.zip_map' (f := id) (g := content) (l := mimeTypes)
    rwa [List.map_id] at this
  have hcomplete : ∀ payloads, result = .ok payloads → payloads = withData sent := by
    rintro payloads rfl
    obtain ⟨hended, hmet⟩ := readPayloadPipes_histories h
    rw [hmet, payloadsMet_eq, bytesRead_eq_streams hsend hended, hzip, withData]
  refine ⟨⟨?_, fun hfits => ?_⟩, hcomplete⟩
  · rintro ⟨payloads, rfl⟩
    rw [← withData_size, ← hcomplete payloads rfl]
    exact (readPayloadPipes_ok h).2.2
  · -- no round exceeds the limit
    have hsize := historiesSize_le_streams hsend
    rw [streamsSize, List.map_map] at hsize
    rw [List.map_map] at hfits
    obtain ⟨pipes, hrounds, -⟩ := (readRounds_newPipes limit polls mimeTypes).1 (hsize.trans hfits)
    rw [readPayloadPipes, readLoop_eq hquiet, hrounds] at h
    dsimp only at h
    split_ifs at h
    · cases h
      exact ⟨_, rfl⟩
    · cases h

end

theorem MimeSorted.sent_perm {payloads : Payloads} (h : MimeSorted payloads) {mimeTypes : List String}
    (hperm : mimeTypes.Perm (payloads.map (·.1))) :
    (mimeTypes.map fun mime => (mime, sent payloads mime)).Perm payloads := by
  refine (hperm.map _).trans (.of_eq ?_)
  rw [List.map_map]
  refine (List.map_congr_left fun p hp => ?_).trans (List.map_id payloads)
  simp [sent, sendReply_of_mem h hp]

/-- A capture that is not empty, of a kind with a label, is stored unless it is suppressed. -/
theorem judgeCapture_eq {T : Type} (env : Env T) {payloads : Payloads} {label : String} (instant : Nat) (now : T)
    (suppress : SuppressState) (hne : payloads ≠ [])
    (hlabel : buildLabel env.blobSize (classifyKind ((normalizePayloads payloads).map (·.1)))
      (normalizePayloads payloads) = some label) :
    (judgeCapture env payloads instant now suppress).1 =
      if (suppress.shouldSuppressAt (payloadHash env.sha256 (normalizePayloads payloads)) instant).1 then .suppressed
      else .store
        { hash := payloadHash env.sha256 (normalizePayloads payloads)
          kind := classifyKind ((normalizePayloads payloads).map (·.1)), label, preview := label
          size := UInt64.ofNat ((normalizePayloads payloads).map (·.2.length)).sum, createdAt := now
          payloads := normalizePayloads payloads } := by
  rw [judgeCapture, if_neg (by simpa using hne)]
  dsimp only
  rcases suppress.shouldSuppressAt (payloadHash env.sha256 (normalizePayloads payloads)) instant with ⟨_ | _, s'⟩
  · dsimp only
    rw [hlabel]
    rfl
  · rfl

/-! ### What a screenshot offers -/

def screenshotMimes : List String := ["image/png", "image/jpeg", "image/webp", "image/gif"]

theorem screenshotMime_mem {position : List Bytes} {mime : String} (h : screenshotMime position = some mime) :
    mime ∈ screenshotMimes := by
  obtain ⟨name, -, h⟩ := Option.bind_eq_some_iff.1 h
  obtain ⟨extension, -, h⟩ := Option.bind_eq_some_iff.1 h
  dsimp only at h
  split_ifs at h <;> cases h <;> decide

section
variable {mime pathText : String} (hmime : mime ∈ screenshotMimes) (image : Bytes)
include hmime

theorem screenshotOffer_sorted : MimeSorted (screenshotOffer mime image pathText) := by
  have : ∀ mime ∈ screenshotMimes, mime < "text/plain;charset=utf-8" ∧ mime < "text/uri-list" := by decide
  obtain ⟨hplain, huri⟩ := this mime hmime
  have hrest : ("text/plain;charset=utf-8" : String) < "text/uri-list" := by decide
  refine .cons ?_ (.cons ?_ (.cons nofun .nil))
  · intro p hp
    simp only [List.mem_cons, List.not_mem_nil, or_false] at hp
    rcases hp with rfl | rfl
    exacts [hplain, huri]
  · intro p hp
    rw [List.mem_singleton.1 hp]
    exact hrest

theorem screenshotOffer_wanted : ∀ mimeType ∈ (screenshotOffer mime image pathText).map (·.1),
    ¬ Skipped mimeType ∧ eqIgnoreAsciiCase mimeType passwordManagerHintMime = false := by
  have : ∀ mimeType ∈ screenshotMimes ++ ["text/plain;charset=utf-8", "text/uri-list"],
      ¬ Skipped mimeType ∧ eqIgnoreAsciiCase mimeType passwordManagerHintMime = false := by decide
  intro mimeType h
  refine this mimeType (List.mem_append.2 ?_)
  rcases List.mem_cons.1 h with rfl | h
  exacts [.inl hmime, .inr h]

theorem screenshot_kind : classifyKind [mime, "text/plain;charset=utf-8", "text/uri-list"] = .image := by
  have : ∀ mime ∈ screenshotMimes, classifyKind [mime, "text/plain;charset=utf-8", "text/uri-list"] = .image := by
    decide
  exact this mime hmime

end

/-- The path is never empty, nor is its URI; an image may be. -/
theorem withData_screenshotOffer {mime pathText : String} (image : Bytes) (hpath : pathText ≠ "") :
    withData (screenshotOffer mime image pathText) =
      if image = [] then [("text/plain;charset=utf-8", asBytes pathText),
        ("text/uri-list", asBytes (screenshotUri pathText))]
      else screenshotOffer mime image pathText := by
  have htext : (asBytes pathText).isEmpty = false := by
    rw [Bool.eq_false_iff, ne_eq, List.isEmpty_iff]
    intro h
    exact hpath (by rw [← fromUtf8Lossy_asBytes pathText, h]; rfl)
  have huri : (asBytes (screenshotUri pathText)).isEmpty = false := by
    rw [screenshotUri, asBytes_append, asBytes_append]
    rfl
  by_cases himage : image = []
  · simp [withData, screenshotOffer, htext, huri, himage]
  · simp [withData, screenshotOffer, htext, huri, himage]

theorem withData_screenshotOffer_ne {mime pathText : String} (image : Bytes) (hpath : pathText ≠ "") :
    withData (screenshotOffer mime image pathText) ≠ [] := by
  rw [withData_screenshotOffer image hpath]
  split_ifs <;> exact List.cons_ne_nil _ _

theorem pathText_ne_empty (position : List Bytes) : fromUtf8Lossy (renderPath position) ≠ "" := by
  intro h
  have hnil : renderPath position = [] := (fromUtf8Lossy_eq_ascii (by simp)).1 (by rw [h]; rfl)
  rw [renderPath] at hnil
  split_ifs at hnil with hroot
  obtain ⟨name, rest, rfl⟩ := List.exists_cons_of_ne_nil hroot
  cases hnil

/-- What is offered has a label, with the image or without. -/
theorem screenshot_label (blobSize : Bytes → Option (Nat × Nat)) {mime pathText : String}
    (hmime : mime ∈ screenshotMimes) (image : Bytes) (hpath : pathText ≠ "") :
    let captured := withData (screenshotOffer mime image pathText)
    classifyKind (captured.map (·.1)) = (if image = [] then .uri else .image) ∧
      ∃ label, buildLabel blobSize (classifyKind (captured.map (·.1))) captured = some label := by
  intro captured
  have hcaptured : captured = _ := withData_screenshotOffer image hpath
  by_cases himage : image = []
  · rw [if_pos himage] at hcaptured
    rw [if_pos himage, hcaptured]
    have hkind : classifyKind ["text/plain;charset=utf-8", "text/uri-list"] = .uri := by decide
    refine ⟨hkind, ?_⟩
    rw [List.map_cons, List.map_singleton, hkind, buildLabel]
    split
    · split
      exacts [⟨_, rfl⟩, ⟨_, rfl⟩, ⟨_, rfl⟩]
    · exact ⟨_, rfl⟩
  · rw [if_neg himage] at hcaptured
    rw [if_neg himage, hcaptured]
    have hkind := screenshot_kind hmime
    refine ⟨hkind, ?_⟩
    rw [show classifyKind ((screenshotOffer mime image pathText).map (·.1)) = .image from hkind]
    exact ⟨_, rfl⟩

/-! ### Capturing it -/

/-- `process_ready` comes to a verdict on an offer of the payloads, all of which are requested and sent. -/
structure CapturesWhole {T : Type} (env : Env T) (payloads : Payloads) (pending : PendingOffer) (transfer : Transfer)
    (instant : Nat) (now : T) (suppress suppress' : SuppressState) (verdict : Verdict T) : Prop where
  offered : pending.mimeTypes.Perm (payloads.map (·.1))
  flushed : transfer.flushed = true
  requested : transfer.requested pending = pending.mimeTypes
  quiet : ∀ poll ∈ transfer.polls, poll.Quiet
  sending : List.Forall₂ Sending (pending.mimeTypes.map (sent payloads))
    (histories pending.mimeTypes.length transfer.polls)
  process : processReady env pending transfer instant now suppress = some (verdict, suppress')

section
variable {T : Type} {env : Env T} {pending : PendingOffer} {transfer : Transfer} {instant : Nat} {now : T}
  {suppress suppress' : SuppressState} {verdict : Verdict T}

/-- What is sent of an offer that has a label is stored if and only if it fits the limit and is not suppressed. -/
theorem CapturesWhole.stored_iff {payloads : Payloads}
    (h : CapturesWhole env payloads pending transfer instant now suppress suppress' verdict)
    (hsorted : MimeSorted payloads) (hne : withData payloads ≠ []) {label : String}
    (hlabel : buildLabel env.blobSize (classifyKind ((withData payloads).map (·.1))) (withData payloads) =
      some label) :
    ((∃ entry, verdict = .store entry) ↔ (payloads.map (·.2.length)).sum ≤ maxPayloadBytes ∧
        (suppress.shouldSuppressAt (payloadHash env.sha256 (withData payloads)) instant).1 = false) ∧
      ∀ entry, verdict = .store entry → entry.payloads = withData payloads ∧
        entry.hash = payloadHash env.sha256 (withData payloads) ∧
        entry.kind = classifyKind ((withData payloads).map (·.1)) ∧ entry.label = label := by
  have hsent := hsorted.sent_perm h.offered
  have hnormal := normalizePayloads_withData hsorted hsent
  have hprocess := h.process
  unfold processReady at hprocess
  rw [h.flushed, h.requested] at hprocess
  cases hread : readPayloadPipes maxPayloadBytes payloadReadIdleTimeout transfer.polls pending.mimeTypes with
  | none => rw [hread] at hprocess; cases hprocess
  | some result =>
    obtain ⟨hfits, hcomplete⟩ := readPayloadPipes_sent h.quiet h.sending hread
    rw [(hsent.map _).sum_nat] at hfits
    rw [hread] at hprocess
    cases result with
    | error e =>
      cases hprocess
      refine ⟨iff_of_false ?_ fun hroom => ?_, fun entry hstored => ?_⟩
      · rintro ⟨entry, hstored⟩
        cases hstored
      · obtain ⟨captured, hcaptured⟩ := hfits.2 hroom.1
        cases hcaptured
      · cases hstored
    | ok captured =>
      obtain rfl := hcomplete captured rfl
      have hkept : withData (pending.mimeTypes.map fun mime => (mime, sent payloads mime)) ≠ [] := by
        intro hnil
        rw [hnil] at hnormal
        exact hne hnormal.symm
      rw [← hnormal] at hlabel
      have hverdict := judgeCapture_eq env instant now suppress hkept hlabel
      rw [Option.some.inj hprocess, hnormal] at hverdict
      dsimp only at hverdict
      subst hverdict
      cases hasked : (suppress.shouldSuppressAt (payloadHash env.sha256 (withData payloads)) instant).1 with
      | true => exact ⟨iff_of_false nofun nofun, nofun⟩
      | false =>
        refine ⟨iff_of_true ⟨_, rfl⟩ ⟨hfits.1 ⟨_, rfl⟩, rfl⟩, ?_⟩
        rintro entry ⟨⟩
        exact ⟨rfl, rfl, rfl, rfl⟩

variable {fs : FileSystem} {cwd : List Bytes} {path mime pathText : String} {image : Bytes}

theorem screenshotPayloads_offer (h : screenshotPayloads fs cwd path = .ok (screenshotOffer mime image pathText)) :
    mime ∈ screenshotMimes ∧ pathText ≠ "" := by
  obtain ⟨position, image', mime', -, -, -, hmime, hoffer⟩ := screenshotPayloads_ok.1 h
  simp only [screenshotOffer, List.cons.injEq, Prod.mk.injEq, true_and, and_true] at hoffer
  obtain ⟨⟨rfl, rfl⟩, htext, -⟩ := hoffer
  exact ⟨screenshotMime_mem hmime, asBytes_inj.1 htext ▸ pathText_ne_empty position⟩

theorem CapturesWhole.screenshot
    (h : CapturesWhole env (screenshotOffer mime image pathText) pending transfer instant now suppress suppress'
      verdict)
    (hmime : mime ∈ screenshotMimes) (hpath : pathText ≠ "") :
    let payloads := screenshotOffer mime image pathText
    ((∃ entry, verdict = .store entry) ↔
      image.length + (asBytes pathText).length + (asBytes (screenshotUri pathText)).length ≤ maxPayloadBytes ∧
        (suppress.shouldSuppressAt (payloadHash env.sha256 (withData payloads)) instant).1 = false) ∧
    ∀ entry, verdict = .store entry → entry.payloads = withData payloads ∧
      entry.hash = payloadHash env.sha256 (withData payloads) ∧
      entry.kind = (if image = [] then .uri else .image) ∧
      buildLabel env.blobSize entry.kind (withData payloads) = some entry.label := by
  intro payloads
  obtain ⟨hkind, label, hlabel⟩ := screenshot_label env.blobSize hmime image hpath
  obtain ⟨hfits, hstored⟩ :=
    h.stored_iff (screenshotOffer_sorted hmime image) (withData_screenshotOffer_ne image hpath) hlabel
  have hsize : (payloads.map (·.2.length)).sum =
      image.length + (asBytes pathText).length + (asBytes (screenshotUri pathText)).length := by
    simp [payloads, screenshotOffer, Nat.add_assoc]
  rw [hsize] at hfits
  refine ⟨hfits, fun entry hverdict => ?_⟩
  obtain ⟨hpayloads, hhash, hkind', rfl⟩ := hstored entry hverdict
  exact ⟨hpayloads, hhash, hkind'.trans hkind, hkind' ▸ hlabel⟩

end

/-! ### An image without room -/

/-- A file `/a.png`. -/
def oneShot (image : Bytes) : FileSystem where
  node position :=
    if position = [] then some .directory
    else if position = [asBytes "a.png"] then some (.file (.regular image true))
    else none
  maxLinks := 40
  root := rfl
  parent {position name} h := by
    split_ifs at h with hnil hshot
    · exact absurd hnil (List.append_ne_nil_of_right_ne_nil position (List.cons_ne_nil name []))
    · exact if_pos (List.append_inj' (show _ = [] ++ [_] from hshot) rfl).1
    · exact absurd rfl h

theorem screenshotPayloads_oneShot {image : Bytes} (h : image.length ≤ maxScreenshotBytes) :
    screenshotPayloads (oneShot image) [] "/a.png" = .ok (screenshotOffer "image/png" image "/a.png") := by
  have htext : fromUtf8Lossy (renderPath [asBytes "a.png"]) = "/a.png" := by decide
  exact screenshotPayloads_ok.2 ⟨[asBytes "a.png"], image, "image/png", rfl, rfl, h, by decide, by rw [htext]⟩

/-- An image as large as `screenshot_payloads` allows leaves no room for its path. -/
theorem CapturesWhole.not_stored {T : Type} {env : Env T} {image : Bytes} {pending : PendingOffer}
    {transfer : Transfer} {instant : Nat} {now : T} {suppress suppress' : SuppressState} {verdict : Verdict T}
    (h : CapturesWhole env (screenshotOffer "image/png" image "/a.png") pending transfer instant now suppress suppress'
      verdict) (hfull : image.length = maxScreenshotBytes) (entry : NewEntry T) : verdict ≠ .store entry := by
  intro hstored
  have hfits := ((h.screenshot (by decide) (by decide)).1.1 ⟨entry, hstored⟩).1
  have hpath : (asBytes "/a.png").length = 6 := by decide
  rw [hfull, hpath, maxPayloadBytes, maxScreenshotBytes] at hfits
  omega

/-! ### In the history -/

/-- The watcher takes the offer of a screenshot whole, and what the source sends of it is stored if and only if it fits
the limit and its hash is not armed. Some image that `screenshot_payloads` accepts is never stored. -/
theorem screenshot_stored_iff {T : Type} (env : Env T) :
    (∀ (fs : FileSystem) cwd path mime image pathText,
      screenshotPayloads fs cwd path = .ok (screenshotOffer mime image pathText) →
      ∀ (state : WatchState) (offer : UInt32) (mimeTypes : List String),
      mimeTypes.Perm [mime, "text/plain;charset=utf-8", "text/uri-list"] →
      let payloads := screenshotOffer mime image pathText
      (state.dispatch (.dataOffer offer :: mimeTypes.map (.offer offer) ++ [.selection (some offer)])).ready =
        some ⟨offer, mimeTypes⟩ ∧
      ∀ transfer instant now suppress suppress' verdict,
        CapturesWhole env payloads ⟨offer, mimeTypes⟩ transfer instant now suppress suppress' verdict →
        ((∃ entry, verdict = .store entry) ↔
          image.length + (asBytes pathText).length + (asBytes (screenshotUri pathText)).length ≤ maxPayloadBytes ∧
            (suppress.shouldSuppressAt (payloadHash env.sha256 (withData payloads)) instant).1 = false) ∧
        ∀ entry, verdict = .store entry → entry.payloads = withData payloads ∧
          entry.hash = payloadHash env.sha256 (withData payloads) ∧
          entry.kind = (if image = [] then .uri else .image) ∧
          buildLabel env.blobSize entry.kind (withData payloads) = some entry.label) ∧
    ∃ (fs : FileSystem) (cwd : List Bytes) (path mime : String) (image : Bytes) (pathText : String),
      image.length ≤ maxScreenshotBytes ∧
      screenshotPayloads fs cwd path = .ok (screenshotOffer mime image pathText) ∧
      ∀ pending transfer instant now suppress suppress' verdict,
        CapturesWhole env (screenshotOffer mime image pathText) pending transfer instant now suppress suppress'
          verdict →
        ∀ entry, verdict ≠ .store entry := by
  constructor
  · intro fs cwd path mime image pathText hok state offer mimeTypes hperm payloads
    obtain ⟨hmime, hpath⟩ := screenshotPayloads_offer hok
    have hsorted : MimeSorted payloads := screenshotOffer_sorted hmime image
    refine ⟨WatchState.ready_of_wanted state offer (hperm.nodup_iff.2 hsorted.nodup_mimes) ?_ ?_, ?_⟩
    · rintro rfl
      cases hperm.length_eq
    · intro mimeType h
      have hmem : mimeType ∈ (screenshotOffer mime image pathText).map (·.1) := hperm.subset h
      exact screenshotOffer_wanted hmime image mimeType hmem
    · intro transfer instant now suppress suppress' verdict h
      exact h.screenshot hmime hpath
  · have hfull : (List.replicate maxScreenshotBytes (0 : UInt8)).length = maxScreenshotBytes := List.length_replicate
    refine ⟨oneShot _, [], "/a.png", "image/png", _, "/a.png", hfull.le, screenshotPayloads_oneShot hfull.le, ?_⟩
    intro pending transfer instant now suppress suppress' verdict h
    exact h.not_stored hfull

def shotOffer : PendingOffer := ⟨7, ["text/uri-list", "image/png", "text/plain;charset=utf-8"]⟩

def shotPayloads : Payloads := screenshotOffer "image/png" [1] "/a.png"

/-- The URI is read first. -/
def shotTransfer : Transfer where
  piped _ := true
  flushed := true
  polls := [.ready [.chunk ⟨asBytes (screenshotUri "/a.png"), by decide, by decide⟩, .idle, .idle], .interrupted,
    .ready [.eof, .chunk ⟨[1], by decide, by decide⟩, .chunk ⟨asBytes "/a.png", by decide, by decide⟩],
    .ready [.eof, .eof]]

def shotEntry : NewEntry (Fin 10) where
  hash := Env.sample.sha256 (hashStream shotPayloads)
  kind := .image
  label := "Image"
  preview := "Image"
  size := 22
  createdAt := 3
  payloads := shotPayloads

theorem shot_sending : List.Forall₂ Sending (shotOffer.mimeTypes.map (sent shotPayloads))
    (histories 3 shotTransfer.polls) :=
  .cons ⟨by decide, fun _ => by decide, by simp, by simp⟩ (.cons ⟨by decide, fun _ => by decide, by simp, by simp⟩
    (.cons ⟨by decide, fun _ => by decide, by simp, by simp⟩ .nil))

theorem screenshot_stored_iff_shot :
    ((∃ entry, Verdict.store shotEntry = .store entry) ↔
      [(1 : UInt8)].length + (asBytes "/a.png").length + (asBytes (screenshotUri "/a.png")).length ≤ maxPayloadBytes ∧
        (SuppressState.default.shouldSuppressAt (payloadHash Env.sample.sha256 (withData shotPayloads)) 3).1 = false) ∧
    ∀ entry, Verdict.store shotEntry = .store entry → entry.payloads = withData shotPayloads ∧
      entry.hash = payloadHash Env.sample.sha256 (withData shotPayloads) ∧
      entry.kind = (if [(1 : UInt8)] = [] then .uri else .image) ∧
      buildLabel Env.sample.blobSize entry.kind (withData shotPayloads) = some entry.label := by
  have hok : screenshotPayloads twoShots [] "/a.png" = .ok shotPayloads := screenshotPayloads_ok.2
    ⟨[asBytes "a.png"], [1], "image/png", by decide, rfl, by decide, by decide, by decide⟩
  have hprocess : processReady Env.sample shotOffer shotTransfer 3 3 .default =
      some (.store shotEntry, (SuppressState.default.shouldSuppressAt shotEntry.hash 3).2) := rfl
  have hperm : shotOffer.mimeTypes.Perm ["image/png", "text/plain;charset=utf-8", "text/uri-list"] := by decide
  have hquiet : ∀ poll ∈ shotTransfer.polls, poll.Quiet := by simp [shotTransfer, PollResult.Quiet]
  exact ((screenshot_stored_iff Env.sample).1 _ _ _ _ _ _ hok .new 7 _ hperm).2 shotTransfer 3 3 .default _ _
    ⟨hperm, rfl, rfl, hquiet, shot_sending, hprocess⟩

end Mimeclip
