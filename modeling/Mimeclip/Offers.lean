import Mathlib.Logic.Function.Basic
import Mimeclip.Bytes
import Mimeclip.Lib.Held

/-!
# Clipboard offers (`Dispatch` of `daemon/watcher.rs`)

The compositor announces an offer, then its MIME types one by one, and then that it is the selection.
The watcher collects the types of the announced offers in `pending_offers`; a `Selection` event takes
those of the selected offer out, drops all others, and leaves what is to be read in `ready`.

`pendingOffers_eq_some` is the invariant that ties the map to the events so far, and `accepts_iff` what it
says about a selection. The event loop takes `ready` after every batch of events only, and an accepted
selection stays there when it is followed by one that is not accepted (`ready_current_iff`).
-/

namespace Mimeclip

def passwordManagerHintMime : String := "x-kde-passwordManagerHint"

def skipMimePrefixes : List String :=
  ["application/vnd.portal.filetransfer", "application/vnd.portal.files", "application/x-moz-custom-clipdata"]

def shouldSkip (mime : String) : Bool := skipMimePrefixes.any (startsWith mime)

def isSensitiveOffer (mimeTypes : List String) : Bool :=
  mimeTypes.any fun mime => eqIgnoreAsciiCase mime passwordManagerHintMime

/-- One of the prefixes starts the type. -/
def Skipped (mime : String) : Prop := ∃ pre ∈ skipMimePrefixes, pre.toList <+: mime.toList

instance : DecidablePred Skipped := fun mime =>
  inferInstanceAs (Decidable (∃ pre ∈ skipMimePrefixes, pre.toList <+: mime.toList))

theorem shouldSkip_iff {mime : String} : shouldSkip mime = true ↔ Skipped mime := by
  simp [shouldSkip, Skipped, startsWith]

theorem not_shouldSkip (mime : String) : (!shouldSkip mime) = decide (¬ Skipped mime) := by
  rw [decide_not, Bool.eq_iff_iff.2 (shouldSkip_iff.trans decide_eq_true_iff.symm)]

/-- Offers are keyed by the protocol id of their object, which is reused. -/
structure PendingOffer where
  offer : UInt32
  mimeTypes : List String
deriving DecidableEq, Repr

structure WatchState where
  pendingOffers : UInt32 → Option (List String)
  ready : Option PendingOffer

inductive WatchEvent
  | dataOffer (id : UInt32)
  | offer (id : UInt32) (mimeType : String)
  | selection (id : Option UInt32)
  | primarySelection (id : Option UInt32)
  | finished
deriving DecidableEq, Repr

namespace WatchState

def new : WatchState := ⟨fun _ => none, none⟩

/-- What a `Selection` event puts in `ready`, if anything. -/
def selects (pendingOffers : UInt32 → Option (List String)) (id : Option UInt32) : Option PendingOffer :=
  match id, id.bind pendingOffers with
  | some offer, some mimeTypes =>
    if isSensitiveOffer mimeTypes then none
    else
      let mimeTypes := mimeTypes.filter fun mime => !shouldSkip mime
      if mimeTypes.isEmpty then none else some ⟨offer, mimeTypes⟩
  | _, _ => none

def pushMime (list : List String) (mimeType : String) : List String :=
  if list.contains mimeType then list else list ++ [mimeType]

def event (state : WatchState) : WatchEvent → WatchState
  | .dataOffer id => { state with pendingOffers := Function.update state.pendingOffers id (some []) }
  | .offer id mimeType =>
    match state.pendingOffers id with
    | some list =>
      { state with pendingOffers := Function.update state.pendingOffers id (some (pushMime list mimeType)) }
    | none => state
  | .selection id =>
    { pendingOffers := fun _ => none
      ready :=
        match selects state.pendingOffers id with
        | some offer => some offer
        | none => state.ready }
  | .primarySelection _ => state
  | .finished => state

def dispatch (state : WatchState) (batch : List WatchEvent) : WatchState := batch.foldl event state

theorem dispatch_snoc (state : WatchState) (batch : List WatchEvent) (e : WatchEvent) :
    state.dispatch (batch ++ [e]) = (state.dispatch batch).event e := by
  rw [dispatch, List.foldl_append]; rfl

/-! ### The pending offers -/

def advertised (id : UInt32) (events : List WatchEvent) : List String :=
  events.filterMap fun
    | .offer id' mimeType => if id' = id then some mimeType else none
    | _ => none

/-- The last `DataOffer` of the id came after the last `Selection`, and `mimeTypes` are the types
advertised for it since. -/
def Announced (id : UInt32) (events : List WatchEvent) (mimeTypes : List String) : Prop :=
  ∃ before since, events = before ++ .dataOffer id :: since ∧ .dataOffer id ∉ since ∧
    (∀ id', .selection id' ∉ since) ∧ mimeTypes = advertised id since

theorem advertised_snoc (id : UInt32) (events : List WatchEvent) (e : WatchEvent) :
    advertised id (events ++ [e]) = advertised id events ++ advertised id [e] := List.filterMap_append ..

theorem pushMime_eraseDups (l : List String) (mimeType : String) :
    pushMime l.eraseDups mimeType = (l ++ [mimeType]).eraseDups := by
  rw [pushMime, List.eraseDups_append]
  by_cases h : mimeType ∈ l
  · simp [h, List.removeAll]
  · simp [h, List.removeAll, List.eraseDups_cons]

theorem nodup_eraseDups (l : List String) : l.eraseDups.Nodup := by
  induction l using List.reverseRecOn with
  | nil => simp
  | append_singleton l mimeType ih =>
    rw [← pushMime_eraseDups, pushMime]
    split_ifs with h
    · exact ih
    · rw [List.nodup_append]
      refine ⟨ih, by simp, fun a ha b hb => ?_⟩
      rintro rfl
      rw [List.mem_singleton.1 hb] at ha
      exact h (by simpa using ha)

theorem announced_snoc {id : UInt32} {events : List WatchEvent} {e : WatchEvent} {mimeTypes : List String}
    (he : e ≠ .dataOffer id) (hsel : ∀ id', e ≠ .selection id') :
    Announced id (events ++ [e]) mimeTypes ↔
      ∃ mimeTypes', Announced id events mimeTypes' ∧ mimeTypes = mimeTypes' ++ advertised id [e] := by
  constructor
  · rintro ⟨before, since, heq, hid, hno, rfl⟩
    rcases List.snoc_eq_append_cons.1 heq with ⟨-, h, -⟩ | ⟨since', rfl, rfl⟩
    · exact absurd h he
    · have hid' : .dataOffer id ∉ since' := fun h => hid (by simp [h])
      have hno' : ∀ id', .selection id' ∉ since' := fun id' h => hno id' (by simp [h])
      exact ⟨_, ⟨before, since', rfl, hid', hno', rfl⟩, advertised_snoc ..⟩
  · rintro ⟨_, ⟨before, since, rfl, hid, hno, rfl⟩, rfl⟩
    refine ⟨before, since ++ [e], by simp, ?_, fun id' => ?_, (advertised_snoc ..).symm⟩
    · simpa [hid] using he.symm
    · simpa [hno id'] using (hsel id').symm

theorem announced_offer {id : UInt32} {events : List WatchEvent} {mimeType : String} {mimeTypes : List String} :
    Announced id (events ++ [.offer id mimeType]) mimeTypes ↔
      ∃ mimeTypes', Announced id events mimeTypes' ∧ mimeTypes = mimeTypes' ++ [mimeType] := by
  have hadv : advertised id [.offer id mimeType] = [mimeType] := by simp [advertised]
  rw [announced_snoc (by nofun) (by nofun), hadv]

theorem announced_dataOffer {id : UInt32} {events : List WatchEvent} {mimeTypes : List String} :
    Announced id (events ++ [.dataOffer id]) mimeTypes ↔ mimeTypes = [] := by
  constructor
  · rintro ⟨before, since, heq, hid, -, rfl⟩
    rcases List.snoc_eq_append_cons.1 heq with ⟨-, -, rfl⟩ | ⟨since', rfl, -⟩
    · rfl
    · simp at hid
  · rintro rfl
    exact ⟨events, [], rfl, by simp, by simp, rfl⟩

theorem not_announced_selection {id : UInt32} {id' : Option UInt32} {events : List WatchEvent}
    {mimeTypes : List String} : ¬ Announced id (events ++ [.selection id']) mimeTypes := by
  rintro ⟨before, since, heq, -, hno, -⟩
  rcases List.snoc_eq_append_cons.1 heq with ⟨-, h, -⟩ | ⟨since', rfl, -⟩
  · cases h
  · exact hno id' (by simp)

theorem pendingOffers_offer (state : WatchState) (id : UInt32) (mimeType : String) :
    (state.event (.offer id mimeType)).pendingOffers id = (state.pendingOffers id).map (pushMime · mimeType) := by
  rw [event]
  cases hl : state.pendingOffers id with
  | none => exact hl
  | some list => exact Function.update_self ..

theorem pendingOffers_offer_ne (state : WatchState) {id id' : UInt32} (h : id' ≠ id) (mimeType : String) :
    (state.event (.offer id' mimeType)).pendingOffers id = state.pendingOffers id := by
  rw [event]
  split
  · exact Function.update_of_ne h.symm ..
  · rfl

/-- The map against the events so far: the offers announced since the last selection, each with the
types advertised for it, without repetitions. -/
theorem pendingOffers_eq_some {events : List WatchEvent} {id : UInt32} {list : List String} :
    (new.dispatch events).pendingOffers id = some list ↔
      ∃ mimeTypes, Announced id events mimeTypes ∧ list = mimeTypes.eraseDups := by
  induction events using List.reverseRecOn generalizing list with
  | nil => simp [dispatch, new, Announced]
  | append_singleton events e ih =>
    rw [dispatch_snoc]
    have hsame : ∀ {e}, e ≠ .dataOffer id → (∀ id', e ≠ .selection id') → advertised id [e] = [] →
        ((new.dispatch events).pendingOffers id = some list ↔
          ∃ mimeTypes, Announced id (events ++ [e]) mimeTypes ∧ list = mimeTypes.eraseDups) := by
      intro e he hsel hadv
      simp only [ih, announced_snoc he hsel, hadv, List.append_nil, exists_eq_right']
    cases e with
    | dataOffer id' =>
      by_cases hid : id' = id
      · subst hid
        simp [event, announced_dataOffer, eq_comm]
      · simp only [event, Function.update_of_ne (Ne.symm hid)]
        exact hsame (by simpa using hid) nofun rfl
    | offer id' mimeType =>
      by_cases hid : id' = id
      · subst hid
        rw [pendingOffers_offer, Option.map_eq_some_iff]
        constructor
        · rintro ⟨_, hl, rfl⟩
          obtain ⟨mimeTypes, h, rfl⟩ := ih.1 hl
          exact ⟨_, announced_offer.2 ⟨mimeTypes, h, rfl⟩, pushMime_eraseDups ..⟩
        · rintro ⟨_, h, rfl⟩
          obtain ⟨mimeTypes, hearlier, rfl⟩ := announced_offer.1 h
          exact ⟨_, ih.2 ⟨mimeTypes, hearlier, rfl⟩, pushMime_eraseDups ..⟩
      · rw [pendingOffers_offer_ne _ hid]
        exact hsame nofun nofun (by simp [advertised, hid])
    | selection id' =>
      simp [event, not_announced_selection]
    | primarySelection id' => exact hsame nofun nofun rfl
    | finished => exact hsame nofun nofun rfl

/-! ### Selections -/

/-- The offer is known, none of its types is the hint, and `p` has those that are not skipped. -/
def Accepts (pendingOffers : UInt32 → Option (List String)) (id : Option UInt32) (p : PendingOffer) : Prop :=
  id = some p.offer ∧ ∃ list, pendingOffers p.offer = some list ∧
    (∀ mime ∈ list, eqIgnoreAsciiCase mime passwordManagerHintMime = false) ∧
    p.mimeTypes = list.filter (fun mime => ¬ Skipped mime) ∧ p.mimeTypes ≠ []

theorem isSensitiveOffer_eq_false {mimeTypes : List String} : isSensitiveOffer mimeTypes = false ↔
    ∀ mime ∈ mimeTypes, eqIgnoreAsciiCase mime passwordManagerHintMime = false := by
  simp [isSensitiveOffer]

/-- The exits of the `Selection` handler. -/
theorem selects_eq_some {pendingOffers : UInt32 → Option (List String)} {id : Option UInt32} {p : PendingOffer} :
    selects pendingOffers id = some p ↔ Accepts pendingOffers id p := by
  cases id with
  | none => simp [selects, Accepts]
  | some offer =>
    unfold selects Accepts
    rw [Option.bind_some]
    simp only [not_shouldSkip]
    cases hl : pendingOffers offer with
    | none =>
      refine ⟨nofun, ?_⟩
      rintro ⟨⟨⟩, list, h, -⟩
      rw [hl] at h; cases h
    | some list =>
      dsimp only
      constructor
      · intro h
        split_ifs at h with hs he
        cases h
        exact ⟨rfl, list, hl, isSensitiveOffer_eq_false.1 (by simpa using hs), rfl, by simpa using he⟩
      · rintro ⟨⟨⟩, list', h, hs, hm, hne⟩
        rw [hl] at h
        cases h
        rw [hm] at hne
        rw [if_neg (by simp [isSensitiveOffer_eq_false.2 hs]), if_neg (by simpa using hne), ← hm]

/-- After `events`, a selection accepts `p`: none of the types advertised for it is the hint, and its types
are those advertised, without repetitions and the ones that are skipped. -/
def Offered (events : List WatchEvent) (p : PendingOffer) : Prop :=
  ∃ mimeTypes, Announced p.offer events mimeTypes ∧
    (∀ mime ∈ mimeTypes, eqIgnoreAsciiCase mime passwordManagerHintMime = false) ∧
    p.mimeTypes = mimeTypes.eraseDups.filter (fun mime => ¬ Skipped mime) ∧ p.mimeTypes ≠ []

theorem accepts_iff {events : List WatchEvent} {id : Option UInt32} {p : PendingOffer} :
    Accepts (new.dispatch events).pendingOffers id p ↔ id = some p.offer ∧ Offered events p := by
  refine and_congr_right fun _ => ?_
  constructor
  · rintro ⟨list, hl, hs, hm, hne⟩
    obtain ⟨mimeTypes, h, rfl⟩ := pendingOffers_eq_some.1 hl
    exact ⟨mimeTypes, h, fun mime hmem => hs mime (List.mem_eraseDups.2 hmem), hm, hne⟩
  · rintro ⟨mimeTypes, h, hs, hm, hne⟩
    exact ⟨_, pendingOffers_eq_some.2 ⟨mimeTypes, h, rfl⟩, fun mime hmem => hs mime (List.mem_eraseDups.1 hmem), hm,
      hne⟩

theorem selects_iff {events : List WatchEvent} {id : Option UInt32} {p : PendingOffer} :
    selects (new.dispatch events).pendingOffers id = some p ↔ id = some p.offer ∧ Offered events p :=
  selects_eq_some.trans accepts_iff

/-- The last selection in the events that was accepted, accepted `p`. -/
def Accepted (events : List WatchEvent) (p : PendingOffer) : Prop :=
  ∃ before after, events = before ++ .selection (some p.offer) :: after ∧ Offered before p ∧
    ∀ pre q post, after = pre ++ .selection (some q.offer) :: post →
      ¬ Offered (before ++ .selection (some p.offer) :: pre) q

theorem Accepted.snoc {events : List WatchEvent} {e : WatchEvent} {p : PendingOffer} (h : Accepted events p)
    (he : ∀ q, e = .selection (some q.offer) → ¬ Offered events q) : Accepted (events ++ [e]) p := by
  obtain ⟨before, after, rfl, hoffered, hlast⟩ := h
  refine ⟨before, after ++ [e], by simp, hoffered, fun pre q post heq => ?_⟩
  rcases List.snoc_eq_append_cons.1 heq with ⟨rfl, he', -⟩ | ⟨post', -, rfl⟩
  · exact he q he'
  · exact hlast pre q post' rfl

/-- The state against all events so far; `ready` may have been taken in between. -/
structure Follows (events : List WatchEvent) (state : WatchState) : Prop where
  pending : state.pendingOffers = (new.dispatch events).pendingOffers
  ready : ∀ p, state.ready = some p → Accepted events p

theorem Follows.event {events : List WatchEvent} {state : WatchState} (h : Follows events state)
    (e : WatchEvent) : Follows (events ++ [e]) (state.event e) := by
  obtain ⟨hpending, hready⟩ := h
  refine ⟨?_, ?_⟩
  · rw [dispatch_snoc]
    cases e <;> simp only [WatchState.event, hpending]
    split
    exacts [rfl, hpending]
  · intro p hp
    cases e with
    | selection id =>
      rw [WatchState.event] at hp
      cases hs : selects state.pendingOffers id with
      | none =>
        rw [hs] at hp
        refine (hready p hp).snoc fun q he hq => ?_
        have hselects := selects_iff.2 ⟨WatchEvent.selection.inj he, hq⟩
        rw [← hpending, hs] at hselects
        cases hselects
      | some q =>
        rw [hs] at hp
        cases hp
        rw [hpending] at hs
        obtain ⟨rfl, hoffered⟩ := selects_iff.1 hs
        exact ⟨events, [], rfl, hoffered, by simp⟩
    | offer id mimeType =>
      rw [WatchState.event] at hp
      split at hp <;> exact (hready p hp).snoc nofun
    | dataOffer | primarySelection | finished => exact (hready p hp).snoc nofun

theorem Follows.dispatch {events : List WatchEvent} {state : WatchState} (h : Follows events state)
    (batch : List WatchEvent) : Follows (events ++ batch) (state.dispatch batch) := by
  induction batch generalizing events state with
  | nil => rwa [List.append_nil]
  | cons e batch ih =>
    have := ih (h.event e)
    rwa [List.append_assoc] at this

theorem Follows.start : Follows [] new := ⟨rfl, nofun⟩

theorem dispatch_offers {id : UInt32} {list mimeTypes : List String} {state : WatchState}
    (hlist : state.pendingOffers id = some list) (hnodup : (list ++ mimeTypes).Nodup) :
    (state.dispatch (mimeTypes.map (.offer id))).pendingOffers id = some (list ++ mimeTypes) := by
  induction mimeTypes generalizing list state with
  | nil => rw [List.append_nil]; exact hlist
  | cons mimeType mimeTypes ih =>
    have hnew : mimeType ∉ list := fun h => (List.nodup_append.1 hnodup).2.2 _ h _ (by simp) rfl
    have hnext : (state.event (.offer id mimeType)).pendingOffers id = some (list ++ [mimeType]) := by
      rw [pendingOffers_offer, hlist, Option.map_some, pushMime, if_neg (by simpa using hnew)]
    have := ih hnext (by simpa using hnodup)
    rwa [List.append_assoc] at this

theorem ready_selection {state : WatchState} {id : Option UInt32} {p : PendingOffer}
    (h : selects state.pendingOffers id = some p) : (state.event (.selection id)).ready = some p := by
  rw [event, h]

/-- An offer of distinct types, none of which is skipped or the hint, is accepted as it is. -/
theorem ready_of_wanted (state : WatchState) (id : UInt32) {mimeTypes : List String} (hnodup : mimeTypes.Nodup)
    (hne : mimeTypes ≠ []) (hwanted : ∀ mime ∈ mimeTypes,
      ¬ Skipped mime ∧ eqIgnoreAsciiCase mime passwordManagerHintMime = false) :
    (state.dispatch (.dataOffer id :: mimeTypes.map (.offer id) ++ [.selection (some id)])).ready =
      some ⟨id, mimeTypes⟩ := by
  have hpending : (state.event (.dataOffer id)).pendingOffers id = some [] := by simp [event]
  have hlist := dispatch_offers hpending (by simpa using hnodup)
  rw [dispatch_snoc]
  refine ready_selection (selects_eq_some.2 ⟨rfl, mimeTypes, hlist, fun mime hm => (hwanted mime hm).2, ?_, hne⟩)
  exact (List.filter_eq_self.2 fun mime hm => decide_eq_true (hwanted mime hm).1).symm

/-! ### The end of a batch -/

/-- The last selection of the batch accepts `p`. -/
def LastAccepts (state : WatchState) (batch : List WatchEvent) (p : PendingOffer) : Prop :=
  ∃ before id after, batch = before ++ .selection id :: after ∧ (∀ id', .selection id' ∉ after) ∧
    Accepts (state.dispatch before).pendingOffers id p

/-- A selection of the batch accepts `p`. -/
def SomeAccepts (state : WatchState) (batch : List WatchEvent) (p : PendingOffer) : Prop :=
  ∃ before id after, batch = before ++ .selection id :: after ∧ Accepts (state.dispatch before).pendingOffers id p

section
variable {state : WatchState} {batch : List WatchEvent} {p : PendingOffer}

theorem LastAccepts.someAccepts (h : state.LastAccepts batch p) : state.SomeAccepts batch p := by
  obtain ⟨before, id, after, rfl, -, haccepts⟩ := h
  exact ⟨before, id, after, rfl, haccepts⟩

theorem lastAccepts_selection {id : Option UInt32} :
    state.LastAccepts (batch ++ [.selection id]) p ↔ Accepts (state.dispatch batch).pendingOffers id p := by
  constructor
  · rintro ⟨before, id', after, heq, hlast, haccepts⟩
    rcases List.snoc_eq_append_cons.1 heq with ⟨rfl, ⟨⟩, -⟩ | ⟨since, rfl, -⟩
    · exact haccepts
    · exact absurd (List.mem_append_right since (List.mem_singleton_self _)) (hlast id)
  · exact fun h => ⟨batch, id, [], rfl, fun _ => List.not_mem_nil, h⟩

theorem lastAccepts_snoc {e : WatchEvent} (he : ∀ id, e ≠ .selection id) :
    state.LastAccepts (batch ++ [e]) p ↔ state.LastAccepts batch p := by
  constructor
  · rintro ⟨before, id, after, heq, hlast, haccepts⟩
    rcases List.snoc_eq_append_cons.1 heq with ⟨-, h, -⟩ | ⟨since, rfl, rfl⟩
    · exact absurd h (he id)
    · exact ⟨before, id, since, rfl, fun id' h => hlast id' (List.mem_append_left _ h), haccepts⟩
  · rintro ⟨before, id, after, rfl, hlast, haccepts⟩
    refine ⟨before, id, after ++ [e], by simp, fun id' h => ?_, haccepts⟩
    rcases List.mem_append.1 h with h | h
    · exact hlast id' h
    · exact he id' (List.mem_singleton.1 h).symm

theorem someAccepts_snoc {e : WatchEvent} : state.SomeAccepts (batch ++ [e]) p ↔
    state.SomeAccepts batch p ∨ ∃ id, e = .selection id ∧ Accepts (state.dispatch batch).pendingOffers id p := by
  constructor
  · rintro ⟨before, id, after, heq, haccepts⟩
    rcases List.snoc_eq_append_cons.1 heq with ⟨rfl, rfl, -⟩ | ⟨since, rfl, rfl⟩
    · exact .inr ⟨id, rfl, haccepts⟩
    · exact .inl ⟨before, id, since, rfl, haccepts⟩
  · rintro (⟨before, id, after, rfl, haccepts⟩ | ⟨id, rfl, haccepts⟩)
    · exact ⟨before, id, after ++ [e], by simp, haccepts⟩
    · exact ⟨batch, id, [], rfl, haccepts⟩

theorem ready_event {e : WatchEvent} (he : ∀ id, e ≠ .selection id) : (state.event e).ready = state.ready := by
  cases e with
  | selection id => exact absurd rfl (he id)
  | offer id mimeType =>
    rw [event]
    split <;> rfl
  | dataOffer | primarySelection | finished => rfl

theorem ready_of_lastAccepts (h : state.LastAccepts batch p) : (state.dispatch batch).ready = some p := by
  induction batch using List.reverseRecOn with
  | nil =>
    obtain ⟨before, id, after, heq, -⟩ := h
    exact absurd heq (by simp)
  | append_singleton batch e ih =>
    rw [dispatch_snoc]
    by_cases he : ∀ id, e ≠ .selection id
    · rw [ready_event he]
      exact ih ((lastAccepts_snoc he).1 h)
    · obtain ⟨id, rfl⟩ := by simpa using he
      exact ready_selection (selects_eq_some.2 (lastAccepts_selection.1 h))

/-- Only an accepted selection writes `ready`. -/
theorem ready_eq_none_iff (hready : state.ready = none) :
    (state.dispatch batch).ready = none ↔ ∀ p, ¬ state.SomeAccepts batch p := by
  induction batch using List.reverseRecOn with
  | nil =>
    refine iff_of_true hready fun p h => ?_
    obtain ⟨before, id, after, heq, -⟩ := h
    exact absurd heq (by simp)
  | append_singleton batch e ih =>
    simp only [dispatch_snoc, someAccepts_snoc, not_or, forall_and, ← ih]
    by_cases he : ∀ id, e ≠ .selection id
    · rw [ready_event he]
      exact (and_iff_left fun p ⟨id, h, _⟩ => he id h).symm
    · obtain ⟨id, rfl⟩ := by simpa using he
      rw [event]
      dsimp only
      cases hselects : selects (state.dispatch batch).pendingOffers id with
      | none =>
        refine (and_iff_left ?_).symm
        rintro p ⟨_, ⟨⟩, haccepts⟩
        rw [selects_eq_some.2 haccepts] at hselects
        cases hselects
      | some p => exact iff_of_false nofun fun h => h.2 p ⟨id, rfl, selects_eq_some.1 hselects⟩

end

/-- After a batch `ready` holds what the last selection accepts, and nothing if it accepts none, if and only if it
accepts an offer or no selection of the batch does. -/
theorem ready_current_iff (state : WatchState) (hready : state.ready = none) (batch : List WatchEvent) :
    (∀ p, (state.dispatch batch).ready = some p ↔ state.LastAccepts batch p) ↔
      (∃ p, state.LastAccepts batch p) ∨ ∀ p, ¬ state.SomeAccepts batch p := by
  constructor
  · intro h
    cases hbatch : (state.dispatch batch).ready with
    | none => exact .inr ((ready_eq_none_iff hready).1 hbatch)
    | some p => exact .inl ⟨p, (h p).1 hbatch⟩
  · rintro (⟨p, hp⟩ | hnone) q
    · refine ⟨fun hq => ?_, ready_of_lastAccepts⟩
      rw [ready_of_lastAccepts hp] at hq
      exact Option.some.inj hq ▸ hp
    · rw [(ready_eq_none_iff hready).2 hnone]
      exact iff_of_false nofun fun h => hnone q h.someAccepts

def textCopied : List WatchEvent := [.dataOffer 1, .offer 1 "text/plain", .selection (some 1)]

/-- A text, a password, nothing, and a text from an application that offers files too. -/
def copiedOften : List WatchEvent :=
  textCopied ++ [.dataOffer 2, .offer 2 "text/plain", .offer 2 "x-kde-passwordManagerHint", .selection (some 2),
    .selection none, .dataOffer 1, .offer 1 "text/html", .offer 1 "application/vnd.portal.files"] ++
    [.selection (some 1)]

theorem ready_current_iff_copiedOften :
    (new.dispatch copiedOften).ready = some ⟨1, ["text/html"]⟩ ↔ new.LastAccepts copiedOften ⟨1, ["text/html"]⟩ :=
  (ready_current_iff new rfl copiedOften).2
    (.inl ⟨⟨1, ["text/html"]⟩, lastAccepts_selection.2 (selects_eq_some.1 (by decide))⟩) ⟨1, ["text/html"]⟩

/-- A text is copied and the clipboard cleared in one batch: the text is left to be read. -/
theorem cleared_selection_ready :
    let batch := textCopied ++ [.selection none]
    (new.dispatch batch).ready = some ⟨1, ["text/plain"]⟩ ∧ (∀ p, ¬ new.LastAccepts batch p) ∧
      ¬ ∀ p, (new.dispatch batch).ready = some p ↔ new.LastAccepts batch p := by
  intro batch
  have hready : (new.dispatch batch).ready = some ⟨1, ["text/plain"]⟩ := by decide
  have hlast : ∀ p, ¬ new.LastAccepts batch p := fun p h => by cases (lastAccepts_selection.1 h).1
  exact ⟨hready, hlast, fun h => hlast _ ((h _).1 hready)⟩

end WatchState

end Mimeclip
