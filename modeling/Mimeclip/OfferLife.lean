import Mathlib.Data.List.Count
import Mimeclip.Watch

/-!
# What becomes of the offer objects (`daemon/watcher.rs`)

Every `DataOffer` event introduces an object that stays with the compositor until the watcher destroys it.
It does so when a selection is rejected and on every way out of `process_ready`, and never twice
(`OfferObjects.Inv`). An offer that leaves `pending_offers` or `ready` in another way is lost: one that is dropped as
stale, one that is overwritten in `ready`, one that is the primary selection. In runs in which that does not
happen (`OfferObjects.Tidy`), what is spent has been destroyed (`offers_released`).
-/

namespace Mimeclip

/-! ### Calls of `destroy` -/

/-- `process_ready` destroys the offer on every way out; `none` while it is still reading. -/
def processReadyDestroys (pending : PendingOffer) (transfer : Transfer) : Option (List UInt32) :=
  if !transfer.flushed then some [pending.offer]
  else
    match readPayloadPipes maxPayloadBytes payloadReadIdleTimeout transfer.polls (transfer.requested pending) with
    | none => none
    | some (.error _) => some [pending.offer]
    | some (.ok _) => some [pending.offer]

theorem processReadyDestroys_eq {pending : PendingOffer} {transfer : Transfer} {destroyed : List UInt32}
    (h : processReadyDestroys pending transfer = some destroyed) : destroyed = [pending.offer] := by
  unfold processReadyDestroys at h
  split_ifs at h
  · exact (Option.some.inj h).symm
  · split at h
    · cases h
    · exact (Option.some.inj h).symm
    · exact (Option.some.inj h).symm

namespace WatchState

/-- The `Selection` handler destroys an offer it rejects. -/
def destroys (state : WatchState) : WatchEvent → List UInt32
  | .selection (some id) =>
    match state.pendingOffers id with
    | some mimeTypes =>
      if isSensitiveOffer mimeTypes then [id]
      else if (mimeTypes.filter fun mime => !shouldSkip mime).isEmpty then [id]
      else []
    | none => []
  | _ => []

/-- A pending offer that is selected is accepted or destroyed. -/
theorem destroys_selection {state : WatchState} {id : UInt32} {list : List String}
    (h : state.pendingOffers id = some list) :
    (∃ p, selects state.pendingOffers (some id) = some p ∧ p.offer = id ∧ state.destroys (.selection (some id)) = []) ∨
      selects state.pendingOffers (some id) = none ∧ state.destroys (.selection (some id)) = [id] := by
  simp only [selects, destroys, Option.bind_some, h]
  split_ifs
  · exact .inr ⟨rfl, rfl⟩
  · exact .inr ⟨rfl, rfl⟩
  · exact .inl ⟨_, rfl, rfl, rfl⟩

theorem destroys_of_not_pending {state : WatchState} {id : Option UInt32} (h : id.bind state.pendingOffers = none) :
    selects state.pendingOffers id = none ∧ state.destroys (.selection id) = [] := by
  cases id with
  | none => exact ⟨rfl, rfl⟩
  | some id =>
    rw [Option.bind_some] at h
    simp only [selects, destroys, Option.bind_some, h, and_self]

theorem pendingOffers_offer_eq_none {state : WatchState} {id id' : UInt32} {mimeType : String} :
    (state.event (.offer id mimeType)).pendingOffers id' = none ↔ state.pendingOffers id' = none := by
  by_cases hid : id = id'
  · subst hid
    rw [pendingOffers_offer, Option.map_eq_none_iff]
  · rw [pendingOffers_offer_ne state hid]

theorem ready_offer {state : WatchState} {id : UInt32} {mimeType : String} :
    (state.event (.offer id mimeType)).ready = state.ready := by
  rw [event]
  split <;> rfl

end WatchState

/-! ### Offers that are done with -/

/-- Since the last object with the id was introduced there was a selection, which selected this one or another, or it
became the primary selection. -/
def Spent (events : List WatchEvent) (id : UInt32) : Prop :=
  ∃ before since, events = before ++ .dataOffer id :: since ∧ .dataOffer id ∉ since ∧
    ((∃ id', .selection id' ∈ since) ∨ .primarySelection (some id) ∈ since)

/-- The objects introduced since the last selection. -/
def opened (events : List WatchEvent) : List UInt32 :=
  events.foldl (fun ids e =>
    match e with
    | .dataOffer id => id :: ids
    | .selection _ => []
    | _ => ids) []

theorem Spent.of_snoc {events : List WatchEvent} {e : WatchEvent} {id : UInt32} (h : Spent (events ++ [e]) id)
    (hsel : ∀ id', e ≠ .selection id') (hprimary : e ≠ .primarySelection (some id)) :
    e ≠ .dataOffer id ∧ Spent events id := by
  obtain ⟨before, since, heq, hno, hspent⟩ := h
  rcases List.snoc_eq_append_cons.1 heq with ⟨-, -, rfl⟩ | ⟨since', rfl, rfl⟩
  · simp at hspent
  · simp only [List.mem_append, List.mem_singleton, not_or] at hno hspent
    refine ⟨fun he => hno.2 he.symm, before, since', rfl, hno.1, ?_⟩
    rcases hspent with ⟨id', hmem | heq⟩ | hmem | heq
    · exact .inl ⟨id', hmem⟩
    · exact absurd heq.symm (hsel id')
    · exact .inr hmem
    · exact absurd heq.symm hprimary

theorem opened_snoc (events : List WatchEvent) (e : WatchEvent) :
    opened (events ++ [e]) =
      match e with
      | .dataOffer id => id :: opened events
      | .selection _ => []
      | _ => opened events := by
  rw [opened, List.foldl_append]
  rfl

/-! ### The objects -/

/-- The state of the watcher, and the ids of the offer objects that exist. -/
structure OfferObjects where
  watch : WatchState
  live : List UInt32

/-- An event is handled or `process_ready` returns; with the calls of `destroy`. -/
inductive OfferLabel
  | event (e : WatchEvent) (destroyed : List UInt32)
  | process (destroyed : List UInt32)

namespace OfferLabel

def events (labels : List OfferLabel) : List WatchEvent :=
  labels.filterMap fun
    | event e _ => some e
    | process _ => none

def introduced : OfferLabel → List UInt32
  | event (.dataOffer id) _ => [id]
  | _ => []

def destroyed : OfferLabel → List UInt32
  | event _ destroyed => destroyed
  | process destroyed => destroyed

theorem events_snoc_event (labels : List OfferLabel) (e : WatchEvent) (destroyed : List UInt32) :
    events (labels ++ [event e destroyed]) = events labels ++ [e] := List.filterMap_append ..

theorem events_snoc_process (labels : List OfferLabel) (destroyed : List UInt32) :
    events (labels ++ [process destroyed]) = events labels := by
  rw [events, List.filterMap_append]
  exact List.append_nil _

end OfferLabel

namespace OfferObjects

def start : OfferObjects := ⟨.new, []⟩

/-- The compositor gives a new object an id that no existing one has. -/
inductive Step : OfferObjects → OfferLabel → OfferObjects → Prop
  | event {s : OfferObjects} {e : WatchEvent} (hfresh : ∀ id, e = .dataOffer id → id ∉ s.live) :
      Step s (.event e (s.watch.destroys e))
        ⟨s.watch.event e, ((OfferLabel.event e []).introduced ++ s.live).diff (s.watch.destroys e)⟩
  | process {s : OfferObjects} {pending : PendingOffer} {transfer : Transfer} {destroyed : List UInt32}
      (hready : s.watch.ready = some pending) (hprocess : processReadyDestroys pending transfer = some destroyed) :
      Step s (.process destroyed) ⟨{ s.watch with ready := none }, s.live.diff destroyed⟩

/-- What the watcher holds exists, and it holds it in one place. -/
structure Inv (s : OfferObjects) : Prop where
  nodup : s.live.Nodup
  pending : ∀ id, s.watch.pendingOffers id ≠ none → id ∈ s.live
  ready : ∀ p, s.watch.ready = some p → p.offer ∈ s.live ∧ s.watch.pendingOffers p.offer = none

variable {s t : OfferObjects} {label : OfferLabel}

theorem Inv.start : Inv start := ⟨.nil, by simp [OfferObjects.start, WatchState.new], nofun⟩

/-- What a `Selection` event does with the object it names and the one in `ready`. -/
theorem Inv.selection (h : Inv s) (id : Option UInt32) :
    (∃ p, (s.watch.event (.selection id)).ready = some p ∧ id = some p.offer ∧ p.offer ∈ s.live ∧
        s.watch.pendingOffers p.offer ≠ none ∧ s.watch.destroys (.selection id) = []) ∨
      (s.watch.event (.selection id)).ready = s.watch.ready ∧
        (s.watch.destroys (.selection id) = [] ∧ id.bind s.watch.pendingOffers = none ∨
          ∃ offer, id = some offer ∧ s.watch.pendingOffers offer ≠ none ∧
            s.watch.destroys (.selection id) = [offer]) := by
  cases hid : id.bind s.watch.pendingOffers with
  | none =>
    obtain ⟨hselects, hdestroys⟩ := WatchState.destroys_of_not_pending hid
    exact .inr ⟨by rw [WatchState.event, hselects], .inl ⟨hdestroys, rfl⟩⟩
  | some list =>
    obtain ⟨offer, rfl, hlist⟩ := Option.bind_eq_some_iff.1 hid
    have hpending : s.watch.pendingOffers offer ≠ none := hlist ▸ Option.some_ne_none list
    rcases WatchState.destroys_selection hlist with ⟨p, hselects, rfl, hdestroys⟩ | ⟨hselects, hdestroys⟩
    · exact .inl ⟨p, by rw [WatchState.event, hselects], rfl, h.pending _ hpending, hpending, hdestroys⟩
    · exact .inr ⟨by rw [WatchState.event, hselects], .inr ⟨offer, rfl, hpending, hdestroys⟩⟩

/-- Every step destroys one object at most, and one that exists. -/
theorem Inv.destroyed (h : Inv s) (hstep : Step s label t) :
    label.destroyed = [] ∨ ∃ id ∈ s.live, label.destroyed = [id] := by
  cases hstep with
  | @event e hfresh =>
    cases e with
    | selection id =>
      rcases h.selection id with ⟨p, -, -, -, -, hdestroys⟩ | ⟨-, ⟨hdestroys, -⟩ | ⟨offer, -, hpending, hdestroys⟩⟩
      · exact .inl hdestroys
      · exact .inl hdestroys
      · exact .inr ⟨offer, h.pending offer hpending, hdestroys⟩
    | dataOffer | offer | primarySelection | finished => exact .inl rfl
  | @process pending transfer destroyed hready hprocess =>
    exact .inr ⟨pending.offer, (h.ready pending hready).1, processReadyDestroys_eq hprocess⟩

theorem Step.live_eq (hstep : Step s label t) : t.live = (label.introduced ++ s.live).diff label.destroyed := by
  cases hstep with
  | @event e hfresh => cases e <;> rfl
  | process => rfl

theorem Inv.step (h : Inv s) (hstep : Step s label t) : Inv t := by
  cases hstep with
  | @event e hfresh =>
    cases e with
    | dataOffer id =>
      have hsame : ∀ id', id' ≠ id → (s.watch.event (.dataOffer id)).pendingOffers id' = s.watch.pendingOffers id' :=
        fun id' hne => Function.update_of_ne hne ..
      refine ⟨List.nodup_cons.2 ⟨hfresh id rfl, h.nodup⟩, fun id' hid' => ?_, fun p hp => ?_⟩
      · by_cases hne : id' = id
        · exact hne ▸ List.mem_cons_self
        · exact List.mem_cons_of_mem _ (h.pending id' (hsame id' hne ▸ hid'))
      · obtain ⟨hlive, hnone⟩ := h.ready p hp
        refine ⟨List.mem_cons_of_mem _ hlive, (hsame _ fun hid => ?_).trans hnone⟩
        exact hfresh id rfl (hid ▸ hlive)
    | offer id mimeType =>
      refine ⟨h.nodup, fun id' hid' => ?_, fun p hp => ?_⟩
      · exact h.pending id' (WatchState.pendingOffers_offer_eq_none.not.1 hid')
      · rw [WatchState.ready_offer] at hp
        exact ⟨(h.ready p hp).1, WatchState.pendingOffers_offer_eq_none.2 (h.ready p hp).2⟩
    | selection id =>
      refine ⟨h.nodup.diff, fun id' hid' => absurd rfl hid', fun p hp => ⟨?_, rfl⟩⟩
      change p.offer ∈ s.live.diff (s.watch.destroys (.selection id))
      rcases h.selection id with ⟨q, hready, -, hlive, -, hdestroys⟩ | ⟨hready, hdestroys⟩
      · obtain rfl : q = p := Option.some.inj (hready.symm.trans hp)
        rw [hdestroys]
        exact hlive
      · obtain ⟨hlive, hnone⟩ := h.ready p (hready.symm.trans hp)
        rcases hdestroys with ⟨hdestroys, -⟩ | ⟨offer, -, hpending, hdestroys⟩
        · rw [hdestroys]
          exact hlive
        · rw [hdestroys, h.nodup.mem_sdiff_iff]
          exact ⟨hlive, fun hmem => hpending (List.mem_singleton.1 hmem ▸ hnone)⟩
    | primarySelection | finished => exact h
  | @process pending transfer destroyed hready hprocess =>
    rw [processReadyDestroys_eq hprocess]
    refine ⟨h.nodup.diff, fun id hid => ?_, nofun⟩
    rw [h.nodup.mem_sdiff_iff]
    exact ⟨h.pending id hid, fun hmem => hid (List.mem_singleton.1 hmem ▸ (h.ready pending hready).2)⟩

/-- An object is introduced and destroyed in turn: no more often destroyed than introduced, and as often if it does
not exist. -/
def Counted (labels : List OfferLabel) (s : OfferObjects) : Prop :=
  ∀ id, (labels.flatMap (·.introduced)).count id = (labels.flatMap (·.destroyed)).count id + s.live.count id

theorem Counted.step {labels : List OfferLabel} (h : Counted labels s) (hs : Inv s) (hstep : Step s label t) :
    Counted (labels ++ [label]) t := by
  intro id
  have hle : label.destroyed.count id ≤ s.live.count id := by
    rcases hs.destroyed hstep with hnil | ⟨id', hlive, heq⟩
    · simp [hnil]
    · rw [heq]
      exact (List.singleton_sublist.2 hlive).count_le id
  have hid := h id
  simp only [List.flatMap_append, List.flatMap_cons, List.flatMap_nil, List.append_nil, List.count_append,
    hstep.live_eq, List.count_diff]
  omega

/-! ### Runs without a leak -/

/-- At a selection no other offer is pending, and none is in `ready` if it is accepted; what becomes the primary
selection is not pending. -/
def Tidy (s : OfferObjects) : OfferLabel → Prop
  | .event (.selection id) _ =>
    (∀ offer, s.watch.pendingOffers offer ≠ none → id = some offer) ∧
      (WatchState.selects s.watch.pendingOffers id ≠ none → s.watch.ready = none)
  | .event (.primarySelection id) _ => ∀ offer, id = some offer → s.watch.pendingOffers offer = none
  | _ => True

def TidyStep (s : OfferObjects) (label : OfferLabel) (t : OfferObjects) : Prop := Step s label t ∧ s.Tidy label

/-- What exists is held by the watcher, and what is pending is not spent. -/
structure Settled (events : List WatchEvent) (s : OfferObjects) : Prop where
  inv : Inv s
  held : ∀ id ∈ s.live, s.watch.pendingOffers id ≠ none ∨ ∃ p, s.watch.ready = some p ∧ p.offer = id
  unspent : ∀ id, s.watch.pendingOffers id ≠ none → ¬ Spent events id
  opened : ∀ id, s.watch.pendingOffers id ≠ none → id ∈ opened events

theorem Settled.start : Settled [] OfferObjects.start :=
  ⟨.start, by simp [OfferObjects.start], by simp [OfferObjects.start, WatchState.new],
    by simp [OfferObjects.start, WatchState.new]⟩

/-- An event that changes neither the live objects nor which of them the watcher holds. -/
theorem Settled.idle {events : List WatchEvent} {e : WatchEvent} (h : Settled events s) (hinv : Inv t)
    (hlive : t.live = s.live) (hready : t.watch.ready = s.watch.ready)
    (hpending : ∀ id, t.watch.pendingOffers id = none ↔ s.watch.pendingOffers id = none)
    (hopened : Mimeclip.opened (events ++ [e]) = Mimeclip.opened events) (hsel : ∀ id, e ≠ .selection id)
    (hprimary : ∀ id, e = .primarySelection (some id) → s.watch.pendingOffers id = none) :
    Settled (events ++ [e]) t where
  inv := hinv
  held id hid := by
    rw [hready, ne_eq, hpending]
    exact h.held id (hlive ▸ hid)
  unspent id hid hspent := by
    have hid' := (hpending id).not.1 hid
    exact h.unspent id hid' (hspent.of_snoc hsel fun he => hid' (hprimary id he)).2
  opened id hid := hopened ▸ h.opened id ((hpending id).not.1 hid)

theorem Settled.dataOffer {events : List WatchEvent} {id : UInt32} (h : Settled events s)
    (hstep : Step s (.event (.dataOffer id) []) t) : Settled (events ++ [.dataOffer id]) t := by
  have hinv := h.inv.step hstep
  cases hstep with
  | event hfresh =>
    have hsame : ∀ id', id' ≠ id → (s.watch.event (.dataOffer id)).pendingOffers id' = s.watch.pendingOffers id' :=
      fun id' hne => Function.update_of_ne hne ..
    have hnew : (s.watch.event (.dataOffer id)).pendingOffers id = some [] := Function.update_self ..
    refine ⟨hinv, fun id' hlive => ?_, fun id' hid' hspent => ?_, fun id' hid' => ?_⟩
    · rcases List.mem_cons.1 hlive with rfl | hlive
      · exact .inl (by rw [hnew]; nofun)
      · have hne : id' ≠ id := fun heq => hfresh id rfl (heq ▸ hlive)
        rcases h.held id' hlive with hpending | hready
        · exact .inl (by rwa [hsame id' hne])
        · exact .inr hready
    · obtain ⟨hne, hspent⟩ := hspent.of_snoc nofun nofun
      have hne : id' ≠ id := fun heq => hne (heq ▸ rfl)
      exact h.unspent id' (by rwa [← hsame id' hne]) hspent
    · rw [opened_snoc]
      by_cases hne : id' = id
      · exact hne ▸ List.mem_cons_self
      · exact List.mem_cons_of_mem _ (h.opened id' (by rwa [← hsame id' hne]))

theorem Settled.selection {events : List WatchEvent} {id : Option UInt32} {destroyed : List UInt32}
    (h : Settled events s) (hstep : TidyStep s (.event (.selection id) destroyed) t) :
    Settled (events ++ [.selection id]) t := by
  obtain ⟨hstep, honly, hfree⟩ := hstep
  have hinv := h.inv.step hstep
  cases hstep with
  | event hfresh =>
    refine ⟨hinv, fun id' hlive => .inr ?_, fun id' hid' => absurd rfl hid', fun id' hid' => absurd rfl hid'⟩
    have hlive : id' ∈ s.live.diff (s.watch.destroys (.selection id)) := hlive
    rw [h.inv.nodup.mem_sdiff_iff] at hlive
    obtain ⟨hlive, hkept⟩ := hlive
    rcases h.held id' hlive with hpending | ⟨p, hready, rfl⟩
    · -- the object was pending, so it is the selected one
      obtain rfl := honly id' hpending
      rcases h.inv.selection (some id') with ⟨p, hready, hid, -⟩ | ⟨-, ⟨-, hnone⟩ | ⟨offer, hid, -, hdestroys⟩⟩
      · exact ⟨p, hready, (Option.some.inj hid).symm⟩
      · exact absurd hnone hpending
      · cases hid
        exact absurd (hdestroys ▸ List.mem_singleton_self id') hkept
    · -- it was in `ready`, and stays there
      have hselects : WatchState.selects s.watch.pendingOffers id = none := by
        by_contra hne
        rw [hfree hne] at hready
        cases hready
      exact ⟨p, by rw [WatchState.event, hselects]; exact hready, rfl⟩

theorem Settled.event {events : List WatchEvent} {e : WatchEvent} {destroyed : List UInt32} (h : Settled events s)
    (hstep : TidyStep s (.event e destroyed) t) : Settled (events ++ [e]) t := by
  have hinv := h.inv.step hstep.1
  cases e with
  | dataOffer id =>
    obtain ⟨hstep, -⟩ := hstep
    cases hstep with
    | event hfresh => exact h.dataOffer (.event hfresh)
  | selection id => exact h.selection hstep
  | offer id mimeType =>
    obtain ⟨hstep, -⟩ := hstep
    cases hstep
    exact h.idle hinv rfl WatchState.ready_offer (fun _ => WatchState.pendingOffers_offer_eq_none)
      (opened_snoc _ _) nofun nofun
  | primarySelection id =>
    obtain ⟨hstep, htidy⟩ := hstep
    cases hstep
    exact h.idle hinv rfl rfl (fun _ => Iff.rfl) (opened_snoc _ _) nofun
      fun offer he => htidy offer (WatchEvent.primarySelection.inj he)
  | finished =>
    obtain ⟨hstep, -⟩ := hstep
    cases hstep
    exact h.idle hinv rfl rfl (fun _ => Iff.rfl) (opened_snoc _ _) nofun nofun

theorem Settled.process {events : List WatchEvent} {destroyed : List UInt32} (h : Settled events s)
    (hstep : Step s (.process destroyed) t) : Settled events t := by
  have hinv := h.inv.step hstep
  cases hstep with
  | @process pending transfer _ hready hprocess =>
    refine ⟨hinv, fun id hlive => .inl ?_, h.unspent, h.opened⟩
    rw [processReadyDestroys_eq hprocess, h.inv.nodup.mem_sdiff_iff] at hlive
    rcases h.held id hlive.1 with hpending | ⟨p, hp, rfl⟩
    · exact hpending
    · obtain rfl : p = pending := Option.some.inj (hp.symm.trans hready)
      exact absurd (List.mem_singleton_self _) hlive.2

theorem Counted.of_run {labels : List OfferLabel} (hrun : Run Step OfferObjects.start labels s) :
    Inv s ∧ Counted labels s := by
  have hstep : ∀ labels s label t, Inv s ∧ Counted labels s → Step s label t → Inv t ∧ Counted (labels ++ [label]) t :=
    fun labels s label t h hstep => ⟨h.1.step hstep, h.2.step h.1 hstep⟩
  exact show Inv s ∧ Counted ([] ++ labels) s from hrun.history hstep ⟨.start, fun id => rfl⟩

theorem Settled.of_run {labels : List OfferLabel} (hrun : Run TidyStep OfferObjects.start labels s) :
    Settled (OfferLabel.events labels) s := by
  have hstep : ∀ labels s label t, Settled (OfferLabel.events labels) s → TidyStep s label t →
      Settled (OfferLabel.events (labels ++ [label])) t := by
    intro labels s label t h hstep
    cases label with
    | event e destroyed =>
      rw [OfferLabel.events_snoc_event]
      exact h.event hstep
    | process destroyed =>
      rw [OfferLabel.events_snoc_process]
      exact h.process hstep.1
  exact show Settled (OfferLabel.events ([] ++ labels)) s from hrun.history hstep Settled.start

theorem Settled.length_live_le {events : List WatchEvent} (h : Settled events s) :
    s.live.length ≤ (Mimeclip.opened events).length + 1 := by
  have hsub : s.live ⊆ s.watch.ready.toList.map (·.offer) ++ Mimeclip.opened events := by
    intro id hid
    rcases h.held id hid with hpending | ⟨p, hready, rfl⟩
    · exact List.mem_append_right _ (h.opened id hpending)
    · exact List.mem_append_left _ (List.mem_map_of_mem (by simpa using hready))
  have hle := (List.subperm_of_subset h.inv.nodup hsub).length_le
  have hready : s.watch.ready.toList.length ≤ 1 := by cases s.watch.ready <;> simp
  rw [List.length_append, List.length_map] at hle
  omega

/-- In every run in which no offer is dropped as stale, overwritten in `ready` or made the primary selection: no object
is destroyed twice, a spent one is not pending and, while nothing is in `ready`, has been destroyed, and what is left
is bounded by the objects introduced since the last selection. -/
theorem offers_released {labels : List OfferLabel} (hrun : Run TidyStep OfferObjects.start labels s) :
    (s.live.Nodup ∧ Counted labels s) ∧
      (∀ id, Spent (OfferLabel.events labels) id →
        s.watch.pendingOffers id = none ∧ (s.watch.ready = none → id ∉ s.live)) ∧
      (∀ id, s.watch.pendingOffers id ≠ none → id ∈ Mimeclip.opened (OfferLabel.events labels)) ∧
      s.live.length ≤ (Mimeclip.opened (OfferLabel.events labels)).length + 1 := by
  have h := Settled.of_run hrun
  have hcounted := Counted.of_run (hrun.mono fun _ _ _ hstep => hstep.1)
  have hnone : ∀ id, Spent (OfferLabel.events labels) id → s.watch.pendingOffers id = none := fun id hspent => by
    by_contra hpending
    exact h.unspent id hpending hspent
  refine ⟨⟨h.inv.nodup, hcounted.2⟩, fun id hspent => ⟨hnone id hspent, fun hready hlive => ?_⟩, h.opened,
    h.length_live_le⟩
  rcases h.held id hlive with hpending | ⟨p, hp, -⟩
  · exact hpending (hnone id hspent)
  · rw [hready] at hp
    cases hp

def hiTransfer : Transfer where
  piped _ := true
  flushed := true
  polls := [.ready [.chunk ⟨asBytes "hi", by decide, by decide⟩], .ready [.eof]]

def copied : List OfferLabel :=
  [.event (.dataOffer 1) [], .event (.offer 1 "text/plain") [], .event (.selection (some 1)) [], .process [1]]

theorem offers_released_copied :
    (([] : List UInt32).Nodup ∧ Counted copied ⟨⟨fun _ => none, none⟩, []⟩) ∧
      (∀ id, Spent (OfferLabel.events copied) id → (none : Option (List String)) = none ∧
        ((none : Option PendingOffer) = none → id ∉ ([] : List UInt32))) ∧
      (∀ id, (none : Option (List String)) ≠ none → id ∈ Mimeclip.opened (OfferLabel.events copied)) ∧
      ([] : List UInt32).length ≤ (Mimeclip.opened (OfferLabel.events copied)).length + 1 := by
  have honly (offer : UInt32)
      (hpending : ((WatchState.new.event (.dataOffer 1)).event (.offer 1 "text/plain")).pendingOffers offer ≠ none) :
      some 1 = some offer := by
    rw [ne_eq, WatchState.pendingOffers_offer_eq_none] at hpending
    by_contra hne
    exact hpending (Function.update_of_ne (fun heq => hne (congrArg some heq.symm)) ..)
  have hprocess : processReadyDestroys ⟨1, ["text/plain"]⟩ hiTransfer = some [1] := rfl
  have hrun : Run TidyStep OfferObjects.start copied ⟨⟨fun _ => none, none⟩, []⟩ := by
    refine .cons ⟨.event fun _ _ => List.not_mem_nil, trivial⟩ (.cons ⟨.event nofun, trivial⟩ ?_)
    exact .cons ⟨.event nofun, honly, fun _ => rfl⟩ (.single ⟨.process rfl hprocess, trivial⟩)
  exact offers_released hrun

/-- Two texts are copied in one batch: the offer of the first is overwritten in `ready`, and never destroyed. -/
theorem overwritten_offer_leaked :
    let labels := [.event (.dataOffer 1) [], .event (.offer 1 "text/plain") [], .event (.selection (some 1)) [],
      .event (.dataOffer 2) [], .event (.offer 2 "text/plain") [], .event (.selection (some 2)) [], .process [2]]
    ∃ s, Run Step OfferObjects.start labels s ∧ s.watch.ready = none ∧ Spent (OfferLabel.events labels) 1 ∧
      1 ∈ s.live ∧ (labels.flatMap (·.destroyed)).count 1 = 0 := by
  refine ⟨⟨⟨fun _ => none, none⟩, [1]⟩, ?_, rfl, ?_, by decide, by decide⟩
  · refine .cons (.event fun _ _ => List.not_mem_nil) (.cons (.event nofun) (.cons (.event nofun) ?_))
    refine .cons (.event ?_) (.cons (.event nofun) (.cons (.event nofun) ?_))
    · rintro id ⟨⟩
      decide
    · have hprocess : processReadyDestroys ⟨2, ["text/plain"]⟩ hiTransfer = some [2] := rfl
      exact .single (.process rfl hprocess)
  · exact ⟨[], _, rfl, by decide, .inl ⟨some 2, by decide⟩⟩

end OfferObjects

end Mimeclip
