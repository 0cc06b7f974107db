import Mimeclip.DbRun

/-!
# The rows after a call

However a call ends, a row that is there afterwards was there before, under its id and with its hash, its creation
time and its payload rows, or it is the one row the call has inserted, with the first of its payloads (`Op.Ends.row`).
Ids are handed out in ascending order, so an id that names an entry goes on naming it, and never names another
(`Store.Continues`).
-/

namespace Mimeclip

/-- What no call changes in a row: `r` is what has become of the row `r₀` of `s`. -/
structure Store.Kept (s t : Store) (r₀ r : EntryRow) : Prop where
  mem : r₀ ∈ s.entries
  id : r.id = r₀.id
  hash : r.hash = r₀.hash
  createdAt : r.createdAt = r₀.createdAt
  timestamp : r.timestamp = r₀.timestamp
  payloads : t.payloadsOf r₀.id = s.payloadsOf r₀.id

namespace Store
variable {s t u : Store} {r₀ r₁ r : EntryRow}

theorem Kept.refl (h : r ∈ s.entries) : s.Kept s r r := ⟨h, rfl, rfl, rfl, rfl, rfl⟩

theorem Kept.trans (h : s.Kept t r₀ r₁) (h' : t.Kept u r₁ r) : s.Kept u r₀ r where
  mem := h.mem
  id := h'.id.trans h.id
  hash := h'.hash.trans h.hash
  createdAt := h'.createdAt.trans h.createdAt
  timestamp := h'.timestamp.trans h.timestamp
  payloads := by rw [← h.payloads, ← h.id, h'.payloads]

theorem Kept.rawPayloads (h : s.Kept t r₀ r) : t.rawPayloads r.id = s.rawPayloads r.id := by
  rw [Store.rawPayloads, h.id, h.payloads, Store.rawPayloads]

/-- Every row of `t` was a row of `s`. -/
def AllKept (s t : Store) : Prop := ∀ r ∈ t.entries, ∃ r₀, s.Kept t r₀ r

theorem AllKept.refl (s : Store) : s.AllKept s := fun r hr => ⟨r, .refl hr⟩

theorem AllKept.trans (h : s.AllKept t) (h' : t.AllKept u) : s.AllKept u := by
  intro r hr
  obtain ⟨r₁, hr₁⟩ := h' r hr
  obtain ⟨r₀, hr₀⟩ := h r₁ hr₁.mem
  exact ⟨r₀, hr₀.trans hr₁⟩

theorem allKept_deleteWhere (s : Store) (p : EntryRow → Bool) : s.AllKept (s.deleteWhere p) :=
  fun r hr => ⟨r, (mem_deleteWhere.1 hr).1, rfl, rfl, rfl, rfl, payloadsOf_deleteWhere_of_mem hr⟩

theorem allKept_updateEntry {id : Int} {f : EntryColumns → EntryColumns} (hf : ∀ c, (f c).hash = c.hash)
    (hcreated : ∀ c, (f c).createdAt = c.createdAt) (htimestamp : ∀ c, (f c).timestamp = c.timestamp) :
    s.AllKept (s.updateEntry id f hf) := by
  intro r hr
  obtain ⟨r₀, hr₀, rfl⟩ := List.mem_map.1 hr
  refine ⟨r₀, hr₀, ?_, ?_, ?_, ?_, rfl⟩ <;> split_ifs
  exacts [rfl, rfl, hf _, rfl, hcreated _, rfl, htimestamp _, rfl]

end Store

namespace Op
variable {T : Type} (chrono : Chrono T) (plan : RecencyPlan)

/-- The call returns `out`, or it does not come to its end. -/
def Ends (c : Connection) (op : Op T) : Option (Output T) → Connection → Prop
  | some out, c' => Completes chrono plan c (op, out) c'
  | none, c' => Stops chrono plan c op c'

variable {chrono plan} {c c' : Connection} {op : Op T} {out : Option (Output T)}

theorem Ends.stops (h : Ends chrono plan c op out c') : Stops chrono plan c op c' := by
  cases out with
  | none => exact h
  | some out => exact Completes.stops h

theorem stops_insert {entry : NewEntry T} (h : Stops chrono plan c (.insert entry) c') :
    (c.self.insert chrono plan entry).Leaves c.store c'.store := by
  rcases Script.leaves_bind.1 h.1 with h | ⟨id, t, h, hpure⟩
  · exact h
  · rw [Script.leaves_pure.1 hpure]
    exact h.leaves

theorem completes_insert {entry : NewEntry T} {out : Output T} (h : Completes chrono plan c (.insert entry, out) c') :
    ∃ id, (c.self.insert chrono plan entry).Returns c.store id c'.store := by
  obtain ⟨id, t, h, hpure⟩ := Script.returns_bind.1 h.1
  obtain ⟨-, hsame⟩ := Script.returns_pure.1 hpure
  exact ⟨id, hsame ▸ h⟩

variable (chrono) in
/-- The row is the one the call has inserted. -/
structure Inserted (c : Connection) (op : Op T) (out : Option (Output T)) (t : Store) (r : EntryRow)
    (entry : NewEntry T) (payloads : Payloads) : Prop where
  op_eq : op = .insert entry
  unknown : Database.known c.store entry.hash = none
  row : r = ⟨c.self.newColumns chrono entry, c.store.nextEntryId⟩
  entrySeq : t.entrySeq = c.store.nextEntryId
  rows : t.rawPayloads r.id = c.store.rawPayloads r.id ++ payloads
  first : payloads <+: entry.payloads
  all : out ≠ none → payloads = entry.payloads

theorem inserted_of_trim {entry : NewEntry T} {s₁ t : Store} {id : Int}
    (hnew : Database.known c.store entry.hash = none)
    (hs₁ : c.store.insertEntry (c.self.newColumns chrono entry) = .ok (id, s₁)) {k : Nat} {p : EntryRow → Bool}
    (ht : t = (s₁.addPayloads id (entry.payloads.take k)).deleteWhere p) {r : EntryRow} (hr : r ∈ t.entries) :
    (∃ r₀, c.store.Kept t r₀ r) ∨
      ∀ out, (out ≠ none → entry.payloads.length ≤ k) →
        Inserted chrono c (.insert entry) out t r entry (entry.payloads.take k) := by
  obtain ⟨rfl, hh, rfl⟩ := Store.insertEntry_ok hs₁
  subst ht
  have hp := Store.payloadsOf_deleteWhere_of_mem hr
  have hmem := (Store.mem_deleteWhere.1 hr).1
  rw [Store.entries_addPayloads] at hmem
  rcases List.mem_append.1 hmem with hmem | hmem
  · refine .inl ⟨r, hmem, rfl, rfl, rfl, rfl, hp.trans ?_⟩
    exact Store.payloadsOf_addPayloads_ne (Store.id_lt_nextEntryId hmem).ne
  · obtain rfl := List.mem_singleton.1 hmem
    refine .inr fun out hall => ⟨rfl, hnew, rfl, ?_, ?_, List.take_prefix _ _, fun hout => ?_⟩
    · exact Store.entrySeq_addPayloads
    · rw [Store.rawPayloads, hp, ← Store.rawPayloads, Store.rawPayloads_addPayloads, if_pos rfl]
      rfl
    · exact List.take_of_length_le (hall hout)

theorem row_of_written {entry : NewEntry T} {id : Int} {w : Store} {p : EntryRow → Bool}
    (hw : Database.Written chrono c.self entry c.store id w) {r : EntryRow} (hr : r ∈ (w.deleteWhere p).entries) :
    (∃ r₀, c.store.Kept (w.deleteWhere p) r₀ r) ∨
      ∀ out, ∃ payloads, Inserted chrono c (.insert entry) out (w.deleteWhere p) r entry payloads := by
  cases hw with
  | refreshed hid =>
    have hkept : c.store.AllKept (c.store.updateEntry id _ (Database.refreshColumns_hash chrono entry)) :=
      Store.allKept_updateEntry _ (fun _ => rfl) fun _ => rfl
    exact .inl (hkept.trans (Store.allKept_deleteWhere _ p) r hr)
  | added s₁ hid hs₁ =>
    refine (inserted_of_trim (k := entry.payloads.length) (p := p) hid hs₁ ?_ hr).imp_right fun h out =>
      ⟨_, h out fun _ => le_rfl⟩
    rw [List.take_length]

/-- Where a row comes from. -/
theorem Ends.row (h : Ends chrono plan c op out c') {r : EntryRow} (hr : r ∈ c'.store.entries) :
    (∃ r₀, c.store.Kept c'.store r₀ r) ∨ ∃ entry payloads, Inserted chrono c op out c'.store r entry payloads := by
  by_cases hop : ∃ entry, op = .insert entry
  · obtain ⟨entry, rfl⟩ := hop
    have hresidue := Database.insert_leaves (stops_insert h.stops)
    cases out with
    | some out =>
      obtain ⟨id, hreturns⟩ := completes_insert h
      obtain ⟨w, hw, htrim⟩ := Database.insert_returns hreturns
      obtain ⟨p, hp⟩ := Database.trim_leaves _ _ htrim.leaves
      rw [hp] at hr ⊢
      exact (row_of_written hw hr).imp_right fun h => ⟨entry, h _⟩
    | none =>
      generalize c'.store = t at hr hresidue
      cases hresidue with
      | unchanged => exact .inl ⟨r, .refl hr⟩
      | partly id s₁ hid hs₁ k =>
        rw [← Store.deleteWhere_none (Store.addPayloads _ _ _)] at hr ⊢
        exact (inserted_of_trim hid hs₁ rfl hr).imp_right fun h => ⟨entry, _, h none fun hout => absurd rfl hout⟩
      | written hw htrim =>
        obtain ⟨p, rfl⟩ := Database.trim_leaves _ _ htrim
        exact (row_of_written hw hr).imp_right fun h => ⟨entry, h _⟩
  · have hkept : c.store.AllKept c'.store := h.stops.preserves (I := fun t => c.store.AllKept t)
      (fun _ entry _ _ heq => absurd ⟨entry, heq⟩ hop) (fun s p hs => hs.trans (s.allKept_deleteWhere p))
      (fun _ _ _ hs => hs.trans (Store.allKept_updateEntry _ (fun _ => rfl) fun _ => rfl)) (.refl _)
    exact .inl (hkept r hr)

theorem Stops.entrySeq_le (h : Stops chrono plan c op c') : c.store.entrySeq ≤ c'.store.entrySeq := by
  refine h.preserves (I := fun t => c.store.entrySeq ≤ t.entrySeq) ?_ (fun _ _ hs => hs) (fun _ _ _ hs => hs) le_rfl
  intro self entry s t _ hs hleaves
  have hadd : ∀ {id : Int} {s₁ : Store} {columns : EntryColumns}, s.insertEntry columns = .ok (id, s₁) →
      c.store.entrySeq ≤ s₁.entrySeq := by
    intro id s₁ columns hok
    obtain ⟨rfl, hh, rfl⟩ := Store.insertEntry_ok hok
    exact hs.trans s.entrySeq_lt_nextEntryId.le
  cases Database.insert_leaves hleaves with
  | unchanged => exact hs
  | partly id s₁ hid hs₁ k => exact (hadd hs₁).trans_eq Store.entrySeq_addPayloads.symm
  | written hw htrim =>
    obtain ⟨p, rfl⟩ := Database.trim_leaves _ _ htrim
    cases hw with
    | refreshed => exact hs
    | added s₁ hid hs₁ => exact (hadd hs₁).trans_eq Store.entrySeq_addPayloads.symm

end Op

/-! ### Ids -/

/-- What `AUTOINCREMENT` keeps of a table. -/
def Store.Sequenced (s : Store) : Prop := ∀ r ∈ s.entries, r.id ≤ s.entrySeq

instance (s : Store) : Decidable s.Sequenced := inferInstanceAs (Decidable (∀ r ∈ s.entries, r.id ≤ s.entrySeq))

/-- Every payload row belongs to an id that was handed out. -/
def Store.PayloadsIssued (s : Store) : Prop := ∀ q ∈ s.payloads, q.entryId ≤ s.entrySeq

instance (s : Store) : Decidable s.PayloadsIssued :=
  inferInstanceAs (Decidable (∀ q ∈ s.payloads, q.entryId ≤ s.entrySeq))

namespace Store
variable {s : Store}

theorem PayloadsIssued.rawPayloads_nextEntryId (h : s.PayloadsIssued) : s.rawPayloads s.nextEntryId = [] := by
  rw [rawPayloads, List.map_eq_nil_iff, List.eq_nil_iff_forall_not_mem]
  intro q hq
  obtain ⟨hmem, hid⟩ := mem_payloadsOf.1 hq
  exact absurd (h q hmem) (hid ▸ s.entrySeq_lt_nextEntryId.not_ge)

theorem PayloadsIssued.deleteWhere (h : s.PayloadsIssued) (p : EntryRow → Bool) : (s.deleteWhere p).PayloadsIssued := by
  intro q hq
  refine h q ?_
  simp only [Store.deleteWhere] at hq
  split_ifs at hq
  exacts [List.mem_of_mem_filter hq, hq]

theorem PayloadsIssued.updateEntry (h : s.PayloadsIssued) {id : Int} {f : EntryColumns → EntryColumns} {hf} :
    (s.updateEntry id f hf).PayloadsIssued := h

theorem PayloadsIssued.insert (h : s.PayloadsIssued) {columns : EntryColumns} {id : Int} {s₁ : Store}
    (hs₁ : s.insertEntry columns = .ok (id, s₁)) (payloads : Payloads) :
    (s₁.addPayloads id payloads).PayloadsIssued := by
  obtain ⟨rfl, hh, rfl⟩ := insertEntry_ok hs₁
  have hadded : (s.addEntry columns hh).PayloadsIssued :=
    fun q hq => (h q hq).trans s.entrySeq_lt_nextEntryId.le
  have hadd : ∀ (t : Store) (payloads : Payloads), t.PayloadsIssued → s.nextEntryId ≤ t.entrySeq →
      (t.addPayloads s.nextEntryId payloads).PayloadsIssued := by
    intro t payloads
    induction payloads generalizing t with
    | nil => exact fun ht _ => ht
    | cons p payloads ih =>
      intro ht hid
      refine ih _ (fun q hq => ?_) hid
      rcases List.mem_append.1 hq with hq | hq
      · exact ht q hq
      · rw [List.mem_singleton.1 hq]
        exact hid
  exact hadd _ payloads hadded le_rfl

end Store

/-- The ids handed out when the history was `s` name in `t` what they named in `s`, or nothing. -/
structure Store.Continues (s t : Store) : Prop where
  entrySeq : s.entrySeq ≤ t.entrySeq
  entries : ∀ r ∈ t.entries, r.id ≤ s.entrySeq → ∃ r₀, s.Kept t r₀ r

theorem Store.Continues.refl (s : Store) : s.Continues s := ⟨le_rfl, fun r hr _ => ⟨r, .refl hr⟩⟩

theorem Store.Continues.trans {s t u : Store} (h : s.Continues t) (h' : t.Continues u) : s.Continues u := by
  refine ⟨h.entrySeq.trans h'.entrySeq, fun r hr hid => ?_⟩
  obtain ⟨r₁, hr₁⟩ := h'.entries r hr (hid.trans h.entrySeq)
  obtain ⟨r₀, hr₀⟩ := h.entries r₁ hr₁.mem (hr₁.id ▸ hid)
  exact ⟨r₀, hr₀.trans hr₁⟩

section
variable {T : Type} {chrono : Chrono T} {plan : RecencyPlan} {c c' : Connection} {op : Op T}
  {out : Option (Output T)}

theorem Op.Ends.sequenced (h : Op.Ends chrono plan c op out c') (hseq : c.store.Sequenced) : c'.store.Sequenced := by
  intro r hr
  rcases h.row hr with ⟨r₀, hkept⟩ | ⟨entry, payloads, hins⟩
  · rw [hkept.id]
    exact (hseq r₀ hkept.mem).trans h.stops.entrySeq_le
  · rw [hins.row, hins.entrySeq]

theorem Op.Stops.payloadsIssued (h : Op.Stops chrono plan c op c') (hissued : c.store.PayloadsIssued) :
    c'.store.PayloadsIssued := by
  refine h.preserves ?_ (fun _ p hs => hs.deleteWhere p) (fun _ _ _ hs => hs.updateEntry) hissued
  intro self entry s t _ hs hleaves
  cases Database.insert_leaves hleaves with
  | unchanged => exact hs
  | partly id s₁ hid hs₁ k => exact hs.insert hs₁ _
  | written hw htrim =>
    obtain ⟨p, rfl⟩ := Database.trim_leaves _ _ htrim
    cases hw with
    | refreshed => exact (Store.PayloadsIssued.updateEntry hs).deleteWhere p
    | added s₁ hid hs₁ => exact (hs.insert hs₁ _).deleteWhere p

theorem Op.Ends.continues (h : Op.Ends chrono plan c op out c') : c.store.Continues c'.store := by
  refine ⟨h.stops.entrySeq_le, fun r hr hid => ?_⟩
  rcases h.row hr with hkept | ⟨entry, payloads, hins⟩
  · exact hkept
  · rw [hins.row] at hid
    exact absurd c.store.entrySeq_lt_nextEntryId hid.not_gt

end

end Mimeclip
