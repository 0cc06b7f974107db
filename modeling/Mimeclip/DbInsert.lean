import Mimeclip.Db

/-!
# What a stopped `insert` leaves behind

`insert` is a sequence of statements that commit one by one, so it can stop between any two of them.
`trim` and its loop only delete rows (`trim_leaves`), the payload loop leaves an initial part of the
payload rows (`insertPayloads_leaves`), and `insert_leaves` puts the stages together: nothing, a new
row with its first payload rows, or a finished write with part of the trimming done.
-/

namespace Mimeclip

def Store.addPayloads (id : Int) (payloads : Payloads) (s : Store) : Store :=
  payloads.foldl (fun s p => s.addPayload id p.1 p.2) s

namespace Store
variable {s : Store} {id : Int} {payloads : Payloads}

theorem addPayloads_cons {m : String} {d : Bytes} :
    s.addPayloads id ((m, d) :: payloads) = (s.addPayload id m d).addPayloads id payloads := rfl

@[simp] theorem entries_addPayloads : (s.addPayloads id payloads).entries = s.entries := by
  induction payloads generalizing s with
  | nil => rfl
  | cons p payloads ih => exact ih

@[simp] theorem cascade_addPayloads : (s.addPayloads id payloads).cascade = s.cascade := by
  induction payloads generalizing s with
  | nil => rfl
  | cons p payloads ih => exact ih

@[simp] theorem entrySeq_addPayloads : (s.addPayloads id payloads).entrySeq = s.entrySeq := by
  induction payloads generalizing s with
  | nil => rfl
  | cons p payloads ih => exact ih

/-- The rows of the entry itself are extended by `payloads`, the others stay. -/
theorem rawPayloads_addPayloads (entryId : Int) :
    (s.addPayloads id payloads).rawPayloads entryId =
      s.rawPayloads entryId ++ if entryId = id then payloads else [] := by
  induction payloads generalizing s with
  | nil => simp [addPayloads]
  | cons p payloads ih =>
    rw [addPayloads_cons, ih, rawPayloads, payloadsOf_addPayload, rawPayloads]
    split <;> simp

theorem payloadsOf_addPayloads_ne {entryId : Int} (h : entryId ≠ id) :
    (s.addPayloads id payloads).payloadsOf entryId = s.payloadsOf entryId := by
  induction payloads generalizing s with
  | nil => rfl
  | cons p payloads ih => rw [addPayloads_cons, ih, payloadsOf_addPayload]; simp [h]

theorem insertPayload_ok {m : String} {d : Bytes} {t : Store} {u : Unit}
    (h : s.insertPayload id m d = .ok (u, t)) : t = s.addPayload id m d := by
  rw [insertPayload] at h
  split_ifs at h
  cases h; rfl

theorem insertEntry_ok {columns : EntryColumns} {t : Store} (h : s.insertEntry columns = .ok (id, t)) :
    id = s.nextEntryId ∧ ∃ hh, t = s.addEntry columns hh := by
  rw [insertEntry] at h
  split_ifs at h with h1 h2
  cases h
  exact ⟨rfl, h2, rfl⟩

theorem entrySeq_lt_of_insertEntry_ok {columns : EntryColumns} {t : Store}
    (h : s.insertEntry columns = .ok (id, t)) : s.entrySeq < i64Max := by
  have hlt := s.entrySeq_lt_nextEntryId
  rw [insertEntry] at h
  split_ifs at h with h1 h2
  exact hlt.trans_le (not_lt.1 h1)

end Store

namespace Database

variable {T : Type} (chrono : Chrono T) (plan : RecencyPlan) (self : Database)

theorem evict_leaves {maxHistorySize : UInt64} {rows : List (Int × Int)} {remaining : Int}
    {s t : Store} (h : (evict maxHistorySize rows remaining).Leaves s t) : ∃ p, t = s.deleteWhere p := by
  induction rows generalizing remaining s with
  | nil => exact ⟨_, h.trans s.deleteWhere_none.symm⟩
  | cons row rows ih =>
    rw [evict] at h
    split_ifs at h
    · exact ⟨_, h.trans s.deleteWhere_none.symm⟩
    · rcases Script.leaves_bind.1 h with h | ⟨_, s', hs', h⟩
      · rcases Script.leaves_update.1 h with rfl | ⟨_, h⟩
        · exact ⟨_, t.deleteWhere_none.symm⟩
        · cases h; exact ⟨_, rfl⟩
      · cases Script.returns_update.1 hs'
        obtain ⟨p, rfl⟩ := ih h
        exact ⟨_, s.deleteWhere_deleteWhere _ _⟩

/-- Wherever `trim` stops, it has deleted rows and done nothing else. -/
theorem trim_leaves {s t : Store} (h : (self.trim plan).Leaves s t) : ∃ p, t = s.deleteWhere p := by
  rw [trim] at h
  rcases Script.leaves_bind.1 h with h | ⟨_, s', hs', h⟩
  · rcases Script.leaves_update.1 h with rfl | ⟨_, h⟩
    · exact ⟨_, t.deleteWhere_none.symm⟩
    · cases h; exact ⟨_, rfl⟩
  cases Script.returns_update.1 hs'
  rcases Script.leaves_bind.1 h with h | ⟨total, s', hs', h⟩
  · exact ⟨_, Script.leaves_query.1 h⟩
  obtain rfl := (Script.returns_query.1 hs').2
  split_ifs at h
  · rcases Script.leaves_bind.1 h with h | ⟨rows, s', hs', h⟩
    · exact ⟨_, Script.leaves_query.1 h⟩
    obtain rfl := (Script.returns_query.1 hs').2
    obtain ⟨p, rfl⟩ := evict_leaves h
    exact ⟨_, s.deleteWhere_deleteWhere _ _⟩
  · exact ⟨_, h⟩

theorem trim_preserves {I : Store → Prop} (h : ∀ s p, I s → I (s.deleteWhere p)) :
    Script.Preserves I (self.trim plan) := by
  intro s t hs hleaves
  obtain ⟨p, rfl⟩ := trim_leaves plan self hleaves
  exact h s p hs

theorem insertPayloads_leaves {id : Int} {payloads : Payloads} {s t : Store}
    (h : (insertPayloads id payloads).Leaves s t) :
    ∃ k ≤ payloads.length, t = s.addPayloads id (payloads.take k) := by
  induction payloads generalizing s with
  | nil => exact ⟨0, le_rfl, h⟩
  | cons p payloads ih =>
    rw [insertPayloads] at h
    rcases Script.leaves_bind.1 h with h | ⟨_, s', hs', h⟩
    · rcases Script.leaves_update.1 h with rfl | ⟨_, h⟩
      · exact ⟨0, by simp, rfl⟩
      · exact ⟨1, by simp, Store.insertPayload_ok h⟩
    · obtain ⟨k, hk, rfl⟩ := ih h
      refine ⟨k + 1, by simpa using hk, ?_⟩
      rw [Store.insertPayload_ok (Script.returns_update.1 hs')]; rfl

theorem insertPayloads_returns {id : Int} {payloads : Payloads} {s t : Store} {u : Unit}
    (h : (insertPayloads id payloads).Returns s u t) : t = s.addPayloads id payloads := by
  induction payloads generalizing s with
  | nil => exact h.2
  | cons p payloads ih =>
    rw [insertPayloads] at h
    obtain ⟨_, s', hs', h⟩ := Script.returns_bind.1 h
    rw [ih h, Store.insertPayload_ok (Script.returns_update.1 hs')]; rfl

def known (s : Store) (hash : String) : Option Int := (s.entries.find? (·.hash == hash)).map (·.id)

theorem findByHash_returns {hash : String} {s t : Store} {r : Option Int} :
    (findByHash hash).Returns s r t ↔ r = known s hash ∧ t = s := by
  rw [findByHash, Script.returns_query, Except.ok.injEq, eq_comm, known]

/-- The write of `insert` in full, before `trim`: a known entry is refreshed, a new one gets its row
and all its payload rows. -/
inductive Written (entry : NewEntry T) (s : Store) : Int → Store → Prop
  | refreshed (id : Int) (hid : known s entry.hash = some id) :
      Written entry s id (s.updateEntry id _ (refreshColumns_hash chrono entry))
  | added (id : Int) (s₁ : Store) (hid : known s entry.hash = none)
      (hs₁ : s.insertEntry (self.newColumns chrono entry) = .ok (id, s₁)) :
      Written entry s id (s₁.addPayloads id entry.payloads)

inductive InsertResidue (entry : NewEntry T) (s : Store) : Store → Prop
  | unchanged : InsertResidue entry s s
  | partly (id : Int) (s₁ : Store) (hid : known s entry.hash = none)
      (hs₁ : s.insertEntry (self.newColumns chrono entry) = .ok (id, s₁)) (k : Nat)
      (hk : k < entry.payloads.length) :
      InsertResidue entry s (s₁.addPayloads id (entry.payloads.take k))
  | written {id : Int} {w t : Store} (hw : Written chrono self entry s id w)
      (ht : (self.trim plan).Leaves w t) : InsertResidue entry s t

variable {chrono plan self}

theorem insert_returns {entry : NewEntry T} {s t : Store} {id : Int}
    (h : (self.insert chrono plan entry).Returns s id t) :
    ∃ w, Written chrono self entry s id w ∧ (self.trim plan).Returns w () t := by
  rw [insert] at h
  obtain ⟨found, s', hs', h⟩ := Script.returns_bind.1 h
  obtain ⟨rfl, rfl⟩ := findByHash_returns.1 hs'
  cases hk : known s' entry.hash with
  | some id' =>
    simp only [hk] at h
    obtain ⟨_, s₁, hs₁, h⟩ := Script.returns_bind.1 h
    cases Script.returns_update.1 hs₁
    obtain ⟨_, s₂, hs₂, h⟩ := Script.returns_bind.1 h
    obtain ⟨rfl, rfl⟩ := Script.returns_pure.1 h
    exact ⟨_, .refreshed id' hk, hs₂⟩
  | none =>
    simp only [hk] at h
    obtain ⟨id', s₁, hs₁, h⟩ := Script.returns_bind.1 h
    obtain ⟨_, s₂, hs₂, h⟩ := Script.returns_bind.1 h
    obtain ⟨_, s₃, hs₃, h⟩ := Script.returns_bind.1 h
    obtain ⟨rfl, rfl⟩ := Script.returns_pure.1 h
    obtain rfl := insertPayloads_returns hs₂
    exact ⟨_, .added id' s₁ hk (Script.returns_update.1 hs₁), hs₃⟩

theorem insert_leaves {entry : NewEntry T} {s t : Store}
    (h : (self.insert chrono plan entry).Leaves s t) : InsertResidue chrono plan self entry s t := by
  rw [insert] at h
  rcases Script.leaves_bind.1 h with h | ⟨found, s', hs', h⟩
  · rw [Script.leaves_query.1 h]; exact .unchanged
  obtain ⟨rfl, rfl⟩ := findByHash_returns.1 hs'
  cases hk : known s' entry.hash with
  | some id =>
    simp only [hk] at h
    have hw : Written chrono self entry s' id _ := .refreshed id hk
    rcases Script.leaves_bind.1 h with h | ⟨_, s₁, hs₁, h⟩
    · rcases Script.leaves_update.1 h with rfl | ⟨_, h⟩
      · exact .unchanged
      · cases h; exact .written hw (Script.leaves_start _ _)
    cases Script.returns_update.1 hs₁
    rcases Script.leaves_bind.1 h with h | ⟨_, s₂, hs₂, h⟩
    · exact .written hw h
    · rw [Script.leaves_pure.1 h]; exact .written hw hs₂.leaves
  | none =>
    simp only [hk] at h
    rcases Script.leaves_bind.1 h with h | ⟨id, s₁, hs₁, h⟩
    · rcases Script.leaves_update.1 h with rfl | ⟨id, h⟩
      · exact .unchanged
      · have hw : Written chrono self entry s' id _ := .added id t hk h
        cases hp : entry.payloads with
        | nil => rw [hp] at hw; exact .written hw (Script.leaves_start _ _)
        | cons p ps => exact .partly id t hk h 0 (by simp [hp])
    have hs₁ := Script.returns_update.1 hs₁
    have hw : Written chrono self entry s' id _ := .added id s₁ hk hs₁
    rcases Script.leaves_bind.1 h with h | ⟨_, s₂, hs₂, h⟩
    · obtain ⟨k, hle, rfl⟩ := insertPayloads_leaves h
      rcases Nat.lt_or_eq_of_le hle with hlt | rfl
      · exact .partly id s₁ hk hs₁ k hlt
      · rw [List.take_length]; exact .written hw (Script.leaves_start _ _)
    obtain rfl := insertPayloads_returns hs₂
    rcases Script.leaves_bind.1 h with h | ⟨_, s₃, hs₃, h⟩
    · exact .written hw h
    · rw [Script.leaves_pure.1 h]; exact .written hw hs₃.leaves

/-! ### Entry by entry -/

theorem trim_frame {s t : Store} (h : (self.trim plan).Leaves s t) {e : EntryRow} (he : e ∈ t.entries) :
    e ∈ s.entries ∧ t.payloadsOf e.id = s.payloadsOf e.id := by
  obtain ⟨p, rfl⟩ := trim_leaves plan self h
  exact ⟨(Store.mem_deleteWhere.1 he).1, Store.payloadsOf_deleteWhere_of_mem he⟩

theorem trim_deleted {s t : Store} (h : (self.trim plan).Leaves s t) (hc : s.cascade = true) {id : Int}
    (hs : id ∈ s.ids) (ht : id ∉ t.ids) : t.payloadsOf id = [] := by
  obtain ⟨p, rfl⟩ := trim_leaves plan self h
  obtain ⟨e, he, rfl⟩ := Store.mem_ids.1 hs
  refine Store.payloadsOf_deleteWhere_of_deleted hc he ?_
  by_contra hp
  exact ht (Store.mem_ids.2 ⟨e, Store.mem_deleteWhere.2 ⟨he, Bool.not_eq_true _ ▸ hp⟩, rfl⟩)

theorem hash_ne_of_known_none {s : Store} {hash : String} (h : known s hash = none) {e : EntryRow}
    (he : e ∈ s.entries) : e.hash ≠ hash := by
  simp only [known, Option.map_eq_none_iff, List.find?_eq_none, beq_iff_eq] at h
  exact h e he

theorem known_eq_some {s : Store} {hash : String} {id : Int} :
    known s hash = some id ↔ ∃ e ∈ s.entries, e.hash = hash ∧ e.id = id := by
  rw [known, Option.map_eq_some_iff]
  constructor
  · rintro ⟨e, he, rfl⟩
    exact ⟨e, List.mem_of_find?_eq_some he, by simpa using List.find?_some he, rfl⟩
  · rintro ⟨e, he, rfl, rfl⟩
    cases hf : s.entries.find? (·.hash == e.hash) with
    | none => simpa using List.find?_eq_none.1 hf e he
    | some e' =>
      refine ⟨e', rfl, ?_⟩
      rw [Store.eq_of_hash (List.mem_of_find?_eq_some hf) he (by simpa using List.find?_some hf)]

/-- How a finished write leaves an entry: another entry and a refreshed one keep their payload rows, a
new one has all of its own. -/
inductive Whole (entry : NewEntry T) (s t : Store) (e : EntryRow) : Prop
  | other (hne : e.hash ≠ entry.hash) (hs : e ∈ s.entries) (hp : t.payloadsOf e.id = s.payloadsOf e.id)
  | refreshed (heq : e.hash = entry.hash) (hs : known s entry.hash = some e.id)
      (hp : t.payloadsOf e.id = s.payloadsOf e.id)
  | added (heq : e.hash = entry.hash) (hs : known s entry.hash = none) (hid : e.id = s.nextEntryId)
      (hp : t.rawPayloads e.id = s.rawPayloads e.id ++ entry.payloads)

theorem Whole.congr {entry : NewEntry T} {s w t : Store} {e : EntryRow} (h : Whole entry s w e)
    (hp : t.payloadsOf e.id = w.payloadsOf e.id) : Whole entry s t e := by
  cases h with
  | other hne hs h => exact .other hne hs (hp.trans h)
  | refreshed heq hs h => exact .refreshed heq hs (hp.trans h)
  | added heq hs hid h => exact .added heq hs hid (by rw [Store.rawPayloads, hp]; exact h)

theorem whole_of_ne {entry : NewEntry T} {s : Store} {columns : EntryColumns} {hh}
    (hid : known s entry.hash = none) (payloads : Payloads) {e : EntryRow} (he : e ∈ s.entries) :
    Whole entry s ((s.addEntry columns hh).addPayloads s.nextEntryId payloads) e :=
  .other (hash_ne_of_known_none hid he) he <|
    Store.payloadsOf_addPayloads_ne (Store.id_lt_nextEntryId he).ne

theorem Written.whole {entry : NewEntry T} {s w : Store} {id : Int}
    (hw : Written chrono self entry s id w) {e : EntryRow} (he : e ∈ w.entries) : Whole entry s w e := by
  cases hw with
  | refreshed hid =>
    obtain ⟨e₀, he₀, hhash, rfl⟩ := known_eq_some.1 hid
    obtain ⟨r, hr, rfl⟩ := List.mem_map.1 he
    by_cases hre : r.id = e₀.id
    · obtain rfl := Store.eq_of_id hr he₀ hre
      simp only [↓reduceIte]
      exact .refreshed hhash hid rfl
    · rw [if_neg hre]
      refine .other (fun hr' => hre ?_) hr rfl
      rw [Store.eq_of_hash hr he₀ (hr'.trans hhash.symm)]
  | added s₁ hid hs₁ =>
    obtain ⟨rfl, hh, rfl⟩ := Store.insertEntry_ok hs₁
    rw [Store.entries_addPayloads] at he
    rcases List.mem_append.1 he with he | he
    · exact whole_of_ne hid _ he
    · obtain rfl := List.mem_singleton.1 he
      exact .added rfl hid rfl (by rw [Store.rawPayloads_addPayloads, if_pos rfl]; rfl)

/-- Every entry is whole, unless it is the new one and the payload loop did not come to its end. -/
theorem InsertResidue.whole {entry : NewEntry T} {s t : Store}
    (h : InsertResidue chrono plan self entry s t) {e : EntryRow} (he : e ∈ t.entries) :
    Whole entry s t e ∨
      known s entry.hash = none ∧ t.entries = s.entries ++ [e] ∧ e.hash = entry.hash ∧
        ∃ k < entry.payloads.length,
          t.rawPayloads e.id = s.rawPayloads e.id ++ entry.payloads.take k := by
  cases h with
  | unchanged =>
    by_cases hh : e.hash = entry.hash
    · exact .inl (.refreshed hh (known_eq_some.2 ⟨e, he, hh, rfl⟩) rfl)
    · exact .inl (.other hh he rfl)
  | partly id s₁ hid hs₁ k hk =>
    obtain ⟨rfl, hh, rfl⟩ := Store.insertEntry_ok hs₁
    rw [Store.entries_addPayloads] at he
    rcases List.mem_append.1 he with he | he
    · exact .inl (whole_of_ne hid _ he)
    · obtain rfl := List.mem_singleton.1 he
      refine .inr ⟨hid, Store.entries_addPayloads, rfl, k, hk, ?_⟩
      rw [Store.rawPayloads_addPayloads, if_pos rfl]; rfl
  | written hw ht =>
    obtain ⟨hew, hpw⟩ := trim_frame ht he
    exact .inl ((hw.whole hew).congr hpw)

theorem ids_addPayloads {s : Store} {id : Int} {payloads : Payloads} :
    (s.addPayloads id payloads).ids = s.ids := by
  rw [Store.ids, Store.entries_addPayloads, Store.ids]

theorem ids_addEntry {s : Store} {columns : EntryColumns} {hh} :
    (s.addEntry columns hh).ids = s.ids ++ [s.nextEntryId] := by
  rw [Store.ids, Store.addEntry, List.map_append, Store.ids]; rfl

theorem InsertResidue.deleted {entry : NewEntry T} {s t : Store} (hc : s.cascade = true)
    (h : InsertResidue chrono plan self entry s t) {id : Int} (hs : id ∈ s.ids) (ht : id ∉ t.ids) :
    t.payloadsOf id = [] := by
  cases h with
  | unchanged => exact absurd hs ht
  | partly id' s₁ hid hs₁ k hk =>
    obtain ⟨rfl, hh, rfl⟩ := Store.insertEntry_ok hs₁
    exact absurd (by simp [ids_addPayloads, ids_addEntry, hs]) ht
  | written hw htrim =>
    cases hw with
    | refreshed hid => exact trim_deleted htrim hc (by simpa using hs) ht
    | added s₁ hid hs₁ =>
      obtain ⟨rfl, hh, rfl⟩ := Store.insertEntry_ok hs₁
      exact trim_deleted htrim (by simpa using hc) (by simp [ids_addPayloads, ids_addEntry, hs]) ht

/-! ### The law of a stopped `insert` -/

/-- Nothing is written when `insert` stops at its first or second statement. -/
theorem insert_run_le_one (entry : NewEntry T) (s : Store) {budget : Nat} (hb : budget ≤ 1) :
    ((self.insert chrono plan entry).run (some budget) s).2.1 = s := by
  rw [insert, Script.run_bind]
  match budget, hb with
  | 0, _ => rw [findByHash, Script.run_query_zero]
  | 1, _ =>
    have hfind : (findByHash entry.hash).run (some 1) s = (.ok (known s entry.hash), s, some 0) :=
      Script.run_query_ok (by rfl) 0
    rw [hfind]
    cases known s entry.hash <;> simp only [Script.run_bind, Script.run_update_zero]

/-- `insert`, stopped by whatever schedule of faults: it leaves the store as it was, or with the new
row and the first of its payload rows, or the write is finished and part of `trim` is done. An entry
other than the new one never loses some of its payload rows only. -/
theorem insert_stopped (chrono : Chrono T) (plan : RecencyPlan) (self : Database) (entry : NewEntry T)
    (s : Store) (budget : Option Nat) :
    let t := ((self.insert chrono plan entry).run budget s).2.1
    InsertResidue chrono plan self entry s t ∧
    (∀ id, ((self.insert chrono plan entry).run budget s).1 = .ok id →
      ∃ w, Written chrono self entry s id w ∧ (self.trim plan).Returns w () t) ∧
    ((∃ n ≤ 1, budget = some n) → t = s) ∧
    (∀ e ∈ t.entries, Whole entry s t e ∨
      known s entry.hash = none ∧ t.entries = s.entries ++ [e] ∧ e.hash = entry.hash ∧
        ∃ k < entry.payloads.length,
          t.rawPayloads e.id = s.rawPayloads e.id ++ entry.payloads.take k) ∧
    (s.cascade = true → ∀ id ∈ s.ids, id ∉ t.ids → t.payloadsOf id = []) := by
  intro t
  have hres : InsertResidue chrono plan self entry s t := insert_leaves (Script.run_leaves _ _ _)
  refine ⟨hres, fun id hid => ?_, ?_, fun e he => hres.whole he, fun hc id hs ht => hres.deleted hc hs ht⟩
  · exact insert_returns (Script.run_returns (Prod.ext hid rfl))
  · rintro ⟨n, hn, rfl⟩
    exact insert_run_le_one entry s hn

def htmlAndText : NewEntry (Fin 10) where
  hash := "bold"
  kind := .text
  label := "x"
  preview := "x"
  size := 9
  createdAt := 0
  payloads := [("text/html", asBytes "<b>x</b>"), ("text/plain", asBytes "x")]

/-- The process exits between the two payload statements: the store left behind is neither the one
before nor the completed one, and capturing the content again does not repair it. -/
theorem insert_half_written :
    let insert := (ofLimits .default).insert .tenSeconds .index htmlAndText
    let (result, t, _) := insert.run (some 3) .fresh
    result = .error .interrupted ∧ t ≠ .fresh ∧ (∀ id t', insert.Returns .fresh id t' → t ≠ t') ∧
      t.rawPayloads 1 = [("text/html", asBytes "<b>x</b>")] ∧
      (insert.run none t).1 = .ok 1 ∧
      (insert.run none t).2.1.rawPayloads 1 = [("text/html", asBytes "<b>x</b>")] := by
  refine ⟨by decide, by decide, fun id t' h => ?_, by decide, by decide, by decide⟩
  have := congrArg (·.2.1) h.run
  dsimp only at this
  rw [← this]
  decide

end Database
end Mimeclip
