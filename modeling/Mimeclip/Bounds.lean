import Mimeclip.Config
import Mimeclip.DbLru
import Mimeclip.Identity

/-!
# How long the history gets

A call that has trimmed leaves the history within the limits (`trim_returns_within`). One that is cut off before, or
cannot trim, leaves at most its own entry too many, and opening the file trims nothing. So at any time the history is
within the limits at the last call that has trimmed it, but for the entries of the insertions that have failed since
(`history_bounded`).
-/

namespace Mimeclip

/-! ### Bounds -/

structure Store.Bounded (entries size : Nat) (s : Store) : Prop where
  count : s.entries.length ≤ entries
  nonneg : ∀ r ∈ s.entries, 0 ≤ r.size
  size : sizeSum s.entries ≤ size

namespace Store
variable {s : Store} {n m : Nat}

theorem Bounded.mono {n' m' : Nat} (h : s.Bounded n m) (hn : n ≤ n') (hm : m ≤ m') : s.Bounded n' m' :=
  ⟨h.count.trans hn, h.nonneg, h.size.trans (by omega)⟩

theorem Bounded.of_nonneg (h : ∀ r ∈ s.entries, 0 ≤ r.size) : s.Bounded s.entries.length (sizeSum s.entries).toNat :=
  ⟨le_rfl, h, Int.self_le_toNat _⟩

theorem Bounded.deleteWhere (h : s.Bounded n m) (p : EntryRow → Bool) : (s.deleteWhere p).Bounded n m where
  count := (List.length_filter_le _ _).trans h.count
  nonneg r hr := h.nonneg r (mem_deleteWhere.1 hr).1
  size := (sizeSum_le_of_sublist List.filter_sublist h.nonneg).trans h.size

theorem Bounded.touch (h : s.Bounded n m) {T : Type} {chrono : Chrono T} {id : Int} {now : T} :
    (s.updateEntry id _ (Database.touchColumns_hash chrono now)).Bounded n m := by
  have haccounts : (s.updateEntry id _ (Database.touchColumns_hash chrono now)).accounts = s.accounts :=
    accounts_updateEntry fun _ _ _ => rfl
  refine ⟨(length_eq_of_accounts haccounts).trans_le h.count, fun r hr => ?_,
    (sizeSum_eq_of_accounts haccounts).trans_le h.size⟩
  obtain ⟨r', hr', -, -, hsize⟩ := exists_mem_of_accounts haccounts.symm hr
  exact hsize ▸ h.nonneg r' hr'

theorem Bounded.addEntry (h : s.Bounded n m) {columns : EntryColumns} {k : Nat} (hsize : columns.size = k)
    (hh : ∀ r ∈ s.entries, r.hash ≠ columns.hash) : (s.addEntry columns hh).Bounded (n + 1) (m + k) where
  count := by
    rw [Store.addEntry, List.length_append, List.length_singleton]
    exact Nat.succ_le_succ h.count
  nonneg r hr := by
    rcases List.mem_append.1 hr with hr | hr
    · exact h.nonneg r hr
    · rw [List.mem_singleton.1 hr, hsize]
      exact Int.natCast_nonneg k
  size := by
    have hold := h.size
    rw [Store.addEntry, sizeSum, List.map_append, List.sum_append, ← sizeSum, List.map_singleton, List.sum_singleton,
      hsize]
    omega

theorem Bounded.addPayloads (h : s.Bounded n m) {id : Int} {payloads : Payloads} :
    (s.addPayloads id payloads).Bounded n m := by
  have hentries : (s.addPayloads id payloads).entries = s.entries := entries_addPayloads
  exact ⟨hentries ▸ h.count, hentries ▸ h.nonneg, hentries ▸ h.size⟩

end Store

/-- One row gets another size. -/
theorem sizeSum_resize {rows : List EntryRow} {id : Int} {f : EntryColumns → EntryColumns} {k : Nat}
    (hnodup : (rows.map (·.id)).Nodup) (hnonneg : ∀ r ∈ rows, 0 ≤ r.size) (hf : ∀ c, (f c).size = k) :
    sizeSum (rows.map fun r => if r.id = id then { r with toEntryColumns := f r.toEntryColumns } else r) ≤
      sizeSum rows + k := by
  induction rows with
  | nil => simp [sizeSum]
  | cons r rows ih =>
    obtain ⟨hid, hnodup⟩ := List.nodup_cons.1 hnodup
    obtain ⟨hr, hrows⟩ := List.forall_mem_cons.1 hnonneg
    rw [List.map_cons]
    split_ifs with hrid
    · have hrest : (rows.map fun r =>
          if r.id = id then { r with toEntryColumns := f r.toEntryColumns } else r) = rows := by
        refine (List.map_congr_left fun r' hr' => if_neg fun hr'id => hid ?_).trans (List.map_id _)
        exact List.mem_map.2 ⟨r', hr', hr'id.trans hrid.symm⟩
      rw [hrest, sizeSum, sizeSum, List.map_cons, List.map_cons, List.sum_cons, List.sum_cons, hf]
      omega
    · have := ih hnodup hrows
      rw [sizeSum, sizeSum, List.map_cons, List.map_cons, List.sum_cons, List.sum_cons]
      rw [sizeSum, sizeSum] at this
      omega

namespace Database
variable {T : Type} {chrono : Chrono T} {plan : RecencyPlan} {self : Database} {entry : NewEntry T} {s t : Store}
  {n m : Nat}

theorem Written.bounded {id : Int} (hw : Written chrono self entry s id t) (h : s.Bounded n m)
    (hentry : entry.size.toNat < 2 ^ 63) : t.Bounded (n + 1) (m + entry.size.toNat) := by
  have hsize : asI64 entry.size = entry.size.toNat := asI64_eq hentry
  cases hw with
  | refreshed hid =>
    refine ⟨?_, ?_, ?_⟩
    · exact (List.length_map _).trans_le (h.count.trans n.le_succ)
    · refine List.forall_mem_map.2 fun r hr => ?_
      split_ifs
      · exact (Int.natCast_nonneg _).trans_eq hsize.symm
      · exact h.nonneg r hr
    · have hold := h.size
      have hnew : sizeSum (s.updateEntry id _ (refreshColumns_hash chrono entry)).entries ≤
          sizeSum s.entries + entry.size.toNat := sizeSum_resize s.nodup_ids h.nonneg fun _ => hsize
      exact hnew.trans (by omega)
  | added s₁ hid hs₁ =>
    obtain ⟨rfl, hh, rfl⟩ := Store.insertEntry_ok hs₁
    exact (h.addEntry hsize hh).addPayloads

theorem insert_leaves_bounded (h : s.Bounded n m) (hentry : entry.size.toNat < 2 ^ 63)
    (hleaves : (self.insert chrono plan entry).Leaves s t) : t.Bounded (n + 1) (m + entry.size.toNat) := by
  cases insert_leaves hleaves with
  | unchanged => exact h.mono n.le_succ (Nat.le_add_right _ _)
  | partly id s₁ hid hs₁ k hk =>
    obtain ⟨rfl, hh, rfl⟩ := Store.insertEntry_ok hs₁
    exact (h.addEntry (asI64_eq hentry) hh).addPayloads
  | written hw ht =>
    obtain ⟨p, rfl⟩ := trim_leaves _ _ ht
    exact (hw.bounded h hentry).deleteWhere p

/-- When `trim` has returned, the limits hold. -/
theorem trim_returns_within {u : Unit} (h : (self.trim plan).Returns s u t) (hlimits : self.limits.InRange)
    (hnonneg : ∀ r ∈ s.entries, 0 ≤ r.size) : t.Bounded self.maxEntries.toNat self.maxHistorySize.toNat where
  count := by
    have hcount := (trim_returns h).2.length_eq
    have hkept : (self.kept plan s.entries).length ≤ (self.mostRecent plan s.entries).length :=
      (Lru.dropUntil_isSuffix _ _).length_le.trans_eq (oldestFirst_perm _).length_eq
    have hrecent : (self.mostRecent plan s.entries).length ≤ self.maxEntries.toNat := by
      rw [mostRecent, asI64_eq (x := self.maxEntries) hlimits.1, sqlLimit, if_neg (by omega), Int.toNat_natCast]
      exact List.length_take_le _ _
    exact (hcount.trans_le hkept).trans hrecent
  nonneg r hr := by
    obtain ⟨p, rfl⟩ := trim_leaves _ _ h.leaves
    exact hnonneg r (Store.mem_deleteWhere.1 hr).1
  size := trim_returns_size h hnonneg hlimits.2

end Database

/-! ### Runs -/

namespace HistoryEvent
variable {T : Type}

def setsLimits : HistoryEvent T → Option Limits
  | limits new => some new
  | call (.setLimits new) _ => some new
  | _ => none

/-- The call has trimmed. -/
def trims : HistoryEvent T → Bool
  | call (.insert _) (some _) => true
  | call (.setLimits _) (some _) => true
  | _ => false

def inserts : HistoryEvent T → Option (NewEntry T)
  | call (.insert entry) _ => some entry
  | _ => none

/-- The limits that are in force after the events. -/
def limitsAfter (limits : Limits) (history : List (HistoryEvent T)) : Limits :=
  history.foldl (fun limits e => e.setsLimits.getD limits) limits

/-- The entries that the calls were to insert. -/
def inserted (history : List (HistoryEvent T)) : List (NewEntry T) := history.filterMap inserts

theorem inserted_snoc (history : List (HistoryEvent T)) (e : HistoryEvent T) :
    inserted (history ++ [e]) = inserted history ++ e.inserts.toList := by
  rw [inserted, List.filterMap_append]
  cases he : e.inserts with
  | none => rw [List.filterMap_cons_none he]; rfl
  | some entry => rw [List.filterMap_cons_some he]; rfl

def sizes (entries : List (NewEntry T)) : Nat := (entries.map (·.size.toNat)).sum

def InRange (e : HistoryEvent T) : Prop := ∀ entry ∈ e.inserts, entry.size.toNat < 2 ^ 63

instance (e : HistoryEvent T) : Decidable e.InRange :=
  inferInstanceAs (Decidable (∀ entry ∈ e.inserts, entry.size.toNat < 2 ^ 63))

variable {chrono : Chrono T} {plan : RecencyPlan} {c c' : Connection} {e : HistoryEvent T}
  {history : List (HistoryEvent T)} {n m : Nat}

theorem Step.limits_eq (h : Step chrono plan c e c') : c'.self.limits = e.setsLimits.getD c.self.limits := by
  cases h with
  | limits => rfl
  | @call _ op out hcall =>
    rw [Database.limits, hcall.stops.2]
    cases op <;> rfl

theorem limits_of_run (h : Run (Step chrono plan) c history c') :
    c'.self.limits = limitsAfter c.self.limits history := by
  induction h with
  | nil => rfl
  | cons hstep _ ih => rw [ih, hstep.limits_eq]; rfl

/-- Whatever happens, at most one entry is added. -/
theorem Step.bounded (h : Step chrono plan c e c') (hc : c.store.Bounded n m) (hrange : e.InRange) :
    c'.store.Bounded (n + e.inserts.toList.length) (m + sizes e.inserts.toList) := by
  cases h with
  | limits => exact hc
  | @call _ op out hcall =>
    by_cases hop : ∃ entry, op = .insert entry
    · obtain ⟨entry, rfl⟩ := hop
      exact Database.insert_leaves_bounded hc (hrange entry rfl) (Op.stops_insert hcall.stops)
    · have hinserts : (HistoryEvent.call op out).inserts = none := by
        cases op with
        | insert entry => exact absurd ⟨entry, rfl⟩ hop
        | _ => rfl
      rw [hinserts]
      exact hcall.stops.preserves (fun _ entry _ _ heq => absurd ⟨entry, heq⟩ hop) (fun _ p hs => hs.deleteWhere p)
        (fun _ _ _ hs => hs.touch) hc

/-- A call that has trimmed leaves the history within the limits. -/
theorem Step.trimmed (h : Step chrono plan c e c') (htrims : e.trims = true) (hc : c.store.Bounded n m)
    (hrange : e.InRange) (hlimits : c'.self.limits.InRange) :
    c'.store.Bounded c'.self.maxEntries.toNat c'.self.maxHistorySize.toNat := by
  cases h with
  | limits => cases htrims
  | @call _ op out hcall =>
    cases out with
    | none => cases op <;> cases htrims
    | some out =>
      obtain ⟨hreturns, hself⟩ := hcall
      rw [hself] at hlimits ⊢
      cases op with
      | insert entry =>
        obtain ⟨id, hinsert⟩ := Op.completes_insert ⟨hreturns, hself⟩
        obtain ⟨w, hw, htrim⟩ := Database.insert_returns hinsert
        exact Database.trim_returns_within htrim hlimits (hw.bounded hc (hrange entry rfl)).nonneg
      | setLimits limits =>
        obtain ⟨u, htrim, -⟩ := Script.returns_bind_pure.1 hreturns
        exact Database.trim_returns_within htrim hlimits hc.nonneg
      | touchLastUsed | delete | clear | list => cases htrims

theorem bounded_of_run (hrun : Run (Step chrono plan) c history c') (hc : c.store.Bounded n m)
    (hrange : ∀ e ∈ history, e.InRange) :
    c'.store.Bounded (n + (inserted history).length) (m + sizes (inserted history)) := by
  let I : List (HistoryEvent T) → Connection → Prop := fun history c =>
    c.store.Bounded (n + (inserted history).length) (m + sizes (inserted history))
  have hsteps : ∀ as s a t, I as s → a.InRange → Step chrono plan s a t → I (as ++ [a]) t := by
    intro as s a t hs ha hstep
    have hnext := hstep.bounded hs ha
    dsimp only [I]
    rw [inserted_snoc, List.length_append, sizes, List.map_append, List.sum_append]
    exact hnext.mono (by omega) (by rw [sizes, sizes]; omega)
  have hstart : I [] c := hc
  exact hrun.history_of hsteps hstart hrange

end HistoryEvent

open HistoryEvent in
/-- After any call that has trimmed, over any number of lives of the daemon, the history is within the limits that were
in force then, but for one entry for each insertion since. So if that was the last call to trim, it is longer by what
the insertions have left that failed. -/
theorem Lifetime.history_bounded {T : Type} (chrono : Chrono T) (plan : RecencyPlan) (db : OpenDb)
    (hnonneg : ∀ r ∈ db.conn.store.entries, 0 ≤ r.size) {events : List (LifetimeEvent T)} {l : Lifetime}
    (hrun : Run (Step chrono plan) (.opened db) events l) {before since : List (HistoryEvent T)} {e : HistoryEvent T}
    (hevents : events.filterMap LifetimeEvent.seen = before ++ e :: since) (htrims : e.trims = true)
    (hrange : ∀ a ∈ before ++ e :: since, a.InRange)
    (hlimits : (limitsAfter db.conn.self.limits (before ++ [e])).InRange) :
    ∃ s, l.store = some s ∧
      s.entries.length ≤
        (limitsAfter db.conn.self.limits (before ++ [e])).maxEntries.toNat + (inserted since).length ∧
      sizeSum s.entries ≤
        (limitsAfter db.conn.self.limits (before ++ [e])).maxHistorySize.toNat + sizes (inserted since) := by
  obtain ⟨c, hhistory, hshows⟩ := (Shows.opened db).of_run hrun
  rw [hevents] at hhistory
  obtain ⟨u, t, hbefore, hstep, hsince⟩ := hhistory.step_at
  have hselves : t.self.limits = limitsAfter db.conn.self.limits (before ++ [e]) :=
    limits_of_run (hbefore.snoc hstep)
  have hu := bounded_of_run hbefore (.of_nonneg hnonneg) fun a ha => hrange a (by simp [ha])
  have ht := hstep.trimmed htrims hu (hrange e (by simp)) (hselves ▸ hlimits)
  have hc := bounded_of_run hsince ht fun a ha => hrange a (by simp [ha])
  have hcount : t.self.maxEntries = (limitsAfter db.conn.self.limits (before ++ [e])).maxEntries :=
    congrArg Limits.maxEntries hselves
  have hsize : t.self.maxHistorySize = (limitsAfter db.conn.self.limits (before ++ [e])).maxHistorySize :=
    congrArg Limits.maxHistorySize hselves
  rw [hcount, hsize] at hc
  exact ⟨_, hshows.store_eq, hc.count, by exact_mod_cast hc.size⟩

theorem Lifetime.history_bounded_hi :
    ∃ s, (opened hiHistory).store = some s ∧ s.entries.length ≤ 500 + 0 ∧ sizeSum s.entries ≤ 268435456 + 0 := by
  have hevents : [hiInserted, .exited, .started .default].filterMap LifetimeEvent.seen =
      [] ++ .call (.insert (textEntry hiHash "hi" 0)) (some (.inserted 1)) :: [.limits .default] := rfl
  have hrange : ∀ e ∈ [] ++ .call (.insert (textEntry hiHash "hi" 0)) (some (.inserted 1)) :: [.limits .default],
      HistoryEvent.InRange e := by decide
  exact history_bounded .tenSeconds .index emptyHistory (by decide) (hiInserted_run.append hi_restarted) hevents rfl
    hrange (by decide)

end Mimeclip
