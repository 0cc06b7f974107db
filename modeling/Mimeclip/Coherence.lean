import Mathlib.Algebra.BigOperators.Ring.Finset
import Mimeclip.RoundTrip
import Mimeclip.Trim

/-!
# Entries describe their payload rows

An insert of a known hash rewrites the columns of the entry and leaves its payload rows, so it relies on the
hash to stand for the payloads. In runs in which it does (`Watch.Recognizes`), every entry has the size, the kind and
the label of its own payload rows, and the limit on the size holds for the rows themselves after every store
(`coherent_of_run`).
-/

namespace Mimeclip

def payloadsSize (payloads : Payloads) : Nat := (payloads.map (·.2.length)).sum

/-- The size of all payload rows. -/
def Store.payloadsSize (s : Store) : Nat := (s.payloads.map (·.data.length)).sum

/-- What `process_ready` computes for the columns of an entry. -/
structure Describes (blobSize : Bytes → Option (Nat × Nat)) (columns : EntryColumns) (payloads : Payloads) : Prop where
  size : columns.size = payloadsSize payloads
  kind : columns.kind = (classifyKind (payloads.map (·.1))).label
  label : buildLabel blobSize (classifyKind (payloads.map (·.1))) payloads = some columns.label

def Store.Coherent (blobSize : Bytes → Option (Nat × Nat)) (s : Store) : Prop :=
  ∀ r ∈ s.entries, Describes blobSize r.toEntryColumns (s.rawPayloads r.id)

/-! ### The rows of a payload table, entry by entry -/

theorem sum_map_filter_keys {α κ : Type} [DecidableEq κ] (key : α → κ) (f : α → Nat) {keys : List κ}
    (hnodup : keys.Nodup) {rows : List α} (hrows : ∀ x ∈ rows, key x ∈ keys) :
    (keys.map fun k => ((rows.filter fun x => key x == k).map f).sum).sum = (rows.map f).sum := by
  induction rows with
  | nil => simp
  | cons x rows ih =>
    obtain ⟨hx, hrows⟩ := List.forall_mem_cons.1 hrows
    have hcons : ∀ k, (((x :: rows).filter fun x => key x == k).map f).sum =
        (if k = key x then f x else 0) + ((rows.filter fun x => key x == k).map f).sum := by
      intro k
      by_cases hk : key x = k
      · simp [hk]
      · simp [hk, Ne.symm hk]
    have hone : (keys.map fun k => if k = key x then f x else 0).sum = f x := by
      rw [List.sum_map_eq_nsmul_single (key x) _ fun k hk _ => if_neg hk, List.count_eq_one_of_mem hnodup hx]
      simp
    simp only [hcons, List.sum_map_add, ih hrows, hone, List.map_cons, List.sum_cons]

theorem Store.Coherent.payloadsSize_eq {blobSize : Bytes → Option (Nat × Nat)} {s : Store} (h : s.Coherent blobSize)
    (href : s.Referenced) : (s.payloadsSize : Int) = sizeSum s.entries := by
  have hrows : ∀ id, Mimeclip.payloadsSize (s.rawPayloads id) =
      ((s.payloads.filter fun q => q.entryId == id).map (·.data.length)).sum := by
    intro id
    rw [Mimeclip.payloadsSize, Store.rawPayloads, Store.payloadsOf_eq, List.map_map]
    rfl
  have hsizes : s.entries.map (·.size) = s.entries.map fun r => (Mimeclip.payloadsSize (s.rawPayloads r.id) : Int) :=
    List.map_congr_left fun r hr => (h r hr).size
  have hsum := sum_map_filter_keys (fun q : PayloadRow => q.entryId) (fun q => q.data.length) s.nodup_ids href
  rw [Store.payloadsSize, ← hsum, sizeSum, hsizes, List.map_map, Nat.cast_list_sum, List.map_map]
  simp only [hrows, Function.comp_def]

/-! ### What an insert writes -/

variable {T : Type}

/-- The entry describes its own payloads. -/
structure Measured (blobSize : Bytes → Option (Nat × Nat)) (entry : NewEntry T) : Prop where
  size : asI64 entry.size = payloadsSize entry.payloads
  kind : entry.kind = classifyKind (entry.payloads.map (·.1))
  label : buildLabel blobSize entry.kind entry.payloads = some entry.label

theorem judgeCapture_measured {env : Env T} {payloads : Payloads} {instant : Nat} {now : T}
    {suppress suppress' : SuppressState} {entry : NewEntry T}
    (h : judgeCapture env payloads instant now suppress = (.store entry, suppress'))
    (hsize : payloadsSize entry.payloads ≤ maxPayloadBytes) : Measured env.blobSize entry := by
  unfold judgeCapture at h
  split_ifs at h with hempty
  · cases h
  dsimp only at h
  split at h
  · cases h
  split at h
  · cases h
  · rename_i label hlabel
    cases h
    refine ⟨?_, rfl, hlabel⟩
    have hlt : payloadsSize (normalizePayloads payloads) < 2 ^ 63 := hsize.trans_lt (by decide)
    have hnat : (UInt64.ofNat (payloadsSize (normalizePayloads payloads))).toNat =
        payloadsSize (normalizePayloads payloads) := UInt64.toNat_ofNat_of_lt' (hlt.trans (by decide))
    refine (asI64_eq ?_).trans (congrArg Nat.cast hnat)
    exact hnat.trans_lt hlt

namespace Database
variable {chrono : Chrono T} {plan : RecencyPlan} {self : Database} {entry : NewEntry T} {s t : Store} {id : Int}

/-- The row that was written has the columns of the entry. -/
theorem Written.columns (h : Written chrono self entry s id t) {r : EntryRow} (hr : r ∈ t.entries)
    (hhash : r.hash = entry.hash) :
    r.kind = entry.kind.label ∧ r.label = entry.label ∧ r.size = asI64 entry.size := by
  cases h with
  | refreshed hid =>
    obtain ⟨r₀, hr₀, hhash₀, rfl⟩ := known_eq_some.1 hid
    obtain ⟨r', hr', rfl⟩ := List.mem_map.1 hr
    split_ifs at hhash ⊢ with hid
    · exact ⟨rfl, rfl, rfl⟩
    · exact absurd (congrArg (·.id) (Store.eq_of_hash hr' hr₀ (hhash.trans hhash₀.symm))) hid
  | added s₁ hid hs₁ =>
    obtain ⟨rfl, hh, rfl⟩ := Store.insertEntry_ok hs₁
    rw [Store.entries_addPayloads] at hr
    rcases List.mem_append.1 hr with hr | hr
    · exact absurd hhash (hash_ne_of_known_none hid hr)
    · obtain rfl := List.mem_singleton.1 hr
      exact ⟨rfl, rfl, rfl⟩

end Database

/-- The payload rows of a known hash are those of the entry. -/
def NewEntry.Recognizes (entry : NewEntry T) (s : Store) : Prop :=
  ∀ r ∈ s.entries, r.hash = entry.hash → s.rawPayloads r.id = entry.payloads

section
variable {blobSize : Bytes → Option (Nat × Nat)} {s : Store}

theorem Store.Coherent.fresh : Store.fresh.Coherent blobSize := by simp [Store.Coherent, Store.fresh]

theorem Store.Coherent.touch {chrono : Chrono T} {now : T} {id : Int} (h : s.Coherent blobSize) :
    (s.updateEntry id _ (Database.touchColumns_hash chrono now)).Coherent blobSize := by
  intro r' hr'
  obtain ⟨r, hr, rfl⟩ := List.mem_map.1 hr'
  obtain ⟨hsize, hkind, hlabel⟩ := h r hr
  split_ifs
  exacts [⟨hsize, hkind, hlabel⟩, ⟨hsize, hkind, hlabel⟩]

theorem Store.Coherent.deleteWhere (h : s.Coherent blobSize) (p : EntryRow → Bool) :
    (s.deleteWhere p).Coherent blobSize := by
  intro r hr
  rw [Store.rawPayloads, Store.payloadsOf_deleteWhere_of_mem hr]
  exact h r (Store.mem_deleteWhere.1 hr).1

end

theorem Database.Written.coherent {blobSize : Bytes → Option (Nat × Nat)} {chrono : Chrono T} {self : Database}
    {entry : NewEntry T} {s w : Store} {id : Int} (hw : Written chrono self entry s id w) (h : s.Coherent blobSize)
    (href : s.Referenced) (hentry : Measured blobSize entry) (hrec : entry.Recognizes s) : w.Coherent blobSize := by
  intro r hr
  have hnew (hhash : r.hash = entry.hash) (hraw : w.rawPayloads r.id = entry.payloads) :
      Describes blobSize r.toEntryColumns (w.rawPayloads r.id) := by
    obtain ⟨hkind, hlabel, hsize⟩ := hw.columns hr hhash
    rw [hraw]
    refine ⟨hsize.trans hentry.size, ?_, ?_⟩
    · rw [hkind, hentry.kind]
    · rw [hlabel, ← hentry.kind, hentry.label]
  cases hw.whole hr with
  | other hne hs hp =>
    rw [Store.rawPayloads, hp]
    exact h r hs
  | refreshed heq hs hp =>
    obtain ⟨r', hr', hhash', hid⟩ := Database.known_eq_some.1 hs
    refine hnew heq ?_
    rw [Store.rawPayloads, hp, ← hid, ← Store.rawPayloads, hrec r' hr' hhash']
  | added heq hs hid hp =>
    refine hnew heq ?_
    rw [hp, href.rawPayloads_eq_nil (hid ▸ s.nextEntryId_notMem_ids), List.nil_append]

/-! ### The daemon -/

namespace Watch
variable {env : Env T}

/-- What is about to be inserted has the payload rows of the entry with its hash. -/
def Recognizes (s : Watch T) (label : WatchLabel T) : Prop :=
  ∀ succeeded, label = .session (.insert succeeded) → ∀ entry, s.session.storing = some entry →
    entry.Recognizes s.session.conn.store

def CoherentStep (env : Env T) (s : Watch T) (label : WatchLabel T) (t : Watch T) : Prop :=
  SuccessfulStep env s label t ∧ s.Recognizes label

structure Describing (env : Env T) (labels : List (WatchLabel T)) (s : Watch T) : Prop where
  restorable : Restorable env labels s
  coherent : s.session.conn.store.Coherent env.blobSize
  storing : ∀ entry, s.session.storing = some entry → Measured env.blobSize entry

theorem processReady_measured {pending : PendingOffer} {transfer : Transfer} {instant : Nat} {now : T}
    {suppress suppress' : SuppressState} {entry : NewEntry T}
    (h : processReady env pending transfer instant now suppress = some (.store entry, suppress'))
    (hsize : payloadsSize entry.payloads ≤ maxPayloadBytes) : Measured env.blobSize entry := by
  unfold processReady at h
  split_ifs at h
  · cases h
  · split at h
    · cases h
    · cases h
    · exact judgeCapture_measured (Option.some.inj h) hsize

/-- After an insert the entries describe their payload rows, and the limit on the size holds for these. -/
theorem Describing.insert_returns {labels : List (WatchLabel T)} {s : Watch T} (h : Describing env labels s)
    {entry : NewEntry T} (hentry : s.session.storing = some entry) (hrec : entry.Recognizes s.session.conn.store)
    {id : Int} {t : Store}
    (hins : (s.session.conn.self.insert env.chrono env.plan entry).Returns s.session.conn.store id t) :
    t.Coherent env.blobSize ∧
      (s.session.conn.self.maxHistorySize.toNat < 2 ^ 63 →
        sizeSum t.entries ≤ s.session.conn.self.maxHistorySize.toNat) := by
  obtain ⟨w, hw, htrim⟩ := Database.insert_returns hins
  have hcoherent := hw.coherent h.coherent h.restorable.store.referenced (h.storing entry hentry) hrec
  refine ⟨?_, Database.trim_returns_size htrim fun r hr => ?_⟩
  · obtain ⟨p, rfl⟩ := Database.trim_leaves _ _ htrim.leaves
    exact hcoherent.deleteWhere p
  · rw [(hcoherent r hr).size]
    exact Int.natCast_nonneg _

theorem Describing.step {labels : List (WatchLabel T)} {s t : Watch T} {label : WatchLabel T}
    (h : Describing env labels s) (hstep : CoherentStep env s label t) : Describing env (labels ++ [label]) t := by
  obtain ⟨hstep, hrec⟩ := hstep
  have hrestorable := h.restorable.step hstep
  refine ⟨hrestorable, ?_, ?_⟩
  · rcases hstep.conn_cases with
      hconn | ⟨now, id, reply, -, hget⟩ | ⟨entry, id, rfl, hentry, -, hins⟩ | ⟨op, hop, hcall⟩
    · rw [hconn]
      exact h.coherent
    · obtain ⟨-, -, hstore⟩ := restoreLookup_returns env hget
      rw [hstore]
      exact h.coherent.touch
    · exact (h.insert_returns hentry (hrec _ rfl _ hentry) hins).1
    · exact hcall.preserves (fun _ entry _ _ heq => absurd heq (hop entry)) (fun _ p hs => hs.deleteWhere p)
        (fun _ _ _ hs => hs.touch) h.coherent
  · intro entry he
    have hcap := (hrestorable.storing entry he).1
    rcases hstep.1.storing_cases he with he | ⟨pending, transfer, instant, now, suppress, -, -, hprocess⟩
    · exact h.storing entry he
    · exact processReady_measured hprocess hcap.size

theorem Describing.of_run {limits : Limits} {labels : List (WatchLabel T)} {s : Watch T}
    (hrun : Run (CoherentStep env) (start ⟨.ofLimits limits, .fresh⟩) labels s) : Describing env labels s :=
  show Describing env ([] ++ labels) s from
    hrun.history (fun _ _ _ _ h hs => h.step hs) ⟨⟨.start _, .fresh, nofun⟩, .fresh, nofun⟩

/-- In a run in which every insert of a known hash is one of the payloads the entry has, every entry describes its
payload rows in the state reached, and after a store the payload rows are within the limit on the size. -/
theorem coherent_of_run (env : Env T) (limits : Limits) {labels : List (WatchLabel T)} {s : Watch T}
    (hrun : Run (CoherentStep env) (start ⟨.ofLimits limits, .fresh⟩) labels s) :
    s.session.conn.store.Coherent env.blobSize ∧
      ∀ before, labels = before ++ [.session (.insert true)] →
        s.session.conn.self.maxHistorySize.toNat < 2 ^ 63 →
          s.session.conn.store.payloadsSize ≤ s.session.conn.self.maxHistorySize.toNat := by
  have hs := Describing.of_run hrun
  refine ⟨hs.coherent, ?_⟩
  rintro before rfl hlimit
  obtain ⟨u, s', hbefore, ⟨⟨hstep, -⟩, hrec⟩, hnil⟩ := hrun.step_at
  cases hnil
  have hsize := hs.coherent.payloadsSize_eq hs.restorable.store.referenced
  cases hstep with
  | @session e session he hsession =>
    cases hsession with
    | insert hentry hins hdone =>
      obtain ⟨id, hins⟩ := hdone rfl
      have hle := ((Describing.of_run hbefore).insert_returns hentry (hrec _ rfl _ hentry) hins).2 hlimit
      exact Int.ofNat_le.1 (hsize.trans_le hle)

/-- What a batch of events selects is stored, and meets itself if its hash is known. -/
theorem recognized_run {s : Watch T} {b : List WatchEvent} {pending : PendingOffer} {transfer : Transfer}
    {instant : Nat} {now : T} {entry : NewEntry T} {suppress : SuppressState} {id : Int} {t : Store}
    (hready : s.offers.ready = none) (hstoring : s.session.storing = none) (halive : s.session.alive = true)
    (hclock : s.session.clock ≤ instant) (hdispatch : (s.offers.dispatch b).ready = some pending)
    (hprocess : processReady env pending transfer instant now s.session.suppress = some (.store entry, suppress))
    (hrec : entry.Recognizes s.session.conn.store)
    (hins : (s.session.conn.self.insert env.chrono env.plan entry).Returns s.session.conn.store id t) :
    Run (CoherentStep env) s
      [.dispatch b, .process pending (transfer.requested pending) (.store entry), .session (.insert true)]
      { session := { s.session with conn := ⟨s.session.conn.self, t⟩, suppress, clock := instant, storing := none
                                    alive := true }
        offers := { s.offers.dispatch b with ready := none } } := by
  refine .cons ⟨⟨.dispatch hready hstoring halive, trivial⟩, fun _ h => nomatch h⟩ ?_
  refine .cons ⟨⟨.process hdispatch hprocess hclock hstoring halive, trivial⟩, fun _ h => nomatch h⟩ ?_
  refine .single ⟨⟨.session nofun (.insert_of id t rfl hins rfl), rfl⟩, ?_⟩
  rintro _ _ _ ⟨⟩
  exact hrec

def copyPairAgain : List (WatchLabel (Fin 10)) :=
  [.dispatch pairEvents, .process pairOffer ["text/html", "text/plain"] (.store (pairEntry 1)),
    .session (.insert true)]

def pairAgain : EntryColumns := Database.refreshColumns .tenSeconds (pairEntry 1) pairColumns

theorem coherent_of_run_copyPairAgain :
    (pairStored pairAgain).Coherent framedEnv.blobSize ∧
      ∀ before, copyPair ++ copyPairAgain = before ++ [.session (.insert true)] →
        (Database.ofLimits .default).maxHistorySize.toNat < 2 ^ 63 →
        (pairStored pairAgain).payloadsSize ≤ (Database.ofLimits .default).maxHistorySize.toNat := by
  have hagain : ((Database.ofLimits .default).insert .tenSeconds .index (pairEntry 1)).Returns (pairStored pairColumns)
      1 (pairStored pairAgain) := Script.returns_of_run (by rfl) (by rfl)
  have hrec : (pairEntry 1).Recognizes (pairStored pairColumns) := by
    intro r hr _
    rw [List.mem_singleton.1 hr]
    rfl
  have hfirst : Run (CoherentStep framedEnv) (start ⟨.ofLimits .default, .fresh⟩) copyPair pairCopied :=
    recognized_run (s := start ⟨.ofLimits .default, .fresh⟩) rfl rfl rfl (Nat.zero_le 0) rfl (pair_processed 0 0)
      (fun _ hr => nomatch hr) pair_inserted
  have hsecond := recognized_run (s := pairCopied) (b := pairEvents) rfl rfl rfl (Nat.zero_le 1) rfl
    (pair_processed 1 1) hrec hagain
  exact coherent_of_run framedEnv .default (hfirst.append hsecond)

/-! ### Two captures with one hash -/

def markupEvents : List WatchEvent := [.dataOffer 2, .offer 2 "text/html", .selection (some 2)]

def markupTransfer : Transfer where
  piped _ := true
  flushed := true
  polls := [.ready [.chunk ⟨[120, 0] ++ asBytes "text/plain" ++ [0, 121], by decide, by decide⟩], .ready [.eof]]

def markupEntry : NewEntry (Fin 10) where
  hash := pairHash
  kind := .text
  label := "x\x00text/plain\x00y"
  preview := "x\x00text/plain\x00y"
  size := 14
  createdAt := 1
  payloads := [("text/html", [120, 0] ++ asBytes "text/plain" ++ [0, 121])]

def markupColumns : EntryColumns := Database.refreshColumns .tenSeconds markupEntry pairColumns

/-- Then the HTML that contains what separates the two in the hashed bytes is copied: the entry shows it and
holds the payload rows of the pair. -/
theorem second_capture_shown :
    Function.Injective framedEnv.sha256 ∧
      ∃ labels s, Run (SuccessfulStep framedEnv) (start ⟨.ofLimits .default, .fresh⟩) labels s ∧
        ¬ s.session.conn.store.Coherent framedEnv.blobSize := by
  have hread : processReady framedEnv ⟨2, ["text/html"]⟩ markupTransfer 1 1 .default =
      some (.store markupEntry, .default) := rfl
  have hmarkup : ((Database.ofLimits .default).insert .tenSeconds .index markupEntry).Returns (pairStored pairColumns) 1
      (pairStored markupColumns) := Script.returns_of_run (by rfl) (by rfl)
  have hrun := copyPair_run.append
    (copy_run (s := pairCopied) (b := markupEvents) rfl rfl rfl (Nat.zero_le 1) rfl hread hmarkup)
  refine ⟨sampleSha256_injective, _, _, hrun, fun h => ?_⟩
  have hdescribes := h ⟨markupColumns, 1⟩ (List.mem_singleton_self _)
  exact absurd hdescribes.size (by decide)

end Watch

end Mimeclip
