import Mimeclip.DbRun
import Mimeclip.PayloadHash
import Mimeclip.Suppress

/-!
# Storing a capture and restoring an entry

The second half of `process_ready` (`daemon/watcher.rs`), from the payloads it has read on, and the part
of a `Restore` request that runs before the restoring thread is spawned (`daemon/server.rs`). `process_ready`
asks the suppression state first and takes the database lock afterwards, `Restore` the other way round, so
other threads can come in between.
-/

namespace Mimeclip

/-- The functions that are not part of the repository. -/
structure Env (T : Type) where
  chrono : Chrono T
  plan : RecencyPlan
  -- `hex::encode(Sha256::digest(..))`
  sha256 : Bytes → String
  -- `imagesize::blob_size`
  blobSize : Bytes → Option (Nat × Nat)

/-- SHA-256 as far as the texts `hi` and `yo` go. -/
def Env.sample : Env (Fin 10) where
  chrono := .tenSeconds
  plan := .index
  sha256 bytes :=
    if bytes = asBytes "text/plain" ++ [0, 121, 111, 0] then
      "6b81cf10b771fac507aed0f9197754771d4753e41886070ac7653916cfc81639"
    else sampleSha256 bytes
  blobSize _ := none

inductive Verdict (T : Type)
  -- flushing the requests or reading the payloads failed
  | unread
  | empty
  | suppressed
  | panicked
  | store (entry : NewEntry T)

namespace Verdict
variable {T : Type}

def isSuppressed : Verdict T → Bool
  | suppressed => true
  | _ => false

def isPanic : Verdict T → Bool
  | panicked => true
  | _ => false

def entry : Verdict T → Option (NewEntry T)
  | store entry => some entry
  | _ => none

end Verdict

variable {T : Type} (env : Env T)

/-- `process_ready` after `read_payload_pipes`, up to the insertion. -/
def judgeCapture (payloads : Payloads) (instant : Nat) (now : T) (suppress : SuppressState) :
    Verdict T × SuppressState :=
  if payloads.isEmpty then (.empty, suppress)
  else
    let payloads := normalizePayloads payloads
    let totalSize := (payloads.map (·.2.length)).sum
    let mimeTypes := payloads.map (·.1)
    let hash := payloadHash env.sha256 payloads
    match suppress.shouldSuppressAt hash instant with
    | (true, suppress) => (.suppressed, suppress)
    | (false, suppress) =>
      let kind := classifyKind mimeTypes
      match buildLabel env.blobSize kind payloads with
      | none => (.panicked, suppress)
      | some label =>
        (.store { hash, kind, label, preview := label, size := UInt64.ofNat totalSize,
                  createdAt := now, payloads }, suppress)

/-- A capture that is not empty asks the suppression state once, about its hash. -/
theorem judgeCapture_suppress {payloads : Payloads} (hne : payloads ≠ []) (instant : Nat) (now : T)
    (suppress : SuppressState) :
    (judgeCapture env payloads instant now suppress).1.isSuppressed =
        (suppress.shouldSuppressAt (payloadHash env.sha256 (normalizePayloads payloads)) instant).1 ∧
      (judgeCapture env payloads instant now suppress).2 =
        (suppress.shouldSuppressAt (payloadHash env.sha256 (normalizePayloads payloads)) instant).2 := by
  rw [judgeCapture, if_neg (by simpa using hne)]
  dsimp only
  rcases suppress.shouldSuppressAt (payloadHash env.sha256 (normalizePayloads payloads)) instant with ⟨_ | _, s'⟩
  · dsimp only
    split <;> exact ⟨rfl, rfl⟩
  · exact ⟨rfl, rfl⟩

theorem judgeCapture_store {payloads : Payloads} {instant : Nat} {now : T} {suppress suppress' : SuppressState}
    {entry : NewEntry T}
    (h : judgeCapture env payloads instant now suppress = (.store entry, suppress')) :
    payloads ≠ [] ∧ entry.payloads = normalizePayloads payloads ∧
      entry.hash = payloadHash env.sha256 (normalizePayloads payloads) := by
  unfold judgeCapture at h
  split_ifs at h with hempty
  · cases h
  dsimp only at h
  split at h
  · cases h
  split at h
  · cases h
  cases h
  exact ⟨by simpa using hempty, rfl, rfl⟩

/-- The database block of a `Restore` request: the hash to arm and the payloads to offer. -/
def restoreLookup (now : T) (id : Int) : Database.Sql (Option (String × Payloads)) := do
  match ← Database.getHash id with
  | none => pure none
  | some hash =>
    let payloads ← Database.getRawPayloads id
    Database.touchLastUsed env.chrono now id
    pure (some (hash, payloads))

theorem restoreLookup_returns {now : T} {id : Int} {hash : String} {payloads : Payloads} {s t : Store}
    (h : (restoreLookup env now id).Returns s (some (hash, payloads)) t) :
    (∃ r ∈ s.entries, r.id = id ∧ r.hash = hash) ∧ payloads = s.rawPayloads id ∧
      t = s.updateEntry id _ (Database.touchColumns_hash env.chrono now) := by
  obtain ⟨found, s₁, hfound, hrest⟩ := Script.returns_bind.1 h
  obtain ⟨hf, rfl⟩ := Script.returns_query.1 hfound
  cases found with
  | none => cases (Script.returns_pure.1 hrest).1
  | some hash' =>
    obtain ⟨payloads', s₂, hraw, htouch⟩ := Script.returns_bind.1 hrest
    obtain ⟨hp, rfl⟩ := Script.returns_query.1 hraw
    obtain ⟨u, hupdate, heq⟩ := Script.returns_bind_pure.1 htouch
    cases heq
    cases hp
    cases Script.returns_update.1 hupdate
    obtain ⟨r, hr, rfl⟩ := Option.map_eq_some_iff.1 (Except.ok.inj hf)
    exact ⟨⟨r, List.mem_of_find?_eq_some hr, by simpa using List.find?_some hr, rfl⟩, rfl, rfl⟩

/-! ### A history of two texts -/

def hiHash : String := "29af18af177ea8ddcfc446c48c2318e16a6e7b3fe9f4c7a5a4f142f38ed3c00d"

def yoHash : String := "6b81cf10b771fac507aed0f9197754771d4753e41886070ac7653916cfc81639"

def textColumns (hash text : String) (createdAt lastUsedAt : Fin 10) : EntryColumns where
  hash
  kind := "text"
  label := text
  preview := text
  size := 2
  createdAt := Chrono.tenSeconds.toRfc3339 createdAt
  lastUsedAt := Chrono.tenSeconds.toRfc3339 lastUsedAt
  timestamp := none

def textEntry (hash text : String) (second : Fin 10) : NewEntry (Fin 10) where
  hash
  kind := .text
  label := text
  preview := text
  size := 2
  createdAt := second
  payloads := [("text/plain", asBytes text)]

def hiCopied : Store where
  entries := [⟨textColumns hiHash "hi" 0 0, 1⟩]
  payloads := [⟨1, 1, "text/plain", asBytes "hi"⟩]
  entrySeq := 1
  payloadSeq := 1
  cascade := true
  entries_sorted := by simp
  hashes_unique := by simp
  payloads_sorted := by simp

def bothCopied (hi yo : Fin 10) : Store where
  entries := [⟨textColumns hiHash "hi" 0 hi, 1⟩, ⟨textColumns yoHash "yo" 1 yo, 2⟩]
  payloads := [⟨1, 1, "text/plain", asBytes "hi"⟩, ⟨2, 2, "text/plain", asBytes "yo"⟩]
  entrySeq := 2
  payloadSeq := 2
  cascade := true
  entries_sorted := by simp
  hashes_unique := by simp [textColumns, hiHash, yoHash]
  payloads_sorted := by simp

end Mimeclip
