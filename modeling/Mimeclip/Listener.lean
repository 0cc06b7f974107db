import Mathlib.Logic.Function.Basic
import Mimeclip.Lib.Run

/-!
# Owning the IPC endpoint (`bind_listener` of `daemon/server.rs`)

Any number of daemons run `bind_listener` on one path. `UnixListener::bind` is the two system calls
`bind` and `listen`; a path that is in use is inspected, connected to, unlinked if the connection is
refused, and bound once more. The system calls of different processes interleave, and a process may exit
at any point.

The check for a live peer and the unlinking are two system calls, so the path may have changed hands in
between; and a socket that is bound but does not listen yet refuses connections like a stale one. Runs
without these two races have at most one owner (`one_owner`).
-/

namespace Mimeclip

/-- What is at the path: a socket, identified by when it was bound, or a file of another type. -/
inductive Node
  | socket (id : Nat)
  | other
deriving DecidableEq, Repr

/-- Where a process is in `bind_listener`: the system call it makes next. `unlink` carries what `connect`
met at the path, which the code does not look at. -/
inductive Phase
  | bind
  | listen (id : Nat)
  | lstat
  | connect
  | unlink (met : Option Node)
  | rebind
  -- it returned `Ok`, and serves the socket
  | listening (id : Nat)
  | failed
  | exited
deriving DecidableEq, Repr

def Phase.isRunning : Phase → Bool
  | listening _ | failed | exited => false
  | _ => true

def Phase.socket : Phase → Option Nat
  | listen id | listening id => some id
  | _ => none

structure Endpoint where
  path : Option Node
  bound : Nat
  phase : Nat → Phase

inductive EndpointEvent
  | bind (p : Nat)
  | listen (p : Nat)
  | lstat (p : Nat)
  | connect (p : Nat)
  | unlink (p : Nat)
  | error (p : Nat)
  | exit (p : Nat)
deriving DecidableEq, Repr

namespace Endpoint

def goto (s : Endpoint) (p : Nat) (phase : Phase) : Endpoint :=
  { s with phase := Function.update s.phase p phase }

@[simp] theorem path_goto (s : Endpoint) (p : Nat) (phase : Phase) : (s.goto p phase).path = s.path := rfl

@[simp] theorem bound_goto (s : Endpoint) (p : Nat) (phase : Phase) : (s.goto p phase).bound = s.bound := rfl

theorem phase_goto (s : Endpoint) (p q : Nat) (phase : Phase) :
    (s.goto p phase).phase q = if q = p then phase else s.phase q := Function.update_apply ..

inductive Step : Endpoint → EndpointEvent → Endpoint → Prop
  | bind {s : Endpoint} {p : Nat} (hp : s.phase p = .bind ∨ s.phase p = .rebind) (hpath : s.path = none) :
      Step s (.bind p) ({ s with path := some (.socket s.bound), bound := s.bound + 1 }.goto p (.listen s.bound))
  | bindInUse {s : Endpoint} {p : Nat} (hp : s.phase p = .bind) (hpath : s.path ≠ none) :
      Step s (.bind p) (s.goto p .lstat)
  | rebindInUse {s : Endpoint} {p : Nat} (hp : s.phase p = .rebind) (hpath : s.path ≠ none) :
      Step s (.bind p) (s.goto p .failed)
  | listen {s : Endpoint} {p id : Nat} (hp : s.phase p = .listen id) :
      Step s (.listen p) (s.goto p (.listening id))
  | lstatSocket {s : Endpoint} {p id : Nat} (hp : s.phase p = .lstat) (hpath : s.path = some (.socket id)) :
      Step s (.lstat p) (s.goto p .connect)
  | lstatOther {s : Endpoint} {p : Nat} (hp : s.phase p = .lstat) (hpath : ∀ id, s.path ≠ some (.socket id)) :
      Step s (.lstat p) (s.goto p .failed)
  | connectLive {s : Endpoint} {p q id : Nat} (hp : s.phase p = .connect) (hpath : s.path = some (.socket id))
      (hq : s.phase q = .listening id) :
      Step s (.connect p) (s.goto p .failed)
  -- nothing is there, or nobody listens there
  | connectRefused {s : Endpoint} {p : Nat} (hp : s.phase p = .connect)
      (hrefused : ∀ q id, s.path = some (.socket id) → s.phase q ≠ .listening id) :
      Step s (.connect p) (s.goto p (.unlink s.path))
  | unlink {s : Endpoint} {p : Nat} {met : Option Node} (hp : s.phase p = .unlink met) (hpath : s.path ≠ none) :
      Step s (.unlink p) ({ s with path := none }.goto p .rebind)
  | unlinkMissing {s : Endpoint} {p : Nat} {met : Option Node} (hp : s.phase p = .unlink met)
      (hpath : s.path = none) :
      Step s (.unlink p) (s.goto p .failed)
  -- every call can fail for another reason
  | error {s : Endpoint} {p : Nat} (hp : (s.phase p).isRunning = true) : Step s (.error p) (s.goto p .failed)
  | exit {s : Endpoint} {p : Nat} (hp : s.phase p ≠ .exited) : Step s (.exit p) (s.goto p .exited)

inductive Existing
  | absent
  | stale
  | live
  | other

/-- The process `0` may be an earlier daemon. -/
def start : Existing → Endpoint
  | .absent => ⟨none, 0, fun _ => .bind⟩
  | .stale => ⟨some (.socket 0), 1, fun _ => .bind⟩
  | .live => ⟨some (.socket 0), 1, fun p => if p = 0 then .listening 0 else .bind⟩
  | .other => ⟨some .other, 0, fun _ => .bind⟩

/-- The step is none of the two races: the path still holds what the refused `connect` met when it is
unlinked, or at least no socket a process has open; and nobody connects to a socket between its `bind` and
its `listen`. -/
def Unraced (s : Endpoint) : EndpointEvent → Prop
  | .unlink p => ∀ met, s.phase p = .unlink met →
      s.path = met ∨ ∀ q id, s.path = some (.socket id) → (s.phase q).socket ≠ some id
  | .connect _ => ∀ q id, s.path = some (.socket id) → s.phase q ≠ .listen id
  | _ => True

/-- What a step does: it moves one process on, to no socket it does not hold already; or binds the path;
or unlinks it. -/
theorem Step.effect {s t : Endpoint} {e : EndpointEvent} (h : Step s e t) :
    (∃ p phase, t = s.goto p phase ∧ (∀ id, phase.socket = some id → (s.phase p).socket = some id) ∧
      ∀ met, phase = .unlink met → e = .connect p ∧ met = s.path ∧
        ∀ q id, s.path = some (.socket id) → s.phase q ≠ .listening id) ∨
    (∃ p, s.path = none ∧
      t = { s with path := some (.socket s.bound), bound := s.bound + 1 }.goto p (.listen s.bound)) ∨
    ∃ p met, e = .unlink p ∧ s.phase p = .unlink met ∧ t = { s with path := none }.goto p .rebind := by
  cases h with
  | @bind p hp hpath => exact .inr (.inl ⟨p, hpath, rfl⟩)
  | @unlink p met hp hpath => exact .inr (.inr ⟨p, met, rfl, hp, rfl⟩)
  | @listen p id hp => exact .inl ⟨p, _, rfl, fun _ h => by rw [hp]; exact h, nofun⟩
  | @connectRefused p hp hrefused =>
    exact .inl ⟨p, _, rfl, nofun, fun met h => ⟨rfl, by cases h; rfl, hrefused⟩⟩
  | bindInUse | rebindInUse | lstatSocket | lstatOther | connectLive | unlinkMissing | error | exit =>
    exact .inl ⟨_, _, rfl, nofun, nofun⟩

/-- Sockets in use are at the path, and what a process is about to unlink is not in use. -/
structure Inv (s : Endpoint) : Prop where
  at_path : ∀ p id, (s.phase p).socket = some id → s.path = some (.socket id)
  one : ∀ p q id, (s.phase p).socket = some id → (s.phase q).socket = some id → p = q
  path_lt : ∀ id, s.path = some (.socket id) → id < s.bound
  met_lt : ∀ p id, s.phase p = .unlink (some (.socket id)) → id < s.bound
  met_stale : ∀ p q id, s.phase p = .unlink (some (.socket id)) → (s.phase q).socket ≠ some id

theorem Inv.start (existing : Existing) : Inv (start existing) := by
  cases existing with
  | live =>
    have hphase : ∀ p id, ((Endpoint.start .live).phase p).socket = some id → p = 0 ∧ id = 0 := by
      intro p id h
      by_cases hp : p = 0
      · simp [Endpoint.start, hp, Phase.socket] at h; exact ⟨hp, h.symm⟩
      · simp [Endpoint.start, hp, Phase.socket] at h
    have hmet : ∀ p met, (Endpoint.start .live).phase p ≠ .unlink met := by
      intro p met
      by_cases hp : p = 0 <;> simp [Endpoint.start, hp]
    refine ⟨fun p id h => by rw [(hphase p id h).2]; rfl, fun p q id hp hq => ?_, ?_, ?_, ?_⟩
    · rw [(hphase p id hp).1, (hphase q id hq).1]
    · rintro id ⟨⟩; exact Nat.one_pos
    · intro p id h
      exact absurd h (hmet p _)
    · intro p q id h
      exact absurd h (hmet p _)
  | absent | stale | other => constructor <;> simp [Endpoint.start, Phase.socket]

/-- One process moves on and holds no socket it did not hold before. If it is about to unlink, its
connection was refused, and nobody was about to listen. -/
theorem Inv.goto {s : Endpoint} (h : Inv s) {p : Nat} {phase : Phase}
    (hsock : ∀ id, phase.socket = some id → (s.phase p).socket = some id)
    (hmet : ∀ met, phase = .unlink met → met = s.path ∧
      ∀ q id, s.path = some (.socket id) → s.phase q ≠ .listening id ∧ s.phase q ≠ .listen id) :
    Inv (s.goto p phase) := by
  have hold : ∀ q id, ((s.goto p phase).phase q).socket = some id → (s.phase q).socket = some id := by
    intro q id hq
    rw [phase_goto] at hq
    split_ifs at hq with hqp
    · rw [hqp]; exact hsock id hq
    · exact hq
  have hunlink : ∀ q id, (s.goto p phase).phase q = .unlink (some (.socket id)) →
      s.phase q = .unlink (some (.socket id)) ∨ phase = .unlink (some (.socket id)) := by
    intro q id hq
    rw [phase_goto] at hq
    split_ifs at hq
    exacts [.inr hq, .inl hq]
  refine ⟨fun q id hq => h.at_path q id (hold q id hq), ?_, h.path_lt, fun q id hq => ?_, fun q r id hq hr => ?_⟩
  · intro q r id hq hr
    exact h.one q r id (hold q id hq) (hold r id hr)
  · rcases hunlink q id hq with hq | hq
    · exact h.met_lt q id hq
    · exact h.path_lt id (hmet _ hq).1.symm
  · rcases hunlink q id hq with hq | hq
    · exact h.met_stale q r id hq (hold r id hr)
    · obtain ⟨hpath, hrefused⟩ := hmet _ hq
      obtain ⟨hlistening, hlisten⟩ := hrefused r id hpath.symm
      have hr := hold r id hr
      cases hphase : s.phase r <;> rw [hphase] at hr <;> cases hr
      exacts [hlisten hphase, hlistening hphase]

/-- The path is free, so no process holds a socket, and one process binds it. -/
theorem Inv.bind {s : Endpoint} (h : Inv s) {p : Nat} (hpath : s.path = none) :
    Inv ({ s with path := some (.socket s.bound), bound := s.bound + 1 }.goto p (.listen s.bound)) := by
  have hnone : ∀ q id, (s.phase q).socket ≠ some id := by
    intro q id hq
    have := h.at_path q id hq
    rw [hpath] at this
    cases this
  have hnew : ∀ q id, (Phase.socket (if q = p then .listen s.bound else s.phase q)) = some id →
      q = p ∧ id = s.bound := by
    intro q id hq
    split_ifs at hq with hqp
    · cases hq; exact ⟨hqp, rfl⟩
    · exact absurd hq (hnone q id)
  refine ⟨?_, ?_, ?_, ?_, ?_⟩
  · intro q id hq
    rw [phase_goto] at hq
    rw [(hnew q id hq).2]; rfl
  · intro q r id hq hr
    rw [phase_goto] at hq hr
    rw [(hnew q id hq).1, (hnew r id hr).1]
  · rintro id ⟨⟩; exact Nat.lt_succ_self _
  · intro q id hq
    rw [phase_goto] at hq
    split_ifs at hq
    exact Nat.lt_succ_of_lt (h.met_lt q id hq)
  · intro q r id hq hr
    rw [phase_goto] at hq hr
    split_ifs at hq
    have hid := h.met_lt q id hq
    have hid' := (hnew r id hr).2
    omega

/-- Where no process holds the socket at the path, it can be unlinked. -/
theorem Inv.unlink {s : Endpoint} (h : Inv s) {p : Nat} (hnone : ∀ q id, (s.phase q).socket ≠ some id) :
    Inv ({ s with path := none }.goto p .rebind) := by
  have hnone' : ∀ q id, ({ s with path := none }.goto p .rebind |>.phase q).socket ≠ some id := by
    intro q id hq
    rw [phase_goto] at hq
    split_ifs at hq
    · cases hq
    · exact hnone q id hq
  refine ⟨fun q id hq => absurd hq (hnone' q id), fun q r id hq => absurd hq (hnone' q id), nofun,
    fun q id hq => ?_, fun q r id _ => hnone' r id⟩
  rw [phase_goto] at hq
  split_ifs at hq
  exact h.met_lt q id hq

theorem Inv.step {s t : Endpoint} {e : EndpointEvent} (h : Inv s) (hs : Step s e t) (hu : Unraced s e) :
    Inv t := by
  rcases hs.effect with ⟨p, phase, rfl, hsock, hmet⟩ | ⟨p, hpath, rfl⟩ | ⟨p, met, rfl, hp, rfl⟩
  · refine h.goto hsock fun met hphase => ?_
    obtain ⟨rfl, hpath, hrefused⟩ := hmet met hphase
    exact ⟨hpath, fun q id hq => ⟨hrefused q id hq, hu q id hq⟩⟩
  · exact h.bind hpath
  · -- what is unlinked is what `connect` met, and that is stale
    refine h.unlink fun q id hq => ?_
    have hpath := h.at_path q id hq
    rcases hu met hp with hmet | hidle
    · exact h.met_stale p q id (by rw [hp, ← hmet, hpath]) hq
    · exact hidle q id hpath hq

/-- At most one process has returned `Ok` and not exited, its socket is the one at the path, and no process
unlinks it. -/
structure Owned (s : Endpoint) : Prop where
  one : ∀ p q i j, s.phase p = .listening i → s.phase q = .listening j → p = q
  at_path : ∀ p i, s.phase p = .listening i → s.path = some (.socket i)
  kept : ∀ p t, Step s (.unlink p) t → Unraced s (.unlink p) →
    ∀ q i, s.phase q = .listening i → t.path = some (.socket i)

theorem Inv.at_path_of_listening {s : Endpoint} (h : Inv s) {p i : Nat} (hp : s.phase p = .listening i) :
    s.path = some (.socket i) := h.at_path p i (by rw [hp]; rfl)

theorem Inv.owned {s : Endpoint} (h : Inv s) : Owned s where
  one p q i j hp hq := by
    obtain rfl : i = j := by
      have := (h.at_path_of_listening hp).symm.trans (h.at_path_of_listening hq)
      cases this; rfl
    exact h.one p q i (by rw [hp]; rfl) (by rw [hq]; rfl)
  at_path _ _ hp := h.at_path_of_listening hp
  kept p t hstep hu q i hq := by
    refine (h.step hstep hu).at_path_of_listening (p := q) ?_
    have hqp : q ≠ p := by
      rintro rfl
      cases hstep with
      | unlink hp | unlinkMissing hp => rw [hq] at hp; cases hp
    cases hstep with
    | unlink | unlinkMissing => rw [phase_goto, if_neg hqp]; exact hq

theorem one_owner (existing : Existing) {events : List EndpointEvent} {s : Endpoint}
    (hrun : Run (fun s e t => Step s e t ∧ Unraced s e) (start existing) events s) : Owned s :=
  (hrun.preserves (I := Inv) (fun _ _ _ h hs => h.step hs.1 hs.2) (.start existing)).owned

/-! ### Two daemons -/

def two (path : Option Node) (bound : Nat) (first second : Phase) : Endpoint where
  path
  bound
  phase p := if p = 0 then first else if p = 1 then second else .bind

section
variable {path path' : Option Node} {bound bound' : Nat} {first second phase : Phase}

theorem two_goto_zero : (two path bound first second).goto 0 phase = two path bound phase second := by
  simp only [two, goto, mk.injEq, true_and]
  funext q
  rw [Function.update_apply]
  split_ifs <;> rfl

theorem two_goto_one : (two path bound first second).goto 1 phase = two path bound first phase := by
  simp only [two, goto, mk.injEq, true_and]
  funext q
  rw [Function.update_apply]
  split_ifs <;> simp_all

theorem two_ne (hfirst : first ≠ phase) (hsecond : second ≠ phase) (hphase : .bind ≠ phase) (q : Nat) :
    (two path bound first second).phase q ≠ phase := by
  unfold two
  dsimp only
  split_ifs <;> assumption

theorem start_stale : start .stale = two (some (.socket 0)) 1 .bind .bind := by
  simp only [start, two, mk.injEq, true_and]
  funext q
  split_ifs <;> rfl

theorem two_step_zero {e : EndpointEvent} {s : Endpoint}
    (h : Step s e ((two path bound first second).goto 0 phase)) : Step s e (two path bound phase second) := by
  rwa [two_goto_zero] at h

theorem two_step_one {e : EndpointEvent} {s : Endpoint}
    (h : Step s e ((two path bound first second).goto 1 phase)) : Step s e (two path bound first phase) := by
  rwa [two_goto_one] at h

end

/-- The first daemon replaces the stale socket, the second then refuses to start. -/
theorem one_owner_in_turn : Owned (two (some (.socket 1)) 2 (.listening 1) .failed) := by
  suffices hrun : Run (fun s e t => Step s e t ∧ Unraced s e) (start .stale)
      [.bind 0, .lstat 0, .connect 0, .unlink 0, .bind 0, .listen 0, .bind 1, .lstat 1, .connect 1]
      (two (some (.socket 1)) 2 (.listening 1) .failed) from one_owner .stale hrun
  rw [start_stale]
  refine .cons ⟨two_step_zero (.bindInUse rfl (by decide)), trivial⟩ ?_
  refine .cons ⟨two_step_zero (.lstatSocket rfl rfl), trivial⟩ ?_
  refine .cons ⟨two_step_zero (.connectRefused rfl fun q id _ => two_ne (by nofun) (by nofun) (by nofun) q),
    fun q id _ => two_ne (by nofun) (by nofun) (by nofun) q⟩ ?_
  refine .cons ⟨two_step_zero (.unlink rfl (by decide)), fun met h => .inl (by cases h; rfl)⟩ ?_
  refine .cons ⟨two_step_zero (.bind (.inr rfl) rfl), trivial⟩ ?_
  refine .cons ⟨two_step_zero (.listen rfl), trivial⟩ ?_
  refine .cons ⟨two_step_one (.bindInUse rfl (by decide)), trivial⟩ ?_
  refine .cons ⟨two_step_one (.lstatSocket rfl rfl), trivial⟩ ?_
  exact .single ⟨two_step_one (.connectLive (q := 0) rfl rfl rfl),
    fun q id _ => two_ne (by nofun) (by nofun) (by nofun) q⟩

/-- Both daemons find the stale socket, and the second unlinks the socket of the first. -/
theorem two_owners :
    Run Step (start .stale)
      [.bind 0, .bind 1, .lstat 0, .lstat 1, .connect 0, .connect 1, .unlink 0, .bind 0, .listen 0]
      (two (some (.socket 1)) 2 (.listening 1) (.unlink (some (.socket 0)))) ∧
    Run Step (two (some (.socket 1)) 2 (.listening 1) (.unlink (some (.socket 0))))
      [.unlink 1, .bind 1, .listen 1]
      (two (some (.socket 2)) 3 (.listening 1) (.listening 2)) ∧
    ¬ Owned (two (some (.socket 2)) 3 (.listening 1) (.listening 2)) := by
  refine ⟨?_, ?_, fun h => absurd (h.one 0 1 1 2 rfl rfl) (by decide)⟩
  · rw [start_stale]
    refine .cons (two_step_zero (.bindInUse rfl (by decide))) ?_
    refine .cons (two_step_one (.bindInUse rfl (by decide))) ?_
    refine .cons (two_step_zero (.lstatSocket rfl rfl)) ?_
    refine .cons (two_step_one (.lstatSocket rfl rfl)) ?_
    refine .cons (two_step_zero (.connectRefused rfl fun q id _ => two_ne (by nofun) (by nofun) (by nofun) q)) ?_
    refine .cons (two_step_one (.connectRefused rfl fun q id _ => two_ne (by nofun) (by nofun) (by nofun) q)) ?_
    refine .cons (two_step_zero (.unlink rfl (by decide))) ?_
    refine .cons (two_step_zero (.bind (.inr rfl) rfl)) ?_
    exact .single (two_step_zero (.listen rfl))
  · refine .cons (two_step_one (.unlink rfl (by decide))) ?_
    refine .cons (two_step_one (.bind (.inr rfl) rfl)) ?_
    exact .single (two_step_one (.listen rfl))

end Endpoint

end Mimeclip
