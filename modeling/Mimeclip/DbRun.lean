import Mimeclip.DbInsert
import Mimeclip.Lib.Run

/-!
# Sequences of database operations

The daemon's threads share one connection behind a mutex, so the operations on the store come one
after the other. `Completes` is an operation in which every statement succeeds, with its result;
`Stops` is one that fails or is cut off anywhere, completed operations included.
-/

namespace Mimeclip

/-- The calls on a `Database` that the daemon makes. -/
inductive Op (T : Type)
  | insert (entry : NewEntry T)
  | touchLastUsed (now : T) (entryId : Int)
  | delete (entryId : Int)
  | clear
  | setLimits (limits : Limits)
  | list (now : T) (limit : UInt64)

inductive Output (T : Type)
  | inserted (id : Int)
  | touched
  | deleted (found : Bool)
  | cleared (n : Nat)
  | limited
  | listed (entries : List (Entry T))

structure Connection where
  self : Database
  store : Store
deriving DecidableEq

namespace Op

variable {T : Type} (chrono : Chrono T) (plan : RecencyPlan)

def script (self : Database) : Op T → Database.Sql (Output T)
  | insert entry => do pure (.inserted (← self.insert chrono plan entry))
  | touchLastUsed now entryId => do
    Database.touchLastUsed chrono now entryId
    pure .touched
  | delete entryId => do pure (.deleted (← Database.delete entryId))
  | clear => do pure (.cleared (← Database.clear))
  | setLimits limits => do
    self.setLimits plan limits
    pure .limited
  | list now limit => do pure (.listed (← Database.list chrono plan now limit))

/-- The fields of the `Database` after the call; `set_limits` assigns them before it trims. -/
def after (self : Database) : Op T → Database
  | setLimits limits => self.withLimits limits
  | _ => self

def Completes (c : Connection) (call : Op T × Output T) (c' : Connection) : Prop :=
  (call.1.script chrono plan c.self).Returns c.store call.2 c'.store ∧ c'.self = call.1.after c.self

def exec (c : Connection) (op : Op T) : Connection where
  self := op.after c.self
  store := ((op.script chrono plan c.self).run none c.store).2.1

/-- The call ends, one way or the other. -/
def Stops (c : Connection) (op : Op T) (c' : Connection) : Prop :=
  (op.script chrono plan c.self).Leaves c.store c'.store ∧ c'.self = op.after c.self

variable {chrono plan}

theorem completes_exec {c : Connection} {op : Op T} {out : Output T}
    (h : ((op.script chrono plan c.self).run none c.store).1 = .ok out) :
    Completes chrono plan c (op, out) (op.exec chrono plan c) :=
  ⟨Script.run_returns (Prod.ext h rfl), rfl⟩

theorem Completes.stops {c c' : Connection} {call : Op T × Output T} (h : Completes chrono plan c call c') :
    Stops chrono plan c call.1 c' := ⟨h.1.leaves, h.2⟩

theorem stops_delete (c : Connection) (id : Int) :
    Stops chrono plan c (.delete id) ⟨c.self, c.store.deleteWhere (·.id == id)⟩ :=
  ⟨Script.leaves_bind.2 (.inl (Script.leaves_update.2 (.inr ⟨_, rfl⟩))), rfl⟩

theorem stops_clear (c : Connection) : Stops chrono plan c .clear ⟨c.self, c.store.deleteWhere fun _ => true⟩ :=
  ⟨Script.leaves_bind.2 (.inl (Script.leaves_bind.2 (.inl (Script.leaves_update.2 (.inr ⟨_, rfl⟩))))), rfl⟩

/-- What every deletion and every touch of a row preserve, and `insert` if it is the operation, the
operation preserves. -/
theorem Stops.preserves {I : Store → Prop} {c c' : Connection} {op : Op T}
    (h : Stops chrono plan c op c')
    (hinsert : ∀ (self : Database) (entry : NewEntry T) s t, op = .insert entry → I s →
      (self.insert chrono plan entry).Leaves s t → I t)
    (hdelete : ∀ s p, I s → I (s.deleteWhere p))
    (htouch : ∀ s id now, I s → I (s.updateEntry id _ (Database.touchColumns_hash chrono now)))
    (hI : I c.store) : I c'.store := by
  have hlist : ∀ now rows, Script.Preserves I (Database.listRows chrono now rows) := by
    intro now rows
    induction rows with
    | nil => exact .pure _
    | cons row rows ih => exact .bind (.query _) fun _ => .bind ih fun _ => .pure _
  suffices hop : Script.Preserves I (op.script chrono plan c.self) from hop _ _ hI h.1
  cases op with
  | insert entry => exact .bind (fun s t => hinsert c.self entry s t rfl) fun _ => .pure _
  | touchLastUsed now entryId =>
    refine .bind (.update fun s _ t hs ht => ?_) fun _ => .pure _
    cases ht
    exact htouch s _ _ hs
  | delete entryId =>
    refine .bind (.update fun s _ t hs ht => ?_) fun _ => .pure _
    cases ht
    exact hdelete s _ hs
  | clear =>
    refine .bind (.bind (.update fun s _ t hs ht => ?_) fun _ => .bind (.query _) fun _ => .pure _) fun _ => .pure _
    cases ht
    exact hdelete s _ hs
  | setLimits limits => exact .bind (Database.trim_preserves plan _ hdelete) fun _ => .pure _
  | list now limit => exact .bind (.bind (.query _) fun _ => hlist now _) fun _ => .pure _

end Op

end Mimeclip
