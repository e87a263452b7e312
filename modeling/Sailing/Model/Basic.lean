import Mathlib.Algebra.Ring.Nat
import Mathlib.Data.Finset.Basic

/-!
# The data the endpoint exchanges and stores

Counters, operation ids, log entries, configurations, hard state, snapshot
metadata, wire messages and events, as `sailing-proto` declares them. Terms,
indices, instants and durations are natural numbers; the 64-bit bound of a
counter shows only where the source looks at it (`next` saturates,
`checkedNext` fails).
-/

namespace Sailing

abbrev Term := Nat
abbrev Index := Nat
abbrev Instant := Nat
abbrev Duration := Nat
abbrev Bytes := List UInt8

def u64Max : Nat := 2 ^ 64 - 1

/-- The generation of a group that is merged away. -/
def mergedFloor : Nat := u64Max

/-- No group is founded at this generation or above. -/
def highestWorkingGeneration : Nat := mergedFloor - 1

def generationIsWorking (generation : Nat) : Bool := generation < highestWorkingGeneration

/-- The next value of a `Term` or an `Index`, saturating at `u64::MAX`. -/
def next (n : Nat) : Nat := if n < u64Max then n + 1 else n

/-- The next value, or `none` when the counter is exhausted. -/
def checkedNext (n : Nat) : Option Nat := if n < u64Max then some (n + 1) else none

/-- The next generation, if it may be minted. -/
def nextLineage (generation : Nat) : Option Nat :=
  (checkedNext generation).filter (· < highestWorkingGeneration)

/-- `u64::to_be_bytes`. -/
def toBeBytes (n : Nat) : Bytes :=
  [7, 6, 5, 4, 3, 2, 1, 0].map fun k => UInt8.ofNat (n / 256 ^ k)

/-- A storage-submission id: the boot epoch is its high-order part. -/
structure OpId where
  epoch : Nat
  seq : Nat
deriving DecidableEq, Repr

namespace OpId

def zero : OpId := ⟨0, 0⟩

def firstOfEpoch (epoch : Nat) : OpId := ⟨epoch, 0⟩

def next (id : OpId) : OpId := ⟨id.epoch, Sailing.next id.seq⟩

/-- The derived order of the source: epoch first, then sequence number. -/
def le (a b : OpId) : Bool := a.epoch < b.epoch || (a.epoch == b.epoch && a.seq ≤ b.seq)

end OpId

/-! ## Configurations and log entries -/

structure ConfState (I : Type) where
  voters : Finset I
  learners : Finset I
  votersOutgoing : Finset I
  learnersNext : Finset I
  autoLeave : Bool
deriving DecidableEq

namespace ConfState

variable {I : Type} [DecidableEq I]

def fromVoters (voters : Finset I) : ConfState I := ⟨voters, ∅, ∅, ∅, false⟩

def isJoint (cs : ConfState I) : Bool := cs.votersOutgoing ≠ ∅

/-- The etcd invariants a decoded configuration is checked for. -/
def isValid (cs : ConfState I) : Bool :=
  cs.voters ≠ ∅ ∧ (∀ id ∈ cs.learners, id ∉ cs.voters ∧ id ∉ cs.votersOutgoing) ∧
    (∀ id ∈ cs.learnersNext, id ∈ cs.votersOutgoing ∧ id ∉ cs.voters) ∧
    (cs.isJoint = true ∨ (cs.learnersNext = ∅ ∧ cs.autoLeave = false))

end ConfState

inductive ConfChangeType where
  | addNode
  | removeNode
  | addLearnerNode
deriving DecidableEq, Repr

inductive ConfChangeTransition where
  | auto
  | implicit
  | explicit
deriving DecidableEq, Repr

structure ConfChangeSingle (I : Type) where
  ty : ConfChangeType
  node : I
deriving DecidableEq, Repr

structure ConfChangeV2 (I : Type) where
  transition : ConfChangeTransition
  changes : List (ConfChangeSingle I)
deriving DecidableEq, Repr

/-- An entry's kind together with its payload. `confChange none` is a
configuration change whose bytes do not decode, `commitMerge` the entry that
parks a merge target until its source is absorbed. -/
inductive EntryKind (I : Type) where
  | normal (data : Bytes)
  | confChange (change : Option (ConfChangeV2 I))
  | empty
  | commitMerge
deriving DecidableEq, Repr

structure Entry (I : Type) where
  term : Term
  index : Index
  kind : EntryKind I
deriving DecidableEq, Repr

def EntryKind.isConfChange {I : Type} : EntryKind I → Bool
  | .confChange _ => true
  | _ => false

/-! ## Durable metadata -/

/-- The lease promise recorded in the hard state: `unrecorded` is a state
written before promises were recorded. -/
inductive LeaseSupport where
  | unrecorded
  | recorded (promised : Option Duration)
deriving DecidableEq, Repr

namespace LeaseSupport

def promised : LeaseSupport → Option Duration
  | unrecorded => none
  | recorded d => d

/-- `Option::max`: `none` is below every duration. -/
def optMax : Option Duration → Option Duration → Option Duration
  | none, b => b
  | a, none => a
  | some a, some b => some (max a b)

def raise (s : LeaseSupport) (floor : Option Duration) : LeaseSupport :=
  recorded (optMax s.promised floor)

end LeaseSupport

structure HardState (I : Type) where
  term : Term
  vote : Option I
  commit : Index
  leaseSupport : LeaseSupport
  foundingGen : Nat
deriving DecidableEq, Repr

def HardState.initial {I : Type} : HardState I := ⟨0, none, 0, .recorded none, 0⟩

structure SnapshotMeta (I : Type) where
  lastIndex : Index
  lastTerm : Term
  conf : ConfState I
deriving DecidableEq

/-- Two metas name the same snapshot. -/
def SnapshotMeta.identityEq {I : Type} [DecidableEq I] (a b : SnapshotMeta I) : Bool :=
  a.lastIndex = b.lastIndex ∧ a.lastTerm = b.lastTerm ∧ a.conf = b.conf

end Sailing
