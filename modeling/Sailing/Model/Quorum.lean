import Sailing.Model.Basic
import Mathlib.Data.List.Sort
import Mathlib.Data.Finset.Card
import Mathlib.Data.Finset.Filter

/-!
# Majority and joint quorums

`MajorityConfig` and `JointConfig` of `quorum/mod.rs`. A member set is a
`Finset`; the source's ordered iteration over one is `ascending`.
-/

namespace Sailing

variable {I : Type} [LinearOrder I]

/-- The members of a set in ascending order, as a `BTreeSet` iterates. -/
def ascending (s : Finset I) : List I :=
  Quot.liftOn s.val (List.insertionSort (· ≤ ·)) fun a b h =>
    ((List.perm_insertionSort _ a).trans (h.trans (List.perm_insertionSort _ b).symm)).eq_of_pairwise
      (fun _ _ _ _ => le_antisymm) (List.pairwise_insertionSort _ a) (List.pairwise_insertionSort _ b)

/-- The values of a multiset in ascending order. -/
def sorted (s : Multiset Nat) : List Nat :=
  Quot.liftOn s (List.insertionSort (· ≤ ·)) fun a b h =>
    ((List.perm_insertionSort _ a).trans (h.trans (List.perm_insertionSort _ b).symm)).eq_of_pairwise
      (fun _ _ _ _ => le_antisymm) (List.pairwise_insertionSort _ a) (List.pairwise_insertionSort _ b)

inductive VoteResult where
  | won
  | lost
  | pending
deriving DecidableEq, Repr

structure MajorityConfig (I : Type) where
  ids : Finset I
deriving DecidableEq

namespace MajorityConfig

/-- The largest index a majority has acknowledged: with the acknowledged
indices in ascending order, the one at `n - (n / 2 + 1)`. An empty
configuration does not constrain. -/
def committedIndex (c : MajorityConfig I) (acked : I → Index) : Index :=
  if c.ids.card = 0 then u64Max
  else (sorted (c.ids.val.map acked)).getD (c.ids.card - (c.ids.card / 2 + 1)) 0

def voteResult (c : MajorityConfig I) (votes : I → Option Bool) : VoteResult :=
  let grants := (c.ids.filter fun id => votes id = some true).card
  let missing := (c.ids.filter fun id => votes id = none).card
  let q := c.ids.card / 2 + 1
  if c.ids.card = 0 then .won
  else if q ≤ grants then .won
  else if q ≤ grants + missing then .pending
  else .lost

end MajorityConfig

/-- A decision needs a majority of both halves; `outgoing` is empty outside a
joint transition. -/
structure JointConfig (I : Type) where
  incoming : MajorityConfig I
  outgoing : MajorityConfig I
deriving DecidableEq

namespace JointConfig

def fromVoters (voters : Finset I) : JointConfig I := ⟨⟨voters⟩, ⟨∅⟩⟩

def ids (c : JointConfig I) : Finset I := c.incoming.ids ∪ c.outgoing.ids

def committedIndex (c : JointConfig I) (acked : I → Index) : Index :=
  min (c.incoming.committedIndex acked) (c.outgoing.committedIndex acked)

def voteResult (c : JointConfig I) (votes : I → Option Bool) : VoteResult :=
  let r1 := c.incoming.voteResult votes
  let r2 := c.outgoing.voteResult votes
  if r1 = r2 then r1
  else if r1 = .lost ∨ r2 = .lost then .lost
  else .pending

end JointConfig

end Sailing
