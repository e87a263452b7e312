import Sailing.Model.Basic
import Mathlib.Data.Finset.Insert

/-!
# Read-index bookkeeping

The leader's `ReadOnly` manager (`read_only/mod.rs`), keyed by an internal
round token, and the follower's `ForwardedReads` (`endpoint/mod.rs`), keyed by
a token of the boot epoch and a counter.
-/

namespace Sailing

variable {I : Type} [DecidableEq I]

inductive ReadOnlyOption where
  | safe
  | leaseBased
deriving DecidableEq, Repr

structure ReadIndexStatus (I : Type) where
  context : Bytes
  /-- `none` is a read of the leader's own application. -/
  reqFrom : Option I
  index : Index
  acks : Finset I

structure ReadOnly (I : Type) where
  pending : List (Bytes × ReadIndexStatus I)
  queue : List Bytes
  nextRound : Nat

namespace ReadOnly

def new : ReadOnly I := ⟨[], [], 0⟩

/-- The round counter is not reset: a token is never used twice. -/
def reset (r : ReadOnly I) : ReadOnly I := { r with pending := [], queue := [] }

def contextInFlight (r : ReadOnly I) (context : Bytes) : Bool :=
  r.pending.any fun p => p.2.reqFrom.isNone && p.2.context == context

def get (r : ReadOnly I) (token : Bytes) : Option (ReadIndexStatus I) := r.pending.lookup token

def lastPendingRequestCtx (r : ReadOnly I) : Option Bytes := r.queue.getLast?

def len (r : ReadOnly I) : Nat := r.queue.length

def acksFor (r : ReadOnly I) (token : Bytes) : Option (Finset I) := (r.get token).map (·.acks)

/-- Registers a read under a fresh token; `none` when the counter is
exhausted. The counter moves only when it can. -/
def addRequest (r : ReadOnly I) (index : Index) (context : Bytes) (reqFrom : Option I) (leader : I) :
    Option (Bytes × ReadOnly I) :=
  if r.nextRound < u64Max then
    let token := toBeBytes r.nextRound
    some (token,
      { pending := r.pending ++ [(token, ⟨context, reqFrom, index, {leader}⟩)]
        queue := r.queue ++ [token]
        nextRound := r.nextRound + 1 })
  else none

def recvAck (r : ReadOnly I) (sender : I) (token : Bytes) : ReadOnly I :=
  { r with pending := r.pending.map fun p =>
      if p.1 = token then (p.1, { p.2 with acks := insert sender p.2.acks }) else p }

/-- Confirms every read queued up to and including `token`. -/
def advance (r : ReadOnly I) (token : Bytes) : List (ReadIndexStatus I) × ReadOnly I :=
  if token ∈ r.queue then
    let pos := r.queue.idxOf token
    let confirmed := r.queue.take (pos + 1)
    (confirmed.filterMap r.get,
      { r with
        queue := r.queue.drop (pos + 1)
        pending := r.pending.filter fun p => p.1 ∉ confirmed })
  else ([], r)

end ReadOnly

def maxForwardedReads : Nat := 256

def maxLeaderReads : Nat := 256

structure ForwardedReads where
  /-- Token and user context, oldest first. -/
  order : List (Bytes × Bytes)
  bootEpoch : Nat
  nextToken : Nat

namespace ForwardedReads

def new (bootEpoch : Nat) : ForwardedReads := ⟨[], bootEpoch, 0⟩

def containsContext (f : ForwardedReads) (context : Bytes) : Bool := f.order.any (·.2 == context)

def isFull (f : ForwardedReads) : Bool := maxForwardedReads ≤ f.order.length

def token (f : ForwardedReads) : Bytes := toBeBytes f.bootEpoch ++ toBeBytes f.nextToken

def push (f : ForwardedReads) (context : Bytes) : Option (Bytes × ForwardedReads) :=
  if f.nextToken < u64Max then
    some (f.token, { f with order := f.order ++ [(f.token, context)], nextToken := f.nextToken + 1 })
  else none

def removeByToken (f : ForwardedReads) (token : Bytes) : Option (Bytes × ForwardedReads) :=
  (f.order.find? (·.1 == token)).map fun p =>
    (p.2, { f with order := f.order.eraseP (·.1 == token) })

def clear (f : ForwardedReads) : ForwardedReads := { f with order := [] }

end ForwardedReads

end Sailing
