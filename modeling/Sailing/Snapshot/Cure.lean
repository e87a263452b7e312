import Sailing.Calls.Sending
import Sailing.Wire.Budget
import Mathlib.Data.List.MinMax

/-!
# The whole-blob offer to a parked peer

A tracked peer that is parked on a merge advertises the boundary it waits for, and the leader
owes it the snapshot. The offer is the single-shot form: the whole blob at offset 0 under the
total length 0, outside the transfer that `Progress` paces.
-/

namespace Sailing

variable {I : Type} [LinearOrder I] {M : StateMachine}

/-- What a leader owes a parked peer; the clock of its advertisements is read by the sweep only. -/
structure CureDebt where
  boundary : Index
  nextAt : Option Instant
deriving DecidableEq, Repr

/-- The debts, the offers served lately in the order of the peers, and the gate of them all. -/
structure CureLedger (I : Type) where
  owed : I → Option CureDebt
  served : List (I × Instant)
  sendGate : Option Instant

namespace Endpoint

variable {s : Endpoint I M}

end Endpoint

end Sailing
