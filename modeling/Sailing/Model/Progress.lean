import Sailing.Model.Basic

/-!
# Replication progress of one peer

`Inflights` bounds the unacknowledged appends to a peer by count and bytes
(`inflights.rs`); `Progress` is the leader's view of the peer
(`progress/mod.rs`).
-/

namespace Sailing

structure Inflights where
  /-- The last index and the byte size of each message, oldest first. -/
  inflight : List (Index × Nat)
  maxMsgs : Nat
  /-- `0` is no byte cap. -/
  maxBytes : Nat
  bytes : Nat
deriving DecidableEq, Repr

namespace Inflights

def new (maxMsgs maxBytes : Nat) : Inflights := ⟨[], maxMsgs, maxBytes, 0⟩

def full (w : Inflights) : Bool :=
  w.maxMsgs ≤ w.inflight.length || (w.maxBytes != 0 && w.maxBytes ≤ w.bytes)

def add (w : Inflights) (index : Index) (bytes : Nat) : Inflights :=
  { w with inflight := w.inflight ++ [(index, bytes)], bytes := w.bytes + bytes }

/-- Pops messages up to the first whose last index is above `upto`. -/
def popLe (upto : Index) : List (Index × Nat) → Nat → List (Index × Nat) × Nat
  | [], bytes => ([], bytes)
  | m :: ms, bytes => if upto < m.1 then (m :: ms, bytes) else popLe upto ms (bytes - m.2)

def freeLe (w : Inflights) (upto : Index) : Inflights :=
  { w with inflight := (popLe upto w.inflight w.bytes).1, bytes := (popLe upto w.inflight w.bytes).2 }

def freeFirstOne (w : Inflights) : Inflights :=
  match w.inflight with
  | [] => w
  | m :: ms => { w with inflight := ms, bytes := w.bytes - m.2 }

def reset (w : Inflights) : Inflights := { w with inflight := [], bytes := 0 }

end Inflights

inductive ProgressState where
  | probe
  | replicate
  | snapshot (pending : Index) (ackedThrough total : Nat)
deriving DecidableEq, Repr

structure Progress where
  matchIndex : Index
  nextIndex : Index
  state : ProgressState
  inflight : Inflights
  msgAppFlowPaused : Bool
  recentActive : Bool
deriving DecidableEq, Repr

namespace Progress

def new (nextIndex : Index) (maxInflightMsgs maxInflightBytes : Nat) : Progress :=
  ⟨0, nextIndex, .probe, Inflights.new maxInflightMsgs maxInflightBytes, false, false⟩

def isPaused (p : Progress) : Bool :=
  match p.state with
  | .probe => p.msgAppFlowPaused
  | .replicate => p.inflight.full
  | .snapshot .. => true

def sentEntries (p : Progress) (last : Index) (bytes : Nat) : Progress :=
  match p.state with
  | .probe => { p with msgAppFlowPaused := true }
  | .replicate =>
    { p with
      inflight := p.inflight.add last bytes
      nextIndex := if p.nextIndex ≤ last then next last else p.nextIndex }
  | .snapshot .. => p

def becomeProbe (p : Progress) : Progress :=
  { p with
    state := .probe
    nextIndex := next p.matchIndex
    inflight := p.inflight.reset
    msgAppFlowPaused := false }

/-- A peer that already covers the boundary goes back to probing instead. -/
def becomeSnapshot (p : Progress) (pendingSnapshot : Index) (total : Nat) : Progress :=
  if pendingSnapshot ≤ p.matchIndex then p.becomeProbe
  else
    { p with
      state := .snapshot pendingSnapshot 0 total
      inflight := p.inflight.reset
      msgAppFlowPaused := false }

/-- The resume cursor of a transfer; a watermark past the blob is refused. -/
def snapshotAcked (p : Progress) (offset : Nat) : Progress :=
  match p.state with
  | .snapshot pending acked total =>
    { p with state := .snapshot pending (if offset ≤ total then offset else acked) total }
  | _ => p

def becomeReplicate (p : Progress) : Progress :=
  { p with
    state := .replicate
    nextIndex := next p.matchIndex
    msgAppFlowPaused := false
    inflight := p.inflight.reset }

/-- The peer acknowledged `n`; the flag says whether `matchIndex` moved. -/
def maybeUpdate (p : Progress) (n : Index) : Progress × Bool :=
  let p' := { p with
    matchIndex := max p.matchIndex n
    nextIndex := if p.nextIndex ≤ n then next n else p.nextIndex
    inflight := p.inflight.freeLe n
    msgAppFlowPaused := false }
  let p' := match p'.state with
    | .snapshot pending _ _ => if pending ≤ n then p'.becomeProbe else p'
    | _ => p'
  (p', p.matchIndex < n)

def clearProbePause (p : Progress) : Progress := { p with msgAppFlowPaused := false }

def setRecentActive (p : Progress) (v : Bool) : Progress := { p with recentActive := v }

def freeInflightOnHeartbeat (p : Progress) : Progress :=
  if p.state = .replicate ∧ p.inflight.full then { p with inflight := p.inflight.freeFirstOne } else p

def setNextIndex (p : Progress) (n : Index) : Progress := { p with nextIndex := n }

end Progress

end Sailing
