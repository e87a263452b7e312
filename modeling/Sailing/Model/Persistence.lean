import Sailing.Model.Endpoint

/-!
# Submitting writes and gating acknowledgements

The store-independent half of `endpoint/persistence.rs`: what is recorded when
a write is submitted, and the gates that hold an acknowledgement back until the
term it speaks for, and the entries it names, are durable. The drain that
consumes completions is in `Sailing.Model.Handle`.
-/

namespace Sailing.Endpoint

variable {I : Type} [LinearOrder I] {M : StateMachine}

/-- Appends release through `pendingLog`, hard-state writes through
`pendingStable`. -/
def pushPending (s : Endpoint I M) (id : OpId) (action : Pending I) : Endpoint I M :=
  match action with
  | .followerAck .. | .leaderAppend .. => { s with pendingLog := s.pendingLog ++ [(id, action)] }
  | .castVote .. | .campaign .. => { s with pendingStable := s.pendingStable ++ [(id, action)] }

def takeLogPending (s : Endpoint I M) (id : OpId) : Option (Pending I) × Endpoint I M :=
  match s.pendingLog.find? (·.1 == id) with
  | none => (none, s)
  | some p => (some p.2, { s with pendingLog := s.pendingLog.eraseP (·.1 == id) })

def takeStablePending (s : Endpoint I M) (id : OpId) : Option (Pending I) × Endpoint I M :=
  match s.pendingStable.find? (·.1 == id) with
  | none => (none, s)
  | some p => (some p.2, { s with pendingStable := s.pendingStable.eraseP (·.1 == id) })

/-- The highest index a success acknowledgement may name. -/
def ackWatermark (s : Endpoint I M) : Index :=
  max s.durable.durableIndex s.durable.durableSnapshotIndex

def durableCommit (s : Endpoint I M) : Index := min s.commit s.durable.durableIndex

def submitAppend (s : Endpoint I M) (id : OpId) (entries : List (Entry I)) : Endpoint I M :=
  if s.poisoned then s
  else
    { s with
      log := s.log.submitAppend id entries
      durable := match entries.getLast? with
        | some last =>
          { s.durable with inflightAppendUpto := s.durable.inflightAppendUpto ++ [(id, last.index)] }
        | none => s.durable }

/-- A success append acknowledgement above `boundary`. -/
def acksAbove (boundary : Index) (o : Outgoing I) : Bool :=
  match o.message with
  | .appendResponse a => !a.reject && boundary < a.matchIndex
  | _ => false

def followerAckAbove (boundary : Index) : Pending I → Bool
  | .followerAck _ matchIndex => boundary < matchIndex
  | _ => false

/-- Lowers a gated acknowledgement to `boundary`. -/
def capGated (boundary : Index) : I × Term × Index → I × Term × Index
  | (dest, term, proven) => (dest, term, if boundary < proven then boundary else proven)

/-- Everything above `boundary` is about to be truncated: no acknowledgement
of it may leave any more. -/
def scrubAcksAbove (s : Endpoint I M) (boundary : Index) : Endpoint I M :=
  { s with
    outgoing := s.outgoing.filter fun o => !acksAbove boundary o
    pendingLog := s.pendingLog.filter fun p => !followerAckAbove boundary p.2
    durable := { s.durable with
      termGatedAppendAck := s.durable.termGatedAppendAck.map (capGated boundary)
      termGatedSnapshotAck := s.durable.termGatedSnapshotAck.map (capGated boundary) } }

def stampFloors (s : Endpoint I M) (hs : HardState I) : HardState I :=
  { hs with
    leaseSupport := hs.leaseSupport.raise s.durable.leaseSupportFloor
    foundingGen := max hs.foundingGen s.durable.foundingGen }

/-- The derived order on `Option<Duration>`: `none` is below everything. -/
def optLt : Option Duration → Option Duration → Bool
  | none, some _ => true
  | some a, some b => a < b
  | _, none => false

/-- Records in the bookkeeping that `hs` was submitted as write `id`. -/
def noteSubmitted (d : Durability I) (id : OpId) (hs : HardState I) : Durability I :=
  let d := if d.lastSubmittedTerm < hs.term then
    { d with lastSubmittedTerm := hs.term, termPersistOpid := id } else d
  let d := if optLt d.lastSubmittedLeaseSupport hs.leaseSupport.promised then
    { d with
      lastSubmittedLeaseSupport := hs.leaseSupport.promised
      leaseSupportPersistOpid := id } else d
  let d := if d.lastSubmittedCommit < hs.commit then
    { d with lastSubmittedCommit := hs.commit, commitPersistOpid := id } else d
  { d with lastSubmittedVote := hs.vote }

def submitWrite (s : Endpoint I M) (id : OpId) (hs : HardState I) : Endpoint I M :=
  if s.poisoned then s
  else
    { s with
      durable := noteSubmitted s.durable id (s.stampFloors hs)
      stable := s.stable.submitWrite id (s.stampFloors hs) }

/-- The store's hard state brought to the current term, vote and commit
floor. -/
def currentHardState (s : Endpoint I M) : HardState I :=
  { s.stable.hardState with term := s.term, vote := s.votedFor, commit := s.durableCommit }

/-- Mints an id, submits the current hard state under it and remembers the
commit it carries. -/
def submitHardState (s : Endpoint I M) : OpId × Endpoint I M :=
  let (id, s) := s.mintOpId
  let s := s.submitWrite id s.currentHardState
  (id, { s with durable := { s.durable with committedPersisted := s.durableCommit } })

def persistCommitFloor (s : Endpoint I M) : Endpoint I M :=
  if s.poisoned ∨ s.durableCommit ≤ s.durable.committedPersisted then s
  else s.submitHardState.2

/-- Submits the current term and vote unless the store, or the last write
submitted, already has them with the current lease floor. -/
def ensureTermDurable (s : Endpoint I M) : Endpoint I M :=
  if s.poisoned then s
  else
    let hs := s.stable.hardState
    if (hs.term = s.term ∧ hs.vote = s.votedFor ∧
          hs.leaseSupport.promised = s.durable.leaseSupportFloor) ∨
        (s.durable.lastSubmittedTerm = s.term ∧ s.durable.lastSubmittedVote = s.votedFor ∧
          s.durable.lastSubmittedLeaseSupport = s.durable.leaseSupportFloor) then s
    else s.submitHardState.2

/-! ## Acknowledgement gates -/

def termIsDurable (s : Endpoint I M) : Bool := s.term ≤ s.durable.durableTerm

def appendAck (s : Endpoint I M) (matchIndex : Index) : Message I :=
  .appendResponse ⟨s.term, s.config.id, false, 0, 0, matchIndex, 0⟩

def snapshotAck (s : Endpoint I M) (matchIndex : Index) : Message I :=
  .snapshotResponse ⟨s.term, s.config.id, false, matchIndex, 0, false⟩

/-- The acknowledgement to hold for `dest`: raised if one is already held for
the same leader and term, replaced otherwise. -/
def regate (s : Endpoint I M) (held : Option (I × Term × Index)) (dest : I) (proven : Index) :
    I × Term × Index :=
  match held with
  | some (heldDest, heldTerm, held) =>
    if heldDest = dest ∧ heldTerm = s.term then (dest, s.term, max held proven)
    else (dest, s.term, proven)
  | none => (dest, s.term, proven)

def sendOrGateAppendAck (s : Endpoint I M) (dest : I) (proven : Index) : Endpoint I M :=
  if s.termIsDurable then s.send dest (s.appendAck (min proven s.ackWatermark))
  else
    { s with durable := { s.durable with
        termGatedAppendAck := some (s.regate s.durable.termGatedAppendAck dest proven) } }

def sendOrGateSnapshotAck (s : Endpoint I M) (dest : I) (proven : Index) : Endpoint I M :=
  if s.termIsDurable then s.send dest (s.snapshotAck (min proven s.ackWatermark))
  else
    { s with durable := { s.durable with
        termGatedSnapshotAck := some (s.regate s.durable.termGatedSnapshotAck dest proven) } }

/-- The redundant-snapshot shortcut speaks for commit and apply, so it waits
for both as well as for the term. -/
def shortcutAckReady (s : Endpoint I M) (boundary : Index) : Bool :=
  s.termIsDurable &&
    (boundary ≤ s.durable.durableCommitIndex || boundary ≤ s.durable.durableSnapshotIndex) &&
    boundary ≤ s.applied

def sendOrGateShortcutSnapshotAck (s : Endpoint I M) (dest : I) (boundary : Index) :
    Endpoint I M :=
  if s.shortcutAckReady boundary then
    s.send dest (s.snapshotAck (min (max s.commit boundary) s.ackWatermark))
  else
    { s with durable := { s.durable with
        shortcutGatedSnapshotAck :=
          some (s.regate s.durable.shortcutGatedSnapshotAck dest boundary) } }

def flushShortcutGatedAck (s : Endpoint I M) : Endpoint I M :=
  match s.durable.shortcutGatedSnapshotAck with
  | none => s
  | some (dest, term, boundary) =>
    if term ≠ s.term then { s with durable := { s.durable with shortcutGatedSnapshotAck := none } }
    else if s.shortcutAckReady boundary then
      let s := { s with durable := { s.durable with shortcutGatedSnapshotAck := none } }
      s.send dest (s.snapshotAck (min (max s.commit boundary) s.ackWatermark))
    else s

/-- A gated acknowledgement of another term is dropped. -/
def dropStaleGate (term : Term) (held : Option (I × Term × Index)) : Option (I × Term × Index) :=
  held.filter fun h => h.2.1 = term

def flushTermGatedSnapshotAck (s : Endpoint I M) : Endpoint I M :=
  match s.durable.termGatedSnapshotAck with
  | none => s
  | some (dest, _, proven) =>
    let s := { s with durable := { s.durable with termGatedSnapshotAck := none } }
    s.send dest (s.snapshotAck (min proven s.ackWatermark))

def flushTermGatedAppendAck (s : Endpoint I M) : Endpoint I M :=
  match s.durable.termGatedAppendAck with
  | none => s
  | some (dest, _, proven) =>
    let s := { s with durable := { s.durable with termGatedAppendAck := none } }
    s.send dest (s.appendAck (min proven s.ackWatermark))

def flushTermGatedAcks (s : Endpoint I M) : Endpoint I M :=
  let s := s.flushShortcutGatedAck
  let s := { s with durable := { s.durable with
    termGatedSnapshotAck := dropStaleGate s.term s.durable.termGatedSnapshotAck
    termGatedAppendAck := dropStaleGate s.term s.durable.termGatedAppendAck } }
  if s.termIsDurable then s.flushTermGatedSnapshotAck.flushTermGatedAppendAck else s

end Sailing.Endpoint
