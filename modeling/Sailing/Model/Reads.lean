import Sailing.Model.Apply

/-!
# Linearizable reads

`endpoint/read_index.rs`: the leader confirms a read by a quorum round of
heartbeats (`safe`) or, while its lease is live, at once (`leaseBased`); a
follower forwards the read under a token of its own.
-/

namespace Sailing

inductive ReadIndexError where
  | poisoned
  | duplicateContext
  | tooManyInFlight
  | forwardingDisabled
  | noLeader
deriving DecidableEq, Repr

namespace Endpoint

variable {I : Type} [LinearOrder I] {M : StateMachine}

def hasCurrentTermCommit (s : Endpoint I M) : Bool × Endpoint I M :=
  match s.logTerm s.commit with
  | (some t, s) => (t = s.term, s)
  | (none, s) => (false, s)

def emitReadState (s : Endpoint I M) (index : Index) (context : Bytes) : Endpoint I M :=
  if s.poisoned then s else s.emit (.readState index context)

/-- The application's own read is reported, a forwarded one answered. -/
def emitOrReplyRead (s : Endpoint I M) (index : Index) (context : Bytes) (reqFrom : Option I) :
    Endpoint I M :=
  match reqFrom with
  | none => s.emitReadState index context
  | some follower => s.send follower (.readIndexResponse ⟨s.term, s.config.id, index, context, false⟩)

def leaseReadAvailable (s : Endpoint I M) (now : Instant) : Bool :=
  s.config.checkQuorum && s.transfer.leadTransferee.isNone && !s.transfer.forcedHandoffThisTerm &&
    s.checkQuorumLease.leaseValidUntil.any fun d => now < d

/-- Has a quorum acknowledged the round of `token`? -/
def readQuorumReached (s : Endpoint I M) (token : Bytes) : Bool :=
  match s.reads.readOnly.acksFor token with
  | some acks => s.tracker.voteResultBy (fun id => id ∈ acks) = .won
  | none => false

/-- Answers `token` and every read queued before it. -/
def confirmReads (s : Endpoint I M) (token : Bytes) : Endpoint I M :=
  let (confirmed, readOnly) := s.reads.readOnly.advance token
  confirmed.foldl (fun s st => s.emitOrReplyRead st.index st.context st.reqFrom)
    { s with reads := { s.reads with readOnly := readOnly } }

def doSafeRead (s : Endpoint I M) (context : Bytes) (reqFrom : Option I) : Endpoint I M :=
  match s.reads.readOnly.addRequest s.commit context reqFrom s.config.id with
  | none => s.poison .readRoundExhausted
  | some (token, readOnly) =>
    let s := { s with reads := { s.reads with readOnly := readOnly } }
    if s.readQuorumReached token then s.confirmReads token else s.broadcastHeartbeatWithCtx token

def doLeaderRead (s : Endpoint I M) (now : Instant) (context : Bytes) (reqFrom : Option I) :
    Endpoint I M :=
  if s.poisoned then s
  else
    match s.config.readOnly with
    | .safe => s.doSafeRead context reqFrom
    | .leaseBased =>
      if s.leaseReadAvailable now then s.emitOrReplyRead s.commit context reqFrom
      else s.doSafeRead context reqFrom

/-- The reads deferred until the leader committed in its own term. -/
def maybeFlushDeferredReads (s : Endpoint I M) (now : Instant) : Endpoint I M :=
  if s.poisoned ∨ s.reads.pendingReads = [] ∨ s.role ≠ .leader then s
  else
    match s.hasCurrentTermCommit with
    | (false, s) => s
    | (true, s) =>
      s.reads.pendingReads.foldl (fun s p => s.doLeaderRead now p.1 p.2)
        { s with reads := { s.reads with pendingReads := [] } }

def readContextInFlight (s : Endpoint I M) (context : Bytes) : Bool :=
  (s.reads.pendingReads.any fun p => p.2.isNone && p.1 == context) ||
    s.reads.readOnly.contextInFlight context

def leaderReadsAtCapacity (s : Endpoint I M) : Bool :=
  maxLeaderReads ≤ s.reads.pendingReads.length + s.reads.readOnly.len

def deferRead (s : Endpoint I M) (context : Bytes) (reqFrom : Option I) : Endpoint I M :=
  { s with reads := { s.reads with pendingReads := s.reads.pendingReads ++ [(context, reqFrom)] } }

def poisonedOrOk (s : Endpoint I M) : Except ReadIndexError Unit × Endpoint I M :=
  if s.poisoned then (.error .poisoned, s) else (.ok (), s)

def readIndexLeader (s : Endpoint I M) (now : Instant) (context : Bytes) :
    Except ReadIndexError Unit × Endpoint I M :=
  if s.readContextInFlight context then (.error .duplicateContext, s)
  else if s.leaderReadsAtCapacity then (.error .tooManyInFlight, s)
  else
    match s.hasCurrentTermCommit with
    | (false, s) =>
      if s.poisoned then (.error .poisoned, s) else (.ok (), s.deferRead context none)
    | (true, s) => (s.doLeaderRead now context none).poisonedOrOk

def readIndexFollower (s : Endpoint I M) (context : Bytes) :
    Except ReadIndexError Unit × Endpoint I M :=
  if s.config.disableProposalForwarding then (.error .forwardingDisabled, s)
  else
    match s.leader with
    | none => (.error .noLeader, s)
    | some leader =>
      if s.reads.forwardedReads.containsContext context then (.error .duplicateContext, s)
      else if s.reads.forwardedReads.isFull then (.error .tooManyInFlight, s)
      else
        match s.reads.forwardedReads.push context with
        | none => (.error .poisoned, s.poison .readRoundExhausted)
        | some (token, forwarded) =>
          let s := { s with reads := { s.reads with forwardedReads := forwarded } }
          (.ok (), s.send leader (.readIndex ⟨s.term, s.config.id, token⟩))

def readIndex (s : Endpoint I M) (now : Instant) (context : Bytes) :
    Except ReadIndexError Unit × Endpoint I M :=
  if s.poisoned then (.error .poisoned, s)
  else
    match s.role with
    | .leader => s.readIndexLeader now context
    | .follower => s.readIndexFollower context
    | .candidate | .preCandidate => (.error .noLeader, s)

def onReadIndex (s : Endpoint I M) (now : Instant) (ri : ReadIndex I) : Endpoint I M :=
  if s.role ≠ .leader then s
  else if s.leaderReadsAtCapacity then
    s.send ri.sender (.readIndexResponse ⟨s.term, s.config.id, 0, ri.context, true⟩)
  else
    match s.hasCurrentTermCommit with
    | (false, s) => if s.poisoned then s else s.deferRead ri.context (some ri.sender)
    | (true, s) => s.doLeaderRead now ri.context (some ri.sender)

def onReadIndexResponse (s : Endpoint I M) (sender : I) (r : ReadIndexResponse I) : Endpoint I M :=
  if s.role ≠ .follower ∨ s.leader ≠ some sender ∨ r.sender ≠ sender then s
  else
    match s.reads.forwardedReads.removeByToken r.context with
    | none => s
    | some (context, forwarded) =>
      let s := { s with reads := { s.reads with forwardedReads := forwarded } }
      if r.reject then s else s.emitReadState r.index context

end Endpoint

end Sailing
