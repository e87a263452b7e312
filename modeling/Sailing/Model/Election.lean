import Sailing.Model.Reads

/-!
# Elections

`endpoint/election.rs` and `endpoint/transfer.rs`: campaigning, voting,
becoming leader, and the forced campaign of a leader transfer.
-/

namespace Sailing.Endpoint

variable {I : Type} [LinearOrder I] {M : StateMachine}

def stepDownToFollower (s : Endpoint I M) (now : Instant) : Endpoint I M :=
  let s := { s with role := .follower }.setLeader none
  let s := { s with
    heartbeatDeadline := none
    reads := { s.reads with readOnly := s.reads.readOnly.reset, pendingReads := [] } }
  s.dropTransfer.armElectionTimer now

/-- The self-vote of this term is not waiting for its write. -/
def selfVoteDurable (s : Endpoint I M) : Bool :=
  !s.pendingStable.any fun p => p.2 == .campaign s.term

def leaseVoteFenced (s : Endpoint I M) (now : Instant) (force : Bool) : Bool :=
  !force && s.durable.leaseVoteFenceUntil.any fun d => now < d

/-- The order on `(term, index)` of the last entry. -/
def logLe (a b : Term × Index) : Bool := a.1 < b.1 || (a.1 == b.1 && a.2 ≤ b.2)

/-! ## Becoming leader -/

/-- Appends an entry of the leader's own and counts itself for it when it is
durable. -/
def appendOwn (s : Endpoint I M) (index : Index) (kind : EntryKind I) : Endpoint I M :=
  let (id, s) := s.mintOpId
  let s := s.submitAppend id [⟨s.term, index, kind⟩]
  let s := s.pushPending id (.leaderAppend index)
  { s with replicationPending := true }

def appendLeaderNoop (s : Endpoint I M) (last : Index) : Option Index × Endpoint I M :=
  if s.poisoned then (none, s)
  else
    match nextLogIndex last with
    | none => (none, s.poison .logExhausted)
    | some index => (some index, s.appendOwn index .empty)

/-- The farewells of peers still removed, due at once in the new term. -/
def rearmFarewells (tracker : Tracker I) (farewells : List (I × FarewellRetry)) :
    List (I × FarewellRetry) :=
  (farewells.filter fun p => (tracker.progress p.1).isNone).map fun p =>
    (p.1, { p.2 with nextAt := none })

/-- The per-term leader state. The leader matches its whole visible log. -/
def resetLeader (s : Endpoint I M) (now : Instant) : Endpoint I M :=
  let s := { s with replicationPending := false, role := .leader }.setLeader (some s.config.id)
  let s := { s with
    reads := { s.reads with readOnly := s.reads.readOnly.reset, pendingReads := [] }
    checkQuorumLease :=
      { s.checkQuorumLease with leaseRound := 0, leaseAcks := ∅, leaseValidUntil := none }
    snapshot := { s.snapshot with snapshotResendAfter := fun _ => none }
    pendingFarewells := rearmFarewells s.tracker s.pendingFarewells
    transfer := ⟨false, none, none, none⟩
    electionDeadline := none }
  let s := s.armHeartbeatTimer now
  let last := s.log.lastIndex
  let tracker := s.tracker.resetProgress (next last) s.config.maxInflightMsgs
    s.config.maxInflightBytes
  let s := { s with
    pendingConfIndex := last
    tracker := tracker.modifyProgress s.config.id fun p => (p.maybeUpdate last).1 }
  if s.config.checkQuorum then
    { s with
      tracker := s.tracker.modifyProgress s.config.id (·.setRecentActive true)
      electionDeadline := some (now + s.config.electionTimeout) }
  else s

def becomeLeader (s : Endpoint I M) (now : Instant) : Endpoint I M :=
  if s.config.stepDownOnRemoval ∧ s.tracker.isVoter s.config.id = false then
    { { s with role := .follower }.setLeader none with
      heartbeatDeadline := none, electionDeadline := none }
  else
    let s := s.resetLeader now
    match s.appendLeaderNoop s.log.lastIndex with
    | (none, s) => s
    | (some index, s) =>
      let s := { s with termStartIndex := index }.broadcastHeartbeat now
      s.peers.foldl (fun s peer => s.maybeSendAppend now peer) s

/-! ## Campaigning -/

/-- The walk of `merge_park_membership_superseded` from `cursor`: true as soon
as a read fails to show a run, or a run holds a configuration change. -/
def supersededFrom (s : Endpoint I M) : Nat → Index → Bool
  | 0, _ => false
  | fuel + 1, cursor =>
    if cursor < next s.commit then
      match s.log.entries cursor (next s.commit) with
      | .ready batch =>
        match batch.getLast? with
        | none => true
        | some last =>
          batch.any (·.kind.isConfChange) || s.supersededFrom fuel (next last.index)
      | _ => true
    else false

/-- While the apply loop is parked, a committed change above the park, or a
range that cannot be read, forbids to campaign. -/
def mergeParkMembershipSuperseded (s : Endpoint I M) : Bool :=
  s.pendingApply.isSome && s.supersededFrom (s.commit - s.applied) (next s.applied)

def voterPeers (s : Endpoint I M) : List I := s.peers.filter fun p => s.tracker.isVoter p

def requestVotes (s : Endpoint I M) (term : Term) (last : Index × Term) (preVote transfer : Bool) :
    List (Outgoing I) :=
  s.voterPeers.map fun p => ⟨p, .requestVote ⟨term, s.config.id, last.1, last.2, preVote, transfer⟩⟩

/-- The candidate of the next term, its self-vote submitted. -/
def startCampaign (s : Endpoint I M) (now : Instant) : Endpoint I M :=
  let s := { s with
    term := next s.term, pendingLog := [], pendingStable := [], role := .candidate }.setLeader none
  let s := { s with
    votedFor := some s.config.id
    votes := Function.update (fun _ => none) s.config.id (some true) }
  let (id, s) := s.submitHardState
  (s.pushPending id (.campaign s.term)).armElectionTimer now

def becomeCandidate (s : Endpoint I M) (now : Instant) (transfer : Bool) : Endpoint I M :=
  if s.tracker.isVoter s.config.id = false ∨ s.mergeParkMembershipSuperseded ∨
      next s.term = s.term then s
  else
    match s.lastLog with
    | (none, s) => s.poison .logTerm
    | (some last, s) =>
      let s := s.startCampaign now
      s.sendAll (s.requestVotes s.term last false transfer)

def startPreCampaign (s : Endpoint I M) (now : Instant) : Endpoint I M :=
  let s := { s with role := .preCandidate }.setLeader none
  { s with votes := Function.update (fun _ => none) s.config.id (some true) }.armElectionTimer now

/-- Probes for votes at the next term without adopting it; the flag says that
the node's own vote is a quorum. -/
def becomePreCandidate (s : Endpoint I M) (now : Instant) : Bool × Endpoint I M :=
  if s.tracker.isVoter s.config.id = false ∨ s.mergeParkMembershipSuperseded ∨
      next s.term = s.term then (false, s)
  else
    match (s.startPreCampaign now).lastLog with
    | (none, s) => (false, s.poison .logTerm)
    | (some last, s) =>
      let s := s.sendAll (s.requestVotes (next s.term) last true false)
      (s.tracker.voteResult s.votes = .won, s)

/-! ## Voting -/

/-- The log a vote is compared with: the visible one, or the snapshot being
received if that is further. -/
def voteFloor (s : Endpoint I M) (last : Index × Term) : Term × Index :=
  let floor := (last.2, last.1)
  let floor := match s.snapshot.pendingInstall with
    | some (_, m, _, _) =>
      if logLe (m.lastTerm, m.lastIndex) floor then floor else (m.lastTerm, m.lastIndex)
    | none => floor
  match s.snapshot.snapshotRecv with
  | some r =>
    if logLe (r.snapshot.lastTerm, r.snapshot.lastIndex) floor then floor
    else (r.snapshot.lastTerm, r.snapshot.lastIndex)
  | none => floor

/-- A pre-vote grant echoes the probed term, a rejection the own one. -/
def answerPreVote (s : Endpoint I M) (now : Instant) (rv : RequestVote I) (logOk : Bool) :
    Endpoint I M :=
  let termOk := s.term ≤ rv.term ∧
    (s.term < rv.term ∨ s.votedFor = none ∨ s.votedFor = some rv.candidate)
  let leaseOpen := !(s.leader.isSome && s.electionDeadline.any fun d => now < d)
  let grant := logOk && termOk && leaseOpen && !s.leaseVoteFenced now rv.leaderTransfer
  s.send rv.candidate
    (.voteResponse ⟨if grant then rv.term else s.term, s.config.id, true, !grant⟩)

/-- Records the vote; the response waits for its write. -/
def castVote (s : Endpoint I M) (now : Instant) (candidate : I) : Endpoint I M :=
  let s := { s with votedFor := some candidate }.armElectionTimer now
  let (id, s) := s.submitHardState
  s.pushPending id (.castVote candidate s.term)

def onRequestVote (s : Endpoint I M) (now : Instant) (rv : RequestVote I) : Endpoint I M :=
  match s.lastLog with
  | (none, s) => s.poison .logTerm
  | (some last, s) =>
    let logOk := logLe (s.voteFloor last) (rv.lastLogTerm, rv.lastLogIndex)
    if rv.preVote then s.answerPreVote now rv logOk
    else if (s.votedFor = none ∨ s.votedFor = some rv.candidate) ∧ logOk ∧
        s.leaseVoteFenced now rv.leaderTransfer = false then s.castVote now rv.candidate
    else s.send rv.candidate (.voteResponse ⟨s.term, s.config.id, false, true⟩)

def recordVote (s : Endpoint I M) (vr : VoteResponse I) : Endpoint I M :=
  { s with votes := Function.update s.votes vr.sender (some !vr.reject) }

def onVoteResponse (s : Endpoint I M) (now : Instant) (vr : VoteResponse I) : Endpoint I M :=
  if vr.preVote then
    if s.role ≠ .preCandidate then s
    else
      let s := s.recordVote vr
      if s.tracker.voteResult s.votes = .won then s.becomeCandidate now false else s
  else if s.role ≠ .candidate ∨ vr.term ≠ s.term then s
  else
    let s := s.recordVote vr
    if s.tracker.voteResult s.votes = .won ∧ s.selfVoteDurable then s.becomeLeader now else s

/-! ## Leader transfer -/

inductive TransferError (I : Type) where
  | poisoned
  | notLeader (leader : Option I)
  | alreadyLeader
  | notAVoter
  | handoffPending
deriving DecidableEq, Repr

/-- Opens the transfer: the lease ends, the target is caught up or told to
campaign. -/
def startTransfer (s : Endpoint I M) (now : Instant) (dest : I) : Endpoint I M :=
  let s := { s with transfer := { s.transfer with
    leadTransferee := some dest
    transferDeadline := some (now + s.config.electionTimeout) } }.dropLease
  if s.tracker.matchIndex dest = s.log.lastIndex then
    let s := { s with transfer := { s.transfer with forcedHandoffTarget := some dest } }
    let s := s.send dest (.timeoutNow ⟨s.term, s.config.id⟩)
    { s with transfer := { s.transfer with forcedHandoffThisTerm := true } }
  else s.maybeSendAppend now dest

def transferLeader (s : Endpoint I M) (now : Instant) (dest : I) :
    Except (TransferError I) Unit × Endpoint I M :=
  if s.poisoned then (.error .poisoned, s)
  else if s.role ≠ .leader then (.error (.notLeader s.leader), s)
  else if dest = s.config.id then (.error .alreadyLeader, s)
  else if s.tracker.isVoter dest = false then (.error .notAVoter, s)
  else if s.transfer.leadTransferee = some dest then (.ok (), s)
  else if s.transfer.forcedHandoffThisTerm ∧ s.transfer.forcedHandoffTarget ≠ some dest then
    (.error .handoffPending, s)
  else
    let s := s.startTransfer now dest
    if s.poisoned then (.error .poisoned, s) else (.ok (), s)

def onTimeoutNow (s : Endpoint I M) (now : Instant) (tn : TimeoutNow I) : Endpoint I M :=
  if s.leader ≠ some tn.leader ∨ s.tracker.isVoter s.config.id = false then s
  else s.becomeCandidate now true

end Sailing.Endpoint
