import Sailing.Model.Handlers

/-!
# The public calls

`handle_storage` (`endpoint/persistence.rs`) drains completions, reconciles
lost ones against the store's answers and lets apply and capture catch up;
`handle_message` and `handle_timeout` (`endpoint/mod.rs`) dispatch; `propose`
and `propose_conf_change_v2` append.
-/

namespace Sailing

inductive ProposeError (I : Type) where
  | poisoned
  | notLeader (leader : Option I)
  | leaderTransferInProgress
  | confChangeInFlight
  | mergeInFlight
  | invalidConfChange
  | logIndexExhausted
  | entryTooLarge
deriving DecidableEq, Repr

inductive StorageProgress where
  | drained
  | morePending
deriving DecidableEq, Repr

namespace Endpoint

variable {I : Type} [LinearOrder I] {M : StateMachine}

/-! ## Log completions -/

def releaseLogPending (s : Endpoint I M) (now : Instant) (id : OpId) : Endpoint I M :=
  match s.takeLogPending id with
  | (some (.followerAck dest matchIndex), s) => s.sendOrGateAppendAck dest matchIndex
  | (some (.leaderAppend upto), s) =>
    if s.role = .leader then
      let s := { s with tracker :=
        s.tracker.modifyProgress s.config.id fun p => (p.maybeUpdate upto).1 }
      (s.onProgress now).maybeFlushDeferredReads now
    else s
  | (_, s) => s

/-- The append `id` is durable, and with it everything up to its last index. -/
def noteAppended (s : Endpoint I M) (id : OpId) : Endpoint I M :=
  match s.durable.inflightAppendUpto.find? (·.1 == id) with
  | some p =>
    { s with durable := { s.durable with
        inflightAppendUpto := s.durable.inflightAppendUpto.eraseP (·.1 == id)
        durableIndex := max s.durable.durableIndex p.2 } }
  | none => s

def onLogAppended (s : Endpoint I M) (now : Instant) (id : OpId) : Endpoint I M :=
  (s.noteAppended id).releaseLogPending now id

def drainLog (now : Instant) : Nat → Endpoint I M → Endpoint I M
  | 0, s => s
  | budget + 1, s =>
    match s.log.poll with
    | (none, _) => s
    | (some none, log) => { s with log := log }.poison .logPoll
    | (some (some (.compacted _)), log) => drainLog now budget { s with log := log }
    | (some (some (.appended id)), log) =>
      let s := { s with log := log }.onLogAppended now id
      if s.poisoned then s else drainLog now budget s

/-! ## Stable completions -/

def releaseStablePending (s : Endpoint I M) (now : Instant) : Pending I → Endpoint I M
  | .castVote dest term =>
    if term = s.term ∧ s.votedFor = some dest then
      s.send dest (.voteResponse ⟨term, s.config.id, false, false⟩)
    else s
  | .campaign term =>
    if term = s.term ∧ s.role = .candidate ∧ s.tracker.voteResult s.votes = .won then
      s.becomeLeader now
    else s
  | _ => s

/-- A completion proves durable every floor whose write is not newer. -/
def noteWrote (d : Durability I) (id : OpId) : Durability I :=
  let d := if d.durableTerm < d.lastSubmittedTerm ∧ d.termPersistOpid.le id then
    { d with durableTerm := d.lastSubmittedTerm } else d
  let d := if d.durableCommitIndex < d.lastSubmittedCommit ∧ d.commitPersistOpid.le id then
    { d with durableCommitIndex := d.lastSubmittedCommit } else d
  if optLt d.durableLeaseSupport d.lastSubmittedLeaseSupport ∧ d.leaseSupportPersistOpid.le id then
    { d with durableLeaseSupport := d.lastSubmittedLeaseSupport } else d

def onStableWrote (s : Endpoint I M) (now : Instant) (id : OpId) : Endpoint I M :=
  let s := { s with durable := noteWrote s.durable id }
  match s.takeStablePending id with
  | (some p, s) => (s.releaseStablePending now p).flushTermGatedAcks
  | (none, s) => s.flushTermGatedAcks

/-- The captured snapshot is durable: what it folds leaves the log. -/
def finishCompact (s : Endpoint I M) (m : SnapshotMeta I) : Endpoint I M :=
  { s with
    durable := { s.durable with
      durableSnapshotIndex := max s.durable.durableSnapshotIndex m.lastIndex }
    log := s.log.compact m.lastIndex
    snapshot := { s.snapshot with pendingCompact := none } }

def compactIf (s : Endpoint I M) (ready : OpId → SnapshotMeta I → Bool) : Endpoint I M :=
  match s.snapshot.pendingCompact with
  | some (id, m) => if ready id m then s.finishCompact m else s
  | none => s

def installIf (s : Endpoint I M) (ready : OpId → SnapshotMeta I → Bool) : Endpoint I M :=
  match s.snapshot.pendingInstall with
  | some (id, m, snap, leader) =>
    if ready id m then
      { s with snapshot := { s.snapshot with pendingInstall := none } }.installSnapshotNow m snap leader
    else s
  | none => s

def drainStable (now : Instant) : Nat → Endpoint I M → Endpoint I M
  | 0, s => s
  | budget + 1, s =>
    match s.stable.poll with
    | (none, _) => s
    | (some none, stable) => { s with stable := stable }.poison .stablePoll
    | (some (some (.wrote id)), stable) =>
      let s := { s with stable := stable }.onStableWrote now id
      if s.poisoned then s else drainStable now budget s
    | (some (some (.snapshotWritten id)), stable) =>
      let s := ({ s with stable := stable }.compactIf fun pid _ => pid = id).installIf
        fun pid _ => pid = id
      if s.poisoned then s else drainStable now budget s

/-! ## Lost completions -/

/-- The slot answers for a snapshot write whose completion was lost. -/
def reconcileDurableSnapshot (s : Endpoint I M) : Endpoint I M :=
  let durable := fun (s : Endpoint I M) (m : SnapshotMeta I) =>
    s.stable.durableSnapshot.any (·.identityEq m)
  let s := s.compactIf fun _ m => durable s m
  s.installIf fun _ m => durable s m

def logDurabilityOutstanding (s : Endpoint I M) : Bool :=
  s.durable.inflightAppendUpto ≠ [] || s.durable.termGatedAppendAck.isSome ||
    s.durable.termGatedSnapshotAck.isSome || s.durable.shortcutGatedSnapshotAck.isSome

def stableDurabilityOutstanding (s : Endpoint I M) : Bool :=
  s.pendingStable ≠ [] || s.durable.termGatedAppendAck.isSome ||
    s.durable.termGatedSnapshotAck.isSome || s.durable.shortcutGatedSnapshotAck.isSome ||
    s.durable.durableTerm < s.durable.lastSubmittedTerm ||
    s.durable.durableCommitIndex < s.durable.lastSubmittedCommit ||
    optLt s.durable.durableLeaseSupport s.durable.lastSubmittedLeaseSupport

/-- Releases the appends at the front that `covered` proves durable. -/
def releaseCovered (now : Instant) (covered : Index) : Nat → Endpoint I M → Endpoint I M
  | 0, s => s
  | fuel + 1, s =>
    match s.durable.inflightAppendUpto with
    | [] => s
    | (id, upto) :: rest =>
      if upto ≤ covered then
        let s := { s with durable := { s.durable with inflightAppendUpto := rest } }
        let s := s.releaseLogPending now id
        if s.poisoned then s else releaseCovered now covered fuel s
      else s

def reconcileDurableIndex (s : Endpoint I M) (now : Instant) : Endpoint I M :=
  if s.logDurabilityOutstanding = false ∨ s.log.hasPending then s
  else
    match s.log.durableIndex with
    | none => s
    | some d =>
      let s := { s with durable := { s.durable with durableIndex := max s.durable.durableIndex d } }
      releaseCovered now s.durable.durableIndex s.durable.inflightAppendUpto.length s

/-- The write `p` waits for is the durable hard state. -/
def provenBy (me : I) (hs : HardState I) : Pending I → Bool
  | .castVote dest term => term = hs.term && hs.vote = some dest
  | .campaign term => term = hs.term && hs.vote = some me
  | _ => false

def releaseProven (now : Instant) (hs : HardState I) : Nat → Endpoint I M → Endpoint I M
  | 0, s => s
  | fuel + 1, s =>
    match s.pendingStable.find? fun p => provenBy s.config.id hs p.2 with
    | none => s
    | some p =>
      let s := { s with pendingStable :=
        s.pendingStable.eraseP fun p => provenBy s.config.id hs p.2 }
      let s := s.releaseStablePending now p.2
      if s.poisoned then s else releaseProven now hs fuel s

def raiseDurable (d : Durability I) (hs : HardState I) : Durability I :=
  { d with
    durableTerm := max d.durableTerm hs.term
    durableCommitIndex := max d.durableCommitIndex hs.commit
    durableLeaseSupport := LeaseSupport.optMax d.durableLeaseSupport hs.leaseSupport.promised }

def reconcileDurableHardState (s : Endpoint I M) (now : Instant) : Endpoint I M :=
  if s.stableDurabilityOutstanding = false ∨ s.stable.hasPending then s
  else
    match s.stable.durableHardState with
    | none => s
    | some hs =>
      let s := { s with durable := raiseDurable s.durable hs }
      let s := releaseProven now hs s.pendingStable.length s
      if s.poisoned then s else s.flushTermGatedAcks

/-! ## `handle_storage` -/

def storageDrainBudget : Nat := 256

/-- Appends a configuration change of the leader's own. -/
def appendConfChange (s : Endpoint I M) (cc : ConfChangeV2 I) : Option Index × Endpoint I M :=
  if s.poisoned then (none, s)
  else
    match nextLogIndex s.log.lastIndex with
    | none => (none, s)
    | some index =>
      let s := s.appendOwn index (.confChange (some cc))
      (some index, { s with pendingConfIndex := index })

/-- A leader in an automatic joint configuration leaves it when the last change
is applied. -/
def maybeLeaveJoint (s : Endpoint I M) : Endpoint I M :=
  if s.role = .leader ∧ s.transfer.leadTransferee.isNone ∧ s.tracker.isJoint ∧ s.tracker.autoLeave ∧
      s.pendingConfIndex ≤ s.applied then
    match s.appendConfChange ⟨.auto, []⟩ with
    | (none, s) => s.poison .logExhausted
    | (some _, s) => s
  else s

/-- What `handle_storage` does after the reconciliations: apply, capture, leave
a joint configuration, persist the commit floor. -/
def settle (s : Endpoint I M) (now : Instant) : ApplyDrain × Endpoint I M :=
  let (drain, s) := if s.poisoned = false ∧ s.applied < s.commit then
      let (drain, s) := s.applyCommitted
      (drain, s.maybeFlushDeferredReads now)
    else (.drained, s)
  if s.poisoned then (.drained, s)
  else
    let s := s.maybeSnapshot
    if s.poisoned then (.drained, s)
    else
      let s := s.maybeLeaveJoint
      if s.poisoned then (.drained, s)
      else (drain, (s.persistCommitFloor.flushShortcutGatedAck).reconcileElectionTimer now)

/-- The completions and the reconciliations, up to the first that poisons. -/
def drainStorage (s : Endpoint I M) (now : Instant) : Bool × Endpoint I M :=
  let s := drainLog now storageDrainBudget s
  if s.poisoned then (false, s)
  else
    let s := drainStable now storageDrainBudget s
    if s.poisoned then (false, s)
    else
      let s := s.reconcileDurableSnapshot
      if s.poisoned then (false, s)
      else
        let s := s.reconcileDurableIndex now
        if s.poisoned then (false, s)
        else
          let s := s.reconcileDurableHardState now
          if s.poisoned then (false, s) else s.reclaimStaleSnapshotRecv

def handleStorage (s : Endpoint I M) (now : Instant) : StorageProgress × Endpoint I M :=
  if s.poisoned then (.drained, s)
  else
    match s.drainStorage now with
    | (false, s) => (.drained, s)
    | (true, s) =>
      let (drain, s) := s.settle now
      if s.poisoned then (.drained, s)
      else if s.log.hasPending ∨ s.stable.hasPending ∨ drain = .budgetCut then (.morePending, s)
      else (.drained, s)

/-! ## `handle_message` -/

/-- A known leader and a future election deadline: the node backs a lease. -/
def inLease (s : Endpoint I M) (now : Instant) : Bool :=
  (s.config.checkQuorum || s.config.preVote) && s.leader.isSome &&
    s.electionDeadline.any fun d => now < d

/-- A newer term ends whatever the node was doing in the old one. -/
def adoptTerm (s : Endpoint I M) (term : Term) : Endpoint I M :=
  let s := { s with term := term, role := .follower, votedFor := none }.setLeader none
  let s := { s with
    pendingLog := []
    pendingStable := []
    reads := { s.reads with readOnly := s.reads.readOnly.reset, pendingReads := [] } }
  s.dropTransfer

/-- A stale leader's message is answered with the newer term, if the node
enforces leases. -/
def answerStale (s : Endpoint I M) (sender : I) (m : Message I) : Endpoint I M :=
  if s.config.checkQuorum ∨ s.config.preVote then
    match m with
    | .heartbeat _ | .appendEntries _ =>
      s.send sender (.appendResponse ⟨s.term, s.config.id, true, 0, 0, 0, 0⟩)
    | _ => s
  else s

def dispatch (s : Endpoint I M) (now : Instant) (sender : I) (m : Message I) (walked : Option Index := none) :
    Endpoint I M :=
  match m with
  | .requestVote rv => s.onRequestVote now rv
  | .voteResponse vr => s.onVoteResponse now vr
  | .heartbeat hb => s.onHeartbeat now hb
  | .appendEntries ae => s.onAppendEntries now ae
  | .appendResponse r => s.onAppendResponse now sender r
  | .heartbeatResponse r => s.onHeartbeatResponse now sender r
  | .readIndex ri => s.onReadIndex now ri
  | .readIndexResponse r => s.onReadIndexResponse sender r
  | .installSnapshot is => s.onInstallSnapshot now is walked
  | .snapshotResponse r => s.onSnapshotResponse now sender r
  | .timeoutNow tn => s.onTimeoutNow now tn

/-- A vote request a node inside its lease does not listen to. -/
def refusedInLease (s : Endpoint I M) (now : Instant) : Message I → Bool
  | .requestVote rv => !rv.leaderTransfer && s.inLease now
  | _ => false

/-- Marks the sender active on a leader, dispatches, and makes sure the term is
on its way to the store. -/
def receive (s : Endpoint I M) (now : Instant) (sender : I) (m : Message I) (walked : Option Index := none) :
    Endpoint I M :=
  let s := if s.role = .leader then
    { s with tracker := s.tracker.modifyProgress sender (·.setRecentActive true) } else s
  ((s.dispatch now sender m walked).ensureTermDurable).reconcileElectionTimer now

def handleMessage (s : Endpoint I M) (now : Instant) (sender : I) (m : Message I) (walked : Option Index := none) :
    Endpoint I M :=
  if s.poisoned ∨ m.sender ≠ sender then s
  else if s.term < m.term ∧ m.advertisedPrevote = false then
    if s.refusedInLease now m then s else (s.adoptTerm m.term).receive now sender m walked
  else if m.term < s.term ∧ (m.isRequestVote && m.advertisedPrevote) = false then
    s.answerStale sender m
  else s.receive now sender m walked

/-! ## `handle_timeout` -/

def abortTransferIfDue (s : Endpoint I M) (now : Instant) : Endpoint I M :=
  if s.transfer.leadTransferee.isSome ∧ s.transfer.transferDeadline.any (· ≤ now) then
    s.dropTransfer
  else s

/-- A leader that did not hear from a quorum in a whole timeout steps down. -/
def checkQuorumIfDue (s : Endpoint I M) (now : Instant) : Endpoint I M :=
  if s.config.checkQuorum ∧ s.electionDeadline.any (· ≤ now) then
    if s.tracker.quorumActive then
      { s with
        tracker := s.tracker.resetRecentActive s.config.id
        electionDeadline := some (now + s.config.electionTimeout) }
    else s.stepDownToFollower now
  else s

/-- The lease guard of a new leader may have expired. -/
def commitIfDue (s : Endpoint I M) (now : Instant) : Endpoint I M :=
  if s.config.commitWait.due s.term now then (s.onProgress now).maybeFlushDeferredReads now else s

def leaderTimeout (s : Endpoint I M) (now : Instant) : Endpoint I M :=
  let s := if s.heartbeatDeadline.any (· ≤ now) then
    (s.broadcastHeartbeat now).armHeartbeatTimer now else s
  if s.poisoned then s
  else
    let s := s.commitIfDue now
    if s.poisoned then s
    else
      let s := (s.abortTransferIfDue now).checkQuorumIfDue now
      (s.drivePendingFarewells now).reconcileElectionTimer now

def followerTimeout (s : Endpoint I M) (now : Instant) : Endpoint I M :=
  let s := if s.electionDeadline.any (· ≤ now) then
      let s := { s with electionDeadline := none }
      if s.tracker.isVoter s.config.id then
        if s.config.preVote then
          match s.becomePreCandidate now with
          | (true, s) => s.becomeCandidate now false
          | (false, s) => s
        else s.becomeCandidate now false
      else s
    else s
  s.reconcileElectionTimer now

def handleTimeout (s : Endpoint I M) (now : Instant) : Endpoint I M :=
  if s.poisoned then s
  else if s.role = .leader then s.leaderTimeout now
  else s.followerTimeout now

/-! ## Proposals -/

def propose (s : Endpoint I M) (cmd : M.Command) : Except (ProposeError I) Index × Endpoint I M :=
  if s.poisoned then (.error .poisoned, s)
  else if s.role ≠ .leader then (.error (.notLeader s.leader), s)
  else if s.transfer.leadTransferee.isSome then (.error .leaderTransferInProgress, s)
  else
    match nextLogIndex s.log.lastIndex with
    | none => (.error .logIndexExhausted, s)
    | some index =>
      let kind : EntryKind I := .normal (M.encodeCommand cmd)
      if appendFrameEntryBudget < s.entryFrameCost ⟨s.term, index, kind⟩ then
        (.error .entryTooLarge, s)
      else (.ok index, s.appendOwn index kind)

def proposeConfChange (s : Endpoint I M) (cc : ConfChangeV2 I) :
    Except (ProposeError I) Index × Endpoint I M :=
  if s.poisoned then (.error .poisoned, s)
  else if s.role ≠ .leader then (.error (.notLeader s.leader), s)
  else if s.transfer.leadTransferee.isSome then (.error .leaderTransferInProgress, s)
  else if s.applied < s.pendingConfIndex then (.error .confChangeInFlight, s)
  else if s.pendingApply.isSome then (.error .mergeInFlight, s)
  else
    match s.changeTracker cc with
    | .error _ => (.error .invalidConfChange, s)
    | .ok _ =>
      if appendFrameEntryBudget < s.config.wire.dataLen (.confChange (some cc)) + 128 then
        (.error .entryTooLarge, s)
      else
        match s.appendConfChange cc with
        | (some index, s) => (.ok index, s)
        | (none, s) => (.error .logIndexExhausted, s)

end Endpoint

end Sailing
