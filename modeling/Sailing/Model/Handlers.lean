import Sailing.Model.Election
import Mathlib.Data.List.DropRight

/-!
# Replication and snapshot handlers

The handlers of `endpoint/replication.rs` and `endpoint/snapshot.rs`: what a
follower does with a heartbeat, an append or a snapshot, and what a leader does
with the responses.
-/

namespace Sailing.Endpoint

variable {I : Type} [LinearOrder I] {M : StateMachine}

/-- A message of the term's leader makes the node its follower. -/
def followLeader (s : Endpoint I M) (now : Instant) (leader : I) : Endpoint I M :=
  ({ s with role := .follower }.setLeader (some leader)).armElectionTimer now

/-! ## Heartbeats -/

/-- Promises the election timeout from now on, and reports it once the promise
is durable. -/
def supportLease (s : Endpoint I M) : Duration × Endpoint I M :=
  if s.config.checkQuorum ∨ s.config.preVote then
    let thisRun := s.config.electionTimeout
    let s := if optLt s.durable.leaseSupportFloor (some thisRun) then
      { s with durable := { s.durable with leaseSupportFloor := some thisRun } } else s
    (if optLt s.durable.durableLeaseSupport (some thisRun) then 0 else thisRun, s)
  else (0, s)

def onHeartbeat (s : Endpoint I M) (now : Instant) (hb : Heartbeat I) : Endpoint I M :=
  let s := s.followLeader now hb.leader
  let s := s.commitTo (min hb.commit s.log.lastIndex)
  if s.poisoned then s
  else
    let (support, s) := s.supportLease
    s.send hb.leader (.heartbeatResponse ⟨s.term, s.config.id, hb.context, hb.leaseRound, support⟩)

/-- Counts the response toward the current lease round. -/
def renewLease (s : Endpoint I M) (sender : I) (r : HeartbeatResponse I) : Endpoint I M :=
  let lease := s.checkQuorumLease
  if r.leaseRound = lease.leaseRound ∧ 0 < r.leaseSupport then
    let acks := insert sender lease.leaseAcks
    let support := min lease.leaseMinSupport r.leaseSupport
    let valid := if s.tracker.voteResultBy (fun id => id = s.config.id || id ∈ acks) = .won then
      some (lease.leaseRoundStart + support) else lease.leaseValidUntil
    { s with checkQuorumLease :=
        { lease with leaseAcks := acks, leaseMinSupport := support, leaseValidUntil := valid } }
  else s

/-- Is a snapshot transfer to `peer` still short of its boundary? -/
def snapshotInFlight (s : Endpoint I M) (peer : I) : Bool :=
  match s.tracker.progress peer with
  | some pr =>
    match pr.state with
    | .snapshot pending _ _ => pr.matchIndex < pending
    | _ => false
  | none => false

/-- Resends the chunk at the resume cursor when its pacing allows; the flag is
false when the read poisoned. -/
def resendIfDue (s : Endpoint I M) (now : Instant) (peer : I) : Bool × Endpoint I M :=
  if s.snapshotInFlight peer then
    if (s.snapshot.snapshotResendAfter peer).all (· ≤ now) then
      match s.resendSnapshot peer with
      | (.sent, s) => (true, s.setResendAfter peer (some (now + s.config.electionTimeout)))
      | (.deferred, s) | (.unsendable, s) => (true, s)
      | (.poisoned, s) => (false, s)
    else (true, s)
  else (true, s.setResendAfter peer none)

def ackRead (s : Endpoint I M) (sender : I) (token : Bytes) : Endpoint I M :=
  let s := { s with reads := { s.reads with readOnly := s.reads.readOnly.recvAck sender token } }
  if s.readQuorumReached token then s.confirmReads token else s

def needsContact (s : Endpoint I M) (peer : I) : Bool :=
  (s.tracker.progress peer).any fun pr =>
    pr.matchIndex < s.log.lastIndex || pr.state = .probe

def onHeartbeatResponse (s : Endpoint I M) (now : Instant) (sender : I) (r : HeartbeatResponse I) :
    Endpoint I M :=
  if s.role ≠ .leader then s
  else
    let s := s.renewLease sender r
    let s := { s with tracker := s.tracker.modifyProgress sender fun p =>
      p.clearProbePause.freeInflightOnHeartbeat }
    let s := if s.needsContact sender then s.pumpAppends now sender else s
    if s.poisoned then s
    else
      match s.resendIfDue now sender with
      | (false, s) => s
      | (true, s) => if r.context = [] then s else s.ackRead sender r.context

/-! ## Appends -/

/-- Does the log hold the entry the append follows? A previous index below the
first one is taken as matching: what was compacted is committed. -/
def prevMatches (s : Endpoint I M) (ae : AppendEntries I) : Bool × Endpoint I M :=
  if ae.prevLogIndex = 0 ∨ ae.prevLogIndex < s.log.firstIndex then (true, s)
  else if ae.prevLogIndex ≤ s.log.lastIndex then
    match s.logTerm ae.prevLogIndex with
    | (some t, s) => (t = ae.prevLogTerm, s)
    | (none, s) => (false, s)
  else (false, s)

/-- The rejection carries where the logs may still agree. -/
def rejectAppend (s : Endpoint I M) (ae : AppendEntries I) : Endpoint I M :=
  match findConflictByTerm ae.prevLogTerm conflictWalkBudget s
      (min ae.prevLogIndex s.log.lastIndex) with
  | (none, s) => s
  | (some hint, s) =>
    match s.logTerm hint with
    | (none, s) => s
    | (some hintTerm, s) => s.send ae.leader (.appendResponse
        ⟨s.term, s.config.id, true, hint, hintTerm, 0, ae.prevLogIndex⟩)

/-- The last index of a run of entries that follows `prev` without a gap. -/
def lastContiguous (prev : Index) : List (Entry I) → Option Index
  | [] => some prev
  | e :: es =>
    if nextLogIndex prev = some e.index then lastContiguous e.index es else none

/-- The entries from the first the log does not already hold; `none` when a
term could not be read. -/
def conflictSuffix : List (Entry I) → Endpoint I M → Option (List (Entry I)) × Endpoint I M
  | [], s => (some [], s)
  | e :: es, s =>
    if e.index < s.log.firstIndex then conflictSuffix es s
    else if e.index ≤ s.log.lastIndex then
      match s.logTerm e.index with
      | (none, s) => (none, s)
      | (some t, s) => if t = e.term then conflictSuffix es s else (some (e :: es), s)
    else (some (e :: es), s)

/-- Nothing from `first` on is durable or in flight any more. -/
def cutDurable (s : Endpoint I M) (first : Index) : Endpoint I M :=
  { s with durable := { s.durable with
      durableIndex := min s.durable.durableIndex (first - 1)
      inflightAppendUpto := s.durable.inflightAppendUpto.rdropWhile fun p => first ≤ p.2 } }

/-- Overwrites the log from the index of the first entry on. -/
def overwrite (s : Endpoint I M) (first : Index) (suffix : List (Entry I)) : OpId × Endpoint I M :=
  let s := (s.scrubAcksAbove (first - 1)).cutDurable first
  let (id, s) := s.mintOpId
  (id, s.submitAppend id suffix)

/-- Commit follows the leader as far as the append reached. -/
def finishAppend (s : Endpoint I M) (ae : AppendEntries I) (lastNew : Index)
    (appended : Option OpId) : Endpoint I M :=
  let s := s.commitTo (min ae.leaderCommit lastNew)
  if s.poisoned then s
  else
    match appended with
    | some id => s.pushPending id (.followerAck ae.leader lastNew)
    | none => s.sendOrGateAppendAck ae.leader lastNew

def acceptAppend (s : Endpoint I M) (ae : AppendEntries I) : Endpoint I M :=
  match lastContiguous ae.prevLogIndex ae.entries with
  | none => s.poison .nonContiguousAppend
  | some lastNew =>
    match conflictSuffix ae.entries s with
    | (none, s) => s
    | (some [], s) => s.finishAppend ae lastNew none
    | (some (e :: es), s) =>
      if e.index ≤ s.commit then s.poison .committedTruncation
      else
        let (id, s) := s.ensureTermDurable.overwrite e.index (e :: es)
        s.finishAppend ae lastNew (some id)

def onAppendEntries (s : Endpoint I M) (now : Instant) (ae : AppendEntries I) : Endpoint I M :=
  match (s.followLeader now ae.leader).prevMatches ae with
  | (consistent, s) =>
    if s.poisoned then s else if consistent then s.acceptAppend ae else s.rejectAppend ae

/-- A rejection moves the probe back. A response without the index it rejects
is the nudge of a newer term, and only that may go below the match. -/
def onAppendReject (s : Endpoint I M) (now : Instant) (sender : I) (pr : Progress)
    (r : AppendResponse I) : Endpoint I M :=
  match pr.state with
  | .snapshot .. => s
  | _ =>
    if r.rejectedIndex ≠ 0 ∧ r.rejectedIndex ≤ pr.matchIndex then s
    else
      match findConflictByTerm r.rejectHintTerm conflictWalkBudget s
          (min r.rejectHintIndex s.log.lastIndex) with
      | (none, s) => s
      | (some conflict, s) =>
        let floor := if r.rejectedIndex ≠ 0 then pr.matchIndex + 1 else 1
        let safeNext := max (min (pr.nextIndex - 1) (conflict + 1)) floor
        let s := { s with tracker := s.tracker.modifyProgress sender fun p =>
          p.becomeProbe.setNextIndex safeNext }
        s.maybeSendAppend now sender

/-- What follows when a peer's match moved. -/
def onProgress (s : Endpoint I M) (now : Instant) : Endpoint I M :=
  (s.maybeAdvanceCommit now).applyCommitted.2

def onAppendAck (s : Endpoint I M) (now : Instant) (sender : I) (pr : Progress)
    (r : AppendResponse I) : Endpoint I M :=
  if s.log.lastIndex < r.matchIndex then s
  else
    let (pr', moved) := pr.maybeUpdate r.matchIndex
    let pr'' := if moved ∧ pr.state = .probe then pr'.becomeReplicate else pr'
    let s := { s with tracker := s.tracker.modifyProgress sender fun _ => pr'' }
    if moved then
      let s := s.onProgress now
      if s.poisoned then s
      else
        let s := (s.maybeFlushDeferredReads now).pumpAppends now sender
        if s.poisoned then s else s.maybeHandOffToTransferee sender
    else s

def onAppendResponse (s : Endpoint I M) (now : Instant) (sender : I) (r : AppendResponse I) :
    Endpoint I M :=
  if s.poisoned ∨ s.role ≠ .leader then s
  else
    match s.tracker.progress sender with
    | none => s
    | some pr => if r.reject then s.onAppendReject now sender pr r else s.onAppendAck now sender pr r

/-! ## Snapshots -/

/-- Does the log already hold what the snapshot folds? `none` when the
boundary term could not be read. -/
def coveredByLocalHistory (s : Endpoint I M) (m : SnapshotMeta I) (committedBound : Index) :
    Option Bool × Endpoint I M :=
  if m.lastIndex ≤ committedBound then (some true, s)
  else if m.lastIndex ≤ s.durable.durableIndex then
    match s.logTerm m.lastIndex with
    | (some t, s) => (some (t = m.lastTerm), s)
    | (none, s) => (none, s)
  else (some false, s)

def committedBound (s : Endpoint I M) : Index := min s.commit s.ackWatermark

def dropSnapshotRecv (s : Endpoint I M) : Endpoint I M :=
  { s with
    snapshot := { s.snapshot with snapshotRecv := none }
    stable := s.stable.discardSnapshotStaging }

/-- A partial transfer the log has caught up with is dropped; the flag is false
when that could not be told. -/
def reclaimStaleSnapshotRecv (s : Endpoint I M) : Bool × Endpoint I M :=
  match s.snapshot.snapshotRecv with
  | none => (true, s)
  | some r =>
    match s.coveredByLocalHistory r.snapshot s.committedBound with
    | (none, s) => (false, s)
    | (some true, s) => (true, s.dropSnapshotRecv)
    | (some false, s) => (true, s)

/-- A transfer of the same leader to a higher boundary is under way. -/
def recvAbove (s : Endpoint I M) (is : InstallSnapshot I) : Bool :=
  s.snapshot.snapshotRecv.any fun r =>
    r.senderTerm = is.term && is.snapshot.lastIndex < r.snapshot.lastIndex

/-- Commits up to a boundary the log already reaches and acknowledges it. -/
def shortcutInstall (s : Endpoint I M) (m : SnapshotMeta I) (leader : I) : Endpoint I M :=
  if s.commit < m.lastIndex then
    let s := s.commitTo m.lastIndex
    if s.poisoned then s
    else s.persistCommitFloor.sendOrGateShortcutSnapshotAck leader m.lastIndex
  else s.sendOrGateShortcutSnapshotAck leader m.lastIndex

/-- The newest boundary the snapshot slot has or will have. -/
def visibleSlot (s : Endpoint I M) : Index :=
  max (max s.durable.durableSnapshotIndex
      ((s.snapshot.pendingCompact.map (·.2.lastIndex)).getD 0))
    ((s.snapshot.pendingInstall.map (·.2.1.lastIndex)).getD 0)

/-- Submits the snapshot to the slot; it is installed when it is durable. -/
def beginInstall (s : Endpoint I M) (m : SnapshotMeta I) (blob : Bytes) (snap : M.Snapshot)
    (leader : I) : Endpoint I M :=
  let (id, s) := s.ensureTermDurable.submitSnapshot m blob
  { s with snapshot := { s.snapshot with pendingInstall := some (id, m, snap, leader) } }

def sendSnapshotProgressAck (s : Endpoint I M) (dest : I) (ackedThrough : Nat) (boundary : Index) :
    Endpoint I M :=
  s.send dest (.snapshotResponse ⟨s.term, s.config.id, false,
    min (min s.commit s.ackWatermark) (boundary - 1), ackedThrough, true⟩)

/-- The single-shot form. -/
def installWhole (s : Endpoint I M) (is : InstallSnapshot I) : Endpoint I M :=
  if s.recvAbove is then s
  else
    let s := s.dropSnapshotRecv
    if is.snapshot.conf.isValid then
      match M.decodeSnapshot is.data with
      | none => s.poison .snapshotDecode
      | some snap => s.beginInstall is.snapshot is.data snap is.leader
    else s.poison .invalidConfState

/-- The chunk belongs to the transfer under way. -/
def continuesRecv (s : Endpoint I M) (is : InstallSnapshot I) : Option (SnapshotRecv I) :=
  s.snapshot.snapshotRecv.filter fun r =>
    r.senderTerm = is.term && r.snapshot.identityEq is.snapshot && r.totalLen = is.totalLen

/-- Stages a chunk; the last one completes the transfer. -/
def stageChunk (s : Endpoint I M) (is : InstallSnapshot I) : Endpoint I M :=
  if is.totalLen < is.offset + is.data.length then s.poison .snapshotDecode
  else
    match s.stable.acceptSnapshotChunk is.snapshot is.totalLen is.offset is.data with
    | (none, stable) => { s with stable := stable }.poison .stablePoll
    | (some staged, stable) =>
      let s := { s with
        stable := stable
        snapshot := { s.snapshot with
          snapshotRecv := s.snapshot.snapshotRecv.map (SnapshotRecv.setStaged · staged) } }
      if staged < is.totalLen then
        s.sendSnapshotProgressAck is.leader staged is.snapshot.lastIndex
      else
        match s.stable.takeStagedSnapshot is.snapshot with
        | (none, _) => s.poison .snapshotDecode
        | (some blob, stable) =>
          let s := { s with stable := stable }
          match M.decodeSnapshot blob with
          | none => s.poison .snapshotDecode
          | some snap =>
            let s := s.beginInstall is.snapshot blob snap is.leader
            { s with snapshot := { s.snapshot with snapshotRecv := none } }

/-- One chunk: a probe is answered with the cursor, a chunk of another
transfer starts over. -/
def installChunk (s : Endpoint I M) (is : InstallSnapshot I) : Endpoint I M :=
  if is.data = [] then
    if is.offset ≠ is.totalLen then s.poison .snapshotDecode
    else s.sendSnapshotProgressAck is.leader
      (((s.continuesRecv is).map (·.contiguousStaged)).getD 0) is.snapshot.lastIndex
  else if (s.continuesRecv is).isSome then s.stageChunk is
  else if s.recvAbove is then s
  else if is.snapshot.conf.isValid then
    { s with
      stable := s.stable.discardSnapshotStaging
      snapshot := { s.snapshot with
        pendingInstall := none
        snapshotRecv := some ⟨is.snapshot, is.totalLen, 0, is.term⟩ } }.stageChunk is
  else s.poison .invalidConfState

/-- An install of this boundary, or a later one, is already pending. -/
def installPending (s : Endpoint I M) (m : SnapshotMeta I) : Bool :=
  s.snapshot.pendingInstall.any fun p =>
    m.lastIndex < p.2.1.lastIndex || p.2.1.identityEq m

/-- The members of a configuration. -/
def confMembers (conf : ConfState I) : Finset I :=
  conf.voters ∪ conf.votersOutgoing ∪ conf.learners ∪ conf.learnersNext

/-- Takes the members of the snapshot over, and tells what changed. -/
def retrack (s : Endpoint I M) (m : SnapshotMeta I) : Endpoint I M :=
  let removed := confMembers s.tracker.confState \ confMembers m.conf
  let s := s.emit (.snapshotRestored m)
  let s := if s.config.id ∈ removed then s.emit (.confChanged m.lastIndex m.conf) else s
  let tracker := Tracker.fromConfState m.conf m.lastIndex s.config.maxInflightMsgs
    s.config.maxInflightBytes
  { s with tracker := tracker }.retainFarewells

/-- The snapshot is whole and covers a parked merge. `walked` is there when the service over the
groups has found that no local fold can resolve it: how far its walk over the committed entries
above the park came. -/
def adopts (s : Endpoint I M) (is : InstallSnapshot I) (walked : Option Index) : Bool :=
  is.totalLen = 0 && s.pendingApply.any fun park =>
    park ≤ is.snapshot.lastIndex && walked.any fun upto => is.snapshot.lastIndex ≤ max (min upto s.commit) park

/-- The snapshot stands in for the fold: the machine moves to its boundary and the log stays. The
flag is false when it cannot be taken. -/
def adoptParkedUnion (s : Endpoint I M) (m : SnapshotMeta I) (blob : Bytes) : Bool × Endpoint I M :=
  match M.decodeSnapshot blob with
  | none => (false, s.poison .snapshotDecode)
  | some snap =>
    if m.conf.isValid then
      let s := { s with pendingApply := none }
      match M.restore s.fsm snap with
      | none => (false, s.poison .snapshotRestore)
      | some fsm => (true, { s with fsm := fsm, applied := m.lastIndex }.retrack m)
    else (false, s.poison .invalidConfState)

def onInstallSnapshot (s : Endpoint I M) (now : Instant) (is : InstallSnapshot I)
    (walked : Option Index := none) : Endpoint I M :=
  if s.poisoned then s
  else
    let s := s.followLeader now is.leader
    if is.snapshot.lastIndex = u64Max then s.poison .logExhausted
    else
      match s.reclaimStaleSnapshotRecv with
      | (false, s) => s
      | (true, s) =>
        match s.coveredByLocalHistory is.snapshot s.committedBound with
        | (none, s) => s
        | (some true, s) =>
          if s.recvAbove is then s
          else
            let s := s.dropSnapshotRecv
            if s.adopts is walked then
              match s.adoptParkedUnion is.snapshot is.data with
              | (false, s) => s
              | (true, s) => s.shortcutInstall is.snapshot is.leader
            else s.shortcutInstall is.snapshot is.leader
        | (some false, s) =>
          if s.installPending is.snapshot ∨ is.snapshot.lastIndex < s.visibleSlot then s
          else if is.totalLen = 0 then s.installWhole is
          else s.installChunk is

def restoreRebaselined (log : LogStore I) (n : Index) (term : Term) : Bool :=
  log.firstIndex = next n && log.lastIndex = n && log.term n = some term

/-- Re-baselines the log and the bookkeeping at the boundary. -/
def rebaseline (s : Endpoint I M) (fsm : M.State) (m : SnapshotMeta I) : Endpoint I M :=
  let s := { s with
    fsm := fsm
    pendingLog := []
    pendingStable := s.pendingStable.filter fun p =>
      match p.2 with
      | .castVote .. => true
      | _ => false
    snapshot := { s.snapshot with pendingCompact := none }
    commit := m.lastIndex
    applied := m.lastIndex
    log := s.log.restore m.lastIndex m.lastTerm
    pendingApply := none
    durable := { s.durable with durableIndex := m.lastIndex, inflightAppendUpto := [] } }
  s.scrubAcksAbove m.lastIndex

/-- Installs a snapshot whose slot write is durable. -/
def installSnapshotNow (s : Endpoint I M) (m : SnapshotMeta I) (snap : M.Snapshot) (leader : I) :
    Endpoint I M :=
  if s.poisoned ∨ s.role ≠ .follower then s
  else
    let s := { s with durable := { s.durable with
      durableSnapshotIndex := max s.durable.durableSnapshotIndex m.lastIndex } }
    match s.coveredByLocalHistory m s.commit with
    | (none, s) => s
    | (some true, s) => s.shortcutInstall m leader
    | (some false, s) =>
      match M.restore s.fsm snap with
      | none => s.poison .snapshotRestore
      | some fsm =>
        let s := s.rebaseline fsm m
        if restoreRebaselined s.log m.lastIndex m.lastTerm = false then s.poison .snapshotRebaseline
        else
          (s.retrack m).sendOrGateSnapshotAck leader m.lastIndex

/-- The resume cursor of the transfer to `peer`. -/
def snapshotCursor (s : Endpoint I M) (peer : I) : Option Nat :=
  match s.tracker.progress peer with
  | some pr =>
    match pr.state with
    | .snapshot _ acked _ => some acked
    | _ => none
  | none => none

/-- A moved cursor sends the next chunk; the flag is false when that
poisoned. -/
def pumpSnapshot (s : Endpoint I M) (now : Instant) (sender : I) (ackedThrough : Nat) :
    Bool × Endpoint I M :=
  let before := s.snapshotCursor sender
  let s := { s with tracker := s.tracker.modifyProgress sender (·.snapshotAcked ackedThrough) }
  match s.snapshotCursor sender with
  | some acked =>
    if before = some acked then (true, s)
    else
      match s.sendSnapshotChunk sender acked with
      | (.sent, s) => (true, s.setResendAfter sender (some (now + s.config.electionTimeout)))
      | (.deferred, s) | (.unsendable, s) => (true, s.setResendAfter sender none)
      | (.poisoned, s) => (false, s)
  | none => (true, s)

def onSnapshotAck (s : Endpoint I M) (now : Instant) (sender : I) (r : SnapshotResponse I) :
    Endpoint I M :=
  if r.progress = false ∧ s.log.lastIndex < r.matchIndex then s
  else
    let s := if r.progress then s
      else { s with tracker := s.tracker.modifyProgress sender fun p => (p.maybeUpdate r.matchIndex).1 }
    match s.pumpSnapshot now sender r.ackedThrough with
    | (false, s) => s
    | (true, s) =>
      let s := s.onProgress now
      if s.poisoned then s
      else
        let s := (s.maybeFlushDeferredReads now).maybeSendAppend now sender
        if s.poisoned then s else s.maybeHandOffToTransferee sender

def onSnapshotResponse (s : Endpoint I M) (now : Instant) (sender : I) (r : SnapshotResponse I) :
    Endpoint I M :=
  if s.poisoned ∨ s.role ≠ .leader ∨ (s.tracker.progress sender).isNone then s
  else if r.reject then
    { s with tracker := s.tracker.modifyProgress sender (·.becomeProbe) }.maybeSendAppend now sender
  else s.onSnapshotAck now sender r

end Sailing.Endpoint
