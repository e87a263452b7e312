import Sailing.Model.Handle

/-!
# Restart

`restart_inner` of `endpoint/restart.rs`: a new endpoint from what the stores
kept. The snapshot slot and the log are reconciled first, the committed prefix
is applied again, and the lease promises of the earlier incarnation become a
fence on voting.
-/

namespace Sailing.Endpoint

variable {I : Type} [LinearOrder I] {M : StateMachine}

inductive RestartLogAction where
  | none
  | compact (n : Index)
  | restore (n : Index) (term : Term)
  | poison (reason : PoisonReason)
deriving DecidableEq, Repr

/-- What to do with the log, given the snapshot's boundary and term. -/
def reconcileRestartLog (snap : Option (Index × Term)) (committedInLog firstIndex lastIndex : Index)
    (boundaryTerm : Option (Option Term)) : RestartLogAction :=
  if next lastIndex < firstIndex then .poison .orphanedLog
  else
    match snap with
    | none => if 1 < firstIndex then .poison .orphanedLog else .none
    | some (n, t) =>
      if next n < firstIndex then .poison .orphanedLog
      else if lastIndex < n then .restore n t
      else
        match boundaryTerm with
        | some (some bt) =>
          if bt = t then if firstIndex = next n then .none else .compact n
          else if n ≤ committedInLog then .poison .orphanedLog
          else .restore n t
        | _ => .poison .logTerm

/-- The lease floor to go on with and the window no vote is granted in; `none`
when an unrecorded promise cannot be bounded. -/
def reconcileDurable (recovered : LeaseSupport) (enforcing : Bool) (electionTimeout : Duration)
    (assumePrior : Option Duration) : Option (Option Duration × Option Duration) :=
  let thisRun := if enforcing then some electionTimeout else none
  let floor := match recovered, assumePrior with
    | .recorded d, _ => some (LeaseSupport.optMax d thisRun)
    | .unrecorded, some p => some (LeaseSupport.optMax thisRun (some p))
    | .unrecorded, none => none
  floor.map fun d => (d, d.filter (· ≠ 0))

/-- Can every entry of the log be read? -/
def scanLog (log : LogStore I) : Nat → Index → Bool
  | 0, _ => true
  | fuel + 1, idx =>
    if idx ≤ log.lastIndex then
      match log.entries idx (min (next log.lastIndex) (min (idx + maxReadBatchEntries) u64Max)) with
      | .ready chunk =>
        match chunk.getLast? with
        | some e => scanLog log fuel (next e.index)
        | none => false
      | _ => false
    else true

/-- The state machine and tracker of the slot, or why it cannot be used. -/
def recoverSnapshot (config : Config I) (fsm : M.State) :
    Option (SnapshotMeta I × Bytes) → Except PoisonReason (M.State × Index × Tracker I)
  | none => .ok (fsm, 0, Tracker.fromConfState (ConfState.fromVoters config.voters) 0
      config.maxInflightMsgs config.maxInflightBytes)
  | some (m, data) =>
    if m.lastIndex = u64Max then .error .logExhausted
    else if m.conf.isValid = false then .error .invalidConfState
    else
      match M.decodeSnapshot data with
      | none => .error .snapshotDecode
      | some snap =>
        match M.restore fsm snap with
        | none => .error .snapshotRestore
        | some fsm => .ok (fsm, m.lastIndex, Tracker.fromConfState m.conf m.lastIndex
            config.maxInflightMsgs config.maxInflightBytes)

/-- Brings the log in line with the slot. -/
def recoverLog (log : LogStore I) (snap : Option (SnapshotMeta I)) (commit : Index) :
    Option PoisonReason × LogStore I :=
  if log.lastIndex = u64Max then (some .logExhausted, log)
  else
    let boundaryTerm := snap.bind fun m =>
      if log.firstIndex ≤ next m.lastIndex ∧ m.lastIndex ≤ log.lastIndex then
        some (log.term m.lastIndex) else none
    match reconcileRestartLog (snap.map fun m => (m.lastIndex, m.lastTerm))
        (min commit log.lastIndex) log.firstIndex log.lastIndex boundaryTerm with
    | .none => (none, log)
    | .compact n => (none, log.compact n)
    | .restore n t =>
      let log := log.restore n t
      (if restoreRebaselined log n t then none else some .snapshotRebaseline, log)
    | .poison reason => (some reason, log)

/-- Applies the committed prefix, crank after crank. -/
def replay : Nat → Endpoint I M → Endpoint I M
  | 0, s => s
  | fuel + 1, s =>
    match s.applyCommitted with
    | (.budgetCut, s) => replay fuel s
    | (_, s) => s

/-- The endpoint over recovered stores, before the replay. -/
def recovered (config : Config I) (now : Instant) (rng : Nat → Nat) (fsm : M.State)
    (bootEpoch : Nat) (poison : Option PoisonReason) (applied : Index) (tracker : Tracker I)
    (lease : Option Duration × Option Duration) (log : LogStore I) (stable : StableStore I) :
    Endpoint I M :=
  let hs := stable.hardState
  let commit := max (min hs.commit log.lastIndex) applied
  { config := config, fsm := fsm, role := .follower, term := hs.term, votedFor := hs.vote
    leader := none, commit := commit, applied := applied
    snapshot := ⟨none, none, none, fun _ => none⟩
    rng := rng, votes := fun _ => none, electionDeadline := none, heartbeatDeadline := none
    outgoing := [], events := [], tracker := tracker
    nextOpId := OpId.firstOfEpoch bootEpoch, pendingLog := [], pendingStable := []
    poisonReason := poison
    durable :=
      { durableTerm := hs.term, lastSubmittedTerm := hs.term, termPersistOpid := OpId.zero
        durableCommitIndex := commit, lastSubmittedCommit := commit, commitPersistOpid := OpId.zero
        shortcutGatedSnapshotAck := none
        leaseSupportFloor := lease.1, lastSubmittedLeaseSupport := hs.leaseSupport.promised
        lastSubmittedVote := hs.vote, durableLeaseSupport := hs.leaseSupport.promised
        leaseSupportPersistOpid := OpId.zero
        committedPersisted := commit, durableIndex := log.lastIndex, durableSnapshotIndex := 0
        inflightAppendUpto := [], termGatedAppendAck := none, termGatedSnapshotAck := none
        leaseVoteFenceUntil := lease.2.map (now + ·)
        foundingGen := if poison.isSome then 0 else hs.foundingGen }
    pendingConfIndex := 0
    reads := ⟨ReadOnly.new, [], ForwardedReads.new bootEpoch⟩
    pendingApply := none
    checkQuorumLease := ⟨0, now, ∅, 0, none⟩
    transfer := ⟨false, none, none, none⟩
    replicationPending := false, termStartIndex := 0, pendingFarewells := []
    log := log, stable := stable }

/-- Records a raised lease floor before anything is promised under it. -/
def persistLeaseFloor (s : Endpoint I M) : Endpoint I M :=
  if s.poisoned = false ∧ optLt s.durable.durableLeaseSupport s.durable.leaseSupportFloor then
    let (id, s) := s.mintOpId
    s.submitWrite id s.stable.hardState
  else s

/-- Replays the committed prefix of a recovered endpoint and arms it. -/
def boot (s : Endpoint I M) (now : Instant) : Endpoint I M :=
  let s := if s.poisoned then s else replay (s.commit - s.applied + 1) s
  ({ s.persistLeaseFloor with events := [] }).armElectionTimer now

/-- The first failure poisons the endpoint; the fields a failed step would
have set keep their seeds. -/
def restart (config : Config I) (now : Instant) (rng : Nat → Nat) (fsm : M.State) (bootEpoch : Nat)
    (assumePrior : Option Duration) (log : LogStore I) (stable : StableStore I) : Endpoint I M :=
  let stable := stable.discardSnapshotStaging
  let seed := Tracker.fromConfState (ConfState.fromVoters config.voters) 0 config.maxInflightMsgs
    config.maxInflightBytes
  let lease := reconcileDurable stable.hardState.leaseSupport (config.checkQuorum || config.preVote)
    config.electionTimeout assumePrior
  match recoverSnapshot config fsm stable.snapshot with
  | .error reason =>
    (recovered config now rng fsm bootEpoch (some reason) 0 seed (lease.getD (none, none)) log
      stable).boot now
  | .ok (fsm, applied, tracker) =>
    if highestWorkingGeneration ≤ stable.hardState.foundingGen then
      (recovered config now rng fsm bootEpoch (some .reservedShapeGen) applied tracker
        (lease.getD (none, none)) log stable).boot now
    else
      let (bad, log) := recoverLog log (stable.snapshot.map Prod.fst) stable.hardState.commit
      let bad := bad <|> (if lease.isNone then some .legacyLeaseUnrecoverable else none)
      let bad := bad <|> (if scanLog log (log.lastIndex + 1) log.firstIndex then none
        else some .logRead)
      (recovered config now rng fsm bootEpoch bad applied tracker (lease.getD (none, none)) log
        stable).boot now

end Sailing.Endpoint
