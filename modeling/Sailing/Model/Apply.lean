import Sailing.Model.Replication

/-!
# Applying committed entries

`apply_committed` of `endpoint/mod.rs` with its error paths, the configuration
change it folds into the tracker, the farewells it sends to removed peers and
their retries; and `maybe_snapshot`, which captures the applied state.
-/

namespace Sailing.Endpoint

variable {I : Type} [LinearOrder I] {M : StateMachine}

/-! ## Farewells -/

/-- The suffix that ends with the removal, when it is readable and fits one
frame. -/
def sendFarewellAppend (s : Endpoint I M) (peer : I) (matched removal : Index) :
    Bool × Endpoint I M :=
  if next matched < s.log.firstIndex then (false, s)
  else
    match s.prevLogTerm matched with
    | (none, s) => (false, s)
    | (some prevTerm, s) =>
      match s.log.entries (next matched)
          (min (next removal) (min (next matched + maxReadBatchEntries) u64Max)) with
      | .pending => (false, s)
      | .error => (false, s.poison .logRead)
      | .ready suffix =>
        if suffix.getLast?.map (·.index) ≠ some removal then (false, s)
        else if appendFrameEntryBudget < (suffix.map s.entryFrameCost).sum then (false, s)
        else (true, s.send peer
          (.appendEntries ⟨s.term, s.config.id, matched, prevTerm, suffix, removal⟩))

/-- Tells a removed peer of its removal: the entries if it lacks them, else a
heartbeat whose commit is clamped to the match kept for it. -/
def sendFarewell (s : Endpoint I M) (peer : I) (matched idx : Index) : Endpoint I M :=
  match (if matched < idx then s.sendFarewellAppend peer matched idx else (false, s)) with
  | (true, s) => s
  | (false, s) =>
    if s.poisoned then s
    else s.send peer (.heartbeat ⟨s.term, s.config.id, min s.commit matched, [], 0⟩)

/-- Inserts or replaces the retry of `peer`. -/
def insertFarewell (peer : I) (retry : FarewellRetry) :
    List (I × FarewellRetry) → List (I × FarewellRetry)
  | [] => [(peer, retry)]
  | p :: ps =>
    if peer < p.1 then (peer, retry) :: p :: ps
    else if peer = p.1 then (peer, retry) :: ps
    else p :: insertFarewell peer retry ps

def driveFarewells (now : Instant) :
    List (I × FarewellRetry) → Endpoint I M → List (I × FarewellRetry) × Endpoint I M
  | [], s => ([], s)
  | (peer, retry) :: rest, s =>
    if retry.nextAt.all (· ≤ now) then
      let s := if s.poisoned then s else s.sendFarewell peer retry.matched retry.idx
      let (kept, s) := driveFarewells now rest s
      if retry.shotsLeft - 1 = 0 then (kept, s)
      else ((peer, { retry with
        shotsLeft := retry.shotsLeft - 1
        nextAt := some (now + s.config.electionTimeout) }) :: kept, s)
    else
      let (kept, s) := driveFarewells now rest s
      ((peer, retry) :: kept, s)

def drivePendingFarewells (s : Endpoint I M) (now : Instant) : Endpoint I M :=
  if s.applied < s.termStartIndex ∨ s.role ≠ .leader then s
  else
    let (kept, s) := driveFarewells now s.pendingFarewells s
    { s with pendingFarewells := kept }

/-- Drops the farewells of peers that are members. -/
def retainFarewells (s : Endpoint I M) : Endpoint I M :=
  { s with pendingFarewells :=
      s.pendingFarewells.filter fun p => (s.tracker.progress p.1).isNone }

/-! ## Configuration changes -/

def changer (s : Endpoint I M) : Changer :=
  ⟨s.log.lastIndex, s.config.maxInflightMsgs, s.config.maxInflightBytes⟩

/-- Empty and automatic leaves the joint configuration; a transition or
several changes enter it. -/
def changeTracker (s : Endpoint I M) (cc : ConfChangeV2 I) : Except ConfChangeError (Tracker I) :=
  if cc.changes = [] ∧ cc.transition = .auto then s.changer.leaveJoint s.tracker
  else if cc.transition ≠ .auto ∨ 1 < cc.changes.length then
    s.changer.enterJoint s.tracker (cc.transition ≠ .explicit) cc.changes
  else s.changer.simple s.tracker cc.changes

/-- The members `tracker` has no longer, with their matches. -/
def removedPeers (s : Endpoint I M) (tracker : Tracker I) : List (I × Index) :=
  s.peers.filterMap fun peer =>
    match s.tracker.progress peer with
    | some pr => if (tracker.progress peer).isSome then none else some (peer, pr.matchIndex)
    | none => none

/-- The farewell captured for each removed peer; while the leader has not
applied its own term the first shot is left to the retries. -/
def captureFarewells (idx : Index) : List (I × Index) → Endpoint I M → Endpoint I M
  | [], s => s
  | (peer, matched) :: rest, s =>
    if s.poisoned then s
    else
      let gated := s.applied < s.termStartIndex
      let s := if gated then s else s.sendFarewell peer matched idx
      if s.poisoned then s
      else
        let shots := if gated then farewellRetryShots + 1 else farewellRetryShots
        captureFarewells idx rest
          { s with pendingFarewells :=
              insertFarewell peer ⟨matched, idx, shots, none⟩ s.pendingFarewells }

def dropLease (s : Endpoint I M) : Endpoint I M :=
  { s with checkQuorumLease :=
      { s.checkQuorumLease with leaseValidUntil := none, leaseAcks := ∅ } }

def dropTransfer (s : Endpoint I M) : Endpoint I M :=
  { s with transfer := { s.transfer with leadTransferee := none, transferDeadline := none } }

/-- The state after the new tracker took effect at `idx`. -/
def adoptTracker (s : Endpoint I M) (tracker : Tracker I) : Endpoint I M :=
  let s := { s with tracker := tracker }.dropLease
  { s with snapshot := { s.snapshot with snapshotResendAfter := fun id =>
      if (tracker.progress id).isSome then s.snapshot.snapshotResendAfter id else none } }
    |>.retainFarewells

/-- A member no longer voting gives its role up. -/
def stepDownIfRemoved (s : Endpoint I M) : Endpoint I M :=
  if s.role ≠ .follower ∧ s.config.stepDownOnRemoval ∧ s.tracker.isVoter s.config.id = false then
    let s := { s with role := .follower }.setLeader none
    { s with heartbeatDeadline := none, electionDeadline := none, pendingFarewells := [] }
      |>.dropTransfer
  else s

def applyConfChange (s : Endpoint I M) (idx : Index) (cc : ConfChangeV2 I) : Endpoint I M :=
  match s.changeTracker cc with
  | .error _ => s.poison .confChangeApply
  | .ok tracker =>
    let s := if s.role = .leader then captureFarewells idx (s.removedPeers tracker) s else s
    if s.poisoned then s
    else
      let s := s.adoptTracker tracker
      let s := s.emit (.confChanged idx s.tracker.confState)
      let s := s.stepDownIfRemoved
      if s.transfer.leadTransferee.any fun t => !s.tracker.isVoter t then s.dropTransfer else s

/-! ## The apply loop -/

inductive ApplyDrain where
  | drained
  | budgetCut
  | waiting
deriving DecidableEq, Repr

/-- Applies one entry; on failure the endpoint is poisoned and `applied` stays
below it. A merge commit parks the loop. -/
def applyEntry (s : Endpoint I M) (e : Entry I) : Endpoint I M :=
  if e.index ≠ next s.applied ∨ s.commit < e.index then s.poison .nonContiguousAppend
  else
    match e.kind with
    | .normal data =>
      match M.decodeCommand data with
      | none => s.poison .normalEntryDecode
      | some cmd =>
        match M.apply s.fsm e.index cmd with
        | none => s.poison .apply
        | some (fsm, response) =>
          { { s with fsm := fsm }.emit (.applied e.index response) with
            applied := e.index
            passed := s.passed ++ [e] }
    | .empty => { s with applied := e.index, passed := s.passed ++ [e] }
    | .confChange none => s.poison .confChangeDecode
    | .confChange (some cc) =>
      let s := s.applyConfChange e.index cc
      if s.poisoned then s else { s with applied := e.index, passed := s.passed ++ [e] }
    | .commitMerge => { s with pendingApply := some e.index }

/-- Applies a batch up to the first failure or park. -/
def applyBatch (s : Endpoint I M) : List (Entry I) → Endpoint I M
  | [] => s
  | e :: es =>
    let s := s.applyEntry e
    if s.poisoned ∨ s.pendingApply.isSome then s else s.applyBatch es

def applyBudgetEntries : Nat := 8192

def applyReadSpan (applied commit : Index) (appliedThisCall : Nat) : Index :=
  min (next commit)
    (min (applied + min maxReadBatchEntries (applyBudgetEntries - appliedThisCall) + 1) u64Max)

/-- One read and its batch in every round. -/
def applyLoop (start : Index) : Nat → Endpoint I M → ApplyDrain × Endpoint I M
  | 0, s => (.drained, s)
  | fuel + 1, s =>
    if s.applied < s.commit ∧ s.poisoned = false then
      match s.log.entries (next s.applied) (applyReadSpan s.applied s.commit (s.applied - start)) with
      | .error => (.drained, s.poison .logRead)
      | .pending | .ready [] => (.waiting, s)
      | .ready batch =>
        let s := s.applyBatch batch
        if s.pendingApply.isSome then (.waiting, s)
        else if s.poisoned = false ∧ applyBudgetEntries ≤ s.applied - start ∧ s.applied < s.commit then
          (.budgetCut, s)
        else applyLoop start fuel s
    else (.drained, s)

/-- Every round applies at least one entry or stops. -/
def applyCommitted (s : Endpoint I M) : ApplyDrain × Endpoint I M :=
  if s.poisoned then (.drained, s)
  else if s.pendingApply.isSome then (.waiting, s)
  else applyLoop s.applied (s.commit - s.applied + 1) s

/-- Raises `commit` and applies what that makes available. -/
def commitTo (s : Endpoint I M) (commit : Index) : Endpoint I M :=
  let s := if s.commit < commit then { s with commit := commit } else s
  if s.applied < s.commit then s.applyCommitted.2 else s

/-! ## Capturing a snapshot -/

/-- Submits a snapshot to the slot under a new id. -/
def submitSnapshot (s : Endpoint I M) (m : SnapshotMeta I) (blob : Bytes) : OpId × Endpoint I M :=
  let (id, s) := s.mintOpId
  (id, if s.poisoned then s else { s with stable := s.stable.submitSnapshot id m blob })

def captureBlocked (s : Endpoint I M) : Bool :=
  s.snapshot.pendingCompact.isSome || s.snapshot.pendingInstall.isSome

/-- The log is compacted when the captured snapshot is durable. -/
def capture (s : Endpoint I M) (m : SnapshotMeta I) (blob : Bytes) : Endpoint I M :=
  let (id, s) := s.submitSnapshot m blob
  { s with snapshot := { s.snapshot with pendingCompact := some (id, m) } }

/-- Submits the applied state as a snapshot once enough entries went in. -/
def maybeSnapshot (s : Endpoint I M) : Endpoint I M :=
  if s.poisoned ∨ s.captureBlocked ∨ s.applied = 0 ∨
      s.applied - s.log.firstIndex < max s.config.snapshotThreshold 1 then s
  else
    match M.snapshot s.fsm with
    | none => s.poison .snapshotCapture
    | some snap =>
      match s.logTerm s.applied with
      | (none, s) => s
      | (some lastTerm, s) =>
        s.capture ⟨s.applied, lastTerm, s.tracker.confState⟩ (M.encodeSnapshot snap)

end Sailing.Endpoint
