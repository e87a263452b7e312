import Sailing.Model.Message
import Sailing.Model.Tracker
import Sailing.Model.Storage
import Sailing.Model.ReadOnly

/-!
# The state of an endpoint

`Endpoint` of `endpoint/mod.rs`, with the groups of fields the source has. The
log and the stable store, which the driver passes to every call by `&mut`, are
fields here; a call is a function from states to states.
-/

namespace Sailing

/-- The replicated state machine with the codecs of its commands and
snapshots. -/
structure StateMachine where
  State : Type
  Command : Type
  Response : Type
  Snapshot : Type
  /-- The state a fresh process starts from. -/
  init : State
  encodeCommand : Command → Bytes
  decodeCommand : Bytes → Option Command
  apply : State → Index → Command → Option (State × Response)
  snapshot : State → Option Snapshot
  encodeSnapshot : Snapshot → Bytes
  decodeSnapshot : Bytes → Option Snapshot
  restore : State → Snapshot → Option State

/-- The sizes of the wire codec: the encoded payload of an entry, and a
snapshot frame of a term, meta, offset and total length without its data. -/
structure Wire (I : Type) where
  dataLen : EntryKind I → Nat
  installSnapshotOverhead : Term → SnapshotMeta I → Nat → Nat → Nat

/-- What the lease guard of a node decides, by the term it leads and the time: a leader does not
commit while it `holds`, and tries again when it is `due`. The other read modes never wait. -/
structure CommitWait where
  holds : Term → Instant → Bool := fun _ _ => false
  due : Term → Instant → Bool := fun _ _ => false

structure Config (I : Type) where
  id : I
  voters : Finset I
  electionTimeout : Duration
  heartbeatInterval : Duration
  maxSizePerMsg : Nat
  maxInflightMsgs : Nat
  maxInflightBytes : Nat
  snapshotThreshold : Nat
  snapshotChunkBytes : Nat
  stepDownOnRemoval : Bool
  preVote : Bool
  checkQuorum : Bool
  disableProposalForwarding : Bool
  readOnly : ReadOnlyOption
  wire : Wire I
  commitWait : CommitWait := {}

inductive Role where
  | follower
  | preCandidate
  | candidate
  | leader
deriving DecidableEq, Repr

inductive PoisonReason where
  | logRead
  | snapshotRead
  | logPoll
  | stablePoll
  | logTerm
  | normalEntryDecode
  | apply
  | snapshotCapture
  | confChangeDecode
  | confChangeApply
  | snapshotDecode
  | snapshotRestore
  | committedTruncation
  | nonContiguousAppend
  | invalidConfState
  | snapshotRebaseline
  | orphanedLog
  | reservedShapeGen
  | logExhausted
  | legacyLeaseUnrecoverable
  | opIdExhausted
  | readRoundExhausted
  | leaseRoundExhausted
  | queryPanicked
  | mergeUnsupported
deriving DecidableEq, Repr

/-- What is owed once a storage operation completes. -/
inductive Pending (I : Type) where
  | castVote (dest : I) (term : Term)
  | followerAck (dest : I) (matchIndex : Index)
  | leaderAppend (upto : Index)
  | campaign (term : Term)
deriving DecidableEq, Repr

structure Durability (I : Type) where
  durableTerm : Term
  lastSubmittedTerm : Term
  termPersistOpid : OpId
  durableCommitIndex : Index
  lastSubmittedCommit : Index
  commitPersistOpid : OpId
  shortcutGatedSnapshotAck : Option (I × Term × Index)
  leaseSupportFloor : Option Duration
  lastSubmittedLeaseSupport : Option Duration
  lastSubmittedVote : Option I
  durableLeaseSupport : Option Duration
  leaseSupportPersistOpid : OpId
  committedPersisted : Index
  durableIndex : Index
  durableSnapshotIndex : Index
  inflightAppendUpto : List (OpId × Index)
  termGatedAppendAck : Option (I × Term × Index)
  termGatedSnapshotAck : Option (I × Term × Index)
  leaseVoteFenceUntil : Option Instant
  -- `split.founding_gen`, kept beside the other floor `stamp_floors` reads
  foundingGen : Nat

structure CheckQuorumLease (I : Type) where
  leaseRound : Nat
  leaseRoundStart : Instant
  leaseAcks : Finset I
  leaseMinSupport : Duration
  leaseValidUntil : Option Instant

structure Transfer (I : Type) where
  forcedHandoffThisTerm : Bool
  forcedHandoffTarget : Option I
  leadTransferee : Option I
  transferDeadline : Option Instant

structure SnapshotRecv (I : Type) where
  snapshot : SnapshotMeta I
  totalLen : Nat
  contiguousStaged : Nat
  senderTerm : Term

def SnapshotRecv.setStaged {I : Type} (r : SnapshotRecv I) (staged : Nat) : SnapshotRecv I :=
  { r with contiguousStaged := staged }

structure SnapshotState (I : Type) (M : StateMachine) where
  snapshotRecv : Option (SnapshotRecv I)
  /-- The write's id, the snapshot's meta, its decoded form and its sender. -/
  pendingInstall : Option (OpId × SnapshotMeta I × M.Snapshot × I)
  pendingCompact : Option (OpId × SnapshotMeta I)
  snapshotResendAfter : I → Option Instant

structure Reads (I : Type) where
  readOnly : ReadOnly I
  pendingReads : List (Bytes × Option I)
  forwardedReads : ForwardedReads

def farewellRetryShots : Nat := 2

/-- The farewell still owed to a removed peer; `matched` is its match when the
removal was applied. -/
structure FarewellRetry where
  matched : Index
  idx : Index
  shotsLeft : Nat
  nextAt : Option Instant
deriving DecidableEq, Repr

structure Endpoint (I : Type) (M : StateMachine) where
  config : Config I
  fsm : M.State
  role : Role
  term : Term
  votedFor : Option I
  leader : Option I
  commit : Index
  applied : Index
  snapshot : SnapshotState I M
  /-- The values the random source will draw. -/
  rng : Nat → Nat
  votes : I → Option Bool
  electionDeadline : Option Instant
  heartbeatDeadline : Option Instant
  outgoing : List (Outgoing I)
  events : List (Event I M.Response)
  tracker : Tracker I
  nextOpId : OpId
  pendingLog : List (OpId × Pending I)
  pendingStable : List (OpId × Pending I)
  poisonReason : Option PoisonReason
  durable : Durability I
  pendingConfIndex : Index
  reads : Reads I
  /-- The index of the `CommitMerge` entry the apply loop is parked at. -/
  pendingApply : Option Index
  checkQuorumLease : CheckQuorumLease I
  transfer : Transfer I
  replicationPending : Bool
  termStartIndex : Index
  pendingFarewells : List (I × FarewellRetry)
  log : LogStore I
  stable : StableStore I
  /-- The entries applied since the start, oldest first. Nothing reads it: it is the record
  statements about applying refer to. -/
  passed : List (Entry I) := []

namespace Endpoint

variable {I : Type} [LinearOrder I] {M : StateMachine}

def poisoned (s : Endpoint I M) : Bool := s.poisonReason.isSome

/-- Fail-stop; the first cause wins. -/
def poison (s : Endpoint I M) (reason : PoisonReason) : Endpoint I M :=
  { s with poisonReason := s.poisonReason <|> some reason }

def mintOpId (s : Endpoint I M) : OpId × Endpoint I M :=
  let id := s.nextOpId
  let s := if id.next = id then s.poison .opIdExhausted else s
  (id, { s with nextOpId := id.next })

def send (s : Endpoint I M) (dest : I) (m : Message I) : Endpoint I M :=
  if s.poisoned then s else { s with outgoing := s.outgoing ++ [⟨dest, m⟩] }

/-- Sends a batch of messages computed from one state. -/
def sendAll (s : Endpoint I M) (messages : List (Outgoing I)) : Endpoint I M :=
  if s.poisoned then s else { s with outgoing := s.outgoing ++ messages }

def emit (s : Endpoint I M) (e : Event I M.Response) : Endpoint I M :=
  { s with events := s.events ++ [e] }

def pollMessage (s : Endpoint I M) : Option (Outgoing I) × Endpoint I M :=
  if s.poisoned then (none, s)
  else
    match s.outgoing with
    | [] => (none, s)
    | m :: rest => (some m, { s with outgoing := rest })

def pollEvent (s : Endpoint I M) : Option (Event I M.Response) × Endpoint I M :=
  if s.poisoned then (none, s)
  else
    match s.events with
    | [] => (none, s)
    | e :: rest => (some e, { s with events := rest })

/-- The term of the entry at `i`; a failed read poisons. -/
def logTerm (s : Endpoint I M) (i : Index) : Option Term × Endpoint I M :=
  match s.log.term i with
  | some t => (some t, s)
  | none => (none, s.poison .logTerm)

def lastLog (s : Endpoint I M) : Option (Index × Term) × Endpoint I M :=
  if s.log.lastIndex = 0 then (some (0, 0), s)
  else
    match s.logTerm s.log.lastIndex with
    | (some t, s) => (some (s.log.lastIndex, t), s)
    | (none, s) => (none, s)

/-- A new known leader drops the reads forwarded to the old one. -/
def setLeader (s : Endpoint I M) (leader : Option I) : Endpoint I M :=
  if s.leader = leader then s
  else
    { s with
      leader := leader
      reads := { s.reads with forwardedReads := s.reads.forwardedReads.clear }
      events := s.events ++ [.leaderChanged s.term leader] }

def peers (s : Endpoint I M) : List I := ascending (s.tracker.ids.erase s.config.id)

/-- The next index to allocate, short of the `u64::MAX` sentinel. -/
def nextLogIndex (last : Index) : Option Index := (checkedNext last).filter (· ≠ u64Max)

/-- `election_timeout` of `prng.rs`: uniform in `[base, 2 * base)`, drawn in
milliseconds when there are at least two. -/
def randomElectionTimeout (rng : Nat → Nat) (base : Duration) : Duration × (Nat → Nat) :=
  let baseMs := base / 1000000
  if 2 ≤ baseMs then (base + rng 0 % baseMs * 1000000, fun n => rng (n + 1))
  else if base = 0 then (base, rng)
  else (base + rng 0 % base, fun n => rng (n + 1))

def armElectionTimer (s : Endpoint I M) (now : Instant) : Endpoint I M :=
  let (d, rng) := randomElectionTimeout s.rng s.config.electionTimeout
  { s with electionDeadline := some (now + d), heartbeatDeadline := none, rng := rng }

def armHeartbeatTimer (s : Endpoint I M) (now : Instant) : Endpoint I M :=
  { s with heartbeatDeadline := some (now + s.config.heartbeatInterval) }

/-- A voter that is not leader always has an election timer. -/
def reconcileElectionTimer (s : Endpoint I M) (now : Instant) : Endpoint I M :=
  if s.role ≠ .leader ∧ s.electionDeadline.isNone ∧ s.tracker.isVoter s.config.id then
    s.armElectionTimer now
  else s

/-- A fresh endpoint over empty stores (`Endpoint::new`). -/
def new (config : Config I) (now : Instant) (rng : Nat → Nat) (fsm : M.State) : Endpoint I M :=
  let s : Endpoint I M :=
    { config := config, fsm := fsm, role := .follower, term := 0, votedFor := none, leader := none
      commit := 0, applied := 0
      snapshot := ⟨none, none, none, fun _ => none⟩
      rng := rng, votes := fun _ => none, electionDeadline := none, heartbeatDeadline := none
      outgoing := [], events := []
      tracker := Tracker.fromConfState (ConfState.fromVoters config.voters) 0 config.maxInflightMsgs
        config.maxInflightBytes
      nextOpId := OpId.zero, pendingLog := [], pendingStable := [], poisonReason := none
      durable := ⟨0, 0, OpId.zero, 0, 0, OpId.zero, none, none, none, none, none, OpId.zero, 0, 0, 0,
        [], none, none, none, 0⟩
      pendingConfIndex := 0
      reads := ⟨ReadOnly.new, [], ForwardedReads.new 0⟩
      pendingApply := none
      checkQuorumLease := ⟨0, now, ∅, 0, none⟩
      transfer := ⟨false, none, none, none⟩
      replicationPending := false, termStartIndex := 0, pendingFarewells := []
      log := LogStore.empty, stable := StableStore.empty }
  s.armElectionTimer now

/-- The generation a created group is admitted at. -/
def seedLineage (s : Endpoint I M) (generation : Nat) : Endpoint I M :=
  { s with durable := { s.durable with foundingGen := generation } }

end Endpoint

end Sailing
