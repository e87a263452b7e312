import Sailing.Wire.Budget
import Mathlib.Tactic.DeriveCountable
import Mathlib.Logic.Equiv.List
import Mathlib.Data.Countable.Basic

/-!
# Between the crate's types and the protobuf ones

`wire/mod.rs` maps every message and entry payload to a struct of the generated protobuf code
and back, by hand. `Pb` has these structs; `pbMessage` and `messageFrom` are the two directions
for messages, and each payload has its own pair. What the generated code does with a struct is
given (`Generated`): it writes bytes, and reads the same struct from them.
-/

namespace Sailing.Wire

inductive DecodeError where
  | unexpectedEof
  | invalid (what : String)
deriving DecidableEq, Repr

/-! ## The payloads of entries -/

structure ConfChangeV2 (I : Type) extends Sailing.ConfChangeV2 I where
  context : Bytes
deriving DecidableEq, Repr

structure SplitPayload where
  childBytes : Bytes
  childGen : Nat
  parentGenAfter : Nat
  instruction : Bytes
deriving DecidableEq, Repr

structure PrepareMergePayload where
  targetBytes : Bytes
  sourceGenAfter : Nat
deriving DecidableEq, Repr

structure CommitMergePayload where
  sourceBytes : Bytes
  freezeIndex : Index
  freezeTerm : Term
  sourceGenAfter : Nat
  targetGenAfter : Nat
deriving DecidableEq, Repr

structure RollbackMergePayload where
  sourceBytes : Bytes
  sourceGenAfter : Nat
  targetGenAfter : Nat
deriving DecidableEq, Repr

/-- The thaw on the source's own log. -/
def RollbackMergePayload.unfreeze (sourceGenAfter : Nat) : RollbackMergePayload := ⟨[], sourceGenAfter, 0⟩

/-- The abort on the target's log. -/
def RollbackMergePayload.abort (sourceBytes : Bytes) (sourceGenAfter targetGenAfter : Nat) : RollbackMergePayload :=
  ⟨sourceBytes, sourceGenAfter, targetGenAfter⟩

structure ThawDischargedPayload where
  sourceBytes : Bytes
  generation : Nat
deriving DecidableEq, Repr

/-! ## The generated structs -/

namespace Pb

instance : Countable UInt8 :=
  Function.Injective.countable (f := UInt8.toNat) fun _ _ same => UInt8.toNat_inj.mp same

/-- An enumeration of proto3 is open. -/
inductive EnumValue (E : Type) where
  | known (value : E)
  | unknown (number : Int)
deriving DecidableEq, Countable

inductive EntryKind where
  | normal
  | confChange
  | empty
  | setReadMode
  | split
  | prepareMerge
  | commitMerge
  | rollbackMerge
  | thawDischarged
deriving DecidableEq, Countable

inductive ConfChangeType where
  | addNode
  | removeNode
  | addLearnerNode
deriving DecidableEq, Countable

inductive ConfChangeTransition where
  | auto
  | implicit
  | explicit
deriving DecidableEq, Countable

structure Entry where
  term : Nat
  index : Nat
  kind : EnumValue EntryKind
  data : Bytes
  timestamp : Nat
  leaseWindow : Nat
  wallTimestamp : Nat
deriving DecidableEq, Countable

structure ConfState where
  voters : List Bytes
  learners : List Bytes
  votersOutgoing : List Bytes
  learnersNext : List Bytes
  autoLeave : Bool
deriving DecidableEq, Countable

structure ForkId where
  parent : Bytes
  parentIncarnation : Nat
  splitIndex : Nat
  splitTerm : Nat
  child : Bytes
  childGen : Nat
deriving DecidableEq, Countable

structure SnapshotMeta where
  lastIndex : Nat
  lastTerm : Nat
  conf : Option ConfState
  maxLeaseWindow : Nat
  maxWallPlusWindow : Nat
  maxUnwalledLeaseWindow : Nat
  readOnly : Nat
  shapeGen : Nat
  forkId : Option ForkId
deriving DecidableEq, Countable

structure AppendEntries where
  term : Nat
  leaderId : Bytes
  prevLogIndex : Nat
  prevLogTerm : Nat
  entries : List Entry
  leaderCommit : Nat
deriving DecidableEq, Countable

structure AppendResponse where
  term : Nat
  fromId : Bytes
  reject : Bool
  rejectHintIndex : Nat
  rejectHintTerm : Nat
  matchIndex : Nat
  rejectedIndex : Nat
deriving DecidableEq, Countable

structure RequestVote where
  term : Nat
  candidateId : Bytes
  lastLogIndex : Nat
  lastLogTerm : Nat
  preVote : Bool
  leaderTransfer : Bool
deriving DecidableEq, Countable

structure VoteResponse where
  term : Nat
  fromId : Bytes
  preVote : Bool
  reject : Bool
deriving DecidableEq, Countable

structure Heartbeat where
  term : Nat
  leaderId : Bytes
  commit : Nat
  context : Bytes
  leaseRound : Nat
deriving DecidableEq, Countable

structure HeartbeatResponse where
  term : Nat
  fromId : Bytes
  context : Bytes
  leaseRound : Nat
  leaseSupportSecs : Nat
  leaseSupportNanos : Nat
  stuckBoundary : Nat
deriving DecidableEq, Countable

structure InstallSnapshot where
  term : Nat
  leaderId : Bytes
  snapshot : Option SnapshotMeta
  data : Bytes
  offset : Nat
  totalLen : Nat
deriving DecidableEq, Countable

structure SnapshotResponse where
  term : Nat
  fromId : Bytes
  reject : Bool
  matchIndex : Nat
  ackedThrough : Nat
  progress : Bool
deriving DecidableEq, Countable

structure TimeoutNow where
  term : Nat
  leaderId : Bytes
deriving DecidableEq, Countable

structure ReadIndex where
  term : Nat
  fromId : Bytes
  context : Bytes
deriving DecidableEq, Countable

structure ReadIndexResponse where
  term : Nat
  fromId : Bytes
  index : Nat
  context : Bytes
  reject : Bool
deriving DecidableEq, Countable

inductive Body where
  | appendEntries (m : AppendEntries)
  | appendResponse (m : AppendResponse)
  | requestVote (m : RequestVote)
  | voteResponse (m : VoteResponse)
  | heartbeat (m : Heartbeat)
  | heartbeatResponse (m : HeartbeatResponse)
  | installSnapshot (m : InstallSnapshot)
  | snapshotResponse (m : SnapshotResponse)
  | timeoutNow (m : TimeoutNow)
  | readIndex (m : ReadIndex)
  | readIndexResponse (m : ReadIndexResponse)
deriving DecidableEq, Countable

structure Message where
  body : Option Body
deriving DecidableEq, Countable

structure ConfChangeSingle where
  changeType : EnumValue ConfChangeType
  nodeId : Bytes
deriving DecidableEq, Countable

structure ConfChangeV2 where
  transition : EnumValue ConfChangeTransition
  changes : List ConfChangeSingle
  context : Bytes
deriving DecidableEq, Countable

structure SplitPayload where
  child : Bytes
  childGen : Nat
  parentGenAfter : Nat
  instruction : Bytes
deriving DecidableEq, Countable

structure PrepareMergePayload where
  target : Bytes
  sourceGenAfter : Nat
deriving DecidableEq, Countable

structure CommitMergePayload where
  source : Bytes
  freezeIndex : Nat
  sourceGenAfter : Nat
  targetGenAfter : Nat
  freezeTerm : Nat
deriving DecidableEq, Countable

structure RollbackMergePayload where
  sourceGenAfter : Nat
  source : Bytes
  targetGenAfter : Nat
deriving DecidableEq, Countable

structure ThawDischargedPayload where
  source : Bytes
  generation : Nat
deriving DecidableEq, Countable

end Pb

inductive BuffaError where
  | unexpectedEof
  | other

def mapErr : BuffaError → DecodeError
  | .unexpectedEof => .unexpectedEof
  | .other => .invalid "wire envelope"

/-- The generated encoder and decoder of a struct. -/
structure Generated (W : Type) where
  encode : W → Bytes
  decode : Bytes → Except BuffaError W
  decode_encode : ∀ w, decode (encode w) = .ok w

/-! A pair that writes some structs as they are written: every other struct is a run of zeros as long
as its number, and no other bytes are read. -/

section

variable {W : Type} [DecidableEq W] [Encodable W] (samples : List (W × Bytes))

def sampleEncode (w : W) : Bytes :=
  ((samples.find? fun p => p.1 = w).map (·.2)).getD (List.replicate (Encodable.encode w) 0)

def sampleDecode (b : Bytes) : Except BuffaError W :=
  match (samples.find? fun p => p.2 = b).map (·.1), b.all (· = 0) with
  | some w, _ => .ok w
  | none, true => (Encodable.decode b.length).elim (.error .other) .ok
  | none, false => .error .other

variable {samples}

theorem sampleDecode_sampleEncode (apart : ∀ p ∈ samples, ∀ q ∈ samples, p.2 = q.2 → p.1 = q.1)
    (marked : ∀ p ∈ samples, ∃ x ∈ p.2, x ≠ 0) (w : W) : sampleDecode samples (sampleEncode samples w) = .ok w := by
  unfold sampleEncode
  cases found : samples.find? fun p => p.1 = w with
  | some p =>
    have mem := List.mem_of_find?_eq_some found
    have here : p.1 = w := by simpa using List.find?_some found
    show sampleDecode samples p.2 = .ok w
    unfold sampleDecode
    cases again : samples.find? fun q => q.2 = p.2 with
    | some q =>
      have same : q.2 = p.2 := by simpa using List.find?_some again
      rw [← here, ← apart q (List.mem_of_find?_eq_some again) p mem same]
      rfl
    | none => exact absurd (decide_eq_true rfl) (List.find?_eq_none.mp again p mem)
  | none =>
    show sampleDecode samples (List.replicate (Encodable.encode w) 0) = .ok w
    have fresh : (samples.find? fun p => p.2 = List.replicate (Encodable.encode w) 0) = none := by
      refine List.find?_eq_none.mpr fun p mem same => ?_
      obtain ⟨x, listed, nonzero⟩ := marked p mem
      rw [of_decide_eq_true same] at listed
      exact nonzero (List.eq_of_mem_replicate listed)
    have zeros : (List.replicate (Encodable.encode w) (0 : UInt8)).all (· = 0) = true := by simp
    unfold sampleDecode
    rw [fresh, zeros, List.length_replicate, Encodable.encodek]
    rfl

end

noncomputable def Generated.ofSamples {W : Type} [DecidableEq W] [Countable W] (samples : List (W × Bytes))
    (apart : ∀ p ∈ samples, ∀ q ∈ samples, p.2 = q.2 → p.1 = q.1) (marked : ∀ p ∈ samples, ∃ x ∈ p.2, x ≠ 0) : Generated W :=
  letI := Encodable.ofCountable W
  ⟨sampleEncode samples, sampleDecode samples, sampleDecode_sampleEncode apart marked⟩

/-- A struct has such a pair: it is one of countably many. -/
noncomputable def Generated.ofCountable (W : Type) [DecidableEq W] [Countable W] : Generated W :=
  .ofSamples [] (by simp) (by simp)

/-- The generated code of the structs that are written as a whole. -/
structure GeneratedCode where
  message : Generated Pb.Message
  confChangeV2 : Generated Pb.ConfChangeV2
  splitPayload : Generated Pb.SplitPayload
  prepareMergePayload : Generated Pb.PrepareMergePayload
  commitMergePayload : Generated Pb.CommitMergePayload
  rollbackMergePayload : Generated Pb.RollbackMergePayload
  thawDischargedPayload : Generated Pb.ThawDischargedPayload

noncomputable def GeneratedCode.ofCountable : GeneratedCode :=
  ⟨.ofCountable _, .ofCountable _, .ofCountable _, .ofCountable _, .ofCountable _, .ofCountable _, .ofCountable _⟩

/-- Reads a struct, its errors mapped. -/
def Generated.read {W : Type} (g : Generated W) (data : Bytes) : Except DecodeError W := (g.decode data).mapError mapErr

/-! ## Identifiers -/

section Codec

variable {I : Type} [LinearOrder I] (encodeId : I → Bytes) (decodeExact : Bytes → Except DecodeError I)

/-- An encoding of 1 to 1024 bytes. -/
def WithinWireBound (b : Bytes) : Prop := b ≠ [] ∧ b.length ≤ maxIdLen

instance (b : Bytes) : Decidable (WithinWireBound b) := inferInstanceAs (Decidable (_ ∧ _))

def decodeId (b : Bytes) : Except DecodeError I :=
  if b = [] ∨ maxIdLen < b.length then .error (.invalid "node id length") else decodeExact b

/-- Reads the identifiers that follow `prev` into `out`. -/
def decodeSetFrom : Option I → Finset I → List Bytes → Except DecodeError (Finset I)
  | _, out, [] => .ok out
  | prev, out, b :: elems => do
    let id ← decodeId decodeExact b
    if prev.any (id ≤ ·) then .error (.invalid "set order")
    else decodeSetFrom (some id) (insert id out) elems

/-- The elements are strictly ascending. -/
def decodeSet (elems : List Bytes) : Except DecodeError (Finset I) := decodeSetFrom decodeExact none ∅ elems

/-! ## Entries and snapshot metas -/

def pbCcType : ConfChangeType → Pb.EnumValue Pb.ConfChangeType
  | .addNode => .known .addNode
  | .removeNode => .known .removeNode
  | .addLearnerNode => .known .addLearnerNode

def ccTypeFrom : Pb.EnumValue Pb.ConfChangeType → Except DecodeError ConfChangeType
  | .known .addNode => .ok .addNode
  | .known .removeNode => .ok .removeNode
  | .known .addLearnerNode => .ok .addLearnerNode
  | .unknown _ => .error (.invalid "ConfChangeType")

def pbTransition : ConfChangeTransition → Pb.ConfChangeTransition
  | .auto => .auto
  | .implicit => .implicit
  | .explicit => .explicit

def transitionFrom : Pb.EnumValue Pb.ConfChangeTransition → Except DecodeError ConfChangeTransition
  | .known .auto => .ok .auto
  | .known .implicit => .ok .implicit
  | .known .explicit => .ok .explicit
  | .unknown _ => .error (.invalid "ConfChangeTransition")

def pbEntryKind : EntryKind → Pb.EntryKind
  | .normal => .normal
  | .confChange => .confChange
  | .empty => .empty
  | .setReadMode => .setReadMode
  | .split => .split
  | .prepareMerge => .prepareMerge
  | .commitMerge => .commitMerge
  | .rollbackMerge => .rollbackMerge
  | .thawDischarged => .thawDischarged

def entryKindFrom : Pb.EnumValue Pb.EntryKind → Except DecodeError EntryKind
  | .known .normal => .ok .normal
  | .known .confChange => .ok .confChange
  | .known .empty => .ok .empty
  | .known .setReadMode => .ok .setReadMode
  | .known .split => .ok .split
  | .known .prepareMerge => .ok .prepareMerge
  | .known .commitMerge => .ok .commitMerge
  | .known .rollbackMerge => .ok .rollbackMerge
  | .known .thawDischarged => .ok .thawDischarged
  | .unknown _ => .error (.invalid "EntryKind")

def pbEntry (e : Entry) : Pb.Entry :=
  { term := e.term
    index := e.index
    kind := .known (pbEntryKind e.kind)
    data := e.data
    timestamp := e.timestamp
    leaseWindow := e.leaseWindow
    wallTimestamp := e.wallTimestamp }

def entryFrom (w : Pb.Entry) : Except DecodeError Entry := do
  let kind ← entryKindFrom w.kind
  return ⟨w.term, w.index, kind, w.data, w.timestamp, w.leaseWindow, w.wallTimestamp⟩

def pbConfState (c : ConfState I) : Pb.ConfState :=
  { voters := encodeSet encodeId c.voters
    learners := encodeSet encodeId c.learners
    votersOutgoing := encodeSet encodeId c.votersOutgoing
    learnersNext := encodeSet encodeId c.learnersNext
    autoLeave := c.autoLeave }

def confStateFrom (w : Pb.ConfState) : Except DecodeError (ConfState I) := do
  let voters ← decodeSet decodeExact w.voters
  let learners ← decodeSet decodeExact w.learners
  let votersOutgoing ← decodeSet decodeExact w.votersOutgoing
  let learnersNext ← decodeSet decodeExact w.learnersNext
  return ⟨voters, learners, votersOutgoing, learnersNext, w.autoLeave⟩

def pbForkId (f : ForkId) : Pb.ForkId :=
  { parent := f.parent
    parentIncarnation := f.parentIncarnation
    splitIndex := f.splitIndex
    splitTerm := f.splitTerm
    child := f.child
    childGen := f.childGen }

def forkIdFrom (w : Pb.ForkId) : ForkId :=
  ⟨w.parent, w.parentIncarnation, w.splitIndex, w.splitTerm, w.child, w.childGen⟩

def pbSnapshotMeta (m : SnapshotMeta I) : Pb.SnapshotMeta :=
  { lastIndex := m.lastIndex
    lastTerm := m.lastTerm
    conf := some (pbConfState encodeId m.conf)
    maxLeaseWindow := m.maxLeaseWindow
    maxWallPlusWindow := m.maxWallPlusWindow
    maxUnwalledLeaseWindow := m.maxUnwalledLeaseWindow
    readOnly := readOnlyCode m.readOnly
    shapeGen := m.shapeGen
    forkId := m.forkId.map pbForkId }

def ReadMode.fromU8 : Nat → Option ReadMode
  | 0 => some .safe
  | 1 => some .leaseBased
  | 2 => some .leaseGuard
  | _ => none

/-- `0` is no mode; a code that is no byte, or no mode, is refused. -/
def readOnlyFrom : Nat → Except DecodeError (Option ReadMode)
  | 0 => .ok none
  | n + 1 =>
    match if n < 256 then ReadMode.fromU8 n else none with
    | some mode => .ok (some mode)
    | none => .error (.invalid "SnapshotMeta.read_only")

def snapshotMetaFrom (w : Pb.SnapshotMeta) : Except DecodeError (SnapshotMeta I) := do
  let conf ← w.conf.elim (.error (.invalid "SnapshotMeta.conf")) .ok
  let readOnly ← readOnlyFrom w.readOnly
  let conf ← confStateFrom decodeExact conf
  return { lastIndex := w.lastIndex
           lastTerm := w.lastTerm
           conf := conf
           maxLeaseWindow := w.maxLeaseWindow
           maxWallPlusWindow := w.maxWallPlusWindow
           maxUnwalledLeaseWindow := w.maxUnwalledLeaseWindow
           readOnly := readOnly
           shapeGen := w.shapeGen
           forkId := w.forkId.map forkIdFrom }

/-! ## Messages -/

def pbMessage (msg : Message I) : Pb.Message :=
  let body : Pb.Body := match msg with
    | .appendEntries m => .appendEntries
      { term := m.term
        leaderId := encodeId m.leader
        prevLogIndex := m.prevLogIndex
        prevLogTerm := m.prevLogTerm
        entries := m.entries.map pbEntry
        leaderCommit := m.leaderCommit }
    | .appendResponse m => .appendResponse
      { term := m.term
        fromId := encodeId m.sender
        reject := m.reject
        rejectHintIndex := m.rejectHintIndex
        rejectHintTerm := m.rejectHintTerm
        matchIndex := m.matchIndex
        rejectedIndex := m.rejectedIndex }
    | .requestVote m => .requestVote
      { term := m.term
        candidateId := encodeId m.candidate
        lastLogIndex := m.lastLogIndex
        lastLogTerm := m.lastLogTerm
        preVote := m.preVote
        leaderTransfer := m.leaderTransfer }
    | .voteResponse m => .voteResponse
      { term := m.term
        fromId := encodeId m.sender
        preVote := m.preVote
        reject := m.reject }
    | .heartbeat m => .heartbeat
      { term := m.term
        leaderId := encodeId m.leader
        commit := m.commit
        context := m.context
        leaseRound := m.leaseRound }
    | .heartbeatResponse m => .heartbeatResponse
      { term := m.term
        fromId := encodeId m.sender
        context := m.context
        leaseRound := m.leaseRound
        leaseSupportSecs := m.leaseSupport / 10 ^ 9
        leaseSupportNanos := m.leaseSupport % 10 ^ 9
        stuckBoundary := m.stuckBoundary }
    | .installSnapshot m => .installSnapshot
      { term := m.term
        leaderId := encodeId m.leader
        snapshot := some (pbSnapshotMeta encodeId m.snapshot)
        data := m.data
        offset := m.offset
        totalLen := m.totalLen }
    | .snapshotResponse m => .snapshotResponse
      { term := m.term
        fromId := encodeId m.sender
        reject := m.reject
        matchIndex := m.matchIndex
        ackedThrough := m.ackedThrough
        progress := m.progress }
    | .timeoutNow m => .timeoutNow
      { term := m.term
        leaderId := encodeId m.leader }
    | .readIndex m => .readIndex
      { term := m.term
        fromId := encodeId m.sender
        context := m.context }
    | .readIndexResponse m => .readIndexResponse
      { term := m.term
        fromId := encodeId m.sender
        index := m.index
        context := m.context
        reject := m.reject }
  ⟨some body⟩

def messageFrom (wire : Pb.Message) : Except DecodeError (Message I) := do
  let body ← wire.body.elim (.error (.invalid "Message.body")) .ok
  match body with
  | .appendEntries m =>
    let leader ← decodeId decodeExact m.leaderId
    let entries ← m.entries.mapM entryFrom
    return .appendEntries ⟨m.term, leader, m.prevLogIndex, m.prevLogTerm, entries, m.leaderCommit⟩
  | .appendResponse m =>
    let sender ← decodeId decodeExact m.fromId
    return .appendResponse
      ⟨m.term, sender, m.reject, m.rejectHintIndex, m.rejectHintTerm, m.matchIndex, m.rejectedIndex⟩
  | .requestVote m =>
    let candidate ← decodeId decodeExact m.candidateId
    return .requestVote ⟨m.term, candidate, m.lastLogIndex, m.lastLogTerm, m.preVote, m.leaderTransfer⟩
  | .voteResponse m =>
    let sender ← decodeId decodeExact m.fromId
    return .voteResponse ⟨m.term, sender, m.preVote, m.reject⟩
  | .heartbeat m =>
    let leader ← decodeId decodeExact m.leaderId
    return .heartbeat ⟨m.term, leader, m.commit, m.context, m.leaseRound⟩
  | .heartbeatResponse m =>
    if 10 ^ 9 ≤ m.leaseSupportNanos then .error (.invalid "lease_support nanos")
    else
      let sender ← decodeId decodeExact m.fromId
      return .heartbeatResponse
        ⟨⟨m.term, sender, m.context, m.leaseRound, m.leaseSupportSecs * 10 ^ 9 + m.leaseSupportNanos⟩,
          m.stuckBoundary⟩
  | .installSnapshot m =>
    let snapshot ← m.snapshot.elim (.error (.invalid "InstallSnapshot.snapshot")) .ok
    let leader ← decodeId decodeExact m.leaderId
    let snapshot ← snapshotMetaFrom decodeExact snapshot
    return .installSnapshot ⟨m.term, leader, snapshot, m.data, m.offset, m.totalLen⟩
  | .snapshotResponse m =>
    let sender ← decodeId decodeExact m.fromId
    return .snapshotResponse ⟨m.term, sender, m.reject, m.matchIndex, m.ackedThrough, m.progress⟩
  | .timeoutNow m =>
    let leader ← decodeId decodeExact m.leaderId
    return .timeoutNow ⟨m.term, leader⟩
  | .readIndex m =>
    let sender ← decodeId decodeExact m.fromId
    return .readIndex ⟨m.term, sender, m.context⟩
  | .readIndexResponse m =>
    let sender ← decodeId decodeExact m.fromId
    return .readIndexResponse ⟨m.term, sender, m.index, m.context, m.reject⟩

/-- `encode_message`, through the generated encoder. -/
def writeMessage (g : Generated Pb.Message) (msg : Message I) : Bytes := g.encode (pbMessage encodeId msg)

def decodeMessage (g : Generated Pb.Message) (frame : Bytes) : Except DecodeError (Message I) := do
  let wire ← g.read frame
  messageFrom decodeExact wire

/-! ## Payloads -/

def encodeConfChangeV2 (g : Generated Pb.ConfChangeV2) (cc : ConfChangeV2 I) : Bytes :=
  g.encode
    { transition := .known (pbTransition cc.transition)
      changes := cc.changes.map fun c => ⟨pbCcType c.ty, encodeId c.node⟩
      context := cc.context }

def confChangeSingleFrom (c : Pb.ConfChangeSingle) : Except DecodeError (ConfChangeSingle I) := do
  let ty ← ccTypeFrom c.changeType
  let node ← decodeId decodeExact c.nodeId
  return ⟨ty, node⟩

def decodeConfChangeV2 (g : Generated Pb.ConfChangeV2) (data : Bytes) : Except DecodeError (ConfChangeV2 I) := do
  let w ← g.read data
  let transition ← transitionFrom w.transition
  let changes ← w.changes.mapM (confChangeSingleFrom decodeExact)
  return ⟨⟨transition, changes⟩, w.context⟩

end Codec

/-- The length check of a group id that must be there. -/
def checkGroupId (what : String) (b : Bytes) : Except DecodeError Unit :=
  if b = [] ∨ Transport.maxGroupIdLen < b.length then .error (.invalid what) else .ok ()

def encodeSplitPayload (g : Generated Pb.SplitPayload) (p : SplitPayload) : Bytes :=
  g.encode ⟨p.childBytes, p.childGen, p.parentGenAfter, p.instruction⟩

def decodeSplitPayload (g : Generated Pb.SplitPayload) (data : Bytes) : Except DecodeError SplitPayload := do
  let w ← g.read data
  checkGroupId "SplitPayload.child length" w.child
  return ⟨w.child, w.childGen, w.parentGenAfter, w.instruction⟩

def encodePrepareMergePayload (g : Generated Pb.PrepareMergePayload) (p : PrepareMergePayload) : Bytes :=
  g.encode ⟨p.targetBytes, p.sourceGenAfter⟩

def decodePrepareMergePayload (g : Generated Pb.PrepareMergePayload) (data : Bytes) :
    Except DecodeError PrepareMergePayload := do
  let w ← g.read data
  checkGroupId "PrepareMergePayload.target length" w.target
  return ⟨w.target, w.sourceGenAfter⟩

def encodeCommitMergePayload (g : Generated Pb.CommitMergePayload) (p : CommitMergePayload) : Bytes :=
  g.encode
    { source := p.sourceBytes
      freezeIndex := p.freezeIndex
      sourceGenAfter := p.sourceGenAfter
      targetGenAfter := p.targetGenAfter
      freezeTerm := p.freezeTerm }

def decodeCommitMergePayload (g : Generated Pb.CommitMergePayload) (data : Bytes) :
    Except DecodeError CommitMergePayload := do
  let w ← g.read data
  checkGroupId "CommitMergePayload.source length" w.source
  return ⟨w.source, w.freezeIndex, w.freezeTerm, w.sourceGenAfter, w.targetGenAfter⟩

def encodeRollbackMergePayload (g : Generated Pb.RollbackMergePayload) (p : RollbackMergePayload) : Bytes :=
  g.encode ⟨p.sourceGenAfter, p.sourceBytes, p.targetGenAfter⟩

/-- An absent source is the thaw's. -/
def decodeRollbackMergePayload (g : Generated Pb.RollbackMergePayload) (data : Bytes) :
    Except DecodeError RollbackMergePayload := do
  let w ← g.read data
  if Transport.maxGroupIdLen < w.source.length then .error (.invalid "RollbackMergePayload.source length")
  else if w.source = [] then return .unfreeze w.sourceGenAfter
  else return .abort w.source w.sourceGenAfter w.targetGenAfter

def encodeThawDischargedPayload (g : Generated Pb.ThawDischargedPayload) (p : ThawDischargedPayload) : Bytes :=
  g.encode ⟨p.sourceBytes, p.generation⟩

def decodeThawDischargedPayload (g : Generated Pb.ThawDischargedPayload) (data : Bytes) :
    Except DecodeError ThawDischargedPayload := do
  let w ← g.read data
  checkGroupId "ThawDischargedPayload.source length" w.source
  return ⟨w.source, w.generation⟩

end Sailing.Wire
