import Sailing.Model.Message
import Sailing.Lib.Proto
import Mathlib.Data.Finset.Sort

/-!
# The wire envelope

The messages of `wire/mod.rs` with every field that is encoded, and `encode_message`:
the generated encoder writes the fields of a message in ascending order, a message of
the envelope as the one arm of its `oneof`. The structures of the endpoint's model are
extended where the wire carries more than the endpoint's logic reads.

`installSnapshotEncodedLen` sizes a snapshot frame without building it; it is the length
of the encoding when the leader's id has an encoding that is not empty
(`length_encodeMessage_installSnapshot`).
-/

namespace Sailing.Wire

open Proto (uint64 bytes repeated delimited delimitedLen bytesLen uint64Len length_bytes length_uint64 length_delimited)

variable {I : Type} [LinearOrder I]

/-! ## The data -/

inductive ReadMode where
  | safe
  | leaseBased
  | leaseGuard
deriving DecidableEq, Repr

def ReadMode.asU8 : ReadMode → Nat
  | safe => 0
  | leaseBased => 1
  | leaseGuard => 2

inductive EntryKind where
  | normal
  | confChange
  | empty
  | setReadMode
  | split
  | prepareMerge
  | commitMerge
  | rollbackMerge
  | thawDischarged
deriving DecidableEq, Repr

def EntryKind.code : EntryKind → Nat
  | normal => 0
  | confChange => 1
  | empty => 2
  | setReadMode => 3
  | split => 4
  | prepareMerge => 5
  | commitMerge => 6
  | rollbackMerge => 7
  | thawDischarged => 8

structure Entry where
  term : Term
  index : Index
  kind : EntryKind
  data : Bytes
  timestamp : Nat
  leaseWindow : Nat
  wallTimestamp : Nat
deriving DecidableEq, Repr

structure ForkId where
  parent : Bytes
  parentIncarnation : Nat
  splitIndex : Index
  splitTerm : Term
  child : Bytes
  childGen : Nat
deriving DecidableEq, Repr

structure SnapshotMeta (I : Type) extends Sailing.SnapshotMeta I where
  maxLeaseWindow : Nat
  maxWallPlusWindow : Nat
  maxUnwalledLeaseWindow : Nat
  readOnly : Option ReadMode
  shapeGen : Nat
  forkId : Option ForkId
deriving DecidableEq

structure AppendEntries (I : Type) where
  term : Term
  leader : I
  prevLogIndex : Index
  prevLogTerm : Term
  entries : List Entry
  leaderCommit : Index
deriving DecidableEq

structure HeartbeatResponse (I : Type) extends Sailing.HeartbeatResponse I where
  stuckBoundary : Index
deriving DecidableEq

structure InstallSnapshot (I : Type) where
  term : Term
  leader : I
  snapshot : SnapshotMeta I
  data : Bytes
  offset : Nat
  totalLen : Nat
deriving DecidableEq

/-- The chunk ends the blob. -/
def InstallSnapshot.isLast (m : InstallSnapshot I) : Bool :=
  m.totalLen ≠ 0 ∧ min (m.offset + m.data.length) u64Max = m.totalLen

inductive Message (I : Type) where
  | appendEntries (m : AppendEntries I)
  | appendResponse (m : AppendResponse I)
  | requestVote (m : RequestVote I)
  | voteResponse (m : VoteResponse I)
  | heartbeat (m : Heartbeat I)
  | heartbeatResponse (m : HeartbeatResponse I)
  | installSnapshot (m : InstallSnapshot I)
  | snapshotResponse (m : SnapshotResponse I)
  | timeoutNow (m : TimeoutNow I)
  | readIndex (m : ReadIndex I)
  | readIndexResponse (m : ReadIndexResponse I)

/-! ## The encoding -/

section Encoding

variable (encodeId : I → Bytes)

def encodeEntry (e : Entry) : Bytes :=
  uint64 1 e.term ++ uint64 2 e.index ++ uint64 3 e.kind.code ++ bytes 4 e.data ++
    uint64 5 e.timestamp ++ uint64 6 e.leaseWindow ++ uint64 7 e.wallTimestamp

/-- A membership set, ascending. -/
def encodeSet (ids : Finset I) : List Bytes := (ids.sort (· ≤ ·)).map encodeId

def encodeConfState (c : ConfState I) : Bytes :=
  repeated 1 (encodeSet encodeId c.voters) ++ repeated 2 (encodeSet encodeId c.learners) ++
    repeated 3 (encodeSet encodeId c.votersOutgoing) ++
    repeated 4 (encodeSet encodeId c.learnersNext) ++ Proto.bool 5 c.autoLeave

def encodeForkId (f : ForkId) : Bytes :=
  bytes 1 f.parent ++ uint64 2 f.parentIncarnation ++ uint64 3 f.splitIndex ++
    uint64 4 f.splitTerm ++ bytes 5 f.child ++ uint64 6 f.childGen

/-- `0` is no mode; a mode is its discriminant and one. -/
def readOnlyCode (mode : Option ReadMode) : Nat := (mode.map fun o => o.asU8 + 1).getD 0

def encodeSnapshotMeta (m : SnapshotMeta I) : Bytes :=
  uint64 1 m.lastIndex ++ uint64 2 m.lastTerm ++ delimited 3 (encodeConfState encodeId m.conf) ++
    uint64 4 m.maxLeaseWindow ++ uint64 5 m.maxWallPlusWindow ++
    uint64 6 m.maxUnwalledLeaseWindow ++ uint64 7 (readOnlyCode m.readOnly) ++
    uint64 8 m.shapeGen ++ (m.forkId.map fun f => delimited 9 (encodeForkId f)).getD []

/-- A body around the encoded meta. -/
def installSnapshotBody (m : InstallSnapshot I) (encodedMeta : Bytes) : Bytes :=
  uint64 1 m.term ++ bytes 2 (encodeId m.leader) ++ delimited 3 encodedMeta ++
    bytes 4 m.data ++ uint64 5 m.offset ++ uint64 6 m.totalLen

def appendEntriesBody (m : AppendEntries I) : Bytes :=
  uint64 1 m.term ++ bytes 2 (encodeId m.leader) ++ uint64 3 m.prevLogIndex ++
    uint64 4 m.prevLogTerm ++ repeated 5 (m.entries.map encodeEntry) ++ uint64 6 m.leaderCommit

/-- The arm of the envelope and its encoded message. -/
def encodeArm : Message I → Nat × Bytes
  | .appendEntries m => (1, appendEntriesBody encodeId m)
  | .appendResponse m => (2,
      uint64 1 m.term ++ bytes 2 (encodeId m.sender) ++ Proto.bool 3 m.reject ++
        uint64 4 m.rejectHintIndex ++ uint64 5 m.rejectHintTerm ++ uint64 6 m.matchIndex ++
        uint64 7 m.rejectedIndex)
  | .requestVote m => (3,
      uint64 1 m.term ++ bytes 2 (encodeId m.candidate) ++ uint64 3 m.lastLogIndex ++
        uint64 4 m.lastLogTerm ++ Proto.bool 5 m.preVote ++ Proto.bool 6 m.leaderTransfer)
  | .voteResponse m => (4,
      uint64 1 m.term ++ bytes 2 (encodeId m.sender) ++ Proto.bool 3 m.preVote ++
        Proto.bool 4 m.reject)
  | .heartbeat m => (5,
      uint64 1 m.term ++ bytes 2 (encodeId m.leader) ++ uint64 3 m.commit ++
        bytes 4 m.context ++ uint64 5 m.leaseRound)
  | .heartbeatResponse m => (6,
      uint64 1 m.term ++ bytes 2 (encodeId m.sender) ++ bytes 3 m.context ++
        uint64 4 m.leaseRound ++ uint64 5 (m.leaseSupport / 10 ^ 9) ++
        uint64 6 (m.leaseSupport % 10 ^ 9) ++ uint64 7 m.stuckBoundary)
  | .installSnapshot m => (7, installSnapshotBody encodeId m (encodeSnapshotMeta encodeId m.snapshot))
  | .snapshotResponse m => (8,
      uint64 1 m.term ++ bytes 2 (encodeId m.sender) ++ Proto.bool 3 m.reject ++
        uint64 4 m.matchIndex ++ uint64 5 m.ackedThrough ++ Proto.bool 6 m.progress)
  | .timeoutNow m => (9, uint64 1 m.term ++ bytes 2 (encodeId m.leader))
  | .readIndex m => (10,
      uint64 1 m.term ++ bytes 2 (encodeId m.sender) ++ bytes 3 m.context)
  | .readIndexResponse m => (11,
      uint64 1 m.term ++ bytes 2 (encodeId m.sender) ++ uint64 3 m.index ++
        bytes 4 m.context ++ Proto.bool 5 m.reject)

/-- Appends the message to `buf`. -/
def encodeMessage (msg : Message I) (buf : Bytes) : Bytes :=
  buf ++ delimited (encodeArm encodeId msg).1 (encodeArm encodeId msg).2

/-! ## The size of a snapshot frame -/

/-- The `bytes` field of an id, which is taken to be present. -/
def idBytesField (id : I) : Nat := delimitedLen (encodeId id).length

def confStateLen (c : ConfState I) : Nat :=
  ([c.voters, c.learners, c.votersOutgoing, c.learnersNext].map fun set =>
    ((set.sort (· ≤ ·)).map (idBytesField encodeId)).sum).sum + if c.autoLeave then 2 else 0

def forkIdLen (f : ForkId) : Nat :=
  bytesLen f.parent.length + uint64Len f.parentIncarnation + uint64Len f.splitIndex +
    uint64Len f.splitTerm + bytesLen f.child.length + uint64Len f.childGen

def snapshotMetaLen (m : SnapshotMeta I) : Nat :=
  delimitedLen (confStateLen encodeId m.conf) + uint64Len m.lastIndex + uint64Len m.lastTerm +
    uint64Len m.maxLeaseWindow + uint64Len m.maxWallPlusWindow +
    uint64Len m.maxUnwalledLeaseWindow + uint64Len (readOnlyCode m.readOnly) +
    uint64Len m.shapeGen + (m.forkId.map fun f => delimitedLen (forkIdLen f)).getD 0

/-- The size of the arm, without its own tag and length. -/
def installSnapshotLen (term : Term) (leader : I) (snap : SnapshotMeta I) (offset totalLen dataLen : Nat) : Nat :=
  uint64Len term + idBytesField encodeId leader + delimitedLen (snapshotMetaLen encodeId snap) +
    bytesLen dataLen + uint64Len offset + uint64Len totalLen

def installSnapshotEncodedLen (term : Term) (leader : I) (snap : SnapshotMeta I)
    (offset totalLen dataLen : Nat) : Nat :=
  delimitedLen (installSnapshotLen encodeId term leader snap offset totalLen dataLen)

theorem length_repeated_encodeSet {field : Nat} (h : field < 16) (ids : Finset I) :
    (repeated field (encodeSet encodeId ids)).length = ((ids.sort (· ≤ ·)).map (idBytesField encodeId)).sum := by
  rw [Proto.length_repeated h, encodeSet, List.map_map]
  rfl

theorem length_encodeConfState (c : ConfState I) : (encodeConfState encodeId c).length = confStateLen encodeId c := by
  simp only [encodeConfState, confStateLen, List.length_append, length_repeated_encodeSet encodeId (by decide : 1 < 16),
    length_repeated_encodeSet encodeId (by decide : 2 < 16), length_repeated_encodeSet encodeId (by decide : 3 < 16),
    length_repeated_encodeSet encodeId (by decide : 4 < 16), Proto.length_bool (by decide : 5 < 16),
    List.map_cons, List.map_nil, List.sum_cons, List.sum_nil]
  omega

omit [LinearOrder I] in
theorem length_encodeForkId (f : ForkId) : (encodeForkId f).length = forkIdLen f := by
  simp only [encodeForkId, forkIdLen, List.length_append, length_bytes (by decide : 1 < 16),
    length_uint64 (by decide : 2 < 16), length_uint64 (by decide : 3 < 16),
    length_uint64 (by decide : 4 < 16), length_bytes (by decide : 5 < 16),
    length_uint64 (by decide : 6 < 16)]

theorem length_encodeSnapshotMeta (m : SnapshotMeta I) :
    (encodeSnapshotMeta encodeId m).length = snapshotMetaLen encodeId m := by
  have fork : ((m.forkId.map fun f => delimited 9 (encodeForkId f)).getD []).length =
      (m.forkId.map fun f => delimitedLen (forkIdLen f)).getD 0 := by
    cases m.forkId with
    | none => rfl
    | some => simp [length_delimited (by decide : 9 < 16), length_encodeForkId]
  simp only [encodeSnapshotMeta, snapshotMetaLen, List.length_append, fork,
    length_delimited (by decide : 3 < 16), length_encodeConfState, length_uint64 (by decide : 1 < 16),
    length_uint64 (by decide : 2 < 16), length_uint64 (by decide : 4 < 16),
    length_uint64 (by decide : 5 < 16), length_uint64 (by decide : 6 < 16),
    length_uint64 (by decide : 7 < 16), length_uint64 (by decide : 8 < 16)]
  omega

omit [LinearOrder I] in
theorem length_installSnapshotBody (m : InstallSnapshot I) (encodedMeta : Bytes) :
    (installSnapshotBody encodeId m encodedMeta).length =
      uint64Len m.term + bytesLen (encodeId m.leader).length + delimitedLen encodedMeta.length +
        bytesLen m.data.length + uint64Len m.offset + uint64Len m.totalLen := by
  simp only [installSnapshotBody, List.length_append, length_uint64 (by decide : 1 < 16),
    length_bytes (by decide : 2 < 16), length_delimited (by decide : 3 < 16),
    length_bytes (by decide : 4 < 16), length_uint64 (by decide : 5 < 16),
    length_uint64 (by decide : 6 < 16)]

/-- The sized length is the encoded one; a leader's id has at least one byte. -/
theorem length_encodeMessage_installSnapshot (m : InstallSnapshot I) (present : encodeId m.leader ≠ []) :
    (encodeMessage encodeId (.installSnapshot m) []).length =
      installSnapshotEncodedLen encodeId m.term m.leader m.snapshot m.offset m.totalLen m.data.length := by
  have leader : bytesLen (encodeId m.leader).length = idBytesField encodeId m.leader :=
    Proto.bytesLen_of_pos (List.length_pos_iff.mpr present)
  simp only [encodeMessage, List.nil_append, encodeArm, length_delimited (by decide : 7 < 16),
    length_installSnapshotBody, length_encodeSnapshotMeta, leader, installSnapshotEncodedLen, installSnapshotLen]

end Encoding

end Sailing.Wire
