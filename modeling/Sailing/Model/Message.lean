import Sailing.Model.Basic

/-!
# Wire messages and events

The peer messages of `message/mod.rs`, each with its own payload structure,
and the events an endpoint reports to its application.
-/

namespace Sailing

variable {I : Type}

structure AppendEntries (I : Type) where
  term : Term
  leader : I
  prevLogIndex : Index
  prevLogTerm : Term
  entries : List (Entry I)
  leaderCommit : Index
deriving DecidableEq

structure AppendResponse (I : Type) where
  term : Term
  sender : I
  reject : Bool
  rejectHintIndex : Index
  rejectHintTerm : Term
  matchIndex : Index
  rejectedIndex : Index
deriving DecidableEq

structure RequestVote (I : Type) where
  term : Term
  candidate : I
  lastLogIndex : Index
  lastLogTerm : Term
  preVote : Bool
  leaderTransfer : Bool
deriving DecidableEq

structure VoteResponse (I : Type) where
  term : Term
  sender : I
  preVote : Bool
  reject : Bool
deriving DecidableEq

structure Heartbeat (I : Type) where
  term : Term
  leader : I
  commit : Index
  context : Bytes
  leaseRound : Nat
deriving DecidableEq

structure HeartbeatResponse (I : Type) where
  term : Term
  sender : I
  context : Bytes
  leaseRound : Nat
  leaseSupport : Duration
deriving DecidableEq

/-- One chunk of a snapshot; `totalLen = 0` is the single-shot form. -/
structure InstallSnapshot (I : Type) where
  term : Term
  leader : I
  snapshot : SnapshotMeta I
  data : Bytes
  offset : Nat
  totalLen : Nat
deriving DecidableEq

structure SnapshotResponse (I : Type) where
  term : Term
  sender : I
  reject : Bool
  matchIndex : Index
  ackedThrough : Nat
  progress : Bool
deriving DecidableEq

structure TimeoutNow (I : Type) where
  term : Term
  leader : I
deriving DecidableEq

structure ReadIndex (I : Type) where
  term : Term
  sender : I
  context : Bytes
deriving DecidableEq

structure ReadIndexResponse (I : Type) where
  term : Term
  sender : I
  index : Index
  context : Bytes
  reject : Bool
deriving DecidableEq

inductive Message (I : Type) where
  | appendEntries (m : AppendEntries I)
  | appendResponse (m : AppendResponse I)
  | requestVote (m : RequestVote I)
  | voteResponse (m : VoteResponse I)
  | heartbeat (m : Heartbeat I)
  | heartbeatResponse (m : HeartbeatResponse I)
  | installSnapshot (m : InstallSnapshot I)
  | snapshotResponse (m : SnapshotResponse I)
  | timeoutNow (m : TimeoutNow I)
  | readIndex (m : ReadIndex I)
  | readIndexResponse (m : ReadIndexResponse I)
deriving DecidableEq

namespace Message

def term : Message I → Term
  | appendEntries m => m.term
  | appendResponse m => m.term
  | requestVote m => m.term
  | voteResponse m => m.term
  | heartbeat m => m.term
  | heartbeatResponse m => m.term
  | installSnapshot m => m.term
  | snapshotResponse m => m.term
  | timeoutNow m => m.term
  | readIndex m => m.term
  | readIndexResponse m => m.term

/-- The sender a message names (`Message::from`). -/
def sender : Message I → I
  | appendEntries m => m.leader
  | appendResponse m => m.sender
  | requestVote m => m.candidate
  | voteResponse m => m.sender
  | heartbeat m => m.leader
  | heartbeatResponse m => m.sender
  | installSnapshot m => m.leader
  | snapshotResponse m => m.sender
  | timeoutNow m => m.leader
  | readIndex m => m.sender
  | readIndexResponse m => m.sender

/-- A vote request, real or probing. -/
def isRequestVote : Message I → Bool
  | requestVote _ => true
  | _ => false

/-- A message whose term is only advertised: a pre-vote request, or the grant
that echoes the term of one. -/
def advertisedPrevote : Message I → Bool
  | requestVote m => m.preVote
  | voteResponse m => m.preVote && !m.reject
  | _ => false

end Message

structure Outgoing (I : Type) where
  dest : I
  message : Message I
deriving DecidableEq

/-- What `poll_event` reports. -/
inductive Event (I Response : Type) where
  | applied (index : Index) (response : Response)
  | leaderChanged (term : Term) (leader : Option I)
  | confChanged (index : Index) (conf : ConfState I)
  | readState (index : Index) (context : Bytes)
  | snapshotRestored (snapshot : SnapshotMeta I)

end Sailing
