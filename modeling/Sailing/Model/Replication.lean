import Sailing.Model.Persistence

/-!
# The leader's sends and the commit rule

Heartbeats, append and snapshot-chunk sends, the advance of the commit index
and the hand-off of a leader transfer: the parts of `endpoint/replication.rs`
and `endpoint/snapshot.rs` other modules call. The message handlers are in
`Sailing.Model.Handlers`.
-/

namespace Sailing.Endpoint

variable {I : Type} [LinearOrder I] {M : StateMachine}

def maxReadBatchEntries : Nat := 8192

def conflictWalkBudget : Nat := 1024

def maxSnapshotChunkBytes : Nat := 60 * 2 ^ 20

def maxFrameBytes : Nat := 64 * 2 ^ 20

def groupHeaderReserve : Nat := 2 + 1024 + 10

def appendFrameEntryBudget : Nat := maxFrameBytes - (1024 + 256 + groupHeaderReserve)

/-! ## Heartbeats -/

/-- One heartbeat for each peer, its commit clamped to the peer's match. -/
def heartbeats (s : Endpoint I M) (context : Bytes) : List (Outgoing I) :=
  s.peers.filterMap fun peer =>
    (s.tracker.progress peer).map fun pr =>
      ⟨peer, .heartbeat
        ⟨s.term, s.config.id, min s.commit pr.matchIndex, context, s.checkQuorumLease.leaseRound⟩⟩

/-- Opens a lease round and carries the newest pending read. -/
def broadcastHeartbeat (s : Endpoint I M) (now : Instant) : Endpoint I M :=
  if s.checkQuorumLease.leaseRound < u64Max then
    let s := { s with checkQuorumLease := { s.checkQuorumLease with
      leaseRound := s.checkQuorumLease.leaseRound + 1
      leaseRoundStart := now
      leaseAcks := ∅
      leaseMinSupport := s.config.electionTimeout } }
    s.sendAll (s.heartbeats (s.reads.readOnly.lastPendingRequestCtx.getD []))
  else s.poison .leaseRoundExhausted

def broadcastHeartbeatWithCtx (s : Endpoint I M) (context : Bytes) : Endpoint I M :=
  s.sendAll (s.heartbeats context)

/-! ## Snapshot chunks -/

inductive ChunkSend where
  | sent
  | deferred
  | unsendable
  | poisoned
deriving DecidableEq, Repr

/-- A transfer of another boundary or length restarts from byte 0. -/
def chunkStart (s : Endpoint I M) (peer : I) (boundary : Index) (total fromOffset : Nat) :
    Nat × Endpoint I M :=
  match (s.tracker.progress peer).map (·.state) with
  | some (ProgressState.snapshot pending _ t) =>
    if pending = boundary ∧ t = total then (fromOffset, s)
    else (0, { s with tracker := s.tracker.modifyProgress peer (·.becomeSnapshot boundary total) })
  | _ => (0, { s with tracker := s.tracker.modifyProgress peer (·.becomeSnapshot boundary total) })

/-- The bytes one frame has left for data. -/
def chunkFrameBudget (s : Endpoint I M) (snap : SnapshotMeta I) (start total : Nat) : Nat :=
  maxFrameBytes - (s.config.wire.installSnapshotOverhead s.term snap start total + 5 +
    groupHeaderReserve)

def sendSnapshotChunk (s : Endpoint I M) (peer : I) (fromOffset : Nat) : ChunkSend × Endpoint I M :=
  let configChunk := min (max s.config.snapshotChunkBytes 1) maxSnapshotChunkBytes
  match s.stable.snapshotChunk fromOffset configChunk with
  | none => (.deferred, s)
  | some (.error _) => (.poisoned, s.poison .snapshotRead)
  | some (.ok (snap, total, chunkAtFrom)) =>
    let (offset, s) := s.chunkStart peer snap.lastIndex total fromOffset
    let start := min offset total
    let budget := s.chunkFrameBudget snap start total
    if budget = 0 then (.unsendable, s)
    else
      let chunkLen := min configChunk budget
      let read := if start = fromOffset then some (.ok (snap, total, chunkAtFrom))
        else s.stable.snapshotChunk start chunkLen
      match read with
      | none => (.deferred, s)
      | some (.error _) => (.poisoned, s.poison .snapshotRead)
      | some (.ok (snap', total', chunk)) =>
        if total' ≠ total ∨ snap'.identityEq snap = false then (.poisoned, s.poison .snapshotRead)
        else
          match chunk with
          | .pending => (.deferred, s)
          | .ready bytes =>
            if 0 < total - start ∧ bytes = [] then (.poisoned, s.poison .snapshotRead)
            else (.sent, s.send peer (.installSnapshot ⟨s.term, s.config.id, snap,
              bytes.take (min chunkLen (total - start)), start, total⟩))

def resendSnapshot (s : Endpoint I M) (peer : I) : ChunkSend × Endpoint I M :=
  let offset := match (s.tracker.progress peer).map (·.state) with
    | some (ProgressState.snapshot _ acked _) => acked
    | _ => 0
  s.sendSnapshotChunk peer offset

def setResendAfter (s : Endpoint I M) (peer : I) (t : Option Instant) : Endpoint I M :=
  { s with snapshot := { s.snapshot with
      snapshotResendAfter := Function.update s.snapshot.snapshotResendAfter peer t } }

/-- Sends a chunk and paces the next one by the outcome. -/
def sendSnapshotPaced (s : Endpoint I M) (now : Instant) (peer : I) (fromOffset : Nat) :
    Endpoint I M :=
  match s.sendSnapshotChunk peer fromOffset with
  | (.sent, s) => s.setResendAfter peer (some (now + s.config.electionTimeout))
  | (.deferred, s) | (.unsendable, s) => s.setResendAfter peer none
  | (.poisoned, s) => s

/-! ## Appends -/

def entrySize (s : Endpoint I M) (e : Entry I) : Nat := 17 + s.config.wire.dataLen e.kind

def entryFrameCost (s : Endpoint I M) (e : Entry I) : Nat := s.config.wire.dataLen e.kind + 128

/-- How many more entries fit the size and the frame budget. -/
def packCount (s : Endpoint I M) (budget frameUsed : Nat) : List (Entry I) → Nat
  | [] => 0
  | e :: es =>
    if (s.config.maxSizePerMsg = u64Max ∨ s.entrySize e ≤ budget) ∧
        frameUsed + s.entryFrameCost e ≤ appendFrameEntryBudget then
      1 + s.packCount (budget - s.entrySize e) (frameUsed + s.entryFrameCost e) es
    else 0

/-- The first entry always goes, so that replication moves. -/
def capEntries (s : Endpoint I M) : List (Entry I) → List (Entry I)
  | [] => []
  | e :: es =>
    e :: es.take (s.packCount (s.config.maxSizePerMsg - s.entrySize e) (s.entryFrameCost e) es)

/-- The term at `prev`, `0` at the start of the log. -/
def prevLogTerm (s : Endpoint I M) (prev : Index) : Option Term × Endpoint I M :=
  if prev = 0 then (some 0, s) else s.logTerm prev

/-- What the next append to a peer at `nextIndex` may carry. -/
def readAppend (s : Endpoint I M) (nextIndex : Index) : EntriesRead I :=
  let stop := next s.log.lastIndex
  if nextIndex < stop then
    s.log.entries nextIndex (min stop (min (nextIndex + maxReadBatchEntries) u64Max))
  else .ready []

/-- The index of the last entry sent, `prev` when there is none. -/
def lastSentIndex (prev : Index) (entries : List (Entry I)) : Index :=
  (entries.getLast?.map (·.index)).getD prev

/-- Sends `entries` after `prev` and books them as in flight. -/
def sendAppend (s : Endpoint I M) (peer : I) (prev : Index) (prevTerm : Term)
    (entries : List (Entry I)) : Endpoint I M :=
  let lastSent := lastSentIndex prev entries
  let bytes := (entries.map s.entrySize).sum
  let s := s.send peer
    (.appendEntries ⟨s.term, s.config.id, prev, prevTerm, entries, s.commit⟩)
  { s with tracker := s.tracker.modifyProgress peer fun p =>
      if (entries ≠ [] ∧ p.state = .replicate) ∨ lastSent < s.log.lastIndex then
        p.sentEntries lastSent bytes
      else p }

/-- A peer behind the first index gets the snapshot instead. -/
def maybeSendAppend (s : Endpoint I M) (now : Instant) (peer : I) : Endpoint I M :=
  if s.poisoned then s
  else
    match s.tracker.progress peer with
    | none => s
    | some pr =>
      if pr.isPaused then s
      else if pr.nextIndex < s.log.firstIndex then s.sendSnapshotPaced now peer 0
      else
        match s.prevLogTerm (pr.nextIndex - 1) with
        | (none, s) => s
        | (some prevTerm, s) =>
          match s.readAppend pr.nextIndex with
          | .pending => s
          | .error => s.poison .logRead
          | .ready read => s.sendAppend peer (pr.nextIndex - 1) prevTerm (s.capEntries read)

/-- Sends while the peer is not paused and its next index moves. -/
def pumpLoop (now : Instant) (peer : I) : Nat → Endpoint I M → Endpoint I M
  | 0, s => s
  | fuel + 1, s =>
    match s.tracker.progress peer with
    | none => s
    | some pr =>
      if pr.isPaused then s
      else
        let s' := s.maybeSendAppend now peer
        if s'.poisoned then s'
        else
          match s'.tracker.progress peer with
          | none => s'
          | some pr' => if pr'.nextIndex = pr.nextIndex then s' else pumpLoop now peer fuel s'

/-- Each round but the last two moves the next index up, at most to one past
the end of the log. -/
def pumpAppends (s : Endpoint I M) (now : Instant) (peer : I) : Endpoint I M :=
  if s.poisoned then s else pumpLoop now peer (s.log.lastIndex + 3) s

/-- The deferred replication of a proposal. The source reads a run of entries
once for all peers that share it; the runs are the same. -/
def flushAppends (s : Endpoint I M) (now : Instant) : Endpoint I M :=
  if s.poisoned ∨ s.role ≠ .leader ∨ s.replicationPending = false then s
  else
    let last := s.log.lastIndex
    let s := s.peers.foldl (fun s peer =>
      match s.tracker.progress peer with
      | some pr => if pr.nextIndex ≤ last then s.maybeSendAppend now peer else s
      | none => s) s
    { s with replicationPending := false }

/-! ## Commit -/

/-- Commit moves to the quorum's match only on an entry of the current
term, and not while the lease guard holds it back. -/
def maybeAdvanceCommit (s : Endpoint I M) (now : Instant) : Endpoint I M :=
  if s.poisoned then s
  else
    let candidate := s.tracker.quorumCommitted
    match s.logTerm candidate with
    | (none, s) => s
    | (some t, s) =>
      if s.commit < candidate ∧ t = s.term then
        if s.config.commitWait.holds s.term now then s else { s with commit := candidate }
      else s

def maybeHandOffToTransferee (s : Endpoint I M) (sender : I) : Endpoint I M :=
  if s.transfer.leadTransferee = some sender ∧ s.tracker.matchIndex sender = s.log.lastIndex then
    let s := { s with transfer := { s.transfer with forcedHandoffTarget := some sender } }
    let s := s.send sender (.timeoutNow ⟨s.term, s.config.id⟩)
    { s with transfer := { s.transfer with forcedHandoffThisTerm := true } }
  else s

/-- Walks down from `index` to the first entry whose term is not above
`term`. -/
def findConflictByTerm (term : Term) : Nat → Endpoint I M → Index → Option Index × Endpoint I M
  | 0, s, index => (some index, s)
  | budget + 1, s, index =>
    if index < s.log.firstIndex then (some index, s)
    else
      match s.logTerm index with
      | (none, s) => (none, s)
      | (some t, s) => if t ≤ term then (some index, s) else findConflictByTerm term budget s (index - 1)

end Sailing.Endpoint
