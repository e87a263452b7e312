import Sailing.Model.System
import Sailing.Step.Flow
import Mathlib.Logic.Relation

/-!
# What a node can do, one effect at a time

Every public call is a sequence of effects, and `Step` lists them: each
constructor is an operation of the model together with what the code knows when
it performs it. The modules of `Sailing.Calls` show once that the calls decompose into
steps; every invariant is then proved from this list alone.

`now` is the time of the call and `inp` what it brings.
-/

namespace Sailing

variable {I : Type} [LinearOrder I] {M : StateMachine}

/-- What a call brings: a message, a timer that may have fired, a configuration
change to propose, the turn of `handle_storage` to capture a snapshot, or
nothing. -/
inductive Input (I : Type) where
  | quiet
  | snapshot
  | tick
  | message (sender : I) (m : Message I)
  | change

/-- A rejection that does not say what it rejects, as the nudge of a newer term is. -/
def Input.Rewinds (inp : Input I) : Prop :=
  ∃ sender r, inp = .message sender (.appendResponse r) ∧ r.reject = true ∧ r.rejectedIndex = 0

/-- A message only the leader of its term sends. -/
def fromLeader : Message I → Bool
  | .heartbeat _ | .appendEntries _ | .installSnapshot _ => true
  | _ => false

/-! ## Fields no invariant looks at -/

/-- The state without its timers' random source, its flow control and its
bookkeeping of pending proposals. -/
structure Core (I : Type) (M : StateMachine) where
  config : Config I
  fsm : M.State
  role : Role
  term : Term
  votedFor : Option I
  leader : Option I
  commit : Index
  applied : Index
  passed : List (Entry I)
  snapshotRecv : Option (SnapshotRecv I)
  pendingInstall : Option (OpId × SnapshotMeta I × M.Snapshot × I)
  pendingCompact : Option (OpId × SnapshotMeta I)
  votes : I → Option Bool
  electionDeadline : Option Instant
  outgoing : List (Outgoing I)
  events : List (Event I M.Response)
  conf : ConfState I
  matchIndex : I → Option Index
  nextOpId : OpId
  pendingLog : List (OpId × Pending I)
  pendingStable : List (OpId × Pending I)
  poisonReason : Option PoisonReason
  durable : Durability I
  reads : Reads I
  pendingApply : Option Index
  checkQuorumLease : CheckQuorumLease I
  pendingFarewells : List (I × FarewellRetry)
  log : LogStore I
  stable : StableStore I

namespace Endpoint

/-- The match of every member. -/
def matchOf (s : Endpoint I M) (id : I) : Option Index := (s.tracker.progress id).map (·.matchIndex)

def core (s : Endpoint I M) : Core I M where
  config := s.config
  fsm := s.fsm
  role := s.role
  term := s.term
  votedFor := s.votedFor
  leader := s.leader
  commit := s.commit
  applied := s.applied
  passed := s.passed
  snapshotRecv := s.snapshot.snapshotRecv
  pendingInstall := s.snapshot.pendingInstall
  pendingCompact := s.snapshot.pendingCompact
  votes := s.votes
  electionDeadline := s.electionDeadline
  outgoing := s.outgoing
  events := s.events
  conf := s.tracker.confState
  matchIndex := s.matchOf
  nextOpId := s.nextOpId
  pendingLog := s.pendingLog
  pendingStable := s.pendingStable
  poisonReason := s.poisonReason
  durable := s.durable
  reads := s.reads
  pendingApply := s.pendingApply
  checkQuorumLease := s.checkQuorumLease
  pendingFarewells := s.pendingFarewells
  log := s.log
  stable := s.stable

/-! ## What the code knows when it acts -/

/-- A fresh operation id can be minted. -/
def Mintable (s : Endpoint I M) : Prop := s.nextOpId.next ≠ s.nextOpId

/-- Leader, unless a configuration change it applied in this very call ended
that. -/
def Leads (s : Endpoint I M) : Prop :=
  s.role = .leader ∨ ∃ e ∈ s.log.visible.entries, e.kind.isConfChange = true

/-- The visible log's last index and term, as a vote request carries them. -/
def lastLogOf (s : Endpoint I M) : Index × Term :=
  (s.log.lastIndex, if s.log.lastIndex = 0 then 0 else s.log.visible.term s.log.lastIndex)

/-- The log holds the entry an append follows, or has compacted it. -/
def PrevOk (s : Endpoint I M) (ae : AppendEntries I) : Prop :=
  ae.prevLogIndex = 0 ∨ ae.prevLogIndex < s.log.firstIndex ∨
    (ae.prevLogIndex ≤ s.log.lastIndex ∧ s.log.visible.term ae.prevLogIndex = ae.prevLogTerm)

/-- The log holds every entry of the run, or has compacted it. -/
def EntriesOk (s : Endpoint I M) (es : List (Entry I)) : Prop :=
  ∀ e ∈ es, e.index < s.log.firstIndex ∨
    (e.index ≤ s.log.lastIndex ∧ s.log.visible.term e.index = e.term)

/-- The log agrees with the whole append, whose last index is `lastNew`. -/
structure Matches (s : Endpoint I M) (ae : AppendEntries I) (lastNew : Index) : Prop where
  prev : s.PrevOk ae
  run : lastContiguous ae.prevLogIndex ae.entries = some lastNew
  entries : s.EntriesOk ae.entries

/-- The log agrees with the append up to the entry `e`, where it must be
overwritten. -/
structure Conflicts (s : Endpoint I M) (ae : AppendEntries I) (e : Entry I) (es : List (Entry I)) :
    Prop where
  prev : s.PrevOk ae
  run : ∃ lastNew, lastContiguous ae.prevLogIndex ae.entries = some lastNew
  split : ∃ pre, ae.entries = pre ++ e :: es ∧ s.EntriesOk pre
  first : s.log.firstIndex ≤ e.index
  differs : e.index ≤ s.log.lastIndex → s.log.visible.term e.index ≠ e.term
  uncommitted : s.commit < e.index

/-- The size of the entry was checked, or no proposal decides about it: the first entry of a
term, and the change that leaves a joint configuration. -/
def Sized (s : Endpoint I M) (kind : EntryKind I) : Prop :=
  kind = .empty ∨ kind = .confChange (some ⟨.auto, []⟩) ∨
    s.config.wire.dataLen kind + 128 ≤ appendFrameEntryBudget

end Endpoint

/-- The boundary of the snapshot an image holds. -/
def StableImage.slot (im : StableImage I) : Index := (im.snapshot.map (·.1.lastIndex)).getD 0

def StableImage.ballot (im : StableImage I) : Term × Option I := (im.hardState.term, im.hardState.vote)

namespace Endpoint

/-- Whatever a crash leaves, the slot reaches `n`. -/
def SlotCovers (s : Endpoint I M) (n : Index) : Prop := ∀ im ∈ s.stable.images, n ≤ im.slot

/-- The snapshot `m` is the one in the message being handled, or the durable
one. -/
def Offered (s : Endpoint I M) (inp : Input I) (m : SnapshotMeta I) : Prop :=
  (∃ sender is, inp = .message sender (.installSnapshot is) ∧ is.term = s.term ∧ is.snapshot = m) ∨
    ∃ m' blob, s.stable.durable.snapshot = some (m', blob) ∧ m'.identityEq m

/-- What the code knows about a message it enqueues for `dest`. The success
acknowledgements and the answers of reads have steps of their own. -/
def Sendable (now : Instant) (inp : Input I) (s : Endpoint I M) (dest : I) :
    Message I → Prop
  | .requestVote rv =>
    rv.candidate = s.config.id ∧ (rv.preVote = false →
      rv.term = s.term ∧ s.role = .candidate ∧ (rv.lastLogIndex, rv.lastLogTerm) = s.lastLogOf ∧
      (rv.leaderTransfer →
        ∃ l tn, inp = .message l (.timeoutNow tn) ∧ next tn.term = rv.term))
  | .voteResponse vr =>
    vr.sender = s.config.id ∧
      (vr.preVote = false → vr.term = s.term ∧ (vr.reject = false →
        s.votedFor = some dest ∧ s.stable.durable.ballot = (s.term, some dest) ∧
          ∃ id, (id, .castVote dest vr.term) ∈ s.pendingStable)) ∧
      (vr.preVote = true → vr.reject = false → ∃ sender rv, inp = .message sender (.requestVote rv) ∧
        rv.preVote = true ∧ rv.term = vr.term ∧ rv.candidate = dest ∧
        s.leaseVoteFenced now rv.leaderTransfer = false)
  | .appendEntries ae =>
    s.Leads ∧ ae.term = s.term ∧ ae.leader = s.config.id ∧ ae.leaderCommit ≤ s.commit ∧
      s.log.visible.base ≤ ae.prevLogIndex ∧
      (ae.prevLogIndex = 0 ∧ ae.prevLogTerm = 0 ∨
        ae.prevLogTerm = s.log.visible.term ae.prevLogIndex) ∧
      ae.entries <+: s.log.visible.entries.drop (ae.prevLogIndex - s.log.visible.base) ∧
      (ae.entries.length ≤ 1 ∨ (ae.entries.map s.entryFrameCost).sum ≤ appendFrameEntryBudget)
  | .appendResponse r => r.term = s.term ∧ r.sender = s.config.id ∧ r.reject = true
  | .heartbeat hb =>
    s.Leads ∧ hb.term = s.term ∧ hb.leader = s.config.id ∧ hb.commit ≤ s.commit ∧
      ((∃ m, s.matchOf dest = some m ∧ hb.commit ≤ m ∧
          hb.leaseRound = s.checkQuorumLease.leaseRound ∧
          (hb.context = [] ∨ hb.context ∈ s.reads.readOnly.queue)) ∨
        (∃ retry, (dest, retry) ∈ s.pendingFarewells ∧ hb.context = [] ∧ hb.leaseRound = 0))
  | .heartbeatResponse r =>
    r.term = s.term ∧ r.sender = s.config.id ∧ s.role = .follower ∧ s.leader = some dest ∧
      (∃ d, s.electionDeadline = some d ∧ now + s.config.electionTimeout ≤ d) ∧
      (∃ l hb, inp = .message l (.heartbeat hb) ∧ hb.term = s.term ∧ hb.leader = dest ∧
        r.context = hb.context ∧ r.leaseRound = hb.leaseRound) ∧
      (r.leaseSupport = 0 ∨ r.leaseSupport = s.config.electionTimeout ∧
        optLt s.durable.durableLeaseSupport (some s.config.electionTimeout) = false)
  | .installSnapshot is =>
    s.Leads ∧ is.term = s.term ∧ is.leader = s.config.id ∧
      ∃ blob, s.stable.snapshot = some (is.snapshot, blob) ∧ is.totalLen = blob.length ∧
        (∃ k, is.data = (blob.drop is.offset).take k) ∧ is.offset ≤ is.totalLen ∧
        (is.data = [] → is.offset = is.totalLen) ∧
        is.data.length ≤ maxSnapshotChunkBytes ∧
        0 < s.chunkFrameBudget is.snapshot is.offset is.totalLen ∧
        is.data.length ≤ s.chunkFrameBudget is.snapshot is.offset is.totalLen
  | .snapshotResponse r =>
    r.term = s.term ∧ r.sender = s.config.id ∧ r.reject = false ∧ r.progress = true
  | .timeoutNow tn => s.Leads ∧ tn.term = s.term ∧ tn.leader = s.config.id
  | .readIndex _ => False
  | .readIndexResponse r => r.term = s.term ∧ r.sender = s.config.id ∧ r.reject = true

/-- Where a read the leader takes on comes from. -/
def ReadSource (s : Endpoint I M) (inp : Input I) (context : Bytes) :
    Option I → Prop
  | none => s.readContextInFlight context = false
  | some f => ∃ ri, inp = .message f (.readIndex ri) ∧ ri.term = s.term ∧ ri.context = context ∧
      ri.sender = f

/-- The visible log holds an entry of the current term at the commit index. -/
def CommittedOwn (s : Endpoint I M) : Prop := s.log.visible.term s.commit = s.term

/-! ## The effects -/

/-- Forgets the pending install, raises the durable boundary to it and
re-baselines. -/
def installBase (s : Endpoint I M) (fsm : M.State) (m : SnapshotMeta I) : Endpoint I M :=
  { s with
    snapshot := { s.snapshot with pendingInstall := none }
    durable := { s.durable with
      durableSnapshotIndex := max s.durable.durableSnapshotIndex m.lastIndex } }.rebaseline fsm m

/-- One effect of a call at time `now` that handles `inp`. Under `mono` no
snapshot replaces one with a higher boundary in the slot, and only then is it
known that the slot reaches what was once durable in it. -/
inductive Step (mono : Prop) (now : Instant) (inp : Input I) :
    Endpoint I M → Endpoint I M → Prop where
  | idle {s s'} (h : s'.core = s.core)
      (flow : s.tracker.Moves False inp.Rewinds s.log.visible.Contiguous s.stable.visible.slot s'.tracker) :
      Step mono now inp s s'
  | die {s} (reason : PoisonReason) : Step mono now inp s (s.poison reason)
  /-- What is left behind after a failure inside an operation. -/
  | junk {s s'} (dead : s'.poisoned = true) (config : s'.config = s.config) (log : s'.log = s.log)
      (stable : s'.stable = s.stable) (id : s'.nextOpId = s.nextOpId)
      (outgoing : s'.outgoing.Sublist s.outgoing)
      (role : s'.role = .leader → s.role = .leader ∧ s'.term = s.term) (fsm : s'.fsm = s.fsm)
      (reason : s.poisoned = true → s'.poisonReason = s.poisonReason) : Step mono now inp s s'
  -- terms and roles
  | adopt {s} {sender m} (live : s.poisoned = false) (msg : inp = .message sender m)
      (newer : s.term < m.term) (real : m.advertisedPrevote = false)
      (open_ : s.refusedInLease now m = false) : Step mono now inp s (s.adoptTerm m.term)
  | follow {s} {l m} (live : s.poisoned = false) (msg : inp = .message l m)
      (leader : fromLeader m = true) (sender : m.sender = l) (term : m.term = s.term) :
      Step mono now inp s (s.followLeader now l)
  | arm {s} (live : s.poisoned = false) (role : s.role ≠ .leader) (none : s.electionDeadline = none) :
      Step mono now inp s (s.armElectionTimer now)
  | expire {s} (live : s.poisoned = false) (role : s.role ≠ .leader)
      (due : s.electionDeadline.any (· ≤ now) = true) :
      Step mono now inp s { s with electionDeadline := none }
  | preCampaign {s} (live : s.poisoned = false) (role : s.role ≠ .leader) :
      Step mono now inp s (s.startPreCampaign now)
  | campaign {s} (live : s.poisoned = false) (mint : s.Mintable)
      (voter : s.tracker.isVoter s.config.id = true) (term : next s.term ≠ s.term)
      (stirred : inp ≠ .quiet)
      (cause : s.electionDeadline = none ∨ s.role = .preCandidate ∨
        ∃ l tn, inp = .message l (.timeoutNow tn) ∧ tn.term = s.term ∧ s.leader = some tn.leader) :
      Step mono now inp s (s.startCampaign now)
  | cast {s} {sender rv} (live : s.poisoned = false) (mint : s.Mintable)
      (msg : inp = .message sender (.requestVote rv)) (term : rv.term = s.term)
      (real : rv.preVote = false) (free : s.votedFor = none ∨ s.votedFor = some rv.candidate)
      (fresh : logLe (s.voteFloor s.lastLogOf) (rv.lastLogTerm, rv.lastLogIndex) = true)
      (unfenced : s.leaseVoteFenced now rv.leaderTransfer = false) :
      Step mono now inp s (s.castVote now rv.candidate)
  | vote {s} {sender vr} (live : s.poisoned = false) (msg : inp = .message sender (.voteResponse vr))
      (role : if vr.preVote then s.role = .preCandidate
        else s.role = .candidate ∧ vr.term = s.term) : Step mono now inp s (s.recordVote vr)
  | lead {s} (live : s.poisoned = false) (role : s.role = .candidate)
      (won : s.tracker.voteResult s.votes = .won)
      (durable : s.stable.durable.ballot = (s.term, some s.config.id)) :
      Step mono now inp s (s.resetLeader now)
  | retire {s} (live : s.poisoned = false) (out : s.tracker.isVoter s.config.id = false) :
      Step mono now inp s { { s with role := .follower }.setLeader none with
        heartbeatDeadline := none, electionDeadline := none }
  | stepDown {s} (live : s.poisoned = false) (role : s.role = .leader) :
      Step mono now inp s (s.stepDownToFollower now)
  | recheck {s} (live : s.poisoned = false) (role : s.role = .leader)
      (checks : s.config.checkQuorum = true) :
      Step mono now inp s { s with electionDeadline := some (now + s.config.electionTimeout) }
  -- writes of the hard state
  | write {s} (live : s.poisoned = false) (mint : s.Mintable) : Step mono now inp s s.submitHardState.2
  | rewrite {s} (live : s.poisoned = false) (mint : s.Mintable)
      (same : s.stable.hardState = s.stable.visible.hardState) :
      Step mono now inp s (s.mintOpId.2.submitWrite s.nextOpId s.stable.hardState)
  | wrote {s} {id rest} (live : s.poisoned = false)
      (ready : s.stable.ready = some (.wrote id) :: rest) :
      Step mono now inp s { s with
        stable := { s.stable with ready := rest }, durable := noteWrote s.durable id }
  | raiseHard {s} {hs} (live : s.poisoned = false) (durable : s.stable.durable.hardState = hs) :
      Step mono now inp s { s with durable := raiseDurable s.durable hs }
  | settled {s} {pre post id p} (live : s.poisoned = false)
      (pending : s.pendingStable = pre ++ (id, p) :: post)
      (proven : provenBy s.config.id s.stable.durable.hardState p = true) :
      Step mono now inp s { s with pendingStable := pre ++ post }
  | pollStable {s} {d rest} (live : s.poisoned = false) (ready : s.stable.ready = d :: rest) :
      Step mono now inp s { s with stable := { s.stable with ready := rest } }
  -- messages
  | send {s} {dest m} (live : s.poisoned = false) (ok : Sendable now inp s dest m) :
      Step mono now inp s (s.send dest m)
  -- the log
  | appendOwn {s} {index kind} (live : s.poisoned = false) (mint : s.Mintable)
      (role : s.role = .leader) (index_eq : index = s.log.lastIndex + 1)
      (conf : kind.isConfChange = true → s.tracker.isJoint = true ∨ inp = .change)
      (sized : s.Sized kind) :
      Step mono now inp s (s.appendOwn index kind)
  | overwrite {s} {sender ae e es} (live : s.poisoned = false) (mint : s.Mintable)
      (msg : inp = .message sender (.appendEntries ae)) (term : ae.term = s.term)
      (role : s.role = .follower) (conflict : s.Conflicts ae e es) :
      Step mono now inp s (s.overwrite e.index (e :: es)).2
  | pushAck {s} {sender ae lastNew id} (live : s.poisoned = false)
      (msg : inp = .message sender (.appendEntries ae)) (term : ae.term = s.term)
      (role : s.role = .follower) (agrees : s.Matches ae lastNew) :
      Step mono now inp s (s.pushPending id (.followerAck ae.leader lastNew))
  | ackAppend {s} {sender ae lastNew} (live : s.poisoned = false)
      (msg : inp = .message sender (.appendEntries ae)) (term : ae.term = s.term)
      (agrees : s.Matches ae lastNew) :
      Step mono now inp s (s.sendOrGateAppendAck ae.leader lastNew)
  | releaseAck {s} {pre post id dest m} (live : s.poisoned = false)
      (pending : s.pendingLog = pre ++ (id, .followerAck dest m) :: post) :
      Step mono now inp s ({ s with pendingLog := pre ++ post }.sendOrGateAppendAck dest m)
  | dropLog {s} {pre post p} (live : s.poisoned = false) (pending : s.pendingLog = pre ++ p :: post) :
      Step mono now inp s { s with pendingLog := pre ++ post }
  | pollLog {s} {d rest} (live : s.poisoned = false) (ready : s.log.ready = d :: rest) :
      Step mono now inp s { s with log := { s.log with ready := rest } }
  | appended {s} {id rest} (live : s.poisoned = false)
      (ready : s.log.ready = some (.appended id) :: rest) :
      Step mono now inp s ({ s with log := { s.log with ready := rest } }.noteAppended id)
  | raiseIndex {s} {d} (live : s.poisoned = false) (durable : s.log.durableIndex = some d) :
      Step mono now inp s
        { s with durable := { s.durable with durableIndex := max s.durable.durableIndex d } }
  | popInflight {s} {id upto rest} (live : s.poisoned = false)
      (front : s.durable.inflightAppendUpto = (id, upto) :: rest)
      (covered : upto ≤ s.durable.durableIndex) :
      Step mono now inp s { s with durable := { s.durable with inflightAppendUpto := rest } }
  -- matches of the leader
  | matchOwn {s} {pre post id upto} (live : s.poisoned = false) (role : s.role = .leader)
      (pending : s.pendingLog = pre ++ (id, .leaderAppend upto) :: post)
      (durable : upto ≤ s.durable.durableIndex) :
      Step mono now inp s { s with
        pendingLog := pre ++ post
        tracker := s.tracker.modifyProgress s.config.id fun p => (p.maybeUpdate upto).1 }
  | matchPeer {s} {sender m r f} (live : s.poisoned = false) (role : s.role = .leader)
      (msg : inp = .message sender m)
      (ack : m = .appendResponse r ∨ ∃ q : SnapshotResponse I, m = .snapshotResponse q ∧
        q.term = r.term ∧ q.sender = r.sender ∧ q.reject = r.reject ∧
        q.matchIndex = r.matchIndex ∧ q.progress = false)
      (term : r.term = s.term) (from_ : r.sender = sender) (ok : r.reject = false)
      (within : r.matchIndex ≤ s.log.lastIndex)
      (raises : ∀ p, (f p).matchIndex = max p.matchIndex r.matchIndex)
      (flow : ∀ p, Progress.Path False True 0 p (f p)) :
      Step mono now inp s { s with tracker := s.tracker.modifyProgress sender f }
  -- commit and apply
  | commitQuorum {s} (live : s.poisoned = false) (role : s.role = .leader)
      (higher : s.commit < s.tracker.quorumCommitted)
      (own : s.log.visible.term s.tracker.quorumCommitted = s.term) :
      Step mono now inp s { s with commit := s.tracker.quorumCommitted }
  | commitHeartbeat {s} {sender hb} (live : s.poisoned = false)
      (msg : inp = .message sender (.heartbeat hb)) (term : hb.term = s.term)
      (higher : s.commit < min hb.commit s.log.lastIndex) :
      Step mono now inp s { s with commit := min hb.commit s.log.lastIndex }
  | commitAppend {s} {sender ae lastNew} (live : s.poisoned = false)
      (msg : inp = .message sender (.appendEntries ae)) (term : ae.term = s.term)
      (agrees : s.Matches ae lastNew) (higher : s.commit < min ae.leaderCommit lastNew) :
      Step mono now inp s { s with commit := min ae.leaderCommit lastNew }
  | commitShortcut {s} {m} (live : s.poisoned = false) (offered : s.Offered inp m)
      (higher : s.commit < m.lastIndex) (held : m.lastIndex ≤ s.durable.durableIndex)
      (boundary : s.log.visible.term m.lastIndex = m.lastTerm) :
      Step mono now inp s { s with commit := m.lastIndex }
  | apply {s} {e} (live : s.poisoned = false) (running : s.pendingApply = none)
      (entry : s.log.visible.get e.index = some e) :
      Step mono now inp s (s.applyEntry e)
  -- snapshots
  | capture {s} {snap lastTerm} (live : s.poisoned = false) (mint : s.Mintable)
      (turn : inp = .snapshot)
      (free : s.snapshot.pendingCompact = none ∧ s.snapshot.pendingInstall = none)
      (encoded : M.snapshot s.fsm = some snap) (some_ : s.applied ≠ 0)
      (boundary : s.log.visible.term s.applied = lastTerm)
      (submitted : s.stable.visible.hardState.term = s.term)
      (higher : mono → s.stable.visible.slot ≤ s.applied) :
      Step mono now inp s
        (s.capture ⟨s.applied, lastTerm, s.tracker.confState⟩ (M.encodeSnapshot snap))
  | compacted {s} {id m} (live : s.poisoned = false)
      (pending : s.snapshot.pendingCompact = some (id, m)) (covers : mono → s.SlotCovers m.lastIndex) :
      Step mono now inp s (s.finishCompact m)
  | beginInstall {s} {sender is blob snap} (live : s.poisoned = false) (mint : s.Mintable)
      (msg : inp = .message sender (.installSnapshot is)) (term : is.term = s.term)
      (role : s.role = .follower) (slot : s.visibleSlot ≤ is.snapshot.lastIndex)
      (ahead : s.committedBound < is.snapshot.lastIndex)
      (decoded : M.decodeSnapshot blob = some snap)
      (higher : mono → s.stable.visible.slot ≤ is.snapshot.lastIndex)
      (submitted : s.stable.visible.hardState.term = s.term)
      (whole : is.totalLen = 0 ∧ blob = is.data ∨
        ∃ st, s.stable.staging = some st ∧ st.snapshot.identityEq is.snapshot = true ∧
          st.totalLen = is.totalLen ∧ st.isComplete = true ∧ st.buf = blob) :
      Step mono now inp s (let (id, s') := s.submitSnapshot is.snapshot blob
        { s' with snapshot := { s'.snapshot with
            pendingInstall := some (id, is.snapshot, snap, is.leader) } })
  | dropInstall {s} (live : s.poisoned = false) :
      Step mono now inp s { s with snapshot := { s.snapshot with pendingInstall := none } }
  | raiseSlot {s} {n} (live : s.poisoned = false) (covers : mono → s.SlotCovers n) (known : n ≤ s.commit) :
      Step mono now inp s { s with durable := { s.durable with
        durableSnapshotIndex := max s.durable.durableSnapshotIndex n } }
  | install {s} {id m snap leader fsm} (live : s.poisoned = false) (role : s.role = .follower)
      (pending : s.snapshot.pendingInstall = some (id, m, snap, leader))
      (covers : mono → s.SlotCovers m.lastIndex) (ahead : s.commit < m.lastIndex)
      (foreign : s.durable.durableIndex < m.lastIndex ∨
        s.log.visible.term m.lastIndex ≠ m.lastTerm)
      (restored : M.restore s.fsm snap = some fsm)
      (slot : ∃ blob, s.stable.durable.snapshot = some (m, blob)) :
      Step mono now inp s (s.installBase fsm m)
  | retrack {s} {m blob news} (live : s.poisoned = false) (role : s.role = .follower)
      (slot : s.stable.durable.snapshot = some (m, blob)) (reached : m.lastIndex ≤ s.applied)
      (reported : news = [.snapshotRestored m] ∨
        news = [.snapshotRestored m, .confChanged m.lastIndex m.conf]) :
      Step mono now inp s { s with
        events := s.events ++ news
        tracker := Tracker.fromConfState m.conf m.lastIndex s.config.maxInflightMsgs
          s.config.maxInflightBytes }.retainFarewells
  | ackSnapshot {s} {dest n} (live : s.poisoned = false) (known : n ≤ s.commit) :
      Step mono now inp s (s.sendOrGateSnapshotAck dest n)
  | ackShortcut {s} {dest n} (live : s.poisoned = false) (known : n ≤ s.commit) :
      Step mono now inp s (s.sendOrGateShortcutSnapshotAck dest n)
  | receive {s s'} {sender is} (live : s.poisoned = false)
      (msg : inp = .message sender (.installSnapshot is)) (term : is.term = s.term)
      (chunk : ∃ n stable, s.stable.acceptSnapshotChunk is.snapshot is.totalLen is.offset is.data =
        (n, stable) ∧ s'.core = { s with stable := stable }.core)
      (flow : s'.tracker = s.tracker) : Step mono now inp s s'
  | staging {s} {staging recv} (live : s.poisoned = false)
      (only : staging = none ∨ staging = s.stable.staging) :
      Step mono now inp s { s with
        snapshot := { s.snapshot with snapshotRecv := recv }
        stable := { s.stable with staging := staging } }
  -- gated acknowledgements
  | flushShortcut {s} (live : s.poisoned = false) : Step mono now inp s s.flushShortcutGatedAck
  | dropGates {s} (live : s.poisoned = false) : Step mono now inp s { s with durable := { s.durable with
      termGatedSnapshotAck := dropStaleGate s.term s.durable.termGatedSnapshotAck
      termGatedAppendAck := dropStaleGate s.term s.durable.termGatedAppendAck } }
  | flushSnapshotGate {s} (live : s.poisoned = false) (durable : s.termIsDurable = true)
      (current : ∀ g, s.durable.termGatedSnapshotAck = some g → g.2.1 = s.term) :
      Step mono now inp s s.flushTermGatedSnapshotAck
  | flushAppendGate {s} (live : s.poisoned = false) (durable : s.termIsDurable = true)
      (current : ∀ g, s.durable.termGatedAppendAck = some g → g.2.1 = s.term) :
      Step mono now inp s s.flushTermGatedAppendAck
  -- farewells
  | farewell {s} {peer retry} (live : s.poisoned = false) (role : s.role = .leader)
      (owed : (peer, retry) ∈ s.pendingFarewells) :
      Step mono now inp s (s.sendFarewell peer retry.matched retry.idx)
  | farewells {s} {kept} (live : s.poisoned = false) (fewer : s.pendingFarewells = [] → kept = []) :
      Step mono now inp s { s with pendingFarewells := kept }
  -- reads
  | deferRead {s} {context reqFrom} (live : s.poisoned = false) (role : s.role = .leader)
      (source : s.ReadSource inp context reqFrom) : Step mono now inp s (s.deferRead context reqFrom)
  | register {s} {context reqFrom token ro} (live : s.poisoned = false) (role : s.role = .leader)
      (source : s.ReadSource inp context reqFrom) (own : s.CommittedOwn)
      (added : s.reads.readOnly.addRequest s.commit context reqFrom s.config.id = some (token, ro)) :
      Step mono now inp s { s with reads := { s.reads with readOnly := ro } }
  | registerDeferred {s} {context reqFrom rest token ro} (live : s.poisoned = false)
      (role : s.role = .leader) (deferred : s.reads.pendingReads = (context, reqFrom) :: rest)
      (own : s.CommittedOwn)
      (added : s.reads.readOnly.addRequest s.commit context reqFrom s.config.id = some (token, ro)) :
      Step mono now inp s { s with reads := { s.reads with readOnly := ro, pendingReads := rest } }
  | confirm {s} {token} (live : s.poisoned = false) (role : s.role = .leader)
      (quorum : s.readQuorumReached token = true) : Step mono now inp s (s.confirmReads token)
  | ackRead {s} {sender r} (live : s.poisoned = false) (role : s.role = .leader)
      (msg : inp = .message sender (.heartbeatResponse r)) (term : r.term = s.term)
      (from_ : r.sender = sender) :
      Step mono now inp s { s with reads := { s.reads with
        readOnly := s.reads.readOnly.recvAck sender r.context } }
  | leaseRead {s} {context reqFrom rest} (live : s.poisoned = false)
      (mode : s.config.readOnly = .leaseBased)
      (available : s.leaseReadAvailable now = true)
      (pending : rest = s.reads.pendingReads ∨ ∃ p, s.reads.pendingReads = p :: rest) :
      Step mono now inp s ({ s with reads := { s.reads with pendingReads := rest } }.emitOrReplyRead
        s.commit context reqFrom)
  | forward {s} {leader context token fwd} (live : s.poisoned = false) (role : s.role = .follower)
      (known : s.leader = some leader)
      (new : s.reads.forwardedReads.containsContext context = false)
      (pushed : s.reads.forwardedReads.push context = some (token, fwd)) :
      Step mono now inp s ({ s with reads := { s.reads with forwardedReads := fwd } }.send leader
        (.readIndex ⟨s.term, s.config.id, token⟩))
  | answered {s} {sender r} (live : s.poisoned = false)
      (msg : inp = .message sender (.readIndexResponse r)) (term : r.term = s.term) :
      Step mono now inp s (s.onReadIndexResponse sender r)
  -- leases
  | leaseRound {s} (live : s.poisoned = false) (role : s.role = .leader)
      (more : s.checkQuorumLease.leaseRound < u64Max) :
      Step mono now inp s { s with checkQuorumLease := { s.checkQuorumLease with
        leaseRound := s.checkQuorumLease.leaseRound + 1
        leaseRoundStart := now
        leaseAcks := ∅
        leaseMinSupport := s.config.electionTimeout } }
  | renewLease {s} {sender r} (live : s.poisoned = false) (role : s.role = .leader)
      (msg : inp = .message sender (.heartbeatResponse r)) (term : r.term = s.term)
      (from_ : r.sender = sender) : Step mono now inp s (s.renewLease sender r)
  | dropLease {s} (live : s.poisoned = false) : Step mono now inp s s.dropLease
  | support {s} (live : s.poisoned = false)
      (enforcing : s.config.checkQuorum = true ∨ s.config.preVote = true)
      (raise : optLt s.durable.leaseSupportFloor (some s.config.electionTimeout) = true) :
      Step mono now inp s { s with durable := { s.durable with
        leaseSupportFloor := some s.config.electionTimeout } }

/-- Any number of effects. -/
abbrev Steps (mono : Prop) (now : Instant) (inp : Input I) :
    Endpoint I M → Endpoint I M → Prop :=
  Relation.ReflTransGen (Step mono now inp)

end Endpoint

end Sailing
