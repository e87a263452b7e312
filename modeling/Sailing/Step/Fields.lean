import Sailing.Step.Relation

/-!
# The effects as record updates

Each operation with a branch inside is stated as one update of the fields it
can touch, so that every other field is seen to be kept.
-/

namespace Sailing.Endpoint

variable {I : Type} [LinearOrder I] {M : StateMachine} {s : Endpoint I M}

omit [LinearOrder I] in
@[simp] theorem poisoned_poison (reason : PoisonReason) : (s.poison reason).poisoned = true := by
  unfold poison poisoned
  cases s.poisonReason <;> rfl

omit [LinearOrder I] in
theorem poisonReason_poison (h : s.poisoned = true) (reason : PoisonReason) :
    (s.poison reason).poisonReason = s.poisonReason := by
  unfold poisoned at h
  unfold poison
  cases hr : s.poisonReason with
  | none => simp [hr] at h
  | some => rfl

/-- What a change of leader leaves of the reads. -/
def readsUnder (s : Endpoint I M) (leader : Option I) : Reads I :=
  if s.leader = leader then s.reads
  else { s.reads with forwardedReads := s.reads.forwardedReads.clear }

def eventsUnder (s : Endpoint I M) (leader : Option I) : List (Event I M.Response) :=
  if s.leader = leader then s.events else s.events ++ [.leaderChanged s.term leader]

theorem setLeader_eq (leader : Option I) : s.setLeader leader =
    { s with leader := leader, reads := s.readsUnder leader, events := s.eventsUnder leader } := by
  unfold setLeader readsUnder eventsUnder
  split
  · next h => simp [← h]
  · rfl

@[simp] theorem readsUnder_readOnly (leader : Option I) : (s.readsUnder leader).readOnly = s.reads.readOnly := by
  unfold readsUnder
  split <;> rfl

omit [LinearOrder I] in
theorem send_live (live : s.poisoned = false) (dest : I) (m : Message I) :
    s.send dest m = { s with outgoing := s.outgoing ++ [⟨dest, m⟩] } := by
  simp [send, live]

omit [LinearOrder I] in
theorem send_eq (dest : I) (m : Message I) : s.send dest m =
    { s with outgoing := s.outgoing ++ if s.poisoned then [] else [⟨dest, m⟩] } := by
  unfold send
  split <;> simp

omit [LinearOrder I] in
theorem mintOpId_eq (mint : s.Mintable) : s.mintOpId = (s.nextOpId, { s with nextOpId := s.nextOpId.next }) := by
  simp only [mintOpId, if_neg mint]

omit [LinearOrder I] in
theorem submitWrite_eq (live : s.poisoned = false) (id : OpId) (hs : HardState I) : s.submitWrite id hs = { s with
      durable := noteSubmitted s.durable id (s.stampFloors hs)
      stable := s.stable.submitWrite id (s.stampFloors hs) } := by
  simp [submitWrite, live]

omit [LinearOrder I] in
theorem mintWrite_eq (live : s.poisoned = false) (mint : s.Mintable) (id : OpId) (hs : HardState I) :
    s.mintOpId.2.submitWrite id hs = { s with
      nextOpId := s.nextOpId.next
      durable := noteSubmitted s.durable id (s.stampFloors hs)
      stable := s.stable.submitWrite id (s.stampFloors hs) } := by
  rw [mintOpId_eq mint, submitWrite_eq (s := { s with nextOpId := s.nextOpId.next }) live]
  rfl

omit [LinearOrder I] in
theorem noteSubmitted_eq (d : Durability I) (id : OpId) (hs : HardState I) : noteSubmitted d id hs = { d with
      lastSubmittedTerm := if d.lastSubmittedTerm < hs.term then hs.term else d.lastSubmittedTerm
      termPersistOpid := if d.lastSubmittedTerm < hs.term then id else d.termPersistOpid
      lastSubmittedLeaseSupport :=
        if optLt d.lastSubmittedLeaseSupport hs.leaseSupport.promised then hs.leaseSupport.promised
        else d.lastSubmittedLeaseSupport
      leaseSupportPersistOpid :=
        if optLt d.lastSubmittedLeaseSupport hs.leaseSupport.promised then id
        else d.leaseSupportPersistOpid
      lastSubmittedCommit :=
        if d.lastSubmittedCommit < hs.commit then hs.commit else d.lastSubmittedCommit
      commitPersistOpid := if d.lastSubmittedCommit < hs.commit then id else d.commitPersistOpid
      lastSubmittedVote := hs.vote } := by
  unfold noteSubmitted
  by_cases h₁ : d.lastSubmittedTerm < hs.term <;>
    by_cases h₂ : optLt d.lastSubmittedLeaseSupport hs.leaseSupport.promised <;>
    by_cases h₃ : d.lastSubmittedCommit < hs.commit <;> simp [h₁, h₂, h₃]

omit [LinearOrder I] in
theorem noteWrote_eq (d : Durability I) (id : OpId) : noteWrote d id = { d with
      durableTerm := if d.durableTerm < d.lastSubmittedTerm ∧ d.termPersistOpid.le id then
        d.lastSubmittedTerm else d.durableTerm
      durableCommitIndex :=
        if d.durableCommitIndex < d.lastSubmittedCommit ∧ d.commitPersistOpid.le id then
          d.lastSubmittedCommit else d.durableCommitIndex
      durableLeaseSupport :=
        if optLt d.durableLeaseSupport d.lastSubmittedLeaseSupport ∧
            d.leaseSupportPersistOpid.le id then
          d.lastSubmittedLeaseSupport else d.durableLeaseSupport } := by
  unfold noteWrote
  by_cases h₁ : d.durableTerm < d.lastSubmittedTerm ∧ d.termPersistOpid.le id <;>
    by_cases h₂ : d.durableCommitIndex < d.lastSubmittedCommit ∧ d.commitPersistOpid.le id <;>
    by_cases h₃ : optLt d.durableLeaseSupport d.lastSubmittedLeaseSupport ∧
      d.leaseSupportPersistOpid.le id <;> simp [h₁, h₂, h₃]

/-- The bookkeeping after the current hard state is submitted. -/
def notedHardState (s : Endpoint I M) : Durability I :=
  { noteSubmitted s.durable s.nextOpId (s.stampFloors s.currentHardState) with
    committedPersisted := min s.commit
      (noteSubmitted s.durable s.nextOpId (s.stampFloors s.currentHardState)).durableIndex }

omit [LinearOrder I] in
theorem submitHardState_eq (live : s.poisoned = false) (mint : s.Mintable) : s.submitHardState = (s.nextOpId, { s with
      nextOpId := s.nextOpId.next
      durable := s.notedHardState
      stable := s.stable.submitWrite s.nextOpId (s.stampFloors s.currentHardState) }) := by
  unfold submitHardState
  rw [mintOpId_eq mint]
  simp only
  rw [submitWrite_eq (s := { s with nextOpId := s.nextOpId.next }) live]
  rfl

omit [LinearOrder I] in
theorem submitAppend_eq (live : s.poisoned = false) (id : OpId) (e : Entry I) (es : List (Entry I)) :
    s.submitAppend id (e :: es) = { s with
      log := s.log.submitAppend id (e :: es)
      durable := { s.durable with inflightAppendUpto :=
        s.durable.inflightAppendUpto ++ [(id, ((e :: es).getLast (by simp)).index)] } } := by
  simp [submitAppend, live, List.getLast?_eq_some_getLast]

omit [LinearOrder I] in
theorem appendOwn_eq (live : s.poisoned = false) (mint : s.Mintable) (index : Index)
    (kind : EntryKind I) : s.appendOwn index kind = { s with
      nextOpId := s.nextOpId.next
      log := s.log.submitAppend s.nextOpId [⟨s.term, index, kind⟩]
      durable := { s.durable with inflightAppendUpto :=
        s.durable.inflightAppendUpto ++ [(s.nextOpId, index)] }
      pendingLog := s.pendingLog ++ [(s.nextOpId, .leaderAppend index)]
      replicationPending := true } := by
  unfold appendOwn
  rw [mintOpId_eq mint]
  simp only
  rw [submitAppend_eq (s := { s with nextOpId := s.nextOpId.next }) live]
  rfl

omit [LinearOrder I] in
theorem overwrite_eq (live : s.poisoned = false) (mint : s.Mintable) (e : Entry I)
    (es : List (Entry I)) : (s.overwrite e.index (e :: es)).2 =
      { (s.scrubAcksAbove (e.index - 1)).cutDurable e.index with
        nextOpId := s.nextOpId.next
        log := s.log.submitAppend s.nextOpId (e :: es)
        durable := { ((s.scrubAcksAbove (e.index - 1)).cutDurable e.index).durable with
          inflightAppendUpto :=
            ((s.scrubAcksAbove (e.index - 1)).cutDurable e.index).durable.inflightAppendUpto ++
              [(s.nextOpId, ((e :: es).getLast (by simp)).index)] } } := by
  unfold overwrite
  simp only
  rw [mintOpId_eq (s := (s.scrubAcksAbove (e.index - 1)).cutDurable e.index) mint]
  simp only
  rw [submitAppend_eq (s := { (s.scrubAcksAbove (e.index - 1)).cutDurable e.index with nextOpId := _ }) live]
  rfl

omit [LinearOrder I] in
theorem submitSnapshot_eq (live : s.poisoned = false) (mint : s.Mintable) (m : SnapshotMeta I)
    (blob : Bytes) : s.submitSnapshot m blob = (s.nextOpId, { s with
      nextOpId := s.nextOpId.next
      stable := s.stable.submitSnapshot s.nextOpId m blob }) := by
  unfold submitSnapshot
  rw [mintOpId_eq mint]
  have : ({ s with nextOpId := s.nextOpId.next } : Endpoint I M).poisoned = false := live
  simp [this]

/-- The candidate of the next term, before it submits its vote. -/
def nominated (s : Endpoint I M) : Endpoint I M :=
  { s with
    term := next s.term, pendingLog := [], pendingStable := [], role := .candidate, leader := none
    reads := s.readsUnder none
    events := { s with term := next s.term }.eventsUnder none
    votedFor := some s.config.id
    votes := Function.update (fun _ => none) s.config.id (some true) }

theorem startCampaign_eq (live : s.poisoned = false) (mint : s.Mintable) (now : Instant) :
    s.startCampaign now = { s.nominated with
      nextOpId := s.nextOpId.next
      durable := s.nominated.notedHardState
      stable := s.stable.submitWrite s.nextOpId
        (s.nominated.stampFloors s.nominated.currentHardState)
      pendingStable := [(s.nextOpId, .campaign (next s.term))]
      electionDeadline :=
        some (now + (randomElectionTimeout s.rng s.config.electionTimeout).1)
      heartbeatDeadline := none
      rng := (randomElectionTimeout s.rng s.config.electionTimeout).2 } := by
  have h : s.startCampaign now = (s.nominated.submitHardState.2.pushPending
      s.nominated.submitHardState.1 (.campaign s.nominated.submitHardState.2.term)).armElectionTimer now := by
    unfold startCampaign
    rw [setLeader_eq]
    rfl
  rw [h, submitHardState_eq (s := s.nominated) live mint]
  rfl

omit [LinearOrder I] in
theorem castVote_eq (live : s.poisoned = false) (mint : s.Mintable) (now : Instant) (candidate : I) :
    s.castVote now candidate = { s with
      votedFor := some candidate
      nextOpId := s.nextOpId.next
      durable := { s with votedFor := some candidate }.notedHardState
      stable := s.stable.submitWrite s.nextOpId
        (s.stampFloors { s with votedFor := some candidate }.currentHardState)
      pendingStable := s.pendingStable ++ [(s.nextOpId, .castVote candidate s.term)]
      electionDeadline :=
        some (now + (randomElectionTimeout s.rng s.config.electionTimeout).1)
      heartbeatDeadline := none
      rng := (randomElectionTimeout s.rng s.config.electionTimeout).2 } := by
  have h := submitHardState_eq (s := { s with votedFor := some candidate }.armElectionTimer now) live mint
  show (fun p : OpId × Endpoint I M => p.2.pushPending p.1 (.castVote candidate p.2.term))
    ({ s with votedFor := some candidate }.armElectionTimer now).submitHardState = _
  rw [h]
  rfl

theorem le_randomElectionTimeout (rng : Nat → Nat) (base : Duration) : base ≤ (randomElectionTimeout rng base).1 := by
  unfold randomElectionTimeout
  simp only
  split
  · simp
  · split <;> simp

end Sailing.Endpoint
