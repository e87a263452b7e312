import Sailing.Calls.Reading

/-!
# Elections and timers, as steps

Campaigning, voting, taking over and stepping down. A candidate takes over only
when its own vote is durable, which the invariant of the ballots turns into the
durable hard state.
-/

namespace Sailing.Endpoint

open Sent (idle refl)

variable {I : Type} [LinearOrder I] {M : StateMachine}
variable {mono : Prop} {now : Instant} {inp : Input I} {s s' : Endpoint I M}

/-! ## Timers -/

theorem steps_reconcileElectionTimer : Steps mono now inp s (s.reconcileElectionTimer now) := by
  unfold reconcileElectionTimer
  split
  · next h =>
    by_cases live : s.poisoned = false
    · exact .single (.arm live h.1 (by simpa using h.2.1))
    · exact .single (.junk ((Bool.not_eq_false _).mp live :) rfl rfl rfl rfl (List.Sublist.refl _)
        (fun hr => ⟨hr, rfl⟩) rfl fun _ => rfl)
  · exact .refl

/-! ## Taking over -/

omit [LinearOrder I] in
theorem lastLog_some {last : Index × Term} (h : s.lastLog = (some last, s')) : s' = s ∧ last = s.lastLogOf := by
  unfold lastLog at h
  unfold lastLogOf
  split at h
  · next h0 =>
    simp only [Prod.mk.injEq, Option.some.injEq] at h
    exact ⟨h.2.symm, by rw [← h.1, h0]; rfl⟩
  next h0 =>
  split at h
  · next h' =>
    obtain ⟨rfl, ht⟩ := logTerm_some h'
    simp only [Prod.mk.injEq, Option.some.injEq] at h
    exact ⟨h.2.symm, by rw [← h.1, if_neg h0, ht]⟩
  · cases h

omit [LinearOrder I] in
theorem lastLog_none (h : s.lastLog = (none, s')) : s' = s.poison .logTerm := by
  unfold lastLog at h
  split at h
  · cases h
  split at h
  · cases h
  next h' =>
  simp only [Prod.mk.injEq, true_and] at h
  exact h.symm.trans (logTerm_none h')

omit [LinearOrder I] in
theorem poison_poison (reason reason' : PoisonReason) : (s.poison reason).poison reason' = s.poison reason := by
  unfold poison
  cases s.poisonReason <;> rfl

theorem nextLogIndex_some {last index : Index} (h : nextLogIndex last = some index) : index = last + 1 := by
  unfold nextLogIndex checkedNext at h
  have := (Option.filter_eq_some_iff.mp h).1
  split at this
  · exact (Option.some.inj this).symm
  · cases this

/-- An append of the leader's own, whether or not an id is left for it. -/
theorem steps_appendOwn {index : Index} {kind : EntryKind I} (live : s.poisoned = false)
    (role : s.role = .leader) (index_eq : index = s.log.lastIndex + 1)
    (conf : kind.isConfChange = true → s.tracker.isJoint = true ∨ inp = .change) (sized : s.Sized kind) :
    Steps mono now inp s (s.appendOwn index kind) := by
  by_cases mint : s.Mintable
  · exact .single (.appendOwn live mint role index_eq conf sized)
  unfold appendOwn
  rw [mintOpId_spent mint]
  have h : (s.poison .opIdExhausted).submitAppend s.nextOpId
      [⟨(s.poison .opIdExhausted).term, index, kind⟩] = s.poison .opIdExhausted := by
    simp [submitAppend]
  simp only [h]
  exact .single (.junk (poisoned_poison _) rfl rfl rfl rfl (List.Sublist.refl _)
    (fun hr => ⟨hr, rfl⟩) rfl fun hp => poisonReason_poison hp _)

omit [LinearOrder I] in
theorem appendOwn_role (index : Index) (kind : EntryKind I) : (s.appendOwn index kind).role = s.role := by
  unfold appendOwn mintOpId submitAppend pushPending
  simp only
  split <;> split <;> rfl

/-- The durable ballot is the self-vote once the write of it is not waited
for. -/
theorem NodeInv.selfVote (h : NodeInv mono s) (live : s.poisoned = false)
    (role : s.role = .candidate) (proven : s.selfVoteDurable = true) :
    s.stable.durable.ballot = (s.term, some s.config.id) :=
  ((h.votes live).candidate role).2.2 proven _ List.mem_cons_self

theorem resetLeader_role : (s.resetLeader now).role = .leader := by
  unfold resetLeader
  rw [setLeader_eq]
  simp only
  split <;> rfl

theorem steps_appendLeaderNoop (role : s.role = .leader) : Steps mono now inp s (s.appendLeaderNoop s.log.lastIndex).2 ∧
      (s.appendLeaderNoop s.log.lastIndex).2.role = .leader := by
  unfold appendLeaderNoop
  split
  · exact ⟨.refl, role⟩
  next hp =>
  split
  · exact ⟨.single (.die _), role⟩
  next i hi =>
  refine ⟨steps_appendOwn (by simpa using hp) role (nextLogIndex_some hi) ?_ (.inl rfl), ?_⟩
  · simp [EntryKind.isConfChange]
  · rw [appendOwn_role, role]

theorem steps_becomeLeader (live : s.poisoned = false) (role : s.role = .candidate)
    (won : s.tracker.voteResult s.votes = .won)
    (durable : s.stable.durable.ballot = (s.term, some s.config.id)) :
    Steps mono now inp s (s.becomeLeader now) := by
  unfold becomeLeader
  split
  · next h => exact .single (.retire live h.2)
  extract_lets s₁
  have h₁ : Steps mono now inp s s₁ := .single (.lead live role won durable)
  have role₁ : s₁.role = .leader := resetLeader_role
  clear_value s₁
  refine h₁.trans ?_
  obtain ⟨h₂, role₂⟩ : Steps mono now inp s₁ (s₁.appendLeaderNoop s₁.log.lastIndex).2 ∧ _ :=
    steps_appendLeaderNoop role₁
  generalize s₁.appendLeaderNoop s₁.log.lastIndex = p at h₂ role₂
  obtain ⟨_ | index, s₂⟩ := p
  · exact h₂
  have hi : Sent mono now inp s₂ { s₂ with termStartIndex := index } := idle rfl (Tracker.Moves.refl _)
  have h₃ := hi.trans (Sent.broadcastHeartbeat role₂)
  have lead : Leads _ := .inl (h₃.sends.role.trans role₂)
  refine (h₂.trans h₃.steps).trans ?_
  exact (Sent.of_foldl (fun s lead peer => Sent.maybeSendAppend lead peer) _ lead).steps

/-! ## Campaigning -/

theorem mem_requestVotes {term : Term} {last : Index × Term} {preVote transfer : Bool}
    {o : Outgoing I} (ho : o ∈ s.requestVotes term last preVote transfer) :
    o.message = .requestVote ⟨term, s.config.id, last.1, last.2, preVote, transfer⟩ := by
  obtain ⟨p, -, rfl⟩ := List.mem_map.mp ho
  rfl

omit [LinearOrder I] in
theorem poisoned_sendAll (ms : List (Outgoing I)) : (s.sendAll ms).poisoned = s.poisoned := by
  unfold sendAll
  split <;> rfl

theorem steps_startCampaign (live : s.poisoned = false)
    (voter : s.tracker.isVoter s.config.id = true) (term : next s.term ≠ s.term)
    (stirred : inp ≠ .quiet)
    (cause : s.electionDeadline = none ∨ s.role = .preCandidate ∨
      ∃ l tn, inp = .message l (.timeoutNow tn) ∧ tn.term = s.term ∧ s.leader = some tn.leader) :
    Steps mono now inp s (s.startCampaign now) := by
  by_cases mint : s.Mintable
  · exact .single (.campaign live mint voter term stirred cause)
  have h : s.startCampaign now = (s.nominated.submitHardState.2.pushPending
      s.nominated.submitHardState.1 (.campaign s.nominated.submitHardState.2.term)).armElectionTimer now := by
    unfold startCampaign
    rw [setLeader_eq]
    rfl
  rw [h, submitHardState_spent (s := s.nominated) mint]
  exact .single (.junk (poisoned_poison (s := s.nominated) _) rfl rfl rfl rfl
    (List.Sublist.refl _) (fun hr => absurd hr (by show Role.candidate ≠ .leader; simp)) rfl
    fun hp => poisonReason_poison (s := s.nominated) hp _)

theorem startCampaign_frame : (s.startCampaign now).role = .candidate ∧
    (s.startCampaign now).log = s.log ∧ (s.startCampaign now).term = next s.term := by
  unfold startCampaign submitHardState mintOpId submitWrite
  rw [setLeader_eq]
  simp only
  split <;> split <;> exact ⟨rfl, rfl, rfl⟩

theorem steps_becomeCandidate {transfer : Bool} (live : s.poisoned = false) (stirred : inp ≠ .quiet)
    (cause : s.electionDeadline = none ∨ s.role = .preCandidate ∨
      ∃ l tn, inp = .message l (.timeoutNow tn) ∧ tn.term = s.term ∧ s.leader = some tn.leader)
    (forced : transfer = true → ∃ l tn, inp = .message l (.timeoutNow tn) ∧ next tn.term = next s.term) :
    Steps mono now inp s (s.becomeCandidate now transfer) := by
  unfold becomeCandidate
  split
  · exact .refl
  next hgo =>
  simp only [not_or, Bool.not_eq_false] at hgo
  split
  · next h =>
    rw [lastLog_none h, poison_poison]
    exact .single (.die _)
  next last s₁ h =>
  obtain ⟨he, rfl⟩ := lastLog_some h
  rw [he]
  extract_lets s₂
  have h₂ : Steps mono now inp s s₂ := steps_startCampaign live hgo.1 hgo.2.2 stirred cause
  have f₂ : s₂.role = .candidate ∧ s₂.log = s.log ∧ s₂.term = next s.term := startCampaign_frame
  clear_value s₂
  refine h₂.trans (Sent.sendAll (fun o ho => ?_) fun _ o ho => ?_).steps
  · rw [mem_requestVotes ho]
    rfl
  · rw [mem_requestVotes ho]
    refine ⟨rfl, fun _ => ⟨rfl, f₂.1, ?_, fun ht => ?_⟩⟩
    · unfold lastLogOf
      rw [f₂.2.1]
    · rw [f₂.2.2]
      exact forced ht

theorem startPreCampaign_frame : (s.startPreCampaign now).role = .preCandidate ∧
    (s.startPreCampaign now).poisoned = s.poisoned := by
  unfold startPreCampaign
  rw [setLeader_eq]
  exact ⟨rfl, rfl⟩

/-- The probe for votes; when its own vote is a quorum the node is a live
pre-candidate. -/
theorem steps_becomePreCandidate (live : s.poisoned = false) (role : s.role ≠ .leader) :
    Steps mono now inp s (s.becomePreCandidate now).2 ∧ ((s.becomePreCandidate now).1 = true →
      (s.becomePreCandidate now).2.poisoned = false ∧
      (s.becomePreCandidate now).2.role = .preCandidate) := by
  unfold becomePreCandidate
  split
  · exact ⟨.refl, fun h => absurd h (by simp)⟩
  have h₁ : Steps mono now inp s (s.startPreCampaign now) := .single (.preCampaign live role)
  have f₁ : (s.startPreCampaign now).role = .preCandidate ∧
    (s.startPreCampaign now).poisoned = s.poisoned := startPreCampaign_frame
  generalize s.startPreCampaign now = s₁ at h₁ f₁
  split
  · next h =>
    rw [lastLog_none h, poison_poison]
    exact ⟨h₁.tail (.die _), fun h => absurd h (by simp)⟩
  next last s₂ h =>
  obtain ⟨he, rfl⟩ := lastLog_some h
  rw [he]
  have h₃ : Sent mono now inp s₁ (s₁.sendAll (s₁.requestVotes (next s₁.term) s₁.lastLogOf true
      false)) := by
    refine Sent.sendAll (fun o ho => ?_) fun _ o ho => ?_
    · rw [mem_requestVotes ho]
      rfl
    · rw [mem_requestVotes ho]
      exact ⟨rfl, fun h => absurd h (by simp)⟩
  refine ⟨h₁.trans h₃.steps, fun _ => ⟨?_, h₃.sends.role.trans f₁.1⟩⟩
  exact (poisoned_sendAll _).trans (f₁.2.trans live)

/-! ## Voting -/

variable {sender : I} {rv : RequestVote I}

theorem steps_castVote (live : s.poisoned = false)
    (msg : inp = .message sender (.requestVote rv)) (term : rv.term = s.term)
    (real : rv.preVote = false) (free : s.votedFor = none ∨ s.votedFor = some rv.candidate)
    (fresh : logLe (s.voteFloor s.lastLogOf) (rv.lastLogTerm, rv.lastLogIndex) = true)
    (unfenced : s.leaseVoteFenced now rv.leaderTransfer = false) :
    Steps mono now inp s (s.castVote now rv.candidate) := by
  by_cases mint : s.Mintable
  · exact .single (.cast live mint msg term real free fresh unfenced)
  have h := submitHardState_spent (s := { s with votedFor := some rv.candidate }.armElectionTimer now) mint
  have he : s.castVote now rv.candidate =
      (fun p : OpId × Endpoint I M => p.2.pushPending p.1 (.castVote rv.candidate p.2.term))
        ({ s with votedFor := some rv.candidate }.armElectionTimer now).submitHardState := rfl
  rw [he, h]
  refine .single (.junk ?_ rfl rfl rfl rfl (List.Sublist.refl _)
    (fun hr => ⟨hr, rfl⟩) rfl fun hp => poisonReason_poison (s := s) hp _)
  exact poisoned_poison (s := { s with votedFor := some rv.candidate }.armElectionTimer now) _

omit [LinearOrder I] in
/-- A pre-vote is granted only outside the fence. -/
theorem sendable_preVote {grant : Bool} (msg : inp = .message sender (.requestVote rv)) (pre : rv.preVote = true)
    (unfenced : grant = true → s.leaseVoteFenced now rv.leaderTransfer = false) :
    Sendable now inp s rv.candidate (.voteResponse ⟨if grant then rv.term else s.term, s.config.id, true, !grant⟩) := by
  refine ⟨rfl, fun h => absurd h (by simp), fun _ hr => ?_⟩
  have hg : grant = true := by simpa using hr
  exact ⟨sender, rv, msg, pre, by rw [if_pos hg], rfl, unfenced hg⟩

theorem steps_answerPreVote {logOk : Bool} (live : s.poisoned = false) (msg : inp = .message sender (.requestVote rv))
    (pre : rv.preVote = true) : Steps mono now inp s (s.answerPreVote now rv logOk) := by
  refine .single (.send live (sendable_preVote msg pre fun hg => ?_))
  simp only [Bool.and_eq_true, Bool.not_eq_true'] at hg
  exact hg.2

theorem steps_onRequestVote (live : s.poisoned = false)
    (msg : inp = .message sender (.requestVote rv)) (term : rv.preVote = false → rv.term = s.term) :
    Steps mono now inp s (s.onRequestVote now rv) := by
  unfold onRequestVote
  split
  · next h =>
    rw [lastLog_none h, poison_poison]
    exact .single (.die _)
  next last s₁ h =>
  obtain ⟨he, rfl⟩ := lastLog_some h
  rw [he]
  simp only
  split
  · next pre => exact steps_answerPreVote live msg pre
  next real =>
  have real : rv.preVote = false := by simpa using real
  split
  · next hgo => exact steps_castVote live msg (term real) real hgo.1 hgo.2.1 hgo.2.2
  · refine (Sent.send rfl fun _ => ?_).steps
    exact ⟨rfl, fun _ => ⟨rfl, fun h => absurd h (by simp)⟩, fun h => absurd h (by simp)⟩

theorem steps_onVoteResponse {vr : VoteResponse I} (inv : NodeInv mono s)
    (live : s.poisoned = false) (msg : inp = .message sender (.voteResponse vr)) :
    Steps mono now inp s (s.onVoteResponse now vr) := by
  have stirred : inp ≠ .quiet := by simp [msg]
  unfold onVoteResponse
  split
  · next hpre =>
    split
    · exact .refl
    next role =>
    have role : s.role = .preCandidate := by simpa using role
    have h₁ : Steps mono now inp s (s.recordVote vr) := .single (.vote live msg (by simp [hpre, role]))
    simp only
    split
    · exact h₁.trans (steps_becomeCandidate live stirred (.inr (.inl role)) fun h => by simp at h)
    · exact h₁
  · next hpre =>
    split
    · exact .refl
    next hgo =>
    have role : s.role = .candidate ∧ vr.term = s.term := by simpa using hgo
    have h₁ : Steps mono now inp s (s.recordVote vr) := .single (.vote live msg (by simp [hpre, role]))
    simp only
    split
    · next hwon =>
      exact h₁.trans (steps_becomeLeader live role.1 hwon.1 (inv.selfVote live role.1 hwon.2))
    · exact h₁

/-! ## Leader transfer -/

theorem Sent.dropLease : Sent mono now inp s s.dropLease :=
  Sent.of_live { Sends.refl s with } fun live => .single (.dropLease live)

theorem Sent.startTransfer (role : s.role = .leader) (dest : I) : Sent mono now inp s (s.startTransfer now dest) := by
  unfold Endpoint.startTransfer
  extract_lets t s₁ t₂ s₂ s₃
  have h₁ : Sent mono now inp s s₁ := by
    have hi : Sent mono now inp s { s with transfer := { s.transfer with
        leadTransferee := some dest, transferDeadline := some (now + s.config.electionTimeout) } } :=
      idle rfl (Tracker.Moves.refl _)
    exact hi.trans Sent.dropLease
  have lead : s₁.Leads := .inl (h₁.sends.role.trans role)
  split
  · have h₂ : Sent mono now inp s₁ s₂ := idle rfl (Tracker.Moves.refl _)
    have h₃ : Sent mono now inp s₂ s₃ := Sent.send rfl fun _ => ⟨h₂.leads lead, rfl, rfl⟩
    clear_value s₃
    exact ((h₁.trans h₂).trans h₃).trans (idle rfl (Tracker.Moves.refl _))
  · exact h₁.trans (Sent.maybeSendAppend lead dest)

theorem Sent.transferLeader (dest : I) : Sent mono now inp s (s.transferLeader now dest).2 := by
  unfold Endpoint.transferLeader
  split
  · exact refl s
  split
  · exact refl s
  next role =>
  have h : Sent mono now inp s (s.startTransfer now dest) := Sent.startTransfer (by simpa using role) _
  split
  · exact refl s
  split
  · exact refl s
  split
  · exact refl s
  split
  · exact refl s
  · simp only
    split <;> exact h

theorem steps_onTimeoutNow {tn : TimeoutNow I} (live : s.poisoned = false)
    (msg : inp = .message sender (.timeoutNow tn)) (term : tn.term = s.term) :
    Steps mono now inp s (s.onTimeoutNow now tn) := by
  unfold onTimeoutNow
  split
  · exact .refl
  next hgo =>
  simp only [not_or, ne_eq, not_not] at hgo
  exact steps_becomeCandidate live (by simp [msg]) (.inr (.inr ⟨sender, tn, msg, term, hgo.1⟩))
    fun _ => ⟨sender, tn, msg, by rw [term]⟩

/-! ## Timeouts -/

theorem core_resetRecentActive (id : I) :
    ({ s with tracker := s.tracker.resetRecentActive id } : Endpoint I M).core = s.core := by
  have h : ({ s with tracker := s.tracker.resetRecentActive id } : Endpoint I M).matchOf = s.matchOf := by
    funext x
    simp only [matchOf, Tracker.resetRecentActive, Option.map_map]
    rfl
  unfold core
  rw [h]
  rfl

theorem steps_checkQuorumIfDue (live : s.poisoned = false) (role : s.role = .leader) :
    Steps mono now inp s (s.checkQuorumIfDue now) := by
  unfold checkQuorumIfDue
  split
  · next hdue =>
    split
    · have h₁ : Step mono now inp s { s with tracker := s.tracker.resetRecentActive s.config.id } :=
        .idle (core_resetRecentActive _) (Tracker.Moves.resetRecentActive _ _)
      exact .head h₁ (.single (.recheck live role hdue.1))
    · exact .single (.stepDown live role)
  · exact .refl

theorem Sent.abortTransferIfDue : Sent mono now inp s (s.abortTransferIfDue now) := by
  unfold Endpoint.abortTransferIfDue
  split
  · exact idle rfl (Tracker.Moves.refl _)
  · exact refl s

omit [LinearOrder I] in
theorem abortTransferIfDue_poisoned : (s.abortTransferIfDue now).poisoned = s.poisoned := by
  unfold abortTransferIfDue
  split <;> rfl

theorem Ran.commitIfDue (role : s.role = .leader) (hc : s.log.visible.Contiguous) :
    Ran mono now inp s (s.commitIfDue now) := by
  unfold Endpoint.commitIfDue
  split
  · exact (Ran.onProgress role hc).trans Sent.maybeFlushDeferredReads.ran
  · exact Ran.refl s

/-- A leader that retired has no deadline left to check the quorum at. -/
theorem checkQuorumIfDue_idle (idle : s.electionDeadline = none) : s.checkQuorumIfDue now = s := by
  unfold checkQuorumIfDue
  rw [idle]
  exact if_neg fun due => Bool.false_ne_true due.2

theorem steps_leaderTimeout (role : s.role = .leader) (hc : s.log.visible.Contiguous) :
    Steps mono now inp s (s.leaderTimeout now) := by
  unfold leaderTimeout
  extract_lets s₁ s₀ s₂
  have h₁ : Sent mono now inp s s₁ := by
    unfold s₁
    split
    · exact (Sent.broadcastHeartbeat role).trans (idle rfl (Tracker.Moves.refl _))
    · exact refl s
  split
  · exact h₁.steps
  next hp =>
  have h₀ : Ran mono now inp s s₀ :=
    h₁.ran.trans (Ran.commitIfDue (h₁.sends.role.trans role) (h₁.sends.log.symm ▸ hc))
  clear_value s₀
  split
  · exact h₀.steps
  next hp₀ =>
  have live₀ : s₀.poisoned = false := by simpa using hp₀
  have ha : Sent mono now inp s₀ (s₀.abortTransferIfDue now) := Sent.abortTransferIfDue
  have h₂ : Steps mono now inp s s₂ := by
    refine (h₀.steps.trans ha.steps).trans ?_
    obtain leads | ⟨-, idle⟩ := h₀.keeps.retired role
    · exact steps_checkQuorumIfDue (abortTransferIfDue_poisoned.trans live₀) (ha.sends.role.trans leads)
    · unfold s₂
      rw [checkQuorumIfDue_idle (ha.sends.electionDeadline.trans idle)]
  clear_value s₂
  exact (h₂.trans Sent.drivePendingFarewells.steps).trans steps_reconcileElectionTimer

theorem steps_followerTimeout (live : s.poisoned = false) (role : s.role ≠ .leader)
    (stirred : inp ≠ .quiet) : Steps mono now inp s (s.followerTimeout now) := by
  unfold followerTimeout
  extract_lets s₁ s₂
  refine Relation.ReflTransGen.trans ?_ steps_reconcileElectionTimer
  unfold s₂
  split
  · next hdue =>
    have h₁ : Steps mono now inp s s₁ := .single (.expire live role hdue)
    have due : s₁.electionDeadline = none := rfl
    have live₁ : s₁.poisoned = false := live
    have role₁ : s₁.role ≠ .leader := role
    clear_value s₁
    refine h₁.trans ?_
    split
    · split
      · obtain ⟨hp, hwon⟩ : Steps mono now inp s₁ (s₁.becomePreCandidate now).2 ∧ _ :=
          steps_becomePreCandidate live₁ role₁
        generalize s₁.becomePreCandidate now = p at hp hwon
        obtain ⟨_ | _, s₃⟩ := p
        · exact hp
        · obtain ⟨live₃, role₃⟩ := hwon rfl
          exact hp.trans (steps_becomeCandidate live₃ stirred (.inr (.inl role₃)) fun h => by simp at h)
      · exact steps_becomeCandidate live₁ stirred (.inl due) fun h => by simp at h
    · exact .refl
  · exact .refl

theorem steps_handleTimeout (hc : s.log.visible.Contiguous) : Steps mono now .tick s (s.handleTimeout now) := by
  unfold handleTimeout
  split
  · exact .refl
  next hp =>
  split
  · next role => exact steps_leaderTimeout role hc
  · next role => exact steps_followerTimeout (by simpa using hp) role (by simp)

end Sailing.Endpoint
