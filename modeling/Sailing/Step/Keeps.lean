import Sailing.Step.Fields

/-!
# What sending and applying leave alone

The functions that send, or that apply committed entries, run in the middle of
the handlers. `Sends` is the frame of the first kind: the log, the stores, the
role and the commit index are untouched, and no success acknowledgement leaves.
`Keeps` is the weaker frame of the second: a leader still leads unless its own
removal was applied.
-/

namespace Sailing

variable {I : Type} [LinearOrder I] {M : StateMachine}

/-- The match of a success acknowledgement, and whether it answers a
snapshot. -/
def ackOf : Message I → Option (Index × Bool)
  | .appendResponse r => if r.reject then none else some (r.matchIndex, false)
  | .snapshotResponse r => if r.reject || r.progress then none else some (r.matchIndex, true)
  | _ => none

/-- A message that promises nothing: no vote is granted, nothing is
acknowledged and no lease is supported. -/
def plain : Message I → Bool
  | .voteResponse vr => vr.reject
  | .heartbeatResponse r => r.leaseSupport == 0
  | .appendResponse r => r.reject
  | .snapshotResponse r => r.reject || r.progress
  | _ => true

omit [LinearOrder I] in
theorem ackOf_of_plain {m : Message I} (h : plain m = true) : ackOf m = none := by
  cases m with
  | appendResponse r =>
    have hr : r.reject = true := h
    simp [ackOf, hr]
  | snapshotResponse r =>
    have hr : (r.reject || r.progress) = true := h
    simp [ackOf, hr]
  | _ => rfl

namespace Endpoint

/-- The success acknowledgements that wait to be polled. -/
def acks (s : Endpoint I M) : List (Index × Bool) := s.outgoing.filterMap fun o => ackOf o.message

structure Sends (s s' : Endpoint I M) : Prop where
  config : s'.config = s.config
  fsm : s'.fsm = s.fsm
  role : s'.role = s.role
  term : s'.term = s.term
  votedFor : s'.votedFor = s.votedFor
  leader : s'.leader = s.leader
  commit : s'.commit = s.commit
  applied : s'.applied = s.applied
  passed : s'.passed = s.passed
  votes : s'.votes = s.votes
  electionDeadline : s'.electionDeadline = s.electionDeadline
  nextOpId : s'.nextOpId = s.nextOpId
  pendingLog : s'.pendingLog = s.pendingLog
  pendingStable : s'.pendingStable = s.pendingStable
  pendingApply : s'.pendingApply = s.pendingApply
  durable : s'.durable = s.durable
  log : s'.log = s.log
  stable : s'.stable = s.stable
  snapshotRecv : s'.snapshot.snapshotRecv = s.snapshot.snapshotRecv
  pendingInstall : s'.snapshot.pendingInstall = s.snapshot.pendingInstall
  pendingCompact : s'.snapshot.pendingCompact = s.snapshot.pendingCompact
  conf : s'.tracker.confState = s.tracker.confState
  acks : s'.acks = s.acks
  poisoned : s.poisoned = true → s'.poisoned = true
  quiet : s.poisoned = true → s'.outgoing = s.outgoing
  sent : ∃ new, s'.outgoing = s.outgoing ++ new ∧ ∀ o ∈ new, plain o.message = true
  reason : s.poisoned = true → s'.poisonReason = s.poisonReason

omit [LinearOrder I] in
theorem sent_trans {a b c : List (Outgoing I)} (h : ∃ new, b = a ++ new ∧ ∀ o ∈ new, plain o.message = true)
    (k : ∃ new, c = b ++ new ∧ ∀ o ∈ new, plain o.message = true) :
    ∃ new, c = a ++ new ∧ ∀ o ∈ new, plain o.message = true := by
  obtain ⟨x, rfl, hx⟩ := h
  obtain ⟨y, rfl, hy⟩ := k
  refine ⟨x ++ y, List.append_assoc _ _ _, fun o ho => ?_⟩
  rcases List.mem_append.mp ho with ho | ho
  · exact hx o ho
  · exact hy o ho

namespace Sends

variable {s s' s'' : Endpoint I M}

omit [LinearOrder I] in
theorem refl (s : Endpoint I M) : Sends s s :=
  ⟨rfl, rfl, rfl, rfl, rfl, rfl, rfl, rfl, rfl, rfl, rfl, rfl, rfl, rfl, rfl, rfl, rfl, rfl, rfl, rfl,
    rfl, rfl, rfl, id, fun _ => rfl, ⟨[], (List.append_nil _).symm, by simp⟩,
    fun _ => rfl⟩

omit [LinearOrder I] in
theorem trans (h : Sends s s') (k : Sends s' s'') : Sends s s'' where
  config := k.config.trans h.config
  fsm := k.fsm.trans h.fsm
  role := k.role.trans h.role
  term := k.term.trans h.term
  votedFor := k.votedFor.trans h.votedFor
  leader := k.leader.trans h.leader
  commit := k.commit.trans h.commit
  applied := k.applied.trans h.applied
  passed := k.passed.trans h.passed
  votes := k.votes.trans h.votes
  electionDeadline := k.electionDeadline.trans h.electionDeadline
  nextOpId := k.nextOpId.trans h.nextOpId
  pendingLog := k.pendingLog.trans h.pendingLog
  pendingStable := k.pendingStable.trans h.pendingStable
  pendingApply := k.pendingApply.trans h.pendingApply
  durable := k.durable.trans h.durable
  log := k.log.trans h.log
  stable := k.stable.trans h.stable
  snapshotRecv := k.snapshotRecv.trans h.snapshotRecv
  pendingInstall := k.pendingInstall.trans h.pendingInstall
  pendingCompact := k.pendingCompact.trans h.pendingCompact
  conf := k.conf.trans h.conf
  acks := k.acks.trans h.acks
  poisoned := k.poisoned ∘ h.poisoned
  quiet hp := (k.quiet (h.poisoned hp)).trans (h.quiet hp)
  sent := sent_trans h.sent k.sent
  reason hp := (k.reason (h.poisoned hp)).trans (h.reason hp)

omit [LinearOrder I] in
theorem of_poison (s : Endpoint I M) (reason : PoisonReason) : Sends s (s.poison reason) :=
  { refl s with
    poisoned := fun _ => poisoned_poison reason
    reason := fun hp => poisonReason_poison hp reason }

omit [LinearOrder I] in
theorem of_send (s : Endpoint I M) (dest : I) {m : Message I} (hm : plain m = true) : Sends s (s.send dest m) := by
  rw [send_eq]
  refine { refl s with acks := ?_, quiet := fun hp => by simp [hp], sent := ⟨_, rfl, ?_⟩ }
  · unfold Endpoint.acks
    simp only [List.filterMap_append]
    split <;> simp [ackOf_of_plain hm]
  · split <;> simp [hm]

omit [LinearOrder I] in
theorem of_sendAll (s : Endpoint I M) (ms : List (Outgoing I))
    (hm : ∀ o ∈ ms, plain o.message = true) : Sends s (s.sendAll ms) := by
  unfold sendAll
  split
  · exact refl s
  next hp =>
  refine { refl s with acks := ?_, quiet := fun hp' => absurd hp' hp, sent := ⟨ms, rfl, hm⟩ }
  unfold Endpoint.acks
  simp only [List.filterMap_append]
  rw [List.filterMap_eq_nil_iff.mpr fun o ho => ackOf_of_plain (hm o ho), List.append_nil]

omit [LinearOrder I] in
theorem of_foldl {α : Type} {f : Endpoint I M → α → Endpoint I M} (hf : ∀ s a, Sends s (f s a))
    (l : List α) (s : Endpoint I M) : Sends s (l.foldl f s) := by
  induction l generalizing s with
  | nil => exact refl s
  | cons a l ih => exact (hf s a).trans (ih _)

end Sends

structure Keeps (s s' : Endpoint I M) : Prop where
  config : s'.config = s.config
  term : s'.term = s.term
  votedFor : s'.votedFor = s.votedFor
  votes : s'.votes = s.votes
  nextOpId : s'.nextOpId = s.nextOpId
  pendingLog : s'.pendingLog = s.pendingLog
  pendingStable : s'.pendingStable = s.pendingStable
  durable : s'.durable = s.durable
  log : s'.log = s.log
  stable : s'.stable = s.stable
  snapshotRecv : s'.snapshot.snapshotRecv = s.snapshot.snapshotRecv
  pendingInstall : s'.snapshot.pendingInstall = s.snapshot.pendingInstall
  pendingCompact : s'.snapshot.pendingCompact = s.snapshot.pendingCompact
  acks : s'.acks = s.acks
  commit : s.commit ≤ s'.commit
  poisoned : s.poisoned = true → s'.poisoned = true
  quiet : s.poisoned = true → s'.outgoing = s.outgoing
  role : s'.role = s.role ∨ s'.role = .follower
  follower : s.role = .follower → s'.leader = s.leader ∧ s'.electionDeadline = s.electionDeadline
  leads : s.Leads → s'.Leads
  retired : s.role = .leader → s'.role = .leader ∨ s'.role = .follower ∧ s'.electionDeadline = none
  sent : ∃ new, s'.outgoing = s.outgoing ++ new ∧ ∀ o ∈ new, plain o.message = true
  frozen : s.poisoned = true → s'.fsm = s.fsm ∧ s'.poisonReason = s.poisonReason

omit [LinearOrder I] in
theorem Sends.keeps {s' : Endpoint I M} (h : Sends s s') : Keeps s s' where
  config := h.config
  term := h.term
  votedFor := h.votedFor
  votes := h.votes
  nextOpId := h.nextOpId
  pendingLog := h.pendingLog
  pendingStable := h.pendingStable
  durable := h.durable
  log := h.log
  stable := h.stable
  snapshotRecv := h.snapshotRecv
  pendingInstall := h.pendingInstall
  pendingCompact := h.pendingCompact
  acks := h.acks
  commit := h.commit.ge
  poisoned := h.poisoned
  quiet := h.quiet
  role := .inl h.role
  follower _ := ⟨h.leader, h.electionDeadline⟩
  leads := by
    unfold Leads
    rw [h.role, h.log]
    exact id
  retired role := .inl (h.role.trans role)
  sent := h.sent
  frozen hp := ⟨h.fsm, h.reason hp⟩

namespace Keeps

variable {s s' s'' : Endpoint I M}

omit [LinearOrder I] in
theorem refl (s : Endpoint I M) : Keeps s s := (Sends.refl s).keeps

omit [LinearOrder I] in
theorem role_follower (h : Keeps s s') (hr : s.role = .follower) : s'.role = .follower := by
  rcases h.role with h | h
  · rw [h, hr]
  · exact h

omit [LinearOrder I] in
theorem trans (h : Keeps s s') (k : Keeps s' s'') : Keeps s s'' where
  config := k.config.trans h.config
  term := k.term.trans h.term
  votedFor := k.votedFor.trans h.votedFor
  votes := k.votes.trans h.votes
  nextOpId := k.nextOpId.trans h.nextOpId
  pendingLog := k.pendingLog.trans h.pendingLog
  pendingStable := k.pendingStable.trans h.pendingStable
  durable := k.durable.trans h.durable
  log := k.log.trans h.log
  stable := k.stable.trans h.stable
  snapshotRecv := k.snapshotRecv.trans h.snapshotRecv
  pendingInstall := k.pendingInstall.trans h.pendingInstall
  pendingCompact := k.pendingCompact.trans h.pendingCompact
  acks := k.acks.trans h.acks
  commit := h.commit.trans k.commit
  poisoned := k.poisoned ∘ h.poisoned
  quiet hp := (k.quiet (h.poisoned hp)).trans (h.quiet hp)
  role := by
    rcases k.role with hk | hk
    · rw [hk]
      exact h.role
    · exact .inr hk
  follower hr := by
    obtain ⟨h₁, h₂⟩ := h.follower hr
    obtain ⟨k₁, k₂⟩ := k.follower (h.role_follower hr)
    exact ⟨k₁.trans h₁, k₂.trans h₂⟩
  leads := k.leads ∘ h.leads
  retired hr := by
    obtain leads | ⟨role, idle⟩ := h.retired hr
    · exact k.retired leads
    · exact .inr ⟨k.role_follower role, (k.follower role).2.trans idle⟩
  sent := sent_trans h.sent k.sent
  frozen hp := by
    obtain ⟨h₁, h₂⟩ := h.frozen hp
    obtain ⟨k₁, k₂⟩ := k.frozen (h.poisoned hp)
    exact ⟨k₁.trans h₁, k₂.trans h₂⟩

omit [LinearOrder I] in
theorem live (h : Keeps s s') (live : s'.poisoned = false) : s.poisoned = false := by
  by_contra hp
  simp only [Bool.not_eq_false] at hp
  rw [h.poisoned hp] at live
  cases live

end Keeps

/-! ## Farewells -/

variable {s : Endpoint I M}

omit [LinearOrder I] in
theorem logTerm_eq (i : Index) :
    s.logTerm i = (s.log.term i, if (s.log.term i).isSome then s else s.poison .logTerm) := by
  unfold logTerm
  split <;> simp [*]

/-- What a farewell can come to: the log cannot be read, or the entries go out, or a heartbeat. -/
inductive Farewell (s : Endpoint I M) (peer : I) : Endpoint I M → Prop where
  | still (dead : s.poisoned = true) : Farewell s peer s
  | dies (reason : PoisonReason) : Farewell s peer (s.poison reason)
  | append {ae : AppendEntries I} {start stop : Index} (leader : ae.leader = s.config.id)
    (read : s.log.entries start stop = .ready ae.entries)
    (fits : (ae.entries.map s.entryFrameCost).sum ≤ appendFrameEntryBudget) :
    Farewell s peer (s.send peer (.appendEntries ae))
  | heartbeat (hb : Heartbeat I) : Farewell s peer (s.send peer (.heartbeat hb))

omit [LinearOrder I] in
theorem sendFarewell_outcome (s : Endpoint I M) (peer : I) (matched idx : Index) :
    Farewell s peer (s.sendFarewell peer matched idx) := by
  have other : Farewell s peer (if s.poisoned then s else
      s.send peer (.heartbeat ⟨s.term, s.config.id, min s.commit matched, [], 0⟩)) := by
    split
    · next dead => exact .still dead
    · exact .heartbeat _
  have died (reason : PoisonReason) : Farewell s peer (if (s.poison reason).poisoned then s.poison reason else
      (s.poison reason).send peer (.heartbeat ⟨s.term, s.config.id, min s.commit matched, [], 0⟩)) := by
    rw [if_pos (poisoned_poison reason)]
    exact .dies reason
  unfold sendFarewell
  by_cases behind : matched < idx
  · rw [if_pos behind]
    unfold sendFarewellAppend
    by_cases low : next matched < s.log.firstIndex
    · rw [if_pos low]
      exact other
    rw [if_neg low]
    have term : (∃ t, s.prevLogTerm matched = (some t, s)) ∨ s.prevLogTerm matched = (none, s.poison .logTerm) := by
      unfold prevLogTerm logTerm
      split
      · exact .inl ⟨0, rfl⟩
      split
      · exact .inl ⟨_, rfl⟩
      · exact .inr rfl
    rcases term with ⟨t, known⟩ | unknown
    · rw [known]
      simp only
      cases read : s.log.entries (next matched) (min (next idx) (min (next matched + maxReadBatchEntries) u64Max)) with
      | pending => exact other
      | error => exact died _
      | ready suffix =>
        simp only
        by_cases ends : suffix.getLast?.map (·.index) ≠ some idx
        · rw [if_pos ends]
          exact other
        rw [if_neg ends]
        by_cases wide : appendFrameEntryBudget < (suffix.map s.entryFrameCost).sum
        · rw [if_pos wide]
          exact other
        · rw [if_neg wide]
          exact .append rfl read (not_lt.mp wide)
    · rw [unknown]
      exact died _
  · rw [if_neg behind]
    exact other

omit [LinearOrder I] in
theorem Sends.of_sendFarewell (s : Endpoint I M) (peer : I) (matched idx : Index) :
    Sends s (s.sendFarewell peer matched idx) := by
  have out := sendFarewell_outcome s peer matched idx
  generalize s.sendFarewell peer matched idx = t at out ⊢
  cases out with
  | still => exact Sends.refl s
  | dies => exact Sends.of_poison s _
  | append | heartbeat => exact Sends.of_send s _ rfl

/-- What every farewell keeps, and every change of the retries, the whole capture keeps. -/
theorem captureFarewells_induct {R : Endpoint I M → Endpoint I M → Prop} (refl : ∀ s, R s s)
    (trans : ∀ {s t u}, R s t → R t u → R s u) (send : ∀ s peer matched idx, R s (s.sendFarewell peer matched idx))
    (note : ∀ s l, R s { s with pendingFarewells := l }) (idx : Index) (removed : List (I × Index)) (s : Endpoint I M) :
    R s (captureFarewells idx removed s) := by
  induction removed generalizing s with
  | nil => exact refl s
  | cons p rest ih =>
    obtain ⟨peer, matched⟩ := p
    unfold captureFarewells
    split
    · exact refl s
    extract_lets gated s₁ shots
    have first : R s s₁ := by
      unfold s₁
      split
      · exact refl s
      · exact send s peer matched idx
    clear_value s₁
    split
    · exact first
    · exact trans first (trans (note s₁ _) (ih _))

theorem Sends.of_captureFarewells (idx : Index) (removed : List (I × Index)) (s : Endpoint I M) :
    Sends s (captureFarewells idx removed s) :=
  captureFarewells_induct Sends.refl Sends.trans Sends.of_sendFarewell (fun s _ => { Sends.refl s with }) idx removed s

/-! ## Applying -/

/-- The log holds a configuration change. -/
def HasConfChange (s : Endpoint I M) : Prop :=
  ∃ e ∈ s.log.visible.entries, e.kind.isConfChange = true

theorem Keeps.of_stepDownIfRemoved (h : s.HasConfChange) : Keeps s s.stepDownIfRemoved := by
  unfold stepDownIfRemoved
  split
  · next hr =>
    rw [setLeader_eq]
    exact { Keeps.refl s with
      role := .inr rfl
      follower := fun hf => absurd hf hr.1
      leads := fun _ => .inr h
      retired := fun _ => .inr ⟨rfl, rfl⟩ }
  · exact Keeps.refl s

omit [LinearOrder I] in
theorem Keeps.hasConfChange {s' : Endpoint I M} (hk : Keeps s s') (h : s.HasConfChange) : s'.HasConfChange := by
  unfold HasConfChange
  rw [hk.log]
  exact h

theorem Keeps.of_applyConfChange (h : s.HasConfChange) (idx : Index) (cc : ConfChangeV2 I) :
    Keeps s (s.applyConfChange idx cc) := by
  unfold applyConfChange
  split
  · exact (Sends.of_poison s _).keeps
  next tracker _ =>
  extract_lets s₁ s₂ s₃ s₄
  have hk : Keeps s s₁ := by
    unfold s₁
    split
    · exact (Sends.of_captureFarewells idx _ s).keeps
    · exact Keeps.refl s
  clear_value s₁
  split
  · exact hk
  have h₃ : Keeps s s₃ := hk.trans { Keeps.refl s₁ with }
  have h₄ : Keeps s s₄ := h₃.trans (Keeps.of_stepDownIfRemoved (h₃.hasConfChange h))
  clear_value s₄
  split
  · exact h₄.trans { Keeps.refl s₄ with }
  · exact h₄

/-- What applying one entry can come to. -/
inductive ApplyOutcome (s : Endpoint I M) (e : Entry I) : Endpoint I M → Prop where
  | dies (reason : PoisonReason) : ApplyOutcome s e (s.poison reason)
  | normal {data : Bytes} {cmd : M.Command} {fsm : M.State} {r : M.Response} (at_ : e.index = next s.applied)
    (low : e.index ≤ s.commit) (kind : e.kind = .normal data) (decoded : M.decodeCommand data = some cmd)
    (applied : M.apply s.fsm e.index cmd = some (fsm, r)) :
    ApplyOutcome s e { { s with fsm := fsm }.emit (.applied e.index r) with
      applied := e.index, passed := s.passed ++ [e] }
  | empty (at_ : e.index = next s.applied) (low : e.index ≤ s.commit) (kind : e.kind = .empty) :
    ApplyOutcome s e { s with applied := e.index, passed := s.passed ++ [e] }
  | refused {cc : ConfChangeV2 I} (kind : e.kind = .confChange (some cc))
    (dead : (s.applyConfChange e.index cc).poisoned = true) : ApplyOutcome s e (s.applyConfChange e.index cc)
  | changed {cc : ConfChangeV2 I} (at_ : e.index = next s.applied) (low : e.index ≤ s.commit)
    (kind : e.kind = .confChange (some cc)) (alive : (s.applyConfChange e.index cc).poisoned = false) :
    ApplyOutcome s e { s.applyConfChange e.index cc with
      applied := e.index, passed := (s.applyConfChange e.index cc).passed ++ [e] }
  | parks (at_ : e.index = next s.applied) (low : e.index ≤ s.commit) (kind : e.kind = .commitMerge) :
    ApplyOutcome s e { s with pendingApply := some e.index }

theorem applyEntry_outcome (s : Endpoint I M) (e : Entry I) : ApplyOutcome s e (s.applyEntry e) := by
  unfold applyEntry
  split
  · exact .dies _
  next go =>
  obtain ⟨at_, low⟩ : e.index = next s.applied ∧ e.index ≤ s.commit := by
    simpa only [not_or, not_not, not_lt] using go
  split
  · next kind =>
    split
    · exact .dies _
    next decoded =>
    split
    · exact .dies _
    · next applied => exact .normal at_ low kind decoded applied
  · next kind => exact .empty at_ low kind
  · exact .dies _
  · next kind =>
    simp only
    split
    · next dead => exact .refused kind dead
    · next alive => exact .changed at_ low kind ((Bool.not_eq_true _).mp alive)
  · next kind => exact .parks at_ low kind

theorem Keeps.of_applyEntry {e : Entry I} (live : s.poisoned = false)
    (he : s.log.visible.get e.index = some e) : Keeps s (s.applyEntry e) := by
  have changes : ∀ cc, e.kind = .confChange (some cc) → Keeps s (s.applyConfChange e.index cc) := fun cc kind => by
    have hm : e ∈ s.log.visible.entries := by
      unfold LogImage.get at he
      split at he
      · exact List.mem_of_getElem? he
      · cases he
    exact Keeps.of_applyConfChange ⟨e, hm, by simp [kind, EntryKind.isConfChange]⟩ e.index cc
  have out := applyEntry_outcome s e
  generalize s.applyEntry e = t at out ⊢
  cases out with
  | dies => exact (Sends.of_poison s _).keeps
  | normal => exact { Keeps.refl s with frozen := fun hp => by simp [live] at hp }
  | empty | parks => exact { Keeps.refl s with }
  | refused kind => exact changes _ kind
  | changed at_ low kind => exact (changes _ kind).trans { Keeps.refl _ with }

/-- A configuration change does not move the indices. -/
theorem applyConfChange_same (s : Endpoint I M) (idx : Index) (cc : ConfChangeV2 I) :
    (s.applyConfChange idx cc).commit = s.commit ∧ (s.applyConfChange idx cc).applied = s.applied ∧
      (s.applyConfChange idx cc).fsm = s.fsm ∧ (s.applyConfChange idx cc).pendingApply = s.pendingApply ∧
      (s.applyConfChange idx cc).passed = s.passed := by
  unfold applyConfChange
  split
  · exact ⟨rfl, rfl, rfl, rfl, rfl⟩
  next tracker _ =>
  extract_lets s₁ s₂ s₃ s₄
  have h₁ : Sends s s₁ := by
    unfold s₁
    split
    · exact .of_captureFarewells idx _ s
    · exact .refl s
  clear_value s₁
  split
  · exact ⟨h₁.commit, h₁.applied, h₁.fsm, h₁.pendingApply, h₁.passed⟩
  have h₄ : s₄.commit = s₁.commit ∧ s₄.applied = s₁.applied ∧ s₄.fsm = s₁.fsm ∧
      s₄.pendingApply = s₁.pendingApply ∧ s₄.passed = s₁.passed := by
    unfold s₄ stepDownIfRemoved
    split
    · rw [setLeader_eq]
      exact ⟨rfl, rfl, rfl, rfl, rfl⟩
    · exact ⟨rfl, rfl, rfl, rfl, rfl⟩
  clear_value s₄
  obtain ⟨commit, applied, fsm, parked, passed⟩ := h₄
  split <;> exact ⟨commit.trans h₁.commit, applied.trans h₁.applied, fsm.trans h₁.fsm,
    parked.trans h₁.pendingApply, passed.trans h₁.passed⟩

theorem applyEntry_commit (s : Endpoint I M) (e : Entry I) : (s.applyEntry e).commit = s.commit := by
  have out := applyEntry_outcome s e
  generalize s.applyEntry e = t at out ⊢
  cases out with
  | refused | changed => exact (applyConfChange_same s _ _).1
  | _ => rfl

theorem applyEntry_applied (s : Endpoint I M) (e : Entry I) : (s.applyEntry e).applied = s.applied ∨
      ((s.applyEntry e).applied = e.index ∧ e.index = next s.applied ∧ e.index ≤ s.commit) := by
  have out := applyEntry_outcome s e
  generalize s.applyEntry e = t at out ⊢
  cases out with
  | dies | parks => exact .inl rfl
  | normal at_ low | empty at_ low | changed at_ low => exact .inr ⟨rfl, at_, low⟩
  | refused => exact .inl (applyConfChange_same s _ _).2.1

/-- The entry joins the record if it is applied. -/
theorem applyEntry_passed (s : Endpoint I M) (e : Entry I) :
    (s.applyEntry e).passed = s.passed ∨ (s.applyEntry e).passed = s.passed ++ [e] := by
  have out := applyEntry_outcome s e
  generalize s.applyEntry e = t at out ⊢
  cases out with
  | dies | parks => exact .inl rfl
  | normal | empty => exact .inr rfl
  | refused => exact .inl (applyConfChange_same s _ _).2.2.2.2
  | changed => exact .inr (congrArg (· ++ [e]) (applyConfChange_same s _ _).2.2.2.2)

/-! ## Reads -/

omit [LinearOrder I] in
theorem Sends.of_emitReadState (s : Endpoint I M) (index : Index) (context : Bytes) :
    Sends s (s.emitReadState index context) := by
  unfold emitReadState
  split
  · exact Sends.refl s
  · exact { Sends.refl s with }

omit [LinearOrder I] in
theorem Sends.of_emitOrReplyRead (s : Endpoint I M) (index : Index) (context : Bytes)
    (reqFrom : Option I) : Sends s (s.emitOrReplyRead index context reqFrom) := by
  unfold emitOrReplyRead
  split
  · exact Sends.of_emitReadState s _ _
  · exact Sends.of_send s _ rfl

omit [LinearOrder I] in
theorem Sends.of_reads (s : Endpoint I M) (reads : Reads I) : Sends s { s with reads := reads } := { Sends.refl s with }

omit [LinearOrder I] in
theorem Sends.of_confirmReads (s : Endpoint I M) (token : Bytes) : Sends s (s.confirmReads token) :=
  (Sends.of_reads s _).trans
    (Sends.of_foldl (fun s (st : ReadIndexStatus I) =>
      Sends.of_emitOrReplyRead s st.index st.context st.reqFrom) _ _)

theorem Sends.of_onReadIndexResponse (s : Endpoint I M) (sender : I) (r : ReadIndexResponse I) :
    Sends s (s.onReadIndexResponse sender r) := by
  unfold onReadIndexResponse
  split
  · exact Sends.refl s
  split
  · exact Sends.refl s
  simp only
  split
  · exact Sends.of_reads s _
  · exact (Sends.of_reads s _).trans (Sends.of_emitReadState _ _ _)

theorem Sends.of_renewLease (s : Endpoint I M) (sender : I) (r : HeartbeatResponse I) :
    Sends s (s.renewLease sender r) := by
  unfold renewLease
  simp only
  split
  · exact { Sends.refl s with }
  · exact Sends.refl s

omit [LinearOrder I] in
theorem Sends.of_leaseRead (s : Endpoint I M) (reads : Reads I) (index : Index) (context : Bytes) (reqFrom : Option I) :
    Sends s ({ s with reads := reads }.emitOrReplyRead index context reqFrom) :=
  (Sends.of_reads s _).trans (Sends.of_emitOrReplyRead _ _ _ _)

omit [LinearOrder I] in
theorem Sends.of_forward (s : Endpoint I M) (reads : Reads I) (leader : I) (r : ReadIndex I) :
    Sends s ({ s with reads := reads }.send leader (.readIndex r)) :=
  (Sends.of_reads s _).trans (Sends.of_send _ _ rfl)

attribute [simp] Sends.of_sendFarewell Sends.of_confirmReads Sends.of_leaseRead Sends.of_forward
  Sends.of_onReadIndexResponse Sends.of_renewLease

/-! ## Acknowledgements -/

/-- The gates that hold acknowledgements, and the log completions that wait. -/
def withGates (s : Endpoint I M) (pending : List (OpId × Pending I)) (append snapshot shortcut : Option (I × Term × Index)) :
    Endpoint I M :=
  { s with pendingLog := pending, durable := { s.durable with
    termGatedAppendAck := append, termGatedSnapshotAck := snapshot, shortcutGatedSnapshotAck := shortcut } }

/-- An acknowledgement is sent or held. -/
inductive Acks (s : Endpoint I M) : Endpoint I M → Prop where
  | hold (l : List (OpId × Pending I)) (a b c : Option (I × Term × Index)) : Acks s (s.withGates l a b c)
  | append (l : List (OpId × Pending I)) (a b c : Option (I × Term × Index)) (dest : I) (r : AppendResponse I) :
    Acks s ((s.withGates l a b c).send dest (.appendResponse r))
  | snapshot (l : List (OpId × Pending I)) (a b c : Option (I × Term × Index)) (dest : I) (r : SnapshotResponse I) :
    Acks s ((s.withGates l a b c).send dest (.snapshotResponse r))

namespace Acks

@[simp] theorem releaseAck (s : Endpoint I M) (l : List (OpId × Pending I)) (dest : I) (n : Index) :
    Acks s ({ s with pendingLog := l }.sendOrGateAppendAck dest n) := by
  unfold sendOrGateAppendAck
  split
  · exact .append l _ _ _ _ _
  · exact .hold l _ _ _

@[simp] theorem ackAppend (s : Endpoint I M) (dest : I) (n : Index) : Acks s (s.sendOrGateAppendAck dest n) :=
  releaseAck s s.pendingLog dest n

@[simp] theorem ackSnapshot (s : Endpoint I M) (dest : I) (n : Index) : Acks s (s.sendOrGateSnapshotAck dest n) := by
  unfold sendOrGateSnapshotAck
  split
  · exact .snapshot s.pendingLog _ _ _ _ _
  · exact .hold s.pendingLog _ _ _

@[simp] theorem ackShortcut (s : Endpoint I M) (dest : I) (n : Index) : Acks s (s.sendOrGateShortcutSnapshotAck dest n) := by
  unfold sendOrGateShortcutSnapshotAck
  split
  · exact .snapshot s.pendingLog _ _ _ _ _
  · exact .hold s.pendingLog _ _ _

omit [LinearOrder I] in
@[simp] theorem flushShortcut (s : Endpoint I M) : Acks s s.flushShortcutGatedAck := by
  unfold flushShortcutGatedAck
  split
  · exact .hold s.pendingLog _ _ _
  split
  · exact .hold s.pendingLog _ _ _
  split
  · exact .snapshot s.pendingLog _ _ _ _ _
  · exact .hold s.pendingLog _ _ _

omit [LinearOrder I] in
@[simp] theorem flushSnapshotGate (s : Endpoint I M) : Acks s s.flushTermGatedSnapshotAck := by
  unfold flushTermGatedSnapshotAck
  split
  · exact .hold s.pendingLog _ _ _
  · exact .snapshot s.pendingLog _ _ _ _ _

omit [LinearOrder I] in
@[simp] theorem flushAppendGate (s : Endpoint I M) : Acks s s.flushTermGatedAppendAck := by
  unfold flushTermGatedAppendAck
  split
  · exact .hold s.pendingLog _ _ _
  · exact .append s.pendingLog _ _ _ _ _

omit [LinearOrder I] in
theorem eq (h : Acks s t) : ∃ l a b c out, t = { s.withGates l a b c with outgoing := out } := by
  cases h with
  | hold l a b c => exact ⟨l, a, b, c, s.outgoing, rfl⟩
  | append l a b c | snapshot l a b c =>
    rw [send_eq]
    exact ⟨l, a, b, c, _, rfl⟩

end Acks

end Endpoint

end Sailing
