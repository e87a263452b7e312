import Sailing.Calls.Storing

/-!
# Every public call is a sequence of steps

`handle_message` adopts a newer term, dispatches and submits the term it ends
in; the other calls dispatch at once. `does_exec` collects them: whatever a
driver calls, its effect on the node is a sequence of the effects that `Step`
lists.
-/

namespace Sailing

variable {I : Type} [LinearOrder I] {M : StateMachine}

/-- A call of the node's interface that can change more than what waits to be
polled. -/
def Call.isPublic : Call I M → Bool
  | .message .. | .timeout _ | .storage _ | .transfer .. | .propose _ | .proposeConf _
  | .readIndex .. | .flush _ | .failStopQueryPanicked => true
  | _ => false

def Call.time : Call I M → Instant
  | .message now _ _ | .timeout now | .storage now | .transfer now _ | .readIndex now _
  | .flush now => now
  | _ => 0

/-- The inputs the steps of a call have. -/
def Call.Brings : Call I M → Input I → Prop
  | .message _ sender m, inp => inp = .message sender m
  | .timeout _, inp => inp = .tick
  | .storage _, inp => inp = .quiet ∨ inp = .snapshot
  | .proposeConf _, inp => inp = .change
  | _, inp => inp = .quiet

namespace Endpoint

variable {mono : Prop} {now : Instant} {inp : Input I} {s s' : Endpoint I M}

/-! ## `handle_message` -/

variable {sender : I} {m : Message I}

theorem steps_dispatch (inv : NodeInv mono s) (live : s.poisoned = false)
    (from_ : m.sender = sender) (term : m.advertisedPrevote = false → m.term = s.term)
    (higher : mono → s.slot ≤ (s.dispatch now sender m).slot) :
    Steps mono now (.message sender m) s (s.dispatch now sender m) := by
  subst from_
  cases m with
  | requestVote => exact steps_onRequestVote live rfl term
  | voteResponse => exact steps_onVoteResponse inv live rfl
  | heartbeat => exact steps_onHeartbeat inv live rfl (term rfl)
  | appendEntries => exact steps_onAppendEntries inv live rfl (term rfl)
  | appendResponse => exact steps_onAppendResponse inv rfl (term rfl) rfl
  | heartbeatResponse => exact (Sent.onHeartbeatResponse rfl (term rfl) rfl).steps
  | readIndex => exact (Sent.onReadIndex rfl (term rfl)).steps
  | readIndexResponse => exact .single (.answered live rfl (term rfl))
  | installSnapshot => exact steps_onInstallSnapshot inv live rfl (term rfl) higher
  | snapshotResponse => exact steps_onSnapshotResponse inv rfl (term rfl) rfl
  | timeoutNow => exact steps_onTimeoutNow live rfl (term rfl)

/-- What `handle_message` ends with keeps the slot, whatever the message. -/
theorem steps_epilogue : Steps mono now inp s (s.ensureTermDurable.reconcileElectionTimer now) :=
  steps_ensureTermDurable.trans steps_reconcileElectionTimer

theorem slot_epilogue : (s.ensureTermDurable.reconcileElectionTimer now).slot = s.slot := by
  have h : Steps True now .quiet s (s.ensureTermDurable.reconcileElectionTimer now) := steps_epilogue
  exact Steps.slot_eq h (by simp [ReplacesSlot])

theorem Submitted.reconcileElectionTimer (h : s.Submitted) : (s.reconcileElectionTimer now).Submitted := by
  have st : Steps True now .quiet s (s.reconcileElectionTimer now) := steps_reconcileElectionTimer
  exact (Steps.stableKept st).submitted id h

/-- The node with the sender marked active. -/
def heard (s : Endpoint I M) (sender : I) : Endpoint I M :=
  if s.role = .leader then
    { s with tracker := s.tracker.modifyProgress sender (·.setRecentActive true) } else s

theorem Sent.heard (sender : I) : Sent mono now inp s (s.heard sender) := by
  unfold Endpoint.heard
  split
  · exact Sent.modifyProgress (fun _ => rfl) fun p _ => (Progress.Turn.mark p.msgAppFlowPaused true).path
  · exact Sent.refl s

theorem heard_poisoned (sender : I) : (s.heard sender).poisoned = s.poisoned := by
  unfold heard
  split <;> rfl

theorem receive_eq (sender : I) (m : Message I) : s.receive now sender m =
    ((s.heard sender).dispatch now sender m).ensureTermDurable.reconcileElectionTimer now := rfl

theorem steps_receive (inv : NodeInv mono s) (live : s.poisoned = false)
    (from_ : m.sender = sender) (term : m.advertisedPrevote = false → m.term = s.term)
    (higher : mono → s.slot ≤ (s.receive now sender m).slot) :
    Steps mono now (.message sender m) s (s.receive now sender m) ∧ (s.receive now sender m).Submitted := by
  have h₁ : Sent mono now (.message sender m) s (s.heard sender) := Sent.heard sender
  have slot₁ : (s.heard sender).slot = s.slot := by
    unfold slot
    rw [h₁.sends.stable]
  rw [receive_eq, slot_epilogue, ← slot₁] at higher
  have inv₁ := Steps.inv h₁.steps inv
  have h₂ := steps_dispatch inv₁ ((heard_poisoned sender).trans live) from_
    (fun hp => (term hp).trans h₁.sends.term.symm) higher
  have inv₂ := Steps.inv h₂ inv₁
  rw [receive_eq]
  exact ⟨(h₁.steps.trans h₂).trans steps_epilogue, (ensureTermDurable_submitted inv₂).reconcileElectionTimer⟩

theorem Sent.answerStale (sender : I) (m : Message I) : Sent mono now inp s (s.answerStale sender m) := by
  unfold Endpoint.answerStale
  split
  · split
    · exact Sent.send rfl fun _ => ⟨rfl, rfl, rfl⟩
    · exact Sent.send rfl fun _ => ⟨rfl, rfl, rfl⟩
    · exact Sent.refl s
  · exact Sent.refl s

theorem term_adoptTerm (t : Term) : (s.adoptTerm t).term = t := by
  unfold adoptTerm
  rw [setLeader_eq]
  rfl

theorem steps_handleMessage (inv : NodeInv mono s) (sub : s.Submitted)
    (higher : mono → s.slot ≤ (s.handleMessage now sender m).slot) :
    Steps mono now (.message sender m) s (s.handleMessage now sender m) ∧ (s.handleMessage now sender m).Submitted := by
  revert higher
  unfold handleMessage
  split
  · exact fun _ => ⟨.refl, sub⟩
  next hgo =>
  simp only [not_or, Bool.not_eq_true, ne_eq, not_not] at hgo
  obtain ⟨live, from_⟩ := hgo
  split
  · next hnew =>
    split
    · exact fun _ => ⟨.refl, sub⟩
    next open_ =>
    have h₁ : Steps mono now (.message sender m) s (s.adoptTerm m.term) :=
      .single (.adopt live rfl hnew.1 hnew.2 (by simpa using open_))
    have live₁ : (s.adoptTerm m.term).poisoned = false := by
      unfold adoptTerm
      rw [setLeader_eq]
      exact live
    have slot₁ : (s.adoptTerm m.term).slot = s.slot := by
      unfold adoptTerm
      rw [setLeader_eq]
      rfl
    intro higher
    rw [← slot₁] at higher
    obtain ⟨h₂, sub₂⟩ := steps_receive (Steps.inv h₁ inv) live₁ from_ (fun _ => (term_adoptTerm _).symm) higher
    exact ⟨h₁.trans h₂, sub₂⟩
  next hnew =>
  split
  · intro _
    have h₁ : Sent mono now (.message sender m) s (s.answerStale sender m) := Sent.answerStale sender m
    refine ⟨h₁.steps, fun live₁ => ?_⟩
    rw [h₁.sends.stable, h₁.sends.term]
    exact sub live
  next hold =>
  refine fun higher => steps_receive inv live from_ (fun hp => ?_) higher
  simp only [hp, and_true, Bool.and_false, not_lt] at hnew hold
  exact le_antisymm hnew hold

/-! ## The other calls -/

theorem steps_propose (cmd : M.Command) : Steps mono now inp s (s.propose cmd).2 := by
  unfold propose
  split
  · exact .refl
  next hp =>
  split
  · exact .refl
  next role =>
  split
  · exact .refl
  split
  · exact .refl
  next index hi =>
  simp only
  split
  · exact .refl
  next fits =>
  exact steps_appendOwn (by simpa using hp) (by simpa using role) (nextLogIndex_some hi)
    (fun hk => absurd hk (by simp [EntryKind.isConfChange])) (.inr (.inr (not_lt.mp fits)))

theorem steps_proposeConfChange (cc : ConfChangeV2 I) : Steps mono now .change s (s.proposeConfChange cc).2 := by
  unfold proposeConfChange
  split
  · exact .refl
  split
  · exact .refl
  next role =>
  split
  · exact .refl
  split
  · exact .refl
  split
  · exact .refl
  split
  · exact .refl
  split
  · exact .refl
  next fits =>
  have h₁ : Steps mono now .change s (s.appendConfChange cc).2 :=
    steps_appendConfChange (by simpa using role) (.inr rfl) (.inr (.inr (not_lt.mp fits)))
  split
  · next h =>
    rw [h] at h₁
    exact h₁
  next h =>
  rw [h] at h₁
  exact h₁

/-! ## All of them -/

/-- Any number of effects of a call that brings the inputs of `brings`. -/
abbrev Does (mono : Prop) (now : Instant) (brings : Input I → Prop) :
    Endpoint I M → Endpoint I M → Prop :=
  Relation.ReflTransGen fun s s' => ∃ inp, brings inp ∧ Step mono now inp s s'

theorem Steps.does {brings : Input I → Prop} (h : Steps mono now inp s s') (hi : brings inp) :
    Does mono now brings s s' :=
  Relation.ReflTransGen.mono (fun _ _ st => ⟨inp, hi, st⟩) _ _ h

theorem Does.inv {brings : Input I → Prop} (h : Does mono now brings s s') (inv : NodeInv mono s) :
    NodeInv mono s' := by
  induction h with
  | refl => exact inv
  | tail _ st ih =>
    obtain ⟨_, _, st⟩ := st
    exact st.inv ih

theorem Stored.does (h : Stored mono now s s') : Does mono now (fun inp => inp = .quiet ∨ inp = .snapshot) s s' := by
  obtain ⟨s₁, s₂, h₁, h₂, h₃⟩ := h.phases
  exact ((Steps.does h₁ (.inl rfl)).trans (Steps.does h₂ (.inr rfl))).trans (Steps.does h₃ (.inl rfl))

theorem Stored.submitted (h : Stored mono now s s') (sub : s.Submitted) : s'.Submitted := by
  obtain ⟨s₁, s₂, h₁, h₂, h₃⟩ := h.phases
  exact (Steps.stableKept h₃).submitted id ((Steps.stableKept h₂).submitted id ((Steps.stableKept h₁).submitted id sub))

/-- Every public call is a sequence of steps and leaves its term submitted. -/
theorem does_exec {c : Call I M} (hc : c.isPublic = true) (inv : NodeInv mono s) (sub : s.Submitted)
    (higher : mono → s.slot ≤ (s.exec c).slot) :
    Does mono c.time c.Brings s (s.exec c) ∧ (s.exec c).Submitted := by
  have quiet : ∀ {s' : Endpoint I M}, Steps mono c.time .quiet s s' → s'.Submitted :=
    fun st => (Steps.stableKept st).submitted id sub
  cases c with
  | message =>
    obtain ⟨h, hs⟩ := steps_handleMessage inv sub higher
    exact ⟨Steps.does h rfl, hs⟩
  | timeout now =>
    have h : Steps mono now .tick s (s.handleTimeout now) := steps_handleTimeout inv.contiguous
    exact ⟨Steps.does h rfl, (Steps.stableKept h).submitted id sub⟩
  | storage =>
    have h := stored_handleStorage inv sub higher
    exact ⟨h.does, h.submitted sub⟩
  | transfer now dest => exact ⟨Steps.does (Sent.transferLeader dest).steps rfl,
      quiet (Sent.transferLeader dest).steps⟩
  | propose cmd => exact ⟨Steps.does (steps_propose cmd) rfl, quiet (steps_propose cmd)⟩
  | proposeConf cc =>
    have h : Steps mono 0 .change s (s.proposeConfChange cc).2 := steps_proposeConfChange cc
    exact ⟨Steps.does h rfl, (Steps.stableKept h).submitted id sub⟩
  | readIndex now context => exact ⟨Steps.does (Sent.readIndex context).steps rfl,
      quiet (Sent.readIndex context).steps⟩
  | flush => exact ⟨Steps.does Sent.flushAppends.steps rfl, quiet Sent.flushAppends.steps⟩
  | failStopQueryPanicked =>
    have h : Steps mono 0 .quiet s (s.poison .queryPanicked) := .single (.die _)
    exact ⟨Steps.does h rfl, quiet h⟩
  | _ => exact absurd hc (by simp [Call.isPublic])

end Endpoint

end Sailing
