import Sailing.Calls.Applying
import Sailing.Step.Stores

/-!
# Writes of the hard state and gated acknowledgements, as steps

A write takes a fresh operation id; when the ids are exhausted the node fails
instead, and what it does after that is junk. `Writes` is the frame of a write.
-/

namespace Sailing.Endpoint

variable {I : Type} [LinearOrder I] {M : StateMachine}
variable {mono : Prop} {now : Instant} {inp : Input I} {s s' s'' : Endpoint I M}

omit [LinearOrder I] in
theorem not_mintable_iff : ¬ s.Mintable ↔ s.nextOpId.next = s.nextOpId := by
  unfold Mintable
  exact not_not

omit [LinearOrder I] in
theorem mintOpId_spent (h : ¬ s.Mintable) : s.mintOpId = (s.nextOpId, s.poison .opIdExhausted) := by
  have h' := not_mintable_iff.mp h
  unfold mintOpId
  simp only [h', if_true]
  rfl

/-- The frame of a write of the hard state. -/
structure Writes (s s' : Endpoint I M) : Prop where
  rest : ∃ id d st reason,
    s' = { s with nextOpId := id, durable := d, stable := st, poisonReason := reason }
  durableIndex : s'.durable.durableIndex = s.durable.durableIndex
  durableSnapshotIndex : s'.durable.durableSnapshotIndex = s.durable.durableSnapshotIndex
  slot : s'.stable.visible.snapshot = s.stable.visible.snapshot
  staging : s'.stable.staging = s.stable.staging
  dead : s.poisoned = true → s' = s
  spent : s.poisoned = false → s'.poisoned = true → ¬ s'.Mintable

omit [LinearOrder I] in
theorem Writes.refl (s : Endpoint I M) : Writes s s :=
  ⟨⟨_, _, _, _, rfl⟩, rfl, rfl, rfl, rfl, fun _ => rfl, fun h h' => by simp [h] at h'⟩

omit [LinearOrder I] in
theorem submitHardState_spent (mint : ¬ s.Mintable) : s.submitHardState =
    (s.nextOpId, { s.poison .opIdExhausted with durable :=
      { s.durable with committedPersisted := s.durableCommit } }) := by
  unfold submitHardState
  rw [mintOpId_spent mint]
  simp only
  have : (s.poison .opIdExhausted).submitWrite s.nextOpId
      (s.poison .opIdExhausted).currentHardState = s.poison .opIdExhausted := by
    simp [submitWrite]
  rw [this]
  rfl

omit [LinearOrder I] in
theorem visible_submitWrite (st : StableStore I) (id : OpId) (hs : HardState I) :
    (st.submitWrite id hs).visible = { st.visible with hardState := hs } := by
  simp [StableStore.submitWrite, StableStore.visible]

omit [LinearOrder I] in
theorem submitHardState_writes (live : s.poisoned = false) : Writes s s.submitHardState.2 := by
  by_cases mint : s.Mintable
  · rw [submitHardState_eq live mint]
    refine ⟨⟨_, _, _, _, rfl⟩, ?_, ?_, ?_, rfl, fun h => by simp [live] at h, fun _ h => ?_⟩
    · simp only [notedHardState, noteSubmitted_eq]
    · simp only [notedHardState, noteSubmitted_eq]
    · simp only [visible_submitWrite]
    · exact absurd h (by show ¬ s.poisoned = true; simp [live])
  · rw [submitHardState_spent mint]
    exact ⟨⟨_, _, _, _, rfl⟩, rfl, rfl, rfl, rfl, fun h => by simp [live] at h, fun _ _ => mint⟩

theorem steps_submitHardState (live : s.poisoned = false) : Steps mono now inp s s.submitHardState.2 := by
  by_cases mint : s.Mintable
  · exact .single (.write live mint)
  rw [submitHardState_spent mint]
  exact .single (.junk (poisoned_poison _) rfl rfl rfl rfl (List.Sublist.refl _)
    (fun hr => ⟨hr, rfl⟩) rfl fun hp => poisonReason_poison hp _)

omit [LinearOrder I] in
theorem submitHardState_submitted (live : s.poisoned = false) : s.submitHardState.2.Submitted := by
  intro live'
  by_cases mint : s.Mintable
  · rw [submitHardState_eq live mint]
    simp only [visible_submitWrite]
    rfl
  · rw [submitHardState_spent mint] at live'
    exact absurd live' (by show ¬ (s.poison .opIdExhausted).poisoned = false; simp)

theorem persistCommitFloor_writes : Writes s s.persistCommitFloor := by
  unfold persistCommitFloor
  split
  · exact Writes.refl s
  · exact submitHardState_writes (by simp_all)

theorem steps_persistCommitFloor : Steps mono now inp s s.persistCommitFloor := by
  unfold persistCommitFloor
  split
  · exact .refl
  · exact steps_submitHardState (by simp_all)

theorem ensureTermDurable_writes : Writes s s.ensureTermDurable := by
  unfold ensureTermDurable
  split
  · exact Writes.refl s
  simp only
  split
  · exact Writes.refl s
  · exact submitHardState_writes (by simp_all)

theorem steps_ensureTermDurable : Steps mono now inp s s.ensureTermDurable := by
  unfold ensureTermDurable
  split
  · exact .refl
  simp only
  split
  · exact .refl
  · exact steps_submitHardState (by simp_all)

/-- The newest term the store will hold is never ahead of the node's. -/
theorem NodeInv.visible_term_le (h : NodeInv mono s) (live : s.poisoned = false) :
    s.stable.visible.hardState.term ≤ s.term := by
  have := (h.votes live).newest_le.term_le
  rwa [ballots_newest] at this

theorem NodeInv.submitted_of_stored (h : NodeInv mono s) (hs : s.stable.hardState.term = s.term) : s.Submitted := by
  intro live
  refine le_antisymm (h.visible_term_le live) ?_
  rw [← hs]
  unfold StableStore.hardState
  split
  · exact le_rfl
  have hm : s.ballots.saved ∈ s.ballots.kept := List.mem_cons_self
  have := (h.ballots.le_newest hm).term_le
  rwa [ballots_newest] at this

theorem NodeInv.submitted_of_noted (h : NodeInv mono s) (hs : s.durable.lastSubmittedTerm = s.term) : s.Submitted := by
  intro live
  refine le_antisymm (h.visible_term_le live) ?_
  have := (h.votes live).submitted _ (Ballots.newest_mem_since _)
  rw [ballots_newest] at this
  rw [← hs]
  exact this

theorem ensureTermDurable_submitted (h : NodeInv mono s) : s.ensureTermDurable.Submitted := by
  unfold ensureTermDurable
  split
  · next hp => exact fun live => by simp [hp] at live
  simp only
  split
  · next hs =>
    rcases hs with ⟨ht, -⟩ | ⟨ht, -⟩
    · exact h.submitted_of_stored ht
    · exact h.submitted_of_noted ht
  · exact submitHardState_submitted (by simp_all)

/-! ## Gates -/

/-- The frame of a gated acknowledgement: only the gates and the queue move. -/
def Gates (s s' : Endpoint I M) : Prop :=
  ∃ l d out, s' = { s with pendingLog := l, durable := d, outgoing := out } ∧ (s.poisoned = true → out = s.outgoing)

namespace Gates

omit [LinearOrder I] in
theorem trans (h : Gates s s') (k : Gates s' s'') : Gates s s'' := by
  obtain ⟨_, _, _, rfl, h⟩ := h
  obtain ⟨_, _, _, rfl, k⟩ := k
  exact ⟨_, _, _, rfl, fun hp => (k hp).trans (h hp)⟩

omit [LinearOrder I] in
theorem of_acks (h : Acks s s') : Gates s s' := by
  cases h with
  | hold => exact ⟨_, _, _, rfl, fun _ => rfl⟩
  | append l a b c | snapshot l a b c =>
    rw [send_eq]
    refine ⟨_, _, _, rfl, fun hp => ?_⟩
    rw [if_pos (show (s.withGates l a b c).poisoned = true from hp)]
    exact List.append_nil _

theorem junk (h : Gates s s') (dead : s.poisoned = true) : Step mono now inp s s' := by
  obtain ⟨l, d, out, rfl, ho⟩ := h
  refine .junk dead rfl rfl rfl rfl ?_ (fun hr => ⟨hr, rfl⟩) rfl fun _ => rfl
  simp only [ho dead]
  exact List.Sublist.refl _

theorem steps (h : Gates s s') (step : s.poisoned = false → Steps mono now inp s s') : Steps mono now inp s s' := by
  by_cases live : s.poisoned = false
  · exact step live
  · exact .single (h.junk (by simpa using live))

end Gates

omit [LinearOrder I] in
/-- Flushing the snapshot gate leaves the append gate alone. -/
theorem flushTermGatedSnapshotAck_durable : s.flushTermGatedSnapshotAck.durable.termGatedAppendAck =
    s.durable.termGatedAppendAck ∧ s.flushTermGatedSnapshotAck.termIsDurable = s.termIsDurable := by
  unfold flushTermGatedSnapshotAck
  split
  · exact ⟨rfl, rfl⟩
  · rw [send_eq]
    exact ⟨rfl, rfl⟩

theorem steps_flushShortcutGatedAck : Steps mono now inp s s.flushShortcutGatedAck :=
  (Gates.of_acks (.flushShortcut s)).steps fun live => .single (.flushShortcut live)

omit [LinearOrder I] in
theorem flushTermGatedAcks_gates : Gates s s.flushTermGatedAcks := by
  unfold flushTermGatedAcks
  extract_lets s₁ d₂ s₂
  have h₁ : Gates s s₁ := .of_acks (.flushShortcut s)
  have h₂ : Gates s₁ s₂ := ⟨_, _, _, rfl, fun _ => rfl⟩
  clear_value s₁ s₂
  split
  · exact (h₁.trans h₂).trans ((Gates.of_acks (.flushSnapshotGate _)).trans (.of_acks (.flushAppendGate _)))
  · exact h₁.trans h₂

omit [LinearOrder I] in
theorem dropStaleGate_some {term : Term} {held : Option (I × Term × Index)} {g : I × Term × Index}
    (h : dropStaleGate term held = some g) : g.2.1 = term := by
  unfold dropStaleGate at h
  simpa using (Option.filter_eq_some_iff.mp h).2

theorem steps_flushTermGatedAcks : Steps mono now inp s s.flushTermGatedAcks := by
  refine flushTermGatedAcks_gates.steps fun live => ?_
  unfold flushTermGatedAcks
  extract_lets s₁ d₂ s₂
  have h₁ : Steps mono now inp s s₁ := steps_flushShortcutGatedAck
  have live₁ : s₁.poisoned = false := by
    obtain ⟨_, _, _, h, -⟩ : Gates s s₁ := .of_acks (.flushShortcut s)
    rw [h]
    exact live
  have h₂ : Steps mono now inp s s₂ := h₁.tail (.dropGates live₁)
  have hg₂ : ∀ g, s₂.durable.termGatedSnapshotAck = some g → g.2.1 = s₂.term := fun g hg => dropStaleGate_some hg
  have hg₂' : ∀ g, s₂.durable.termGatedAppendAck = some g → g.2.1 = s₂.term := fun g hg => dropStaleGate_some hg
  have live₂ : s₂.poisoned = false := live₁
  clear_value s₁ s₂
  split
  · next hd =>
    refine (h₂.tail (.flushSnapshotGate live₂ hd hg₂)).tail ?_
    obtain ⟨ha, ht⟩ := flushTermGatedSnapshotAck_durable (s := s₂)
    obtain ⟨l, d, out, he, -⟩ := Gates.of_acks (.flushSnapshotGate s₂)
    refine .flushAppendGate (by rw [he]; exact live₂) (ht.trans hd) ?_
    rw [ha, he]
    exact hg₂'
  · exact h₂

end Sailing.Endpoint
