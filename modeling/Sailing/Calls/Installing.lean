import Sailing.Calls.Replicating

/-!
# Snapshots, as steps

A follower stages the chunks of a snapshot, submits the whole of it to the slot
and installs it when the write is durable; a leader books the answers. A call
replaces the slot at most once, so that it does not lower the slot's boundary
is said of the whole call.
-/

namespace Sailing.Endpoint

variable {I : Type} [LinearOrder I] {M : StateMachine}
variable {mono : Prop} {now : Instant} {inp : Input I} {s s' : Endpoint I M}

/-! ## What the log already covers -/

variable {m : SnapshotMeta I} {dest sender : I} {is : InstallSnapshot I} {blob data : Bytes}
    {snap : M.Snapshot} {st st' : StableStore I}

omit [LinearOrder I] in
theorem coveredByLocalHistory_cases {bound : Index} {b : Option Bool} (h : s.coveredByLocalHistory m bound = (b, s')) :
    (b = none ∧ s' = s.poison .logTerm) ∨ (s' = s ∧ ((b = some true ∧ (bound < m.lastIndex →
          m.lastIndex ≤ s.durable.durableIndex ∧ s.log.visible.term m.lastIndex = m.lastTerm)) ∨
        (b = some false ∧ bound < m.lastIndex ∧ (s.durable.durableIndex < m.lastIndex ∨
          s.log.visible.term m.lastIndex ≠ m.lastTerm)))) := by
  unfold coveredByLocalHistory at h
  split at h
  · next hle =>
    simp only [Prod.mk.injEq] at h
    exact .inr ⟨h.2.symm, .inl ⟨h.1.symm, fun hlt => absurd hle (not_le.mpr hlt)⟩⟩
  next hgt =>
  split at h
  · next hle =>
    split at h
    · next h' =>
      obtain ⟨hs, ht⟩ := logTerm_some h'
      simp only [Prod.mk.injEq] at h
      refine .inr ⟨h.2.symm.trans hs, ?_⟩
      rw [← h.1]
      by_cases heq : s.log.visible.term m.lastIndex = m.lastTerm
      · exact .inl ⟨by simp [← ht, heq], fun _ => ⟨hle, heq⟩⟩
      · exact .inr ⟨by simp [← ht, heq], not_le.mp hgt, .inr heq⟩
    · next h' =>
      simp only [Prod.mk.injEq] at h
      exact .inl ⟨h.1.symm, h.2.symm.trans (logTerm_none h')⟩
  · next hlt =>
    simp only [Prod.mk.injEq] at h
    exact .inr ⟨h.2.symm, .inr ⟨h.1.symm, not_le.mp hgt, .inl (not_le.mp hlt)⟩⟩

theorem steps_dropSnapshotRecv (live : s.poisoned = false) :
    Steps mono now inp s s.dropSnapshotRecv := .single (.staging live (.inl rfl))

omit [LinearOrder I] in
theorem reclaimStaleSnapshotRecv_cases {b : Bool} (h : s.reclaimStaleSnapshotRecv = (b, s')) :
    (b = false ∧ s' = s.poison .logTerm) ∨ (b = true ∧ (s' = s ∨ s' = s.dropSnapshotRecv)) := by
  unfold reclaimStaleSnapshotRecv at h
  split at h
  · simp only [Prod.mk.injEq] at h
    exact .inr ⟨h.1.symm, .inl h.2.symm⟩
  split at h
  · next hc =>
    simp only [Prod.mk.injEq] at h
    rcases coveredByLocalHistory_cases hc with ⟨-, he⟩ | ⟨-, ⟨hb, -⟩ | ⟨hb, -⟩⟩
    · exact .inl ⟨h.1.symm, h.2.symm.trans he⟩
    · cases hb
    · cases hb
  · next hc =>
    simp only [Prod.mk.injEq] at h
    rcases coveredByLocalHistory_cases hc with ⟨hb, -⟩ | ⟨he, -⟩
    · cases hb
    · exact .inr ⟨h.1.symm, .inr (by rw [← h.2, he])⟩
  · next hc =>
    simp only [Prod.mk.injEq] at h
    rcases coveredByLocalHistory_cases hc with ⟨hb, -⟩ | ⟨he, -⟩
    · cases hb
    · exact .inr ⟨h.1.symm, .inl (by rw [← h.2, he])⟩

/-! ## The shortcut -/

theorem commit_commitTo (hc : s.log.visible.Contiguous) (n : Index) : n ≤ (s.commitTo n).commit := by
  unfold commitTo
  extract_lets s₁
  have h₁ : n ≤ s₁.commit := by
    unfold s₁
    split
    · exact le_rfl
    · exact not_lt.mp ‹_›
  have hc₁ : s₁.log.visible.Contiguous := by
    unfold s₁
    split <;> exact hc
  split
  · have h : Ran True 0 .quiet s₁ s₁.applyCommitted.2 := Ran.applyCommitted hc₁
    exact h₁.trans h.keeps.commit
  · exact h₁

theorem steps_shortcutAck {n : Index} (known : n ≤ s.commit) :
    Steps mono now inp s (s.sendOrGateShortcutSnapshotAck dest n) :=
  (Gates.of_acks (.ackShortcut s dest n)).steps fun live => .single (.ackShortcut live known)

theorem steps_persistAndAck {n : Index} (known : n ≤ s.commit) :
    Steps mono now inp s (s.persistCommitFloor.sendOrGateShortcutSnapshotAck dest n) := by
  have w : Writes s s.persistCommitFloor := persistCommitFloor_writes
  have h : Steps mono now inp s s.persistCommitFloor := steps_persistCommitFloor
  generalize s.persistCommitFloor = s₁ at w h
  refine h.trans (steps_shortcutAck ?_)
  obtain ⟨_, _, _, _, rfl⟩ := w.rest
  exact known

theorem steps_shortcutInstall (inv : NodeInv mono s) (offered : s.Offered inp m) (held : s.commit < m.lastIndex →
      m.lastIndex ≤ s.durable.durableIndex ∧ s.log.visible.term m.lastIndex = m.lastTerm) :
    Steps mono now inp s (s.shortcutInstall m dest) := by
  unfold shortcutInstall
  split
  · next hlt =>
    have h₁ : Ran mono now inp s (s.commitTo m.lastIndex) := Ran.commitTo inv.contiguous
      fun live _ => .commitShortcut live offered hlt (held hlt).1 (held hlt).2
    have known := commit_commitTo inv.contiguous m.lastIndex
    generalize s.commitTo m.lastIndex = s₁ at h₁ known
    simp only
    split
    · exact h₁.steps
    · exact h₁.steps.trans (steps_persistAndAck known)
  · next hle => exact steps_shortcutAck (not_lt.mp hle)

/-! ## Submitting a snapshot to the slot -/

/-- The boundary of the slot as reads see it. -/
def slot (s : Endpoint I M) : Index := s.stable.visible.slot

omit [LinearOrder I] in
theorem submitSnapshot_spent (mint : ¬ s.Mintable) (m : SnapshotMeta I) (blob : Bytes) :
    s.submitSnapshot m blob = (s.nextOpId, s.poison .opIdExhausted) := by
  unfold submitSnapshot
  rw [mintOpId_spent mint]
  simp

/-! ## Staging -/

/-- The node with another staging area. -/
def withStaging (s : Endpoint I M) (staging : Option (SnapshotStaging I)) : Endpoint I M :=
  { s with stable := { s.stable with staging := staging } }

omit [LinearOrder I] in
theorem withStaging_submitHardState (live : s.poisoned = false) (staging : Option (SnapshotStaging I)) :
    (s.withStaging staging).submitHardState.2 = s.submitHardState.2.withStaging staging := by
  by_cases mint : s.Mintable
  · rw [submitHardState_eq live mint, submitHardState_eq (s := s.withStaging staging) live mint]
    rfl
  · rw [submitHardState_spent mint, submitHardState_spent (s := s.withStaging staging) mint]
    rfl

theorem withStaging_ensureTermDurable (staging : Option (SnapshotStaging I)) :
    (s.withStaging staging).ensureTermDurable = s.ensureTermDurable.withStaging staging := by
  unfold ensureTermDurable
  cases hp : s.poisoned with
  | true =>
    rw [show (s.withStaging staging).poisoned = true from hp]
    rfl
  | false =>
    rw [show (s.withStaging staging).poisoned = false from hp, withStaging_submitHardState hp]
    simp only [Bool.false_eq_true, if_false]
    by_cases hs : (s.stable.hardState.term = s.term ∧ s.stable.hardState.vote = s.votedFor ∧
          s.stable.hardState.leaseSupport.promised = s.durable.leaseSupportFloor) ∨
        (s.durable.lastSubmittedTerm = s.term ∧ s.durable.lastSubmittedVote = s.votedFor ∧
          s.durable.lastSubmittedLeaseSupport = s.durable.leaseSupportFloor)
    · exact (if_pos hs).trans (congrArg (withStaging · staging) (if_pos hs)).symm
    · exact (if_neg hs).trans (congrArg (withStaging · staging) (if_neg hs)).symm

/-- A whole transfer may as well be submitted before its staging area is
cleared. -/
theorem withStaging_beginInstall (live : s.poisoned = false) (staging : Option (SnapshotStaging I))
    (m : SnapshotMeta I) (blob : Bytes) (snap : M.Snapshot) (leader : I) :
    (s.withStaging staging).beginInstall m blob snap leader =
      (s.beginInstall m blob snap leader).withStaging staging := by
  unfold beginInstall
  rw [withStaging_ensureTermDurable]
  have spent := (ensureTermDurable_writes (s := s)).spent live
  generalize s.ensureTermDurable = t at spent
  by_cases mint : t.Mintable
  · have live' : t.poisoned = false := by
      by_contra hp
      exact spent (by simpa using hp) mint
    rw [submitSnapshot_eq live' mint, submitSnapshot_eq (s := t.withStaging staging) live' mint]
    rfl
  · rw [submitSnapshot_spent mint, submitSnapshot_spent (s := t.withStaging staging) mint]
    rfl

omit [LinearOrder I] in
theorem accept_keeps {st st' : SnapshotStaging I} {offset : Nat} (h : st.accept offset data = some st') :
    st'.snapshot = st.snapshot ∧ st'.totalLen = st.totalLen := by
  unfold SnapshotStaging.accept at h
  simp only at h
  split at h
  · cases h
  simp only [Option.some.injEq] at h
  rw [← h]
  refine ⟨rfl, ?_⟩
  simp only [SnapshotStaging.totalLen, List.length_append, List.length_take, List.length_drop]
  lia

theorem identityEq_self (m : SnapshotMeta I) : m.identityEq m = true := by
  simp [SnapshotMeta.identityEq]

theorem identityEq_iff {a b : SnapshotMeta I} : a.identityEq b = true ↔ a = b := by
  obtain ⟨i, t, c⟩ := a
  obtain ⟨i', t', c'⟩ := b
  simp [SnapshotMeta.identityEq]

theorem acceptSnapshotChunk_some {total offset n : Nat}
    (h : st.acceptSnapshotChunk m total offset data = (some n, st')) :
    ∃ sg, st' = { st with staging := some sg } ∧ sg.snapshot.identityEq m = true ∧ sg.totalLen = total := by
  unfold StableStore.acceptSnapshotChunk at h
  split at h
  · cases h
  extract_lets current at h
  have hc : current.snapshot.identityEq m = true ∧ current.totalLen = total := by
    have hnew : (⟨m, List.replicate total 0, []⟩ : SnapshotStaging I).snapshot.identityEq m = true ∧
        (⟨m, List.replicate total 0, []⟩ : SnapshotStaging I).totalLen = total :=
      ⟨identityEq_self m, List.length_replicate⟩
    unfold current
    split
    · split
      · next hb => simpa using hb
      · exact hnew
    · exact hnew
  split at h
  · cases h
  next sg hacc =>
  simp only [Prod.mk.injEq] at h
  obtain ⟨hs, ht⟩ := accept_keeps hacc
  exact ⟨sg, h.2.symm, by rw [hs]; exact hc.1, by rw [ht]; exact hc.2⟩

theorem acceptSnapshotChunk_none {total offset : Nat}
    (h : st.acceptSnapshotChunk m total offset data = (none, st')) : st' = st := by
  unfold StableStore.acceptSnapshotChunk at h
  split at h
  · exact (Prod.mk.inj h).2.symm
  simp only at h
  split at h
  · exact (Prod.mk.inj h).2.symm
  · cases h

omit [LinearOrder I] in
theorem takeStagedSnapshot_some (h : st.takeStagedSnapshot m = (some blob, st')) :
    ∃ sg, st.staging = some sg ∧ sg.isComplete = true ∧ sg.buf = blob ∧ st' = { st with staging := none } := by
  unfold StableStore.takeStagedSnapshot at h
  split at h
  · next sg hsg =>
    split at h
    · next hc =>
      simp only [Prod.mk.injEq, Option.some.injEq] at h
      exact ⟨sg, hsg, hc.2, h.1, h.2.symm⟩
    · cases h
  · cases h

/-- Without an id left the node fails before anything reaches the slot. -/
theorem steps_beginInstall_spent {leader : I} {recv : Option (SnapshotRecv I)} (live : s.poisoned = false)
    (dead : (s.beginInstall m blob snap leader).poisoned = true) :
    Steps mono now inp s { s.beginInstall m blob snap leader with
      snapshot := { (s.beginInstall m blob snap leader).snapshot with snapshotRecv := recv } } := by
  have h₁ : Steps mono now inp s s.ensureTermDurable := steps_ensureTermDurable
  have spent := (ensureTermDurable_writes (s := s)).spent live
  unfold beginInstall at dead ⊢
  generalize s.ensureTermDurable = t at h₁ spent dead
  have mint : ¬ t.Mintable := fun mint => by
    by_cases hp : t.poisoned = true
    · exact spent hp mint
    · rw [submitSnapshot_eq (by simpa using hp) mint] at dead
      exact hp dead
  rw [submitSnapshot_spent mint]
  exact h₁.tail (.junk (poisoned_poison _) rfl rfl rfl rfl (List.Sublist.refl _)
    (fun hr => ⟨hr, rfl⟩) rfl fun hp => poisonReason_poison hp _)

theorem steps_progressAck {acked : Nat} {boundary : Index} :
    Steps mono now inp s (s.sendSnapshotProgressAck dest acked boundary) := by
  have h : Sent mono now inp s (s.sendSnapshotProgressAck dest acked boundary) :=
    Sent.send rfl fun _ => ⟨rfl, rfl, rfl, rfl⟩
  exact h.steps

section

variable (inv : NodeInv mono s) (live : s.poisoned = false) (msg : inp = .message sender (.installSnapshot is))
  (term : is.term = s.term) (role : s.role = .follower) (slot : s.visibleSlot ≤ is.snapshot.lastIndex)
  (ahead : s.committedBound < is.snapshot.lastIndex)

include inv live msg term role slot ahead

theorem steps_beginInstall (decoded : M.decodeSnapshot blob = some snap)
    (higher : mono → s.slot ≤ (s.beginInstall is.snapshot blob snap is.leader).slot)
    (whole : is.totalLen = 0 ∧ blob = is.data ∨
      ∃ st, s.stable.staging = some st ∧ st.snapshot.identityEq is.snapshot = true ∧
        st.totalLen = is.totalLen ∧ st.isComplete = true ∧ st.buf = blob) :
    Steps mono now inp s (s.beginInstall is.snapshot blob snap is.leader) := by
  unfold beginInstall at higher ⊢
  have h₁ : Steps mono now inp s s.ensureTermDurable := steps_ensureTermDurable
  have w₁ : Writes s s.ensureTermDurable := ensureTermDurable_writes
  have sub₁ := ensureTermDurable_submitted inv
  generalize s.ensureTermDurable = s₁ at h₁ w₁ sub₁ higher
  refine h₁.trans ?_
  by_cases mint : s₁.Mintable
  · have live₁ : s₁.poisoned = false := by
      by_contra hp
      exact w₁.spent live (by simpa using hp) mint
    refine .single (.beginInstall live₁ mint msg ?_ ?_ ?_ ?_ decoded (fun hm => ?_) (sub₁ live₁) ?_)
    · obtain ⟨_, _, _, _, rfl⟩ := w₁.rest
      exact term
    · obtain ⟨_, _, _, _, rfl⟩ := w₁.rest
      exact role
    · have hd := w₁.durableSnapshotIndex
      obtain ⟨_, _, _, _, rfl⟩ := w₁.rest
      unfold visibleSlot at slot ⊢
      rw [hd]
      exact slot
    · have hd := w₁.durableSnapshotIndex
      have hi := w₁.durableIndex
      obtain ⟨_, _, _, _, rfl⟩ := w₁.rest
      unfold committedBound ackWatermark at ahead ⊢
      rw [hd, hi]
      exact ahead
    · have h := higher hm
      rw [submitSnapshot_eq live₁ mint] at h
      unfold Endpoint.slot StableImage.slot at h
      unfold StableImage.slot
      rw [w₁.slot]
      refine h.trans ?_
      simp only [visible_submitSnapshot]
      exact le_rfl
    · rw [w₁.staging]
      exact whole
  · rw [submitSnapshot_spent mint]
    exact .single (.junk (poisoned_poison _) rfl rfl rfl rfl (List.Sublist.refl _)
      (fun hr => ⟨hr, rfl⟩) rfl fun hp => poisonReason_poison hp _)

theorem steps_submitStaged {sg : SnapshotStaging I} (staged : s.stable.staging = some sg)
    (same : sg.snapshot.identityEq is.snapshot = true) (len : sg.totalLen = is.totalLen)
    (complete : sg.isComplete = true) (decoded : M.decodeSnapshot sg.buf = some snap)
    (higher : mono → s.slot ≤ ((s.withStaging none).beginInstall is.snapshot sg.buf snap is.leader).slot) :
    Steps mono now inp s { (s.withStaging none).beginInstall is.snapshot sg.buf snap is.leader with
      snapshot := { ((s.withStaging none).beginInstall is.snapshot sg.buf snap is.leader).snapshot with
        snapshotRecv := none } } := by
  cases hp : ((s.withStaging none).beginInstall is.snapshot sg.buf snap is.leader).poisoned with
  | true =>
    have h₁ : Step mono now inp s (s.withStaging none) := .staging live (.inl rfl)
    exact .head h₁ (steps_beginInstall_spent live hp)
  | false =>
    rw [withStaging_beginInstall live] at hp higher ⊢
    have h₁ : Steps mono now inp s (s.beginInstall is.snapshot sg.buf snap is.leader) :=
      steps_beginInstall inv live msg term role slot ahead decoded higher (.inr ⟨sg, staged, same, len, complete, rfl⟩)
    exact h₁.tail (.staging hp (.inl rfl))

theorem steps_installWhole (single : is.totalLen = 0) (higher : mono → s.slot ≤ (s.installWhole is).slot) :
    Steps mono now inp s (s.installWhole is) := by
  revert higher
  unfold installWhole
  split
  · exact fun _ => .refl
  intro higher
  have h₁ : Steps mono now inp s s.dropSnapshotRecv := steps_dropSnapshotRecv live
  have inv₁ := Steps.inv h₁ inv
  refine h₁.trans ?_
  revert higher
  simp only
  split
  · split
    · exact fun _ => .single (.die _)
    · next decoded =>
      exact fun higher => steps_beginInstall inv₁ live msg term role slot ahead decoded higher (.inl ⟨single, rfl⟩)
  · exact fun _ => .single (.die _)

theorem steps_stageChunk (higher : mono → s.slot ≤ (s.stageChunk is).slot) :
    Steps mono now inp s (s.stageChunk is) := by
  revert higher
  unfold stageChunk
  split
  · exact fun _ => .single (.die _)
  split
  · next h =>
    rw [acceptSnapshotChunk_none h]
    exact fun _ => .single (.die _)
  next n stable h =>
  obtain ⟨sg, rfl, same, len⟩ := acceptSnapshotChunk_some h
  have h₁ : Steps mono now inp s { s with
      stable := { s.stable with staging := some sg }
      snapshot := { s.snapshot with
        snapshotRecv := s.snapshot.snapshotRecv.map (SnapshotRecv.setStaged · n) } } := by
    have hr : Step mono now inp s { s with stable := { s.stable with staging := some sg } } :=
      .receive live msg term ⟨_, _, h, rfl⟩ rfl
    exact .head hr (.single (.staging live (.inr rfl)))
  have inv₁ := Steps.inv h₁ inv
  intro higher
  refine h₁.trans ?_
  revert higher
  simp only
  split
  · exact fun _ => steps_progressAck
  split
  · exact fun _ => .single (.die _)
  next blob stable' ht =>
  obtain ⟨sg', hsg, complete, rfl, rfl⟩ := takeStagedSnapshot_some ht
  obtain rfl := Option.some.inj hsg
  split
  · exact fun _ => .head (.staging live (.inl rfl)) (.single (.die _))
  next decoded =>
  exact fun higher => steps_submitStaged inv₁ live msg term role slot ahead rfl same len complete decoded higher

theorem steps_installChunk (higher : mono → s.slot ≤ (s.installChunk is).slot) :
    Steps mono now inp s (s.installChunk is) := by
  revert higher
  unfold installChunk
  split
  · split
    · exact fun _ => .single (.die _)
    · exact fun _ => steps_progressAck
  split
  · exact steps_stageChunk inv live msg term role slot ahead
  split
  · exact fun _ => .refl
  split
  · -- a new transfer: the pending install and the partial one are forgotten
    intro higher
    have h₁ : Steps mono now inp s { s with
        stable := s.stable.discardSnapshotStaging
        snapshot := { s.snapshot with
          pendingInstall := none
          snapshotRecv := some ⟨is.snapshot, is.totalLen, 0, is.term⟩ } } :=
      .head (.dropInstall live) (.single (.staging live (.inl rfl)))
    refine h₁.trans (steps_stageChunk (Steps.inv h₁ inv) live msg term role ?_ ahead higher)
    unfold visibleSlot at slot ⊢
    exact max_le (le_trans (le_max_left _ _) slot) (Nat.zero_le _)
  · exact fun _ => .single (.die _)

end

theorem slot_followLeader (s : Endpoint I M) (now : Instant) (l : I) : (s.followLeader now l).slot = s.slot := by
  unfold followLeader
  rw [setLeader_eq]
  rfl

/-- Only the events, the tracker and the farewells change. -/
theorem retrack_eq (s : Endpoint I M) (m : SnapshotMeta I) : ∃ news,
    s.retrack m = { s with
      events := s.events ++ news
      tracker := Tracker.fromConfState m.conf m.lastIndex s.config.maxInflightMsgs
        s.config.maxInflightBytes }.retainFarewells ∧
      (news = [.snapshotRestored m] ∨ news = [.snapshotRestored m, .confChanged m.lastIndex m.conf]) := by
  unfold retrack
  simp only
  split
  · refine ⟨_, ?_, .inr rfl⟩
    simp [emit]
  · exact ⟨_, rfl, .inl rfl⟩

omit [LinearOrder I] in
theorem adopts_none : s.adopts is none = false := by
  unfold adopts
  cases s.pendingApply <;> simp

/-- The arm of `on_install_snapshot` that takes the snapshot for a parked merge. -/
def installUnion (s : Endpoint I M) (is : InstallSnapshot I) : Endpoint I M :=
  match s.adoptParkedUnion is.snapshot is.data with
  | (false, s) => s
  | (true, s) => s.shortcutInstall is.snapshot is.leader

/-- What the service over the groups has found out matters only in that arm. -/
theorem onInstallSnapshot_cases (mono : Prop) (now : Instant) (walked : Option Index) (live : s.poisoned = false)
    (msg : inp = .message is.leader (.installSnapshot is)) (term : is.term = s.term) :
    s.onInstallSnapshot now is walked = s.onInstallSnapshot now is ∨ ∃ s₂, Steps mono now inp s s₂ ∧
      s₂.poisoned = false ∧ s₂.role = .follower ∧ s₂.adopts is walked = true ∧
      s.onInstallSnapshot now is walked = s₂.installUnion is := by
  have h₁ : Steps mono now inp s (s.followLeader now is.leader) := .single (.follow live msg rfl rfl term)
  obtain ⟨role₁, -, -, -, -, live₁, -⟩ := followLeader_frame s now is.leader
  unfold onInstallSnapshot
  simp only [live, Bool.false_eq_true, if_false]
  generalize s.followLeader now is.leader = s₁ at h₁ role₁ live₁ ⊢
  replace live₁ : s₁.poisoned = false := live₁.trans live
  by_cases last : is.snapshot.lastIndex = u64Max
  · exact .inl (by simp only [if_pos last])
  simp only [if_neg last]
  cases reclaimed : s₁.reclaimStaleSnapshotRecv with
  | mk done s₂ =>
    cases done with
    | false => exact .inl rfl
    | true =>
      have h₂ : Steps mono now inp s₁ s₂ ∧ s₂.poisoned = false ∧ s₂.role = .follower := by
        rcases reclaimStaleSnapshotRecv_cases reclaimed with ⟨impossible, -⟩ | ⟨-, rfl | rfl⟩
        · cases impossible
        · exact ⟨.refl, live₁, role₁⟩
        · exact ⟨steps_dropSnapshotRecv live₁, live₁, role₁⟩
      obtain ⟨h₂, live₂, role₂⟩ := h₂
      simp only
      cases covered : s₂.coveredByLocalHistory is.snapshot s₂.committedBound with
      | mk redundant s₃ =>
        rcases redundant with _ | _ | _
        · exact .inl rfl
        · exact .inl rfl
        obtain ⟨impossible, -⟩ | ⟨rfl, -⟩ := coveredByLocalHistory_cases covered
        · cases impossible
        simp only
        by_cases above : s₃.recvAbove is = true
        · exact .inl (by simp only [if_pos above])
        simp only [if_neg above]
        by_cases takes : s₃.dropSnapshotRecv.adopts is walked = true
        · refine .inr ⟨s₃.dropSnapshotRecv, (h₁.trans h₂).trans (steps_dropSnapshotRecv live₂), live₂, role₂, takes, ?_⟩
          rw [if_pos takes]
          rfl
        · rw [if_neg takes, adopts_none, if_neg Bool.false_ne_true]
          exact .inl rfl

theorem steps_onInstallSnapshot (inv : NodeInv mono s)
    (live : s.poisoned = false) (msg : inp = .message is.leader (.installSnapshot is))
    (term : is.term = s.term) (higher : mono → s.slot ≤ (s.onInstallSnapshot now is).slot) :
    Steps mono now inp s (s.onInstallSnapshot now is) := by
  revert higher
  unfold onInstallSnapshot
  rw [if_neg (by simp [live])]
  intro higher
  have h₁ : Steps mono now inp s (s.followLeader now is.leader) := .single (.follow live msg rfl rfl term)
  obtain ⟨role₁, term₁, -, -, -, live₁, -⟩ := followLeader_frame s now is.leader
  have inv₁ := Steps.inv h₁ inv
  rw [← slot_followLeader s now is.leader] at higher
  refine h₁.trans ?_
  revert higher
  simp only
  generalize s.followLeader now is.leader = s₁ at role₁ term₁ live₁ inv₁
  replace live₁ : s₁.poisoned = false := live₁.trans live
  have term₁ : is.term = s₁.term := term.trans term₁.symm
  split
  · exact fun _ => .single (.die _)
  split
  · next h =>
    rcases reclaimStaleSnapshotRecv_cases h with ⟨-, he⟩ | ⟨hb, -⟩
    · rw [he]
      exact fun _ => .single (.die _)
    · cases hb
  · next s₂ h =>
    -- what is left of a stale transfer is dropped, nothing else changes
    have h₂ : Steps mono now inp s₁ s₂ ∧ s₂.slot = s₁.slot ∧ s₂.poisoned = false ∧
        s₂.role = .follower ∧ is.term = s₂.term := by
      rcases reclaimStaleSnapshotRecv_cases h with ⟨hb, -⟩ | ⟨-, he | he⟩
      · cases hb
      · rw [he]
        exact ⟨.refl, rfl, live₁, role₁, term₁⟩
      · rw [he]
        exact ⟨steps_dropSnapshotRecv live₁, rfl, live₁, role₁, term₁⟩
    obtain ⟨h₂, slot₂, live₂, role₂, term₂⟩ := h₂
    have inv₂ := Steps.inv h₂ inv₁
    rw [← slot₂]
    intro higher
    refine h₂.trans ?_
    revert higher
    split
    · next hc =>
      rcases coveredByLocalHistory_cases hc with ⟨-, he⟩ | ⟨-, ⟨hb, -⟩ | ⟨hb, -⟩⟩
      · rw [he]
        exact fun _ => .single (.die _)
      · cases hb
      · cases hb
    · next hc =>
      rcases coveredByLocalHistory_cases hc with ⟨hb, -⟩ | ⟨he, ⟨-, held⟩ | ⟨hb, -⟩⟩
      · cases hb
      · rw [he]
        split
        · exact fun _ => .refl
        intro _
        rw [adopts_none, if_neg Bool.false_ne_true]
        have h₃ : Steps mono now inp s₂ s₂.dropSnapshotRecv := steps_dropSnapshotRecv live₂
        refine h₃.trans (steps_shortcutInstall (Steps.inv h₃ inv₂) ?_ fun hlt => ?_)
        · exact .inl ⟨_, is, msg, term₂, rfl⟩
        · exact held (lt_of_le_of_lt (min_le_left _ _) hlt)
      · cases hb
    · next hc =>
      rcases coveredByLocalHistory_cases hc with ⟨hb, -⟩ | ⟨he, ⟨hb, -⟩ | ⟨-, ahead, -⟩⟩
      · cases hb
      · cases hb
      rw [he]
      split
      · exact fun _ => .refl
      next hgo =>
      simp only [not_or, not_lt] at hgo
      split
      · next single =>
        exact steps_installWhole inv₂ live₂ msg term₂ role₂ hgo.2 ahead single
      · exact steps_installChunk inv₂ live₂ msg term₂ role₂ hgo.2 ahead

/-! ## Answers at the leader -/

theorem Sent.pumpSnapshot (lead : s.Leads) (sender : I) (acked : Nat) :
    Sent mono now inp s (s.pumpSnapshot now sender acked).2 := by
  unfold Endpoint.pumpSnapshot
  extract_lets before s₁
  have h₁ : Sent mono now inp s s₁ := 
    Sent.modifyProgress (fun p => matchIndex_snapshotAcked p _) fun p _ => (Progress.Turn.acked p _).path
  have lead₁ := h₁.leads lead
  clear_value s₁
  split
  · next cursor _ =>
    split
    · exact h₁
    have h₂ : Sent mono now inp s (s₁.sendSnapshotChunk sender cursor).2 :=
      h₁.trans (Sent.sendSnapshotChunk lead₁ sender cursor)
    generalize s₁.sendSnapshotChunk sender cursor = p at h₂
    obtain ⟨c, s₂⟩ := p
    cases c with
    | sent | deferred | unsendable => exact h₂.trans (Sent.setResendAfter ..)
    | poisoned => exact h₂
  · exact h₁

theorem steps_onSnapshotAck {r : SnapshotResponse I} (inv : NodeInv mono s)
    (live : s.poisoned = false) (role : s.role = .leader)
    (msg : inp = .message sender (.snapshotResponse r)) (term : r.term = s.term)
    (from_ : r.sender = sender) (ok : r.reject = false) :
    Steps mono now inp s (s.onSnapshotAck now sender r) := by
  unfold onSnapshotAck
  split
  · exact .refl
  next hle =>
  extract_lets s₁
  have h₁ : Steps mono now inp s s₁ ∧ s₁.role = .leader ∧ s₁.log = s.log := by
    unfold s₁
    split
    · exact ⟨.refl, role, rfl⟩
    next hprog =>
    have hprog : r.progress = false := by simpa using hprog
    refine ⟨.single (.matchPeer (r := ⟨r.term, r.sender, r.reject, 0, 0, r.matchIndex, 0⟩) live role
      msg (.inr ⟨r, rfl, rfl, rfl, rfl, rfl, hprog⟩) term from_ ok ?_ (fun p => ?_) fun p => ?_), role, rfl⟩
    · simpa [hprog] using hle
    · exact matchIndex_maybeUpdate p _
    · exact (Progress.Turn.update p _).path
  obtain ⟨h₁, role₁, log₁⟩ := h₁
  clear_value s₁
  have h₂ : Sent mono now inp s₁ (s₁.pumpSnapshot now sender r.ackedThrough).2 := Sent.pumpSnapshot (.inl role₁) ..
  generalize s₁.pumpSnapshot now sender r.ackedThrough = p at h₂
  obtain ⟨_ | _, s₂⟩ := p
  · exact h₁.trans h₂.steps
  have role₂ : s₂.role = .leader := h₂.sends.role.trans role₁
  have hc : s₂.log.visible.Contiguous := by
    rw [show s₂.log = s.log from h₂.sends.log.trans log₁]
    exact inv.contiguous
  have h₃ : Ran mono now inp s₂ (s₂.onProgress now) := Ran.onProgress role₂ hc
  have lead₃ := h₃.keeps.leads (.inl role₂)
  refine (h₁.trans h₂.steps).trans (h₃.steps.trans ?_)
  simp only
  generalize s₂.onProgress now = s₃ at lead₃
  split
  · exact .refl
  have hf : Sent mono now inp s₃ (s₃.maybeFlushDeferredReads now) := Sent.maybeFlushDeferredReads
  have h₄ := hf.trans (Sent.maybeSendAppend (hf.leads lead₃) sender)
  split
  · exact h₄.steps
  · exact (h₄.trans (Sent.maybeHandOffToTransferee (h₄.leads lead₃) sender)).steps

theorem steps_onSnapshotResponse {r : SnapshotResponse I} (inv : NodeInv mono s)
    (msg : inp = .message sender (.snapshotResponse r)) (term : r.term = s.term)
    (from_ : r.sender = sender) : Steps mono now inp s (s.onSnapshotResponse now sender r) := by
  unfold onSnapshotResponse
  split
  · exact .refl
  next hgo =>
  simp only [not_or, Bool.not_eq_true, ne_eq, not_not] at hgo
  split
  · have h₁ : Sent mono now inp s { s with
        tracker := s.tracker.modifyProgress sender (·.becomeProbe) } :=
      Sent.modifyProgress (fun _ => rfl) fun p _ => (Progress.Turn.probe p).path
    exact (h₁.trans (Sent.maybeSendAppend (h₁.leads (.inl hgo.2.1)) sender)).steps
  · next hr =>
    exact steps_onSnapshotAck inv hgo.1 hgo.2.1 msg term from_ (by simpa using hr)

end Sailing.Endpoint
