import Sailing.Node.Floors
import Sailing.Run.Stores
import Sailing.Calls.Public

/-!
# Crash and restart

A crash leaves the durable images. `restart_inner` brings the log in line with
the slot, and what it ends with, if it is not poisoned, satisfies the invariant
of the node again: the log reaches the slot, and what it no longer holds the
slot folds.
-/

namespace Sailing

open List (mem_singleton not_mem_nil)
open StableStore (hardState visible)
open LogStore (visible stagedIds)

variable {I : Type} [LinearOrder I] {M : StateMachine}

/-- What the recovered stores guarantee to a node that has applied the slot. -/
structure Recovers (log : LogStore I) (slot : Option (SnapshotMeta I × Bytes)) : Prop where
  base : log.visible.base ≤ boundary slot
  last : boundary slot ≤ log.lastIndex
  kept : ∀ i ≤ log.lastIndex, i ≤ boundary slot ∨ ∀ d ∈ log.images, d.get i = log.visible.get i

namespace Endpoint

variable {mono : Prop} {now : Instant} {s s' : Endpoint I M}

/-! ## The log and the slot -/

theorem next_le_succ (n : Nat) : next n ≤ n + 1 := by
  unfold next
  split <;> lia

variable {log log' : LogStore I} {slot : Option (SnapshotMeta I × Bytes)}
    {snap : Option (SnapshotMeta I)} {commit applied : Index} {bad : Option PoisonReason}
    {config : Config I} {rng : Nat → Nat} {fsm : M.State} {bootEpoch : Nat} {tracker : Tracker I}
    {inp : Input I} {prior : Option Duration}

omit [LinearOrder I] in
theorem visible_of_nil (hs : log.staged = []) : log.visible = log.durable := by
  simp [LogStore.visible, hs]

omit [LinearOrder I] in
theorem images_of_nil (hs : log.staged = []) : log.images = [log.durable] := by
  simp [LogStore.images, hs]

omit [LinearOrder I] in
theorem boundary_eq {n : Index} {t : Term}
    (h : (slot.map Prod.fst).map (fun m => (m.lastIndex, m.lastTerm)) = some (n, t)) : boundary slot = n := by
  cases slot with
  | none => cases h
  | some => exact congrArg Prod.fst (Option.some.inj h)

/-- What is done to the log at restart, unless it is refused. -/
theorem reconcileRestartLog_cases {snap : Option (Index × Term)} {committed first last : Index}
    {bt : Option (Option Term)} {a : RestartLogAction}
    (h : reconcileRestartLog snap committed first last bt = a) :
    (∃ reason, a = .poison reason) ∨ (snap = none ∧ first ≤ 1 ∧ a = .none) ∨
      (∃ n t, snap = some (n, t) ∧ first ≤ next n ∧
        (a = .restore n t ∧ (last < n ∨ committed < n) ∨ n ≤ last ∧ (first = next n ∧ a = .none ∨ first ≠ next n ∧ a = .compact n))) := by
  unfold reconcileRestartLog at h
  split at h
  · exact .inl ⟨_, h.symm⟩
  split at h
  · split at h
    · exact .inl ⟨_, h.symm⟩
    · next hf => exact .inr (.inl ⟨rfl, not_lt.mp hf, h.symm⟩)
  next n t =>
  split at h
  · exact .inl ⟨_, h.symm⟩
  next hf =>
  split at h
  · next hl => exact .inr (.inr ⟨n, t, rfl, not_lt.mp hf, .inl ⟨h.symm, .inl hl⟩⟩)
  next hl =>
  split at h
  · split at h
    · split at h
      · next he =>
        exact .inr (.inr ⟨n, t, rfl, not_lt.mp hf, .inr ⟨not_lt.mp hl, .inl ⟨he, h.symm⟩⟩⟩)
      · next he =>
        exact .inr (.inr ⟨n, t, rfl, not_lt.mp hf, .inr ⟨not_lt.mp hl, .inr ⟨he, h.symm⟩⟩⟩)
    · split at h
      · exact .inl ⟨_, h.symm⟩
      · next hc =>
        exact .inr (.inr ⟨n, t, rfl, not_lt.mp hf, .inl ⟨h.symm, .inr (not_le.mp hc)⟩⟩)
  · exact .inl ⟨_, h.symm⟩

omit [LinearOrder I] in
theorem visible_staged {p : LogImage I × Option LogDone} :
    ({ log with staged := log.staged ++ [p] } : LogStore I).visible = p.1 := by
  simp [LogStore.visible]

omit [LinearOrder I] in
theorem images_staged {p : LogImage I × Option LogDone} {d : LogImage I} (hs : log.staged = [])
    (hd : d ∈ ({ log with staged := log.staged ++ [p] } : LogStore I).images) : d = log.durable ∨ d = p.1 := by
  simpa [LogStore.images, hs] using hd

/-- What the recovery makes of the log: it is kept, cut at the slot, or started anew there. -/
inductive Recovery (log : LogStore I) (slot : Option (SnapshotMeta I × Bytes)) (commit : Index)
    (bad : Option PoisonReason) : LogStore I → Prop where
  | kept (fits : bad = none → log.visible.base ≤ boundary slot ∧ boundary slot ≤ log.lastIndex) :
    Recovery log slot commit bad log
  | cut {n : Index} (at_ : boundary slot = n) (base : log.visible.base < n) (last : n ≤ log.lastIndex) :
    Recovery log slot commit bad
      { log with staged := log.staged ++ [(log.visible.compact n, some (.compacted n))] }
  | anew {n : Index} {t : Term} (at_ : boundary slot = n) (why : log.lastIndex < n ∨ min commit log.lastIndex < n) :
    Recovery log slot commit bad (log.restore n t)

omit [LinearOrder I] in
theorem recoverLog_recovery (h : recoverLog log (slot.map Prod.fst) commit = (bad, log')) :
    Recovery log slot commit bad log' := by
  unfold recoverLog at h
  split at h
  · cases h
    exact .kept fun bad => by cases bad
  simp only at h
  generalize hr : reconcileRestartLog _ _ _ _ _ = action at h
  have hfirst : log.firstIndex = log.visible.base + 1 := rfl
  rcases reconcileRestartLog_cases hr with ⟨reason, rfl⟩ | ⟨hn, hf, rfl⟩ | ⟨n, t, hn, hf, hcase⟩
  · cases h
    exact .kept fun bad => by cases bad
  · have hslot : slot = none := by simpa using hn
    cases h
    subst hslot
    exact .kept fun _ => ⟨Nat.le_of_succ_le_succ hf, Nat.zero_le _⟩
  · have hb := boundary_eq hn
    have hnext := next_le_succ n
    rcases hcase with ⟨rfl, why⟩ | ⟨hl, ⟨_, rfl⟩ | ⟨hne, rfl⟩⟩
    · cases h
      exact .anew hb why
    · cases h
      exact .kept fun _ => by rw [hb]; exact ⟨by lia, hl⟩
    cases h
    have hlt : log.visible.base < n := by lia
    rw [LogStore.compact, if_pos ⟨hlt, hl⟩]
    exact .cut hb hlt hl

omit [LinearOrder I] in
/-- The log recovery leaves the completions alone and reads nothing into the log, which starts
where it did or at the slot. -/
theorem Recovery.frame (hs : log.staged = []) (hc : log.durable.Contiguous) (h : Recovery log slot commit bad log') :
    log'.doneIds = log.doneIds ∧ log'.stagedIds = [] ∧ ∀ d ∈ log'.images, d.Contiguous ∧
      (∀ e ∈ d.entries, e ∈ log.durable.entries) ∧ (d.base = log.durable.base ∨ d.base = boundary slot) := by
  have durable : log.durable.Contiguous ∧ (∀ e ∈ log.durable.entries, e ∈ log.durable.entries) ∧
      (log.durable.base = log.durable.base ∨ log.durable.base = boundary slot) := ⟨hc, fun _ he => he, .inl rfl⟩
  cases h with
  | kept =>
    refine ⟨rfl, by simp [stagedIds, hs], fun d hd => ?_⟩
    rw [images_of_nil hs, mem_singleton] at hd
    rwa [hd]
  | cut at_ base =>
    refine ⟨rfl, by simp [stagedIds, hs, LogDone.id?], fun d hd => ?_⟩
    rw [visible_of_nil hs] at base hd
    rcases images_staged hs hd with rfl | rfl
    · exact durable
    · exact ⟨hc.compact base.le, fun _ he => List.mem_of_mem_drop he, .inr at_.symm⟩
  | anew at_ =>
    refine ⟨rfl, by simp [stagedIds, LogStore.restore, hs], fun d hd => ?_⟩
    rcases images_staged hs hd with rfl | rfl
    · exact durable
    · exact ⟨LogImage.contiguous_nil _ _, fun e he => absurd he not_mem_nil, .inr at_.symm⟩

omit [LinearOrder I] in
/-- A log that is not refused reaches the slot, and the slot folds what it
lacks. -/
theorem Recovery.recovers (hs : log.staged = []) (h : Recovery log slot commit none log') : Recovers log' slot := by
  cases h with
  | kept fits =>
    refine ⟨(fits rfl).1, (fits rfl).2, fun i _ => .inr fun d hd => ?_⟩
    rw [images_of_nil hs, mem_singleton] at hd
    rw [hd, visible_of_nil hs]
  | @cut n at_ base last =>
    refine ⟨?_, ?_, fun i hi => ?_⟩
    · rw [visible_staged, at_]
      exact le_rfl
    · rw [at_]
      show n ≤ LogImage.lastIndex (visible _)
      rw [visible_staged, LogImage.compact_lastIndex base.le last]
      exact last
    · rw [visible_staged, at_]
      by_cases hin : i ≤ n
      · exact .inl hin
      refine .inr fun d hd => ?_
      rcases images_staged hs hd with rfl | rfl
      · rw [LogImage.get_compact base.le (not_le.mp hin), visible_of_nil hs]
      · rfl
  | @anew n t at_ =>
    have hv : (log.restore n t).visible = ⟨n, t, []⟩ := visible_staged
    refine ⟨?_, ?_, fun i hi => .inl ?_⟩
    · rw [hv, at_]
    · rw [at_]
      show n ≤ (log.restore n t).visible.lastIndex
      rw [hv]
      exact le_rfl
    · have hi : i ≤ (log.restore n t).visible.lastIndex := hi
      rw [hv] at hi
      exact hi.trans at_.ge

/-! ## The recovered node -/

theorem recovered_inv {lease : Option Duration × Option Duration} {stable : StableStore I}
    (ids : ∀ a ∈ log.doneIds, a < OpId.firstOfEpoch bootEpoch) (none_ : log.stagedIds = [])
    (contiguous : ∀ d ∈ log.images, d.Contiguous)
    (sids : ∀ a ∈ stable.doneIds, a < OpId.firstOfEpoch bootEpoch) (snone : stable.staged = [])
    (ok : bad = none → applied = boundary stable.durable.snapshot ∧ Recovers log stable.durable.snapshot) :
    NodeInv mono (recovered config now rng fsm bootEpoch bad applied tracker lease log stable : Endpoint I M) := by
  have hhs : stable.hardState = stable.durable.hardState := by
    simp [StableStore.hardState, StableStore.visible, snone]
  set s : Endpoint I M := recovered config now rng fsm bootEpoch bad applied tracker lease log stable with hs
  have hkept : s.ballots.kept = [stable.durable.ballot] := by
    simp [Ballots.kept, Fifo.images, Endpoint.ballots, Core.ballots, core, hs, recovered, snone]
  have hslots : s.cover.slotImages = [stable.durable.snapshot] := by
    simp [Cover.slotImages, Fifo.images, cover, Core.cover, core, hs, recovered, snone]
  have live : s.poisoned = false → bad = none := fun h => by
    simpa [poisoned, hs, recovered] using h
  refine ⟨⟨?_, ?_⟩, ⟨?_, ?_⟩, fun hl => ?_, fun hl => ?_, fun _ hl => ?_⟩
  · refine ⟨?_, ?_, ?_⟩
    · simp [Endpoint.ballots, Core.ballots, core, hs, recovered, snone]
    · simp [Endpoint.ballots, Core.ballots, core, hs, recovered, snone]
    · simpa [Endpoint.ballots, Core.ballots, core, hs, recovered, snone] using sids
  · rw [hkept]
    exact List.pairwise_singleton _ _
  · have hst : s.cover.stagedIds = [] := none_
    refine ⟨?_, ?_, ?_⟩
    · rw [hst]
      exact List.Pairwise.nil
    · rw [hst]
      simp
    · rw [hst, List.append_nil]
      exact ids
  · exact contiguous
  · -- every image of the store has the ballot the node starts with
    have hcur : s.ballots.current = stable.durable.ballot := by
      simp [Ballots.current, Endpoint.ballots, Core.ballots, core, hs, recovered, hhs, StableImage.ballot]
    refine ⟨fun x hx => ?_, fun p hp => ?_, fun hr => ?_, fun hr => ?_, fun x hx => ?_, fun x hx => ?_⟩
    · rw [hkept, mem_singleton] at hx
      rw [hx, hcur]
      exact Voting.Le.refl _
    · exact absurd hp (by simp [Endpoint.ballots, Core.ballots, core, hs, recovered])
    · exact absurd hr (by simp [Endpoint.ballots, Core.ballots, core, hs, recovered])
    · exact absurd hr (by simp [Endpoint.ballots, Core.ballots, core, hs, recovered])
    · rw [hkept, mem_singleton] at hx
      rw [hx]
      show stable.hardState.term ≤ stable.durable.hardState.term
      rw [hhs]
    · have hx := Fifo.since_subset_images hx
      have hx : x ∈ s.ballots.kept := hx
      rw [hkept, mem_singleton] at hx
      rw [hx]
      show stable.hardState.term ≤ stable.durable.hardState.term
      rw [hhs]
  · obtain ⟨rfl, hr⟩ := ok (live hl)
    exact {
      base_applied := hr.base
      applied_commit := le_max_right _ _
      commit_last := max_le (min_le_right _ _) hr.last
      dur_last := le_rfl
      dsi_commit := Nat.zero_le _
      base_watermark := (hr.base.trans hr.last).trans (le_max_left _ _)
      inflight_last := fun p hp => absurd hp not_mem_nil
      inflight_minted := fun p hp => absurd hp not_mem_nil
      inflight_ordered := List.Pairwise.nil
      own := fun _ _ _ hp => absurd hp not_mem_nil
      acks := fun a ha => absurd ha not_mem_nil
      gates := fun g hg => absurd hg not_mem_nil
      compacting := fun _ _ h => absurd (show none = some _ from h) (by simp)
      installing := fun _ _ h => absurd (show none = some _ from h) (by simp) }
  · obtain ⟨rfl, hr⟩ := ok (live hl)
    have covers : ∀ n ≤ boundary stable.durable.snapshot, s.cover.SlotCovers n := fun n hn x hx => by
      rw [hslots, mem_singleton] at hx
      rw [hx]
      exact hn
    refine ⟨?_, covers _ hr.base, covers 0 (Nat.zero_le _), fun i hi => ?_,
      fun p hp => absurd hp not_mem_nil, fun _ _ h => absurd (show none = some _ from h) (by simp)⟩
    · rw [hslots]
      exact List.pairwise_singleton _ _
    · rcases hr.kept i hi with hk | hk
      · exact .inl ⟨covers i hk, hk.trans (le_max_right _ _)⟩
      · exact .inr hk

/-! ## Replay -/

theorem Ran.replay (fuel : Nat) (hc : s.log.visible.Contiguous) : Ran mono now inp s (Endpoint.replay fuel s) := by
  induction fuel generalizing s with
  | zero => exact Ran.refl s
  | succ fuel ih =>
    unfold Endpoint.replay
    have h₁ : Ran mono now inp s s.applyCommitted.2 := Ran.applyCommitted hc
    split
    · next s₁ h =>
      rw [h] at h₁
      exact h₁.trans (ih (by rw [h₁.keeps.log]; exact hc))
    next h =>
    rw [h] at h₁
    exact h₁

theorem steps_persistLeaseFloor (same : s.stable.hardState = s.stable.visible.hardState) :
    Steps mono now inp s s.persistLeaseFloor := by
  unfold persistLeaseFloor
  split
  · next h =>
    by_cases mint : s.Mintable
    · have st : Step mono now inp s _ := .rewrite h.1 mint same
      rw [mintOpId_eq mint] at st ⊢
      exact .single st
    rw [mintOpId_spent mint]
    refine .single ?_
    unfold submitWrite
    simp only [poisoned_poison, if_true]
    exact .die _
  · exact .refl

/-- The booted node, up to the events the replay reported. -/
theorem steps_boot (inv : NodeInv mono s) (role : s.role = .follower) (deadline : s.electionDeadline = none)
    (same : s.stable.hardState = s.stable.visible.hardState) :
    ∃ s', Steps mono now inp s s' ∧ s.boot now = { s' with events := [] } := by
  unfold boot
  extract_lets s₁
  have h₁ : Ran mono now inp s s₁ := by
    unfold s₁
    split
    · exact Ran.refl s
    · exact Ran.replay _ inv.contiguous
  clear_value s₁
  have same₁ : s₁.stable.hardState = s₁.stable.visible.hardState := by
    rw [h₁.keeps.stable]
    exact same
  have h₂ : Steps mono now inp s₁ s₁.persistLeaseFloor := steps_persistLeaseFloor same₁
  have role₂ : s₁.persistLeaseFloor.role = .follower ∧ s₁.persistLeaseFloor.electionDeadline = none := by
    have hr := h₁.keeps.role_follower role
    have hd := (h₁.keeps.follower role).2.trans deadline
    unfold persistLeaseFloor mintOpId submitWrite
    split
    · simp only
      split <;> split <;> exact ⟨hr, hd⟩
    · exact ⟨hr, hd⟩
  refine ⟨s₁.persistLeaseFloor.armElectionTimer now, ?_, rfl⟩
  refine (h₁.steps.trans h₂).tail ?_
  by_cases live : s₁.persistLeaseFloor.poisoned = false
  · exact .arm live (by rw [role₂.1]; simp) role₂.2
  · exact .junk ((Bool.not_eq_false _).mp live :) rfl rfl rfl rfl (List.Sublist.refl _)
      (fun hr => ⟨hr, rfl⟩) rfl fun _ => rfl

theorem NodeInv.events (h : NodeInv mono s) (events : List (Event I M.Response)) :
    NodeInv mono { s with events := events } :=
  h.waiting rfl rfl (fun _ h => h) rfl rfl (fun _ h => h) fun _ h => h

/-! ## The crash -/

omit [LinearOrder I] in
theorem Recovery.held (hs : log.staged = []) (h : Recovery log slot commit bad log') {i : Index} (hi : i ≤ commit)
    (held : i ≤ boundary slot ∨ ∃ e, log.durable.get i = some e) :
    i ≤ boundary slot ∨ ∃ e, ∀ d ∈ log'.images, d.get i = some e := by
  rcases held with hb | ⟨e, he⟩
  · exact .inl hb
  by_cases hslot : i ≤ boundary slot
  · exact .inl hslot
  refine .inr ⟨e, fun d hd => ?_⟩
  cases h with
  | kept =>
    rw [images_of_nil hs, mem_singleton] at hd
    rw [hd, he]
  | cut at_ base =>
    rcases images_staged hs hd with rfl | rfl
    · exact he
    · rw [LogImage.get_compact base.le (by rw [← at_]; exact not_le.mp hslot), visible_of_nil hs]
      exact he
  | anew at_ why =>
    -- the log is only given up where the commit index does not need it
    have hrange := (LogImage.isSome_get.mp (Option.isSome_of_eq_some he)).2
    rw [show log.lastIndex = log.durable.lastIndex from congrArg LogImage.lastIndex (visible_of_nil hs)] at why
    rcases why with hw | hw <;> lia

/-- Where the recovered log ends: where the durable one did, or at the slot if
that is all the commit index asks for. -/
def RecoveredLast (durable last slot commit : Index) : Prop :=
  last = durable ∧ slot ≤ last ∨ last = slot ∧ (durable < slot ∨ min commit durable < slot)

/-- The lease floor of a restart is no lower than the recorded one, and what it
fences. -/
theorem reconcileDurable_floor {recorded : LeaseSupport} {enforcing : Bool} {timeout : Duration}
    {floor fence : Option Duration}
    (h : reconcileDurable recorded enforcing timeout prior = some (floor, fence)) :
    rank recorded.promised ≤ rank floor ∧ fence = floor.filter (· ≠ 0) := by
  unfold reconcileDurable at h
  simp only [Option.map_eq_some_iff, Prod.mk.injEq] at h
  obtain ⟨d, hd, rfl, rfl⟩ := h
  refine ⟨?_, rfl⟩
  cases recorded with
  | unrecorded => exact Nat.zero_le _
  | recorded =>
    simp only [Option.some.injEq] at hd
    rw [← hd, rank_optMax]
    exact le_max_left _ _

/-- The initial state, or what a snapshot made of it. -/
def Fresh (st : M.State) : Prop := st = M.init ∨ ∃ snap, M.restore M.init snap = some st

/-- What restart makes of the durable images, before the replay. -/
structure RecoveredFrom (c : Config I) (now : Instant) (s r : Endpoint I M) (bootEpoch : Nat) :
    Prop where
  config : r.config = c
  role : r.role = .follower
  deadline : r.electionDeadline = none
  outgoing : r.outgoing = []
  stable : r.stable = { s.stable with staged := [], staging := none }
  term : r.term = s.stable.durable.hardState.term
  votedFor : r.votedFor = s.stable.durable.hardState.vote
  nextOpId : r.nextOpId = OpId.firstOfEpoch bootEpoch
  install : r.snapshot.pendingInstall = none
  farewells : r.pendingFarewells = []
  entries : ∀ d ∈ r.log.images, ∀ e ∈ d.entries, e ∈ s.log.durable.entries
  conf : r.poisoned = false → r.tracker.confState =
    (s.stable.durable.snapshot.map (·.1.conf)).getD (ConfState.fromVoters c.voters)
  tracker : r.poisoned = false → r.tracker.Fresh
  applied : r.poisoned = false → r.applied = boundary s.stable.durable.snapshot
  running : r.pendingApply = none
  pending : r.pendingStable = []
  durableLease : r.durable.durableLeaseSupport = s.stable.durable.hardState.leaseSupport.promised
  lastLease : r.durable.lastSubmittedLeaseSupport = s.stable.durable.hardState.leaseSupport.promised
  floor : r.poisoned = false →
    rank s.stable.durable.hardState.leaseSupport.promised ≤ rank r.durable.leaseSupportFloor
  fence : r.poisoned = false → ∀ d, 0 < d →
    d < rank s.stable.durable.hardState.leaseSupport.promised →
    ∃ f, r.durable.leaseVoteFenceUntil = some f ∧ now + d ≤ f
  last : r.poisoned = false → RecoveredLast s.log.durable.lastIndex r.log.lastIndex
    (boundary s.stable.durable.snapshot) s.stable.durable.hardState.commit
  held : ∀ i ≤ s.stable.durable.hardState.commit,
    (i ≤ boundary s.stable.durable.snapshot ∨ ∃ e, s.log.durable.get i = some e) →
    i ≤ boundary s.stable.durable.snapshot ∨ ∃ e, ∀ d ∈ r.log.images, d.get i = some e
  index : r.durable.durableIndex = r.log.lastIndex
  commit : r.poisoned = false → min s.stable.durable.hardState.commit r.log.lastIndex ≤ r.commit
  bases : ∀ d ∈ r.log.images, d.base = s.log.durable.base ∨
    d.base = boundary s.stable.durable.snapshot
  founding : r.poisoned = false →
    r.durable.foundingGen = s.stable.durable.hardState.foundingGen
  fsm : Fresh r.fsm
  events : r.events = []

omit [LinearOrder I] in
theorem recovered_recoveredFrom {lease : Option Duration × Option Duration}
    (entries : ∀ d ∈ log.images, ∀ e ∈ d.entries, e ∈ s.log.durable.entries)
    (image : bad = none → tracker.confState =
      (s.stable.durable.snapshot.map (·.1.conf)).getD (ConfState.fromVoters config.voters) ∧
        tracker.Fresh ∧ applied = boundary s.stable.durable.snapshot)
    (floors : bad = none → rank s.stable.durable.hardState.leaseSupport.promised ≤ rank lease.1 ∧
        lease.2 = lease.1.filter (· ≠ 0))
    (last : bad = none → RecoveredLast s.log.durable.lastIndex log.lastIndex
      (boundary s.stable.durable.snapshot) s.stable.durable.hardState.commit)
    (held : ∀ i ≤ s.stable.durable.hardState.commit,
      (i ≤ boundary s.stable.durable.snapshot ∨ ∃ e, s.log.durable.get i = some e) →
      i ≤ boundary s.stable.durable.snapshot ∨ ∃ e, ∀ d ∈ log.images, d.get i = some e)
    (bases : ∀ d ∈ log.images, d.base = s.log.durable.base ∨
      d.base = boundary s.stable.durable.snapshot) (fresh : Fresh fsm) :
    RecoveredFrom config now s (recovered config now rng fsm bootEpoch bad applied tracker lease log
      s.stable.crash.discardSnapshotStaging) bootEpoch := by
  have hv : s.stable.crash.discardSnapshotStaging.hardState = s.stable.durable.hardState := by
    unfold hardState
    split <;> rfl
  have live : (recovered config now rng fsm bootEpoch bad applied tracker lease log
      s.stable.crash.discardSnapshotStaging : Endpoint I M).poisoned = false → bad = none := fun hl => by
    simpa [poisoned, recovered] using hl
  refine ⟨rfl, rfl, rfl, rfl, rfl, congrArg HardState.term hv, congrArg HardState.vote hv, rfl, rfl, rfl,
    entries, fun hl => (image (live hl)).1, fun hl => (image (live hl)).2.1, fun hl => (image (live hl)).2.2,
    rfl, rfl, congrArg (·.leaseSupport.promised) hv,
    congrArg (·.leaseSupport.promised) hv, fun hl => (floors (live hl)).1, fun hl d hd hlt => ?_,
    fun hl => last (live hl), held, rfl, fun _ => ?_, bases, fun hl => ?_, fresh, rfl⟩
  · obtain ⟨hle, hf⟩ := floors (live hl)
    show ∃ f, lease.2.map (now + ·) = some f ∧ now + d ≤ f
    obtain ⟨e, he⟩ : ∃ e, lease.1 = some e := by
      cases h : lease.1 with
      | none =>
        rw [h] at hle
        exact absurd (hlt.trans_le hle) (by simp [rank])
      | some e => exact ⟨e, rfl⟩
    have hde : d ≤ e := by
      rw [he] at hle
      exact Nat.le_of_lt_succ (hlt.trans_le hle)
    have hne : e ≠ 0 := (hd.trans_le hde).ne'
    refine ⟨now + e, ?_, Nat.add_le_add_left hde now⟩
    rw [hf, he]
    simp [hne]
  · show _ ≤ max (min s.stable.crash.discardSnapshotStaging.hardState.commit log.lastIndex) applied
    rw [hv]
    exact le_max_left _ _
  · show (if bad.isSome then 0 else s.stable.crash.discardSnapshotStaging.hardState.foundingGen) = _
    rw [live hl, hv]
    rfl

/-- A usable slot gives its boundary and its configuration. -/
theorem recoverSnapshot_ok (h : recoverSnapshot config M.init slot = .ok (fsm, applied, tracker)) :
    applied = boundary slot ∧ tracker.confState = (slot.map (·.1.conf)).getD (ConfState.fromVoters config.voters) ∧
      tracker.Fresh ∧ Fresh fsm := by
  unfold recoverSnapshot at h
  split at h
  · cases h
    exact ⟨rfl, rfl, Tracker.fresh_fromConfState _ _ _ _, .inl rfl⟩
  split at h
  · cases h
  split at h
  · cases h
  split at h
  · cases h
  next snap _ =>
  split at h
  · cases h
  next hr =>
  cases h
  exact ⟨rfl, rfl, Tracker.fresh_fromConfState _ _ _ _, .inr ⟨snap, hr⟩⟩

omit [LinearOrder I] in
/-- A log that is not refused ends where it did, or at the slot. -/
theorem Recovery.last (hs : log.staged = []) (h : Recovery log slot commit none log') :
    RecoveredLast log.durable.lastIndex log'.lastIndex (boundary slot) commit := by
  have reached := (h.recovers hs).last
  have hd : log.lastIndex = log.durable.lastIndex := congrArg LogImage.lastIndex (visible_of_nil hs)
  cases h with
  | kept => exact .inl ⟨hd, reached⟩
  | cut at_ base last =>
    refine .inl ⟨?_, reached⟩
    rw [← hd]
    show LogImage.lastIndex (visible _) = log.visible.lastIndex
    rw [visible_staged]
    exact LogImage.compact_lastIndex base.le last
  | @anew n t at_ why =>
    rw [hd, ← at_] at why
    refine .inr ⟨?_, why⟩
    rw [at_]
    show (log.restore n t).visible.lastIndex = n
    rw [show (log.restore n t).visible = ⟨n, t, []⟩ from visible_staged]
    rfl

/-- A restart over what a crash leaves boots a recovered node, at the boundary of its snapshot. -/
theorem exists_restored (now : Instant) (h : NodeInv mono s) (config : Config I)
    (later : s.nextOpId.epoch < bootEpoch) :
    ∃ r : Endpoint I M, restart config now rng M.init bootEpoch prior s.log.crash s.stable.crash = r.boot now ∧
      NodeInv mono r ∧ RecoveredFrom config now s r bootEpoch := by
  have minted : ∀ a, a < s.nextOpId → a < OpId.firstOfEpoch bootEpoch := fun a ha =>
    OpId.lt_trans ha (OpId.lt_firstOfEpoch later)
  have lids : ∀ a ∈ s.log.crash.doneIds, a < OpId.firstOfEpoch bootEpoch := fun a ha =>
    minted a (h.log.ids.minted a (List.mem_append_left _ ha))
  have sids : ∀ a ∈ s.stable.crash.discardSnapshotStaging.doneIds, a < OpId.firstOfEpoch bootEpoch := fun a ha =>
    minted a (h.ballots.ids.minted a (List.mem_append_left _ ha))
  have hsnap : s.stable.crash.discardSnapshotStaging.snapshot = s.stable.durable.snapshot := by
    simp [StableStore.snapshot, StableStore.crash, StableStore.discardSnapshotStaging, StableStore.visible]
  have hcont : s.log.crash.durable.Contiguous := h.log.contiguous _ List.mem_cons_self
  have hnil : s.log.crash.staged = [] := rfl
  unfold restart
  extract_lets stable seed lease
  have himg : ∀ d ∈ s.log.crash.images, d = s.log.durable := fun d hd => by
    rwa [images_of_nil hnil, mem_singleton] at hd
  -- a node that is refused before its log is looked at
  have refused : ∀ (reason : PoisonReason) (fsm : M.State) (applied : Index) (tracker : Tracker I),
      Fresh fsm → NodeInv mono (recovered config now rng fsm bootEpoch (some reason) applied tracker
        (lease.getD (none, none)) s.log.crash stable : Endpoint I M) ∧
      RecoveredFrom config now s (recovered config now rng fsm bootEpoch (some reason) applied tracker
        (lease.getD (none, none)) s.log.crash stable) bootEpoch := fun reason fsm applied tracker fresh =>
    ⟨recovered_inv lids rfl (fun d hd => himg d hd ▸ hcont) sids rfl (by simp),
      recovered_recoveredFrom (fun d hd e he => himg d hd ▸ he) (by simp) (by simp) (by simp)
        (fun i _ h => h.imp_right (Exists.imp fun e he d hd => himg d hd ▸ he))
        (fun d hd => .inl (himg d hd ▸ rfl)) fresh⟩
  split
  · exact ⟨_, rfl, refused _ _ _ _ (.inl rfl)⟩
  next fsm applied tracker hrec =>
  have hslot : stable.snapshot = s.stable.durable.snapshot := hsnap
  rw [hslot] at hrec
  obtain ⟨happ, hconf, htracker, fresh⟩ := recoverSnapshot_ok hrec
  split
  · exact ⟨_, rfl, refused _ _ _ _ fresh⟩
  cases hlog : recoverLog s.log.crash (stable.snapshot.map Prod.fst) stable.hardState.commit with
  | mk bad log =>
    simp only
    -- whatever else may go wrong, the log was not refused and the lease is known
    have hgood : ∀ {bad' : Option PoisonReason},
        ((bad <|> (if lease.isNone then some .legacyLeaseUnrecoverable else none)) <|> bad') = none →
        bad = none ∧ ∃ l, lease = some l := fun {bad'} hbad => by
      cases bad with
      | some => exact absurd hbad (by simp)
      | none =>
        cases hl : lease with
        | none =>
          rw [hl] at hbad
          cases hbad
        | some l => exact ⟨rfl, l, rfl⟩
    have hv : stable.hardState = s.stable.durable.hardState := by
      unfold hardState
      split <;> rfl
    rw [hslot, hv] at hlog
    have recovery := recoverLog_recovery hlog
    obtain ⟨hd, hst, images⟩ := recovery.frame hnil hcont
    refine ⟨_, rfl, recovered_inv (hd ▸ lids) hst (fun d hd => (images d hd).1) sids rfl fun hbad => ⟨happ, ?_⟩,
      recovered_recoveredFrom (fun d hd => (images d hd).2.1) (fun _ => ⟨hconf, htracker, happ⟩) (fun hbad => ?_) (fun hbad => ?_)
        (fun i hi h => recovery.held hnil hi h) (fun d hd => (images d hd).2.2) fresh⟩
    · rw [(hgood hbad).1] at recovery
      exact recovery.recovers hnil
    · obtain ⟨⟨floor, fence⟩, hl⟩ := (hgood hbad).2
      rw [hl]
      have hf := reconcileDurable_floor hl
      rw [hv] at hf
      exact hf
    · rw [(hgood hbad).1] at recovery
      have hlast : RecoveredLast s.log.crash.durable.lastIndex _ _ _ := recovery.last hnil
      exact hlast

omit [LinearOrder I] in
theorem RecoveredFrom.same {r : Endpoint I M} (h : RecoveredFrom config now s r bootEpoch) :
    r.stable.hardState = r.stable.visible.hardState := by
  rw [h.stable]
  unfold hardState
  split <;> rfl

omit [LinearOrder I] in
theorem RecoveredFrom.submitted {r : Endpoint I M} (h : RecoveredFrom config now s r bootEpoch) : r.Submitted := by
  intro _
  rw [h.stable, h.term]
  simp [StableStore.visible]

/-- A restart is one over recovered stores, and what the boot does there. -/
theorem exists_booted (now : Instant) (h : NodeInv mono s) (config : Config I) (later : s.nextOpId.epoch < bootEpoch) :
    ∃ r s' : Endpoint I M, NodeInv mono r ∧ RecoveredFrom config now s r bootEpoch ∧ Steps mono now .quiet r s' ∧
      restart config now rng M.init bootEpoch prior s.log.crash s.stable.crash = { s' with events := [] } := by
  obtain ⟨r, hr, inv, from_⟩ := exists_restored now h config later
  have hboot : ∃ s', Steps mono now .quiet r s' ∧ r.boot now = { s' with events := [] } :=
    steps_boot inv from_.role from_.deadline from_.same
  obtain ⟨s', st, hb⟩ := hboot
  exact ⟨r, s', inv, from_, st, hr.trans hb⟩

theorem exists_recovered (now : Instant) (h : NodeInv mono s) (later : s.nextOpId.epoch < bootEpoch) :
    ∃ r s' : Endpoint I M, NodeInv mono r ∧ RecoveredFrom s.config now s r bootEpoch ∧
      Steps mono now .quiet r s' ∧ s.crash now rng bootEpoch prior = { s' with events := [] } :=
  exists_booted now h s.config later

theorem NodeInv.crash (h : NodeInv mono s) (later : s.nextOpId.epoch < bootEpoch) :
    NodeInv mono (s.crash now rng bootEpoch prior) ∧ (s.crash now rng bootEpoch prior).Submitted := by
  obtain ⟨r, s', inv, from_, st, hb⟩ := exists_recovered now h later
  rw [hb]
  exact ⟨(Steps.inv st inv).events [], (Steps.stableKept st).submitted id from_.submitted⟩

end Endpoint

end Sailing
