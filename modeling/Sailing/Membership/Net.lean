import Sailing.Membership.Changes

/-!
# A joint change is its net change

What a list of changes means is a fold over two sets, the voters and the learners
(`Roles`). The changer keeps a third one: a voter of the outgoing half that is demoted
is only staged until the joint configuration is left. Counting the staged members as
learners, every change of the tracker is the change of its roles (`roles_applyOne`), so
entering and leaving gives the roles that the changes alone would give.
-/

namespace Sailing

variable {I : Type} [LinearOrder I]

/-- Who votes and who only listens. -/
structure Roles (I : Type) where
  voters : Finset I
  learners : Finset I

namespace Roles

def change (r : Roles I) (cc : ConfChangeSingle I) : Roles I :=
  match cc.ty with
  | .addNode => ⟨insert cc.node r.voters, r.learners.erase cc.node⟩
  | .removeNode => ⟨r.voters.erase cc.node, r.learners.erase cc.node⟩
  | .addLearnerNode => ⟨r.voters.erase cc.node, insert cc.node r.learners⟩

/-- The roles of `id` in two configurations are the same. -/
def Agree (id : I) (r r' : Roles I) : Prop :=
  (id ∈ r.voters ↔ id ∈ r'.voters) ∧ (id ∈ r.learners ↔ id ∈ r'.learners)

theorem change_of_ne {cc : ConfChangeSingle I} {id : I} (ne : cc.node ≠ id) (r : Roles I) :
    Agree id (r.change cc) r := by
  unfold change
  cases cc.ty <;> simp [Agree, ne.symm]

theorem foldl_change_of_ne {changes : List (ConfChangeSingle I)} {id : I}
    (others : ∀ cc ∈ changes, cc.node ≠ id) (r : Roles I) : Agree id (changes.foldl change r) r := by
  induction changes generalizing r with
  | nil => exact ⟨Iff.rfl, Iff.rfl⟩
  | cons cc rest ih =>
    have first := change_of_ne (others cc List.mem_cons_self) r
    have later := ih (fun d hd => others d (List.mem_cons_of_mem _ hd)) (r.change cc)
    exact ⟨later.1.trans first.1, later.2.trans first.2⟩

theorem foldl_change_last (before : List (ConfChangeSingle I)) {after : List (ConfChangeSingle I)}
    {cc : ConfChangeSingle I} (last : ∀ d ∈ after, d.node ≠ cc.node) (r : Roles I) :
    Agree cc.node ((before ++ cc :: after).foldl change r) ((before.foldl change r).change cc) := by
  rw [List.foldl_append, List.foldl_cons]
  exact foldl_change_of_ne last _

end Roles

namespace Tracker

/-- The roles once no configuration is joint any more: the staged are learners. -/
def roles (t : Tracker I) : Roles I := ⟨t.voters.incoming.ids, t.learners ∪ t.learnersNext⟩

theorem roles_of_simple {t : Tracker I} (h : t.learnersNext = ∅) : t.roles = ⟨t.voters.incoming.ids, t.learners⟩ := by
  rw [roles, h, Finset.union_empty]

/-- A progress is kept for as long as `id` votes in the outgoing half or is not removed. -/
def Stays (t : Tracker I) (id : I) (cc : ConfChangeSingle I) : Prop :=
  id ∈ t.voters.outgoing.ids ∨ (cc.ty = .removeNode → cc.node ≠ id)

end Tracker

namespace Changer

variable (c : Changer)

open Tracker

/-! ## One change -/

section Roles

variable {t : Tracker I} (h : t.Members)

include h

theorem roles_makeVoter (id : I) : (c.makeVoter t id).roles = t.roles.change ⟨.addNode, id⟩ := by
  unfold makeVoter
  split
  · next new =>
    have out := h.untracked new
    simp only [mem_ids, not_or] at out
    have absent : id ∉ t.learners ∪ t.learnersNext := by simp [out]
    simp only [initProgress, Bool.false_eq_true, if_false, roles, Roles.change]
    rw [Finset.erase_eq_of_notMem absent]
  · simp only [roles, Roles.change]
    rw [Finset.erase_union_distrib]

theorem roles_remove (id : I) : (c.remove t id).roles = t.roles.change ⟨.removeNode, id⟩ := by
  unfold remove
  split
  · next new =>
    have out := h.untracked new
    simp only [mem_ids, not_or] at out
    have absent : id ∉ t.learners ∪ t.learnersNext := by simp [out]
    simp only [roles, Roles.change]
    rw [Finset.erase_eq_of_notMem absent, Finset.erase_eq_of_notMem out.1]
  · simp only [roles, Roles.change]
    rw [Finset.erase_union_distrib]

/-- A demoted member ends among the learners, staged or not. -/
theorem roles_makeLearner (id : I) : (c.makeLearner t id).roles = t.roles.change ⟨.addLearnerNode, id⟩ := by
  cases old : t.progress id with
  | none =>
    have out := h.untracked (Option.isNone_iff_eq_none.mpr old)
    simp only [mem_ids, not_or] at out
    simp only [makeLearner, old, initProgress, if_true, roles, Roles.change]
    rw [Finset.erase_eq_of_notMem out.1, Finset.insert_union]
  | some =>
    by_cases idle : id ∈ t.learners ∧ id ∉ t.voters.incoming.ids
    · have same : c.makeLearner t id = t := by simp [makeLearner, old, idle]
      have already : id ∈ t.learners ∪ t.learnersNext := Finset.mem_union_left _ idle.1
      simp only [same, roles, Roles.change]
      rw [Finset.erase_eq_of_notMem idle.2, Finset.insert_eq_of_mem already]
    · rw [c.makeLearner_of_member old idle]
      simp only [roles, Roles.change, Roles.mk.injEq, true_and]
      split <;> ext v <;> simp only [Finset.mem_union, Finset.mem_insert, Finset.mem_erase] <;> tauto

theorem roles_applyOne (cc : ConfChangeSingle I) : (c.applyOne t cc).roles = t.roles.change cc := by
  obtain ⟨ty, id⟩ := cc
  cases ty
  · exact c.roles_makeVoter h id
  · exact c.roles_remove h id
  · exact c.roles_makeLearner h id

end Roles

variable {t : Tracker I} {changes : List (ConfChangeSingle I)}

theorem progress_initProgress {id v : I} (ne : v ≠ id) (isLearner : Bool) :
    (c.initProgress t id isLearner).progress v = t.progress v := by
  unfold initProgress
  cases isLearner <;> simp [ne]

/-- A tracked member that stays keeps its progress as it is. -/
theorem progress_applyOne {id : I} {pr : Progress} {cc : ConfChangeSingle I}
    (tracked : t.progress id = some pr) (stays : t.Stays id cc) : (c.applyOne t cc).progress id = some pr := by
  obtain ⟨ty, v⟩ := cc
  have other : ∀ isLearner, t.progress v = none → (c.initProgress t v isLearner).progress id = some pr := by
    intro isLearner new
    have ne : id ≠ v := by
      rintro rfl
      rw [tracked] at new
      contradiction
    rw [c.progress_initProgress ne, tracked]
  cases ty with
  | addNode =>
    simp only [applyOne, makeVoter]
    split
    · next new => exact other false (Option.isNone_iff_eq_none.mp new)
    · exact tracked
  | removeNode =>
    simp only [applyOne, remove]
    split
    · exact tracked
    by_cases out : v ∈ t.voters.outgoing.ids
    · simp only [if_pos out]
      exact tracked
    have ne : id ≠ v := by
      rintro rfl
      exact (stays.resolve_left out) rfl rfl
    simp only [if_neg out, Function.update_of_ne ne]
    exact tracked
  | addLearnerNode =>
    simp only [applyOne]
    cases old : t.progress v with
    | none =>
      simp only [makeLearner, old]
      exact other true old
    | some =>
      by_cases idle : v ∈ t.learners ∧ v ∉ t.voters.incoming.ids
      · simp only [makeLearner, old, idle, not_false_eq_true, and_self, if_true]
        exact tracked
      · rw [c.makeLearner_of_member old idle]
        exact tracked

/-! ## A list of changes -/

theorem roles_foldl (changes : List (ConfChangeSingle I)) (h : t.Members) :
    (changes.foldl c.applyOne t).roles = changes.foldl Roles.change t.roles := by
  induction changes generalizing t with
  | nil => rfl
  | cons cc rest ih =>
    rw [List.foldl_cons, List.foldl_cons, ih ((c.kept_applyOne t cc).members h), c.roles_applyOne h cc]

theorem progress_foldl {id : I} {pr : Progress}
    (tracked : t.progress id = some pr) (stays : ∀ cc ∈ changes, t.Stays id cc) :
    (changes.foldl c.applyOne t).progress id = some pr := by
  induction changes generalizing t with
  | nil => exact tracked
  | cons cc rest ih =>
    refine ih (c.progress_applyOne tracked (stays cc List.mem_cons_self)) fun d hd => ?_
    -- the outgoing half is the same after the change
    unfold Stays
    rw [(c.kept_applyOne t cc).outgoing]
    exact stays d (List.mem_cons_of_mem _ hd)

theorem apply_eq_foldl {t' : Tracker I} (h : c.apply t changes = .ok t') : t' = changes.foldl c.applyOne t := by
  unfold apply at h
  simp only at h
  split at h
  · contradiction
  · exact (Except.ok.inj h).symm

theorem checkInvariants_eq {t' : Tracker I} (h : c.checkInvariants t = .ok t') : t' = t := by
  unfold checkInvariants at h
  split at h
  · exact (Except.ok.inj h).symm
  · contradiction

theorem checkInvariants_cases (t : Tracker I) :
    c.checkInvariants t = .ok t ∨ c.checkInvariants t = .error .invariantViolation := by
  unfold checkInvariants
  split
  · exact .inl rfl
  · exact .inr rfl

/-! ## The operations -/

theorem simple_eq_ok {s : Tracker I} (h : c.simple t changes = .ok s) :
    s = changes.foldl c.applyOne t ∧ s.learnersNext = ∅ := by
  unfold simple at h
  split at h
  · contradiction
  split at h
  · contradiction
  next t' applied =>
  split at h
  · contradiction
  split at h
  · contradiction
  next staged =>
  rw [c.checkInvariants_eq h]
  exact ⟨c.apply_eq_foldl applied, not_not.mp staged⟩

/-- The voters become the outgoing half; the changes are made to the incoming one. -/
def entered (t : Tracker I) : Tracker I := { t with voters := ⟨t.voters.incoming, ⟨t.voters.incoming.ids⟩⟩ }

theorem enterJoint_eq_ok {j : Tracker I} {autoLeave : Bool} (h : c.enterJoint t autoLeave changes = .ok j) :
    ∃ t', c.apply (entered t) changes = .ok t' ∧ j = { t' with autoLeave := autoLeave } := by
  unfold enterJoint at h
  split at h
  · contradiction
  split at h
  · contradiction
  split at h
  · contradiction
  next t' applied => exact ⟨t', applied, c.checkInvariants_eq h⟩

theorem leaveJoint_eq_ok {r : Tracker I} (h : c.leaveJoint t = .ok r) :
    r.voters = ⟨t.voters.incoming, ⟨∅⟩⟩ ∧ r.learners = t.learners ∪ t.learnersNext ∧ r.learnersNext = ∅ ∧
      ∀ id ∈ r.ids, r.progress id = t.progress id := by
  unfold leaveJoint at h
  split at h
  · obtain rfl := c.checkInvariants_eq h
    refine ⟨rfl, rfl, rfl, fun id hid => if_neg fun gone => gone.2 ?_⟩
    exact hid
  · contradiction

theorem leaveJoint_cases (joint : t.isJoint = true) :
    (∃ r, c.leaveJoint t = .ok r) ∨ c.leaveJoint t = .error .invariantViolation := by
  unfold leaveJoint
  rw [if_pos joint]
  exact (c.checkInvariants_cases _).imp_left fun ok => ⟨_, ok⟩

theorem leaveJoint_of_wellFormed (h : t.WellFormed) (joint : t.isJoint = true) :
    ∃ r, c.leaveJoint t = .ok r ∧ r.WellFormed := by
  obtain ⟨legal, sound⟩ := c.sound_leaveJoint h
  obtain ⟨r, ok⟩ := (c.leaveJoint_cases joint).resolve_right legal
  exact ⟨r, ok, sound r ok⟩

end Changer

/-- Entering with some changes and leaving again gives the voters and learners that the
changes give by themselves. A simple change gives the same ones. Who stays keeps its
progress, and nobody else has one. -/
theorem joint_is_net_change (c c' : Changer) (t j : Tracker I) (autoLeave : Bool)
    (changes : List (ConfChangeSingle I)) (simple : t.isJoint = false) (checked : c.checkInvariants t = .ok t)
    (orphans : ∀ id, (t.progress id).isSome = true → id ∈ t.ids)
    (entering : c.enterJoint t autoLeave changes = .ok j) :
    j.voters.outgoing = t.voters.incoming ∧
    ∃ r, c'.leaveJoint j = .ok r ∧ r.isJoint = false ∧ r.learnersNext = ∅ ∧
      (⟨r.voters.incoming.ids, r.learners⟩ : Roles I) =
        changes.foldl Roles.change ⟨t.voters.incoming.ids, t.learners⟩ ∧
      (∀ before cc after, changes = before ++ cc :: after → (∀ d ∈ after, d.node ≠ cc.node) →
        (cc.ty = .addLearnerNode → cc.node ∈ r.learners ∧ cc.node ∉ r.voters.incoming.ids) ∧
        (cc.ty = .removeNode → cc.node ∉ r.ids)) ∧
      (∀ id ∈ t.ids, id ∈ r.ids →
        (id ∈ t.voters.incoming.ids ∨ ∀ cc ∈ changes, cc.ty = .removeNode → cc.node ≠ id) →
        ∃ pr, t.progress id = some pr ∧ j.progress id = some pr ∧ r.progress id = some pr) ∧
      (∀ id, id ∉ r.ids → r.progress id = none) ∧
      ∀ s, c.simple t changes = .ok s →
        s.voters.incoming = r.voters.incoming ∧ s.learners = r.learners ∧ s.isJoint = false := by
  have outgoing : t.voters.outgoing.ids = ∅ := Tracker.outgoing_of_not_joint (by simp [simple])
  -- a joint configuration is entered from one that has a voter
  obtain ⟨t', applied, hj⟩ := c.enterJoint_eq_ok entering
  obtain ⟨kept, nonempty⟩ := c.apply_eq_ok applied
  have voters : t.voters.incoming.ids.Nonempty := by
    rw [Finset.nonempty_iff_ne_empty]
    intro none
    simp [Changer.enterJoint, simple, none] at entering
  have staged : t.learnersNext = ∅ := by
    refine Finset.eq_empty_of_forall_notMem fun id hid => ?_
    unfold Changer.checkInvariants at checked
    split at checked
    · next h => simpa [outgoing] using h.2.1 id hid
    · contradiction
  have wf : t.WellFormed := Tracker.wellFormed_of_checked checked voters orphans (by simp [staged])
  have members : (Changer.entered t).Members := Changer.members_enter wf.toMembers outgoing
  have hout : j.voters.outgoing = t.voters.incoming := by
    rw [hj]
    exact kept.outgoing
  have wfj : j.WellFormed := (c.sound_enterJoint wf autoLeave changes).2 j entering
  have joint : j.isJoint = true := by
    rw [Tracker.isJoint_iff, hout]
    exact voters
  obtain ⟨r, left, wfr⟩ := c'.leaveJoint_of_wellFormed wfj joint
  obtain ⟨hv, hl, hn, hp⟩ := c'.leaveJoint_eq_ok left
  have rolesT : (Changer.entered t).roles = ⟨t.voters.incoming.ids, t.learners⟩ := Tracker.roles_of_simple staged
  have net : (⟨r.voters.incoming.ids, r.learners⟩ : Roles I) =
      changes.foldl Roles.change ⟨t.voters.incoming.ids, t.learners⟩ := by
    calc (⟨r.voters.incoming.ids, r.learners⟩ : Roles I) = t'.roles := by rw [hv, hl, hj]; rfl
      _ = changes.foldl Roles.change (Changer.entered t).roles := by
        rw [c.apply_eq_foldl applied, c.roles_foldl changes members]
      _ = _ := by rw [rolesT]
  refine ⟨hout, r, left, ?_, hn, net, ?_, ?_, ?_, ?_⟩
  · simp [Tracker.isJoint, hv]
  · intro before cc after split last
    have decides := Roles.foldl_change_last before last ⟨t.voters.incoming.ids, t.learners⟩
    rw [← split, ← net] at decides
    refine ⟨fun demoted => ?_, fun removed => ?_⟩
    · simpa [Roles.Agree, Roles.change, demoted, and_comm] using decides
    · rw [Tracker.mem_ids, hn, hv]
      rw [hv] at decides
      simpa [Roles.Agree, Roles.change, removed] using decides
  · intro id hid remains stays
    obtain ⟨pr, tracked⟩ := Option.isSome_iff_exists.mp ((wf.tracked id).mpr hid)
    have tracked' : (Changer.entered t).progress id = some pr := tracked
    have kept' : j.progress id = some pr := by
      rw [hj, c.apply_eq_foldl applied]
      refine c.progress_foldl tracked' fun cc hcc => ?_
      exact stays.imp_right fun unremoved => unremoved cc hcc
    exact ⟨pr, tracked, kept', by rw [hp id remains, kept']⟩
  · intro id absent
    rw [← Option.not_isSome_iff_eq_none, wfr.tracked]
    exact absent
  · intro s hs
    obtain ⟨folded, unstaged⟩ := c.simple_eq_ok hs
    have direct : (⟨s.voters.incoming.ids, s.learners⟩ : Roles I) = ⟨r.voters.incoming.ids, r.learners⟩ := by
      rw [net, ← Tracker.roles_of_simple staged, ← c.roles_foldl changes wf.toMembers, ← folded,
        Tracker.roles_of_simple unstaged]
    obtain ⟨sameVoters, sameLearners⟩ := Roles.mk.inj direct
    refine ⟨?_, sameLearners, ?_⟩
    · cases hs' : s.voters.incoming
      cases hr' : r.voters.incoming
      simpa [hs', hr'] using sameVoters
    · have same : s.voters.outgoing.ids = ∅ := by
        rw [folded, (c.kept_foldl changes t).outgoing, outgoing]
      simp [Tracker.isJoint, same]

/-- Members 1 and 2 vote, 3 learns. -/
def Tracker.listening : Tracker Nat := .fromConfState ⟨{1, 2}, {3}, ∅, ∅, false⟩ 4 1 0

/-- The learner is promoted, a voter demoted, and a new one comes and goes. -/
def swapping : List (ConfChangeSingle Nat) :=
  [⟨.addNode, 3⟩, ⟨.addNode, 4⟩, ⟨.addLearnerNode, 2⟩, ⟨.removeNode, 4⟩]

theorem joint_is_net_change_swapping : ∃ j r : Tracker Nat,
    (Changer.mk 4 1 0).enterJoint Tracker.listening true swapping = .ok j ∧ j.learnersNext = {2} ∧
      (Changer.mk 4 1 0).leaveJoint j = .ok r ∧ r.voters.incoming.ids = {1, 3} ∧ r.learners = {2} := by
  obtain ⟨j, entering, staged⟩ : ∃ j, (Changer.mk 4 1 0).enterJoint Tracker.listening true swapping = .ok j ∧
      j.learnersNext = {2} := by
    refine ⟨{ swapping.foldl (Changer.mk 4 1 0).applyOne (Changer.entered Tracker.listening) with
      autoLeave := true }, ?_, by decide⟩
    rw [Changer.enterJoint, if_neg (by decide), if_neg (by decide)]
    exact if_pos (by decide)
  have orphans : ∀ id, (Tracker.listening.progress id).isSome = true → id ∈ Tracker.listening.ids := by
    intro id some
    by_contra out
    simp [Tracker.listening, Tracker.fromConfState, Tracker.ids, JointConfig.ids] at some out
    grind
  obtain ⟨-, r, left, -, -, net, -⟩ := joint_is_net_change (Changer.mk 4 1 0) (Changer.mk 4 1 0) Tracker.listening j
    true swapping (by decide) (if_pos (by decide)) orphans entering
  have hv := (congrArg Roles.voters net).trans (by decide : _ = {1, 3})
  have hl := (congrArg Roles.learners net).trans (by decide : _ = {2})
  exact ⟨j, r, entering, staged, left, hv, hl⟩

end Sailing
