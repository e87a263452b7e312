import Sailing.Model.Tape

/-!
# Configuration changes keep the tracker's shape

A tracker keeps a progress for its members and for nobody else, learners apart from
both halves, and staged demotions in the outgoing half alone. Every single change
keeps this, so a list of changes does, and what the changer checks at the end always
holds.
-/

namespace Sailing

variable {I : Type} [LinearOrder I] {M : StateMachine}

namespace Tracker

/-- Who has a progress, and which sets do not meet. -/
structure Members (t : Tracker I) : Prop where
  tracked : ∀ id, (t.progress id).isSome = true ↔ id ∈ t.ids
  learners : ∀ id ∈ t.learners, id ∉ t.voters.outgoing.ids ∧ id ∉ t.voters.incoming.ids
  staged : ∀ id ∈ t.learnersNext, id ∈ t.voters.outgoing.ids ∧ id ∉ t.voters.incoming.ids

/-- Outside a joint configuration nothing leaves it. -/
structure WellFormed (t : Tracker I) : Prop extends t.Members where
  leaves : t.isJoint = true ∨ t.autoLeave = false
  voters : t.voters.incoming.ids.Nonempty

variable {t : Tracker I}

theorem mem_ids {id : I} : id ∈ t.ids ↔ id ∈ t.voters.incoming.ids ∨
    id ∈ t.voters.outgoing.ids ∨ id ∈ t.learners ∨ id ∈ t.learnersNext := by
  simp [ids, JointConfig.ids]

theorem isJoint_iff : t.isJoint = true ↔ t.voters.outgoing.ids.Nonempty := by
  simp [isJoint, Finset.nonempty_iff_ne_empty]

theorem outgoing_of_not_joint (h : ¬ t.isJoint = true) : t.voters.outgoing.ids = ∅ := by
  rwa [isJoint_iff, Finset.not_nonempty_iff_eq_empty] at h

theorem Members.untracked (h : t.Members) {id : I} (none : (t.progress id).isNone = true) : id ∉ t.ids := by
  rw [← h.tracked, Option.not_isSome_iff_eq_none]
  exact Option.isNone_iff_eq_none.mp none

/-- The staged demotions are in the outgoing half, so there are none without one. -/
theorem Members.learnersNext_eq (h : t.Members) (simple : t.voters.outgoing.ids = ∅) : t.learnersNext = ∅ := by
  refine Finset.eq_empty_of_forall_notMem fun id hid => ?_
  have := (h.staged id hid).1
  simp [simple] at this

end Tracker

namespace Changer

variable (c : Changer)

open Tracker

/-! ## One change -/

/-- A change leaves the outgoing half and the leaving mode alone. -/
structure Kept (t t' : Tracker I) : Prop where
  outgoing : t'.voters.outgoing = t.voters.outgoing
  autoLeave : t'.autoLeave = t.autoLeave
  members : t.Members → t'.Members

theorem Kept.refl (t : Tracker I) : Kept t t := ⟨rfl, rfl, id⟩

variable {t : Tracker I}

theorem Kept.trans {t' t'' : Tracker I} (h : Kept t t') (k : Kept t' t'') : Kept t t'' :=
  ⟨k.outgoing.trans h.outgoing, k.autoLeave.trans h.autoLeave, k.members ∘ h.members⟩

theorem kept_initProgress {id : I} (none : (t.progress id).isNone = true) (isLearner : Bool) :
    Kept t (c.initProgress t id isLearner) := by
  unfold initProgress
  refine ⟨by cases isLearner <;> rfl, by cases isLearner <;> rfl, fun h => ?_⟩
  have out := h.untracked none
  obtain ⟨tracked, learners, staged⟩ := h
  simp only [mem_ids] at tracked out
  cases isLearner <;> refine ⟨fun v => ?_, fun v hv => ?_, fun v hv => ?_⟩ <;>
    simp only [mem_ids, if_true, Bool.false_eq_true, if_false] at * <;> grind

theorem kept_makeVoter (t : Tracker I) (id : I) : Kept t (c.makeVoter t id) := by
  unfold makeVoter
  split
  · next new => exact c.kept_initProgress new false
  next old =>
  refine ⟨rfl, rfl, fun h => ?_⟩
  have member := (h.tracked id).mp (by simpa [Option.isSome_iff_ne_none] using old)
  obtain ⟨tracked, learners, staged⟩ := h
  simp only [mem_ids] at tracked member
  refine ⟨fun v => ?_, fun v hv => ?_, fun v hv => ?_⟩ <;> simp only [mem_ids] at * <;> grind

theorem kept_remove (t : Tracker I) (id : I) : Kept t (c.remove t id) := by
  unfold remove
  split
  · exact .refl t
  refine ⟨rfl, rfl, fun h => ?_⟩
  obtain ⟨tracked, learners, staged⟩ := h
  simp only [mem_ids] at tracked
  refine ⟨fun v => ?_, fun v hv => ?_, fun v hv => ?_⟩ <;> simp only [mem_ids] at * <;> grind

/-- The demoted member keeps its progress, whatever became of it in between. -/
theorem makeLearner_of_member {id : I} {saved : Progress} (old : t.progress id = some saved)
    (voter : ¬ (id ∈ t.learners ∧ id ∉ t.voters.incoming.ids)) :
    c.makeLearner t id = { t with
      voters := ⟨⟨t.voters.incoming.ids.erase id⟩, t.voters.outgoing⟩
      learners := if id ∈ t.voters.outgoing.ids then t.learners.erase id else insert id (t.learners.erase id)
      learnersNext := if id ∈ t.voters.outgoing.ids then insert id (t.learnersNext.erase id)
        else t.learnersNext.erase id } := by
  have restored : Function.update t.progress id (some saved) = t.progress := Function.update_eq_self_iff.mpr old.symm
  simp only [makeLearner, old, remove, Option.isNone_some, Bool.false_eq_true, if_false, voter]
  by_cases out : id ∈ t.voters.outgoing.ids
  · simp [out, old]
  · simp [out, restored]

theorem kept_makeLearner (t : Tracker I) (id : I) : Kept t (c.makeLearner t id) := by
  cases old : t.progress id with
  | none =>
    have new : c.makeLearner t id = c.initProgress t id true := by simp only [makeLearner, old]
    rw [new]
    exact c.kept_initProgress (Option.isNone_iff_eq_none.mpr old) true
  | some =>
    by_cases idle : id ∈ t.learners ∧ id ∉ t.voters.incoming.ids
    · have same : c.makeLearner t id = t := by simp [makeLearner, old, idle]
      rw [same]
      exact .refl t
    rw [c.makeLearner_of_member old idle]
    refine ⟨rfl, rfl, fun h => ?_⟩
    have member := (h.tracked id).mp (by rw [old]; rfl)
    obtain ⟨tracked, learners, staged⟩ := h
    simp only [mem_ids] at tracked member
    refine ⟨fun v => ?_, fun v hv => ?_, fun v hv => ?_⟩ <;> simp only [mem_ids] at * <;> grind

theorem kept_applyOne (t : Tracker I) (cc : ConfChangeSingle I) : Kept t (c.applyOne t cc) := by
  unfold applyOne
  cases cc.ty
  · exact c.kept_makeVoter t cc.node
  · exact c.kept_remove t cc.node
  · exact c.kept_makeLearner t cc.node

/-! ## A list of changes -/

theorem kept_foldl (changes : List (ConfChangeSingle I)) (t : Tracker I) : Kept t (changes.foldl c.applyOne t) := by
  induction changes generalizing t with
  | nil => exact .refl t
  | cons cc rest ih => exact (c.kept_applyOne t cc).trans (ih _)

theorem apply_eq_ok {t' : Tracker I} {changes : List (ConfChangeSingle I)} (h : c.apply t changes = .ok t') :
    Kept t t' ∧ t'.voters.incoming.ids.Nonempty := by
  unfold apply at h
  simp only at h
  split at h
  · contradiction
  next voters =>
  obtain rfl := Except.ok.inj h
  exact ⟨c.kept_foldl changes t, Finset.nonempty_iff_ne_empty.mpr voters⟩

theorem apply_ne_violation (t : Tracker I) (changes : List (ConfChangeSingle I)) :
    c.apply t changes ≠ .error .invariantViolation := by
  unfold apply
  simp only
  split <;> simp

/-! ## The three operations -/

theorem checkInvariants_of_wellFormed (h : t.WellFormed) : c.checkInvariants t = .ok t := by
  unfold checkInvariants
  refine if_pos ⟨fun id => (h.tracked id).mpr, fun id hid => (h.staged id hid).1, h.learners, ?_⟩
  by_cases joint : t.isJoint = true
  · exact .inl joint
  · exact .inr ⟨h.learnersNext_eq (outgoing_of_not_joint joint), h.leaves.resolve_left joint⟩

/-- What an operation gives: never the invariant error, and a well formed tracker. -/
def Sound (r : Except ConfChangeError (Tracker I)) : Prop :=
  r ≠ .error .invariantViolation ∧ ∀ t, r = .ok t → t.WellFormed

theorem sound_error {e : ConfChangeError} (h : e ≠ .invariantViolation) :
    Sound (.error e : Except ConfChangeError (Tracker I)) := by
  refine ⟨by simpa using h, ?_⟩
  intro t ht
  contradiction

theorem sound_checkInvariants (h : t.WellFormed) : Sound (c.checkInvariants t) := by
  rw [c.checkInvariants_of_wellFormed h]
  refine ⟨by simp, ?_⟩
  rintro t' ht
  rwa [← Except.ok.inj ht]

theorem sound_simple (h : t.WellFormed) (changes : List (ConfChangeSingle I)) : Sound (c.simple t changes) := by
  unfold simple
  split
  · exact sound_error (by decide)
  next simple =>
  cases applied : c.apply t changes with
  | error =>
    refine sound_error fun he => ?_
    exact c.apply_ne_violation t changes (he ▸ applied)
  | ok =>
    obtain ⟨kept, voters⟩ := c.apply_eq_ok applied
    simp only
    split
    · exact sound_error (by decide)
    split
    · exact sound_error (by decide)
    refine c.sound_checkInvariants ⟨kept.members h.toMembers, .inr ?_, voters⟩
    rw [kept.autoLeave]
    exact h.leaves.resolve_left simple

/-- The old voters become the outgoing half. -/
theorem members_enter (h : t.Members) (simple : t.voters.outgoing.ids = ∅) :
    { t with voters := ⟨t.voters.incoming, ⟨t.voters.incoming.ids⟩⟩ }.Members := by
  have staged := h.learnersNext_eq simple
  refine ⟨fun id => ?_, fun id hid => ?_, fun id hid => ?_⟩
  · rw [h.tracked]
    simp [mem_ids, simple]
  · exact ⟨(h.learners id hid).2, (h.learners id hid).2⟩
  · simp [staged] at hid

theorem sound_enterJoint (h : t.WellFormed) (autoLeave : Bool)
    (changes : List (ConfChangeSingle I)) : Sound (c.enterJoint t autoLeave changes) := by
  unfold enterJoint
  split
  · exact sound_error (by decide)
  next simple =>
  split
  · exact sound_error (by decide)
  have entered := members_enter h.toMembers (outgoing_of_not_joint simple)
  cases applied : c.apply { t with voters := ⟨t.voters.incoming, ⟨t.voters.incoming.ids⟩⟩ } changes with
  | error =>
    refine sound_error fun he => ?_
    exact c.apply_ne_violation _ changes (he ▸ applied)
  | ok t' =>
    obtain ⟨kept, voters⟩ := c.apply_eq_ok applied
    have joint : t'.isJoint = true := by
      rw [isJoint_iff, kept.outgoing]
      exact h.voters
    have members := kept.members entered
    exact c.sound_checkInvariants ⟨⟨members.tracked, members.learners, members.staged⟩, .inl joint, voters⟩

theorem sound_leaveJoint (h : t.WellFormed) : Sound (c.leaveJoint t) := by
  unfold leaveJoint
  split
  · refine c.sound_checkInvariants ⟨⟨fun id => ?_, fun id hid => ?_, fun id hid => ?_⟩, .inr rfl, h.voters⟩
    · have tracked := h.tracked id
      simp only [mem_ids, Finset.mem_union, Finset.notMem_empty] at tracked ⊢
      grind
    · rcases Finset.mem_union.mp hid with hl | hn
      · exact ⟨Finset.notMem_empty id, (h.learners id hl).2⟩
      · exact ⟨Finset.notMem_empty id, (h.staged id hn).2⟩
    · exact absurd hid (Finset.notMem_empty id)
  · exact sound_error (by decide)

end Changer

namespace Tracker

theorem WellFormed.isValid {t : Tracker I} (h : t.WellFormed) : t.confState.isValid = true := by
  unfold ConfState.isValid confState
  simp only [decide_eq_true_eq]
  refine ⟨Finset.nonempty_iff_ne_empty.mp h.voters, fun id hid => (h.learners id hid).symm, h.staged, ?_⟩
  by_cases joint : t.isJoint = true
  · exact .inl joint
  · exact .inr ⟨h.learnersNext_eq (outgoing_of_not_joint joint), h.leaves.resolve_left joint⟩

/-- The checked invariants, with a voter, nobody else's progress and staged members that
vote in the outgoing half alone. -/
theorem wellFormed_of_checked {c : Changer} {t : Tracker I} (checked : c.checkInvariants t = .ok t)
    (voters : t.voters.incoming.ids.Nonempty) (orphans : ∀ id, (t.progress id).isSome = true → id ∈ t.ids)
    (staged : ∀ id ∈ t.learnersNext, id ∉ t.voters.incoming.ids) : t.WellFormed := by
  unfold Changer.checkInvariants at checked
  split at checked
  · next h =>
    obtain ⟨tracked, next_, learners, leaves⟩ := h
    exact ⟨⟨fun id => ⟨orphans id, tracked id⟩, learners, fun id hid => ⟨next_ id hid, staged id hid⟩⟩,
      leaves.imp_right And.right, voters⟩
  · contradiction

/-- The configuration of a tracker, without its progress. -/
def SameMembership (t t' : Tracker I) : Prop :=
  t.voters.incoming = t'.voters.incoming ∧ t.voters.outgoing = t'.voters.outgoing ∧
    t.learners = t'.learners ∧ t.learnersNext = t'.learnersNext ∧ t.autoLeave = t'.autoLeave

theorem sameMembership_fromConfState (t : Tracker I) (lastIndex : Index) (msgs bytes : Nat) :
    (fromConfState t.confState lastIndex msgs bytes).SameMembership t :=
  ⟨rfl, rfl, rfl, rfl, rfl⟩

end Tracker

theorem Endpoint.tracker_applyConfChange_of_error {s : Endpoint I M} {cc : ConfChangeV2 I} {e : ConfChangeError}
    (h : s.changeTracker cc = .error e) (idx : Index) : (s.applyConfChange idx cc).tracker = s.tracker := by
  unfold applyConfChange
  rw [h]
  rfl

/-- Member 1 votes in both halves and is staged for demotion: the checks pass. -/
def Tracker.overlapping : Tracker Nat :=
  ⟨⟨⟨{1}⟩, ⟨{1}⟩⟩, ∅, {1}, false, fun id => if id = 1 then some (Progress.new 1 1 0) else none⟩

/-- Leaving makes it a voter and a learner, which the checks refuse. -/
theorem leaveJoint_overlapping :
    (Changer.mk 1 1 0).checkInvariants Tracker.overlapping = .ok Tracker.overlapping ∧
    Tracker.overlapping.voters.incoming.ids.Nonempty ∧
    (∀ id, (Tracker.overlapping.progress id).isSome = true → id ∈ Tracker.overlapping.ids) ∧
    (Changer.mk 1 1 0).leaveJoint Tracker.overlapping = .error .invariantViolation := by
  refine ⟨if_pos (by decide), by decide, fun id h => ?_, ?_⟩
  · have one : id = 1 := by
      by_contra other
      simp [Tracker.overlapping, other] at h
    rw [one]
    decide
  · rw [Changer.leaveJoint, if_pos (by decide)]
    exact if_neg (by decide)

/-- Without such a member no operation meets the invariant error, and what it returns is
a tracker that these results apply to again. -/
theorem changes_sound (c : Changer) (t : Tracker I) (checked : c.checkInvariants t = .ok t)
    (voters : t.voters.incoming.ids.Nonempty) (orphans : ∀ id, (t.progress id).isSome = true → id ∈ t.ids)
    (staged : ∀ id ∈ t.learnersNext, id ∉ t.voters.incoming.ids) (autoLeave : Bool)
    (changes : List (ConfChangeSingle I)) :
    (∀ r ∈ [c.simple t changes, c.enterJoint t autoLeave changes, c.leaveJoint t],
      r ≠ .error .invariantViolation ∧
      ∀ t', r = .ok t' →
        c.checkInvariants t' = .ok t' ∧ t'.confState.isValid = true ∧ t'.voters.incoming.ids.Nonempty ∧
        (∀ id, (t'.progress id).isSome = true → id ∈ t'.ids) ∧
        (∀ id ∈ t'.learnersNext, id ∉ t'.voters.incoming.ids) ∧
        ∀ lastIndex msgs bytes,
          (Tracker.fromConfState t'.confState lastIndex msgs bytes).SameMembership t') ∧
    ∀ (s : Endpoint I M) (cc : ConfChangeV2 I) (idx : Index) (e : ConfChangeError),
      s.changeTracker cc = .error e → (s.applyConfChange idx cc).tracker = s.tracker := by
  have h := Tracker.wellFormed_of_checked checked voters orphans staged
  refine ⟨fun r hr => ?_, fun s cc idx e he => Endpoint.tracker_applyConfChange_of_error he idx⟩
  have sound : Changer.Sound r := by
    simp only [List.mem_cons, List.not_mem_nil, or_false] at hr
    rcases hr with rfl | rfl | rfl
    · exact c.sound_simple h changes
    · exact c.sound_enterJoint h autoLeave changes
    · exact c.sound_leaveJoint h
  refine ⟨sound.1, fun t' ht' => ?_⟩
  have h' := sound.2 t' ht'
  exact ⟨c.checkInvariants_of_wellFormed h', h'.isValid, h'.voters, fun id => (h'.tracked id).mp,
    fun id hid => (h'.staged id hid).2, t'.sameMembership_fromConfState⟩

/-- Members 1 and 3 are being replaced by 1 and 2, with 3 staged for demotion. -/
def Tracker.demoting : Tracker Nat := .fromConfState ⟨{1, 2}, ∅, {1, 3}, {3}, true⟩ 1 1 0

/-- Leaving makes 3 a learner. -/
theorem changes_sound_demoting : ∃ t : Tracker Nat,
    (Changer.mk 1 1 0).leaveJoint Tracker.demoting = .ok t ∧
      t.confState = ⟨{1, 2}, {3}, ∅, ∅, false⟩ ∧ t.confState.isValid = true := by
  obtain ⟨t, left, cs⟩ : ∃ t, (Changer.mk 1 1 0).leaveJoint Tracker.demoting = .ok t ∧
      t.confState = ⟨{1, 2}, {3}, ∅, ∅, false⟩ := by
    rw [Changer.leaveJoint, if_pos (by decide)]
    exact ⟨_, if_pos (by decide), by decide⟩
  have orphans : ∀ id, (Tracker.demoting.progress id).isSome = true → id ∈ Tracker.demoting.ids := by
    intro id some
    by_contra out
    simp [Tracker.demoting, Tracker.fromConfState, Tracker.ids, JointConfig.ids] at some out
    grind
  have sound := (changes_sound (M := tape) (Changer.mk 1 1 0) Tracker.demoting (if_pos (by decide)) (by decide)
    orphans (by decide) false []).1 _
    (List.mem_cons_of_mem _ (List.mem_cons_of_mem _ List.mem_cons_self))
  exact ⟨t, left, cs, (sound.2 t left).2.1⟩

end Sailing
