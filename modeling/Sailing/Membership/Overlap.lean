import Sailing.Membership.Counting
import Sailing.Membership.Net
import Sailing.Membership.Tally

/-!
# Quorums across a membership change

An accepted change moves the voters so little that a quorum before it and one after it share a
voter, whichever of the two elects and whichever commits.
-/

namespace Sailing

variable {I : Type} [LinearOrder I]

/-- Majorities of two sets that differ in at most one member meet. -/
theorem MajorityConfig.Granted.meet_near {c c' : MajorityConfig I} {votes votes' : I → Option Bool}
    (h : c.Granted votes) (k : c'.Granted votes') (near : Changer.symDiff c.ids c'.ids ≤ 1) :
    ∃ id ∈ c.ids, id ∈ c'.ids ∧ votes id = some true ∧ votes' id = some true := by
  by_contra apart
  have disjoint : Disjoint (c.granted votes) (c'.granted votes') := Finset.disjoint_left.mpr fun id hid hid' => by
    obtain ⟨voter, granted⟩ := Finset.mem_filter.mp hid
    obtain ⟨voter', granted'⟩ := Finset.mem_filter.mp hid'
    exact apart ⟨id, voter, voter', granted, granted'⟩
  have inside : c.granted votes ∪ c'.granted votes' ⊆ c.ids ∪ c'.ids :=
    Finset.union_subset_union (Finset.filter_subset _ _) (Finset.filter_subset _ _)
  have few := Finset.card_le_card inside
  rw [Finset.card_union_of_disjoint disjoint] at few
  have left := Finset.card_sdiff_add_card c.ids c'.ids
  have right := Finset.card_sdiff_add_card c'.ids c.ids
  rw [Finset.union_comm] at right
  unfold Granted at h k
  unfold Changer.symDiff at near
  omega

/-- What has acknowledged `i` is as good as a vote. -/
theorem JointConfig.granted_of_committed {c : JointConfig I} {acked : I → Index} {i : Index} (small : i ≤ u64Max)
    (committed : i ≤ c.committedIndex acked) : c.Granted fun id => some (decide (i ≤ acked id)) := by
  have h := (c.le_committedIndex_iff acked small).mp committed
  simpa [Granted, Acknowledged, MajorityConfig.Granted, MajorityConfig.granted, MajorityConfig.Acknowledged] using h

namespace Tracker

/-- One accepted change. -/
inductive Changes (t t' : Tracker I) : Prop
  | simple (c : Changer) (changes : List (ConfChangeSingle I)) (ok : c.simple t changes = .ok t')
  | enter (c : Changer) (autoLeave : Bool) (changes : List (ConfChangeSingle I))
      (ok : c.enterJoint t autoLeave changes = .ok t')
  | leave (c : Changer) (ok : c.leaveJoint t = .ok t')

theorem wellFormed_fromConfState {cs : ConfState I} (valid : cs.isValid = true) (lastIndex : Index) (msgs bytes : Nat) :
    (fromConfState cs lastIndex msgs bytes).WellFormed := by
  simp only [ConfState.isValid, decide_eq_true_eq] at valid
  obtain ⟨voters, learners, staged, leaves⟩ := valid
  refine ⟨⟨fun id => ?_, fun id hid => (learners id hid).symm, staged⟩, ?_, Finset.nonempty_iff_ne_empty.mpr voters⟩
  · simp only [fromConfState, ids, JointConfig.ids]
    split <;> simp_all
  · exact leaves.imp (fun joint => by simpa [isJoint, fromConfState, ConfState.isJoint] using joint) And.right

variable {t t' : Tracker I} (good : t.WellFormed) (change : t.Changes t')
include good change

theorem Changes.wellFormed : t'.WellFormed := by
  cases change with
  | simple c changes ok => exact (c.sound_simple good changes).2 t' ok
  | enter c autoLeave changes ok => exact (c.sound_enterJoint good autoLeave changes).2 t' ok
  | leave c ok => exact (c.sound_leaveJoint good).2 t' ok

theorem Changes.near : ∃ half ∈ [t'.voters.incoming, t'.voters.outgoing],
    half.ids.Nonempty ∧ Changer.symDiff t.voters.incoming.ids half.ids ≤ 1 := by
  have same : Changer.symDiff t.voters.incoming.ids t.voters.incoming.ids ≤ 1 := by simp [Changer.symDiff]
  cases change with
  | simple c changes ok =>
    refine ⟨_, List.mem_cons_self, (Changes.wellFormed good (.simple c changes ok)).voters, ?_⟩
    unfold Changer.simple at ok
    split at ok
    · cases ok
    split at ok
    · cases ok
    split at ok
    · cases ok
    next few =>
    split at ok
    · cases ok
    rw [c.checkInvariants_eq ok]
    exact not_lt.mp few
  | enter c autoLeave changes ok =>
    obtain ⟨u, applied, rfl⟩ := c.enterJoint_eq_ok ok
    have outgoing := (c.apply_eq_ok applied).1.outgoing
    refine ⟨_, List.mem_cons_of_mem _ List.mem_cons_self, ?_⟩
    rw [show ({ u with autoLeave := autoLeave } : Tracker I).voters.outgoing = t.voters.incoming from outgoing]
    exact ⟨good.voters, same⟩
  | leave c ok =>
    refine ⟨_, List.mem_cons_self, ?_⟩
    rw [(c.leaveJoint_eq_ok ok).1]
    exact ⟨good.voters, same⟩

theorem Changes.meet {votes votes' : I → Option Bool} (h : t.voters.Granted votes) (k : t'.voters.Granted votes') :
    ∃ id ∈ t.voters.ids, id ∈ t'.voters.ids ∧ votes id = some true ∧ votes' id = some true := by
  obtain ⟨half, mem, voters, near⟩ := Changes.near good change
  have granted : half.Granted votes' ∧ half.ids ⊆ t'.voters.ids := by
    simp only [List.mem_cons, List.not_mem_nil, or_false] at mem
    obtain rfl | rfl := mem
    · exact ⟨k.1 voters, Finset.subset_union_left⟩
    · exact ⟨k.2 voters, Finset.subset_union_right⟩
  obtain ⟨id, voter, voter', both⟩ := (h.1 good.voters).meet_near granted.1 near
  exact ⟨id, Finset.mem_union_left _ voter, granted.2 voter', both⟩

end Tracker

/-- From a valid configuration, after any accepted changes, across one more: two elections share a
voter of both configurations, and such a voter of an election on either side has acknowledged what
is committed on the other. -/
theorem quorums_overlap (cs : ConfState I) (valid : cs.isValid = true) (lastIndex : Index) (msgs bytes : Nat)
    (t t' : Tracker I) (before : Relation.ReflTransGen Tracker.Changes (.fromConfState cs lastIndex msgs bytes) t)
    (change : t.Changes t') (votes votes' : I → Option Bool) (acked : I → Index) (i : Index) (small : i ≤ u64Max) :
    (t.voteResult votes = .won → t'.voteResult votes' = .won →
      ∃ id ∈ t.voters.ids, id ∈ t'.voters.ids ∧ votes id = some true ∧ votes' id = some true) ∧
    (i ≤ t.voters.committedIndex acked → t'.voteResult votes' = .won →
      ∃ id ∈ t.voters.ids, id ∈ t'.voters.ids ∧ i ≤ acked id ∧ votes' id = some true) ∧
    (t.voteResult votes = .won → i ≤ t'.voters.committedIndex acked →
      ∃ id ∈ t.voters.ids, id ∈ t'.voters.ids ∧ votes id = some true ∧ i ≤ acked id) := by
  have good : t.WellFormed := by
    clear change
    induction before with
    | refl => exact Tracker.wellFormed_fromConfState valid lastIndex msgs bytes
    | tail _ step ih => exact Tracker.Changes.wellFormed ih step
  refine ⟨fun h k => ?_, fun h k => ?_, fun h k => ?_⟩
  · exact change.meet good (t.voters.voteResult_won_iff.mp h) (t'.voters.voteResult_won_iff.mp k)
  · simpa using change.meet good (JointConfig.granted_of_committed small h) (t'.voters.voteResult_won_iff.mp k)
  · simpa using change.meet good (t.voters.voteResult_won_iff.mp h) (JointConfig.granted_of_committed small k)

/-- Leaving a joint configuration. -/
theorem quorums_overlap_demoting : ∃ t : Tracker Nat, (Changer.mk 1 1 0).leaveJoint Tracker.demoting = .ok t ∧
    ∀ votes, t.voteResult votes = .won → ∃ id ∈ ({1, 2, 3} : Finset Nat), votes id = some true := by
  obtain ⟨t, left⟩ : ∃ t, (Changer.mk 1 1 0).leaveJoint Tracker.demoting = .ok t := by
    rw [Changer.leaveJoint, if_pos (by decide)]
    exact ⟨_, if_pos (by decide)⟩
  refine ⟨t, left, fun votes won => ?_⟩
  obtain ⟨id, -, -, old, new⟩ := (quorums_overlap _ (by decide) 1 1 0 Tracker.demoting t .refl (.leave _ left)
    (fun id => some (decide (id ∈ ({1, 2, 3} : Finset Nat)))) votes (fun _ => 0) 0 (by decide)).1 (by decide) won
  exact ⟨id, by simpa using old, new⟩

end Sailing
