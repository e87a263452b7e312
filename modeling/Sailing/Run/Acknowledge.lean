import Sailing.Run.Reach
import Sailing.Model.Tape

/-!
# Persist before acknowledge

A success acknowledgement names an index up to which a crash takes nothing
away: the durable log holds what the node sees, or the durable snapshot folds
it. This rests on the slot never going back: a capture below the boundary of an
installed snapshot would take away what that snapshot had made durable, while
the watermark remembers it.
-/

namespace Sailing

variable {I : Type} [LinearOrder I] {M : StateMachine}

namespace Endpoint

variable {mono : Prop} {s : Endpoint I M}

/-- Up to `m` a crash at this moment leaves the visible entries, or a snapshot
of the committed prefix in their place. -/
def AckSurvives (s : Endpoint I M) (m : Index) : Prop :=
  ∀ i ≤ m, 0 < i → (i ≤ s.stable.durable.slot ∧ i ≤ s.commit) ∨
    ((s.log.visible.get i).isSome = true ∧ s.log.durable.get i = s.log.visible.get i)

instance (s : Endpoint I M) (m : Index) : Decidable (s.AckSurvives m) :=
  inferInstanceAs (Decidable (∀ i ≤ m, 0 < i → (i ≤ s.stable.durable.slot ∧ i ≤ s.commit) ∨
    ((s.log.visible.get i).isSome = true ∧ s.log.durable.get i = s.log.visible.get i)))

instance decidableSlotsRise (s : Endpoint I M) : (calls : List (Call I M)) → Decidable (s.SlotsRise calls)
  | [] => isTrue trivial
  | c :: cs =>
    have := decidableSlotsRise (s.exec c) cs
    inferInstanceAs (Decidable ((c.isPublic = true → s.slot ≤ (s.exec c).slot) ∧
      (s.exec c).SlotsRise cs))

omit [LinearOrder I] in
/-- What the slot reaches whatever a crash leaves, the durable slot reaches. -/
theorem slot_of_covers {n : Index} (h : s.cover.SlotCovers n) : n ≤ s.stable.durable.slot := h _ List.mem_cons_self

theorem NodeInv.ackSurvives (inv : NodeInv True s) (live : s.poisoned = false) {m : Index}
    (hm : m ≤ s.cover.watermark) : s.AckSurvives m := by
  have shape := inv.shape live
  have cov := inv.covered trivial live
  intro i hi _
  by_cases hdsi : i ≤ s.durable.durableSnapshotIndex
  · have hslot : s.durable.durableSnapshotIndex ≤ s.stable.durable.slot := slot_of_covers cov.dsi
    have hcommit : s.durable.durableSnapshotIndex ≤ s.commit := shape.dsi_commit
    exact .inl ⟨hdsi.trans hslot, hdsi.trans hcommit⟩
  have hdur : i ≤ s.durable.durableIndex := by
    have hw : i ≤ max s.durable.durableIndex s.durable.durableSnapshotIndex := hi.trans hm
    exact (le_max_iff.mp hw).resolve_right hdsi
  rcases cov.kept i hdur with ⟨hslot, hcommit⟩ | hkept
  · exact .inl ⟨slot_of_covers hslot, hcommit⟩
  by_cases hbase : i ≤ s.log.visible.base
  · have happlied : s.log.visible.base ≤ s.applied := shape.base_applied
    have hcommit : s.applied ≤ s.commit := shape.applied_commit
    exact .inl ⟨hbase.trans (slot_of_covers cov.base), hbase.trans (happlied.trans hcommit)⟩
  have hlast : s.durable.durableIndex ≤ s.log.visible.lastIndex := shape.dur_last
  exact .inr ⟨LogImage.isSome_get.mpr ⟨not_le.mp hbase, hdur.trans hlast⟩, hkept _ List.mem_cons_self⟩

omit [LinearOrder I] in
theorem pollMessage_some {o : Outgoing I} (h : s.pollMessage.1 = some o) : s.poisoned = false ∧ o ∈ s.outgoing := by
  unfold pollMessage at h
  split at h
  · cases h
  next hp =>
  split at h
  · cases h
  next o' rest ho =>
  refine ⟨by simpa using hp, ?_⟩
  rw [ho, ← Option.some.inj h]
  exact List.mem_cons_self

/-- In a run in which no call lowers the slot, what `poll_message` acknowledges
survives a crash at that moment. -/
theorem pollMessage_persistBeforeAck (config : Config I) (now : Instant) (rng : Nat → Nat)
    (calls : List (Call I M)) (rise : (new config now rng M.init : Endpoint I M).SlotsRise calls)
    (o : Outgoing I) (m : Index) (snapshot : Bool)
    (polled : ((new config now rng M.init : Endpoint I M).execs calls).pollMessage.1 = some o)
    (ack : ackOf o.message = some (m, snapshot)) :
    ((new config now rng M.init : Endpoint I M).execs calls).AckSurvives m := by
  obtain ⟨inv₀, sub₀⟩ := new_inv (M := M) config now rng
  obtain ⟨inv, -⟩ := NodeInv.execs calls inv₀ sub₀ fun _ : True => rise
  obtain ⟨live, hmem⟩ := pollMessage_some polled
  refine inv.ackSurvives live ((inv.shape live).acks (m, snapshot) ?_).1
  exact List.mem_filterMap.mpr ⟨o, hmem, ack⟩

end Endpoint

namespace Tape

/-- A follower of a group of three that compacts as soon as it can. -/
def follower : Endpoint Nat tape := node { config {0, 1, 2} 1 with snapshotThreshold := 1 }

/-- Two entries, the hard state and the log durable, and the node told. -/
def acknowledged : List (Call Nat tape) :=
  [.message 0 0 (.appendEntries ⟨1, 0, 0, 0, run 1 1 [1, 2], 0⟩)] ++ persist 0 1 ++ persistLog 0 2

theorem acknowledged_survives :
    (follower.execs acknowledged).pollMessage.1 =
      some ⟨0, .appendResponse ⟨1, 1, false, 0, 0, 2, 0⟩⟩ ∧
    (follower.execs acknowledged).AckSurvives 2 :=
  ⟨by decide +kernel, Endpoint.pollMessage_persistBeforeAck _ _ _ acknowledged (by decide +kernel)
    ⟨0, .appendResponse ⟨1, 1, false, 0, 0, 2, 0⟩⟩ 2 false (by decide +kernel) rfl⟩

/-- A snapshot through 3 is on its way to the slot when an append commits
through 3; the third entry is cold. Once the slot is durable the snapshot is
redundant and the node, having applied 2, captures there: the slot goes back.
When the third entry can be read the boundary 3 is acknowledged. -/
def slotLowered : List (Call Nat tape) :=
  [.message 0 0 (.installSnapshot ⟨1, 0, ⟨3, 1, .fromVoters {0, 1, 2}⟩, [1, 2, 3], 0, 0⟩),
    reads (· == 3),
    .message 0 0 (.appendEntries ⟨1, 0, 0, 0, run 1 1 [1, 2, 3], 3⟩)] ++
  persist 0 2 ++ persist 0 1 ++ [reads fun _ => false, .storage 0]

/-- The boundary 3 is acknowledged to the leader of the term, and a crash
leaves an empty log and a snapshot through 2. -/
theorem slotLowered_ack_lost :
    (follower.execs slotLowered).pollMessage.1 =
      some ⟨0, .snapshotResponse ⟨1, 1, false, 3, 0, false⟩⟩ ∧
    (follower.execs slotLowered).leader = some 0 ∧ (follower.execs slotLowered).term = 1 ∧
    (follower.execs slotLowered).log.durable.lastIndex = 0 ∧
    (follower.execs slotLowered).stable.durable.slot = 2 ∧
    ¬ (follower.execs slotLowered).AckSurvives 3 := by
  decide +kernel

end Tape

end Sailing
