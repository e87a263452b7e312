import Sailing.Model.Tape
import Sailing.Run.Reach

/-!
# Poison is fail-stop

No effect that leaves a node poisoned touches its stores or its state machine,
whether it is the effect that failed or one that follows it in the same call.
-/

namespace Sailing

variable {I : Type} [LinearOrder I] {M : StateMachine}

/-- A crash and restart make another endpoint of what the stores keep. -/
def Call.isCrash : Call I M → Bool
  | .crash .. => true
  | _ => false

omit [LinearOrder I] in
theorem Call.eq_crash {c : Call I M} (h : c.isCrash = true) :
    ∃ now rng bootEpoch prior, c = .crash now rng bootEpoch prior := by
  cases c with
  | crash now rng bootEpoch prior => exact ⟨now, rng, bootEpoch, prior, rfl⟩
  | _ => exact absurd h (by simp [Call.isCrash])

namespace Endpoint

variable {mono : Prop} {now : Instant} {inp : Input I} {s s' s'' : Endpoint I M}

/-- Neither the stores nor the state machine is called, and the reason of an
earlier failure stays. -/
structure Untouched (s s' : Endpoint I M) : Prop where
  log : s'.log = s.log
  stable : s'.stable = s.stable
  fsm : s'.fsm = s.fsm
  reason : s.poisoned = true → s'.poisonReason = s.poisonReason

namespace Untouched

omit [LinearOrder I] in
/-- An effect that leaves the reason alone ends dead only where it began so, and
the code does not act there. -/
theorem of_live (live : s.poisoned = false) (dead : s'.poisoned = true)
    (reason : s'.poisonReason = s.poisonReason) : Untouched s s' := by
  have : s'.poisoned = s.poisoned := congrArg Option.isSome reason
  rw [dead, live] at this
  cases this

omit [LinearOrder I] in
theorem of_sends (h : Sends s s') : Untouched s s' := ⟨h.log, h.stable, h.fsm, h.reason⟩

theorem of_applyEntry {e : Entry I} (live : s.poisoned = false)
    (he : s.log.visible.get e.index = some e) (dead : (s.applyEntry e).poisoned = true) :
    Untouched s (s.applyEntry e) := by
  have hk := Keeps.of_applyEntry live he
  refine ⟨hk.log, hk.stable, ?_, fun hp => absurd hp (by simp [live])⟩
  have out := applyEntry_outcome s e
  generalize s.applyEntry e = t at out dead ⊢
  cases out with
  | normal => exact absurd (dead.symm.trans live) (by simp)
  | refused | changed => exact (applyConfChange_same s _ _).2.2.1
  | _ => rfl

end Untouched

omit [LinearOrder I] in
theorem Acks.poisonReason (h : Acks s s') : s'.poisonReason = s.poisonReason := by
  obtain ⟨l, a, b, c, out, rfl⟩ := h.eq
  rfl

/-- No effect that leaves the node dead touches the stores or the state
machine. -/
theorem Step.untouched (st : Step mono now inp s s') (dead : s'.poisoned = true) : Untouched s s' := by
  cases st with
  | idle h => exact .of_sends (Sends.of_core h)
  | die reason => exact .of_sends (Sends.of_poison s reason)
  | junk _ config log stable id outgoing role fsm reason => exact ⟨log, stable, fsm, reason⟩
  | adopt live | follow live | preCampaign live | stepDown live =>
    refine .of_live live dead ?_
    simp only [adoptTerm, followLeader, startPreCampaign, stepDownToFollower]
    rw [setLeader_eq]
    rfl
  | campaign live mint | overwrite live mint =>
    refine .of_live live dead ?_
    simp only [startCampaign_eq live mint, overwrite_eq live mint]
    rfl
  | cast live mint | write live mint | rewrite live mint | appendOwn live mint | beginInstall live mint
  | capture live mint =>
    refine .of_live live dead ?_
    simp only [castVote_eq live mint, submitHardState_eq live mint, mintWrite_eq live mint, appendOwn_eq live mint,
      submitSnapshot_eq live mint, Endpoint.capture]
  | lead live =>
    refine .of_live live dead ?_
    unfold resetLeader
    rw [setLeader_eq]
    simp only
    split <;> rfl
  | retire live =>
    refine .of_live live dead ?_
    rw [setLeader_eq]
  | send live =>
    refine .of_live live dead ?_
    rw [send_eq]
  | ackAppend live | releaseAck live | ackSnapshot live | ackShortcut live | flushShortcut live | flushSnapshotGate live
  | flushAppendGate live => exact .of_live live dead (Acks.poisonReason (by simp))
  | appended live =>
    refine .of_live live dead ?_
    unfold noteAppended
    split <;> rfl
  | apply live running entry => exact .of_applyEntry live entry dead
  | receive live msg term chunk =>
    obtain ⟨n, stable, hc, hst⟩ := chunk
    exact .of_live live dead (congrArg Core.poisonReason hst)
  | farewell | confirm | leaseRead | forward | answered | renewLease => exact .of_sends (by simp)
  | arm live | expire live | vote live | recheck live | wrote live | raiseHard live | settled live
  | pollStable live | pushAck live | dropLog live | pollLog live | raiseIndex live | popInflight live
  | matchOwn live | matchPeer live | commitQuorum live | commitHeartbeat live | commitAppend live
  | commitShortcut live | compacted live | dropInstall live | raiseSlot live | install live
  | retrack live | staging live | dropGates live | farewells live | deferRead live | register live
  | registerDeferred live | ackRead live | leaseRound live | dropLease live | support live =>
    exact .of_live live dead rfl

end Endpoint

end Sailing
