import Sailing.Node.Invariant

/-!
# What a call leaves of the stable store

No call makes a write durable; only the turn to capture and the receipt of a
snapshot replace the slot; and a call that brings no message keeps the current
term submitted.
-/

namespace Sailing.Endpoint

variable {I : Type} [LinearOrder I] {M : StateMachine}
variable {mono : Prop} {now : Instant} {inp : Input I} {s s' s'' : Endpoint I M}

/-- The current term is the one the store will hold. -/
def Submitted (s : Endpoint I M) : Prop :=
  s.poisoned = false → s.stable.visible.hardState.term = s.term

/-- The input may replace the slot. -/
def ReplacesSlot : Input I → Prop
  | .snapshot => True
  | .message _ (.installSnapshot _) => True
  | _ => False

/-- The input may bring a newer term. -/
def BringsTerm : Input I → Prop
  | .message _ _ => True
  | _ => False

structure StableKept (inp : Input I) (s s' : Endpoint I M) : Prop where
  durable : s'.stable.durable = s.stable.durable
  slot : ¬ ReplacesSlot inp → s'.stable.visible.snapshot = s.stable.visible.snapshot
  submitted : ¬ BringsTerm inp → s.Submitted → s'.Submitted
  images : s.stable.images <+: s'.stable.images

omit [LinearOrder I] in
theorem visible_submitSnapshot (st : StableStore I) (id : OpId) (m : SnapshotMeta I) (blob : Bytes) :
    (st.submitSnapshot id m blob).visible = { st.visible with snapshot := some (m, blob) } := by
  simp [StableStore.submitSnapshot, StableStore.visible]

omit [LinearOrder I] in
theorem images_stage_initial (st : StableStore I) (im : StableImage I) (d : StableDone) :
    st.images <+: ({ st with staged := st.staged ++ [(im, d)] } : StableStore I).images :=
  ⟨[im], by simp [StableStore.images]⟩

namespace StableKept

omit [LinearOrder I] in
theorem of_eq (hs : s'.stable = s.stable) (ht : s'.term = s.term)
    (live : s'.poisoned = false → s.poisoned = false) : StableKept inp s s' :=
  ⟨by rw [hs], fun _ => by rw [hs], fun _ h hl => by rw [hs, ht]; exact h (live hl), by rw [hs]⟩

omit [LinearOrder I] in
theorem refl (s : Endpoint I M) : StableKept inp s s := of_eq rfl rfl id

omit [LinearOrder I] in
theorem trans (h : StableKept inp s s') (k : StableKept inp s' s'') : StableKept inp s s'' :=
  ⟨k.durable.trans h.durable, fun hi => (k.slot hi).trans (h.slot hi),
    fun hi hs => k.submitted hi (h.submitted hi hs), h.images.trans k.images⟩

omit [LinearOrder I] in
theorem of_keeps (h : Keeps s s') : StableKept inp s s' := of_eq h.stable h.term h.live

omit [LinearOrder I] in
/-- A write of a hard state whose term is the current one, if the last was. -/
theorem of_write {id : OpId} {hs : HardState I} (h : s'.stable = s.stable.submitWrite id hs)
    (ht : s.Submitted → hs.term = s'.term) : StableKept inp s s' := by
  have hv : s'.stable.visible = { s.stable.visible with hardState := hs } := by
    rw [h]
    simp [StableStore.submitWrite, StableStore.visible]
  refine ⟨by rw [h]; rfl, fun _ => by rw [hv], fun _ hsub _ => ?_, by rw [h]; exact images_stage_initial _ _ _⟩
  rw [hv]
  exact ht hsub

end StableKept

omit [LinearOrder I] in
theorem StableKept.of_acks (h : Acks s s') : StableKept inp s s' := by
  obtain ⟨l, a, b, c, out, rfl⟩ := h.eq
  exact .of_eq rfl rfl id

theorem Step.stableKept (st : Step mono now inp s s') : StableKept inp s s' := by
  cases st with
  | idle h =>
    have hp : s'.poisonReason = s.poisonReason := congrArg Core.poisonReason h
    exact .of_eq (congrArg Core.stable h) (congrArg Core.term h) (by unfold poisoned; rw [hp]; exact id)
  | die => exact .of_eq rfl rfl (by simp)
  | junk dead _ _ stable =>
    exact ⟨by rw [stable], fun _ => by rw [stable], fun _ _ h => by simp [dead] at h, by rw [stable]⟩
  | @adopt sender m live msg newer real open_ =>
    have hs : (s.adoptTerm m.term).stable = s.stable := by
      unfold adoptTerm
      rw [setLeader_eq]
      rfl
    exact ⟨by rw [hs], fun _ => by rw [hs], fun hi => absurd (by rw [msg]; trivial) hi, by rw [hs]⟩
  | follow | preCampaign | stepDown | retire =>
    simp only [followLeader, startPreCampaign, stepDownToFollower]
    rw [setLeader_eq]
    exact .of_eq rfl rfl id
  | campaign live mint | cast live mint | write live mint =>
    simp only [startCampaign_eq live mint, castVote_eq live mint, submitHardState_eq live mint]
    exact .of_write rfl fun _ => rfl
  | lead =>
    unfold resetLeader
    rw [setLeader_eq]
    simp only
    split <;> exact .of_eq rfl rfl id
  | rewrite live mint same =>
    rw [mintWrite_eq live mint]
    refine .of_write rfl fun hs => ?_
    show s.stable.hardState.term = s.term
    rw [same]
    exact hs live
  | wrote | pollStable | staging => exact ⟨rfl, fun _ => rfl, fun _ h => h, List.prefix_refl _⟩
  | send live =>
    rw [send_live live]
    exact .of_eq rfl rfl id
  | appendOwn live mint | overwrite live mint =>
    simp only [appendOwn_eq live mint, overwrite_eq live mint]
    exact .of_eq rfl rfl id
  | ackAppend | releaseAck | ackSnapshot | ackShortcut | flushShortcut | flushSnapshotGate | flushAppendGate =>
    exact .of_acks (by simp)
  | appended =>
    unfold noteAppended
    split <;> exact .of_eq rfl rfl id
  | apply live running entry => exact .of_keeps (Keeps.of_applyEntry live entry)
  | capture live mint turn =>
    unfold Endpoint.capture
    rw [submitSnapshot_eq live mint]
    refine ⟨rfl, fun hi => absurd (by rw [turn]; trivial) hi, fun _ h hl => ?_, images_stage_initial _ _ _⟩
    simp only [visible_submitSnapshot]
    exact h hl
  | beginInstall live mint msg =>
    rw [submitSnapshot_eq live mint]
    exact ⟨rfl, fun hi => absurd (by rw [msg]; trivial) hi, fun hi => absurd (by rw [msg]; trivial) hi,
      images_stage_initial _ _ _⟩
  | receive live msg term chunk =>
    obtain ⟨n, stable, hc, hst⟩ := chunk
    obtain ⟨sg, rfl⟩ := acceptSnapshotChunk_stable hc
    have hs : s'.stable = { s.stable with staging := sg } := congrArg Core.stable hst
    exact ⟨by rw [hs], fun _ => by rw [hs]; rfl, fun hi => absurd (by rw [msg]; trivial) hi,
      by rw [hs]; exact List.prefix_refl _⟩
  | farewell | confirm | leaseRead | forward | answered | renewLease => exact .of_keeps (Sends.keeps (by simp))
  | _ => exact .of_eq rfl rfl id

theorem Steps.stableKept (st : Steps mono now inp s s') : StableKept inp s s' := by
  induction st with
  | refl => exact .refl s
  | tail _ st ih => exact ih.trans st.stableKept

end Sailing.Endpoint
