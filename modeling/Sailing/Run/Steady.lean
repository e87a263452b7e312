import Sailing.Run.Respond

/-!
# A group whose membership never changes

As long as nobody proposes a configuration change, none is in any log, in any
message or behind any snapshot, so every live node keeps counting by the
configuration it started with. `Steady` says so of one node; it is kept by every
effect whose input says so too, and by a restart.
-/

namespace Sailing

open List (mem_append mem_singleton not_mem_nil)

variable {I : Type} [LinearOrder I] {M : StateMachine}

/-- A message from `me` in a group whose configuration is `cs`. -/
def SteadyMessage (cs : ConfState I) (me : I) : Message I → Prop
  | .voteResponse vr => vr.sender = me
  | .appendEntries ae => ∀ e ∈ ae.entries, e.kind.isConfChange = false
  | .installSnapshot is => is.snapshot.conf = cs
  | _ => True

structure SteadyInput (cs : ConfState I) (inp : Input I) : Prop where
  change : inp ≠ .change
  message : ∀ sender m, inp = .message sender m → SteadyMessage cs sender m

/-- No image of the log holds a configuration change. -/
def LogImage.Steady (d : LogImage I) : Prop := ∀ e ∈ d.entries, e.kind.isConfChange = false

namespace LogImage.Steady

variable {d : LogImage I}

omit [LinearOrder I] in
theorem put (h : d.Steady) {e : Entry I} (he : e.kind.isConfChange = false) : (d.put e).Steady := by
  intro x hx
  rcases mem_append.mp hx with hx | hx
  · exact h x (List.mem_of_mem_take hx)
  · rw [mem_singleton.mp hx]
    exact he

omit [LinearOrder I] in
theorem puts (es : List (Entry I)) (h : d.Steady)
    (he : ∀ e ∈ es, e.kind.isConfChange = false) : ∀ x ∈ d.puts es, x.Steady := by
  induction es generalizing d with
  | nil => exact fun x hx => absurd hx not_mem_nil
  | cons e es ih =>
    have hp : (d.put e).Steady := h.put (he e List.mem_cons_self)
    intro x hx
    rcases List.mem_cons.mp hx with rfl | hx
    · exact hp
    · exact ih hp (fun y hy => he y (List.mem_cons_of_mem _ hy)) x hx

omit [LinearOrder I] in
theorem compact (h : d.Steady) (n : Index) : (d.compact n).Steady := fun x hx =>
  h x (List.mem_of_mem_drop hx)

end LogImage.Steady

variable {l : LogStore I}

omit [LinearOrder I] in
theorem steady_submitAppend (h : ∀ d ∈ l.images, d.Steady) (id : OpId)
    {e : Entry I} {es : List (Entry I)} (he : ∀ x ∈ e :: es, x.kind.isConfChange = false) :
    ∀ d ∈ (l.submitAppend id (e :: es)).images, d.Steady := by
  rw [LogStore.submitAppend_images]
  intro d hd
  rcases mem_append.mp hd with hd | hd
  · exact h d hd
  · exact LogImage.Steady.puts _ (h _ l.visible_mem) he d hd

omit [LinearOrder I] in
theorem steady_compact (h : ∀ d ∈ l.images, d.Steady) (n : Index) : ∀ d ∈ (l.compact n).images, d.Steady := by
  unfold LogStore.compact
  split
  · intro d hd
    rw [LogStore.images_eq, Fifo.images_append] at hd
    rcases mem_append.mp hd with hd | hd
    · exact h d hd
    · rw [mem_singleton.mp hd]
      exact (h _ l.visible_mem).compact n
  · exact h

omit [LinearOrder I] in
theorem steady_restore (h : ∀ d ∈ l.images, d.Steady) (n : Index) (t : Term) :
    ∀ d ∈ (l.restore n t).images, d.Steady := by
  intro d hd
  rw [LogStore.images_eq, LogStore.restore, Fifo.images_append] at hd
  rcases mem_append.mp hd with hd | hd
  · exact h d hd
  · rw [mem_singleton.mp hd]
    exact fun e he => absurd he not_mem_nil

/-- The snapshots of the store are of the configuration `cs`. -/
def StableImage.Steady (cs : ConfState I) (im : StableImage I) : Prop :=
  ∀ p, im.snapshot = some p → p.1.conf = cs

omit [LinearOrder I] in
theorem steady_stage {cs : ConfState I} {st : StableStore I} {im : StableImage I} {d : StableDone}
    (h : ∀ im ∈ st.images, im.Steady cs) (hi : im.Steady cs) :
    ∀ x ∈ ({ st with staged := st.staged ++ [(im, d)] } : StableStore I).images, x.Steady cs := by
  intro x hx
  have hx : x ∈ Fifo.images st.durable (st.staged ++ [(im, d)]) := hx
  rw [Fifo.images_append] at hx
  rcases mem_append.mp hx with hx | hx
  · exact h x hx
  · rw [mem_singleton.mp hx]
    exact hi

namespace Endpoint

variable {mono : Prop} {now : Instant} {inp : Input I} {cs : ConfState I} {s s' : Endpoint I M}

structure Steady (cs : ConfState I) (s : Endpoint I M) : Prop where
  log : ∀ d ∈ s.log.images, d.Steady
  slot : ∀ im ∈ s.stable.images, im.Steady cs
  out : ∀ o ∈ s.outgoing, SteadyMessage cs s.config.id o.message
  conf : s.poisoned = false → s.tracker.confState = cs
  install : s.poisoned = false → ∀ id m snap l,
    s.snapshot.pendingInstall = some (id, m, snap, l) → m.conf = cs
  farewells : s.poisoned = false → s.pendingFarewells = []

namespace Steady

omit [LinearOrder I] in
theorem of_frame (h : Steady cs s) (config : s'.config = s.config)
    (log : s'.log.images = s.log.images) (slot : s'.stable.images = s.stable.images)
    (out : s'.outgoing = s.outgoing) (live : s'.poisonReason = s.poisonReason)
    (conf : s'.tracker.confState = s.tracker.confState)
    (install : s'.snapshot.pendingInstall = s.snapshot.pendingInstall)
    (farewells : s'.pendingFarewells = s.pendingFarewells) : Steady cs s' := by
  have hl : s'.poisoned = s.poisoned := congrArg Option.isSome live
  exact ⟨log ▸ h.log, slot ▸ h.slot, by rw [out, config]; exact h.out,
    by rw [hl, conf]; exact h.conf, by rw [hl, install]; exact h.install,
    by rw [hl, farewells]; exact h.farewells⟩

omit [LinearOrder I] in
theorem of_dead (h : Steady cs s) (dead : s'.poisoned = true) (config : s'.config = s.config)
    (log : s'.log = s.log) (slot : s'.stable = s.stable)
    (out : ∀ o ∈ s'.outgoing, o ∈ s.outgoing) : Steady cs s' := by
  have absurd_live : s'.poisoned = false → False := by simp [dead]
  exact ⟨log ▸ h.log, slot ▸ h.slot, fun o ho => config ▸ h.out o (out o ho),
    fun hl => (absurd_live hl).elim, fun hl => (absurd_live hl).elim, fun hl => (absurd_live hl).elim⟩

omit [LinearOrder I] in
theorem of_core (h : Steady cs s) (hc : s'.core = s.core) : Steady cs s' := by
  refine h.of_frame (congrArg Core.config hc) ?_ ?_ (congrArg Core.outgoing hc)
    (congrArg Core.poisonReason hc) (congrArg Core.conf hc) (congrArg Core.pendingInstall hc)
    (congrArg Core.pendingFarewells hc)
  · rw [show s'.log = s.log from congrArg Core.log hc]
  · rw [show s'.stable = s.stable from congrArg Core.stable hc]

omit [LinearOrder I] in
theorem send (h : Steady cs s) {dest : I} {m : Message I} (hm : SteadyMessage cs s.config.id m) :
    Steady cs (s.send dest m) := by
  rw [send_eq]
  refine ⟨h.log, h.slot, fun o ho => ?_, h.conf, h.install, h.farewells⟩
  rcases mem_append.mp ho with ho | ho
  · exact h.out o ho
  split at ho
  · exact absurd ho not_mem_nil
  · rw [mem_singleton.mp ho]
    exact hm

omit [LinearOrder I] in
theorem foldl {α : Type} {f : Endpoint I M → α → Endpoint I M}
    (hf : ∀ s a, Steady cs s → Steady cs (f s a)) (l : List α) (h : Steady cs s) :
    Steady cs (l.foldl f s) := by
  induction l generalizing s with
  | nil => exact h
  | cons a l ih => exact ih (hf s a h)

section

variable (h : Steady cs s)

include h

omit [LinearOrder I] in
theorem reads (reads : Reads I) : Steady cs { s with reads := reads } := h.of_frame rfl rfl rfl rfl rfl rfl rfl rfl

omit [LinearOrder I] in
theorem emitReadState (index : Index) (context : Bytes) : Steady cs (s.emitReadState index context) := by
  unfold Endpoint.emitReadState
  split
  · exact h
  · exact h.of_frame rfl rfl rfl rfl rfl rfl rfl rfl

omit [LinearOrder I] in
theorem emitOrReplyRead (index : Index) (context : Bytes) (reqFrom : Option I) :
    Steady cs (s.emitOrReplyRead index context reqFrom) := by
  unfold Endpoint.emitOrReplyRead
  split
  · exact h.emitReadState _ _
  · exact h.send trivial

omit [LinearOrder I] in
theorem confirmReads (token : Bytes) : Steady cs (s.confirmReads token) :=
  foldl (fun _ (st : ReadIndexStatus I) hs => hs.emitOrReplyRead st.index st.context st.reqFrom) _ (h.reads _)

theorem onReadIndexResponse (sender : I) (r : ReadIndexResponse I) : Steady cs (s.onReadIndexResponse sender r) := by
  unfold Endpoint.onReadIndexResponse
  split
  · exact h
  split
  · exact h
  simp only
  split
  · exact h.reads _
  · exact (h.reads _).emitReadState _ _

omit [LinearOrder I] in
theorem write (id : OpId) (hs : HardState I) : ∀ im ∈ (s.stable.submitWrite id hs).images, im.Steady cs :=
  steady_stage h.slot fun p hp => h.slot _ s.stable.visible_mem p hp

/-- An entry that changes no configuration keeps the tracker. -/
theorem applyEntry {e : Entry I} (he : s.log.visible.get e.index = some e) : Steady cs (s.applyEntry e) := by
  have hm : e ∈ s.log.visible.entries := by
    unfold LogImage.get at he
    split at he
    · exact List.mem_of_getElem? he
    · cases he
  have hn : e.kind.isConfChange = false := h.log _ s.log.visible_mem e hm
  have dies : ∀ reason, Steady cs (s.poison reason) := fun reason =>
    h.of_dead (poisoned_poison reason) rfl rfl rfl fun _ ho => ho
  unfold Endpoint.applyEntry
  split
  · exact dies _
  split
  · split
    · exact dies _
    · split
      · exact dies _
      · exact h.of_frame rfl rfl rfl rfl rfl rfl rfl rfl
  · exact h.of_frame rfl rfl rfl rfl rfl rfl rfl rfl
  · exact dies _
  · next hk => simp [hk, EntryKind.isConfChange] at hn
  · exact h.of_frame rfl rfl rfl rfl rfl rfl rfl rfl

end

end Steady

omit [LinearOrder I] in
theorem Sendable.steady {dest : I} {m : Message I} (h : Steady cs s)
    (ok : Sendable now inp s dest m) : SteadyMessage cs s.config.id m := by
  cases m with
  | voteResponse => exact ok.1
  | appendEntries =>
    obtain ⟨-, -, -, -, -, -, hp, -⟩ := ok
    exact fun e he => h.log _ s.log.visible_mem e (List.mem_of_mem_drop (hp.subset he))
  | installSnapshot =>
    obtain ⟨-, -, -, blob, hs, -⟩ := ok
    exact h.slot _ s.stable.visible_mem _ hs
  | _ => trivial

omit [LinearOrder I] in
theorem Steady.of_acks (h : Steady cs s) (acks : Acks s s') : Steady cs s' := by
  have held (l a b c) : Steady cs (s.withGates l a b c) := h.of_frame rfl rfl rfl rfl rfl rfl rfl rfl
  cases acks with
  | hold => exact held _ _ _ _
  | append | snapshot => exact (held _ _ _ _).send trivial

theorem Step.steady (joint : cs.votersOutgoing = ∅) (st : Step mono now inp s s')
    (h : Steady cs s) (hi : SteadyInput cs inp) : Steady cs s' := by
  cases st with
  | idle hc => exact h.of_core hc
  | die reason => exact h.of_dead (poisoned_poison reason) rfl rfl rfl fun _ ho => ho
  | junk dead config log stable id outgoing =>
    exact h.of_dead dead config log stable fun _ ho => outgoing.subset ho
  | adopt | follow | preCampaign | stepDown | retire =>
    simp only [adoptTerm, followLeader, startPreCampaign, stepDownToFollower]
    rw [setLeader_eq]
    exact h.of_frame rfl rfl rfl rfl rfl rfl rfl rfl
  | campaign live mint | cast live mint | write live mint | rewrite live mint =>
    simp only [startCampaign_eq live mint, castVote_eq live mint, submitHardState_eq live mint, mintWrite_eq live mint]
    exact ⟨h.log, h.write _ _, h.out, h.conf, h.install, h.farewells⟩
  | lead =>
    unfold resetLeader
    rw [setLeader_eq]
    simp only
    have hf : s.poisoned = false → rearmFarewells s.tracker s.pendingFarewells = [] := fun hl => by
      rw [h.farewells hl]
      rfl
    split <;> exact ⟨h.log, h.slot, h.out, h.conf, h.install, hf⟩
  | send live ok => exact h.send (ok.steady h)
  | appendOwn live mint role index_eq conf =>
    rw [appendOwn_eq live mint]
    refine ⟨steady_submitAppend h.log _ fun x hx => ?_, h.slot, h.out, h.conf, h.install, h.farewells⟩
    rw [mem_singleton.mp hx]
    by_contra hk
    rcases conf ((Bool.not_eq_false _).mp hk :) with hj | hj
    · have hout : s.tracker.voters.outgoing.ids = ∅ := (congrArg ConfState.votersOutgoing (h.conf live)).trans joint
      simp [Tracker.isJoint, hout] at hj
    · exact hi.change hj
  | overwrite live mint msg term role conflict =>
    rw [overwrite_eq live mint]
    obtain ⟨pre, hsplit, -⟩ := conflict.split
    refine ⟨steady_submitAppend h.log _ fun x hx => ?_, h.slot, fun o ho => ?_, h.conf, h.install, h.farewells⟩
    · refine hi.message _ _ msg x ?_
      rw [hsplit]
      exact List.mem_append_right _ hx
    · exact h.out o (List.mem_of_mem_filter ho)
  | ackAppend | releaseAck | ackSnapshot | ackShortcut | flushShortcut | flushSnapshotGate | flushAppendGate =>
    exact h.of_acks (by simp)
  | appended =>
    unfold noteAppended
    split <;> exact h.of_frame rfl rfl rfl rfl rfl rfl rfl rfl
  | apply live running entry => exact h.applyEntry entry
  | capture live mint =>
    unfold Endpoint.capture
    rw [submitSnapshot_eq live mint]
    refine ⟨h.log, steady_stage h.slot fun p hp => ?_, h.out, h.conf, h.install, h.farewells⟩
    rw [← Option.some.inj hp]
    exact h.conf live
  | compacted =>
    exact ⟨steady_compact h.log _, h.slot, h.out, h.conf, h.install, h.farewells⟩
  | beginInstall live mint msg term role slot =>
    rw [submitSnapshot_eq live mint]
    have hconf := hi.message _ _ msg
    refine ⟨h.log, steady_stage h.slot fun p hp => ?_, h.out, h.conf, fun _ id m snap l hp => ?_, h.farewells⟩
    · rw [← Option.some.inj hp]
      exact hconf
    · have hp := Option.some.inj hp
      simp only [Prod.mk.injEq] at hp
      rw [← hp.2.1]
      exact hconf
  | dropInstall =>
    exact ⟨h.log, h.slot, h.out, h.conf, fun _ _ _ _ _ hp => absurd (show none = some _ from hp) (by simp), h.farewells⟩
  | install live role pending covers ahead foreign restored slot =>
    exact ⟨steady_restore h.log _ _, h.slot, fun o ho => h.out o (List.mem_of_mem_filter ho), h.conf,
      fun _ _ _ _ _ hp => absurd (show none = some _ from hp) (by simp), h.farewells⟩
  | retrack live role slot =>
    refine ⟨h.log, h.slot, h.out, fun _ => ?_, h.install, fun hl => ?_⟩
    · exact h.slot _ List.mem_cons_self _ slot
    · show List.filter _ s.pendingFarewells = []
      rw [h.farewells hl, List.filter_nil]
  | receive live msg term chunk =>
    obtain ⟨n, stable, hc, hst⟩ := chunk
    obtain ⟨sg, rfl⟩ := acceptSnapshotChunk_stable hc
    have hs : Steady cs { s with stable := { s.stable with staging := sg } } :=
      h.of_frame rfl rfl rfl rfl rfl rfl rfl rfl
    exact hs.of_core hst
  | farewell live role owed =>
    rw [h.farewells live] at owed
    exact absurd owed not_mem_nil
  | farewells live fewer =>
    exact ⟨h.log, h.slot, h.out, h.conf, h.install, fun hl => fewer (h.farewells hl)⟩
  | confirm => exact h.confirmReads _
  | leaseRead => exact (h.reads _).emitOrReplyRead _ _ _
  | forward => exact (h.reads _).send trivial
  | answered => exact h.onReadIndexResponse _ _
  | renewLease =>
    unfold Endpoint.renewLease
    simp only
    split
    · exact h.of_frame rfl rfl rfl rfl rfl rfl rfl rfl
    · exact h
  | _ => exact h.of_frame rfl rfl rfl rfl rfl rfl rfl rfl

theorem Does.steady (joint : cs.votersOutgoing = ∅) {brings : Input I → Prop}
    (hb : ∀ inp, brings inp → SteadyInput cs inp) (st : Does mono now brings s s')
    (h : Steady cs s) : Steady cs s' := by
  induction st with
  | refl => exact h
  | tail _ st ih =>
    obtain ⟨inp, hin, st⟩ := st
    exact st.steady joint ih (hb inp hin)

end Endpoint

end Sailing
