import Sailing.Run.Ahead
import Sailing.Run.Forward

/-!
# The transfer of a snapshot to a peer

A peer that is handed the snapshot has a boundary above its match and no higher than the slot
(`Progress.Offered`). While captures only raise the slot, that stays so over a whole run.
-/

namespace Sailing

namespace Progress

variable {p q : Progress} {back counted : Prop} {slot : Index}

/-- A peer in transfer is handed more than it has, and no more than the slot. -/
def Offered (slot : Index) (p : Progress) : Prop :=
  ∀ pending acked total, p.state = .snapshot pending acked total → p.matchIndex < pending ∧ pending ≤ slot

theorem Offered.mono {slot' : Index} (h : p.Offered slot) (le : slot ≤ slot') : p.Offered slot' :=
  fun pending acked total state => ⟨(h pending acked total state).1, (h pending acked total state).2.trans le⟩

theorem Offered.of_probe (h : q.state = .probe) : q.Offered slot := fun _ _ _ state => by
  rw [h] at state
  contradiction

theorem Offered.of_same (h : p.Offered slot) (state : q.state = p.state) (same : q.matchIndex = p.matchIndex) :
    q.Offered slot := fun pending acked total state' => by
  rw [same]
  exact h pending acked total (state ▸ state')

theorem Fresh.offered (h : p.Fresh) : p.Offered slot := by
  obtain ⟨n, maxMsgs, maxBytes, -, rfl⟩ := h
  exact .of_probe rfl

theorem offered_becomeSnapshot (p : Progress) {pending : Index} (total : Nat) (known : pending ≤ slot) :
    (p.becomeSnapshot pending total).Offered slot := by
  unfold becomeSnapshot
  split
  · exact .of_probe rfl
  next above =>
  intro pending' acked total' state
  simp only [ProgressState.snapshot.injEq] at state
  exact ⟨state.1 ▸ not_le.mp above, state.1 ▸ known⟩

theorem offered_snapshotAcked (h : p.Offered slot) (offset : Nat) : (p.snapshotAcked offset).Offered slot := by
  unfold snapshotAcked
  split
  · next pending acked total state =>
    intro pending' acked' total' state'
    simp only [ProgressState.snapshot.injEq] at state'
    exact state'.1 ▸ h pending acked total state
  · exact h

/-- An acknowledgement past the boundary ends the transfer. -/
theorem offered_maybeUpdate (h : p.Offered slot) (n : Index) : (p.maybeUpdate n).1.Offered slot := by
  unfold maybeUpdate
  simp only
  split
  · next pending acked total state =>
    split
    · exact .of_probe rfl
    next short =>
    intro pending' acked' total' state'
    simp only [state, ProgressState.snapshot.injEq] at state'
    have known := h pending acked total state
    exact state'.1 ▸ ⟨max_lt known.1 (not_le.mp short), known.2⟩
  · next away =>
    intro pending acked total state
    exact absurd state (away pending acked total)

theorem Turn.offered (h : Turn back counted slot p q) (o : p.Offered slot) : q.Offered slot := by
  cases h with
  | mark => exact o.of_same rfl rfl
  | sent =>
    unfold sentEntries
    split <;> exact o.of_same rfl rfl
  | probe => exact .of_probe rfl
  | replicate => exact fun _ _ _ state => absurd state (by simp [becomeReplicate])
  | snapshot total known => exact offered_becomeSnapshot p total known
  | acked offset => exact offered_snapshotAcked o offset
  | update n => exact offered_maybeUpdate o n
  | freed =>
    unfold freeInflightOnHeartbeat
    split <;> exact o.of_same rfl rfl
  | reprobe => exact .of_probe rfl

theorem Path.offered (h : Path back counted slot p q) (o : p.Offered slot) : q.Offered slot := by
  induction h with
  | refl => exact o
  | tail _ turn ih => exact turn.offered ih

end Progress

variable {I : Type} [LinearOrder I] {M : StateMachine}

namespace Tracker

variable {adds back counted : Prop} {slot : Index} {t t' : Tracker I}

def Offered (slot : Index) (t : Tracker I) : Prop := ∀ id p, t.progress id = some p → p.Offered slot

omit [LinearOrder I] in
theorem Fresh.offered (h : t.Fresh) : t.Offered slot := fun id p hp => (h id p hp).offered

omit [LinearOrder I] in
theorem Offered.mono {slot' : Index} (h : t.Offered slot) (le : slot ≤ slot') : t.Offered slot' :=
  fun id p hp => (h id p hp).mono le

omit [LinearOrder I] in
theorem Moves.offered (h : t.Moves adds back counted slot t') (o : t.Offered slot) : t'.Offered slot := by
  intro id q hq
  obtain ⟨p, from_, path⟩ := h id q hq
  exact path.offered (from_.elim (o id p) fun fresh => fresh.2.offered)

end Tracker

omit [LinearOrder I] in
theorem Cover.newestSlot_pushSlot {c : Cover I} {x : Option (SnapshotMeta I × Bytes)} {w : OpId → StableDone} :
    (c.pushSlot x w).newestSlot = x := by
  simp [Cover.newestSlot, Fifo.newest, Cover.pushSlot]

omit [LinearOrder I] in
theorem CoverStep.slot_le {mono : Prop} {c c' : Cover I} (st : CoverStep mono c c') (hm : mono) :
    boundary c.newestSlot ≤ boundary c'.newestSlot := by
  have push : ∀ {x : Option (SnapshotMeta I × Bytes)} {w : OpId → StableDone}, boundary c.newestSlot ≤ boundary x →
      boundary c.newestSlot ≤ boundary (c.pushSlot x w).newestSlot := by
    intro x w le
    rwa [Cover.newestSlot_pushSlot]
  cases st with
  | write => exact push le_rfl
  | campaign =>
    have same : boundary c.newestSlot ≤ boundary c.write.newestSlot := push le_rfl
    exact same
  | @capture m blob mint fresh free applied higher | @beginInstall m blob mint fresh higher =>
    have above : boundary c.newestSlot ≤ boundary (c.pushSlot (some (m, blob)) .snapshotWritten).newestSlot := push (higher hm)
    exact above
  | _ => exact le_rfl

namespace Endpoint

variable {mono : Prop} {now : Instant} {inp : Input I} {s s' : Endpoint I M}

theorem Step.slot_le (st : Step True now inp s s') (inv : NodeInv True s) (live' : s'.poisoned = false) :
    s.stable.visible.slot ≤ s'.stable.visible.slot := by
  have live := st.live live'
  rcases st.coverStep inv.ballots (inv.votes live) inv.log (inv.shape live) with covers | ⟨dead, -⟩
  · have le := covers.slot_le trivial
    rw [cover_newestSlot, cover_newestSlot] at le
    exact le
  · exact absurd (dead.symm.trans live') (by simp)

theorem Does.offered {brings : Input I → Prop} (hd : Does True now brings s s') (inv : NodeInv True s)
    (live' : s'.poisoned = false) (h : s.tracker.Offered s.stable.visible.slot) :
    s'.tracker.Offered s'.stable.visible.slot := by
  induction hd with
  | refl => exact h
  | tail hd st ih =>
    obtain ⟨inp, -, st⟩ := st
    have kept := (st.moves live').offered (ih (st.live live'))
    exact kept.mono (st.slot_le (Does.inv hd inv) live')

end Endpoint

end Sailing
