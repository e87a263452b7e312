import Sailing.Step.Relation
import Sailing.Lib.Fifo

/-!
# Operation ids

Ids are minted in increasing order and a store completes its writes in the
order they were submitted, so a completion that has surfaced proves that no
write with a smaller id is still staged.
-/

namespace Sailing

namespace OpId

instance : LT OpId := ⟨fun a b => a.epoch < b.epoch ∨ a.epoch = b.epoch ∧ a.seq < b.seq⟩

variable {a b : OpId}

theorem lt_def : a < b ↔ a.epoch < b.epoch ∨ a.epoch = b.epoch ∧ a.seq < b.seq := Iff.rfl

theorem lt_trans {c : OpId} (h : a < b) (k : b < c) : a < c := by
  rw [lt_def] at *
  omega

theorem lt_irrefl (a : OpId) : ¬a < a := by
  rw [lt_def]
  omega

theorem le_iff : a.le b = true ↔ a = b ∨ a < b := by
  obtain ⟨e, n⟩ := a
  obtain ⟨f, m⟩ := b
  simp only [le, lt_def, Bool.or_eq_true, decide_eq_true_eq, Bool.and_eq_true, beq_iff_eq, OpId.mk.injEq]
  omega

theorem lt_next (h : a.next ≠ a) : a < a.next := by
  obtain ⟨e, n⟩ := a
  rw [lt_def]
  simp only [next, Sailing.next] at h ⊢
  split at h <;> simp_all

theorem lt_firstOfEpoch {epoch : Nat} (h : a.epoch < epoch) : a < firstOfEpoch epoch := .inl h

end OpId

/-- The ids of one store: `staged` writes in order, then those already done,
all minted before `bound`. -/
structure Ids (staged done : List OpId) (bound : OpId) : Prop where
  ordered : staged.Pairwise (· < ·)
  later : ∀ a ∈ done, ∀ b ∈ staged, a < b
  minted : ∀ a ∈ done ++ staged, a < bound

namespace Ids

variable {staged done : List OpId} {a bound : OpId}

theorem bound_notMem (h : Ids staged done bound) : bound ∉ done ++ staged := fun hb =>
  OpId.lt_irrefl _ (h.minted _ hb)

theorem submit (h : Ids staged done bound) (hb : bound.next ≠ bound) :
    Ids (staged ++ [bound]) done bound.next where
  ordered := by
    rw [List.pairwise_append]
    refine ⟨h.ordered, List.pairwise_singleton _ _, ?_⟩
    intro a ha b hb
    rw [List.mem_singleton.mp hb]
    exact h.minted _ (List.mem_append_right _ ha)
  later := by
    intro a ha b hb
    rcases List.mem_append.mp hb with hb | hb
    · exact h.later a ha b hb
    · rw [List.mem_singleton.mp hb]
      exact h.minted _ (List.mem_append_left _ ha)
  minted := by
    intro a ha
    rw [← List.append_assoc] at ha
    rcases List.mem_append.mp ha with ha | ha
    · exact OpId.lt_trans (h.minted _ ha) (OpId.lt_next hb)
    · rw [List.mem_singleton.mp ha]
      exact OpId.lt_next hb

theorem mono (h : Ids staged done bound) {bound' : OpId} (hb : bound = bound' ∨ bound < bound') :
    Ids staged done bound' where
  ordered := h.ordered
  later := h.later
  minted := fun a ha => by
    rcases hb with rfl | hb
    · exact h.minted a ha
    · exact OpId.lt_trans (h.minted a ha) hb

theorem sync (h : Ids (a :: staged) done bound) : Ids staged (done ++ [a]) bound where
  ordered := (List.pairwise_cons.mp h.ordered).2
  later := by
    intro b hb c hc
    rcases List.mem_append.mp hb with hb | hb
    · exact h.later b hb c (List.mem_cons_of_mem _ hc)
    · rw [List.mem_singleton.mp hb]
      exact (List.pairwise_cons.mp h.ordered).1 c hc
  minted := by
    intro b hb
    refine h.minted b ?_
    simp only [List.mem_append, List.mem_cons] at hb ⊢
    tauto

theorem done_subset (h : Ids staged done bound) {done' : List OpId} (hs : done' ⊆ done) : Ids staged done' bound where
  ordered := h.ordered
  later := fun b hb => h.later b (hs hb)
  minted := fun b hb => h.minted b (by
    rcases List.mem_append.mp hb with hb | hb
    · exact List.mem_append_left _ (hs hb)
    · exact List.mem_append_right _ hb)

/-- A completed write and everything before it is no longer staged. -/
theorem notMem_staged (h : Ids staged done bound) {b : OpId} (ha : a ∈ done) (hb : b.le a = true) :
    b ∉ staged := fun hs => by
  have hab := h.later a ha b hs
  rcases OpId.le_iff.mp hb with rfl | hba
  · exact OpId.lt_irrefl _ hab
  · exact OpId.lt_irrefl _ (OpId.lt_trans hab hba)

end Ids

/-! ## The ids of the two stores -/

def StableDone.id : StableDone → OpId
  | .wrote id => id
  | .snapshotWritten id => id

def LogDone.id? : LogDone → Option OpId
  | .appended id => some id
  | .compacted _ => none

variable {I : Type} [LinearOrder I] {M : StateMachine}

namespace StableStore

def doneIds (s : StableStore I) : List OpId :=
  s.done.map StableDone.id ++ s.ready.filterMap (·.map StableDone.id)

end StableStore

namespace LogStore

def stagedIds (s : LogStore I) : List OpId := s.staged.filterMap (·.2.bind LogDone.id?)

def doneIds (s : LogStore I) : List OpId :=
  s.done.filterMap LogDone.id? ++ s.ready.filterMap (·.bind LogDone.id?)

end LogStore

end Sailing
