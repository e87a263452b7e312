import Mathlib.Data.Finset.Basic
import Mathlib.Logic.Relation

/-!
# Elections by durable votes

A voter keeps a durable ballot, a term and a vote, that only moves forward. A
vote is granted only while it is durable, and a candidate leads a term once a
quorum has granted it theirs. Then no term has two leaders (`leader_unique`),
whatever else the voters remember or forget.

Quorums are any family of sets that pairwise meet.
-/

namespace Voting

variable {I : Type} [DecidableEq I]

abbrev Ballot (I : Type) := Nat × Option I

/-- `b` may follow `a`: a later term, or the same one with the vote kept. -/
def Le (a b : Ballot I) : Prop := a.1 < b.1 ∨ a.1 = b.1 ∧ (a.2 = none ∨ a.2 = b.2)

omit [DecidableEq I] in
theorem Le.refl (a : Ballot I) : Le a a := .inr ⟨rfl, .inr rfl⟩

omit [DecidableEq I] in
theorem Le.trans {a b c : Ballot I} (h : Le a b) (k : Le b c) : Le a c := by
  rcases h with h | ⟨h, h'⟩ <;> rcases k with k | ⟨k, k'⟩
  · exact .inl (h.trans k)
  · exact .inl (k ▸ h)
  · exact .inl (h ▸ k)
  refine .inr ⟨h.trans k, ?_⟩
  rcases h' with h' | h'
  · exact .inl h'
  · rw [h']
    exact k'

omit [DecidableEq I] in
theorem Le.term_le {a b : Ballot I} (h : Le a b) : a.1 ≤ b.1 := by
  rcases h with h | h
  · exact h.le
  · exact h.1.le

omit [DecidableEq I] in
/-- In the same term a cast vote is the vote. -/
theorem Le.vote_eq {t : Nat} {c : I} {b : Ballot I} (h : Le (t, some c) b) (ht : b.1 = t) : b.2 = some c := by
  rcases h with h | ⟨-, h | h⟩
  · exact absurd ht h.ne'
  · cases h
  · exact h.symm

structure Election (I : Type) where
  term : Nat
  leader : I
  quorum : Finset I

structure State (I : Type) where
  /-- The durable ballots. -/
  saved : I → Ballot I
  /-- `(v, t, c)`: voter `v` granted `c` its vote of term `t`. -/
  granted : Set (I × Nat × I)
  /-- In the order they were won. -/
  elections : List (Election I)

def State.initial : State I := ⟨fun _ => (0, none), ∅, []⟩

/-- What the voters can do, for a family `Q` of quorums. -/
inductive Step (Q : Finset I → Prop) (s : State I) : State I → Prop where
  | save (n : I) (b : Ballot I) (above : Le (s.saved n) b) :
      Step Q s { s with saved := Function.update s.saved n b }
  | grant (n c : I) (t : Nat) (durable : s.saved n = (t, some c)) :
      Step Q s { s with granted := insert (n, t, c) s.granted }
  | elect (e : Election I) (quorum : Q e.quorum)
      (votes : ∀ v ∈ e.quorum, (v, e.term, e.leader) ∈ s.granted) :
      Step Q s { s with elections := s.elections ++ [e] }

abbrev Steps (Q : Finset I → Prop) : State I → State I → Prop := Relation.ReflTransGen (Step Q)

/-- The invariant of the voters. -/
structure Inv (Q : Finset I → Prop) (s : State I) : Prop where
  granted : ∀ v t c, (v, t, c) ∈ s.granted → Le (t, some c) (s.saved v)
  once : ∀ v t c c', (v, t, c) ∈ s.granted → (v, t, c') ∈ s.granted → c = c'
  quorum : ∀ e ∈ s.elections, Q e.quorum
  votes : ∀ e ∈ s.elections, ∀ v ∈ e.quorum, (v, e.term, e.leader) ∈ s.granted

variable {Q : Finset I → Prop} {s s' : State I}

omit [DecidableEq I] in
theorem Inv.initial : Inv Q (State.initial : State I) where
  granted _ _ _ h := absurd h (Set.notMem_empty _)
  once _ _ _ _ h := absurd h (Set.notMem_empty _)
  quorum _ h := absurd h List.not_mem_nil
  votes _ h := absurd h List.not_mem_nil

theorem Inv.step (h : Inv Q s) (st : Step Q s s') : Inv Q s' := by
  cases st with
  | save n b above =>
    refine ⟨fun v t c hg => ?_, h.once, h.quorum, h.votes⟩
    rcases eq_or_ne v n with rfl | hv
    · simpa using (h.granted v t c hg).trans above
    · simpa [hv] using h.granted v t c hg
  | grant n c t durable =>
    -- a second grant in one term would contradict the durable ballot
    have key : ∀ c', (n, t, c') ∈ s.granted → c' = c := fun c' hc' => by
      have := (h.granted _ _ _ hc').vote_eq (by rw [durable])
      rw [durable] at this
      exact (Option.some.inj this).symm
    refine ⟨?_, ?_, h.quorum, fun e he v hv => .inr (h.votes e he v hv)⟩
    · rintro v t' c' (hv | hv)
      · simp only [Prod.mk.injEq] at hv
        obtain ⟨rfl, rfl, rfl⟩ := hv
        exact durable ▸ Le.refl _
      · exact h.granted v t' c' hv
    · rintro v t' a b (ha | ha) (hb | hb)
      · simp only [Prod.mk.injEq] at ha hb
        rw [ha.2.2, hb.2.2]
      · simp only [Prod.mk.injEq] at ha
        obtain ⟨rfl, rfl, rfl⟩ := ha
        exact (key b hb).symm
      · simp only [Prod.mk.injEq] at hb
        obtain ⟨rfl, rfl, rfl⟩ := hb
        exact key a ha
      · exact h.once v t' a b ha hb
  | elect e quorum votes =>
    refine ⟨h.granted, h.once, fun e' he => ?_, fun e' he v hv => ?_⟩
    · rcases List.mem_append.mp he with he | he
      · exact h.quorum e' he
      · rw [List.mem_singleton.mp he]
        exact quorum
    · rcases List.mem_append.mp he with he | he
      · exact h.votes e' he v hv
      · rw [List.mem_singleton.mp he] at hv ⊢
        exact votes v hv

theorem Inv.steps (h : Inv Q s) (st : Steps Q s s') : Inv Q s' := by
  induction st with
  | refl => exact h
  | tail _ st ih => exact ih.step st

theorem Steps.mono (st : Steps Q s s') : s.granted ⊆ s'.granted ∧ s.elections ⊆ s'.elections := by
  induction st with
  | refl => exact ⟨subset_rfl, List.Subset.refl _⟩
  | tail _ st ih =>
    cases st with
    | save => exact ih
    | grant => exact ⟨fun _ hg => .inr (ih.1 hg), ih.2⟩
    | elect => exact ⟨ih.1, fun _ he => List.mem_append_left _ (ih.2 he)⟩

/-- Any votes that are durable can be granted, one after the other. -/
theorem Steps.grants (n : I) (l : List (Nat × I)) (h : ∀ p ∈ l, s.saved n = (p.1, some p.2)) :
    ∃ s', Steps Q s s' ∧ s'.saved = s.saved ∧ s'.elections = s.elections ∧ ∀ p ∈ l, (n, p.1, p.2) ∈ s'.granted := by
  induction l generalizing s with
  | nil => exact ⟨s, .refl, rfl, rfl, by simp⟩
  | cons p l ih =>
    have st : Step Q s _ := .grant n p.2 p.1 (h p List.mem_cons_self)
    obtain ⟨s', hs, hsaved, helect, hg⟩ := ih (s := { s with granted := insert (n, p.1, p.2) s.granted })
      fun q hq => h q (List.mem_cons_of_mem _ hq)
    refine ⟨s', .head st hs, hsaved, helect, fun q hq => ?_⟩
    rcases List.mem_cons.mp hq with rfl | hq
    · exact (Steps.mono hs).1 (Set.mem_insert _ _)
    · exact hg q hq

/-- **No term has two leaders.** -/
theorem Inv.leader_unique (h : Inv Q s) (meet : ∀ A B, Q A → Q B → (A ∩ B).Nonempty)
    {e e' : Election I} (he : e ∈ s.elections) (he' : e' ∈ s.elections)
    (ht : e.term = e'.term) : e.leader = e'.leader := by
  obtain ⟨v, hv⟩ := meet _ _ (h.quorum e he) (h.quorum e' he')
  rw [Finset.mem_inter] at hv
  exact h.once v e.term _ _ (h.votes e he v hv.1) (ht ▸ h.votes e' he' v hv.2)

end Voting
