import Sailing.Model.Quorum
import Mathlib.Data.Finset.Union
import Mathlib.Tactic.SplitIfs

/-!
# Tallying votes

`vote_result` over a partial assignment of votes. What it calls won stays won and
what it calls lost stays lost, however the missing votes come in; and two tallies
that are won share a voter in each half.
-/

namespace Sailing

variable {I : Type} [LinearOrder I]

/-- The votes `votes` with the missing ones as in `fill`. -/
def completed (votes : I → Option Bool) (fill : I → Bool) (id : I) : Option Bool :=
  votes id <|> some (fill id)

/-- `votes'` has all the votes of `votes`. -/
def Extends (votes votes' : I → Option Bool) : Prop := ∀ id b, votes id = some b → votes' id = some b

namespace MajorityConfig

variable (c : MajorityConfig I) {votes votes' : I → Option Bool}

def granted (votes : I → Option Bool) : Finset I := c.ids.filter fun id => votes id = some true

def missing (votes : I → Option Bool) : Finset I := c.ids.filter fun id => votes id = none

/-- The granted votes are more than half. -/
def Granted (votes : I → Option Bool) : Prop := c.ids.card < 2 * (c.granted votes).card

/-- More than half are granted or can still be. -/
def Winnable (votes : I → Option Bool) : Prop :=
  c.ids.card < 2 * ((c.granted votes).card + (c.missing votes).card)

omit [LinearOrder I] in
theorem voteResult_won_iff : c.voteResult votes = .won ↔ (c.ids.Nonempty → c.Granted votes) := by
  unfold voteResult Granted granted
  rcases c.ids.eq_empty_or_nonempty with he | hn
  · simp [he]
  have card := hn.card_pos
  simp only [card.ne', if_false, hn, forall_const]
  split_ifs <;> simp <;> omega

omit [LinearOrder I] in
theorem voteResult_lost_iff : c.voteResult votes = .lost ↔ c.ids.Nonempty ∧ ¬ c.Winnable votes := by
  unfold voteResult Winnable granted missing
  rcases c.ids.eq_empty_or_nonempty with he | hn
  · simp [he]
  have card := hn.card_pos
  simp only [card.ne', if_false, hn, true_and]
  split_ifs <;> simp <;> omega

/-- Granting all that is missing is the best that can happen. -/
theorem granted_completed : c.granted (completed votes fun _ => true) = c.granted votes ∪ c.missing votes := by
  ext id
  unfold granted missing completed
  cases hv : votes id <;> simp [hv]

theorem winnable_iff : c.Winnable votes ↔ c.Granted (completed votes fun _ => true) := by
  have apart : Disjoint (c.granted votes) (c.missing votes) := by
    refine Finset.disjoint_filter.mpr fun id _ h => ?_
    rw [h]
    exact Option.some_ne_none _
  unfold Winnable Granted
  rw [granted_completed, Finset.card_union_of_disjoint apart]

omit [LinearOrder I] in
theorem Granted.mono {c : MajorityConfig I} (h : c.Granted votes) (more : c.granted votes ⊆ c.granted votes') :
    c.Granted votes' := by
  have := Finset.card_le_card more
  unfold Granted at h ⊢
  omega

omit [LinearOrder I] in
theorem granted_subset (more : Extends votes votes') : c.granted votes ⊆ c.granted votes' :=
  Finset.monotone_filter_right _ fun id _ h => more id true h

omit [LinearOrder I] in
/-- A later tally has nothing that the best completion of an earlier one lacks. -/
theorem granted_subset_completed (more : Extends votes votes') :
    c.granted votes' ⊆ c.granted (completed votes fun _ => true) := by
  refine Finset.monotone_filter_right _ fun id _ h => ?_
  unfold completed
  cases hv : votes id with
  | none => rfl
  | some b => rw [more id b hv] at h; simpa using h

theorem Granted.meet {c : MajorityConfig I} (h : c.Granted votes) (k : c.Granted votes') :
    ∃ id ∈ c.ids, votes id = some true ∧ votes' id = some true := by
  have inter := Finset.card_inter_add_card_union (c.granted votes) (c.granted votes')
  have union : (c.granted votes ∪ c.granted votes').card ≤ c.ids.card :=
    Finset.card_le_card (Finset.union_subset (Finset.filter_subset _ _) (Finset.filter_subset _ _))
  unfold Granted at h k
  have pos : 0 < (c.granted votes ∩ c.granted votes').card := by omega
  obtain ⟨id, hid⟩ := Finset.card_pos.mp pos
  obtain ⟨h₁, h₂⟩ := Finset.mem_inter.mp hid
  exact ⟨id, (Finset.mem_filter.mp h₁).1, (Finset.mem_filter.mp h₁).2, (Finset.mem_filter.mp h₂).2⟩

end MajorityConfig

namespace JointConfig

variable (c : JointConfig I) {votes votes' : I → Option Bool}

/-- The granted votes are a majority of each half that has voters. -/
def Granted (votes : I → Option Bool) : Prop :=
  (c.incoming.ids.Nonempty → c.incoming.Granted votes) ∧
    (c.outgoing.ids.Nonempty → c.outgoing.Granted votes)

omit [LinearOrder I] in
theorem voteResult_won_iff : c.voteResult votes = .won ↔ c.Granted votes := by
  unfold Granted
  rw [← c.incoming.voteResult_won_iff, ← c.outgoing.voteResult_won_iff]
  unfold voteResult
  cases c.incoming.voteResult votes <;> cases c.outgoing.voteResult votes <;> decide

omit [LinearOrder I] in
theorem voteResult_lost_iff_half : c.voteResult votes = .lost ↔
    c.incoming.voteResult votes = .lost ∨ c.outgoing.voteResult votes = .lost := by
  unfold voteResult
  cases c.incoming.voteResult votes <;> cases c.outgoing.voteResult votes <;> decide

/-- Lost is not won by granting all that is missing. -/
theorem voteResult_lost_iff_best : c.voteResult votes = .lost ↔ ¬ c.Granted (completed votes fun _ => true) := by
  rw [voteResult_lost_iff_half, c.incoming.voteResult_lost_iff, c.outgoing.voteResult_lost_iff,
    c.incoming.winnable_iff, c.outgoing.winnable_iff]
  unfold Granted
  tauto

omit [LinearOrder I] in
theorem Granted.mono {c : JointConfig I} (h : c.Granted votes)
    (incoming : c.incoming.granted votes ⊆ c.incoming.granted votes')
    (outgoing : c.outgoing.granted votes ⊆ c.outgoing.granted votes') : c.Granted votes' :=
  ⟨fun hn => (h.1 hn).mono incoming, fun hn => (h.2 hn).mono outgoing⟩

omit [LinearOrder I] in
theorem extends_completed (fill : I → Bool) : Extends votes (completed votes fill) := by
  intro id b h
  simp [completed, h]

theorem voteResult_lost_iff : c.voteResult votes = .lost ↔ ¬ ∃ fill, c.voteResult (completed votes fill) = .won := by
  rw [voteResult_lost_iff_best, not_iff_not]
  refine ⟨fun h => ⟨fun _ => true, c.voteResult_won_iff.mpr h⟩, fun h => ?_⟩
  obtain ⟨fill, h⟩ := h
  exact (c.voteResult_won_iff.mp h).mono (c.incoming.granted_subset_completed (extends_completed fill))
    (c.outgoing.granted_subset_completed (extends_completed fill))

omit [LinearOrder I] in
theorem voteResult_won_of_extends (won : c.voteResult votes = .won) (more : Extends votes votes') :
    c.voteResult votes' = .won :=
  c.voteResult_won_iff.mpr ((c.voteResult_won_iff.mp won).mono
    (c.incoming.granted_subset more) (c.outgoing.granted_subset more))

theorem voteResult_lost_of_extends (lost : c.voteResult votes = .lost) (more : Extends votes votes') :
    c.voteResult votes' = .lost := by
  rw [voteResult_lost_iff] at lost ⊢
  rintro ⟨fill, won⟩
  -- the same fill, with the votes that came in, completes the earlier tally
  refine lost ⟨fun id => (completed votes' fill id).getD false, ?_⟩
  have same : completed votes (fun id => (completed votes' fill id).getD false) = completed votes' fill := by
    funext id
    unfold completed
    cases hv : votes id with
    | none => cases hv' : votes' id <;> simp [hv']
    | some b => rw [more id b hv]; rfl
  rw [same]
  exact won

/-- A tally is exact, stays as it is once decided, and two that are won share a voter
in each half. -/
theorem voteResult_exact (votes : I → Option Bool) :
    (c.voteResult votes = .won ↔ c.Granted votes) ∧
    (c.voteResult votes = .lost ↔ ¬ ∃ fill, c.voteResult (completed votes fill) = .won) ∧
    (c.voteResult votes = .pending ↔
      ¬ c.Granted votes ∧ ∃ fill, c.voteResult (completed votes fill) = .won) ∧
    (∀ votes', Extends votes votes' → c.voteResult votes ≠ .pending →
      c.voteResult votes' = c.voteResult votes) ∧
    ∀ votes', c.voteResult votes = .won → c.voteResult votes' = .won →
      ∀ half ∈ [c.incoming, c.outgoing], half.ids.Nonempty →
        ∃ id ∈ half.ids, votes id = some true ∧ votes' id = some true := by
  have won : c.voteResult votes = .won ↔ c.Granted votes := c.voteResult_won_iff
  have lost : c.voteResult votes = .lost ↔ ¬ ∃ fill, c.voteResult (completed votes fill) = .won :=
    c.voteResult_lost_iff
  refine ⟨won, lost, ?_, ?_, ?_⟩
  · rw [← won, ← not_iff_comm.mp lost.symm]
    cases c.voteResult votes <;> simp
  · intro votes' more decided
    cases result : c.voteResult votes with
    | won => exact c.voteResult_won_of_extends result more
    | lost => exact c.voteResult_lost_of_extends result more
    | pending => exact absurd result decided
  · intro votes' h k half mem hn
    have h := won.mp h
    have k := c.voteResult_won_iff.mp k
    simp only [List.mem_cons, List.not_mem_nil, or_false] at mem
    rcases mem with rfl | rfl
    · exact (h.1 hn).meet (k.1 hn)
    · exact (h.2 hn).meet (k.2 hn)

end JointConfig

end Sailing
