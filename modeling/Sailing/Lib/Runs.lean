import Mathlib.Data.List.Sort
import Mathlib.Data.Set.Card
import Mathlib.Order.Interval.Set.Basic

/-!
# Sets as lists of runs

A list of half-open ranges stands for the set of points they cover (`cover`). Sorted
ranges that overlap or touch are merged by `coalesce`; what comes out is `Separated`,
and a separated list is the list of the maximal runs of the set it covers
(`mem_iff_maximal`), so the number of its ranges is a fact about the set alone
(`ncard_maximalRuns`).
-/

namespace Runs

open List (pairwise_cons mem_cons mem_cons_of_mem mem_cons_self)

variable {α : Type*} [LinearOrder α]

/-- The points of the ranges. -/
def cover (rs : List (α × α)) : Set α := {x | ∃ r ∈ rs, r.1 ≤ x ∧ x < r.2}

/-- Non-empty ranges in order, with a gap between any two. -/
structure Separated (rs : List (α × α)) : Prop where
  proper : ∀ r ∈ rs, r.1 < r.2
  apart : rs.Pairwise fun a b => a.2 < b.1

/-- A range of `S` that cannot be made longer at either end. -/
structure IsMaximalRun (S : Set α) (r : α × α) : Prop where
  proper : r.1 < r.2
  inside : ∀ x, r.1 ≤ x → x < r.2 → x ∈ S
  ends : r.2 ∉ S
  starts : ∀ a < r.1, ∃ x, a ≤ x ∧ x < r.1 ∧ x ∉ S

def maximalRuns (S : Set α) : Set (α × α) := {r | IsMaximalRun S r}

@[simp] theorem cover_nil : cover ([] : List (α × α)) = ∅ := by
  ext x
  simp [cover]

variable {rs : List (α × α)}

theorem mem_cover_cons {r : α × α} {x : α} : x ∈ cover (r :: rs) ↔ (r.1 ≤ x ∧ x < r.2) ∨ x ∈ cover rs := by
  simp [cover]

theorem cover_perm {rs' : List (α × α)} (h : rs.Perm rs') : cover rs = cover rs' := by
  ext x
  simp only [cover, Set.mem_ofPred_eq, h.mem_iff]

/-! ## Separated lists -/

namespace Separated

variable {r : α × α} {rs : List (α × α)}

theorem nil : Separated ([] : List (α × α)) := ⟨by simp, List.Pairwise.nil⟩

theorem cons (proper : r.1 < r.2) (gap : ∀ q ∈ rs, r.2 < q.1) (h : Separated rs) : Separated (r :: rs) := by
  refine ⟨fun q hq => ?_, pairwise_cons.mpr ⟨gap, h.apart⟩⟩
  rcases mem_cons.mp hq with rfl | hq
  · exact proper
  · exact h.proper q hq

theorem tail (h : Separated (r :: rs)) : Separated rs :=
  ⟨fun q hq => h.proper q (mem_cons_of_mem _ hq), (pairwise_cons.mp h.apart).2⟩

theorem gap (h : Separated (r :: rs)) {q : α × α} (hq : q ∈ rs) : r.2 < q.1 := (pairwise_cons.mp h.apart).1 q hq

section

variable (h : Separated rs)

include h

theorem lt_or_lt {p q : α × α} (hp : p ∈ rs) (hq : q ∈ rs) (ne : p ≠ q) : p.2 < q.1 ∨ q.2 < p.1 := by
  have either : rs.Pairwise fun a b => a.2 < b.1 ∨ b.2 < a.1 := h.apart.imp Or.inl
  have : Std.Symm fun a b : α × α => a.2 < b.1 ∨ b.2 < a.1 := ⟨fun _ _ => Or.symm⟩
  exact either.forall hp hq ne

theorem sorted : rs.Pairwise fun a b => a.1 ≤ b.1 := h.apart.imp_of_mem fun ha _ lt => ((h.proper _ ha).trans lt).le

theorem nodup : rs.Nodup := by
  refine List.Pairwise.imp_of_mem (fun {a b} ha _ lt => ?_) h.apart
  rintro rfl
  exact lt_asymm lt (h.proper a ha)

theorem end_notMem (hr : r ∈ rs) : r.2 ∉ cover rs := by
  rintro ⟨q, hq, low, high⟩
  rcases eq_or_ne r q with rfl | ne
  · exact lt_irrefl _ high
  rcases h.lt_or_lt hr hq ne with lt | lt
  · exact not_lt.mpr low lt
  · exact lt_asymm high (lt.trans (h.proper r hr))

/-- Below the start of a range and not below `a`, a point that is not covered: the
highest of `a` and of the ends before it. -/
theorem exists_notMem (hr : r ∈ rs) {a : α} (below : a < r.1) : ∃ x, a ≤ x ∧ x < r.1 ∧ x ∉ cover rs := by
  induction rs with
  | nil => contradiction
  | cons q rs ih =>
    rcases mem_cons.mp hr with rfl | hr
    · refine ⟨a, le_rfl, below, ?_⟩
      rintro ⟨p, hp, low, -⟩
      rcases mem_cons.mp hp with rfl | hp
      · exact not_lt.mpr low below
      · exact not_lt.mpr low ((below.trans (h.proper r mem_cons_self)).trans (h.gap hp))
    · obtain ⟨x, low, high, out⟩ := ih h.tail hr
      rcases le_or_gt q.2 x with past | inside
      · refine ⟨x, low, high, fun hx => ?_⟩
        rcases mem_cover_cons.mp hx with ⟨-, lt⟩ | hx
        · exact not_lt.mpr past lt
        · exact out hx
      · exact ⟨q.2, low.trans inside.le, h.gap hr, h.end_notMem mem_cons_self⟩

theorem isMaximalRun (hr : r ∈ rs) : IsMaximalRun (cover rs) r :=
  ⟨h.proper r hr, fun _ low high => ⟨r, hr, low, high⟩, h.end_notMem hr, fun _ below => h.exists_notMem hr below⟩

theorem mem_of_isMaximalRun (max : IsMaximalRun (cover rs) r) : r ∈ rs := by
  obtain ⟨q, hq, low, high⟩ := max.inside r.1 le_rfl max.proper
  have start : q.1 = r.1 := by
    refine low.antisymm (not_lt.mp fun lt => ?_)
    obtain ⟨x, ge, before, out⟩ := max.starts q.1 lt
    exact out ⟨q, hq, ge, before.trans high⟩
  have stop : q.2 = r.2 := by
    refine le_antisymm (not_lt.mp fun lt => ?_) (not_lt.mp fun lt => ?_)
    · exact max.ends ⟨q, hq, low.trans max.proper.le, lt⟩
    · exact h.end_notMem hq (max.inside q.2 high.le lt)
  rwa [← Prod.ext start stop]

/-- A separated list is the list of the maximal runs of what it covers. -/
theorem mem_iff_maximal : r ∈ rs ↔ r ∈ maximalRuns (cover rs) := ⟨h.isMaximalRun, h.mem_of_isMaximalRun⟩

theorem ncard_maximalRuns : (maximalRuns (cover rs)).ncard = rs.length := by
  have same : maximalRuns (cover rs) = (rs.toFinset : Set (α × α)) := by
    ext r
    rw [← h.mem_iff_maximal, Finset.mem_coe, List.mem_toFinset]
  rw [same, Set.ncard_coe_finset, List.toFinset_card_of_nodup h.nodup]

theorem eq_of_cover_eq {rs' : List (α × α)} (h' : Separated rs') (same : cover rs = cover rs') : rs = rs' := by
  have perm : rs.Perm rs' := by
    rw [List.perm_ext_iff_of_nodup h.nodup h'.nodup]
    intro r
    rw [h.mem_iff_maximal, h'.mem_iff_maximal, same]
  refine perm.eq_of_pairwise (fun a b ha hb ab ba => ?_) h.apart h'.apart
  exact absurd ba (not_lt.mpr ((h.proper a ha).trans (ab.trans (h'.proper b hb))).le)

end

end Separated

/-! ## Merging -/

/-- Goes on with the ranges that start after `last`: one that overlaps or touches it
makes it longer, any other is the next one. -/
def coalesceFrom (last : α × α) : List (α × α) → List (α × α)
  | [] => [last]
  | r :: rs => if r.1 ≤ last.2 then coalesceFrom (last.1, max last.2 r.2) rs else last :: coalesceFrom r rs

/-- Merges sorted ranges. -/
def coalesce : List (α × α) → List (α × α)
  | [] => []
  | r :: rs => coalesceFrom r rs

section Coalesce

variable {last : α × α} {rs : List (α × α)}

theorem le_of_mem_coalesceFrom (sorted : (last :: rs).Pairwise fun a b => a.1 ≤ b.1) {q : α × α}
    (hq : q ∈ coalesceFrom last rs) : last.1 ≤ q.1 := by
  induction rs generalizing last with
  | nil =>
    rw [coalesceFrom, List.mem_singleton] at hq
    rw [hq]
  | cons r rs ih =>
    obtain ⟨first, rest⟩ := pairwise_cons.mp sorted
    unfold coalesceFrom at hq
    split at hq
    · have merged : ((last.1, max last.2 r.2) :: rs).Pairwise fun a b => a.1 ≤ b.1 :=
        pairwise_cons.mpr ⟨fun b hb => first b (mem_cons_of_mem _ hb), (pairwise_cons.mp rest).2⟩
      have above := ih merged hq
      exact above
    · rcases mem_cons.mp hq with rfl | hq
      · exact le_rfl
      · exact (first r mem_cons_self).trans (ih rest hq)

theorem separated_coalesceFrom (sorted : (last :: rs).Pairwise fun a b => a.1 ≤ b.1)
    (proper : ∀ r ∈ last :: rs, r.1 < r.2) : Separated (coalesceFrom last rs) := by
  induction rs generalizing last with
  | nil => exact .cons (proper last mem_cons_self) (by simp) .nil
  | cons r rs ih =>
    obtain ⟨first, rest⟩ := pairwise_cons.mp sorted
    have hlast := proper last mem_cons_self
    unfold coalesceFrom
    split
    · refine ih ?_ fun q hq => ?_
      · exact pairwise_cons.mpr ⟨fun b hb => first b (mem_cons_of_mem _ hb), (pairwise_cons.mp rest).2⟩
      · rcases mem_cons.mp hq with rfl | hq
        · exact hlast.trans_le (le_max_left _ _)
        · exact proper q (mem_cons_of_mem _ (mem_cons_of_mem _ hq))
    · next gap =>
      refine .cons hlast (fun q hq => ?_) (ih rest fun q hq => proper q (mem_cons_of_mem _ hq))
      exact (not_le.mp gap).trans_le (le_of_mem_coalesceFrom rest hq)

theorem cover_coalesceFrom (sorted : (last :: rs).Pairwise fun a b => a.1 ≤ b.1) :
    cover (coalesceFrom last rs) = cover (last :: rs) := by
  induction rs generalizing last with
  | nil => rfl
  | cons r rs ih =>
    obtain ⟨first, rest⟩ := pairwise_cons.mp sorted
    have order : last.1 ≤ r.1 := first r mem_cons_self
    unfold coalesceFrom
    split
    · next touch =>
      have sorted' : ((last.1, max last.2 r.2) :: rs).Pairwise fun a b => a.1 ≤ b.1 :=
        pairwise_cons.mpr ⟨fun b hb => first b (mem_cons_of_mem _ hb), (pairwise_cons.mp rest).2⟩
      rw [ih sorted']
      ext x
      simp only [mem_cover_cons]
      -- the longer range is the two that touch
      have joined : (last.1 ≤ x ∧ x < max last.2 r.2) ↔ (last.1 ≤ x ∧ x < last.2) ∨ (r.1 ≤ x ∧ x < r.2) := by
        rw [lt_max_iff]
        rcases lt_or_ge x r.1 with before | after
        · have inside : x < last.2 := before.trans_le touch
          simp [inside, not_le.mpr before]
        · simp [after, order.trans after]
      rw [joined, or_assoc]
    · ext x
      rw [mem_cover_cons, ih rest, ← mem_cover_cons]

end Coalesce

theorem separated_coalesce (sorted : rs.Pairwise fun a b => a.1 ≤ b.1)
    (proper : ∀ r ∈ rs, r.1 < r.2) : Separated (coalesce rs) := by
  cases rs with
  | nil => exact .nil
  | cons => exact separated_coalesceFrom sorted proper

theorem cover_coalesce (sorted : rs.Pairwise fun a b => a.1 ≤ b.1) : cover (coalesce rs) = cover rs := by
  cases rs with
  | nil => rfl
  | cons => exact cover_coalesceFrom sorted

/-- The order in which a sort leaves ranges with the same start does not show. -/
theorem coalesce_eq_of_perm {rs' : List (α × α)} (perm : rs.Perm rs')
    (sorted : rs.Pairwise fun a b => a.1 ≤ b.1) (sorted' : rs'.Pairwise fun a b => a.1 ≤ b.1)
    (proper : ∀ r ∈ rs, r.1 < r.2) : coalesce rs = coalesce rs' := by
  have proper' : ∀ r ∈ rs', r.1 < r.2 := fun r hr => proper r (perm.mem_iff.mpr hr)
  refine (separated_coalesce sorted proper).eq_of_cover_eq (separated_coalesce sorted' proper') ?_
  rw [cover_coalesce sorted, cover_coalesce sorted', cover_perm perm]

end Runs
