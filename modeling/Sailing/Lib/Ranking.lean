import Mathlib.Data.List.Sort
import Mathlib.Order.Bounds.Basic

/-!
# The element of a rank

`AtRank l k x` says that `x` would stand at position `k` of `l` in ascending
order, by counting: no more than `k` elements are below it, and more than `k` are
not above. At most one value does (`AtRank.unique`), a sort puts it there, and so
does a partition around it (`Partitioned`); and it is the largest value that all
but `k` elements reach (`AtRank.isGreatest`).
-/

namespace Sailing.Ranking

variable {α : Type} [LinearOrder α] {l l' : List α} {k : Nat} {x y : α}

structure AtRank (l : List α) (k : Nat) (x : α) : Prop where
  below : l.countP (· < x) ≤ k
  upto : k < l.countP (· ≤ x)

/-- `l` has its element `x` of position `k` between the lower and the higher
ones. -/
structure Partitioned (l : List α) (k : Nat) (x : α) : Prop where
  at_ : l[k]? = some x
  lower : ∀ y ∈ l.take k, y ≤ x
  higher : ∀ y ∈ l.drop (k + 1), x ≤ y

theorem AtRank.perm (h : AtRank l k x) (p : l.Perm l') : AtRank l' k x :=
  ⟨p.countP_eq _ ▸ h.below, p.countP_eq _ ▸ h.upto⟩

theorem AtRank.unique (hx : AtRank l k x) (hy : AtRank l k y) : x = y := by
  -- were one below the other, what is not above it would be below the other
  have le : ∀ {a b : α}, AtRank l k a → AtRank l k b → a ≤ b := fun {a b} ha hb => by
    by_contra hlt
    have mono : l.countP (· ≤ b) ≤ l.countP (· < a) := List.countP_mono_left fun z _ hz => by
        have hz : z ≤ b := by simpa using hz
        simpa using hz.trans_lt (not_le.mp hlt)
    have := hb.upto
    have := ha.below
    omega
  exact le_antisymm (le hx hy) (le hy hx)

theorem Partitioned.atRank (h : Partitioned l k x) : AtRank l k x := by
  obtain ⟨hk, hx⟩ := List.getElem?_eq_some_iff.mp h.at_
  have split : l = l.take k ++ x :: l.drop (k + 1) := by
    rw [← hx, ← List.drop_eq_getElem_cons hk, List.take_append_drop]
  have len : (l.take k).length = k := List.length_take_of_le hk.le
  refine ⟨?_, ?_⟩
  · have higher : (l.drop (k + 1)).countP (· < x) = 0 :=
      List.countP_eq_zero.mpr fun y hy => by simpa using h.higher y hy
    have lower : (l.take k).countP (· < x) ≤ k := List.countP_le_length.trans_eq len
    rw [split, List.countP_append, List.countP_cons, higher]
    simpa using lower
  · have lower : (l.take k).countP (· ≤ x) = k := by
      have all : (l.take k).countP (· ≤ x) = (l.take k).length :=
        List.countP_eq_length.mpr fun y hy => by simpa using h.lower y hy
      exact all.trans len
    rw [split, List.countP_append, List.countP_cons, lower]
    simp

theorem partitioned_of_sorted (sorted : l.Pairwise (· ≤ ·)) (h : l[k]? = some x) : Partitioned l k x := by
  obtain ⟨hk, hx⟩ := List.getElem?_eq_some_iff.mp h
  have ordered := List.pairwise_iff_getElem.mp sorted
  refine ⟨h, fun y hy => ?_, fun y hy => ?_⟩
  · obtain ⟨i, hi, rfl⟩ := List.getElem_of_mem hy
    rw [List.getElem_take]
    rw [List.length_take] at hi
    exact hx ▸ ordered i k _ _ (by omega)
  · obtain ⟨i, hi, rfl⟩ := List.getElem_of_mem hy
    rw [List.getElem_drop]
    rw [List.length_drop] at hi
    exact hx ▸ ordered k (k + 1 + i) _ _ (by omega)

/-- What is at rank `k` is reached by all but `k` elements, and nothing higher
is. -/
theorem AtRank.isGreatest (h : AtRank l k x) : IsGreatest {y | l.length ≤ l.countP (y ≤ ·) + k} x := by
  have compl : ∀ p : α → Bool, l.length = l.countP p + l.countP fun a => !p a := fun p => by
    rw [List.length_eq_countP_add_countP p]
    simp
  refine ⟨?_, fun y hy => ?_⟩
  · have below := h.below
    have len := compl (· < x)
    have reach : (l.countP fun a => !decide (a < x)) = l.countP (x ≤ ·) := List.countP_congr fun a _ => by simp
    show l.length ≤ l.countP (x ≤ ·) + k
    omega
  · by_contra hlt
    have hy : l.length ≤ l.countP (y ≤ ·) + k := hy
    have mono : l.countP (y ≤ ·) ≤ l.countP fun a => !decide (a ≤ x) := List.countP_mono_left fun z _ hz => by
        have hz : y ≤ z := by simpa using hz
        simpa using (not_le.mp hlt).trans_le hz
    have upto := h.upto
    have len := compl (· ≤ x)
    omega

end Sailing.Ranking
