import Sailing.Lib.Ranking
import Sailing.Model.Tracker

/-!
# Counting acknowledgements

`committed_index` picks one element of the acknowledged indices by rank, out of a
buffer of sixteen slots or out of a vector. Whatever the selection does to the other
elements, this is the largest index that more than half of the voters acknowledge,
in each half that has voters.
-/

namespace Sailing

open Ranking

variable {I : Type} [LinearOrder I]

/-- `select_nth_unstable`: the elements are reordered so that the one at `pos` has
the lower ones before it and the higher ones behind it. -/
structure SelectNth where
  select : List Index → Nat → List Index
  perm : ∀ l pos, (select l pos).Perm l
  partitioned : ∀ l pos x, (select l pos)[pos]? = some x → Partitioned (select l pos) pos x

/-- A full sort is one such selection. -/
def SelectNth.sort : SelectNth where
  select l _ := l.insertionSort (· ≤ ·)
  perm l _ := List.perm_insertionSort _ l
  partitioned l _ _ h := partitioned_of_sorted (List.pairwise_insertionSort _ l) h

theorem coe_ascending (s : Finset I) : (ascending s : Multiset I) = s.val := by
  unfold ascending
  obtain ⟨l, hl⟩ := Quot.exists_rep s.val
  rw [← hl]
  exact Quot.sound (List.perm_insertionSort _ l)

theorem coe_sorted (s : Multiset Nat) : (sorted s : Multiset Nat) = s := by
  unfold sorted
  obtain ⟨l, rfl⟩ := Quot.exists_rep s
  exact Quot.sound (List.perm_insertionSort _ l)

theorem pairwise_sorted (s : Multiset Nat) : (sorted s).Pairwise (· ≤ ·) := by
  unfold sorted
  obtain ⟨l, rfl⟩ := Quot.exists_rep s
  exact List.pairwise_insertionSort _ l

namespace MajorityConfig

variable (c : MajorityConfig I) (acked : I → Index)

def stackCap : Nat := 16

/-- The acknowledged indices, in the order of the ids. -/
def acks : List Index := (ascending c.ids).map acked

/-- The slots of the buffer that the ids fill. -/
def buffered : List Index :=
  let buf := List.replicate stackCap 0
  List.zipWith (fun _ index => index) (buf.take c.ids.card) (c.acks acked)

/-- `committed_index`, with the selection it makes of the slots or of the vector. -/
def committedIndexBy (sel : SelectNth) : Index :=
  let n := c.ids.card
  if n = 0 then u64Max
  else
    let pos := n - (n / 2 + 1)
    if n ≤ stackCap then (sel.select (c.buffered acked) pos).getD pos 0
    else (sel.select (c.acks acked) pos).getD pos 0

/-- More than half of the voters acknowledge `i`. -/
def Acknowledged (i : Index) : Prop := c.ids.card < 2 * (c.ids.filter fun id => i ≤ acked id).card

theorem length_acks : (c.acks acked).length = c.ids.card := by
  unfold acks
  rw [List.length_map, ← Multiset.coe_card, coe_ascending]
  rfl

theorem countP_acks (i : Index) : (c.acks acked).countP (i ≤ ·) = (c.ids.filter fun id => i ≤ acked id).card := by
  unfold acks
  rw [List.countP_map]
  change (ascending c.ids).countP (fun id => i ≤ acked id) = _
  rw [← Multiset.coe_countP, coe_ascending, Multiset.countP_eq_card_filter]
  rfl

theorem buffered_eq (small : c.ids.card ≤ stackCap) : c.buffered acked = c.acks acked := by
  unfold buffered
  simp only
  rw [List.take_replicate, min_eq_left small]
  refine List.ext_getElem (by simp [length_acks]) fun i h₁ h₂ => ?_
  simp

theorem atRank_select (sel : SelectNth) {pos : Nat} (h : pos < c.ids.card) :
    AtRank (c.acks acked) pos ((sel.select (c.acks acked) pos).getD pos 0) := by
  have len : pos < (sel.select (c.acks acked) pos).length := by
    rwa [(sel.perm _ _).length_eq, length_acks]
  have at_ := List.getElem?_eq_getElem len
  rw [List.getD_eq_getElem?_getD, at_]
  exact (sel.partitioned _ _ _ at_).atRank.perm (sel.perm _ _)

theorem atRank_sorted {pos : Nat} (h : pos < c.ids.card) :
    AtRank (c.acks acked) pos ((sorted (c.ids.val.map acked)).getD pos 0) := by
  have perm : (sorted (c.ids.val.map acked)).Perm (c.acks acked) := by
    rw [← Multiset.coe_eq_coe, coe_sorted, ← coe_ascending]
    rfl
  have len : pos < (sorted (c.ids.val.map acked)).length := by
    rwa [perm.length_eq, length_acks]
  have at_ := List.getElem?_eq_getElem len
  rw [List.getD_eq_getElem?_getD, at_]
  exact (partitioned_of_sorted (pairwise_sorted _) at_).atRank.perm perm

omit [LinearOrder I] in
theorem pos_lt (voters : c.ids.Nonempty) : c.ids.card - (c.ids.card / 2 + 1) < c.ids.card := by
  have := voters.card_pos
  omega

/-- The two layouts select what a sort would put at the position. -/
theorem committedIndexBy_eq (sel : SelectNth) : c.committedIndexBy acked sel = c.committedIndex acked := by
  unfold committedIndexBy committedIndex
  simp only
  split
  · rfl
  next hn =>
  have pos := c.pos_lt (Finset.card_pos.mp (Nat.pos_of_ne_zero hn))
  have same := (c.atRank_select acked sel pos).unique (c.atRank_sorted acked pos)
  split
  · next small => rw [buffered_eq c acked small, same]
  · exact same

omit [LinearOrder I] in
theorem committedIndex_of_empty (h : c.ids = ∅) : c.committedIndex acked = u64Max := by
  simp [committedIndex, h]

omit [LinearOrder I] in
theorem committedIndex_le (fits : ∀ id, acked id ≤ u64Max) : c.committedIndex acked ≤ u64Max := by
  unfold committedIndex
  split
  · exact le_rfl
  rw [List.getD_eq_getElem?_getD]
  cases at_ : (sorted (c.ids.val.map acked))[c.ids.card - (c.ids.card / 2 + 1)]? with
  | none => exact Nat.zero_le _
  | some i =>
    have mem : i ∈ (sorted (c.ids.val.map acked) : Multiset Nat) := List.mem_of_getElem? at_
    rw [coe_sorted, Multiset.mem_map] at mem
    obtain ⟨id, -, rfl⟩ := mem
    exact fits id

theorem committedIndex_isGreatest (voters : c.ids.Nonempty) :
    IsGreatest {i | c.Acknowledged acked i} (c.committedIndex acked) := by
  have card := voters.card_pos
  have greatest := (c.atRank_sorted acked (c.pos_lt voters)).isGreatest
  have value : c.committedIndex acked =
      (sorted (c.ids.val.map acked)).getD (c.ids.card - (c.ids.card / 2 + 1)) 0 := if_neg card.ne'
  -- all but `n - (n / 2 + 1)` of the voters are more than half of them
  have same : {i | (c.acks acked).length ≤
      (c.acks acked).countP (i ≤ ·) + (c.ids.card - (c.ids.card / 2 + 1))} =
      {i | c.Acknowledged acked i} := by
    ext i
    simp only [Set.mem_ofPred_eq, Acknowledged, length_acks, countP_acks]
    omega
  rw [value, ← same]
  exact greatest

omit [LinearOrder I] in
theorem Acknowledged.of_le {c : MajorityConfig I} {acked acked' : I → Index} {i j : Index}
    (h : c.Acknowledged acked i) (le : j ≤ i) (grow : ∀ id, acked id ≤ acked' id) :
    c.Acknowledged acked' j := by
  have sub : c.ids.filter (fun id => i ≤ acked id) ⊆ c.ids.filter fun id => j ≤ acked' id := by
    refine Finset.monotone_filter_right _ fun id _ hi => ?_
    exact le.trans (hi.trans (grow id))
  have := Finset.card_le_card sub
  unfold Acknowledged at h ⊢
  omega

theorem committedIndex_mono (c : MajorityConfig I) {acked acked' : I → Index}
    (grow : ∀ id, acked id ≤ acked' id) : c.committedIndex acked ≤ c.committedIndex acked' := by
  rcases c.ids.eq_empty_or_nonempty with he | hn
  · rw [c.committedIndex_of_empty _ he, c.committedIndex_of_empty _ he]
  · have reached := (c.committedIndex_isGreatest acked hn).1
    exact (c.committedIndex_isGreatest acked' hn).2 (Acknowledged.of_le reached le_rfl grow)

theorem le_committedIndex_iff {i : Index} (small : i ≤ u64Max) :
    i ≤ c.committedIndex acked ↔ (c.ids.Nonempty → c.Acknowledged acked i) := by
  rcases c.ids.eq_empty_or_nonempty with he | hn
  · simp [c.committedIndex_of_empty acked he, small, he]
  · obtain ⟨reached, upper⟩ := c.committedIndex_isGreatest acked hn
    refine ⟨fun le _ => Acknowledged.of_le reached le fun _ => le_rfl, fun h => upper (h hn)⟩

end MajorityConfig

namespace JointConfig

variable (c : JointConfig I) (acked : I → Index)

def committedIndexBy (sel : SelectNth) : Index :=
  min (c.incoming.committedIndexBy acked sel) (c.outgoing.committedIndexBy acked sel)

/-- Acknowledged in each half that has voters. -/
def Acknowledged (i : Index) : Prop :=
  (c.incoming.ids.Nonempty → c.incoming.Acknowledged acked i) ∧
    (c.outgoing.ids.Nonempty → c.outgoing.Acknowledged acked i)

theorem committedIndexBy_eq (sel : SelectNth) : c.committedIndexBy acked sel = c.committedIndex acked := by
  unfold committedIndexBy committedIndex
  rw [MajorityConfig.committedIndexBy_eq, MajorityConfig.committedIndexBy_eq]

theorem le_committedIndex_iff {i : Index} (small : i ≤ u64Max) :
    i ≤ c.committedIndex acked ↔ c.Acknowledged acked i := by
  unfold committedIndex
  rw [le_min_iff, c.incoming.le_committedIndex_iff acked small, c.outgoing.le_committedIndex_iff acked small]
  rfl

theorem committedIndex_mono {acked acked' : I → Index} (grow : ∀ id, acked id ≤ acked' id) :
    c.committedIndex acked ≤ c.committedIndex acked' :=
  min_le_min (c.incoming.committedIndex_mono grow) (c.outgoing.committedIndex_mono grow)

/-- The indices fit a word, so the largest one acknowledged does. -/
theorem committedIndex_isGreatest (fits : ∀ id, acked id ≤ u64Max) :
    IsGreatest {i | i ≤ u64Max ∧ c.Acknowledged acked i} (c.committedIndex acked) := by
  have small : c.committedIndex acked ≤ u64Max := (min_le_left _ _).trans (c.incoming.committedIndex_le acked fits)
  refine ⟨⟨small, (c.le_committedIndex_iff acked small).mp le_rfl⟩, fun i hi => ?_⟩
  exact (c.le_committedIndex_iff acked hi.1).mpr hi.2

end JointConfig

namespace Tracker

/-- `id` acknowledges at least `k`. -/
def acknowledge (t : Tracker I) (id : I) (k : Index) : Tracker I :=
  t.modifyProgress id fun pr => { pr with matchIndex := max pr.matchIndex k }

theorem matchIndex_acknowledge (t : Tracker I) (id : I) (k : Index) (v : I) :
    t.matchIndex v ≤ (t.acknowledge id k).matchIndex v := by
  unfold matchIndex acknowledge modifyProgress
  rcases eq_or_ne v id with rfl | hv
  · cases t.progress v <;> simp
  · simp [Function.update_of_ne hv]

end Tracker

/-- Counting acknowledgements is exact, and more of them never lower the count. -/
theorem committedIndex_exact (sel : SelectNth) (c : JointConfig I) (acked : I → Index) (t : Tracker I)
    (fits : ∀ id, acked id ≤ u64Max) (tracked : ∀ id, t.matchIndex id ≤ u64Max) :
    (∀ half : MajorityConfig I,
      (half.ids = ∅ → half.committedIndexBy acked sel = u64Max) ∧
      (half.ids.Nonempty → IsGreatest {i | half.Acknowledged acked i} (half.committedIndexBy acked sel))) ∧
    IsGreatest {i | i ≤ u64Max ∧ c.Acknowledged acked i} (c.committedIndexBy acked sel) ∧
    IsGreatest {i | i ≤ u64Max ∧ t.voters.Acknowledged t.matchIndex i} t.quorumCommitted ∧
    t.voters.committedIndexBy t.matchIndex sel = t.quorumCommitted ∧
    (∀ id k, c.committedIndexBy acked sel ≤
      c.committedIndexBy (Function.update acked id (max (acked id) k)) sel) ∧
    ∀ id k, t.quorumCommitted ≤ (t.acknowledge id k).quorumCommitted := by
  simp only [MajorityConfig.committedIndexBy_eq, JointConfig.committedIndexBy_eq]
  refine ⟨fun half => ⟨half.committedIndex_of_empty acked, half.committedIndex_isGreatest acked⟩,
    c.committedIndex_isGreatest acked fits, t.voters.committedIndex_isGreatest _ tracked, rfl, ?_, ?_⟩
  · intro id k
    refine c.committedIndex_mono fun v => ?_
    rcases eq_or_ne v id with rfl | hv
    · simp
    · rw [Function.update_of_ne hv]
  · exact fun id k => t.voters.committedIndex_mono (t.matchIndex_acknowledge id k)

/-- Of the voters 1, 2, 3 at those indices a majority acknowledges 2. -/
theorem committedIndex_exact_three :
    IsGreatest {i | i ≤ u64Max ∧ (JointConfig.fromVoters {1, 2, 3}).Acknowledged (fun id => min id 3) i} 2 := by
  have h := (committedIndex_exact SelectNth.sort (JointConfig.fromVoters {1, 2, 3}) (fun id => min id 3)
    (Tracker.fromConfState ⟨{1, 2, 3}, ∅, ∅, ∅, false⟩ 0 1 0)
    (fun id => (min_le_right id 3).trans (by decide))
    fun id => by
      unfold Tracker.matchIndex Tracker.fromConfState
      simp only
      split <;> simp [Progress.new]).2.1
  have two : (JointConfig.fromVoters {1, 2, 3}).committedIndexBy (fun id => min id 3) SelectNth.sort = 2 := by
    decide
  rwa [two] at h

end Sailing
