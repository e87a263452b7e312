import Mathlib.Algebra.BigOperators.Group.Finset.Basic
import Mathlib.Algebra.Order.BigOperators.Group.Finset
import Mathlib.Data.Fintype.BigOperators
import Mathlib.Data.Fintype.Card

/-!
# The in-flight budget

Two counters, shared by every handle of a driver (`sailing-driver/src/shared.rs`): a reservation
adds to both and takes back what went over, a guard gives both back when it is dropped. Nothing
locks them, so the steps of any number of calls and drops interleave. A call in progress and a
guard are values somewhere in memory: each has an address of its own, a `usize` that is not null,
so there are fewer of them than a `usize` can count.
-/

namespace Sailing.Budget

open Function (update)

variable {w : Nat}

/-- Where a value of a `w`-bit machine can be. -/
abbrev Addr (w : Nat) := { a : Fin (2 ^ w) // a.val ≠ 0 }

structure InflightBudget where
  maxCount : Nat
  maxBytes : Nat

/-- How far a reservation of `len` bytes is. -/
inductive Phase where
  /-- The slot is taken; the bytes are next. -/
  | counted (len : Nat)
  /-- The slot was one too many: it goes back. -/
  | overCount (len : Nat)
  /-- The bytes were too many: they go back. -/
  | overBytes (len : Nat)
  /-- The bytes are back, and the slot is next. -/
  | overSlot (len : Nat)
  | guard (len : Nat)
  /-- A guard being dropped: the slot is back, and the bytes are next. -/
  | dropping (len : Nat)
deriving DecidableEq, Repr

structure State (w : Nat) where
  count : Nat
  bytes : Nat
  at_ : Addr w → Option Phase

def State.new : State w := ⟨0, 0, fun _ => none⟩

/-- `AtomicUsize::fetch_add` and `fetch_sub`, as they change the value. -/
def fetchAdd (w x n : Nat) : Nat := (x + n) % 2 ^ w

def fetchSub (w x n : Nat) : Nat := (x + (2 ^ w - n % 2 ^ w)) % 2 ^ w

def saturatingAdd (w x n : Nat) : Nat := min (x + n) (2 ^ w - 1)

inductive Act (w : Nat) where
  | tryReserve (a : Addr w) (len : Nat)
  /-- The next atomic step of what is at `a`. -/
  | next (a : Addr w)
  | drop (a : Addr w)

/-- The next atomic step of a call or a drop: the counters after it, and what has become of it. -/
def advance (w : Nat) (b : InflightBudget) (count bytes : Nat) : Phase → Option (Nat × Nat × Option Phase)
  | .counted len =>
    some (count, fetchAdd w bytes len, some (if b.maxBytes < saturatingAdd w bytes len then .overBytes len else .guard len))
  | .overCount _ | .overSlot _ => some (fetchSub w count 1, bytes, none)
  | .overBytes len => some (count, fetchSub w bytes len, some (.overSlot len))
  | .dropping len => some (count, fetchSub w bytes len, none)
  | .guard _ => none

/-- The first step of a drop. -/
def release (w count bytes : Nat) : Phase → Option (Nat × Nat × Option Phase)
  | .guard len => some (fetchSub w count 1, bytes, some (.dropping len))
  | _ => none

def State.put (s : State w) (a : Addr w) (new : Nat × Nat × Option Phase) : State w :=
  ⟨new.1, new.2.1, update s.at_ a new.2.2⟩

/-- One atomic step, if it is one that can be taken. -/
def step (b : InflightBudget) (s : State w) : Act w → Option (State w)
  | .tryReserve a len =>
    if s.at_ a = none then
      some (s.put a (fetchAdd w s.count 1, s.bytes, some (if b.maxCount ≤ s.count then .overCount len else .counted len)))
    else none
  | .next a => ((s.at_ a).bind (advance w b s.count s.bytes)).map (s.put a)
  | .drop a => ((s.at_ a).bind (release w s.count s.bytes)).map (s.put a)

/-! ## Totals -/

def total (f : Option Phase → Nat) (at_ : Addr w → Option Phase) : Nat := ∑ a, f (at_ a)

/-- The length a call asks for or a guard holds. -/
def lenOf : Option Phase → Nat
  | some (.counted len) | some (.overCount len) | some (.overBytes len) | some (.overSlot len) | some (.guard len)
  | some (.dropping len) => len
  | none => 0

/-- What is in the two counters for it. -/
def slotOf : Option Phase → Nat
  | none | some (.dropping _) => 0
  | _ => 1

def heldOf : Option Phase → Nat
  | some (.overBytes len) | some (.guard len) | some (.dropping len) => len
  | _ => 0

/-- What passed the two checks. -/
def admittedOf : Option Phase → Nat
  | some (.counted _) | some (.overBytes _) | some (.overSlot _) | some (.guard _) => 1
  | _ => 0

def passedOf : Option Phase → Nat
  | some (.guard len) | some (.dropping len) => len
  | _ => 0

/-- The guards alive. -/
def aliveOf : Option Phase → Nat
  | some (.guard _) => 1
  | _ => 0

def aliveLenOf : Option Phase → Nat
  | some (.guard len) => len
  | _ => 0

theorem total_update (f : Option Phase → Nat) (at_ : Addr w → Option Phase) (a : Addr w) (p : Option Phase) :
    total f (update at_ a p) + f (at_ a) = total f at_ + f p := by
  unfold total
  rw [← Finset.add_sum_erase _ _ (Finset.mem_univ a), ← Finset.add_sum_erase _ (fun x => f (at_ x)) (Finset.mem_univ a)]
  have rest : ∑ x ∈ Finset.univ.erase a, f (update at_ a p x) = ∑ x ∈ Finset.univ.erase a, f (at_ x) :=
    Finset.sum_congr rfl fun x mem => by rw [Function.update_of_ne (Finset.ne_of_mem_erase mem)]
  rw [rest, Function.update_self]
  omega

theorem total_le {f g : Option Phase → Nat} (le : ∀ p, f p ≤ g p) (at_ : Addr w → Option Phase) : total f at_ ≤ total g at_ :=
  Finset.sum_le_sum fun a _ => le (at_ a)

/-- There are fewer calls and guards than a counter can count. -/
theorem total_slotOf_lt (at_ : Addr w → Option Phase) : total slotOf at_ < 2 ^ w := by
  have one (p : Option Phase) : slotOf p ≤ 1 := by
    unfold slotOf
    split <;> decide
  have null : Fintype.card (Addr w) < Fintype.card (Fin (2 ^ w)) :=
    Fintype.card_subtype_lt (x := ⟨0, Nat.two_pow_pos w⟩) fun ne => ne rfl
  calc total slotOf at_ ≤ ∑ _ : Addr w, 1 := Finset.sum_le_sum fun a _ => one (at_ a)
    _ = Fintype.card (Addr w) := (Finset.card_eq_sum_ones _).symm
    _ < 2 ^ w := by rwa [Fintype.card_fin] at null

theorem fetchSub_eq {x n : Nat} (le : n ≤ x) (lt : x < 2 ^ w) : fetchSub w x n = x - n := by
  unfold fetchSub
  rw [Nat.mod_eq_of_lt (le.trans_lt lt), show x + (2 ^ w - n) = x - n + 2 ^ w by omega, Nat.add_mod_right]
  exact Nat.mod_eq_of_lt (by omega)

/-! ## The invariant -/

/-- The lengths asked for or held at one time fit a `usize`. -/
def Fits (s : State w) : Prop := total lenOf s.at_ < 2 ^ w

structure Inv (b : InflightBudget) (s : State w) : Prop where
  count : s.count = total slotOf s.at_
  bytes : s.bytes = total heldOf s.at_
  admitted : total admittedOf s.at_ ≤ b.maxCount
  passed : total passedOf s.at_ ≤ b.maxBytes

theorem weights (p : Option Phase) :
    aliveOf p ≤ admittedOf p ∧ admittedOf p ≤ slotOf p ∧ aliveLenOf p ≤ passedOf p ∧ passedOf p ≤ heldOf p ∧ heldOf p ≤ lenOf p := by
  rcases p with _ | p
  · exact ⟨le_rfl, le_rfl, le_rfl, le_rfl, le_rfl⟩
  · cases p <;> simp [aliveOf, admittedOf, slotOf, aliveLenOf, passedOf, heldOf, lenOf]

variable {b : InflightBudget} {s : State w}

/-- One value moves on and the counters follow it. -/
theorem Inv.move (h : Inv b s) {a : Addr w} {p q : Option Phase} (here : s.at_ a = p)
    {count bytes : Nat} (counts : count + slotOf p = s.count + slotOf q) (holds : bytes + heldOf p = s.bytes + heldOf q)
    (admits : admittedOf q ≤ admittedOf p ∨ s.count + 1 ≤ b.maxCount ∧ admittedOf q ≤ 1)
    (passes : passedOf q ≤ passedOf p ∨ s.bytes + passedOf q ≤ b.maxBytes) :
    Inv b (s.put a (count, bytes, q)) := by
  subst here
  have slots := total_update slotOf s.at_ a q
  have held := total_update heldOf s.at_ a q
  have admitted := total_update admittedOf s.at_ a q
  have passed := total_update passedOf s.at_ a q
  have := total_le (fun p => (weights p).2.1) s.at_
  have := total_le (fun p => (weights p).2.2.2.1) s.at_
  have := h.count
  have := h.bytes
  have := h.admitted
  have := h.passed
  refine ⟨?_, ?_, ?_, ?_⟩
  · show count = total slotOf (update s.at_ a q)
    omega
  · show bytes = total heldOf (update s.at_ a q)
    omega
  · show total admittedOf (update s.at_ a q) ≤ b.maxCount
    omega
  · show total passedOf (update s.at_ a q) ≤ b.maxBytes
    omega

theorem le_total (f : Option Phase → Nat) (at_ : Addr w → Option Phase) (a : Addr w) : f (at_ a) ≤ total f at_ :=
  Finset.single_le_sum (f := fun a => f (at_ a)) (fun _ _ => Nat.zero_le _) (Finset.mem_univ a)

theorem inv_step {s' : State w} (h : Inv b s) (fits : Fits s) {act : Act w}
    (taken : step b s act = some s') : Inv b s' := by
  have narrow : s.count < 2 ^ w := h.count ▸ total_slotOf_lt s.at_
  have small : s.bytes < 2 ^ w := h.bytes ▸ (total_le (fun p => (weights p).2.2.2.2) s.at_).trans_lt fits
  have gives {a : Addr w} {p : Phase} (here : s.at_ a = some p) (slot : slotOf (some p) = 1) : fetchSub w s.count 1 + 1 = s.count := by
    have one := le_total slotOf s.at_ a
    rw [here, slot, ← h.count] at one
    rw [fetchSub_eq one narrow]
    omega
  have returns {a : Addr w} {p : Phase} {len : Nat} (here : s.at_ a = some p) (held : heldOf (some p) = len) :
      fetchSub w s.bytes len + len = s.bytes := by
    have all := le_total heldOf s.at_ a
    rw [here, held, ← h.bytes] at all
    rw [fetchSub_eq all small]
    omega
  cases act with
  | tryReserve a len =>
    simp only [step] at taken
    split at taken
    · next here =>
      cases taken
      have added : fetchAdd w s.count 1 = s.count + 1 := by
        have room := total_slotOf_lt (update s.at_ a (some (.counted len)))
        have slots := total_update slotOf s.at_ a (some (.counted len))
        rw [here, ← h.count] at slots
        simp only [slotOf] at slots
        exact Nat.mod_eq_of_lt (by omega)
      split
      · exact h.move here added rfl (.inl le_rfl) (.inl le_rfl)
      · next cap => exact h.move here added rfl (.inr ⟨not_le.mp cap, le_rfl⟩) (.inl le_rfl)
    · cases taken
  | next a =>
    obtain ⟨new, moved, rfl⟩ := Option.map_eq_some_iff.mp taken
    obtain ⟨p, here, moved⟩ := Option.bind_eq_some_iff.mp moved
    cases p with
    | guard len => cases moved
    | overCount len | overSlot len =>
      cases moved
      exact h.move here (gives here rfl) rfl (.inl (Nat.zero_le _)) (.inl le_rfl)
    | overBytes len | dropping len =>
      cases moved
      exact h.move here rfl (returns here rfl) (.inl le_rfl) (.inl (Nat.zero_le _))
    | counted len =>
      cases moved
      -- the bytes of the call join those held, and all of them are lengths asked for or held
      have wide : s.bytes + len < 2 ^ w := by
        have held := total_update heldOf s.at_ a (some (.guard len))
        have asked := total_update lenOf s.at_ a (some (.guard len))
        have all := total_le (fun p => (weights p).2.2.2.2) (update s.at_ a (some (.guard len)))
        rw [here] at held asked
        simp only [heldOf, lenOf] at held asked
        rw [h.bytes]
        unfold Fits at fits
        omega
      have sum : fetchAdd w s.bytes len = s.bytes + len := Nat.mod_eq_of_lt wide
      split
      · exact h.move here rfl sum (.inl le_rfl) (.inl le_rfl)
      next room =>
      rw [saturatingAdd, min_eq_left (by omega)] at room
      exact h.move here rfl sum (.inl le_rfl) (.inr (not_lt.mp room))
  | drop a =>
    obtain ⟨new, moved, rfl⟩ := Option.map_eq_some_iff.mp taken
    obtain ⟨p, here, moved⟩ := Option.bind_eq_some_iff.mp moved
    cases p with
    | guard len =>
      cases moved
      exact h.move here (gives here rfl) rfl (.inl (Nat.zero_le _)) (.inl le_rfl)
    | _ => cases moved

/-! ## Runs -/

/-- The states of a run in which the lengths always fit. -/
inductive Reached (b : InflightBudget) : State w → Prop where
  | new : Reached b .new
  | step {s s' : State w} (act : Act w) : Reached b s → step b s act = some s' → Fits s' → Reached b s'

theorem Reached.inv (h : Reached b s) : Inv b s ∧ Fits s := by
  induction h with
  | new =>
    have zero (f : Option Phase → Nat) (none_ : f none = 0) : total f (State.new : State w).at_ = 0 :=
      Finset.sum_eq_zero fun _ _ => none_
    refine ⟨⟨(zero _ rfl).symm, (zero _ rfl).symm, ?_, ?_⟩, ?_⟩
    · rw [zero _ rfl]
      exact Nat.zero_le _
    · rw [zero _ rfl]
      exact Nat.zero_le _
    · unfold Fits
      rw [zero _ rfl]
      exact Nat.two_pow_pos w
  | step act _ taken fits ih => exact ⟨inv_step ih.1 ih.2 taken, fits⟩

/-- No call and no drop is in progress. -/
def Quiet (s : State w) : Prop := ∀ a p, s.at_ a = some p → ∃ len, p = .guard len

theorem Quiet.total_eq (quiet : Quiet s) {f g : Option Phase → Nat} (none_ : f none = g none)
    (guards : ∀ len, f (some (.guard len)) = g (some (.guard len))) : total f s.at_ = total g s.at_ := by
  refine Finset.sum_congr rfl fun a _ => ?_
  cases here : s.at_ a with
  | none => exact none_
  | some p =>
    obtain ⟨len, rfl⟩ := quiet a p here
    exact guards len

/-- The caps hold at every moment, the counters never count less than the guards, they count
exactly them when nothing is in progress, and a call that overlaps nothing is refused, by its first
check or its second, only if a cap would be exceeded. -/
theorem budget_holds (b : InflightBudget) (s : State w) (reached : Reached b s) :
    total aliveOf s.at_ ≤ b.maxCount ∧ total aliveLenOf s.at_ ≤ b.maxBytes ∧
      total aliveOf s.at_ ≤ s.count ∧ total aliveLenOf s.at_ ≤ s.bytes ∧
      (Quiet s → s.count = total aliveOf s.at_ ∧ s.bytes = total aliveLenOf s.at_) ∧
      ∀ a len s₁, Quiet s → step b s (.tryReserve a len) = some s₁ →
        (s₁.at_ a = some (.overCount len) → b.maxCount < total aliveOf s.at_ + 1) ∧
          ∀ s₂, step b s₁ (.next a) = some s₂ → s₂.at_ a = some (.overBytes len) →
            b.maxBytes < total aliveLenOf s.at_ + len := by
  obtain ⟨h, fits⟩ := reached.inv
  have alive := total_le (fun p => (weights p).1) s.at_
  have lens := total_le (fun p => (weights p).2.2.1) s.at_
  have exact_ (quiet : Quiet s) : s.count = total aliveOf s.at_ ∧ s.bytes = total aliveLenOf s.at_ := by
    rw [h.count, h.bytes]
    exact ⟨quiet.total_eq rfl fun _ => rfl, quiet.total_eq rfl fun _ => rfl⟩
  refine ⟨alive.trans h.admitted, lens.trans h.passed, ?_, ?_, exact_, fun a len s₁ quiet called => ?_⟩
  · rw [h.count]
    exact alive.trans (total_le (fun p => (weights p).2.1) s.at_)
  · rw [h.bytes]
    exact lens.trans (total_le (fun p => (weights p).2.2.2.1) s.at_)
  · obtain ⟨count, bytes⟩ := exact_ quiet
    simp only [step] at called
    split at called
    · cases called
      rw [← count, ← bytes]
      have at_ (t : State w) (q : Option Phase) (c d : Nat) : (t.put a (c, d, q)).at_ a = q := by simp [State.put]
      simp only [step, at_, Option.bind_some]
      split
      · next cap =>
        refine ⟨fun _ => Nat.lt_succ_of_le cap, ?_⟩
        rintro _ ⟨⟩ full
        simp [State.put] at full
      · refine ⟨by simp, ?_⟩
        rintro _ ⟨⟩ full
        rw [at_] at full
        split at full
        · next cap => exact cap.trans_le (min_le_left _ _)
        · cases full
    · cases called

/-- Two calls overlap, and the second is over the cap of two bytes: the counters are above it for
a moment, the guards are not, and when the second is taken back the counters are exact. -/
theorem budget_holds_guard : ∃ s s' : State 3, Reached ⟨2, 2⟩ s ∧ Reached ⟨2, 2⟩ s' ∧ s.bytes = 3 ∧
    total aliveLenOf s.at_ ≤ 2 ∧ s'.at_ ⟨2, by decide⟩ = none ∧ s'.count = total aliveOf s'.at_ := by
  let a : Addr 3 := ⟨1, by decide⟩
  let b : Addr 3 := ⟨2, by decide⟩
  have both := Reached.step (b := ⟨2, 2⟩) (.tryReserve b 1)
    (.step (.tryReserve a 2) .new rfl (by unfold Fits; decide)) rfl (by unfold Fits; decide)
  have late := Reached.step (.next b) (.step (.next a) both rfl (by unfold Fits; decide)) rfl (by unfold Fits; decide)
  have back := Reached.step (.next b) (.step (.next b) late rfl (by unfold Fits; decide)) rfl (by unfold Fits; decide)
  refine ⟨_, _, late, back, rfl, (budget_holds _ _ late).2.1, rfl, ?_⟩
  refine ((budget_holds _ _ back).2.2.2.2.1 fun c p here => ?_).1
  by_cases first : c = a
  · subst first
    cases here
    exact ⟨2, rfl⟩
  · have gone : ∀ c, c ≠ a → (update (update (update (update (update (update (fun _ => none) a (some (.counted 2))) b
        (some (.counted 1))) a (some (.guard 2))) b (some (.overBytes 1))) b (some (.overSlot 1))) b none) c =
        (none : Option Phase) := by decide
    cases (gone c first).symm.trans here

end Sailing.Budget
