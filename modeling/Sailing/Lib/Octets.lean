import Mathlib.Algebra.Ring.Nat
import Mathlib.Data.List.Induction
import Mathlib.Tactic.Ring

/-!
# Numbers as bytes

Big-endian numbers of a fixed width (`be`, `ofBe`) and base-128 varints, least
significant group first, with the continuation bit on every byte but the last
(`leb`, `readLeb`). What is read back from what was written, whatever follows
it, is the number (`ofBe_be`, `readLeb_leb`).
-/

namespace Octets

/-! ## Fixed width -/

/-- The `k` low-order bytes of `n`, most significant first. -/
def be : Nat → Nat → List UInt8
  | 0, _ => []
  | k + 1, n => be k (n / 256) ++ [UInt8.ofNat n]

def ofBe (bs : List UInt8) : Nat := bs.foldl (fun acc b => acc * 256 + b.toNat) 0

@[simp] theorem length_be (k n : Nat) : (be k n).length = k := by
  induction k generalizing n with
  | zero => rfl
  | succ k ih => simp [be, ih]

theorem ofBe_concat (bs : List UInt8) (b : UInt8) : ofBe (bs ++ [b]) = ofBe bs * 256 + b.toNat := by
  simp [ofBe, List.foldl_append]

theorem ofBe_be {k n : Nat} (h : n < 256 ^ k) : ofBe (be k n) = n := by
  induction k generalizing n with
  | zero =>
    have h0 : n = 0 := by simpa using h
    rw [h0]
    rfl
  | succ k ih =>
    have hdiv : n / 256 < 256 ^ k := Nat.div_lt_of_lt_mul (by rw [Nat.pow_succ'] at h; exact h)
    have hb : (UInt8.ofNat n).toNat = n % 256 := by simp
    rw [be, ofBe_concat, ih hdiv, hb]
    omega

theorem be_ofBe (bs : List UInt8) : be bs.length (ofBe bs) = bs := by
  induction bs using List.reverseRecOn with
  | nil => rfl
  | append_singleton bs b ih =>
    have lt : b.toNat < 256 := b.toNat_lt
    have low : UInt8.ofNat (ofBe bs * 256 + b.toNat) = b := by
      rw [← UInt8.toNat_inj, UInt8.toNat_ofNat']
      omega
    rw [List.length_append, List.length_singleton, be, ofBe_concat, low,
      show (ofBe bs * 256 + b.toNat) / 256 = ofBe bs by omega, ih]

/-! ## Varints -/

/-- At most `k` bytes with the continuation bit, then the last one. -/
def leb : Nat → Nat → List UInt8
  | 0, n => [UInt8.ofNat n]
  | k + 1, n => if 0x80 ≤ n then (UInt8.ofNat n ||| 0x80) :: leb k (n >>> 7) else [UInt8.ofNat n]

/-- Reads byte `i` and on, `v` being what the bytes before it say. The last of
the `width` bytes may hold no more than `top`. -/
def readLeb (width top : Nat) : Nat → Nat → List UInt8 → Option (Nat × Nat)
  | _, _, [] => none
  | i, v, b :: rest =>
    if width ≤ i then none
    else
      let payload := (b &&& 0x7F).toNat
      if i = width - 1 ∧ top < payload then none
      else
        let v := v ||| payload <<< (7 * i)
        if b &&& 0x80 = 0 then some (v, i + 1) else readLeb width top (i + 1) v rest

theorem low_bits {n : Nat} (b : UInt8) (h : b.toNat % 128 = n % 128) : (b &&& 0x7F).toNat = n % 128 := by
  rw [UInt8.toNat_and, show (0x7F : UInt8).toNat = 2 ^ 7 - 1 from rfl, Nat.and_two_pow_sub_one_eq_mod]
  exact h

/-- The continuation bit leaves the other seven alone. -/
theorem or_high (n : Nat) : (UInt8.ofNat n ||| 0x80).toNat % 128 = n % 128 ∧ (UInt8.ofNat n ||| 0x80) &&& 0x80 ≠ 0 := by
  have all : ∀ m : Fin 256, (UInt8.ofNat m.val ||| 0x80).toNat % 128 = m.val % 128 ∧
      (UInt8.ofNat m.val ||| 0x80) &&& 0x80 ≠ 0 := by decide +kernel
  have hn : UInt8.ofNat n = UInt8.ofNat (n % 256) := UInt8.toNat_inj.mp (by simp)
  have h := all ⟨n % 256, Nat.mod_lt _ (by decide)⟩
  rw [hn]
  refine ⟨h.1.trans ?_, h.2⟩
  show n % 256 % 128 = n % 128
  omega

theorem and_high {n : Nat} (h : n < 128) : UInt8.ofNat n &&& 0x80 = 0 := by
  have all : ∀ m : Fin 128, UInt8.ofNat m.val &&& 0x80 = 0 := by decide +kernel
  exact all ⟨n, h⟩

theorem or_shiftLeft {v i : Nat} (p : Nat) (h : v < 2 ^ (7 * i)) : v ||| p <<< (7 * i) = v + p * 2 ^ (7 * i) := by
  rw [Nat.shiftLeft_eq, Nat.or_comm, Nat.mul_comm p, ← Nat.two_pow_add_eq_or_of_lt h, Nat.add_comm]

/-- What was written is read back, at any byte and with anything behind it. -/
theorem readLeb_leb {width top k i v n : Nat} {rest : List UInt8} (hw : i + k + 1 = width)
    (hv : v < 2 ^ (7 * i)) (hn : n < (top + 1) * 2 ^ (7 * k)) (ht : top < 128) :
    readLeb width top i v (leb k n ++ rest) = some (v + n * 2 ^ (7 * i), i + (leb k n).length) := by
  induction k generalizing i v n with
  | zero =>
    have hn : n < top + 1 := by simpa using hn
    have hp : (UInt8.ofNat n &&& 0x7F).toNat = n := by
      rw [low_bits (n := n) _ (by simp)]
      omega
    have hlast : UInt8.ofNat n &&& 0x80 = 0 := and_high (by omega)
    have hwi : ¬ width ≤ i := by omega
    have htop : ¬ (i = width - 1 ∧ top < n) := by omega
    simp only [leb, List.cons_append, List.nil_append, readLeb, if_neg hwi, hp, if_neg htop, hlast,
      if_true, or_shiftLeft n hv, List.length_singleton]
  | succ k ih =>
    have hwi : ¬ width ≤ i := by omega
    have hni : ¬ i = width - 1 := by omega
    unfold leb
    split
    · next hge =>
      -- seven bits here, the others further on
      have hp : ((UInt8.ofNat n ||| 0x80) &&& 0x7F).toNat = n % 128 := low_bits _ (or_high n).1
      have hshift : n >>> 7 = n / 128 := by rw [Nat.shiftRight_eq_div_pow]
      have hpow : (2 : Nat) ^ (7 * (i + 1)) = 128 * 2 ^ (7 * i) := by
        rw [show 7 * (i + 1) = 7 + 7 * i by ring, Nat.pow_add]
      have hv' : v + n % 128 * 2 ^ (7 * i) < 2 ^ (7 * (i + 1)) := by
        have hm : n % 128 + 1 ≤ 128 := Nat.mod_lt _ (by decide)
        calc v + n % 128 * 2 ^ (7 * i) < 2 ^ (7 * i) + n % 128 * 2 ^ (7 * i) := by omega
          _ = (n % 128 + 1) * 2 ^ (7 * i) := by ring
          _ ≤ 128 * 2 ^ (7 * i) := Nat.mul_le_mul_right _ hm
          _ = 2 ^ (7 * (i + 1)) := hpow.symm
      have hn' : n / 128 < (top + 1) * 2 ^ (7 * k) := by
        refine Nat.div_lt_of_lt_mul (hn.trans_eq ?_)
        rw [show 7 * (k + 1) = 7 + 7 * k by ring, Nat.pow_add]
        ring
      have hstep := ih (i := i + 1) (by omega) hv' hn'
      simp only [List.cons_append, readLeb, if_neg hwi, hni, false_and, if_false, hp, (or_high n).2,
        or_shiftLeft _ hv, hshift, hstep, List.length_cons]
      refine congrArg some (Prod.ext ?_ (by simp only; omega))
      have hdm := Nat.div_add_mod n 128
      calc v + n % 128 * 2 ^ (7 * i) + n / 128 * 2 ^ (7 * (i + 1))
          = v + (128 * (n / 128) + n % 128) * 2 ^ (7 * i) := by rw [hpow]; ring
        _ = v + n * 2 ^ (7 * i) := by rw [hdm]
    · next hlt =>
      have hlt : n < 128 := not_le.mp hlt
      have hp : (UInt8.ofNat n &&& 0x7F).toNat = n := by
        rw [low_bits (n := n) _ (by simp)]
        omega
      simp only [List.cons_append, List.nil_append, readLeb, if_neg hwi, hni, false_and, if_false, hp,
        and_high hlt, if_true, or_shiftLeft n hv, List.length_singleton]

end Octets
