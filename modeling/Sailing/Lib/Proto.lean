import Sailing.Lib.Octets
import Mathlib.Order.Monotone.Defs

/-!
# Protobuf fields

The bytes of proto3 fields: a scalar at its default value is absent, an embedded
message or an element of a repeated field is written whatever it holds. Each encoder
has its size beside it, as code that sizes a message without building it computes it.
Field numbers below 16 have a tag of one byte.
-/

namespace Proto

abbrev Bytes := List UInt8

/-! ## Varints -/

/-- A `uint64` in groups of seven bits, ten at most. -/
def varint (n : Nat) : Bytes := Octets.leb 9 n

/-- The groups `Octets.leb` writes. -/
def groups : Nat → Nat → Nat
  | 0, _ => 1
  | k + 1, n => if 0x80 ≤ n then groups k (n >>> 7) + 1 else 1

def varintLen (n : Nat) : Nat := groups 9 n

theorem length_leb (k n : Nat) : (Octets.leb k n).length = groups k n := by
  induction k generalizing n with
  | zero => rfl
  | succ k ih =>
    unfold Octets.leb groups
    split
    · rw [List.length_cons, ih]
    · rfl

@[simp] theorem length_varint (n : Nat) : (varint n).length = varintLen n := length_leb 9 n

theorem groups_le (k n : Nat) : groups k n ≤ k + 1 := by
  induction k generalizing n with
  | zero => exact le_rfl
  | succ k ih =>
    unfold groups
    split
    · exact Nat.succ_le_succ (ih _)
    · omega

theorem varintLen_le (n : Nat) : varintLen n ≤ 10 := groups_le 9 n

theorem groups_pos (k n : Nat) : 0 < groups k n := by
  cases k with
  | zero => exact Nat.one_pos
  | succ =>
    unfold groups
    split <;> omega

theorem groups_mono (k : Nat) {m n : Nat} (h : m ≤ n) : groups k m ≤ groups k n := by
  induction k generalizing m n with
  | zero => exact le_rfl
  | succ k ih =>
    have shifted : m >>> 7 ≤ n >>> 7 := by
      rw [Nat.shiftRight_eq_div_pow, Nat.shiftRight_eq_div_pow]
      exact Nat.div_le_div_right h
    have first := groups_pos k (n >>> 7)
    unfold groups
    split
    · next hm =>
      rw [if_pos (hm.trans h)]
      exact Nat.succ_le_succ (ih shifted)
    · split <;> omega

theorem varintLen_mono {m n : Nat} (h : m ≤ n) : varintLen m ≤ varintLen n := groups_mono 9 h

/-! ## Fields -/

inductive WireType where
  | varint
  | lengthDelimited
deriving DecidableEq, Repr

def WireType.code : WireType → Nat
  | varint => 0
  | lengthDelimited => 2

def tag (field : Nat) (wireType : WireType) : Bytes := varint (field * 8 + wireType.code)

def uint64 (field value : Nat) : Bytes := if value = 0 then [] else tag field .varint ++ varint value

def bool (field : Nat) (value : Bool) : Bytes := if value then tag field .varint ++ [1] else []

/-- An embedded message, or one element of a repeated field. -/
def delimited (field : Nat) (body : Bytes) : Bytes :=
  tag field .lengthDelimited ++ varint body.length ++ body

def bytes (field : Nat) (value : Bytes) : Bytes := if value = [] then [] else delimited field value

/-- The elements of a repeated field. -/
def repeated (field : Nat) (elements : List Bytes) : Bytes := elements.flatMap (delimited field)

/-! ## Sizes -/

/-- A present field of `n` bytes behind its length. -/
def delimitedLen (n : Nat) : Nat := 1 + varintLen n + n

def uint64Len (value : Nat) : Nat := if value = 0 then 0 else 1 + varintLen value

def bytesLen (n : Nat) : Nat := if n = 0 then 0 else delimitedLen n

section Sizes

variable {field : Nat} (h : field < 16)

include h

theorem length_tag (wireType : WireType) : (tag field wireType).length = 1 := by
  have small : field * 8 + wireType.code < 0x80 := by
    cases wireType <;> simp only [WireType.code] <;> omega
  rw [tag, length_varint, varintLen, groups, if_neg (not_le.mpr small)]

theorem length_uint64 (value : Nat) : (uint64 field value).length = uint64Len value := by
  unfold uint64 uint64Len
  split
  · rfl
  · rw [List.length_append, length_tag h, length_varint]

theorem length_bool (value : Bool) : (bool field value).length = if value then 2 else 0 := by
  unfold bool
  split
  · rw [List.length_append, length_tag h, List.length_singleton]
  · rfl

theorem length_delimited (body : Bytes) : (delimited field body).length = delimitedLen body.length := by
  rw [delimited, List.length_append, List.length_append, length_tag h, length_varint, delimitedLen]

theorem length_bytes (value : Bytes) : (bytes field value).length = bytesLen value.length := by
  unfold bytes bytesLen
  simp only [List.length_eq_zero_iff]
  split
  · rfl
  · exact length_delimited h value

theorem length_repeated (elements : List Bytes) :
    (repeated field elements).length = (elements.map fun e => delimitedLen e.length).sum := by
  unfold repeated
  rw [List.length_flatMap]
  congr 1
  exact List.map_congr_left fun e _ => length_delimited h e

end Sizes

theorem uint64Len_le (value : Nat) : uint64Len value ≤ 11 := by
  have := varintLen_le value
  unfold uint64Len
  split <;> omega

theorem bytesLen_of_pos {n : Nat} (h : 0 < n) : bytesLen n = delimitedLen n := if_neg (by omega)

theorem bytesLen_le (n : Nat) : bytesLen n ≤ delimitedLen n := by
  unfold bytesLen
  split
  · exact Nat.zero_le _
  · exact le_rfl

theorem delimitedLen_strictMono : StrictMono delimitedLen := by
  intro m n h
  have := varintLen_mono h.le
  unfold delimitedLen
  omega

end Proto
