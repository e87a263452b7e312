import Mathlib.Data.List.Lex
import Mathlib.Order.Fin.Basic
import Sailing.Lib.Octets
import Sailing.Model.Basic

/-!
# The `Data` codec

The element codec of `data.rs`, over every type that `Vec` and `BTreeSet` build from `u64`,
`bool`, `()` and `Bytes`. An element is read back from the front of any bytes, and what is read
is the encoding of what was found: so one value has one encoding. The two collections are read by
one loop. Beside the answer a decode counts the elements it decoded.
-/

namespace Sailing.Data

open List (length_append append_assoc pairwise_append)

inductive DecodeError where
  | unexpectedEof
  | invalid (what : String)
deriving DecidableEq, Repr

/-! ## Types and values -/

inductive Ty where
  | u64
  | bool
  | unit
  | bytes
  | vec (t : Ty)
  | set (t : Ty)

/-- The values of a type in their order; a set is the list of its elements as they are iterated. -/
def Ty.interp : Ty → (α : Type) × LinearOrder α
  | .u64 => ⟨Fin (2 ^ 64), inferInstance⟩
  | .bool => ⟨Bool, inferInstance⟩
  | .unit => ⟨Unit, inferInstance⟩
  | .bytes => ⟨Bytes, LinearOrder.lift' (List.map UInt8.toNat) (List.map_injective_iff.mpr fun _ _ => UInt8.toNat_inj.mp)⟩
  | .vec t | .set t => ⟨List t.interp.1, @List.instLinearOrder _ t.interp.2⟩

abbrev Val (t : Ty) : Type := t.interp.1

instance (t : Ty) : LinearOrder (Val t) := t.interp.2

/-- Lengths are those of memory, and a set is in ascending order. -/
def Valid : (t : Ty) → Val t → Prop
  | .u64, _ | .bool, _ | .unit, _ => True
  | .bytes, (b : Bytes) => b.length < 2 ^ 64
  | .vec t, (l : List (Val t)) => l.length < 2 ^ 64 ∧ ∀ x ∈ l, Valid t x
  | .set t, (l : List (Val t)) => (l.length < 2 ^ 64 ∧ ∀ x ∈ l, Valid t x) ∧ l.Pairwise (· < ·)

/-- The collections around an element of the innermost type. -/
def Ty.depth : Ty → Nat
  | .vec t | .set t => t.depth + 1
  | _ => 0

/-! ## The codec -/

/-- `u64::to_le_bytes`. -/
def le (n : Nat) : Bytes := (Octets.be 8 n).reverse

def encode : (t : Ty) → Val t → Bytes
  | .u64, (n : Fin _) => le n.val
  | .bool, (b : Bool) => [if b then 1 else 0]
  | .unit, _ => [0]
  | .bytes, (b : Bytes) => le b.length ++ b
  | .vec t, (l : List (Val t)) | .set t, (l : List (Val t)) => le l.length ++ l.flatMap (encode t)

/-- How many elements were decoded, and the value with what is left. -/
abbrev Decoded (α : Type) := Nat × Except DecodeError (α × Bytes)

/-- `decode_len` too: a count of 64 bits is a `usize`. -/
def takeU64 (b : Bytes) : Except DecodeError (Fin (2 ^ 64) × Bytes) :=
  if b.length < 8 then .error .unexpectedEof
  else .ok (Fin.ofNat (2 ^ 64) (Octets.ofBe (b.take 8).reverse), b.drop 8)

section

variable {α : Type}

/-- The loop of a collection: `refuse` is what it holds against an element, after those before it. -/
def decodeItems (dec : Bytes → Decoded α) (zeroWidth : DecodeError) (refuse : List α → α → Option DecodeError) :
    Nat → List α → Bytes → Decoded (List α)
  | 0, items, b => (0, .ok (items, b))
  | n + 1, items, b =>
    match dec b with
    | (k, .error e) => (k + 1, .error e)
    | (k, .ok (x, rest)) =>
      if rest.length = b.length then (k + 1, .error zeroWidth)
      else
        match refuse items x with
        | some e => (k + 1, .error e)
        | none =>
          let more := decodeItems dec zeroWidth refuse n (items ++ [x]) rest
          (k + 1 + more.1, more.2)

def decodeCollection (dec : Bytes → Decoded α) (zeroWidth : DecodeError) (refuse : List α → α → Option DecodeError) (b : Bytes) :
    Decoded (List α) :=
  match takeU64 b with
  | .error e => (0, .error e)
  | .ok (len, rest) => decodeItems dec zeroWidth refuse len.val [] rest

def notAscending [LinearOrder α] (items : List α) (x : α) : Option DecodeError :=
  if items.getLast?.any (x ≤ ·) then some (.invalid "set elements must be strictly ascending") else none

end

def decode : (t : Ty) → Bytes → Decoded (Val t)
  | .u64, b => (0, takeU64 b)
  | .bool, b =>
    (0, match b with
      | [] => .error .unexpectedEof
      | x :: rest => if x = 0 then .ok (false, rest) else if x = 1 then .ok (true, rest) else .error (.invalid "bool"))
  | .unit, b =>
    (0, match b with
      | [] => .error .unexpectedEof
      | x :: rest => if x = 0 then .ok ((), rest) else .error (.invalid "unit"))
  | .bytes, b =>
    (0, match takeU64 b with
      | .error e => .error e
      | .ok (len, rest) => if rest.length < len.val then .error .unexpectedEof else .ok (rest.take len.val, rest.drop len.val))
  | .vec t, b => decodeCollection (decode t) (.invalid "zero-width vec element") (fun _ _ => none) b
  | .set t, b => decodeCollection (decode t) (.invalid "zero-width set element") notAscending b

def decodeExact (t : Ty) (b : Bytes) : Except DecodeError (Val t) :=
  match (decode t b).2 with
  | .error e => .error e
  | .ok (v, rest) => if rest = [] then .ok v else .error (.invalid "trailing bytes after value")

/-! ## Lengths -/

theorem length_le (n : Nat) : (le n).length = 8 := by rw [le, List.length_reverse, Octets.length_be]

theorem ofBe_lt (bs : Bytes) : Octets.ofBe bs < 256 ^ bs.length := by
  induction bs using List.reverseRecOn with
  | nil => decide
  | append_singleton bs b ih =>
    rw [Octets.ofBe_concat, length_append, List.length_singleton, Nat.pow_succ]
    have := b.toNat_lt
    omega

theorem takeU64_le (n : Fin (2 ^ 64)) (rest : Bytes) : takeU64 (le n.val ++ rest) = .ok (n, rest) := by
  have length := length_le n.val
  unfold takeU64
  rw [if_neg (by rw [length_append]; omega), List.take_left' length, List.drop_left' length, le, List.reverse_reverse,
    Octets.ofBe_be (by exact n.isLt)]
  congr 2
  exact Fin.ext (Nat.mod_eq_of_lt n.isLt)

theorem takeU64_ok {b rest : Bytes} {n : Fin (2 ^ 64)} (h : takeU64 b = .ok (n, rest)) : b = le n.val ++ rest := by
  unfold takeU64 at h
  split at h
  · cases h
  next long =>
  have eight : (b.take 8).reverse.length = 8 := by
    rw [List.length_reverse, List.length_take]
    omega
  have small := ofBe_lt (b.take 8).reverse
  have back := Octets.be_ofBe (b.take 8).reverse
  rw [eight] at small back
  obtain ⟨rfl, rfl⟩ := Prod.mk.inj (Except.ok.inj h)
  have value : (Fin.ofNat (2 ^ 64) (Octets.ofBe (b.take 8).reverse)).val = Octets.ofBe (b.take 8).reverse := Nat.mod_eq_of_lt small
  rw [value, le, back, List.reverse_reverse, List.take_append_drop]

/-! ## Lawful codecs -/

section

variable {α : Type} {enc : α → Bytes} {dec : Bytes → Decoded α} {valid : α → Prop} {depth : Nat}

/-- A decoder that is inverse to an encoder at the front of any bytes, and what it costs. -/
structure Lawful (enc : α → Bytes) (dec : Bytes → Decoded α) (valid : α → Prop) (depth : Nat) : Prop where
  complete : ∀ v, valid v → ∀ rest, (dec (enc v ++ rest)).2 = .ok (v, rest)
  sound : ∀ b v rest, (dec b).2 = .ok (v, rest) → valid v ∧ b = enc v ++ rest
  progress : ∀ b v rest, (dec b).2 = .ok (v, rest) → (dec b).1 + 1 + rest.length ≤ b.length
  bounded : ∀ b, (dec b).1 ≤ b.length + depth

theorem Lawful.of_plain (zero : ∀ b, (dec b).1 = 0) (pos : ∀ v, 0 < (enc v).length)
    (complete : ∀ v, valid v → ∀ rest, (dec (enc v ++ rest)).2 = .ok (v, rest))
    (sound : ∀ b v rest, (dec b).2 = .ok (v, rest) → valid v ∧ b = enc v ++ rest) : Lawful enc dec valid 0 where
  complete := complete
  sound := sound
  progress := fun b v rest ok => by
    have := pos v
    rw [zero, (sound b v rest ok).2, length_append]
    omega
  bounded := fun b => by
    rw [zero]
    exact Nat.zero_le _

variable (zeroWidth : DecodeError) (refuse : List α → α → Option DecodeError) {ordered : List α → Prop}

/-- What the loop reads is what was written, in order, and each element takes a byte of its own;
one that is not read ends the loop. -/
theorem decodeItems_spec (h : Lawful enc dec valid depth)
    (keeps : ∀ items x, ordered items → refuse items x = none → ordered (items ++ [x])) (n : Nat) (items : List α) (b : Bytes)
    (so_far : ordered items) :
    (decodeItems dec zeroWidth refuse n items b).1 ≤ b.length + (depth + 1) ∧
      ∀ l rest, (decodeItems dec zeroWidth refuse n items b).2 = .ok (l, rest) →
        (decodeItems dec zeroWidth refuse n items b).1 + rest.length ≤ b.length ∧ ordered l ∧
          ∃ xs, l = items ++ xs ∧ xs.length = n ∧ (∀ x ∈ xs, valid x) ∧ b = xs.flatMap enc ++ rest := by
  induction n generalizing items b with
  | zero =>
    refine ⟨Nat.zero_le _, ?_⟩
    rintro l rest ⟨⟩
    exact ⟨(Nat.zero_add _).le, so_far, [], (List.append_nil _).symm, rfl, nofun, rfl⟩
  | succ n ih =>
    have bound := h.bounded b
    cases read : dec b with
    | mk k answer =>
    rw [read] at bound
    cases answer with
    | error e =>
      simp only [decodeItems, read]
      exact ⟨by omega, nofun⟩
    | ok p =>
      obtain ⟨x, left⟩ := p
      have moved := h.progress b x left (by rw [read])
      rw [read] at moved
      simp only [decodeItems, read]
      split
      · exact ⟨by omega, nofun⟩
      cases refused : refuse items x with
      | some e => exact ⟨by show k + 1 ≤ _; omega, nofun⟩
      | none =>
        obtain ⟨all, done⟩ := ih (items ++ [x]) left (keeps items x so_far refused)
        refine ⟨by show k + 1 + _ ≤ _; omega, fun l rest ok => ?_⟩
        obtain ⟨cost, order, xs, rfl, length, every, more⟩ := done l rest ok
        obtain ⟨good, bytes⟩ := h.sound b x left (by rw [read])
        refine ⟨by show k + 1 + _ + _ ≤ _; omega, order, x :: xs, by simp, by rw [List.length_cons, length],
          List.forall_mem_cons.mpr ⟨good, every⟩, ?_⟩
        rw [bytes, more, List.flatMap_cons, append_assoc]

theorem decodeItems_complete (h : Lawful enc dec valid depth)
    (allows : ∀ items x rest, ordered (items ++ x :: rest) → refuse items x = none) (xs items : List α) (rest : Bytes)
    (all : ∀ x ∈ xs, valid x) (order : ordered (items ++ xs)) :
    (decodeItems dec zeroWidth refuse xs.length items (xs.flatMap enc ++ rest)).2 = .ok (items ++ xs, rest) := by
  induction xs generalizing items with
  | nil => rw [List.append_nil]; rfl
  | cons x xs ih =>
    obtain ⟨good, all⟩ := List.forall_mem_cons.mp all
    have read := h.complete x good (xs.flatMap enc ++ rest)
    have moved := h.progress _ _ _ read
    rw [← append_assoc, ← List.flatMap_cons] at read moved
    cases answer : dec ((x :: xs).flatMap enc ++ rest) with
    | mk k value =>
    rw [answer] at read moved
    subst read
    simp only [List.length_cons, decodeItems, answer]
    rw [if_neg (by omega), allows items x xs order]
    have more := ih (items ++ [x]) all (by rwa [append_assoc])
    rwa [append_assoc] at more

theorem decodeCollection_cases (dec : Bytes → Decoded α) (b : Bytes) : (∃ e, decodeCollection dec zeroWidth refuse b = (0, .error e)) ∨
    ∃ len left, b = le len ++ left ∧ len < 2 ^ 64 ∧
      decodeCollection dec zeroWidth refuse b = decodeItems dec zeroWidth refuse len [] left := by
  unfold decodeCollection
  cases head : takeU64 b with
  | error e => exact .inl ⟨e, rfl⟩
  | ok p => exact .inr ⟨p.1.val, p.2, takeU64_ok head, p.1.isLt, rfl⟩

theorem Lawful.collection (ordered : List α → Prop) (h : Lawful enc dec valid depth) (start : ordered [])
    (keeps : ∀ items x, ordered items → refuse items x = none → ordered (items ++ [x]))
    (allows : ∀ items x rest, ordered (items ++ x :: rest) → refuse items x = none) :
    Lawful (fun l => le l.length ++ l.flatMap enc) (decodeCollection dec zeroWidth refuse)
      (fun l => (l.length < 2 ^ 64 ∧ ∀ x ∈ l, valid x) ∧ ordered l) (depth + 1) := by
  have spec (b : Bytes) : (decodeCollection dec zeroWidth refuse b).1 ≤ b.length + (depth + 1) ∧
      ∀ l rest, (decodeCollection dec zeroWidth refuse b).2 = .ok (l, rest) →
        (((l.length < 2 ^ 64 ∧ ∀ x ∈ l, valid x) ∧ ordered l) ∧ b = le l.length ++ l.flatMap enc ++ rest) ∧
          (decodeCollection dec zeroWidth refuse b).1 + 1 + rest.length ≤ b.length := by
    rcases decodeCollection_cases zeroWidth refuse dec b with ⟨e, failed⟩ | ⟨len, left, rfl, short, reads⟩
    · rw [failed]
      exact ⟨Nat.zero_le _, nofun⟩
    · obtain ⟨bound, done⟩ := decodeItems_spec zeroWidth refuse h keeps len [] left start
      rw [reads, length_append, length_le]
      refine ⟨by omega, fun l rest ok => ?_⟩
      obtain ⟨cost, order, xs, rfl, rfl, all, bytes⟩ := done l rest ok
      exact ⟨⟨⟨⟨short, all⟩, order⟩, by rw [append_assoc, bytes]⟩, by omega⟩
  refine ⟨?_, fun b l rest ok => ((spec b).2 l rest ok).1, fun b l rest ok => ((spec b).2 l rest ok).2, fun b => (spec b).1⟩
  rintro l ⟨⟨short, all⟩, order⟩ rest
  have head := takeU64_le ⟨l.length, short⟩ (l.flatMap enc ++ rest)
  simp only [decodeCollection, append_assoc, head]
  exact decodeItems_complete zeroWidth refuse h allows l [] rest all order

end

/-! ## The types -/

theorem ascending_concat {α : Type} [LinearOrder α] {items : List α} {x : α} (order : items.Pairwise (· < ·)) :
    notAscending items x = none ↔ (items ++ [x]).Pairwise (· < ·) := by
  unfold notAscending
  rw [pairwise_append]
  induction items using List.reverseRecOn with
  | nil => simp
  | append_singleton items y _ =>
    have below := (pairwise_append.mp order).2.2
    simp only [List.getLast?_concat, Option.any_some, ite_eq_right_iff, reduceCtorEq, imp_false, decide_eq_true_eq, not_le,
      order, List.pairwise_singleton, List.mem_append, List.mem_singleton, forall_eq, true_and]
    constructor
    · rintro lt z (mem | rfl)
      · exact (below z mem y (List.mem_singleton_self y)).trans lt
      · exact lt
    · intro all
      exact all y (.inr rfl)

theorem lawful (t : Ty) : Lawful (encode t) (decode t) (Valid t) t.depth := by
  induction t with
  | u64 =>
    refine .of_plain (fun _ => rfl) (fun v => by show 0 < (le _).length; rw [length_le]; decide) ?_ ?_
    · exact fun v _ rest => takeU64_le v rest
    · exact fun b v rest ok => ⟨trivial, takeU64_ok ok⟩
  | bool =>
    refine .of_plain (fun _ => rfl) (fun _ => Nat.zero_lt_one) ?_ ?_
    · rintro (_ | _) - rest <;> rfl
    · rintro (_ | ⟨x, left⟩) v rest ok
      · cases ok
      · simp only [decode] at ok
        split at ok
        · next zero =>
          cases ok
          exact ⟨trivial, by rw [zero]; rfl⟩
        split at ok
        · next one =>
          cases ok
          exact ⟨trivial, by rw [one]; rfl⟩
        · cases ok
  | unit =>
    refine .of_plain (fun _ => rfl) (fun _ => Nat.zero_lt_one) ?_ ?_
    · exact fun _ _ rest => rfl
    · rintro (_ | ⟨x, left⟩) v rest ok
      · cases ok
      · simp only [decode] at ok
        split at ok
        · next zero =>
          cases ok
          exact ⟨trivial, by rw [zero]; rfl⟩
        · cases ok
  | bytes =>
    refine .of_plain (fun _ => rfl) (fun (v : Bytes) => by show 0 < (le v.length ++ v).length; rw [length_append, length_le]; omega) ?_ ?_
    · intro (v : Bytes) short rest
      have head := takeU64_le ⟨v.length, short⟩ (v ++ rest)
      simp only [encode, decode, append_assoc, head]
      rw [if_neg (by rw [length_append]; omega), List.take_left, List.drop_left]
    · intro b v rest ok
      cases head : takeU64 b with
      | error e =>
        simp only [decode, head] at ok
        cases ok
      | ok p =>
        obtain ⟨len, left⟩ := p
        simp only [decode, head] at ok
        split at ok
        · cases ok
        next long =>
        cases ok
        have length : (left.take len.val).length = len.val := by
          rw [List.length_take]
          omega
        refine ⟨by show List.length _ < _; rw [length]; exact len.isLt, ?_⟩
        show b = le (List.length _) ++ _ ++ _
        rw [takeU64_ok head, length, append_assoc, List.take_append_drop]
  | vec t ih =>
    have all := Lawful.collection (.invalid "zero-width vec element") (fun _ _ => none) (fun _ => True) ih trivial
      (fun _ _ _ _ => trivial) fun _ _ _ _ => rfl
    exact ⟨fun v good => all.complete v ⟨good, trivial⟩, fun b v rest ok => ⟨(all.sound b v rest ok).1.1, (all.sound b v rest ok).2⟩,
      all.progress, all.bounded⟩
  | set t ih =>
    refine Lawful.collection (.invalid "zero-width set element") notAscending (fun l => l.Pairwise (· < ·)) ih .nil
      (fun items x order => (ascending_concat order).mp) fun items x rest order => ?_
    rw [← List.singleton_append, ← append_assoc] at order
    have front := (pairwise_append.mp order).1
    exact (ascending_concat (pairwise_append.mp front).1).mpr front

/-- The codec is canonical: a value is decoded from its encoding and from nothing else, at the
front of any bytes, and no input makes a decode read more elements than it has bytes, and one at
each level of nesting. -/
theorem data_codec_canonical (t : Ty) :
    (∀ (v : Val t) (b : Bytes), decodeExact t b = .ok v ↔ Valid t v ∧ b = encode t v) ∧
      (∀ v, Valid t v → ∀ rest, (decode t (encode t v ++ rest)).2 = .ok (v, rest)) ∧
      ∀ b, (decode t b).1 ≤ b.length + t.depth := by
  have h := lawful t
  refine ⟨fun v b => ⟨fun ok => ?_, ?_⟩, h.complete, h.bounded⟩
  · unfold decodeExact at ok
    split at ok
    · cases ok
    next x rest read =>
    split at ok
    · next done =>
      cases ok
      obtain ⟨good, bytes⟩ := h.sound b v rest read
      rw [done, List.append_nil] at bytes
      exact ⟨good, bytes⟩
    · cases ok
  · rintro ⟨good, rfl⟩
    have read := h.complete v good []
    rw [List.append_nil] at read
    unfold decodeExact
    rw [read]
    rfl

end Sailing.Data
