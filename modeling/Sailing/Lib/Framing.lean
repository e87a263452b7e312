import Mathlib.Data.List.Basic
import Mathlib.Order.Lattice

/-!
# Length-prefixed frames

A frame is a header of `width` symbols, which declares the length of the payload, and the
payload. `Splits w ps rest` says that `w` is the frames of `ps` and then `rest`; a header that
declares more than `limit` starts no frame. `parse` takes frames while there are any, and it is
the only way to do so (`Splits.eq_parse`): whatever was split off first, the rest splits as
before.
-/

namespace Framing

variable {α : Type} {width : Nat} {size : List α → Nat} {limit : Nat} {w x rest rest' : List α} {ps qs : List (List α)}

inductive Splits (width : Nat) (size : List α → Nat) (limit : Nat) : List α → List (List α) → List α → Prop where
  | done (w : List α) : Splits width size limit w [] w
  | frame {head payload w rest : List α} {ps : List (List α)} (header : head.length = width)
      (declared : size head = payload.length) (small : payload.length ≤ limit)
      (more : Splits width size limit w ps rest) : Splits width size limit (head ++ payload ++ w) (payload :: ps) rest

/-- A header declares too much. -/
def Oversized (width : Nat) (size : List α → Nat) (limit : Nat) (w : List α) : Prop :=
  width ≤ w.length ∧ limit < size (w.take width)

/-- A header or a payload is not there yet. -/
def Partial (width : Nat) (size : List α → Nat) (w : List α) : Prop :=
  w.length < width ∨ w.length < width + size (w.take width)

/-- No frame can be taken. -/
def Ends (width : Nat) (size : List α → Nat) (limit : Nat) (w : List α) : Prop :=
  Oversized width size limit w ∨ Partial width size w

instance (w : List α) : Decidable (Oversized width size limit w) := inferInstanceAs (Decidable (_ ∧ _))

instance (w : List α) : Decidable (Ends width size limit w) :=
  inferInstanceAs (Decidable (Oversized width size limit w ∨ _ ∨ _))

/-- Takes frames while there are any. -/
def parseFrom (width : Nat) (size : List α → Nat) (limit : Nat) : Nat → List α → List (List α) × List α
  | 0, w => ([], w)
  | fuel + 1, w =>
    if Ends width size limit w then ([], w)
    else
      let (ps, rest) := parseFrom width size limit fuel (w.drop (width + size (w.take width)))
      ((w.drop width).take (size (w.take width)) :: ps, rest)

/-- The payloads of the frames, and what follows them. -/
def parse (width : Nat) (size : List α → Nat) (limit : Nat) (w : List α) : List (List α) × List α :=
  parseFrom width size limit w.length w

namespace Splits

theorem append (h : Splits width size limit w ps rest) (x : List α) :
    Splits width size limit (w ++ x) ps (rest ++ x) := by
  induction h with
  | done w => exact .done (w ++ x)
  | frame header declared small more ih =>
    rw [List.append_assoc]
    exact .frame header declared small ih

theorem trans (h : Splits width size limit w ps rest) (k : Splits width size limit rest qs rest') :
    Splits width size limit w (ps ++ qs) rest' := by
  induction h with
  | done => exact k
  | frame header declared small more ih => exact .frame header declared small (ih k)

theorem single {head payload : List α} (header : head.length = width) (declared : size head = payload.length)
    (small : payload.length ≤ limit) : Splits width size limit (head ++ payload) [payload] [] := by
  have one : Splits width size limit (head ++ payload ++ []) [payload] [] := .frame header declared small (.done [])
  rwa [List.append_nil] at one

theorem suffix (h : Splits width size limit w ps rest) : rest <:+ w := by
  induction h with
  | done => exact List.suffix_rfl
  | frame header declared small more ih => exact ih.trans (List.suffix_append _ _)

theorem not_ends {head payload : List α} (header : head.length = width) (declared : size head = payload.length)
    (small : payload.length ≤ limit) : ¬ Ends width size limit (head ++ payload ++ w) := by
  have front : (head ++ payload ++ w).take width = head := by
    rw [List.append_assoc, List.take_left' header]
  rintro (⟨-, large⟩ | short | short)
  · rw [front, declared] at large
    omega
  · simp only [List.length_append] at short
    omega
  · rw [front, declared] at short
    simp only [List.length_append] at short
    omega

end Splits

theorem exists_frame (h : ¬ Ends width size limit w) :
    w = w.take width ++ (w.drop width).take (size (w.take width)) ++ w.drop (width + size (w.take width)) ∧
      (w.take width).length = width ∧ size (w.take width) = ((w.drop width).take (size (w.take width))).length ∧
      ((w.drop width).take (size (w.take width))).length ≤ limit := by
  unfold Ends Oversized Partial at h
  simp only [not_or, not_and, not_lt] at h
  obtain ⟨small, long, whole⟩ := h
  refine ⟨?_, ?_, ?_, ?_⟩
  · rw [List.append_assoc, ← List.drop_drop, List.take_append_drop, List.take_append_drop]
  · rw [List.length_take]
    omega
  · rw [List.length_take, List.length_drop]
    omega
  · rw [List.length_take, List.length_drop]
    exact (min_le_left _ _).trans (small long)

theorem splits_parseFrom (fuel : Nat) (w : List α) :
    Splits width size limit w (parseFrom width size limit fuel w).1 (parseFrom width size limit fuel w).2 := by
  induction fuel generalizing w with
  | zero => exact .done w
  | succ fuel ih =>
    unfold parseFrom
    split
    · exact .done w
    next more =>
    obtain ⟨cut, header, declared, small⟩ := exists_frame more
    have frame := Splits.frame header declared small (ih (w.drop (width + size (w.take width))))
    rw [← cut] at frame
    exact frame

theorem ends_parseFrom (pos : 0 < width) {fuel : Nat} (w : List α) (enough : w.length ≤ fuel) :
    Ends width size limit (parseFrom width size limit fuel w).2 := by
  induction fuel generalizing w with
  | zero =>
    have empty : w = [] := List.length_eq_zero_iff.mp (Nat.le_zero.mp enough)
    rw [empty]
    exact .inr (.inl pos)
  | succ fuel ih =>
    unfold parseFrom
    split
    · next ends => exact ends
    refine ih (w.drop (width + size (w.take width))) ?_
    rw [List.length_drop]
    omega

/-- There is one way to take all frames. -/
theorem Splits.unique (h : Splits width size limit w ps rest) (ends : Ends width size limit rest)
    (k : Splits width size limit w qs rest') (ends' : Ends width size limit rest') : ps = qs ∧ rest = rest' := by
  induction h generalizing qs rest' with
  | done =>
    cases k with
    | done => exact ⟨rfl, rfl⟩
    | frame header declared small => exact absurd ends (Splits.not_ends header declared small)
  | @frame head payload w _ _ header declared small more ih =>
    generalize whole : head ++ payload ++ w = v at k
    cases k with
    | done =>
      rw [← whole] at ends'
      exact absurd ends' (Splits.not_ends header declared small)
    | frame header' declared' small' more' =>
      rw [List.append_assoc, List.append_assoc] at whole
      obtain ⟨rfl, rest⟩ := List.append_inj whole (header.trans header'.symm)
      obtain ⟨rfl, rfl⟩ := List.append_inj rest (declared.symm.trans declared')
      obtain ⟨rfl, same⟩ := ih ends more' ends'
      exact ⟨rfl, same⟩

theorem splits_parse (w : List α) : Splits width size limit w (parse width size limit w).1 (parse width size limit w).2 :=
  splits_parseFrom w.length w

theorem ends_parse (pos : 0 < width) (w : List α) : Ends width size limit (parse width size limit w).2 :=
  ends_parseFrom pos w le_rfl

theorem Splits.eq_parse (pos : 0 < width) (h : Splits width size limit w ps rest) :
    parse width size limit w = (ps ++ (parse width size limit rest).1, (parse width size limit rest).2) := by
  obtain ⟨payloads, same⟩ := (splits_parse w).unique (ends_parse pos w) (h.trans (splits_parse rest)) (ends_parse pos rest)
  exact Prod.ext payloads same

theorem parse_of_ends (h : Ends width size limit w) : parse width size limit w = ([], w) := by
  unfold parse
  cases w.length with
  | zero => rfl
  | succ => exact if_pos h

theorem Oversized.append (h : Oversized width size limit w) (x : List α) : Oversized width size limit (w ++ x) := by
  obtain ⟨long, large⟩ := h
  refine ⟨?_, ?_⟩
  · rw [List.length_append]
    omega
  · rwa [List.take_append_of_le_length long]

end Framing
