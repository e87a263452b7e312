import Sailing.Node.Ids

/-!
# Log images

What reading, appending, compacting and restoring do to the entries of a log
image, and which images a submitted write adds to the store.
-/

namespace Sailing

variable {I : Type} [LinearOrder I]

namespace LogImage

variable {l : LogImage I} {e : Entry I} {es : List (Entry I)} {i : Index}

omit [LinearOrder I] in
theorem get_of_last_lt (h : l.lastIndex < i) : l.get i = none := by
  unfold get lastIndex at *
  split
  · rw [List.getElem?_eq_none]
    lia
  · rfl

omit [LinearOrder I] in
theorem isSome_get : (l.get i).isSome ↔ l.base < i ∧ i ≤ l.lastIndex := by
  unfold get lastIndex
  split
  · next h =>
    rw [Option.isSome_iff_ne_none, ne_eq, List.getElem?_eq_none_iff]
    lia
  · next h => simp [h]

omit [LinearOrder I] in
theorem Contiguous.index_of_get (h : l.Contiguous) (hg : l.get i = some e) : e.index = i := by
  unfold get at hg
  split at hg
  · have := h _ _ hg
    lia
  · cases hg

omit [LinearOrder I] in
theorem Contiguous.index_of_mem (h : l.Contiguous) (hm : e ∈ l.entries) :
    l.base < e.index ∧ e.index ≤ l.lastIndex ∧ l.get e.index = some e := by
  obtain ⟨k, hk⟩ := List.getElem?_of_mem hm
  have hi := h k e hk
  have hlt := (List.getElem?_eq_some_iff.mp hk).1
  refine ⟨by lia, by unfold lastIndex; lia, ?_⟩
  unfold get
  rw [if_pos (by lia)]
  have : e.index - l.base - 1 = k := by lia
  rw [this, hk]

omit [LinearOrder I] in
theorem term_of_base_lt (h : l.base < i) : l.term i = ((l.get i).map (·.term)).getD 0 := by
  simp [term, Nat.ne_of_gt h]

/-! ## Appending -/

omit [LinearOrder I] in
theorem put_base (l : LogImage I) (e : Entry I) : (l.put e).base = l.base := rfl

/-- The entry follows what the log holds, or stands in its place. -/
def Fits (l : LogImage I) (i : Index) : Prop := l.base < i ∧ i ≤ l.lastIndex + 1

omit [LinearOrder I] in
theorem put_lastIndex (h : l.Fits e.index) : (l.put e).lastIndex = e.index := by
  unfold Fits lastIndex at *
  simp only [put, List.length_append, List.length_take, List.length_cons, List.length_nil]
  lia

omit [LinearOrder I] in
theorem get_put_lt (h : l.Fits e.index) (hi : i < e.index) : (l.put e).get i = l.get i := by
  unfold Fits lastIndex at h
  unfold get
  rw [put_base]
  by_cases hb : l.base < i
  · rw [if_pos hb, if_pos hb]
    have hk : i - l.base - 1 < (l.entries.take (e.index - l.base - 1)).length := by
      simp only [List.length_take]
      lia
    simp only [put]
    rw [List.getElem?_append_left hk, List.getElem?_take_of_lt (by lia)]
  · rw [if_neg hb, if_neg hb]

omit [LinearOrder I] in
theorem get_put_self (h : l.Fits e.index) : (l.put e).get e.index = some e := by
  unfold Fits lastIndex at h
  unfold get
  rw [if_pos (by exact h.1)]
  have hl : (l.entries.take (e.index - l.base - 1)).length = e.index - l.base - 1 := by
    simp only [List.length_take]
    lia
  simp only [put]
  rw [List.getElem?_append_right (by rw [hl])]
  simp [hl]

omit [LinearOrder I] in
theorem Contiguous.put (hl : l.Contiguous) (h : l.Fits e.index) : (l.put e).Contiguous := by
  intro k a hk
  unfold Fits lastIndex at h
  have hlen : (l.entries.take (e.index - l.base - 1)).length = e.index - l.base - 1 := by
    simp only [List.length_take]
    lia
  simp only [LogImage.put] at hk ⊢
  by_cases hlt : k < e.index - l.base - 1
  · rw [List.getElem?_append_left (by lia), List.getElem?_take_of_lt hlt] at hk
    exact hl k a hk
  rw [List.getElem?_append_right (by lia)] at hk
  have : k - (e.index - l.base - 1) = 0 := by
    by_contra hne
    rw [List.getElem?_eq_none (by simp; lia)] at hk
    cases hk
  rw [hlen, this] at hk
  simp only [List.getElem?_cons_zero, Option.some.injEq] at hk
  subst hk
  lia

/-- The entries follow one another from `first` on. -/
def Run (first : Index) : List (Entry I) → Prop
  | [] => True
  | e :: es => e.index = first ∧ Run (first + 1) es

/-- The image an append ends with. -/
def putAll (l : LogImage I) : List (Entry I) → LogImage I
  | [] => l
  | e :: es => (l.put e).putAll es

omit [LinearOrder I] in
theorem puts_getLast? (l : LogImage I) (e : Entry I) (es : List (Entry I)) :
    (l.puts (e :: es)).getLast? = some (l.putAll (e :: es)) := by
  induction es generalizing l e with
  | nil => rfl
  | cons a es ih =>
    have := ih (l.put e) a
    simp only [puts, putAll] at this ⊢
    rw [List.getLast?_cons_cons]
    exact this

omit [LinearOrder I] in
theorem Run.fits_next (hf : l.Fits e.index) : (l.put e).Fits (e.index + 1) := by
  refine ⟨?_, by rw [put_lastIndex hf]⟩
  have := hf.1
  rw [put_base]
  lia

variable {first : Index}

omit [LinearOrder I] in
theorem puts_spec (hl : l.Contiguous) (hf : l.Fits first) (hr : Run first es) :
    ∀ d ∈ l.puts es, d.Contiguous ∧ d.base = l.base ∧ d.baseTerm = l.baseTerm ∧
      first ≤ d.lastIndex ∧ ∀ i < first, d.get i = l.get i := by
  induction es generalizing l first with
  | nil => simp [puts]
  | cons e es ih =>
    obtain ⟨rfl, hr⟩ := hr
    intro d hd
    rcases List.mem_cons.mp hd with rfl | hd
    · exact ⟨hl.put hf, rfl, rfl, (put_lastIndex hf).ge, fun i hi => get_put_lt hf hi⟩
    obtain ⟨h₁, h₂, h₃, h₄, h₅⟩ := ih (hl.put hf) (Run.fits_next hf) hr d hd
    exact ⟨h₁, h₂, h₃, by lia, fun i hi =>
      (h₅ i (by lia)).trans (get_put_lt hf hi)⟩

omit [LinearOrder I] in
theorem putAll_mem_puts (l : LogImage I) (e : Entry I) (es : List (Entry I)) : l.putAll (e :: es) ∈ l.puts (e :: es) :=
  List.mem_of_getLast? (puts_getLast? l e es)

omit [LinearOrder I] in
theorem putAll_lastIndex (hf : l.Fits first) (hr : Run first (e :: es)) :
    (l.putAll (e :: es)).lastIndex = ((e :: es).getLast (by simp)).index := by
  induction es generalizing l e first with
  | nil =>
    obtain ⟨rfl, -⟩ := hr
    simpa [putAll] using put_lastIndex hf
  | cons a es ih =>
    obtain ⟨rfl, hr⟩ := hr
    have := ih (Run.fits_next hf) hr
    rw [putAll, this, List.getLast_cons (List.cons_ne_nil a es)]

omit [LinearOrder I] in
theorem putAll_base (l : LogImage I) (es : List (Entry I)) :
    (l.putAll es).base = l.base ∧ (l.putAll es).baseTerm = l.baseTerm := by
  induction es generalizing l with
  | nil => exact ⟨rfl, rfl⟩
  | cons e es ih => exact ih (l.put e)

omit [LinearOrder I] in
theorem get_putAll_lt (hf : l.Fits first) (hr : Run first es) (hi : i < first) : (l.putAll es).get i = l.get i := by
  induction es generalizing l first with
  | nil => rfl
  | cons e es ih =>
    obtain ⟨rfl, hr⟩ := hr
    exact (ih (Run.fits_next hf) hr (by lia)).trans (get_put_lt hf hi)

omit [LinearOrder I] in
theorem term_putAll_lt (hf : l.Fits first) (hr : Run first es) (hi : i < first) : (l.putAll es).term i = l.term i := by
  unfold term
  rw [get_putAll_lt hf hr hi, (putAll_base l es).1, (putAll_base l es).2]

omit [LinearOrder I] in
theorem get_putAll (hf : l.Fits first) (hr : Run first es) : ∀ a ∈ es, (l.putAll es).get a.index = some a := by
  induction es generalizing l first with
  | nil => simp
  | cons e es ih =>
    obtain ⟨rfl, hr⟩ := hr
    intro a ha
    rcases List.mem_cons.mp ha with rfl | ha
    · exact (get_putAll_lt (Run.fits_next hf) hr (Nat.lt_succ_self _)).trans (get_put_self hf)
    · exact ih (Run.fits_next hf) hr a ha

/-! ## Compacting and restoring -/

omit [LinearOrder I] in
theorem compact_lastIndex (h : l.base ≤ i) (h' : i ≤ l.lastIndex) : (l.compact i).lastIndex = l.lastIndex := by
  unfold lastIndex at *
  simp only [compact, List.length_drop]
  lia

omit [LinearOrder I] in
theorem get_compact {n : Index} (h : l.base ≤ n) (hi : n < i) : (l.compact n).get i = l.get i := by
  unfold get
  rw [if_pos (by exact hi), if_pos (by lia)]
  simp only [compact, List.getElem?_drop]
  congr 1
  lia

omit [LinearOrder I] in
theorem Contiguous.compact (hl : l.Contiguous) {n : Index} (h : l.base ≤ n) : (l.compact n).Contiguous := by
  intro k e hk
  simp only [LogImage.compact, List.getElem?_drop] at hk ⊢
  have := hl _ _ hk
  lia

omit [LinearOrder I] in
theorem contiguous_nil (n : Index) (t : Term) : Contiguous (⟨n, t, []⟩ : LogImage I) := by
  intro k e hk
  simp at hk

end LogImage

namespace LogStore

variable {s : LogStore I}

omit [LinearOrder I] in
theorem visible_eq_newest (s : LogStore I) : s.visible = Fifo.newest s.durable s.staged := rfl

omit [LinearOrder I] in
theorem images_eq (s : LogStore I) : s.images = Fifo.images s.durable s.staged := rfl

omit [LinearOrder I] in
theorem visible_mem (s : LogStore I) : s.visible ∈ s.images := Fifo.newest_mem_images

omit [LinearOrder I] in
/-- Only the last image of a write carries its completion. -/
theorem stage_eq (l : LogImage I) (ls : List (LogImage I)) (d : LogDone) :
    ∃ pre last, stage (l :: ls) d = pre ++ [(last, some d)] ∧ (l :: ls).getLast? = some last ∧
      pre.map Prod.fst ++ [last] = l :: ls ∧ ∀ p ∈ pre, p.2 = none := by
  induction ls generalizing l with
  | nil => exact ⟨[], l, rfl, rfl, rfl, by simp⟩
  | cons a ls ih =>
    obtain ⟨pre, last, h₁, h₂, h₃, h₄⟩ := ih a
    refine ⟨(l, none) :: pre, last, by simp [stage, h₁], ?_, by simp [h₃], ?_⟩
    · rw [List.getLast?_cons_cons]
      exact h₂
    · simpa using h₄

variable {id : OpId} {e : Entry I} {es : List (Entry I)}

omit [LinearOrder I] in
/-- What an append stages: images of its entries, the last with its completion. -/
theorem submitAppend_staged (s : LogStore I) (id : OpId) (e : Entry I) (es : List (Entry I)) :
    ∃ pre, (s.submitAppend id (e :: es)).staged =
        s.staged ++ (pre ++ [(s.visible.putAll (e :: es), some (.appended id))]) ∧
      (∀ p ∈ pre, p.2 = none) ∧
      pre.map Prod.fst ++ [s.visible.putAll (e :: es)] = s.visible.puts (e :: es) := by
  obtain ⟨pre, last, h₁, h₂, h₃, h₄⟩ := stage_eq (s.visible.put e) ((s.visible.put e).puts es) (.appended id)
  have hl : last = s.visible.putAll (e :: es) := by
    have := LogImage.puts_getLast? s.visible e es
    rw [LogImage.puts, h₂] at this
    exact Option.some.inj this
  subst hl
  refine ⟨pre, ?_, h₄, by rw [h₃]; rfl⟩
  simp only [submitAppend, if_neg (List.cons_ne_nil _ _), LogImage.puts, h₁]

omit [LinearOrder I] in
theorem submitAppend_visible (s : LogStore I) (id : OpId) (e : Entry I) (es : List (Entry I)) :
    (s.submitAppend id (e :: es)).visible = s.visible.putAll (e :: es) := by
  obtain ⟨pre, h, -, -⟩ := submitAppend_staged s id e es
  rw [visible_eq_newest, h, ← List.append_assoc, Fifo.newest_concat]

omit [LinearOrder I] in
theorem submitAppend_images (s : LogStore I) (id : OpId) (e : Entry I) (es : List (Entry I)) :
    (s.submitAppend id (e :: es)).images = s.images ++ s.visible.puts (e :: es) := by
  obtain ⟨pre, h, -, hp⟩ := submitAppend_staged s id e es
  unfold images
  rw [h, ← hp]
  simp [submitAppend]

end LogStore

end Sailing
