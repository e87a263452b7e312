import Sailing.Model.Storage
import Sailing.Lib.Runs

/-!
# Staging a chunked snapshot

`SnapshotStaging` collects the chunks of one blob in any order; its `runs` are the byte
ranges written so far. `Stages` says what a staging that was fed slices of one blob
holds: the runs are separated and cover exactly the accepted ranges, and the covered
bytes are the blob's. `accept` keeps it, so it holds after any sequence of chunks.
-/

namespace Sailing.SnapshotStaging

variable {I : Type}

/-- A staging for `totalLen` bytes; `reserved` is the allocator's answer. -/
def new (snap : SnapshotMeta I) (totalLen maxBytes : Nat) (reserved : Bool) : Option (SnapshotStaging I) :=
  if maxBytes < totalLen then none
  else if reserved then some ⟨snap, List.replicate totalLen 0, []⟩
  else none

def intoVec (s : SnapshotStaging I) : Bytes := s.buf

/-- Chunks one after the other, until one is refused. -/
def acceptAll (s : SnapshotStaging I) : List (Nat × Bytes) → Option (SnapshotStaging I)
  | [] => some s
  | chunk :: chunks =>
    match s.accept chunk.1 chunk.2 with
    | none => none
    | some s' => s'.acceptAll chunks

/-- The bytes from `start` to `stop` replaced. -/
def overwrite (buf : Bytes) (start stop : Nat) (data : Bytes) : Bytes :=
  buf.take start ++ data.take (stop - start) ++ buf.drop stop

/-! ## The buffer -/

theorem length_overwrite {buf data : Bytes} {start stop : Nat} (order : start ≤ stop) (fits : stop ≤ buf.length)
    (long : stop - start ≤ data.length) : (overwrite buf start stop data).length = buf.length := by
  simp only [overwrite, List.length_append, List.length_take, List.length_drop]
  omega

theorem getElem?_overwrite {buf data : Bytes} {start stop : Nat} (order : start ≤ stop) (fits : stop ≤ buf.length)
    (long : stop - start ≤ data.length) (i : Nat) :
    (overwrite buf start stop data)[i]? = if start ≤ i ∧ i < stop then data[i - start]? else buf[i]? := by
  have front : (buf.take start).length = start := by
    rw [List.length_take]
    omega
  have middle : (buf.take start ++ data.take (stop - start)).length = stop := by
    rw [List.length_append, front, List.length_take]
    omega
  unfold overwrite
  rcases lt_or_ge i stop with before | after
  · rw [List.getElem?_append_left (by omega)]
    rcases lt_or_ge i start with low | high
    · rw [List.getElem?_append_left (by omega), List.getElem?_take_of_lt low, if_neg (by omega)]
    · rw [List.getElem?_append_right (by omega), front, List.getElem?_take_of_lt (by omega), if_pos ⟨high, before⟩]
  · rw [List.getElem?_append_right (by omega), middle, List.getElem?_drop, if_neg (by omega)]
    congr 1
    omega

/-! ## The runs -/

theorem perm_insertByStart (run : Nat × Nat) (rs : List (Nat × Nat)) : (insertByStart run rs).Perm (run :: rs) := by
  induction rs with
  | nil => exact List.Perm.refl _
  | cons r rs ih =>
    unfold insertByStart
    split
    · exact List.Perm.refl _
    · exact (ih.cons r).trans (List.Perm.swap run r rs)

theorem sorted_insertByStart (run : Nat × Nat) {rs : List (Nat × Nat)} (sorted : rs.Pairwise fun a b => a.1 ≤ b.1) :
    (insertByStart run rs).Pairwise fun a b => a.1 ≤ b.1 := by
  induction rs with
  | nil => exact List.pairwise_singleton _ _
  | cons r rs ih =>
    obtain ⟨first, rest⟩ := List.pairwise_cons.mp sorted
    unfold insertByStart
    split
    · next lt =>
      refine List.pairwise_cons.mpr ⟨fun q hq => ?_, sorted⟩
      rcases List.mem_cons.mp hq with rfl | hq
      · exact lt.le
      · exact lt.le.trans (first q hq)
    · next ge =>
      refine List.pairwise_cons.mpr ⟨fun q hq => ?_, ih rest⟩
      rcases List.mem_cons.mp ((perm_insertByStart run rs).mem_iff.mp hq) with rfl | hq
      · exact not_lt.mp ge
      · exact first q hq

theorem mergeFrom_eq (last : Nat × Nat) (rs : List (Nat × Nat)) : mergeFrom last rs = Runs.coalesceFrom last rs := by
  induction rs generalizing last with
  | nil => rfl
  | cons r rs ih => simp only [mergeFrom, Runs.coalesceFrom, ih]

theorem merge_eq (rs : List (Nat × Nat)) : merge rs = Runs.coalesce rs := by
  cases rs with
  | nil => rfl
  | cons r rs => exact mergeFrom_eq r rs

section Inserting

variable {rs : List (Nat × Nat)} (h : Runs.Separated rs) {start stop : Nat}

include h

theorem separated_insertRun : Runs.Separated (insertRun rs start stop) := by
  unfold insertRun
  split
  · exact h
  next lt =>
  rw [merge_eq]
  refine Runs.separated_coalesce (sorted_insertByStart _ h.sorted) fun r hr => ?_
  rcases List.mem_cons.mp ((perm_insertByStart _ _).mem_iff.mp hr) with rfl | hr
  · exact not_le.mp lt
  · exact h.proper r hr

theorem cover_insertRun : Runs.cover (insertRun rs start stop) = Runs.cover rs ∪ Set.Ico start stop := by
  unfold insertRun
  split
  · next empty => rw [Set.Ico_eq_empty (not_lt.mpr empty), Set.union_empty]
  rw [merge_eq, Runs.cover_coalesce (sorted_insertByStart _ h.sorted), Runs.cover_perm (perm_insertByStart _ _)]
  ext x
  rw [Runs.mem_cover_cons, Set.mem_union, Set.mem_Ico, or_comm]

/-- The source sorts the runs with the new one by start; the order a sort leaves between
equal starts does not show. -/
theorem insertRun_of_sorted {sorted : List (Nat × Nat)} (lt : start < stop)
    (perm : sorted.Perm (rs ++ [(start, stop)])) (order : sorted.Pairwise fun a b => a.1 ≤ b.1) :
    insertRun rs start stop = merge sorted := by
  have both : (insertByStart (start, stop) rs).Perm sorted :=
    (perm_insertByStart _ _).trans ((List.perm_append_singleton _ _).symm.trans perm.symm)
  rw [insertRun, if_neg (not_le.mpr lt), merge_eq, merge_eq]
  refine Runs.coalesce_eq_of_perm both (sorted_insertByStart _ h.sorted) order fun r hr => ?_
  rcases List.mem_cons.mp ((perm_insertByStart _ _).mem_iff.mp hr) with rfl | hr
  · exact lt
  · exact h.proper r hr

end Inserting

/-! ## Slices of one blob -/

/-- The chunk is the part of `blob` at its offset. -/
def IsSlice (blob : Bytes) (chunk : Nat × Bytes) : Prop := chunk.2 = (blob.drop chunk.1).take chunk.2.length

/-- The positions a chunk brings. -/
def range (chunk : Nat × Bytes) : Set Nat := Set.Ico chunk.1 (chunk.1 + chunk.2.length)

/-- The positions some chunks bring. -/
def ranges (chunks : List (Nat × Bytes)) : Set Nat := {i | ∃ chunk ∈ chunks, i ∈ range chunk}

section Slices

variable {blob : Bytes} {chunk : Nat × Bytes}

theorem IsSlice.fits (h : IsSlice blob chunk) : chunk.2 = [] ∨ chunk.1 + chunk.2.length ≤ blob.length := by
  have len := congrArg List.length h
  rw [List.length_take, List.length_drop] at len
  rcases Nat.eq_zero_or_pos chunk.2.length with none | some
  · exact .inl (List.length_eq_zero_iff.mp none)
  · right
    omega

theorem IsSlice.getElem? (h : IsSlice blob chunk) {i : Nat} (hi : i < chunk.2.length) :
    chunk.2[i]? = blob[chunk.1 + i]? := by
  rw [h, List.getElem?_take_of_lt hi, List.getElem?_drop]

/-- What a staging holds that was fed slices of `blob` at the positions `S`. -/
structure Stages (blob : Bytes) (S : Set Nat) (s : SnapshotStaging I) : Prop where
  len : s.buf.length = blob.length
  separated : Runs.Separated s.runs
  cover : Runs.cover s.runs = S
  few : s.runs.length ≤ maxStagingRuns
  inside : ∀ i ∈ S, i < blob.length
  bytes : ∀ i ∈ S, s.buf[i]? = blob[i]?

theorem stages_new {snap : SnapshotMeta I} {maxBytes : Nat} {reserved : Bool}
    (h : new snap blob.length maxBytes reserved = some s) : Stages blob ∅ s := by
  unfold new at h
  split at h
  · contradiction
  split at h
  · obtain rfl := Option.some.inj h
    exact ⟨List.length_replicate, .nil, Runs.cover_nil, Nat.zero_le _, by simp, by simp⟩
  · contradiction

variable {S : Set Nat} {s s' : SnapshotStaging I}

section

variable (h : Stages blob S s) (slice : IsSlice blob chunk)

include h slice

/-- A slice is not cut: the part written is all of it. -/
theorem Stages.bounds :
    min (min chunk.1 s.buf.length + chunk.2.length) s.buf.length = min chunk.1 s.buf.length + chunk.2.length ∧
      (chunk.2 ≠ [] → min chunk.1 s.buf.length = chunk.1) := by
  rw [h.len]
  rcases slice.fits with none | fits
  · simp [none]
  · omega

/-- The written bytes are the blob's at the old positions and at the new ones. -/
theorem Stages.write (start stop : Nat)
    (hstart : start = min chunk.1 s.buf.length) (hstop : stop = min (start + chunk.2.length) s.buf.length) :
    (overwrite s.buf start stop chunk.2).length = blob.length ∧ Set.Ico start stop = range chunk ∧
      ∀ i ∈ S ∪ range chunk, (overwrite s.buf start stop chunk.2)[i]? = blob[i]? := by
  obtain ⟨whole, exact_⟩ := h.bounds slice
  rw [← hstart] at whole exact_
  rw [← hstop] at whole
  have fits : stop ≤ s.buf.length := by omega
  have long : stop - start ≤ chunk.2.length := by omega
  have same : Set.Ico start stop = range chunk := by
    unfold range
    rcases eq_or_ne chunk.2 [] with none | some
    · simp [whole, none]
    · rw [whole, exact_ some]
  refine ⟨(length_overwrite (by omega) fits long).trans h.len, same, fun i hi => ?_⟩
  rw [getElem?_overwrite (by omega) fits long]
  split
  · next new =>
    have some : chunk.2 ≠ [] := by
      intro none
      simp only [none, List.length_nil] at whole
      omega
    rw [exact_ some] at new
    rw [exact_ some, slice.getElem? (by rw [whole, exact_ some] at new; omega), Nat.add_sub_cancel' new.1]
  · next old =>
    refine h.bytes i (hi.resolve_right fun new => old ?_)
    rwa [← same] at new

theorem Stages.inside_union : ∀ i ∈ S ∪ range chunk, i < blob.length := by
  rintro i (old | new)
  · exact h.inside i old
  · rcases slice.fits with none | fits
    · simp [range, none] at new
    · have := new.2
      omega

/-- An accepted slice adds its positions. It is refused exactly when there would be too
many runs. -/
theorem Stages.accept :
    (s.accept chunk.1 chunk.2 = none ↔ maxStagingRuns < (Runs.maximalRuns (S ∪ range chunk)).ncard) ∧
    ∀ s', s.accept chunk.1 chunk.2 = some s' → Stages blob (S ∪ range chunk) s' := by
  unfold SnapshotStaging.accept
  extract_lets start stop runs
  obtain ⟨len, same, bytes⟩ := h.write slice start stop rfl rfl
  have separated : Runs.Separated runs := separated_insertRun h.separated
  have cover : Runs.cover runs = S ∪ range chunk := by
    rw [cover_insertRun h.separated, h.cover, same]
  have count : (Runs.maximalRuns (S ∪ range chunk)).ncard = runs.length := by
    rw [← cover, separated.ncard_maximalRuns]
  rw [count]
  split
  · next many => exact ⟨by simpa using many, by simp⟩
  next few =>
  refine ⟨by simpa using few, fun s' hs' => ?_⟩
  obtain rfl := Option.some.inj hs'
  exact ⟨len, separated, cover, not_lt.mp few, h.inside_union slice, bytes⟩

end

end Slices

/-! ## Any sequence of chunks -/

section Sequences

variable {blob : Bytes} {S : Set Nat} {s s' : SnapshotStaging I}

theorem ranges_cons (chunk : Nat × Bytes) (chunks : List (Nat × Bytes)) :
    ranges (chunk :: chunks) = range chunk ∪ ranges chunks := by
  ext i
  simp [ranges]

theorem Stages.acceptAll (h : Stages blob S s) {chunks : List (Nat × Bytes)}
    (slices : ∀ chunk ∈ chunks, IsSlice blob chunk) (ok : s.acceptAll chunks = some s') :
    Stages blob (S ∪ ranges chunks) s' := by
  induction chunks generalizing s S with
  | nil =>
    obtain rfl := Option.some.inj ok
    simpa [ranges] using h
  | cons chunk chunks ih =>
    have step := (h.accept (slices chunk List.mem_cons_self)).2
    unfold SnapshotStaging.acceptAll at ok
    split at ok
    · contradiction
    next accepted =>
    rw [ranges_cons, ← Set.union_assoc]
    exact ih (step _ accepted) (fun c hc => slices c (List.mem_cons_of_mem _ hc)) ok

/-- The contiguous offset is the first position that is not covered. -/
theorem Stages.contiguous (h : Stages blob S s) : (∀ i < s.contiguous, i ∈ S) ∧ s.contiguous ∉ S := by
  have nothing : s.contiguous = 0 ∧ 0 ∉ S ∨ ∃ stop rest, s.runs = (0, stop) :: rest ∧ s.contiguous = stop := by
    unfold SnapshotStaging.contiguous
    cases runs : s.runs with
    | nil =>
      refine .inl ⟨rfl, ?_⟩
      rw [← h.cover, runs]
      simp
    | cons r rest =>
      obtain ⟨start, stop⟩ := r
      cases start with
      | zero => exact .inr ⟨stop, rest, rfl, rfl⟩
      | succ =>
        refine .inl ⟨rfl, ?_⟩
        have separated := h.separated
        rw [runs] at separated
        rw [← h.cover, runs]
        rintro ⟨q, hq, low, -⟩
        rcases List.mem_cons.mp hq with rfl | hq
        · cases low
        · exact absurd (separated.gap hq) (by omega)
  rcases nothing with ⟨zero, out⟩ | ⟨stop, rest, runs, contiguous⟩
  · rw [zero]
    exact ⟨fun i hi => absurd hi (Nat.not_lt_zero i), out⟩
  have first : (0, stop) ∈ s.runs := by simp [runs]
  rw [contiguous, ← h.cover]
  exact ⟨fun i hi => ⟨(0, stop), first, Nat.zero_le i, hi⟩, h.separated.end_notMem first⟩

/-- The whole blob is staged when every position of it is covered. -/
theorem Stages.isComplete_iff (h : Stages blob S s) : s.isComplete = true ↔ ∀ i < blob.length, i ∈ S := by
  obtain ⟨below, out⟩ := h.contiguous
  unfold isComplete
  rw [decide_eq_true_eq, h.len]
  constructor
  · intro full i hi
    exact below i (full ▸ hi)
  · intro all
    refine le_antisymm (not_lt.mp fun past => ?_) (not_lt.mp fun short => out (all _ short))
    exact lt_irrefl _ (h.inside _ (below _ past))

theorem Stages.intoVec (h : Stages blob S s) (complete : s.isComplete = true) : s.intoVec = blob := by
  refine List.ext_getElem? fun i => ?_
  rcases lt_or_ge i blob.length with lt | ge
  · exact h.bytes i (h.isComplete_iff.mp complete i lt)
  · rw [SnapshotStaging.intoVec, List.getElem?_eq_none ge, List.getElem?_eq_none (h.len ▸ ge)]

end Sequences

/-- Slices of one blob, in any order, until one is refused: the offset reported is the
longest covered prefix, the staging is complete when all is covered and then holds the
blob, its runs are few and apart, and the next slice is refused exactly when the covered
positions would fall into too many runs. -/
theorem staging_rebuilds (blob : Bytes) (snap : SnapshotMeta I) (maxBytes : Nat) (fresh s : SnapshotStaging I)
    (chunks : List (Nat × Bytes)) (created : new snap blob.length maxBytes true = some fresh)
    (slices : ∀ chunk ∈ chunks, IsSlice blob chunk) (accepted : fresh.acceptAll chunks = some s) :
    IsGreatest {n | n ≤ blob.length ∧ ∀ i < n, i ∈ ranges chunks} s.contiguous ∧
    (s.isComplete = true ↔ ∀ i < blob.length, i ∈ ranges chunks) ∧
    (s.isComplete = true → s.intoVec = blob) ∧
    (∀ r ∈ s.runs, r.1 < r.2) ∧ (s.runs.Pairwise fun a b => a.2 < b.1) ∧ s.runs.length ≤ maxStagingRuns ∧
    ∀ chunk, IsSlice blob chunk →
      (s.accept chunk.1 chunk.2 = none ↔
        maxStagingRuns < (Runs.maximalRuns (ranges (chunk :: chunks))).ncard) := by
  have h : Stages blob (ranges chunks) s := by
    simpa using (stages_new created).acceptAll slices accepted
  obtain ⟨below, out⟩ := h.contiguous
  refine ⟨⟨⟨?_, below⟩, fun n hn => ?_⟩, h.isComplete_iff, h.intoVec, h.separated.proper, h.separated.apart,
    h.few, fun chunk slice => ?_⟩
  · refine not_lt.mp fun past => ?_
    exact lt_irrefl _ (h.inside _ (below _ past))
  · exact not_lt.mp fun beyond => out (hn.2 _ beyond)
  · rw [ranges_cons, Set.union_comm]
    exact (h.accept slice).1

/-- Four bytes in three chunks, the last ones first, with an overlap. -/
theorem staging_rebuilds_overlapping : ∃ s : SnapshotStaging Nat,
    (SnapshotStaging.mk ⟨10, 1, .fromVoters {1}⟩ [0, 0, 0, 0] []).acceptAll [(2, [3, 4]), (0, [1]), (1, [2, 3])] =
      some s ∧ s.isComplete = true ∧ s.intoVec = [1, 2, 3, 4] := by
  refine ⟨⟨⟨10, 1, .fromVoters {1}⟩, [1, 2, 3, 4], [(0, 4)]⟩, rfl, by decide, ?_⟩
  have slices : ∀ chunk ∈ [(2, [3, 4]), (0, [1]), (1, [2, 3])], IsSlice [1, 2, 3, 4] chunk := by
    unfold IsSlice
    decide
  exact (staging_rebuilds [1, 2, 3, 4] _ 4 _ _ _ rfl slices rfl).2.2.1 (by decide)

end Sailing.SnapshotStaging
