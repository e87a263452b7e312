import Sailing.Freeze.Model
import Mathlib.Order.Basic

/-!
# The queue is exact

`freezes applied log` lists the `PrepareMerge` entries of a log above `applied`. Every transition
keeps the queue equal to it (`Exact`), a refused freeze apart, which empties the queue of the
poisoned endpoint. The log is contiguous, so that its indices are its positions: truncation,
compaction and the applied index cut it at a place, and the queue at a value.
-/

namespace Sailing.Freeze

open Wire (GeneratedCode)

/-! ## Sorted lists -/

section Sorted

variable {l : List Index} {t : Index}

theorem dropWhile_eq_filter (sorted : l.Pairwise (· < ·)) : l.dropWhile (· ≤ t) = l.filter (t < ·) := by
  induction l with
  | nil => rfl
  | cons a l ih =>
    obtain ⟨least, rest⟩ := List.pairwise_cons.mp sorted
    by_cases small : a ≤ t
    · rw [List.dropWhile_cons_of_pos (by simpa using small), ih rest, List.filter_cons_of_neg (by simpa using small)]
    have all : ∀ b ∈ a :: l, decide (t < b) = true := by
      intro b mem
      obtain rfl | later := List.mem_cons.mp mem
      · simpa using small
      have := least b later
      simp only [decide_eq_true_eq]
      lia
    rw [List.dropWhile_cons_of_neg (by simpa using small), List.filter_eq_self.mpr all]

theorem mem_takeWhile_iff (sorted : l.Pairwise (· < ·)) {i : Index} : i ∈ l.takeWhile (· ≤ t) ↔ i ∈ l ∧ i ≤ t := by
  induction l with
  | nil => simp
  | cons a l ih =>
    obtain ⟨least, rest⟩ := List.pairwise_cons.mp sorted
    by_cases small : a ≤ t
    · rw [List.takeWhile_cons_of_pos (by simpa using small), List.mem_cons, ih rest, List.mem_cons]
      constructor
      · rintro (rfl | ⟨mem, low⟩)
        · exact ⟨.inl rfl, small⟩
        · exact ⟨.inr mem, low⟩
      · rintro ⟨rfl | mem, low⟩
        · exact .inl rfl
        · exact .inr ⟨mem, low⟩
    · rw [List.takeWhile_cons_of_neg (by simpa using small)]
      refine ⟨fun none_here => absurd none_here List.not_mem_nil, ?_⟩
      rintro ⟨mem, low⟩
      obtain rfl | later := List.mem_cons.mp mem
      · exact absurd low small
      · have := least i later
        lia

theorem rdropWhile_eq_filter (sorted : l.Pairwise (· < ·)) : l.rdropWhile (t ≤ ·) = l.filter (· < t) := by
  induction l using List.reverseRecOn with
  | nil => rfl
  | append_singleton l a ih =>
    obtain ⟨front, -, below⟩ := List.pairwise_append.mp sorted
    rw [List.rdropWhile_concat, List.filter_append]
    by_cases large : t ≤ a
    · rw [if_pos (by simpa using large), ih front, List.filter_cons_of_neg (by simpa using large), List.filter_nil,
        List.append_nil]
    have all : ∀ b ∈ l, decide (b < t) = true := by
      intro b mem
      have := below b mem a (List.mem_singleton_self a)
      simp only [decide_eq_true_eq]
      lia
    rw [if_neg (by simpa using large), List.filter_eq_self.mpr all, List.filter_cons_of_pos (by simpa using large),
      List.filter_nil]

end Sorted

/-! ## Contiguous logs -/

section Log

variable {b a t : Index} {l m : List Wire.Entry} {e : Wire.Entry}

theorem contiguous_cons : contiguous b (e :: l) = true ↔ e.index = b + 1 ∧ contiguous (b + 1) l = true := by
  rw [contiguous, decide_eq_true_eq]

theorem contiguous_append : contiguous b (l ++ m) = true ↔ contiguous b l = true ∧ contiguous (b + l.length) m = true := by
  induction l generalizing b with
  | nil => simp [contiguous]
  | cons e l ih =>
    have shift : b + (e :: l).length = b + 1 + l.length := by
      rw [List.length_cons]
      lia
    rw [List.cons_append, contiguous_cons, contiguous_cons, ih, shift, and_assoc]

section

variable (h : contiguous b l = true)

include h

theorem contiguous_take (k : Nat) : contiguous b (l.take k) = true := by
  rw [← List.take_append_drop k l] at h
  exact (contiguous_append.mp h).1

theorem contiguous_drop {k : Nat} (short : k ≤ l.length) : contiguous (b + k) (l.drop k) = true := by
  rw [← List.take_append_drop k l] at h
  have rest := (contiguous_append.mp h).2
  rwa [List.length_take, min_eq_left short] at rest

theorem index_of_getElem? {i : Nat} (here : l[i]? = some e) : e.index = b + 1 + i := by
  induction l generalizing b i with
  | nil => cases here
  | cons x l ih =>
    obtain ⟨first, rest⟩ := contiguous_cons.mp h
    cases i with
    | zero =>
      cases here
      exact first
    | succ =>
      have := ih rest here
      lia

theorem index_of_mem (mem : e ∈ l) : b < e.index ∧ e.index ≤ b + l.length := by
  obtain ⟨i, here⟩ := List.mem_iff_getElem?.mp mem
  have short : i < l.length := (List.getElem?_eq_some_iff.mp here).1
  have := index_of_getElem? h here
  constructor <;> lia

theorem sorted_index : l.Pairwise (·.index < ·.index) := by
  induction l generalizing b with
  | nil => exact List.Pairwise.nil
  | cons e l ih =>
    obtain ⟨first, rest⟩ := contiguous_cons.mp h
    refine List.pairwise_cons.mpr ⟨fun x mem => ?_, ih rest⟩
    have := (index_of_mem rest mem).1
    lia

theorem eq_of_index {x : Wire.Entry} (mem : e ∈ l) (mem' : x ∈ l) (same : e.index = x.index) : e = x := by
  obtain ⟨i, here⟩ := List.mem_iff_getElem?.mp mem
  obtain ⟨j, here'⟩ := List.mem_iff_getElem?.mp mem'
  have at_i := index_of_getElem? h here
  have at_j := index_of_getElem? h here'
  obtain rfl : i = j := by lia
  rw [here] at here'
  exact Option.some.inj here'

/-- A cut at a value is a cut at a place. -/
theorem filter_index_lt : l.filter (·.index < t) = l.take (t - b - 1) := by
  induction l generalizing b with
  | nil => simp
  | cons e l ih =>
    obtain ⟨first, rest⟩ := contiguous_cons.mp h
    by_cases below : e.index < t
    · have shift : t - b - 1 = (t - (b + 1) - 1) + 1 := by lia
      rw [List.filter_cons_of_pos (by simpa using below), ih rest, shift, List.take_succ_cons]
    have none_left : ∀ x ∈ e :: l, ¬ decide (x.index < t) = true := by
      intro x mem
      have := (index_of_mem h mem).1
      simp only [decide_eq_true_eq]
      lia
    have zero : t - b - 1 = 0 := by lia
    rw [List.filter_eq_nil_iff.mpr none_left, zero, List.take_zero]

end

/-! ## Freezes of a log -/

/-- The indices of the freezes above `a`. -/
def freezes (a : Index) (l : List Wire.Entry) : List Index :=
  (l.filter fun e => e.kind = .prepareMerge ∧ a < e.index).map (·.index)

theorem mem_freezes {i : Index} : i ∈ freezes a l ↔ ∃ e ∈ l, e.kind = .prepareMerge ∧ a < e.index ∧ e.index = i := by
  unfold freezes
  simp only [List.mem_map, List.mem_filter, decide_eq_true_eq, and_assoc]

theorem freezes_append : freezes a (l ++ m) = freezes a l ++ freezes a m := by
  unfold freezes
  rw [List.filter_append, List.map_append]

theorem sorted_freezes (h : contiguous b l = true) : (freezes a l).Pairwise (· < ·) :=
  List.pairwise_map.mpr ((sorted_index h).sublist List.filter_sublist)

theorem filter_lt_freezes (h : contiguous b l = true) : (freezes a l).filter (· < t) = freezes a (l.take (t - b - 1)) := by
  unfold freezes
  rw [List.filter_map, List.filter_filter, ← filter_index_lt h, List.filter_filter]
  congr 1
  refine List.filter_congr fun e _ => ?_
  simp only [Function.comp_apply, Bool.and_comm]

theorem filter_gt_freezes {a' : Index} (up : a ≤ a') : (freezes a l).filter (a' < ·) = freezes a' l := by
  unfold freezes
  rw [List.filter_map, List.filter_filter]
  congr 1
  refine List.filter_congr fun e _ => ?_
  simp only [Function.comp_apply, ← Bool.decide_and, decide_eq_decide]
  constructor
  · rintro ⟨above, kind, -⟩
    exact ⟨kind, above⟩
  · rintro ⟨kind, above⟩
    exact ⟨above, kind, by lia⟩

theorem freezes_drop (h : contiguous b l = true) {k : Nat} (low : b + k ≤ a) : freezes a (l.drop k) = freezes a l := by
  have cut : freezes a l = freezes a (l.take k) ++ freezes a (l.drop k) := by
    rw [← freezes_append, List.take_append_drop]
  have none_here : freezes a (l.take k) = [] := by
    refine List.eq_nil_iff_forall_not_mem.mpr fun i mem => ?_
    obtain ⟨e, mem, -, above, -⟩ := mem_freezes.mp mem
    have bound := (index_of_mem (contiguous_take h k) mem).2
    have short : (l.take k).length ≤ k := List.length_take_le k l
    lia
  rw [cut, none_here, List.nil_append]

theorem freezes_succ (h : contiguous b l = true) (mem : e ∈ l) (here : e.index = a + 1) (kind : e.kind ≠ .prepareMerge) :
    freezes (a + 1) l = freezes a l := by
  unfold freezes
  congr 1
  refine List.filter_congr fun x mem' => ?_
  simp only [decide_eq_decide]
  constructor
  · rintro ⟨freeze, above⟩
    exact ⟨freeze, by lia⟩
  · rintro ⟨freeze, above⟩
    refine ⟨freeze, ?_⟩
    by_contra low
    have same : e.index = x.index := by lia
    rw [eq_of_index h mem mem' same] at kind
    exact kind freeze

theorem freezes_of_le (h : contiguous b l = true) (low : a ≤ b) :
    freezes a l = (l.filter (·.kind = .prepareMerge)).map (·.index) := by
  unfold freezes
  congr 1
  refine List.filter_congr fun x mem => ?_
  have := (index_of_mem h mem).1
  simp only [decide_eq_decide]
  exact ⟨And.left, fun freeze => ⟨freeze, by lia⟩⟩

end Log

/-! ## The invariant -/

namespace State

variable {s : State} {e : Wire.Entry} {idx : Index}

/-- The log is whole, and the queue lists its freezes above `applied`. -/
structure Exact (s : State) : Prop where
  whole : contiguous s.boundary s.log = true
  above : s.boundary ≤ s.applied
  within : s.applied ≤ s.lastIndex
  committed : s.applied ≤ s.commit
  captured : s.captured ≤ s.applied
  queue : s.freezeQueue = freezes s.applied s.log

/-- What a refused freeze leaves. -/
def Emptied (s : State) : Prop := s.poison.isSome ∧ s.freezeQueue = []

theorem not_emptied (alive : s.poison = none) : ¬ s.Emptied := by
  rintro ⟨dead, -⟩
  rw [alive] at dead
  cases dead

theorem Exact.sorted (h : s.Exact) : s.freezeQueue.Pairwise (· < ·) := by
  rw [h.queue]
  exact sorted_freezes h.whole

theorem Exact.mem_queue (h : s.Exact) :
    idx ∈ s.freezeQueue ↔ ∃ e ∈ s.log, e.kind = .prepareMerge ∧ s.applied < e.index ∧ e.index = idx := by
  rw [h.queue, mem_freezes]

theorem Exact.fail (h : s.Exact) (reason : PoisonReason) : (s.fail reason).Exact :=
  ⟨h.whole, h.above, h.within, h.committed, h.captured, h.queue⟩

theorem fail_poison (s : State) (reason : PoisonReason) : (s.fail reason).poison.isSome = true := by
  show (s.poison.or (some reason)).isSome = true
  cases s.poison <;> rfl

theorem entryAt_some (whole : contiguous s.boundary s.log = true) (here : s.entryAt idx = some e) :
    s.boundary < idx ∧ e ∈ s.log ∧ e.index = idx := by
  unfold entryAt at here
  split at here
  · next above =>
    refine ⟨above, List.mem_of_getElem? here, ?_⟩
    have := index_of_getElem? whole here
    lia
  · cases here

theorem entryAt_of_mem (whole : contiguous s.boundary s.log = true) (mem : e ∈ s.log) : s.entryAt e.index = some e := by
  obtain ⟨i, here⟩ := List.mem_iff_getElem?.mp mem
  have place := index_of_getElem? whole here
  have above : s.boundary < e.index := by lia
  have same : e.index - s.boundary - 1 = i := by lia
  rw [entryAt, if_pos above, same, here]

/-! ## Appends -/

theorem submitAppend_cons (s : State) (e : Wire.Entry) (rest : List Wire.Entry) :
    s.submitAppend (e :: rest) = { s with log := s.log.take (e.index - s.boundary - 1) ++ e :: rest } :=
  rfl

theorem noteAppended_spec {prev : Index} (entries : List Wire.Entry) (s : State) (follow : contiguous prev entries = true)
    (below : ∀ q ∈ s.freezeQueue, q ≤ prev) :
    ∃ cache, s.noteAppended entries =
        { s with
          freezeQueue := s.freezeQueue ++ (entries.filter (·.kind = .prepareMerge)).map (·.index), claimCache := cache } ∧
      (∀ i, i ≤ prev → cache i = s.claimCache i) ∧ ∀ i v, cache i = some v → s.claimCache i = some v := by
  induction entries generalizing s prev with
  | nil => exact ⟨s.claimCache, by simp [noteAppended], fun _ _ => rfl, fun _ _ h => h⟩
  | cons e entries ih =>
    obtain ⟨first, rest⟩ := contiguous_cons.mp follow
    by_cases freeze : e.kind = .prepareMerge
    · have last : s.freezeQueue.getLast?.all (· < e.index) = true := by
        cases last : s.freezeQueue.getLast? with
        | none => rfl
        | some q =>
          have := below q (List.mem_of_getLast? last)
          simp only [Option.all_some, decide_eq_true_eq]
          lia
      have pushed : (s.noteFreezeAppended e.index).freezeQueue = s.freezeQueue ++ [e.index] := if_pos last
      obtain ⟨cache, same, low, sub⟩ := ih (s.noteFreezeAppended e.index) rest (by
        intro q mem
        rw [pushed] at mem
        obtain old | new := List.mem_append.mp mem
        · have := below q old
          lia
        · have := List.mem_singleton.mp new
          lia)
      refine ⟨cache, ?_, fun i small => ?_, fun i v here => ?_⟩
      · show (if e.kind = .prepareMerge then s.noteFreezeAppended e.index else s).noteAppended entries = _
        rw [if_pos freeze, same, pushed, List.filter_cons_of_pos (by simpa using freeze), List.map_cons, List.append_assoc]
        rfl
      · rw [low i (by lia)]
        exact if_neg (by lia)
      · have := sub i v here
        by_cases at_e : i = e.index
        · have gone : (s.noteFreezeAppended e.index).claimCache i = none := if_pos at_e
          rw [gone] at this
          cases this
        · rwa [show (s.noteFreezeAppended e.index).claimCache i = s.claimCache i from if_neg at_e] at this
    · obtain ⟨cache, same, low, sub⟩ := ih s rest (fun q mem => by have := below q mem; lia)
      refine ⟨cache, ?_, fun i small => low i (by lia), sub⟩
      show (if e.kind = .prepareMerge then s.noteFreezeAppended e.index else s).noteAppended entries = _
      rw [if_neg freeze, same, List.filter_cons_of_neg (by simpa using freeze)]

/-- An append that replaces the log above `cut`: nothing applied is above it, and the verdicts up
to it stay. -/
structure Appends (s : State) (cut commit : Index) (entries : List Wire.Entry) (cache : Index → Option ClaimRead) : Prop where
  follow : contiguous cut entries = true
  low : s.applied ≤ cut
  high : cut ≤ s.lastIndex
  rise : s.commit ≤ commit
  kept : ∀ i, i ≤ cut → cache i = s.claimCache i
  sub : ∀ i v, cache i = some v → s.claimCache i = some v
  cleared : cut = s.lastIndex ∨ ∀ i, cut < i → cache i = none

/-- The state after such an append. -/
def appended (s : State) (cut commit : Index) (entries : List Wire.Entry) (cache : Index → Option ClaimRead) : State :=
  { s with
    log := s.log.take (cut - s.boundary) ++ entries
    freezeQueue := s.freezeQueue.filter (· < cut + 1) ++ (entries.filter (·.kind = .prepareMerge)).map (·.index)
    claimCache := cache
    commit := commit }

section

variable {cut commit : Index} {entries : List Wire.Entry} {cache : Index → Option ClaimRead}

theorem Appends.length_take (a : s.Appends cut commit entries cache) :
    (s.log.take (cut - s.boundary)).length = cut - s.boundary := by
  have high : cut ≤ s.boundary + s.log.length := a.high
  rw [List.length_take, min_eq_left (by lia)]

theorem Appends.exact (h : s.Exact) (a : s.Appends cut commit entries cache) : (s.appended cut commit entries cache).Exact := by
  have above := h.above
  have low := a.low
  have base : s.boundary + (cut - s.boundary) = cut := by lia
  refine ⟨?_, h.above, ?_, h.committed.trans a.rise, h.captured, ?_⟩
  · show contiguous s.boundary (s.log.take (cut - s.boundary) ++ entries) = true
    rw [contiguous_append, a.length_take, base]
    exact ⟨contiguous_take h.whole _, a.follow⟩
  · show s.applied ≤ s.boundary + (s.log.take (cut - s.boundary) ++ entries).length
    rw [List.length_append, a.length_take]
    lia
  · have place : cut + 1 - s.boundary - 1 = cut - s.boundary := by lia
    show s.freezeQueue.filter (· < cut + 1) ++ _ = freezes s.applied (s.log.take (cut - s.boundary) ++ entries)
    rw [freezes_append, freezes_of_le a.follow a.low, h.queue, filter_lt_freezes h.whole, place]

theorem Exact.mem_appended (h : s.Exact) (mem : e ∈ s.log) (low : e.index ≤ cut) :
    e ∈ (s.appended cut commit entries cache).log := by
  obtain ⟨i, here⟩ := List.mem_iff_getElem?.mp mem
  have place := index_of_getElem? h.whole here
  refine List.mem_append_left _ (List.mem_iff_getElem?.mpr ⟨i, ?_⟩)
  rw [List.getElem?_take_of_lt (by lia), here]

end

theorem propose_cases (h : s.Exact) (entry : Index → Wire.Entry) : s.propose entry = s ∨
      ∃ e cache, s.Appends s.lastIndex s.commit [e] cache ∧ s.propose entry = s.appended s.lastIndex s.commit [e] cache := by
  unfold propose
  cases alive : s.poison with
  | some => exact .inl rfl
  | none =>
    simp only [Option.isSome_none, Bool.false_eq_true, if_false]
    generalize made : ({ entry (s.lastIndex + 1) with index := s.lastIndex + 1 } : Wire.Entry) = e
    have place : e.index = s.lastIndex + 1 := by rw [← made]
    have follow : contiguous s.lastIndex [e] = true := contiguous_cons.mpr ⟨place, rfl⟩
    have old : ∀ q ∈ s.freezeQueue, q < s.lastIndex + 1 := by
      intro q mem
      obtain ⟨x, listed, -, -, rfl⟩ := h.mem_queue.mp mem
      have : x.index ≤ s.lastIndex := (index_of_mem h.whole listed).2
      lia
    obtain ⟨cache, same, kept, sub⟩ := noteAppended_spec [e] (s.submitAppend [e]) follow fun q mem => by
      have := old q mem
      lia
    have all : s.freezeQueue.filter (· < s.lastIndex + 1) = s.freezeQueue :=
      List.filter_eq_self.mpr fun q mem => by simpa using old q mem
    have cut : s.log.take (s.lastIndex - s.boundary) = s.log := by
      refine List.take_of_length_le ?_
      show s.log.length ≤ s.boundary + s.log.length - s.boundary
      lia
    have shift : e.index - s.boundary - 1 = s.lastIndex - s.boundary := by lia
    refine .inr ⟨e, cache, ⟨follow, h.within, le_rfl, le_rfl, kept, sub, .inl rfl⟩, ?_⟩
    rw [same, submitAppend_cons, shift]
    unfold appended
    rw [all, cut]

/-- The accepted suffix starts inside the log or right after it, and above what is compacted. -/
theorem suffix_follows {prev : Index} {entries suffix : List Wire.Entry} (follow : contiguous prev entries = true)
    (inside : prev ≤ s.lastIndex) (new : entries.dropWhile s.matchesExisting = e :: suffix) :
    ∃ cut, e.index = cut + 1 ∧ s.boundary ≤ cut ∧ cut ≤ s.lastIndex ∧ contiguous cut (e :: suffix) = true := by
  induction entries generalizing prev with
  | nil => cases new
  | cons x entries ih =>
    obtain ⟨first, rest⟩ := contiguous_cons.mp follow
    cases held : s.matchesExisting x with
    | true =>
      rw [List.dropWhile_cons_of_pos held] at new
      refine ih rest ?_ new
      have base : s.boundary ≤ s.lastIndex := Nat.le_add_right _ _
      obtain low | ⟨high, -⟩ := of_decide_eq_true held <;> lia
    | false =>
      rw [List.dropWhile_cons_of_neg (by rw [held]; exact Bool.false_ne_true)] at new
      obtain ⟨rfl, rfl⟩ := List.cons.inj new
      refine ⟨prev, first, ?_, inside, follow⟩
      have := (not_or.mp (of_decide_eq_false held)).1
      lia

/-- An `AppendEntries` that writes its entries from `e` on. -/
structure Accepts (s : State) (prev : Index) (entries : List Wire.Entry) (e : Wire.Entry) (suffix : List Wire.Entry) : Prop where
  alive : s.poison = none
  inside : prev ≤ s.lastIndex
  follow : contiguous prev entries = true
  new : entries.dropWhile s.matchesExisting = e :: suffix
  above : s.commit < e.index

/-- What an accept does: nothing, a poison, a commit, or an append above the commit. -/
theorem onAppendEntries_cases (h : s.Exact) (prev : Index) (entries : List Wire.Entry) (leaderCommit : Index) :
    (s.onAppendEntries prev entries leaderCommit = s) ∨
      (∃ reason, s.onAppendEntries prev entries leaderCommit = s.fail reason) ∨
      (∃ commit, s.commit ≤ commit ∧ s.onAppendEntries prev entries leaderCommit = { s with commit := commit }) ∨
      ∃ e suffix cut commit cache, s.Accepts prev entries e suffix ∧ e.index = cut + 1 ∧
        s.Appends cut commit (e :: suffix) cache ∧
        s.onAppendEntries prev entries leaderCommit = s.appended cut commit (e :: suffix) cache := by
  unfold onAppendEntries
  by_cases closed : s.poison.isSome ∨ s.lastIndex < prev
  · exact .inl (if_pos closed)
  rw [if_neg closed]
  refine .inr ?_
  cases follow : contiguous prev entries with
  | false => exact .inl ⟨.nonContiguousAppend, rfl⟩
  | true =>
    simp only [Bool.not_true, Bool.false_eq_true, if_false]
    cases new : entries.dropWhile s.matchesExisting with
    | nil => exact .inr (.inl ⟨_, le_max_left _ _, rfl⟩)
    | cons e suffix =>
      have inside : prev ≤ s.lastIndex := not_lt.mp (not_or.mp closed).2
      obtain ⟨cut, place, low, high, follows⟩ := suffix_follows follow inside new
      by_cases settled : e.index ≤ s.commit
      · simp only [settled, if_true]
        exact .inl ⟨.committedTruncation, rfl⟩
      simp only [settled, if_false]
      have left : (s.noteFreezeTruncated e.index).freezeQueue = s.freezeQueue.filter (· < cut + 1) := by
        rw [← place]
        exact rdropWhile_eq_filter h.sorted
      obtain ⟨cache, same, kept, sub⟩ := noteAppended_spec (e :: suffix)
        ((s.noteFreezeTruncated e.index).submitAppend (e :: suffix)) follows fun q mem => by
          rw [submitAppend_cons] at mem
          change q ∈ (s.noteFreezeTruncated e.index).freezeQueue at mem
          rw [left, List.mem_filter, decide_eq_true_eq] at mem
          have := mem.2
          lia
      have applied : s.applied ≤ cut := by
        have := h.committed
        lia
      have shift : e.index - s.boundary - 1 = cut - s.boundary := by lia
      have old (i : Index) : (s.noteFreezeTruncated e.index).claimCache i = if i ≤ cut then s.claimCache i else none := by
        rw [place]
        show (if i < cut + 1 then s.claimCache i else none) = _
        exact if_congr (by lia) rfl rfl
      refine .inr (.inr ⟨e, suffix, cut, max s.commit (min leaderCommit (prev + entries.length)), cache,
        ⟨by simpa using (not_or.mp closed).1, inside, follow, new, not_le.mp settled⟩, place,
        ⟨follows, applied, high, le_max_left _ _, fun i small => ?_, fun i v here => ?_, .inr fun i large => ?_⟩, ?_⟩)
      · exact (kept i small).trans ((old i).trans (if_pos small))
      · have := sub i v here
        rw [submitAppend_cons] at this
        change (s.noteFreezeTruncated e.index).claimCache i = some v at this
        rw [old] at this
        split at this
        · exact this
        · cases this
      · cases here : cache i with
        | none => rfl
        | some v =>
          have := sub i v here
          rw [submitAppend_cons] at this
          change (s.noteFreezeTruncated e.index).claimCache i = some v at this
          rw [old, if_neg (not_le.mpr large)] at this
          cases this
      · rw [same, submitAppend_cons]
        unfold appended
        rw [← shift, ← left]
        rfl

/-! ## Commits and applies -/

theorem exact_commitTo (h : s.Exact) (index : Index) : (s.commitTo index).Exact := by
  unfold commitTo
  split
  · exact h
  · exact ⟨h.whole, h.above, h.within, h.committed.trans (le_max_left _ _), h.captured, h.queue⟩

theorem Exact.advance (h : s.Exact) (here : s.entryAt (s.applied + 1) = some e) (kind : e.kind ≠ .prepareMerge)
    (ready : s.applied < s.commit) (frozen : Bool) (shapeGen : Nat) :
    Exact { s with frozen := frozen, shapeGen := shapeGen, applied := e.index } := by
  obtain ⟨-, mem, place⟩ := entryAt_some h.whole here
  have above := h.above
  have captured := h.captured
  refine ⟨h.whole, ?_, (index_of_mem h.whole mem).2, ?_, ?_, ?_⟩
  · show s.boundary ≤ e.index
    lia
  · show e.index ≤ s.commit
    lia
  · show s.captured ≤ e.index
    lia
  · show s.freezeQueue = freezes e.index s.log
    rw [place, freezes_succ h.whole mem place kind, h.queue]

theorem Exact.freeze (h : s.Exact) (here : s.entryAt (s.applied + 1) = some e) (ready : s.applied < s.commit)
    (shapeGen : Nat) :
    Exact { s.popAppliedFreeze e.index with frozen := true, shapeGen := shapeGen, applied := e.index } := by
  obtain ⟨-, mem, place⟩ := entryAt_some h.whole here
  have above := h.above
  have captured := h.captured
  refine ⟨h.whole, ?_, (index_of_mem h.whole mem).2, ?_, ?_, ?_⟩
  · show s.boundary ≤ e.index
    lia
  · show e.index ≤ s.commit
    lia
  · show s.captured ≤ e.index
    lia
  · show s.freezeQueue.dropWhile (· ≤ e.index) = freezes e.index s.log
    rw [dropWhile_eq_filter h.sorted, h.queue, filter_gt_freezes (by lia)]

section

variable (code : GeneratedCode)

/-- The next committed entry. -/
def Next (s : State) (e : Wire.Entry) : Prop :=
  s.poison = none ∧ s.applied < s.commit ∧ s.entryAt (s.applied + 1) = some e

/-- The apply arm takes the entry as a freeze. -/
def Freezes (e : Wire.Entry) : Prop := e.kind = .prepareMerge ∧ ∃ generation, shapeEntryMove code e = .valid generation

/-- The apply arm refuses the entry, a freeze. -/
def Refuses (e : Wire.Entry) : Prop := e.kind = .prepareMerge ∧ ∃ fault, shapeEntryMove code e = .invalid fault

/-- The apply arm takes the entry as the thaw of the freeze that stands at `shapeGen`. -/
def Thaws (shapeGen : Nat) (e : Wire.Entry) : Prop :=
  e.kind = .rollbackMerge ∧
    ∃ payload, Wire.decodeRollbackMergePayload code.rollbackMergePayload e.data = .ok payload ∧
      generationIsWorking payload.sourceGenAfter ∧ generationIsWorking payload.targetGenAfter ∧ payload.sourceBytes = [] ∧
      some payload.sourceGenAfter = nextLineage shapeGen

variable {code}

/-- What the apply arm of a `PrepareMerge` does, by the verdict on the entry. -/
theorem applyPrepareMerge_cases (code : GeneratedCode) (s : State) (kind : e.kind = .prepareMerge) :
    (∃ shapeGen, Freezes code e ∧ s.applyPrepareMerge code e = { s.popAppliedFreeze e.index with
        frozen := true, shapeGen := shapeGen, applied := e.index }) ∨
      ∃ reason, Refuses code e ∧ s.applyPrepareMerge code e = s.clearFreezeQueue.fail reason := by
  cases decoded : Wire.decodePrepareMergePayload code.prepareMergePayload e.data with
  | error =>
    refine .inr ⟨.mergeDecode, ⟨kind, .decode, ?_⟩, ?_⟩
    · simp only [shapeEntryMove, kind, decoded]
    · simp only [applyPrepareMerge, decoded]
  | ok payload =>
    cases working : generationIsWorking payload.sourceGenAfter with
    | false =>
      refine .inr ⟨.reservedShapeGen, ⟨kind, .reservedGeneration, ?_⟩, ?_⟩
      · simp [shapeEntryMove, kind, decoded, judged, working]
      · simp [applyPrepareMerge, decoded, working]
    | true =>
      refine .inl ⟨max s.shapeGen payload.sourceGenAfter, ⟨kind, payload.sourceGenAfter, ?_⟩, ?_⟩
      · simp [shapeEntryMove, kind, decoded, judged, working]
      · simp [applyPrepareMerge, decoded, working]

theorem applyRollbackMerge_cases (code : GeneratedCode) (s : State) (kind : e.kind = .rollbackMerge) :
    (∃ reason, s.applyRollbackMerge code e = s.fail reason ∧ ¬ Thaws code s.shapeGen e) ∨
      ∃ frozen shapeGen, s.applyRollbackMerge code e = { s with frozen := frozen, shapeGen := shapeGen, applied := e.index } ∧
        (frozen = true ↔ s.frozen = true ∧ ¬ Thaws code s.shapeGen e) := by
  cases decoded : Wire.decodeRollbackMergePayload code.rollbackMergePayload e.data with
  | error =>
    refine .inl ⟨.mergeDecode, by simp only [applyRollbackMerge, decoded], ?_⟩
    rintro ⟨-, payload, read, -⟩
    rw [decoded] at read
    cases read
  | ok payload =>
    have thaws : Thaws code s.shapeGen e ↔ generationIsWorking payload.sourceGenAfter ∧ generationIsWorking payload.targetGenAfter ∧
        payload.sourceBytes = [] ∧ some payload.sourceGenAfter = nextLineage s.shapeGen := by
      constructor
      · rintro ⟨-, p, read, rest⟩
        rw [decoded] at read
        cases read
        exact rest
      · exact fun rest => ⟨kind, payload, decoded, rest⟩
    rw [thaws]
    cases source : generationIsWorking payload.sourceGenAfter with
    | false => exact .inl ⟨.reservedShapeGen, by simp [applyRollbackMerge, decoded, source], by simp⟩
    | true =>
      cases target : generationIsWorking payload.targetGenAfter with
      | false => exact .inl ⟨.reservedShapeGen, by simp [applyRollbackMerge, decoded, source, target], by simp⟩
      | true =>
        refine .inr ?_
        by_cases own : payload.sourceBytes = []
        · by_cases thaw : s.frozen = true ∧ some payload.sourceGenAfter = nextLineage s.shapeGen
          · exact ⟨false, _, by simp only [applyRollbackMerge, decoded, source, target, own, thaw, and_self, Bool.and_self,
              Bool.not_true, Bool.false_eq_true, if_true, if_false]; rfl, by simp [own, thaw.2]⟩
          · refine ⟨s.frozen, s.shapeGen, by simp [applyRollbackMerge, decoded, source, target, own, thaw], ?_⟩
            rw [not_and] at thaw
            constructor
            · exact fun held => ⟨held, fun all => thaw held all.2.2.2⟩
            · exact And.left
        · by_cases next : some payload.targetGenAfter = nextLineage s.shapeGen
          · exact ⟨s.frozen, _, by simp only [applyRollbackMerge, decoded, source, target, own, next, Bool.and_self, Bool.not_true,
              Bool.false_eq_true, if_true, if_false]; rfl, by simp [own]⟩
          · exact ⟨s.frozen, s.shapeGen, by simp [applyRollbackMerge, decoded, source, target, own, next], by simp [own]⟩

theorem Next.unique {e' : Wire.Entry} (h : s.Next e) (h' : s.Next e') : e = e' :=
  Option.some.inj (h.2.2.symm.trans h'.2.2)

theorem applyNext_cases (code : GeneratedCode) (h : s.Exact) (other : Option Nat) :
    ((∀ e, ¬ s.Next e) ∧ s.applyNext code other = s) ∨
      ∃ e, s.Next e ∧ ((∃ shapeGen, Freezes code e ∧ s.applyNext code other =
            { s.popAppliedFreeze e.index with frozen := true, shapeGen := shapeGen, applied := e.index }) ∨
          (∃ reason, Refuses code e ∧ s.applyNext code other = s.clearFreezeQueue.fail reason) ∨
          e.kind ≠ .prepareMerge ∧ ((∃ reason, ¬ Thaws code s.shapeGen e ∧ s.applyNext code other = s.fail reason) ∨
              ∃ frozen shapeGen, (frozen = true ↔ s.frozen = true ∧ ¬ Thaws code s.shapeGen e) ∧
                s.applyNext code other = { s with frozen := frozen, shapeGen := shapeGen, applied := e.index })) := by
  unfold applyNext
  by_cases idle : s.poison.isSome ∨ s.commit ≤ s.applied
  · refine .inl ⟨?_, if_pos idle⟩
    rintro e ⟨alive, ready, -⟩
    obtain dead | done := idle
    · rw [alive] at dead
      cases dead
    · exact absurd ready (not_lt.mpr done)
  rw [if_neg idle]
  obtain ⟨alive, ready⟩ := not_or.mp idle
  cases here : s.entryAt (s.applied + 1) with
  | none =>
    refine .inl ⟨?_, rfl⟩
    rintro e ⟨-, -, there⟩
    rw [here] at there
    cases there
  | some e =>
    have place := (entryAt_some h.whole here).2.2
    refine .inr ⟨e, ⟨by simpa using alive, not_le.mp ready, here⟩, ?_⟩
    simp only [place, ne_eq, not_true_eq_false, if_false]
    cases kind : e.kind with
    | prepareMerge =>
      have cases_ := applyPrepareMerge_cases code s kind
      rw [place] at cases_
      exact cases_.imp_right Or.inl
    | rollbackMerge =>
      refine .inr (.inr ⟨by decide, ?_⟩)
      obtain ⟨reason, same, still⟩ | ⟨frozen, shapeGen, same, held⟩ := applyRollbackMerge_cases code s kind
      · exact .inl ⟨reason, still, same⟩
      · rw [place] at same
        exact .inr ⟨frozen, shapeGen, held, same⟩
    | _ =>
      have still : ¬ Thaws code s.shapeGen e := by
        rintro ⟨rollback, -⟩
        rw [kind] at rollback
        cases rollback
      refine .inr (.inr ⟨by decide, ?_⟩)
      cases other with
      | none => exact .inl ⟨.elsewhere, still, rfl⟩
      | some shapeGen => exact .inr ⟨s.frozen, shapeGen, ⟨fun held => ⟨held, still⟩, And.left⟩, rfl⟩

theorem exact_applyNext (h : s.Exact) (other : Option Nat) :
    (s.applyNext code other).Exact ∨ (∃ e, s.Next e ∧ Refuses code e) ∧ (s.applyNext code other).Emptied := by
  obtain ⟨-, same⟩ | ⟨e, next, ⟨shapeGen, -, same⟩ | ⟨reason, refused, same⟩ |
      ⟨kind, ⟨reason, -, same⟩ | ⟨frozen, shapeGen, -, same⟩⟩⟩ :=
    applyNext_cases code h other
  · rw [same]
    exact .inl h
  · rw [same]
    exact .inl (h.freeze next.2.2 next.2.1 _)
  · rw [same]
    exact .inr ⟨⟨e, next, refused⟩, fail_poison _ _, rfl⟩
  · rw [same]
    exact .inl (h.fail _)
  · rw [same]
    exact .inl (h.advance next.2.2 kind next.2.1 _ _)

/-! ## Snapshots, adoptions and restarts -/

theorem exact_install (h : s.Exact) (boundary : Index) (shapeGen : Nat) : (s.install boundary shapeGen).Exact := by
  unfold install
  split
  · exact h
  · exact ⟨rfl, le_rfl, le_rfl, le_rfl, le_rfl, rfl⟩

theorem exact_adoptParkedUnion (h : s.Exact) (boundary : Index) (shapeGen : Nat) :
    (s.adoptParkedUnion boundary shapeGen).Exact := by
  unfold adoptParkedUnion
  split
  · exact h
  next open_ =>
  simp only [not_or, not_le, not_lt] at open_
  obtain ⟨-, ahead, inside, committed⟩ := open_
  refine ⟨h.whole, h.above.trans ahead.le, inside, committed, h.captured.trans ahead.le, ?_⟩
  show s.freezeQueue.filter (boundary < ·) = freezes boundary s.log
  rw [h.queue, filter_gt_freezes ahead.le]

theorem exact_maybeSnapshot (h : s.Exact) : s.maybeSnapshot.Exact := by
  unfold maybeSnapshot
  split
  · exact h
  · exact ⟨h.whole, h.above, h.within, h.committed, le_rfl, h.queue⟩

theorem exact_compact (h : s.Exact) (upto : Index) : (s.compact upto).Exact := by
  unfold compact
  split
  · exact h
  next open_ =>
  simp only [not_or, not_le, not_lt] at open_
  obtain ⟨-, covered, above⟩ := open_
  have applied : upto ≤ s.applied := covered.trans h.captured
  have within : s.applied ≤ s.boundary + s.log.length := h.within
  have base : s.boundary + (upto - s.boundary) = upto := by lia
  refine ⟨?_, applied, ?_, h.committed, h.captured, ?_⟩
  · have := contiguous_drop h.whole (k := upto - s.boundary) (by lia)
    rwa [base] at this
  · show s.applied ≤ upto + (s.log.drop (upto - s.boundary)).length
    rw [List.length_drop]
    lia
  · show s.freezeQueue = freezes s.applied (s.log.drop (upto - s.boundary))
    rw [freezes_drop h.whole (by lia), h.queue]

theorem Exact.mem_compacted (h : s.Exact) {upto : Index} (mem : e ∈ s.log) (above : upto < e.index) :
    e ∈ s.log.drop (upto - s.boundary) := by
  obtain ⟨i, here⟩ := List.mem_iff_getElem?.mp mem
  have place := index_of_getElem? h.whole here
  refine List.mem_iff_getElem?.mpr ⟨i - (upto - s.boundary), ?_⟩
  rw [List.getElem?_drop, ← here]
  congr 1
  lia

theorem scanFreezePendingFrom_ok (chunk : Index → Option Nat) (fuel : Nat) (idx : Index) (queue found : List Index)
    (low : s.boundary < idx) (enough : s.lastIndex < idx + fuel)
    (ok : s.scanFreezePendingFrom chunk fuel idx queue = .ok found) :
    found = queue ++ ((s.log.drop (idx - s.boundary - 1)).filter (·.kind = .prepareMerge)).map (·.index) := by
  induction fuel generalizing idx queue with
  | zero =>
    cases ok
    rw [List.drop_of_length_le (by unfold lastIndex at enough; lia)]
    simp
  | succ fuel ih =>
    unfold scanFreezePendingFrom at ok
    by_cases past : s.lastIndex < idx
    · rw [if_pos past] at ok
      cases ok
      rw [List.drop_of_length_le (by unfold lastIndex at past; lia)]
      simp
    rw [if_neg past] at ok
    cases read : chunk idx with
    | none => simp only [read, reduceCtorEq] at ok
    | some n =>
      simp only [read] at ok
      generalize size : min (n + 1) Endpoint.maxReadBatchEntries = k at ok
      have some_read : 0 < k := by
        rw [← size]
        exact lt_min (Nat.succ_pos n) (by decide)
      have length : ((s.log.drop (idx - s.boundary - 1)).take k).length = min k (s.log.length - (idx - s.boundary - 1)) := by
        rw [List.length_take, List.length_drop]
      have inside : idx ≤ s.boundary + s.log.length := not_lt.mp past
      have := ih _ _ (by lia) (by rw [length]; lia) ok
      rw [this, List.append_assoc, ← List.map_append, ← List.filter_append]
      congr 3
      generalize rest : s.log.drop (idx - s.boundary - 1) = l
      have shift : idx + (l.take k).length - s.boundary - 1 = idx - s.boundary - 1 + (l.take k).length := by lia
      rw [shift, ← List.drop_drop, rest]
      by_cases short : k ≤ l.length
      · rw [List.length_take, min_eq_left short, List.take_append_drop]
      · rw [List.take_of_length_le (by lia), List.drop_length, List.append_nil]

theorem restart_cases (kept : Kept) (chunk : Index → Option Nat) :
    (restart kept chunk).Exact ∨ (restart kept chunk).Emptied := by
  unfold restart
  generalize made : (⟨kept.boundary, kept.log, kept.commit, kept.applied, kept.applied, [], fun _ => none, false, kept.shapeGen, none⟩ :
    State) = s
  have whole : contiguous s.boundary s.log = true := by rw [← made]; exact kept.whole
  have above : s.boundary ≤ s.applied := by rw [← made]; exact kept.above
  have within : s.applied ≤ s.lastIndex := by rw [← made]; exact kept.within
  have committed : s.applied ≤ s.commit := by rw [← made]; exact kept.committed
  have captured : s.captured ≤ s.applied := by rw [← made]
  have queue : s.freezeQueue = [] := by rw [← made]
  simp only []
  cases scanned : s.scanFreezePending chunk with
  | error => exact .inr ⟨fail_poison _ _, queue⟩
  | ok found =>
    have inside : s.applied ≤ s.boundary + s.log.length := within
    have all := scanFreezePendingFrom_ok chunk s.log.length (s.applied + 1) [] found (by lia)
      (by unfold lastIndex; lia) scanned
    have base : s.boundary + (s.applied + 1 - s.boundary - 1) = s.applied := by lia
    have tail := contiguous_drop whole (k := s.applied + 1 - s.boundary - 1) (by lia)
    rw [base] at tail
    refine .inl ⟨whole, above, within, committed, captured, ?_⟩
    show found = freezes s.applied s.log
    rw [all, List.nil_append, ← freezes_of_le tail le_rfl, freezes_drop whole (by lia)]

/-! ## The claim scan writes only the cache -/

theorem claimVerdict_cache {readable : Index → Bool} {v : ClaimRead} {s' : State} (h : s.claimVerdict code readable idx = .ok (v, s')) :
    (s' = s ∧ s.cachedClaim idx = some v) ∨
      s.cachedClaim idx = none ∧ s' = { s with claimCache := fun i => if i = idx then some v else s.claimCache i } := by
  unfold claimVerdict at h
  cases cached : s.cachedClaim idx with
  | some =>
    simp only [cached] at h
    cases h
    exact .inl ⟨rfl, rfl⟩
  | none =>
    cases read : s.readClaim code readable idx s.commit with
    | error => simp only [cached, read, reduceCtorEq] at h
    | ok =>
      simp only [cached, read] at h
      cases h
      exact .inr ⟨rfl, rfl⟩

theorem scanLoop_state (readable : Index → Bool) (queued : List Index) (s : State) (claims : List Bytes) :
    ∃ cache, (scanLoop code readable s claims queued).2 = { s with claimCache := cache } := by
  induction queued generalizing s claims with
  | nil => exact ⟨s.claimCache, rfl⟩
  | cons idx queued ih =>
    cases verdict : s.claimVerdict code readable idx with
    | error =>
      simp only [scanLoop, verdict]
      exact ⟨s.claimCache, rfl⟩
    | ok answer =>
      obtain ⟨v, s'⟩ := answer
      obtain ⟨cache, rfl⟩ : ∃ cache, s' = { s with claimCache := cache } := by
        obtain ⟨rfl, -⟩ | ⟨-, same⟩ := claimVerdict_cache verdict
        · exact ⟨s'.claimCache, rfl⟩
        · exact ⟨_, same⟩
      cases v with
      | claim =>
        simp only [scanLoop, verdict]
        exact ih _ _
      | refusedCommitted | refusedAbove =>
        simp only [scanLoop, verdict]
        exact ⟨cache, rfl⟩

theorem scan_state (code : GeneratedCode) (s : State) (readable : Index → Bool) :
    ∃ cache, (s.scanFreezeClaims code readable).2 = { s with claimCache := cache } :=
  scanLoop_state readable s.freezeQueue s []

end

end State

end Sailing.Freeze
