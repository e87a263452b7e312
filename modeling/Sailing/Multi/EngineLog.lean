import Sailing.Freeze.Queue

/-!
# What the log of the group engine tells a removal

`EngineLog` (`multi/engine/mod.rs`) keeps, beside its entries, the generations its shape entries name
and the faults of those the apply path will refuse, so that the fence of a removal need not read the
log. Terms and completions are not modelled here.
-/

namespace Sailing

open Freeze (ShapeFault shapeEntryMove contiguous contiguous_append contiguous_take contiguous_drop)

structure EngineLog where
  entries : List Wire.Entry
  offset : Index
  shapeContribs : List (Index × Nat)
  shapeFaults : List (Index × ShapeFault)

namespace EngineLog

variable (code : Wire.GeneratedCode)

def contrib (e : Wire.Entry) : Option Nat :=
  match shapeEntryMove code e with
  | .valid generation => if generation = 0 then none else some generation
  | _ => none

def fault (e : Wire.Entry) : Option ShapeFault :=
  match shapeEntryMove code e with
  | .invalid fault => some fault
  | _ => none

/-- The marked entries, with where they are. -/
def scan {α : Type} (mark : Wire.Entry → Option α) (entries : List Wire.Entry) : List (Index × α) :=
  entries.filterMap fun e => (mark e).map (e.index, ·)

def submitAppend (l : EngineLog) (entries : List Wire.Entry) : EngineLog :=
  match entries with
  | [] => l
  | first :: _ =>
    { l with
      entries := l.entries.take (first.index - l.offset - 1) ++ entries
      shapeContribs := l.shapeContribs.rdropWhile (first.index ≤ ·.1) ++ scan (contrib code) entries
      shapeFaults := l.shapeFaults.rdropWhile (first.index ≤ ·.1) ++ scan (fault code) entries }

def compact (l : EngineLog) (upTo : Index) : EngineLog :=
  if upTo ≤ l.offset ∨ l.entries = [] then l
  else
    let upTo := min upTo (l.offset + l.entries.length)
    { entries := l.entries.drop (upTo - l.offset)
      offset := upTo
      shapeContribs := l.shapeContribs.dropWhile (·.1 ≤ upTo)
      shapeFaults := l.shapeFaults.dropWhile (·.1 ≤ upTo) }

def restore (lastIndex : Index) : EngineLog := ⟨[], lastIndex, [], []⟩

def shapeCeiling (l : EngineLog) : Nat := (l.shapeContribs.map Prod.snd).max?.getD 0

def shapeFaulted (l : EngineLog) : Bool := !l.shapeFaults.isEmpty

/-- A new log is `restore 0`; what is appended starts in the log or right behind it. -/
inductive Reached : EngineLog → Prop
  | restore (lastIndex : Index) : Reached (restore lastIndex)
  | submitAppend {l : EngineLog} {entries : List Wire.Entry} {k : Nat} (before : Reached l) (short : k ≤ l.entries.length)
      (next : contiguous (l.offset + k) entries = true) : Reached (l.submitAppend code entries)
  | compact {l : EngineLog} (before : Reached l) (upTo : Index) : Reached (l.compact upTo)

section Scan

variable {α : Type} {mark : Wire.Entry → Option α} {b : Index} {l m : List Wire.Entry}

theorem scan_append : scan mark (l ++ m) = scan mark l ++ scan mark m := List.filterMap_append

theorem map_snd_scan : (scan mark l).map Prod.snd = l.filterMap mark := by
  simp [scan, List.map_filterMap, Function.comp_def]

theorem not_isEmpty_scan : (!(scan mark l).isEmpty) = l.any fun e => (mark e).isSome := by
  induction l with
  | nil => rfl
  | cons e l ih => cases marked : mark e <;> simp_all [scan]

theorem exists_of_mem_scan {x : Index × α} (mem : x ∈ scan mark l) : ∃ e ∈ l, e.index = x.1 := by
  obtain ⟨e, here, marked⟩ := List.mem_filterMap.mp mem
  obtain ⟨a, -, rfl⟩ := Option.map_eq_some_iff.mp marked
  exact ⟨e, here, rfl⟩

theorem dropWhile_none {p : α → Bool} {as : List α} (none : ∀ a ∈ as, p a = false) : as.dropWhile p = as := by
  cases as <;> simp_all

/-- A cut of the log cuts what a scan of it found. -/
theorem scan_cut (whole : contiguous b l = true) {k : Nat} (short : k ≤ l.length) :
    (scan mark l).rdropWhile (b + k + 1 ≤ ·.1) = scan mark (l.take k) ∧
      (scan mark l).dropWhile (·.1 ≤ b + k) = scan mark (l.drop k) := by
  have low : ∀ x ∈ scan mark (l.take k), x.1 < b + k + 1 := by
    intro x mem
    obtain ⟨e, here, same⟩ := exists_of_mem_scan mem
    have := (Freeze.index_of_mem (contiguous_take whole k) here).2
    rw [List.length_take] at this
    lia
  have high : ∀ x ∈ scan mark (l.drop k), b + k + 1 ≤ x.1 := by
    intro x mem
    obtain ⟨e, here, same⟩ := exists_of_mem_scan mem
    exact same ▸ (Freeze.index_of_mem (contiguous_drop whole short) here).1
  rw [show scan mark l = scan mark (l.take k) ++ scan mark (l.drop k) by rw [← scan_append, List.take_append_drop]]
  constructor
  · rw [List.rdropWhile, List.reverse_append, List.dropWhile_append_of_pos (by simpa using high),
      dropWhile_none (by simpa using low), List.reverse_reverse]
  · rw [List.dropWhile_append_of_pos (by simpa [Nat.lt_succ_iff] using low), dropWhile_none]
    simpa [Nat.succ_le_iff] using high

end Scan

/-- The entries follow `offset` one by one, and both ledgers are what a scan of them finds. -/
structure Exact (l : EngineLog) : Prop where
  whole : contiguous l.offset l.entries = true
  contribs : l.shapeContribs = scan (contrib code) l.entries
  faults : l.shapeFaults = scan (fault code) l.entries

variable {code} {l : EngineLog}

theorem Exact.submitAppend (h : l.Exact code) {es : List Wire.Entry} {k : Nat} (short : k ≤ l.entries.length)
    (next : contiguous (l.offset + k) es = true) : (l.submitAppend code es).Exact code := by
  cases es with
  | nil => exact h
  | cons first es =>
    have index : first.index = l.offset + k + 1 := (Freeze.contiguous_cons.mp next).1
    have place : first.index - l.offset - 1 = k := by lia
    simp only [EngineLog.submitAppend, place, h.contribs, h.faults]
    rw [index]
    refine ⟨contiguous_append.mpr ⟨contiguous_take h.whole k, ?_⟩, ?_, ?_⟩
    · rwa [List.length_take, min_eq_left short]
    · simp only [scan_append, (scan_cut h.whole short).1]
    · simp only [scan_append, (scan_cut h.whole short).1]

theorem Exact.compact (h : l.Exact code) (upTo : Index) : (l.compact upTo).Exact code := by
  unfold EngineLog.compact
  split
  · exact h
  next high =>
  obtain ⟨k, cut, short⟩ : ∃ k, min upTo (l.offset + l.entries.length) = l.offset + k ∧ k ≤ l.entries.length :=
    ⟨min (upTo - l.offset) l.entries.length, by lia, by lia⟩
  simp only [cut, Nat.add_sub_cancel_left, h.contribs, h.faults, (scan_cut h.whole short).2]
  exact ⟨contiguous_drop h.whole short, rfl, rfl⟩

theorem Reached.exact (h : Reached code l) : l.Exact code := by
  induction h with
  | restore => exact ⟨rfl, rfl, rfl⟩
  | submitAppend _ short next ih => exact ih.submitAppend short next
  | compact _ upTo ih => exact ih.compact upTo

/-- **The ledgers are exact.** The ceiling and the latch of the fence are what a scan of the entries
that are left would answer. -/
theorem ledgers_exact (code : Wire.GeneratedCode) (l : EngineLog) (reached : Reached code l) :
    l.shapeCeiling = (l.entries.filterMap (contrib code)).max?.getD 0 ∧
    l.shapeFaulted = l.entries.any fun e => (fault code e).isSome := by
  obtain ⟨-, contribs, faults⟩ := reached.exact
  rw [shapeCeiling, shapeFaulted, contribs, map_snd_scan, faults]
  exact ⟨rfl, not_isEmpty_scan⟩

/-- A freeze without a payload cannot be read, and latches the fence until it is overwritten. -/
theorem ledgers_exact_overwritten :
    let first := (restore 4).submitAppend .ofCountable [⟨1, 5, .prepareMerge, [7], 0, 0, 0⟩]
    first.shapeFaulted = true ∧ (first.submitAppend .ofCountable [⟨2, 5, .normal, [], 0, 0, 0⟩]).shapeFaulted = false := by
  intro first
  have reached : Reached .ofCountable first := .submitAppend (k := 0) (.restore 4) (Nat.zero_le _) (by decide)
  exact ⟨(ledgers_exact _ _ reached).2,
    (ledgers_exact _ _ (.submitAppend (k := 0) reached (Nat.zero_le _) (by decide))).2⟩

end EngineLog

end Sailing
