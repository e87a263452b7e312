import Sailing.Freeze.Adoption
import Sailing.Wire.RoundTrip

/-!
# Checked failover reads

A leader that waits out an inherited lease may answer reads at its commit index, if nothing in the
limbo region above it can change the answer: an earlier leader may have committed any part of it.
The driver (`sailing-driver/src/shared.rs`) reads the region from the log under a cap and hands out
its `Normal` entries; a checked read runs only if there are none. The state machine also changes
when a `Split` that is not stale or a `CommitMerge` that absorbs is applied, and these the driver
does not look at: a checked read can miss one. It misses nothing exactly when there is none,
whatever the store answers.
-/

namespace Sailing.Limbo

open Freeze (Machine Target contiguous eq_of_index contiguous_cons)
open Freeze.Target (between mem_between)
open Wire (GeneratedCode)

/-! ## The driver -/

structure FailoverReadWindow where
  index : Index
  limboUpper : Index
deriving DecidableEq, Repr

inductive EntriesRead where
  | ready (entries : List Wire.Entry)
  | pending

/-- What `LogStore::entries` answers for a range and a cap. -/
abbrev LogStore (ε : Type) := Index → Index → Nat → Except ε EntriesRead

def limboBounds (w : FailoverReadWindow) : Option (Index × Index) :=
  (checkedNext w.index).bind fun lo => (checkedNext w.limboUpper).map fun hi => (lo, hi)

def limboEntryOverhead : Nat := 64

def saturatingAdd (a b : Nat) : Nat := min (a + b) u64Max

/-- The loop of `contiguous_normal_entries`: the index it expects at the end. -/
def contiguousLoop (maxBytes : Nat) : Index → Nat → List Wire.Entry → Option Index
  | expected, _, [] => some expected
  | expected, cost, e :: entries =>
    if e.index ≠ expected then none
    else
      (checkedNext e.index).bind fun expected =>
        let cost := saturatingAdd (saturatingAdd cost limboEntryOverhead) e.data.length
        if maxBytes < cost then none else contiguousLoop maxBytes expected cost entries

def contiguousNormalEntries (entries : List Wire.Entry) (lo hi : Index) (maxBytes : Nat) : Option (List Wire.Entry) :=
  (contiguousLoop maxBytes lo 0 entries).bind fun expected =>
    if expected ≠ hi then none else some (entries.filter (·.kind = .normal))

def readLimbo {ε : Type} (log : LogStore ε) (window : FailoverReadWindow) (maxBytes : Nat) :
    Except ε (Option (List Wire.Entry)) :=
  match limboBounds window with
  | none => .ok none
  | some (lo, hi) =>
    if hi ≤ lo then .ok (some [])
    else if max (maxBytes / limboEntryOverhead) 1 < hi - lo then .ok none
    else
      match log lo hi maxBytes with
      | .error e => .error e
      | .ok .pending => .ok none
      | .ok (.ready entries) => .ok (contiguousNormalEntries entries lo hi maxBytes)

def applyCheckedFailover {ε σ Out : Type} (outcome : Except ε (Option (σ × List Wire.Entry × FailoverReadWindow)))
    (f : σ → FailoverReadWindow → Option Out) : Except ε (Option Out) :=
  outcome.map fun opt => opt.bind fun served => if served.2.1.isEmpty then f served.1 served.2.2 else none

/-! ## What the driver reads -/

theorem checkedNext_some {i j : Index} (h : checkedNext i = some j) : j = i + 1 := by
  unfold checkedNext at h
  split at h <;> cases h
  rfl

theorem contiguousLoop_some {maxBytes : Nat} {lo hi : Index} {cost : Nat} {entries : List Wire.Entry}
    (h : contiguousLoop maxBytes (lo + 1) cost entries = some hi) :
    contiguous lo entries = true ∧ hi = lo + 1 + entries.length := by
  induction entries generalizing lo cost with
  | nil => exact ⟨rfl, (Option.some.inj h).symm⟩
  | cons e entries ih =>
    unfold contiguousLoop at h
    split at h
    · cases h
    next place =>
    have place : e.index = lo + 1 := not_not.mp place
    obtain ⟨expected, next, h⟩ := Option.bind_eq_some_iff.mp h
    rw [checkedNext_some next, place] at h
    simp only at h
    split at h
    · cases h
    obtain ⟨follow, length⟩ := ih h
    refine ⟨contiguous_cons.mpr ⟨place, follow⟩, ?_⟩
    rw [length, List.length_cons]
    lia

/-- A region that was read in full: every index of it is there, and the `Normal` entries are handed out. -/
theorem readLimbo_some {ε : Type} {log : LogStore ε} {window : FailoverReadWindow} {maxBytes : Nat} {limbo : List Wire.Entry}
    (h : readLimbo log window maxBytes = .ok (some limbo)) (wide : window.index < window.limboUpper) :
    ∃ lo hi entries, log lo hi maxBytes = .ok (.ready entries) ∧ contiguous window.index entries = true ∧
      window.index + entries.length = window.limboUpper ∧ limbo = entries.filter (·.kind = .normal) := by
  unfold readLimbo at h
  cases bounds : limboBounds window with
  | none =>
    simp only [bounds] at h
    cases h
  | some b =>
    obtain ⟨lo, hi⟩ := b
    simp only [bounds] at h
    obtain ⟨lo', low, rest⟩ := Option.bind_eq_some_iff.mp bounds
    obtain ⟨hi', high, same⟩ := Option.map_eq_some_iff.mp rest
    cases same
    obtain rfl := checkedNext_some low
    obtain rfl := checkedNext_some high
    rw [if_neg (by lia)] at h
    split at h
    · cases h
    cases answer : log (window.index + 1) (window.limboUpper + 1) maxBytes with
    | error e =>
      simp only [answer] at h
      cases h
    | ok read =>
      cases read with
      | pending =>
        simp only [answer] at h
        cases h
      | ready entries =>
        simp only [answer, Except.ok.injEq] at h
        obtain ⟨reached, loop, filtered⟩ := Option.bind_eq_some_iff.mp h
        split at filtered
        · cases filtered
        next ends =>
        obtain ⟨follow, length⟩ := contiguousLoop_some loop
        refine ⟨_, _, entries, answer, follow, ?_, (Option.some.inj filtered).symm⟩
        rw [not_not.mp ends] at length
        lia

theorem exists_index_of_contiguous {prev i : Index} {entries : List Wire.Entry} (h : contiguous prev entries = true)
    (above : prev < i) (inside : i ≤ prev + entries.length) : ∃ e ∈ entries, e.index = i := by
  induction entries generalizing prev with
  | nil =>
    rw [List.length_nil] at inside
    lia
  | cons e entries ih =>
    obtain ⟨place, follow⟩ := contiguous_cons.mp h
    rcases Nat.lt_or_eq_of_le above with later | here
    · rw [List.length_cons] at inside
      obtain ⟨x, mem, same⟩ := ih follow later (by lia)
      exact ⟨x, List.mem_cons_of_mem e mem, same⟩
    · exact ⟨e, List.mem_cons_self, place.trans here⟩

/-! ## What the entries do -/

section

variable {σ γ : Type} {M : Machine σ γ} {code : GeneratedCode} {absorbs : Index → Bool} {t t' : Target σ γ} {e : Wire.Entry}

/-- The state machine after the entries; a fault stops it where it is. -/
def fsmAfter (M : Machine σ γ) (code : GeneratedCode) (absorbs : Index → Bool) : Target σ γ → List Wire.Entry → σ
  | t, [] => t.fsm
  | t, e :: entries =>
    match t.applyEntry M code absorbs e with
    | some t => fsmAfter M code absorbs t entries
    | none => t.fsm

/-- The `Split` hands a part of the state over: it is the next of the lineage. -/
def splits (code : GeneratedCode) (t : Target σ γ) (e : Wire.Entry) : Bool :=
  match Wire.decodeSplitPayload code.splitPayload e.data with
  | .error _ => false
  | .ok p => generationIsWorking p.parentGenAfter && generationIsWorking p.childGen &&
      some p.parentGenAfter = nextLineage t.core.shapeGen

/-- The `CommitMerge` absorbs its source: it is neither stale nor abandoned nor aborted. -/
def absorbing (code : GeneratedCode) (absorbs : Index → Bool) (t : Target σ γ) (e : Wire.Entry) : Bool :=
  match Wire.decodeCommitMergePayload code.commitMergePayload e.data with
  | .error _ => false
  | .ok p => generationIsWorking p.sourceGenAfter && generationIsWorking p.targetGenAfter &&
      some p.targetGenAfter = nextLineage t.core.shapeGen && !t.abandonedMatches p.sourceBytes p.sourceGenAfter &&
      absorbs e.index

/-- The entry changes the shape of the group when it is applied to `t`. -/
def reshapes (code : GeneratedCode) (absorbs : Index → Bool) (t : Target σ γ) (e : Wire.Entry) : Bool :=
  match e.kind with
  | .split => splits code t e
  | .commitMerge => absorbing code absorbs t e
  | _ => false

/-- The replica gets to an entry that changes the shape of the group. -/
def Reshapes (M : Machine σ γ) (code : GeneratedCode) (absorbs : Index → Bool) : Target σ γ → List Wire.Entry → Prop
  | _, [] => False
  | t, e :: entries => reshapes code absorbs t e = true ∨
      ∃ t', t.applyEntry M code absorbs e = some t' ∧ Reshapes M code absorbs t' entries

theorem fsm_applySplit (h : t.applySplit M code e = some t') :
    splits code t e = true ∧ (∃ instruction, M.split instruction t.fsm = some t'.fsm) ∨
      splits code t e = false ∧ t'.fsm = t.fsm := by
  unfold Target.applySplit at h
  unfold splits
  cases decoded : Wire.decodeSplitPayload code.splitPayload e.data with
  | error =>
    rw [decoded] at h
    cases h
  | ok p =>
  rw [decoded] at h
  dsimp only at h ⊢
  split at h
  · cases h
  next working =>
  have working : (generationIsWorking p.parentGenAfter && generationIsWorking p.childGen) = true := by simpa using working
  rw [working, Bool.true_and]
  split at h
  · next stale =>
    cases h
    exact .inr ⟨decide_eq_false stale, rfl⟩
  · next fresh =>
    obtain ⟨fsm, made, rfl⟩ := Option.map_eq_some_iff.mp h
    exact .inl ⟨decide_eq_true (not_not.mp fresh), p.instruction, made⟩

theorem fsm_applyCommitMerge (h : t.applyCommitMerge M code absorbs e = some t') :
    absorbing code absorbs t e = true ∧ (∃ park, M.absorb park t.fsm = some t'.fsm) ∨
      absorbing code absorbs t e = false ∧ t'.fsm = t.fsm := by
  unfold Target.applyCommitMerge at h
  unfold absorbing
  cases decoded : Wire.decodeCommitMergePayload code.commitMergePayload e.data with
  | error =>
    rw [decoded] at h
    cases h
  | ok p =>
  rw [decoded] at h
  dsimp only at h ⊢
  split at h
  · cases h
  next working =>
  have working : (generationIsWorking p.sourceGenAfter && generationIsWorking p.targetGenAfter) = true := by
    simpa using working
  rw [working, Bool.true_and]
  split at h
  · next stale =>
    cases h
    exact .inr ⟨by rw [decide_eq_false stale]; rfl, rfl⟩
  next fresh =>
  rw [decide_eq_true (not_not.mp fresh), Bool.true_and]
  split at h
  · next abandoned =>
    cases h
    exact .inr ⟨by rw [abandoned]; rfl, rfl⟩
  next kept =>
  rw [(Bool.not_eq_true _).mp kept, Bool.not_false, Bool.true_and]
  split at h
  · next goes =>
    obtain ⟨fsm, made, rfl⟩ := Option.map_eq_some_iff.mp h
    exact .inl ⟨goes, _, made⟩
  · next aborted =>
    cases h
    exact .inr ⟨(Bool.not_eq_true _).mp aborted, rfl⟩

/-- Only a command and what changes the shape of the group reach the state machine. -/
theorem fsm_applyEntry (h : t.applyEntry M code absorbs e = some t') (silent : e.kind ≠ .normal) :
    reshapes code absorbs t e = true ∧
        ((∃ instruction, M.split instruction t.fsm = some t'.fsm) ∨ ∃ park, M.absorb park t.fsm = some t'.fsm) ∨
      reshapes code absorbs t e = false ∧ t'.fsm = t.fsm := by
  unfold Target.applyEntry at h
  unfold reshapes
  cases kind : e.kind
  all_goals simp only [kind] at h silent ⊢
  case normal => exact absurd rfl silent
  case split => exact (fsm_applySplit h).imp_left fun ⟨yes, made⟩ => ⟨yes, .inl made⟩
  case commitMerge => exact (fsm_applyCommitMerge h).imp_left fun ⟨yes, made⟩ => ⟨yes, .inr made⟩
  all_goals refine .inr ⟨trivial, ?_⟩
  case empty =>
    cases h
    rfl
  case confChange =>
    obtain ⟨conf, -, rfl⟩ := Option.map_eq_some_iff.mp h
    rfl
  case setReadMode =>
    unfold Target.applySetReadMode at h
    split at h
    · obtain ⟨mode, -, rfl⟩ := Option.map_eq_some_iff.mp h
      rfl
    · cases h
  case prepareMerge =>
    unfold Target.applyPrepareMerge at h
    split at h
    · cases h
    · split at h <;> cases h
      rfl
  case thawDischarged =>
    unfold Target.applyThawDischarged at h
    split at h
    · cases h
    cases h
    show (ite _ _ _ : Target σ γ).fsm = t.fsm
    split <;> rfl
  case rollbackMerge =>
    unfold Target.applyRollbackMerge at h
    split at h
    · cases h
    split at h
    · cases h
    split at h
    all_goals
      split at h <;> cases h <;> rfl

/-- A replica that gets to no such entry reads what it read before, however far it goes. -/
theorem fsmAfter_take (entries : List Wire.Entry) (t : Target σ γ) (silent : ∀ e ∈ entries, e.kind ≠ .normal)
    (keeps : ¬ Reshapes M code absorbs t entries) (k : Nat) : fsmAfter M code absorbs t (entries.take k) = t.fsm := by
  induction entries generalizing t k with
  | nil => rw [List.take_nil, fsmAfter]
  | cons e entries ih =>
    obtain ⟨first, rest⟩ := not_or.mp keeps
    cases k with
    | zero => rfl
    | succ k =>
      rw [List.take_succ_cons, fsmAfter]
      cases applied : t.applyEntry M code absorbs e with
      | none => rfl
      | some t' =>
        show fsmAfter M code absorbs t' (entries.take k) = t.fsm
        rw [ih t' (fun x mem => silent x (List.mem_cons_of_mem e mem)) (fun later => rest ⟨t', applied, later⟩)]
        rcases fsm_applyEntry applied (silent e List.mem_cons_self) with ⟨yes, -⟩ | ⟨-, same⟩
        · exact absurd yes first
        · exact same

/-- Every split and every merge can be seen in the state. -/
structure Telling (M : Machine σ γ) : Prop where
  split : ∀ instruction fsm, ∃ fsm' ≠ fsm, M.split instruction fsm = some fsm'
  absorb : ∀ park fsm, ∃ fsm' ≠ fsm, M.absorb park fsm = some fsm'

theorem applyEntry_of_reshapes (telling : Telling M) (yes : reshapes code absorbs t e = true) :
    ∃ t', t.applyEntry M code absorbs e = some t' := by
  unfold reshapes at yes
  unfold Target.applyEntry
  cases kind : e.kind
  all_goals simp only [kind] at yes ⊢
  case split =>
    unfold splits at yes
    unfold Target.applySplit
    split at yes
    · cases yes
    next p decoded =>
    obtain ⟨working, next⟩ := (Bool.and_eq_true _ _).mp yes
    obtain ⟨fsm', -, made⟩ := telling.split p.instruction t.fsm
    simp only [decoded]
    rw [working, if_neg (by simp), if_neg (not_not.mpr (of_decide_eq_true next)), made]
    exact ⟨_, rfl⟩
  case commitMerge =>
    unfold absorbing at yes
    unfold Target.applyCommitMerge
    split at yes
    · cases yes
    next p decoded =>
    simp only [Bool.and_eq_true, Bool.not_eq_true', decide_eq_true_eq] at yes
    obtain ⟨⟨⟨⟨source, target⟩, next⟩, kept⟩, goes⟩ := yes
    obtain ⟨fsm', -, made⟩ := telling.absorb
      ⟨p.sourceBytes, p.freezeIndex, p.freezeTerm, p.sourceGenAfter, p.targetGenAfter, e.index⟩ t.fsm
    simp [decoded, source, target, next, kept, goes, Target.resolvePendingMerge, made]
  all_goals cases yes

/-- A replica that gets to such an entry reads something else at some point. -/
theorem exists_fsmAfter_ne (telling : Telling M) (entries : List Wire.Entry) (t : Target σ γ)
    (silent : ∀ e ∈ entries, e.kind ≠ .normal) (goes : Reshapes M code absorbs t entries) :
    ∃ k ≤ entries.length, fsmAfter M code absorbs t (entries.take k) ≠ t.fsm := by
  induction entries generalizing t with
  | nil => exact goes.elim
  | cons e entries ih =>
    have first := silent e List.mem_cons_self
    cases yes : reshapes code absorbs t e with
    | true =>
      obtain ⟨t', applied⟩ := applyEntry_of_reshapes (M := M) telling yes
      refine ⟨1, by simp, ?_⟩
      rw [List.take_succ_cons, List.take_zero, fsmAfter, applied]
      show t'.fsm ≠ t.fsm
      rcases fsm_applyEntry applied first with ⟨-, ⟨instruction, made⟩ | ⟨park, made⟩⟩ | ⟨no, -⟩
      · obtain ⟨fsm', ne, made'⟩ := telling.split instruction t.fsm
        rwa [Option.some.inj (made.symm.trans made')]
      · obtain ⟨fsm', ne, made'⟩ := telling.absorb park t.fsm
        rwa [Option.some.inj (made.symm.trans made')]
      · exact absurd (yes.symm.trans no) (by decide)
    | false =>
      obtain ⟨t', applied, later⟩ := goes.resolve_left (by rw [yes]; exact Bool.false_ne_true)
      obtain ⟨k, inside, other⟩ := ih t' (fun x mem => silent x (List.mem_cons_of_mem e mem)) later
      refine ⟨k + 1, by rw [List.length_cons]; lia, ?_⟩
      rw [List.take_succ_cons, fsmAfter, applied]
      rcases fsm_applyEntry applied first with ⟨no, -⟩ | ⟨-, same⟩
      · exact absurd (no.symm.trans yes) (by decide)
      · rwa [same] at other

theorem between_take {lo h j : Index} (inside : j ≤ h) :
    between t.core lo j = (between t.core lo h).take (j - lo) := by
  unfold between
  rw [List.take_take, min_eq_left (by lia)]

end

/-- A checked read misses no change that may be committed exactly if a replica gets to no `Split`
that takes effect and to no `CommitMerge` that absorbs in the region: then, wherever in it the log was
committed, the state machine is the one that is read. The other direction is for a state machine
in which every split and every merge can be seen. -/
theorem checked_read_sees_limbo {ε σ γ : Type} (M : Machine σ γ) (code : GeneratedCode) (absorbs : Index → Bool) (t : Target σ γ)
    (log : LogStore ε) (window : FailoverReadWindow) (maxBytes : Nat) (limbo : List Wire.Entry)
    (whole : contiguous t.core.boundary t.core.log = true) (low : t.core.boundary ≤ window.index)
    (truthful : ∀ lo hi cap entries, log lo hi cap = .ok (.ready entries) → ∀ e ∈ entries, e ∈ t.core.log)
    (read : readLimbo log window maxBytes = .ok (some limbo))
    (runs : applyCheckedFailover (.ok (some (t.fsm, limbo, window)) : Except ε _) (fun _ _ => some ()) = .ok (some ())) :
    let sees := ∀ j, window.index ≤ j → j ≤ window.limboUpper →
      fsmAfter M code absorbs t (between t.core window.index j) = t.fsm
    let shapeless := ¬ Reshapes M code absorbs t (between t.core window.index window.limboUpper)
    (shapeless → sees) ∧ (Telling M → (sees ↔ shapeless)) := by
  intro sees shapeless
  have empty : limbo = [] := by
    cases limbo with
    | nil => rfl
    | cons e limbo => cases runs
  have silent : ∀ e ∈ between t.core window.index window.limboUpper, e.kind ≠ .normal := fun e mem normal => by
    obtain ⟨mem, above, inside⟩ := (mem_between whole low).mp mem
    obtain ⟨lo, hi, entries, answer, follow, length, filtered⟩ := readLimbo_some read (by lia)
    obtain ⟨x, listed, same⟩ := exists_index_of_contiguous follow above (by lia)
    obtain rfl : x = e := eq_of_index whole (truthful _ _ _ _ answer x listed) mem same
    have kept : x ∈ entries.filter (·.kind = .normal) := List.mem_filter.mpr ⟨listed, decide_eq_true normal⟩
    rw [← filtered, empty] at kept
    cases kept
  have enough : shapeless → sees := fun keeps j _ upto => by
    rw [between_take upto]
    exact fsmAfter_take _ t silent keeps _
  refine ⟨enough, fun telling => ⟨fun sees goes => ?_, enough⟩⟩
  obtain ⟨k, inside, other⟩ := exists_fsmAfter_ne telling _ t silent goes
  have width : (between t.core window.index window.limboUpper).length ≤ window.limboUpper - window.index := by
    unfold between
    exact List.length_take_le _ _
  refine other ?_
  rcases Nat.eq_zero_or_pos k with rfl | pos
  · rfl
  · have same := sees (window.index + k) (Nat.le_add_right _ _) (by lia)
    rwa [between_take (h := window.limboUpper) (by lia), Nat.add_sub_cancel_left] at same

/-! ## A split in limbo -/

/-- A counter of what reaches it. -/
def counter : Machine Nat Unit where
  apply := fun _ _ n => some (n + 1)
  split := fun _ n => some (n + 1)
  absorb := fun _ n => some (n + 1)
  confChange := fun _ => some
  isValid := fun _ => true
  snapshot := fun n => List.replicate n 0
  restore := fun b => some b.length
  isValid_confChange := fun _ _ _ _ => rfl
  restore_snapshot := fun n => by rw [List.length_replicate]

theorem telling_counter : Telling counter :=
  ⟨fun _ n => ⟨n + 1, Nat.succ_ne_self n, rfl⟩, fun _ n => ⟨n + 1, Nat.succ_ne_self n, rfl⟩⟩

/-- A replica that has applied nothing, with the entries in its log. -/
def holding (log : List Wire.Entry) : Target Nat Unit where
  core := ⟨0, log, 0, 0, 0, [], fun _ => none, false, 0, none⟩
  freeze := none
  fsm := 1
  conf := ()
  readMode := .safe
  readModeMigrated := false
  pendingApply := none
  parkUnresolvable := false
  abandoned := fun _ => none
  absorbIndex := none
  crossings := []
  crossingWitnesses := []
  crossingScanUpto := 0
  crossingScanCurrent := false

/-- The generated code writes two splits as the real one does: to the first generation, and to the
fifth. -/
noncomputable def splitCode : GeneratedCode :=
  { GeneratedCode.ofCountable with
    splitPayload := .ofSamples [(⟨[1], 1, 1, []⟩, [10, 1, 1, 16, 1, 24, 1]), (⟨[1], 1, 5, []⟩, [10, 1, 1, 16, 1, 24, 5])]
      (by decide) (by decide) }

def splitEntry (parentGenAfter : UInt8) : Wire.Entry := ⟨1, 2, .split, [10, 1, 1, 16, 1, 24, parentGenAfter], 0, 0, 0⟩

/-- The first entry of a term, a split and a read mode. -/
def region (parentGenAfter : UInt8) : List Wire.Entry :=
  [⟨1, 1, .empty, [], 0, 0, 0⟩, splitEntry parentGenAfter, ⟨1, 3, .setReadMode, [1], 0, 0, 0⟩]

/-- The store answers with the whole region. -/
def store (parentGenAfter : UInt8) : LogStore Unit := fun _ _ _ => .ok (.ready (region parentGenAfter))

theorem store_truthful (g : UInt8) : ∀ lo hi cap entries, store g lo hi cap = .ok (.ready entries) → ∀ e ∈ entries, e ∈ region g := by
  rintro _ _ _ _ ⟨⟩ e mem
  exact mem

/-- A split that is stale when it is applied is not missed, one that takes effect is. -/
theorem checked_read_sees_limbo_stale :
    readLimbo (store 5) ⟨0, 3⟩ 256 = .ok (some []) ∧ readLimbo (store 1) ⟨0, 3⟩ 256 = .ok (some []) ∧
      (∀ j, 0 ≤ j → j ≤ 3 →
        fsmAfter counter splitCode (fun _ => true) (holding (region 5)) (between (holding (region 5)).core 0 j) = 1) ∧
      ¬ ∀ j, 0 ≤ j → j ≤ 3 →
        fsmAfter counter splitCode (fun _ => true) (holding (region 1)) (between (holding (region 1)).core 0 j) = 1 := by
  have keeps : ¬ Reshapes counter splitCode (fun _ => true) (holding (region 5)) (between (holding (region 5)).core 0 3) := by
    rintro (first | ⟨t₁, applied, second | ⟨t₂, applied', third | ⟨t₃, -, never⟩⟩⟩)
    · exact Bool.false_ne_true first
    · obtain rfl := Option.some.inj applied
      exact Bool.false_ne_true second
    · exact Bool.false_ne_true third
    · exact never
  have goes : Reshapes counter splitCode (fun _ => true) (holding (region 1)) (between (holding (region 1)).core 0 3) :=
    .inr ⟨_, rfl, .inl rfl⟩
  obtain ⟨enough, -⟩ := checked_read_sees_limbo counter splitCode (fun _ => true) (holding (region 5)) (store 5) ⟨0, 3⟩ 256 []
    rfl (by decide) (store_truthful 5) rfl rfl
  obtain ⟨-, both⟩ := checked_read_sees_limbo counter splitCode (fun _ => true) (holding (region 1)) (store 1) ⟨0, 3⟩ 256 []
    rfl (by decide) (store_truthful 1) rfl rfl
  exact ⟨rfl, rfl, enough keeps, fun sees => (both telling_counter).mp sees goes⟩

/-- The region holds a split that takes effect: the driver hands out an empty limbo, the checked read
runs, and the state machine changes as soon as the entry is applied. -/
theorem split_in_limbo_missed :
    let t := holding (region 1)
    readLimbo (store 1) ⟨0, 3⟩ 256 = .ok (some []) ∧
      applyCheckedFailover (.ok (some (t.fsm, [], ⟨0, 3⟩)) : Except Unit _) (fun n _ => some n) = .ok (some 1) ∧
      fsmAfter counter splitCode (fun _ => true) t (between t.core 0 2) = 2 := ⟨rfl, rfl, rfl⟩

end Sailing.Limbo
