import Sailing.Model.Basic
import Mathlib.Logic.Function.Basic

/-!
# The lineage of the group engine

The generations, floors and ceilings `GroupEngine` (`multi/engine/mod.rs`) keeps for its groups, and
the fence it puts up when a group is removed. They are staged until a flush and outlive the group's
storage. What a store call leaves of the storage's own ceilings is arbitrary here.
-/

namespace Sailing

variable {G : Type} [DecidableEq G]

structure LineageRecord where
  generation : Nat
  floor : Nat
  ceiling : Nat

def LineageRecord.fold (r other : LineageRecord) : LineageRecord :=
  ⟨max r.generation other.generation, max r.floor other.floor, max r.ceiling other.ceiling⟩

/-- `shape_faulted` and `shape_ceiling` of a group's log, and the generations that the visible and the
durable snapshot slot of its stable store claim; `staged` says that the store awaits a flush. -/
structure Ceilings where
  faulted : Bool
  shape : Nat
  visibleMetaGen : Nat
  durableMetaGen : Nat
  staged : Bool
deriving DecidableEq

namespace Ceilings

def new : Ceilings := ⟨false, 0, 0, 0, false⟩

def metaCeiling (c : Ceilings) : Nat := max c.visibleMetaGen c.durableMetaGen

def releaseStaged (c : Ceilings) : Ceilings :=
  if c.staged then { c with durableMetaGen := c.visibleMetaGen, staged := false } else c

end Ceilings

structure GroupEngine (G : Type) where
  groups : G → Option Ceilings
  lineage : G → LineageRecord
  lineageStaged : G → LineageRecord
  bootEpochs : G → Nat

inductive EngineCall (G : Type) where
  | addGroup (g : G)
  | removeGroup (g : G)
  | store (g : G) (left : Ceilings)
  | setGroupGen (g : G) (generation : Nat)
  | setGroupFloor (g : G) (floor : Nat)
  | nextBootEpoch (g : G)
  | flush
deriving DecidableEq

namespace GroupEngine

def new : GroupEngine G := ⟨fun _ => none, fun _ => ⟨0, 0, 0⟩, fun _ => ⟨0, 0, 0⟩, fun _ => 0⟩

def stage (e : GroupEngine G) (g : G) (r : LineageRecord) : GroupEngine G :=
  { e with lineageStaged := Function.update e.lineageStaged g ((e.lineageStaged g).fold r) }

def setGroup (e : GroupEngine G) (g : G) (c : Option Ceilings) : GroupEngine G :=
  { e with groups := Function.update e.groups g c }

/-- The new state, and the boot epoch that is given out. -/
def exec (e : GroupEngine G) : EngineCall G → Option Nat × GroupEngine G
  | .addGroup g => (none, if (e.groups g).isSome then e else e.setGroup g (some .new))
  | .removeGroup g =>
    match e.groups g with
    | none => (none, e)
    | some c => (none, (e.setGroup g none).stage g ⟨0, 0, max c.shape c.metaCeiling⟩)
  | .store g left => (none, if (e.groups g).isSome then e.setGroup g (some left) else e)
  | .setGroupGen g generation => (none, e.stage g ⟨generation, 0, 0⟩)
  | .setGroupFloor g floor => (none, e.stage g ⟨0, floor, 0⟩)
  | .nextBootEpoch g =>
    if (e.groups g).isSome ∧ e.bootEpochs g < u64Max then
      (some (e.bootEpochs g + 1), { e with bootEpochs := Function.update e.bootEpochs g (e.bootEpochs g + 1) })
    else (none, e)
  | .flush =>
    (none, { e with
      groups := fun g => (e.groups g).map Ceilings.releaseStaged
      lineage := fun g => (e.lineage g).fold (e.lineageStaged g)
      lineageStaged := fun _ => ⟨0, 0, 0⟩ })

def groupGen (e : GroupEngine G) (g : G) : Nat := max (e.lineage g).generation (e.lineageStaged g).generation

/-- The first generation above a ceiling. -/
def above (ceiling : Nat) : Nat := if ceiling = 0 then 0 else min (min (ceiling + 1) u64Max) highestWorkingGeneration

/-- What the records alone fence. -/
def recorded (e : GroupEngine G) (g : G) : Nat :=
  max (e.groupGen g) (max (e.lineage g).ceiling (e.lineageStaged g).ceiling)

def removalFloor (e : GroupEngine G) (g : G) : Nat :=
  match e.groups g with
  | none => above (e.recorded g)
  | some c =>
    if c.faulted then highestWorkingGeneration else above (max (max (e.recorded g) c.shape) c.metaCeiling)

/-- The boot epochs that calls give out for a group. -/
def epochs (g : G) (e : GroupEngine G) : List (EngineCall G) → List Nat
  | [] => []
  | c :: calls => (if c = .nextBootEpoch g then (e.exec c).1.toList else []) ++ epochs g (e.exec c).2 calls

def run (e : GroupEngine G) (calls : List (EngineCall G)) : GroupEngine G := calls.foldl (fun e c => (e.exec c).2) e

variable {e : GroupEngine G} {g : G}

theorem above_mono {a b : Nat} (h : a ≤ b) : above a ≤ above b := by
  unfold above
  split <;> split <;> lia

omit [DecidableEq G] in
theorem above_recorded_le : above (e.recorded g) ≤ e.removalFloor g := by
  unfold removalFloor
  split
  · exact le_rfl
  split
  · unfold above
    split <;> simp
  · exact above_mono (by lia)

theorem recorded_stage (g' : G) (r : LineageRecord) : e.recorded g ≤ (e.stage g' r).recorded g := by
  unfold recorded groupGen stage
  by_cases same : g = g'
  · subst same
    simp only [Function.update_self, LineageRecord.fold]
    lia
  · simp only [Function.update_of_ne same, le_refl]

theorem recorded_exec (c : EngineCall G) : e.recorded g ≤ (e.exec c).2.recorded g := by
  cases c with
  | addGroup g' | store g' left =>
    simp only [exec]
    split <;> exact le_rfl
  | removeGroup g' =>
    simp only [exec]
    split
    · exact le_rfl
    · exact recorded_stage (e := e.setGroup g' none) g' _
  | setGroupGen g' n | setGroupFloor g' n => exact recorded_stage g' _
  | nextBootEpoch g' =>
    simp only [exec]
    split <;> exact le_rfl
  | flush =>
    simp only [exec, recorded, groupGen, LineageRecord.fold]
    lia

theorem recorded_run (calls : List (EngineCall G)) : e.recorded g ≤ (e.run calls).recorded g := by
  induction calls generalizing e with
  | nil => exact le_rfl
  | cons c calls ih => exact (recorded_exec c).trans ih

/-- **A fence stays up.** What fences a group when it is removed fences it from then on, whatever is
flushed, added again, stored or removed. -/
theorem fence_kept (e : GroupEngine G) (g : G) (c : Ceilings) (hosted : e.groups g = some c) (sound : c.faulted = false)
    (calls : List (EngineCall G)) :
    e.removalFloor g ≤ (e.run (.removeGroup g :: calls)).removalFloor g := by
  have removed : max (max (e.recorded g) c.shape) c.metaCeiling ≤ (e.exec (.removeGroup g)).2.recorded g := by
    simp only [exec, hosted, recorded, groupGen, stage, setGroup, Function.update_self, LineageRecord.fold]
    lia
  have before : e.removalFloor g = above (max (max (e.recorded g) c.shape) c.metaCeiling) := by
    simp only [removalFloor, hosted, sound, Bool.false_eq_true, if_false]
  rw [before]
  exact (above_mono (removed.trans (recorded_run calls))).trans above_recorded_le

/-- A generation is set, and the group is removed and added again. -/
theorem fence_kept_generation : 8 ≤ ((new : GroupEngine Nat).run [.addGroup 0, .setGroupGen 0 7, .removeGroup 0, .flush,
    .addGroup 0]).removalFloor 0 := by
  have fence := fence_kept (new.run [.addGroup 0, .setGroupGen 0 7]) 0 .new rfl rfl [.flush, .addGroup 0]
  rwa [show (new.run [.addGroup 0, .setGroupGen 0 7]).removalFloor 0 = 8 by decide] at fence

theorem bootEpochs_exec (c : EngineCall G) : e.bootEpochs g ≤ (e.exec c).2.bootEpochs g ∧
    (c = .nextBootEpoch g → ∀ n ∈ (e.exec c).1, e.bootEpochs g < n ∧ (e.exec c).2.bootEpochs g = n) := by
  cases c with
  | nextBootEpoch g' =>
    simp only [exec]
    split
    · by_cases same : g = g'
      · subst same
        simp
      · simp [Function.update_of_ne same, Ne.symm same]
    · simp
  | removeGroup g' =>
    simp only [exec]
    split <;> simp [stage, setGroup]
  | addGroup | store =>
    simp only [exec]
    split <;> simp [setGroup]
  | _ => simp [exec, stage]

/-- **Boot epochs never repeat.** Those given out for a group increase along any run, over removals
of the group as well. -/
theorem epochs_increase (e : GroupEngine G) (g : G) (calls : List (EngineCall G)) :
    (epochs g e calls).Pairwise (· < ·) ∧ ∀ n ∈ epochs g e calls, e.bootEpochs g < n := by
  induction calls generalizing e with
  | nil => simp [epochs]
  | cons c calls ih =>
    obtain ⟨up, given⟩ := bootEpochs_exec (e := e) (g := g) c
    obtain ⟨order, above⟩ := ih (e.exec c).2
    have later : ∀ n ∈ epochs g (e.exec c).2 calls, e.bootEpochs g < n := fun n hn => up.trans_lt (above n hn)
    unfold epochs
    split
    · next asked =>
      cases answer : (e.exec c).1 with
      | none => exact ⟨order, later⟩
      | some n =>
        obtain ⟨higher, now⟩ := given asked n answer
        rw [now] at above
        exact ⟨List.pairwise_cons.mpr ⟨above, order⟩, List.forall_mem_cons.mpr ⟨higher, later⟩⟩
    · exact ⟨order, later⟩

end GroupEngine

end Sailing
