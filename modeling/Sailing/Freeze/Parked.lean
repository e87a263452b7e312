import Sailing.Freeze.History

/-!
# A parked target

A `CommitMerge` stops the apply drain of its target until the container resolves it: it absorbs
the source, or the endpoint adopts a snapshot that covers the merge. Over the part that decides
pending freezes (`Freeze.Model`), this is what the two ways change: the state machine and the
configuration, the read mode, the freeze, the abort obligations, and the record of the crossing
walk (`endpoint/merge.rs`) that the adoption (`endpoint/snapshot.rs`) goes by. What a state
machine, a configuration change and an absorbed source compute is an argument, the same for
every replica.
-/

namespace Sailing.Freeze

open Wire (GeneratedCode ReadMode)

/-- The applied freeze: its index and term, and the target it named. -/
structure Frozen where
  freezeIndex : Index
  freezeTerm : Term
  frozenFor : Bytes
deriving DecidableEq, Repr

structure PendingMergeApply where
  sourceBytes : Bytes
  freezeIndex : Index
  freezeTerm : Term
  sourceGenAfter : Nat
  targetGenAfter : Nat
  index : Index
deriving DecidableEq, Repr

/-- What every replica computes alike; `none` is a fault. -/
structure Machine (σ γ : Type) where
  apply : Index → Bytes → σ → Option σ
  split : Bytes → σ → Option σ
  absorb : PendingMergeApply → σ → Option σ
  confChange : Bytes → γ → Option γ
  isValid : γ → Bool
  snapshot : σ → Bytes
  restore : Bytes → Option σ
  isValid_confChange : ∀ data conf conf', confChange data conf = some conf' → isValid conf' = true
  restore_snapshot : ∀ fsm, restore (snapshot fsm) = some fsm

structure Target (σ γ : Type) where
  core : State
  freeze : Option Frozen
  fsm : σ
  conf : γ
  readMode : ReadMode
  readModeMigrated : Bool
  pendingApply : Option PendingMergeApply
  parkUnresolvable : Bool
  /-- The freeze generation each source is owed a thaw for. -/
  abandoned : Bytes → Option Nat
  absorbIndex : Option Index
  /-- The sources and absorb points of the `CommitMerge` entries the walk has seen. -/
  crossings : List (Bytes × Index)
  /-- The lowest witness of each obligation the walk has seen, in log order. -/
  crossingWitnesses : List ((Bytes × Nat) × Index)
  crossingScanUpto : Index
  crossingScanCurrent : Bool

def crossingScanChunksPerCrank : Nat := 4

namespace Target

variable {σ γ : Type} (M : Machine σ γ) (code : GeneratedCode)

def fail (t : Target σ γ) (reason : PoisonReason) : Target σ γ := { t with core := t.core.fail reason }

/-! ## Obligations -/

def abandonedMatches (t : Target σ γ) (source : Bytes) (generation : Nat) : Bool :=
  t.abandoned source = some generation

def clearAbandoned (t : Target σ γ) (source : Bytes) : Target σ γ :=
  { t with abandoned := Function.update t.abandoned source none }

def noteAbandoned (t : Target σ γ) (source : Bytes) (generation : Nat) : Target σ γ :=
  { t with abandoned := Function.update t.abandoned source (some generation) }

/-! ## The drain -/

/-- The entry is behind, with nothing else to do. -/
def advance (t : Target σ γ) (e : Wire.Entry) : Target σ γ := { t with core := { t.core with applied := e.index } }

/-- The parked merge takes the source in. -/
def resolvePendingMerge (t : Target σ γ) (park : PendingMergeApply) : Option (Target σ γ) :=
  (M.absorb park t.fsm).map fun fsm =>
    { t with
      fsm := fsm
      pendingApply := none, crossings := [], crossingWitnesses := [], crossingScanUpto := 0, crossingScanCurrent := false
      core := { t.core with applied := park.index, shapeGen := max t.core.shapeGen park.targetGenAfter }
      absorbIndex := some park.index }

def applySplit (t : Target σ γ) (e : Wire.Entry) : Option (Target σ γ) :=
  match Wire.decodeSplitPayload code.splitPayload e.data with
  | .error _ => none
  | .ok p =>
    if !(generationIsWorking p.parentGenAfter && generationIsWorking p.childGen) then none
    else if some p.parentGenAfter ≠ nextLineage t.core.shapeGen then some (t.advance e)
    else
      (M.split p.instruction t.fsm).map fun fsm =>
        { t with fsm := fsm, core := { t.core with shapeGen := max t.core.shapeGen p.parentGenAfter, applied := e.index } }

def applyPrepareMerge (t : Target σ γ) (e : Wire.Entry) : Option (Target σ γ) :=
  match Wire.decodePrepareMergePayload code.prepareMergePayload e.data with
  | .error _ => none
  | .ok p =>
    if !generationIsWorking p.sourceGenAfter then none
    else
      some { t with
        core := { t.core.popAppliedFreeze e.index with
          frozen := true, shapeGen := max t.core.shapeGen p.sourceGenAfter, applied := e.index }
        freeze := some ⟨e.index, e.term, p.targetBytes⟩ }

/-- A commit that is not stale parks; the container then absorbs the source or resolves the park
as aborted, by what the log holds above it. -/
def applyCommitMerge (absorbs : Index → Bool) (t : Target σ γ) (e : Wire.Entry) : Option (Target σ γ) :=
  match Wire.decodeCommitMergePayload code.commitMergePayload e.data with
  | .error _ => none
  | .ok p =>
    if !(generationIsWorking p.sourceGenAfter && generationIsWorking p.targetGenAfter) then none
    else if some p.targetGenAfter ≠ nextLineage t.core.shapeGen then some (t.advance e)
    else if t.abandonedMatches p.sourceBytes p.sourceGenAfter then some (t.advance e)
    else if absorbs e.index then
      t.resolvePendingMerge M ⟨p.sourceBytes, p.freezeIndex, p.freezeTerm, p.sourceGenAfter, p.targetGenAfter, e.index⟩
    else some (t.advance e)

def applyRollbackMerge (t : Target σ γ) (e : Wire.Entry) : Option (Target σ γ) :=
  match Wire.decodeRollbackMergePayload code.rollbackMergePayload e.data with
  | .error _ => none
  | .ok p =>
    if !(generationIsWorking p.sourceGenAfter && generationIsWorking p.targetGenAfter) then none
    else if p.sourceBytes = [] then
      if t.core.frozen ∧ some p.sourceGenAfter = nextLineage t.core.shapeGen then
        some { t with
          core := { t.core with frozen := false, shapeGen := max t.core.shapeGen p.sourceGenAfter, applied := e.index }
          freeze := none }
      else some (t.advance e)
    else if some p.targetGenAfter = nextLineage t.core.shapeGen then
      some (({ t with core := { t.core with shapeGen := max t.core.shapeGen p.targetGenAfter, applied := e.index } } :
        Target σ γ).noteAbandoned p.sourceBytes p.sourceGenAfter)
    else some (t.advance e)

def applyThawDischarged (t : Target σ γ) (e : Wire.Entry) : Option (Target σ γ) :=
  match Wire.decodeThawDischargedPayload code.thawDischargedPayload e.data with
  | .error _ => none
  | .ok p =>
    some ((if t.abandonedMatches p.sourceBytes p.generation then t.clearAbandoned p.sourceBytes else t).advance e)

def applySetReadMode (t : Target σ γ) (e : Wire.Entry) : Option (Target σ γ) :=
  match e.data with
  | [mode] => (ReadMode.fromU8 mode.toNat).map fun mode => { t.advance e with readMode := mode, readModeMigrated := true }
  | _ => none

/-- One committed entry is applied; `none` is a poison. -/
def applyEntry (absorbs : Index → Bool) (t : Target σ γ) (e : Wire.Entry) : Option (Target σ γ) :=
  match e.kind with
  | .normal => (M.apply e.index e.data t.fsm).map fun fsm => { t.advance e with fsm := fsm }
  | .empty => some (t.advance e)
  | .split => t.applySplit M code e
  | .prepareMerge => t.applyPrepareMerge code e
  | .commitMerge => t.applyCommitMerge M code absorbs e
  | .rollbackMerge => t.applyRollbackMerge code e
  | .thawDischarged => t.applyThawDischarged code e
  | .setReadMode => t.applySetReadMode e
  | .confChange => (M.confChange e.data t.conf).map fun conf => { t.advance e with conf := conf }

def drain (absorbs : Index → Bool) : Target σ γ → List Wire.Entry → Option (Target σ γ)
  | t, [] => some t
  | t, e :: entries => (t.applyEntry M code absorbs e).bind fun t => drain absorbs t entries

/-- The committed entries of the log in `(park, boundary]`. -/
def between (s : State) (park boundary : Index) : List Wire.Entry :=
  (s.log.drop (park - s.boundary)).take (boundary - park)

/-! ## The crossing walk -/

/-- What the store answers to one read: a fault, a page that is not there yet, or entries. -/
inductive Read where
  | fault
  | cold
  | ready (more : Nat)

/-- The walk takes in one entry; `none` for a payload that does not decode. -/
def examine (t : Target σ γ) (e : Wire.Entry) : Option (Target σ γ) :=
  match e.kind with
  | .commitMerge =>
    match Wire.decodeCommitMergePayload code.commitMergePayload e.data with
    | .ok p => some { t with crossings := t.crossings ++ [(p.sourceBytes, e.index)] }
    | .error _ => none
  | .thawDischarged =>
    match Wire.decodeThawDischargedPayload code.thawDischargedPayload e.data with
    | .ok p =>
      if t.abandonedMatches p.sourceBytes p.generation ∧
          t.crossingWitnesses.all (·.1 ≠ (p.sourceBytes, p.generation)) then
        some { t with crossingWitnesses := t.crossingWitnesses ++ [((p.sourceBytes, p.generation), e.index)] }
      else some t
    | .error _ => none
  | _ => some t

/-- A chunk of entries; `false` if one of them did not decode. -/
def examineAll : Target σ γ → List Wire.Entry → Target σ γ × Bool
  | t, [] => (t, true)
  | t, e :: entries =>
    match t.examine code e with
    | some t => examineAll t entries
    | none => (t, false)

/-- The loop of `advance_crossing_scan`, with the chunks that are left to this crank. -/
def advanceFrom (read : Index → Read) : Nat → Target σ γ → Index → Target σ γ
  | chunks, t, idx =>
    let last := min t.core.lastIndex t.core.commit
    if last < idx then { t with crossingScanCurrent := true }
    else
      match chunks with
      | 0 => { t with crossingScanCurrent := false }
      | chunks + 1 =>
        match read idx with
        | .fault => { t with crossingScanCurrent := false }.fail .logRead
        | .cold => { t with crossingScanCurrent := false }
        | .ready more =>
          let width := min (more + 1) (min Endpoint.maxReadBatchEntries (last + 1 - idx))
          let entries := (t.core.log.drop (idx - t.core.boundary - 1)).take width
          match t.examineAll code entries with
          | (t, false) => { t with crossingScanCurrent := false }.fail .mergeDecode
          | (t, true) => advanceFrom read chunks { t with crossingScanUpto := idx + entries.length - 1 } (idx + entries.length)

def advanceCrossingScan (t : Target σ γ) (read : Index → Read) : Target σ γ :=
  match t.pendingApply with
  | none => t
  | some park => advanceFrom code read crossingScanChunksPerCrank t (max t.crossingScanUpto park.index + 1)

def crossingWalkCovers (t : Target σ γ) (boundary : Index) : Bool :=
  t.crossingScanCurrent && boundary ≤ max t.crossingScanUpto ((t.pendingApply.map (·.index)).getD 0)

/-- The highest absorb point at or below the boundary; the crossings are in log order. -/
def crossingAbsorbAt (t : Target σ γ) (boundary : Index) : Option Index :=
  if !t.crossingWalkCovers boundary then none
  else ((t.crossings.takeWhile (·.2 ≤ boundary)).getLast?).map (·.2)

/-! ## Captures and adoptions -/

structure Meta (γ : Type) where
  lastIndex : Index
  conf : γ
  readOnly : Option ReadMode
  shapeGen : Nat

/-- A snapshot of what is applied, unless a freeze fences it. -/
def capture (t : Target σ γ) : Option (Meta γ × Bytes) :=
  if t.core.poison.isSome ∨ t.core.captureBlockedAt t.core.applied then none
  else
    some (⟨t.core.applied, t.conf, if t.readModeMigrated then some t.readMode else none, t.core.shapeGen⟩, M.snapshot t.fsm)

/-- The witnesses of the plan at or below the boundary, applied in log order. -/
def foldWitnesses (t : Target σ γ) (boundary : Index) : Target σ γ :=
  (t.crossingWitnesses.filter (·.2 ≤ boundary)).foldl
    (fun t w => if t.abandonedMatches w.1.1 w.1.2 then t.clearAbandoned w.1.1 else t) t

def adoptParkedUnion (t : Target σ γ) (snapshot : Meta γ) (data : Bytes) : Target σ γ :=
  match t.pendingApply with
  | none => t
  | some park =>
    let boundary := snapshot.lastIndex
    if !t.crossingWalkCovers boundary then t
    else
      let absorbHigh := (t.crossingAbsorbAt boundary).getD park.index
      match M.restore data with
      | none => t.fail .elsewhere
      | some fsm =>
        if !M.isValid snapshot.conf then t.fail .elsewhere
        else if highestWorkingGeneration ≤ snapshot.shapeGen then t.fail .reservedShapeGen
        else
          let t := t.foldWitnesses boundary
          { t with
            core := t.core.adoptParkedUnion boundary snapshot.shapeGen
            freeze := none
            fsm := fsm
            conf := snapshot.conf
            readMode := snapshot.readOnly.getD t.readMode
            readModeMigrated := snapshot.readOnly.isSome || t.readModeMigrated
            pendingApply := none, parkUnresolvable := false
            crossings := [], crossingWitnesses := [], crossingScanUpto := 0, crossingScanCurrent := false
            absorbIndex := some (t.absorbIndex.elim absorbHigh (max absorbHigh)) }

/-- The receipt of a covering snapshot may adopt it. -/
def mayAdopt (t : Target σ γ) (boundary : Index) : Bool :=
  t.core.poison.isNone && t.parkUnresolvable && t.pendingApply.any (·.index ≤ boundary) && t.crossingWalkCovers boundary

def onCoveringSnapshot (t : Target σ γ) (snapshot : Meta γ) (data : Bytes) : Target σ γ :=
  if t.mayAdopt snapshot.lastIndex then t.adoptParkedUnion M snapshot data else t

/-! ## While parked -/

inductive Crank where
  | advanceCrossingScan (read : Index → Read)
  | commitTo (index : Index)
  | onAppendEntries (prev : Index) (entries : List Wire.Entry) (leaderCommit : Index)
  | noteMergeParkUnresolvable (unresolvable : Bool)
  | clearAbandoned (source : Bytes)

def crank (t : Target σ γ) : Crank → Target σ γ
  | .advanceCrossingScan read => t.advanceCrossingScan code read
  | .commitTo index => { t with core := t.core.commitTo index }
  | .onAppendEntries prev entries leaderCommit => { t with core := t.core.onAppendEntries prev entries leaderCommit }
  | .noteMergeParkUnresolvable unresolvable => { t with parkUnresolvable := unresolvable }
  | .clearAbandoned source => t.clearAbandoned source

def cranks (t : Target σ γ) (l : List Crank) : Target σ γ := l.foldl (crank code) t

end Target

end Sailing.Freeze
