import Sailing.Model.Basic
import Mathlib.Data.List.Sort

/-!
# A host of many groups

`validate_new_group`, `restore_group_unchecked` and `service_merge_applies` of
`multi/mod.rs`, over what a replica keeps of splits and merges: the entries that move
its lineage, the park on a `CommitMerge`, and the debts and pins of what it absorbed
(`endpoint/mod.rs`, `endpoint/merge.rs`). What the parts of a replica that are not
here decide, such as its fences and its state machine, comes with a crank as a `Fate`.
-/

namespace Sailing.Multi

class GroupId (G : Type) extends LinearOrder G where
  encode : G → Bytes
  decode : Bytes → Option G
  decode_encode : ∀ g, decode (encode g) = some g

def maxGroupIdLen : Nat := 1024

/-! ## Replicas -/

structure CommitMerge where
  source : Bytes
  freezeIndex : Index
  freezeTerm : Term
  sourceGenAfter : Nat
  targetGenAfter : Nat
deriving DecidableEq, Repr

structure RollbackMerge where
  unfreeze : Bool
  source : Bytes
  sourceGenAfter : Nat
  targetGenAfter : Nat
deriving DecidableEq, Repr

/-- `other` is an entry that moves no lineage. -/
inductive ShapeKind where
  | other
  | split (parentGenAfter childGen : Nat)
  | prepareMerge (target : Bytes) (sourceGenAfter : Nat)
  | commitMerge (p : CommitMerge)
  | rollbackMerge (p : RollbackMerge)
  | thawDischarged (source : Bytes) (generation : Nat)
deriving DecidableEq, Repr

/-- The entries above `base`, with their terms. -/
structure ShapeLog where
  base : Index
  entries : List (Term × ShapeKind)

namespace ShapeLog

def lastIndex (l : ShapeLog) : Index := l.base + l.entries.length

def get (l : ShapeLog) (i : Index) : Option (Term × ShapeKind) :=
  if l.base < i then l.entries[i - l.base - 1]? else none

end ShapeLog

/-- `PendingMergeApply`. -/
structure Park extends CommitMerge where
  index : Index
  windowClosed : Bool
deriving DecidableEq, Repr

/-- What a restart finds: the log, the generation in the snapshot and the one the
group was founded with, the commit of the hard state. `unusable` says that the
restart is refused for another reason, `faulty` which entries cannot be applied. -/
structure Store where
  log : ShapeLog
  shapeGen : Nat
  foundingGen : Nat
  commit : Index
  unusable : Bool
  faulty : Index → Bool

structure Replica where
  log : ShapeLog
  commit : Index
  applied : Index
  shapeGen : Nat
  /-- The index and the term of the freeze, and the target it is for. -/
  frozen : Option (Index × Term × Bytes)
  abandoned : List (Bytes × Nat)
  park : Option Park
  captureDebt : Option Bytes
  inheritedDebts : List Bytes
  recoveryPins : List Bytes
  poisoned : Bool
  cold : Index → Bool
  faulty : Index → Bool

inductive MergeWindow where
  | undecided
  | stall
  | abort
  | closed
deriving DecidableEq, Repr

namespace Replica

def poison (r : Replica) : Replica := { r with poisoned := true }

def abandonedMatches (r : Replica) (source : Bytes) (generation : Nat) : Bool :=
  (r.abandoned.find? (·.1 = source)).any (·.2 = generation)

/-- The arms of `apply_committed` for the entries that move the lineage. -/
def applyEntry (r : Replica) (i : Index) (term : Term) (kind : ShapeKind) : Replica :=
  let done := { r with applied := i }
  match kind with
  | .other => done
  | .split parentGenAfter childGen =>
    if !(generationIsWorking parentGenAfter && generationIsWorking childGen) then r.poison
    else if nextLineage r.shapeGen ≠ some parentGenAfter then done
    else { done with shapeGen := max r.shapeGen parentGenAfter }
  | .prepareMerge target sourceGenAfter =>
    if !generationIsWorking sourceGenAfter then r.poison
    else { done with frozen := some (i, term, target), shapeGen := max r.shapeGen sourceGenAfter }
  | .commitMerge p =>
    if !(generationIsWorking p.sourceGenAfter && generationIsWorking p.targetGenAfter) then r.poison
    else if nextLineage r.shapeGen ≠ some p.targetGenAfter then done
    else if r.abandonedMatches p.source p.sourceGenAfter then done
    else { r with park := some { p with index := i, windowClosed := false } }
  | .rollbackMerge p =>
    if !(generationIsWorking p.sourceGenAfter && generationIsWorking p.targetGenAfter) then r.poison
    else if p.unfreeze then
      if r.frozen.isSome ∧ nextLineage r.shapeGen = some p.sourceGenAfter then
        { done with frozen := none, shapeGen := max r.shapeGen p.sourceGenAfter }
      else done
    else if nextLineage r.shapeGen = some p.targetGenAfter then
      { done with
        shapeGen := max r.shapeGen p.targetGenAfter
        abandoned := (p.source, p.sourceGenAfter) :: r.abandoned.filter (·.1 ≠ p.source) }
    else done
  | .thawDischarged source generation =>
    if r.abandonedMatches source generation then
      { done with abandoned := r.abandoned.filter (·.1 ≠ source) }
    else done

/-- Applies what is committed, up to a park. -/
def drain : Nat → Replica → Replica
  | 0, r => r
  | fuel + 1, r =>
    if r.poisoned || r.park.isSome || decide (r.commit ≤ r.applied) || r.cold (r.applied + 1) then r
    else
      match r.log.get (r.applied + 1) with
      | none => r
      | some (term, kind) =>
        if r.faulty (r.applied + 1) then r.poison
        else drain fuel (r.applyEntry (r.applied + 1) term kind)

def applyCommitted (r : Replica) : Replica := drain (r.commit - r.applied) r

/-- `Endpoint::restart`: nothing of a merge is kept but what the replay finds. -/
def restart (store : Store) : Replica :=
  let r : Replica :=
    { log := store.log
      commit := max (min store.commit store.log.lastIndex) store.log.base
      applied := store.log.base
      shapeGen := if store.unusable then 0 else max store.shapeGen store.foundingGen
      frozen := none, abandoned := [], park := none, captureDebt := none, inheritedDebts := []
      recoveryPins := [], poisoned := store.unusable, cold := fun _ => false, faulty := store.faulty }
  r.applyCommitted

def mergeAbortWindow (r : Replica) : MergeWindow :=
  match r.park with
  | none => .stall
  | some p =>
    if r.commit < p.index + 1 then .undecided
    else if r.cold (p.index + 1) then .stall
    else
      match r.log.get (p.index + 1) with
      | none => .stall
      | some (_, .rollbackMerge q) =>
        if !q.unfreeze && q.source = p.source && q.sourceGenAfter = p.sourceGenAfter then .abort
        else .closed
      | some _ => .closed

def latchMergeWindowClosed (r : Replica) : Replica :=
  { r with park := r.park.map fun p => { p with windowClosed := true } }

def debts (r : Replica) : List Bytes := r.captureDebt.toList ++ r.inheritedDebts

def debtNamesSource (r : Replica) (key : Bytes) : Bool :=
  r.debts.any (· = key) || r.recoveryPins.any (· = key)

def resolvePendingMergeAborted (r : Replica) : Replica :=
  match r.park with
  | none => r
  | some p => { r with park := none, applied := p.index }

/-- The state machine takes the source's, or refuses it. -/
def resolvePendingMerge (r : Replica) (absorbs : Bool) : Replica :=
  match r.park with
  | none => r
  | some p =>
    if absorbs then
      { r with park := none, applied := p.index, shapeGen := max r.shapeGen p.targetGenAfter }
    else { r with park := none, poisoned := true }

def pinFailedCapture (r : Replica) (keys : List Bytes) : Replica :=
  { r with recoveryPins := r.recoveryPins ++ keys }

def advanceCommitOnFreezeIdentity (r : Replica) (boundary : Index) (freezeTerm : Term) : Replica :=
  if r.poisoned || freezeTerm = 0 || decide (r.log.lastIndex < boundary) then r
  else if (r.log.get boundary).map (·.1) ≠ some freezeTerm then r
  else { r with commit := max r.commit boundary }.applyCommitted

end Replica

/-! ## The container -/

inductive CreateGroupError where
  | exists_
  | invalidGroupId
  | nodeIdMismatch
  | absorbPending
deriving DecidableEq, Repr

inductive DebtFate where
  | kept
  | discharged
  | failed
deriving DecidableEq, Repr

/-- What else decides a crank for a group: whether its stores are there, whether a
fence or an obligation holds its park or defers the capture, whether the state
machine absorbs and the capture is staged, what becomes of its debt, whether the
scan of a park without its source fails, and whether the group is dissolved. -/
structure Fate where
  stored : Bool
  held : Bool
  defer : Bool
  absorbs : Bool
  staged : Bool
  debt : DebtFate
  corrupt : Bool
  dissolved : Bool

structure Host (G I : Type) where
  groups : List (G × Replica)
  hostId : Option I

inductive HostCall (G I : Type) where
  | restore (gid : G) (id : I) (store : Store)
  | storage (gid : G) (commit : Index) (cold : Index → Bool)
  | service (floor : G → Nat) (fate : G → Fate)

variable {G I : Type} [GroupId G] [DecidableEq I]

namespace Host

open GroupId

def new : Host G I := ⟨[], none⟩

def get (h : Host G I) (gid : G) : Option Replica := (h.groups.find? (·.1 = gid)).map (·.2)

def modify (h : Host G I) (gid : G) (f : Replica → Replica) : Host G I :=
  { h with groups := h.groups.map fun x => if x.1 = gid then (x.1, f x.2) else x }

def remove (h : Host G I) (gid : G) : Host G I := { h with groups := h.groups.filter (·.1 ≠ gid) }

def validateNewGroup (h : Host G I) (gid : G) (id : I) : Except CreateGroupError Unit :=
  if h.groups.any (·.1 = gid) then .error .exists_
  else if encode gid = [] ∨ maxGroupIdLen < (encode gid).length then .error .invalidGroupId
  else if h.hostId.any (· ≠ id) then .error .nodeIdMismatch
  else if h.groups.any (·.2.debtNamesSource (encode gid)) then .error .absorbPending
  else if h.groups.any (·.2.park.any fun p => p.windowClosed && p.source = encode gid) then
    .error .absorbPending
  else .ok ()

def restoreGroupUnchecked (h : Host G I) (gid : G) (id : I) (store : Store) :
    Except CreateGroupError Unit × Host G I :=
  match h.validateNewGroup gid id with
  | .error e => (.error e, h)
  | .ok () => (.ok (), {
      groups := h.groups.orderedInsert (·.1 ≤ ·.1) (gid, .restart store)
      hostId := some (h.hostId.getD id) })

/-- `Verdict::Resolve`. -/
def absorb (h : Host G I) (tgid source : G) (p : Park) (t s : Replica) (fate : Fate) : Host G I :=
  if fate.held || t.captureDebt.isSome || t.frozen.isSome then h
  else if s.debts.any fun key => (decode (G := G) key).isNone then h.modify source Replica.poison
  else
    let h := h.remove source
    let pins := encode source :: s.debts
    if !fate.absorbs || t.poisoned then
      h.modify tgid fun t => (t.resolvePendingMerge fate.absorbs).pinFailedCapture pins
    else if fate.defer then
      h.modify tgid fun t => { t.resolvePendingMerge true with
        captureDebt := some p.source, inheritedDebts := t.inheritedDebts ++ s.debts }
    else if fate.staged then h.modify tgid (·.resolvePendingMerge true)
    else h.modify tgid fun t => ((t.resolvePendingMerge true).poison).pinFailedCapture pins

/-- One parked target of a crank. -/
def serviceOne (floor : G → Nat) (fate : G → Fate) (h : Host G I) (tgid : G) : Host G I :=
  match h.get tgid with
  | none => h
  | some t =>
    match t.park with
    | none => h
    | some p =>
      match decode (G := G) p.source with
      | none => h.modify tgid Replica.poison
      | some source =>
        if !(fate tgid).stored then h
        else
          match t.mergeAbortWindow with
          | .abort => h.modify tgid Replica.resolvePendingMergeAborted
          | .undecided | .stall => h
          | .closed =>
            -- the verdict is latched before the source is looked for
            let h := h.modify tgid Replica.latchMergeWindowClosed
            match h.get source with
            | none =>
              if floor source = mergedFloor then h.modify tgid Replica.resolvePendingMergeAborted
              else if (fate tgid).corrupt then h.modify tgid Replica.poison
              else h
            | some s =>
              if s.shapeGen = p.sourceGenAfter then
                if s.frozen.map (·.2.2) ≠ some (encode tgid) then
                  h.modify tgid Replica.resolvePendingMergeAborted
                else h.absorb tgid source p t s (fate tgid)
              else h.modify source (·.advanceCommitOnFreezeIdentity p.freezeIndex p.freezeTerm)

def settleDebt (fate : Fate) (r : Replica) : Replica :=
  if r.captureDebt.isNone then r
  else
    match fate.debt with
    | .kept => r
    | .discharged => { r with captureDebt := none, inheritedDebts := [] }
    | .failed => r.poison

def parked (h : Host G I) : List G := (h.groups.filter (·.2.park.isSome)).map (·.1)

def serviceMergeApplies (h : Host G I) (floor : G → Nat) (fate : G → Fate) : Host G I :=
  let h := h.parked.foldl (serviceOne floor fate) h
  { h with groups := (h.groups.map fun x => (x.1, settleDebt (fate x.1) x.2)).filter fun x =>
      !(fate x.1).dissolved }

/-- The completions of a group's stores may have moved its commit. -/
def handleStorage (h : Host G I) (gid : G) (commit : Index) (cold : Index → Bool) : Host G I :=
  h.modify gid fun r =>
    { r with commit := max r.commit (min commit r.log.lastIndex), cold := cold }.applyCommitted

def exec (h : Host G I) : HostCall G I → Except CreateGroupError Unit × Host G I
  | .restore gid id store => h.restoreGroupUnchecked gid id store
  | .storage gid commit cold => (.ok (), h.handleStorage gid commit cold)
  | .service floor fate => (.ok (), h.serviceMergeApplies floor fate)

/-- The refusals of a run. -/
def refusals (h : Host G I) : List (HostCall G I) → List CreateGroupError
  | [] => []
  | c :: cs =>
    match h.exec c with
    | (.error e, h) => e :: h.refusals cs
    | (.ok (), h) => h.refusals cs

end Host

end Sailing.Multi
