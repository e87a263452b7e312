import Sailing.Model.Node

/-!
# Resolving a merge from outside

What the service over the groups does to an endpoint between its calls: it raises the
commit index of a source to the freeze boundary on the identity of the log, and it
resolves a parked merge commit, or finds that it cannot, so that the next snapshot that
covers the park is taken for it.
-/

namespace Sailing

variable {I : Type} [LinearOrder I] {M : StateMachine}

namespace Endpoint

/-- Commit and apply reach the boundary if the log holds the frozen entry there. -/
def advanceCommitOnFreezeIdentity (s : Endpoint I M) (boundary : Index) (freezeTerm : Term) :
    Bool × Endpoint I M :=
  if s.poisoned ∨ freezeTerm = 0 then (false, s)
  else if s.log.lastIndex < boundary then (false, s)
  else
    match s.logTerm boundary with
    | (none, s) => (false, s)
    | (some t, s) => if t ≠ freezeTerm then (false, s) else (true, s.commitTo boundary)

/-- The parked entry counts as applied, with `fsm` what the machine made of the absorbed
one; it may refuse. -/
def resolvePendingMerge (s : Endpoint I M) (fsm : Option M.State) : Endpoint I M :=
  match s.pendingApply with
  | none => s
  | some k =>
    match fsm with
    | none => { s with pendingApply := none }.poison .mergeUnsupported
    | some fsm => { s with pendingApply := none, fsm := fsm, applied := k }

/-- The parked entry is passed without touching the machine. -/
def resolvePendingMergeAborted (s : Endpoint I M) : Endpoint I M :=
  match s.pendingApply with
  | none => s
  | some k => { s with pendingApply := none, applied := k }

end Endpoint

/-- A call of the driver, or of the service over the groups. -/
inductive Move (I : Type) (M : StateMachine) where
  | call (c : Call I M)
  | freeze (boundary : Index) (freezeTerm : Term)
  | resolve (fsm : Option M.State)
  | resolveAborted
  /-- A snapshot comes in while the park is classified as one no local fold resolves, and the
  walk over the committed entries above it has come to `walked`. -/
  | adopt (now : Instant) (sender : I) (is : InstallSnapshot I) (walked : Index)

namespace Endpoint

def move (s : Endpoint I M) : Move I M → Endpoint I M
  | .call c => s.exec c
  | .freeze boundary freezeTerm => (s.advanceCommitOnFreezeIdentity boundary freezeTerm).2
  | .resolve fsm => s.resolvePendingMerge fsm
  | .resolveAborted => s.resolvePendingMergeAborted
  | .adopt now sender is walked => s.handleMessage now sender (.installSnapshot is) (some walked)

def moves (s : Endpoint I M) (ms : List (Move I M)) : Endpoint I M := ms.foldl move s

end Endpoint

/-- The move ends the incarnation. -/
def Move.crashes : Move I M → Bool
  | .call (.crash ..) => true
  | _ => false

end Sailing
