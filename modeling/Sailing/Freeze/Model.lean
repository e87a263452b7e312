import Sailing.Wire.Codec
import Mathlib.Data.List.DropRight

/-!
# Pending freezes

The part of an endpoint that decides its pending freezes: the visible log, how far it is
committed and applied, the queue of `PrepareMerge` entries that are not applied
(`endpoint/merge.rs`), and the verdicts cached for them. Each transition is what one of the
endpoint's calls does to this part, in the order of the source: the leader's own append, a
follower's accept with its conflict truncation, the apply of one committed entry, a snapshot
capture and install, a parked-union adoption, a compaction and a restart. What an apply arm does elsewhere
(the generation it leaves, or a poison) is an argument.
-/

namespace Sailing.Freeze

open Wire (GeneratedCode)

inductive PoisonReason where
  | logRead
  | mergeDecode
  | reservedShapeGen
  | nonContiguousAppend
  | committedTruncation
  | elsewhere
deriving DecidableEq, Repr

/-- What a read of a queued freeze yields, judged at the commit it was read under. -/
inductive ClaimRead where
  | claim (target : Bytes)
  | refusedCommitted
  | refusedAbove (judgedAt : Index)
deriving DecidableEq, Repr

/-- The entries follow `prev` without a gap. -/
def contiguous : Index → List Wire.Entry → Bool
  | _, [] => true
  | prev, e :: entries => e.index = prev + 1 ∧ contiguous (prev + 1) entries

/-- What a restart finds in the stores: it applies from the snapshot's last index on. -/
structure Kept where
  boundary : Index
  log : List Wire.Entry
  commit : Index
  applied : Index
  shapeGen : Nat
  whole : contiguous boundary log = true
  above : boundary ≤ applied
  within : applied ≤ boundary + log.length
  committed : applied ≤ commit

structure State where
  /-- The last index that is compacted away. -/
  boundary : Index
  log : List Wire.Entry
  commit : Index
  applied : Index
  /-- The last index of the newest snapshot, durable or staged. -/
  captured : Index
  freezeQueue : List Index
  claimCache : Index → Option ClaimRead
  frozen : Bool
  shapeGen : Nat
  poison : Option PoisonReason

/-! ## Generations -/

inductive ShapeFault where
  | decode
  | reservedGeneration
deriving DecidableEq, Repr

inductive ShapeMove where
  | notShape
  | valid (generation : Nat)
  | invalid (fault : ShapeFault)
deriving DecidableEq, Repr

section

variable (code : GeneratedCode)

/-- The verdict on a payload that names these generations. -/
def judged (own : Nat) (named : List Nat) : ShapeMove :=
  if named.all generationIsWorking then .valid own else .invalid .reservedGeneration

def shapeEntryMove (entry : Wire.Entry) : ShapeMove :=
  match entry.kind with
  | .split =>
    match Wire.decodeSplitPayload code.splitPayload entry.data with
    | .ok p => judged p.parentGenAfter [p.parentGenAfter, p.childGen]
    | .error _ => .invalid .decode
  | .prepareMerge =>
    match Wire.decodePrepareMergePayload code.prepareMergePayload entry.data with
    | .ok p => judged p.sourceGenAfter [p.sourceGenAfter]
    | .error _ => .invalid .decode
  | .commitMerge =>
    match Wire.decodeCommitMergePayload code.commitMergePayload entry.data with
    | .ok p => judged p.targetGenAfter [p.sourceGenAfter, p.targetGenAfter]
    | .error _ => .invalid .decode
  | .rollbackMerge =>
    match Wire.decodeRollbackMergePayload code.rollbackMergePayload entry.data with
    | .ok p =>
      let own := if p.sourceBytes = [] then p.sourceGenAfter else p.targetGenAfter
      judged own [p.sourceGenAfter, p.targetGenAfter]
    | .error _ => .invalid .decode
  | _ => .notShape

end

namespace State

def lastIndex (s : State) : Index := s.boundary + s.log.length

/-- The entry of the visible log at an index. -/
def entryAt (s : State) (idx : Index) : Option Wire.Entry :=
  if s.boundary < idx then s.log[idx - s.boundary - 1]? else none

def fail (s : State) (reason : PoisonReason) : State := { s with poison := s.poison.or (some reason) }

/-! ## The queue -/

def freezePending (s : State) : Option Index := s.freezeQueue.head?

def mergeFreezeActive (s : State) : Bool := !s.freezeQueue.isEmpty || s.frozen

def popAppliedFreeze (s : State) (index : Index) : State :=
  { s with
    freezeQueue := s.freezeQueue.dropWhile (· ≤ index)
    claimCache := fun i => if i ∈ s.freezeQueue.takeWhile (· ≤ index) then none else s.claimCache i }

def clearFreezeQueue (s : State) : State := { s with freezeQueue := [], claimCache := fun _ => none }

def noteFreezeAppended (s : State) (index : Index) : State :=
  { s with
    freezeQueue := if s.freezeQueue.getLast?.all (· < index) then s.freezeQueue ++ [index] else s.freezeQueue
    claimCache := fun i => if i = index then none else s.claimCache i }

def noteFreezeTruncated (s : State) (truncateFrom : Index) : State :=
  { s with
    freezeQueue := s.freezeQueue.rdropWhile (truncateFrom ≤ ·)
    claimCache := fun i => if i < truncateFrom then s.claimCache i else none }

def noteFreezeRebaselined (s : State) : State := { s with freezeQueue := [], claimCache := fun _ => none }

/-- The walk of the unapplied suffix: `chunk` is how many entries the store hands out from an
index on, `none` for a read that faults. -/
def scanFreezePendingFrom (s : State) (chunk : Index → Option Nat) : Nat → Index → List Index → Except PoisonReason (List Index)
  | 0, _, queue => .ok queue
  | fuel + 1, idx, queue =>
    if s.lastIndex < idx then .ok queue
    else
      match chunk idx with
      | none => .error .logRead
      | some n =>
        let entries := (s.log.drop (idx - s.boundary - 1)).take (min (n + 1) Endpoint.maxReadBatchEntries)
        scanFreezePendingFrom s chunk fuel (idx + entries.length)
          (queue ++ (entries.filter (·.kind = .prepareMerge)).map (·.index))

def scanFreezePending (s : State) (chunk : Index → Option Nat) : Except PoisonReason (List Index) :=
  s.scanFreezePendingFrom chunk s.log.length (s.applied + 1) []

/-! ## The claim scan -/

section

variable (code : GeneratedCode)

/-- One read of the queued entry at `idx`. -/
def readClaim (s : State) (readable : Index → Bool) (idx commit : Index) : Except PoisonReason ClaimRead :=
  if !readable idx then .error .logRead
  else
    match s.entryAt idx with
    | none => .error .logRead
    | some e =>
      if e.index = idx ∧ e.kind = .prepareMerge then
        match shapeEntryMove code e with
        | .valid _ =>
          match Wire.decodePrepareMergePayload code.prepareMergePayload e.data with
          | .ok payload => .ok (.claim payload.targetBytes)
          | .error _ => .error .logRead
        | _ => if idx ≤ commit then .ok .refusedCommitted else .ok (.refusedAbove commit)
      else .error .logRead

/-- The verdict the cache still answers for. -/
def cachedClaim (s : State) (idx : Index) : Option ClaimRead :=
  match s.claimCache idx with
  | some (.refusedAbove judgedAt) => if idx ≤ s.commit then none else some (.refusedAbove judgedAt)
  | cached => cached

/-- The verdict on a queued entry, from the cache or read and cached. -/
def claimVerdict (s : State) (readable : Index → Bool) (idx : Index) : Except PoisonReason (ClaimRead × State) :=
  match s.cachedClaim idx with
  | some verdict => .ok (verdict, s)
  | none =>
    match s.readClaim code readable idx s.commit with
    | .error e => .error e
    | .ok verdict => .ok (verdict, { s with claimCache := fun i => if i = idx then some verdict else s.claimCache i })

/-- The loop of `scan_freeze_claims`. -/
def scanLoop (readable : Index → Bool) : State → List Bytes → List Index → Except PoisonReason (List Bytes) × State
  | s, claims, [] => (.ok claims, s)
  | s, claims, idx :: queued =>
    match s.claimVerdict code readable idx with
    | .error e => (.error e, s)
    | .ok (.claim target, s) => scanLoop readable s (claims ++ [target]) queued
    | .ok (.refusedCommitted, s) => (.ok claims, s)
    | .ok (.refusedAbove _, s) => (.error .mergeDecode, s)

def scanFreezeClaims (s : State) (readable : Index → Bool) : Except PoisonReason (List Bytes) × State :=
  scanLoop code readable s [] s.freezeQueue

/-! ## Transitions -/

/-- The entries go to the end of the log, over what it held there. -/
def submitAppend (s : State) (entries : List Wire.Entry) : State :=
  match entries with
  | [] => s
  | e :: _ => { s with log := s.log.take (e.index - s.boundary - 1) ++ entries }

/-- The freezes among appended entries join the queue. -/
def noteAppended (s : State) (entries : List Wire.Entry) : State :=
  entries.foldl (fun s e => if e.kind = .prepareMerge then s.noteFreezeAppended e.index else s) s

/-- The leader appends one entry of any kind. -/
def propose (s : State) (entry : Index → Wire.Entry) : State :=
  if s.poison.isSome then s
  else
    let e := { entry (s.lastIndex + 1) with index := s.lastIndex + 1 }
    (s.submitAppend [e]).noteAppended [e]

/-- The entry is there already. -/
def matchesExisting (s : State) (e : Wire.Entry) : Bool :=
  e.index < s.boundary + 1 ∨ (e.index ≤ s.lastIndex ∧ (s.entryAt e.index).map (·.term) = some e.term)

/-- An `AppendEntries` whose previous entry is in the log, up to its commit. -/
def onAppendEntries (s : State) (prev : Index) (entries : List Wire.Entry) (leaderCommit : Index) : State :=
  if s.poison.isSome ∨ s.lastIndex < prev then s
  else if !contiguous prev entries then s.fail .nonContiguousAppend
  else
    let lastNew := prev + entries.length
    match entries.dropWhile s.matchesExisting with
    | [] => { s with commit := max s.commit (min leaderCommit lastNew) }
    | e :: suffix =>
      if e.index ≤ s.commit then s.fail .committedTruncation
      else
        let s := s.noteFreezeTruncated e.index
        let s := s.submitAppend (e :: suffix)
        let s := s.noteAppended (e :: suffix)
        { s with commit := max s.commit (min leaderCommit lastNew) }

/-- The commit index rises otherwise: by a quorum, a heartbeat or the merge service. -/
def commitTo (s : State) (index : Index) : State :=
  if s.poison.isSome then s else { s with commit := max s.commit index }

/-- The apply arm of a `PrepareMerge`; a refused one empties the queue. -/
def applyPrepareMerge (s : State) (e : Wire.Entry) : State :=
  match Wire.decodePrepareMergePayload code.prepareMergePayload e.data with
  | .error _ => s.clearFreezeQueue.fail .mergeDecode
  | .ok payload =>
    if !generationIsWorking payload.sourceGenAfter then s.clearFreezeQueue.fail .reservedShapeGen
    else
      { s.popAppliedFreeze e.index with
        frozen := true, shapeGen := max s.shapeGen payload.sourceGenAfter, applied := e.index }

def applyRollbackMerge (s : State) (e : Wire.Entry) : State :=
  match Wire.decodeRollbackMergePayload code.rollbackMergePayload e.data with
  | .error _ => s.fail .mergeDecode
  | .ok payload =>
    if !(generationIsWorking payload.sourceGenAfter && generationIsWorking payload.targetGenAfter) then
      s.fail .reservedShapeGen
    else if payload.sourceBytes = [] then
      if s.frozen ∧ some payload.sourceGenAfter = nextLineage s.shapeGen then
        { s with frozen := false, shapeGen := max s.shapeGen payload.sourceGenAfter, applied := e.index }
      else { s with applied := e.index }
    else if some payload.targetGenAfter = nextLineage s.shapeGen then
      { s with shapeGen := max s.shapeGen payload.targetGenAfter, applied := e.index }
    else { s with applied := e.index }

/-- One committed entry is applied, if it can be read and no merge is parked on it. An arm other
than the two of the freeze leaves some generation, or poisons. -/
def applyNext (s : State) (other : Option Nat) : State :=
  if s.poison.isSome ∨ s.commit ≤ s.applied then s
  else
    match s.entryAt (s.applied + 1) with
    | none => s
    | some e =>
      if e.index ≠ s.applied + 1 then s.fail .nonContiguousAppend
      else
        match e.kind with
        | .prepareMerge => s.applyPrepareMerge code e
        | .rollbackMerge => s.applyRollbackMerge code e
        | _ =>
          match other with
          | none => s.fail .elsewhere
          | some shapeGen => { s with shapeGen := shapeGen, applied := e.index }

/-- A snapshot replaces the log. -/
def install (s : State) (boundary : Index) (shapeGen : Nat) : State :=
  if s.poison.isSome then s
  else
    { s.noteFreezeRebaselined with
      boundary := boundary, log := [], commit := boundary, applied := boundary, captured := boundary, frozen := false
      shapeGen := max s.shapeGen shapeGen }

/-- A parked endpoint adopts the union at a boundary of its own log; nothing of it is persisted. -/
def adoptParkedUnion (s : State) (boundary : Index) (shapeGen : Nat) : State :=
  if s.poison.isSome ∨ boundary ≤ s.applied ∨ s.lastIndex < boundary ∨ s.commit < boundary then s
  else
    { s with
      applied := boundary, frozen := false, shapeGen := max s.shapeGen shapeGen
      freezeQueue := s.freezeQueue.filter (boundary < ·)
      claimCache := fun i => if boundary < i then s.claimCache i else none }

/-- The legs of `capture_blocked_at` that a freeze decides. -/
def captureBlockedAt (s : State) (boundary : Index) : Bool := s.frozen || s.freezePending.any (· ≤ boundary)

/-- A snapshot of what is applied is captured; the other legs and the threshold only make it
happen less often. -/
def maybeSnapshot (s : State) : State :=
  if s.poison.isSome ∨ s.captureBlockedAt s.applied then s else { s with captured := s.applied }

/-- The entries a snapshot covers leave the log. -/
def compact (s : State) (upto : Index) : State :=
  if s.poison.isSome ∨ s.captured < upto ∨ upto ≤ s.boundary then s
  else { s with boundary := upto, log := s.log.drop (upto - s.boundary) }

/-- A restart; the replay of the committed entries follows as applies. -/
def restart (kept : Kept) (chunk : Index → Option Nat) : State :=
  let s : State := ⟨kept.boundary, kept.log, kept.commit, kept.applied, kept.applied, [], fun _ => none, false, kept.shapeGen, none⟩
  match s.scanFreezePending chunk with
  | .ok queue => { s with freezeQueue := queue }
  | .error reason => s.fail reason

end

end State

/-! ## Histories -/

inductive Move where
  | propose (entry : Index → Wire.Entry)
  | onAppendEntries (prev : Index) (entries : List Wire.Entry) (leaderCommit : Index)
  | commitTo (index : Index)
  | applyNext (other : Option Nat)
  | install (boundary : Index) (shapeGen : Nat)
  | adoptParkedUnion (boundary : Index) (shapeGen : Nat)
  | maybeSnapshot
  | compact (upto : Index)
  | restart (kept : Kept) (chunk : Index → Option Nat)
  | scanFreezeClaims (readable : Index → Bool)
  | fault

def State.new : State := ⟨0, [], 0, 0, 0, [], fun _ => none, false, 0, none⟩

def step (code : GeneratedCode) (s : State) : Move → State
  | .propose entry => s.propose entry
  | .onAppendEntries prev entries leaderCommit => s.onAppendEntries prev entries leaderCommit
  | .commitTo index => s.commitTo index
  | .applyNext other => s.applyNext code other
  | .install boundary shapeGen => s.install boundary shapeGen
  | .adoptParkedUnion boundary shapeGen => s.adoptParkedUnion boundary shapeGen
  | .maybeSnapshot => s.maybeSnapshot
  | .compact upto => s.compact upto
  | .restart kept chunk => State.restart kept chunk
  | .scanFreezeClaims readable => (s.scanFreezeClaims code readable).2
  | .fault => s.fail .elsewhere

def run (code : GeneratedCode) (s : State) (moves : List Move) : State := moves.foldl (step code) s

end Sailing.Freeze
