import Sailing.Model.Basic

/-!
# The stores, as their contracts describe them

`storage.rs` states what the core may rely on; this is the most general store
that keeps it. A store is a durable image and the images the submitted writes
lead to, oldest first: a read sees the newest, a crash leaves the durable one.
A write becomes durable only after the writes submitted before it, an append
may become durable entry by entry, and a completion surfaces at any time after
its write is durable, in any order, or never. Reads may find an entry cold,
fail, or return only part of a range.
-/

namespace Sailing

variable {I : Type} [DecidableEq I]

/-! ## The log -/

inductive LogDone where
  | appended (id : OpId)
  | compacted (index : Index)
deriving DecidableEq, Repr

/-- The entries above `base`, the boundary of what was compacted away. -/
structure LogImage (I : Type) where
  base : Index
  baseTerm : Term
  entries : List (Entry I)
deriving DecidableEq

namespace LogImage

def firstIndex (l : LogImage I) : Index := l.base + 1

def lastIndex (l : LogImage I) : Index := l.base + l.entries.length

/-- The entry at an index that is still present. -/
def get (l : LogImage I) (i : Index) : Option (Entry I) :=
  if l.base < i then l.entries[i - l.base - 1]? else none

/-- The boundary term at `base`, an entry's term above it, `0` elsewhere. -/
def term (l : LogImage I) (i : Index) : Term :=
  if i = l.base then l.baseTerm else ((l.get i).map (·.term)).getD 0

/-- Every entry stands at its own index. -/
def Contiguous (l : LogImage I) : Prop :=
  ∀ k e, l.entries[k]? = some e → e.index = l.base + k + 1

/-- Writes one entry at its index, dropping whatever stood there or above. -/
def put (l : LogImage I) (e : Entry I) : LogImage I :=
  { l with entries := l.entries.take (e.index - l.base - 1) ++ [e] }

/-- The images an append leads to, one for each entry. -/
def puts (l : LogImage I) : List (Entry I) → List (LogImage I)
  | [] => []
  | e :: es => l.put e :: (l.put e).puts es

def compact (l : LogImage I) (upTo : Index) : LogImage I :=
  ⟨upTo, l.term upTo, l.entries.drop (upTo - l.base)⟩

end LogImage

inductive EntriesRead (I : Type) where
  | ready (entries : List (Entry I))
  | pending
  | error

structure LogStore (I : Type) where
  durable : LogImage I
  /-- Each image with the completion of the write it ends. -/
  staged : List (LogImage I × Option LogDone)
  /-- Completions of durable writes that have not surfaced. -/
  done : List LogDone
  /-- What `poll` will return; `none` is a failed write. -/
  ready : List (Option LogDone)
  cold : Index → Bool
  readError : Index → Bool
  termError : Index → Bool
  /-- The most entries one read returns. -/
  readCap : Nat
  /-- The store answers `durable_index`. -/
  probe : Bool

namespace LogStore

def empty : LogStore I :=
  ⟨⟨0, 0, []⟩, [], [], [], fun _ => false, fun _ => false, fun _ => false, u64Max, true⟩

def images (s : LogStore I) : List (LogImage I) := s.durable :: s.staged.map Prod.fst

/-- The image reads see. -/
def visible (s : LogStore I) : LogImage I := (s.staged.getLast?.map Prod.fst).getD s.durable

def firstIndex (s : LogStore I) : Index := s.visible.firstIndex

def lastIndex (s : LogStore I) : Index := s.visible.lastIndex

def term (s : LogStore I) (i : Index) : Option Term :=
  if s.termError i then none else some (s.visible.term i)

/-- The entries from `start` to before `stop`: a prefix that ends early at a
cold entry or at the read cap, but is not empty when `start` is in view. -/
def entries (s : LogStore I) (start stop : Index) : EntriesRead I :=
  if s.readError start then .error
  else if start ≤ s.visible.base ∨ s.lastIndex < start ∨ stop ≤ start then .ready []
  else if s.cold start then .pending
  else
    let run := (s.visible.entries.drop (start - s.visible.base - 1)).take (stop - start)
    .ready ((run.take (max s.readCap 1)).takeWhile fun e => !s.cold e.index)

/-- The highest index up to which no staged rewrite and no crash takes the
visible entries away, for a store that answers. -/
def durableIndex (s : LogStore I) : Option Index :=
  if s.probe then
    some (s.visible.base + (s.visible.entries.takeWhile fun e =>
      s.images.all fun l => l.get e.index = some e).length)
  else none

/-- Tags the last image of a write with the write's completion. -/
def stage (images : List (LogImage I)) (done : LogDone) : List (LogImage I × Option LogDone) :=
  match images with
  | [] => []
  | [l] => [(l, some done)]
  | l :: ls => (l, none) :: stage ls done

def submitAppend (s : LogStore I) (id : OpId) (entries : List (Entry I)) : LogStore I :=
  let images := if entries = [] then [s.visible] else s.visible.puts entries
  { s with staged := s.staged ++ stage images (.appended id) }

def compact (s : LogStore I) (upTo : Index) : LogStore I :=
  if s.visible.base < upTo ∧ upTo ≤ s.lastIndex then
    { s with staged := s.staged ++ [(s.visible.compact upTo, some (.compacted upTo))] }
  else s

def restore (s : LogStore I) (lastIndex : Index) (lastTerm : Term) : LogStore I :=
  { s with staged := s.staged ++ [(⟨lastIndex, lastTerm, []⟩, none)] }

def poll (s : LogStore I) : Option (Option LogDone) × LogStore I :=
  match s.ready with
  | [] => (none, s)
  | d :: rest => (some d, { s with ready := rest })

def hasPending (s : LogStore I) : Bool := s.ready ≠ []

/-- The oldest staged image becomes durable. -/
def sync (s : LogStore I) : LogStore I :=
  match s.staged with
  | [] => s
  | (l, d) :: rest => { s with durable := l, staged := rest, done := s.done ++ d.toList }

/-- The completion at position `i` of the durable ones surfaces. -/
def surface (s : LogStore I) (i : Nat) : LogStore I :=
  match s.done[i]? with
  | none => s
  | some d => { s with done := s.done.eraseIdx i, ready := s.ready ++ [some d] }

/-- A crash loses what was staged. Surfaced completions may outlive it. -/
def crash (s : LogStore I) : LogStore I := { s with staged := [] }

end LogStore

/-! ## Chunk staging -/

def maxStagingRuns : Nat := 1024

structure SnapshotStaging (I : Type) where
  snapshot : SnapshotMeta I
  buf : Bytes
  /-- The written byte ranges, by start. -/
  runs : List (Nat × Nat)

namespace SnapshotStaging

def totalLen (s : SnapshotStaging I) : Nat := s.buf.length

/-- Inserts a range by its start; the source appends it and sorts. -/
def insertByStart (run : Nat × Nat) : List (Nat × Nat) → List (Nat × Nat)
  | [] => [run]
  | r :: rs => if run.1 < r.1 then run :: r :: rs else r :: insertByStart run rs

/-- Joins each range to `last`, the one before it, when they touch. -/
def mergeFrom (last : Nat × Nat) : List (Nat × Nat) → List (Nat × Nat)
  | [] => [last]
  | r :: rs => if r.1 ≤ last.2 then mergeFrom (last.1, max last.2 r.2) rs else last :: mergeFrom r rs

def merge : List (Nat × Nat) → List (Nat × Nat)
  | [] => []
  | r :: rs => mergeFrom r rs

def insertRun (runs : List (Nat × Nat)) (start stop : Nat) : List (Nat × Nat) :=
  if stop ≤ start then runs else merge (insertByStart (start, stop) runs)

/-- The end of the range that starts at byte 0. -/
def contiguous (s : SnapshotStaging I) : Nat :=
  match s.runs with
  | (0, stop) :: _ => stop
  | _ => 0

def accept (s : SnapshotStaging I) (offset : Nat) (data : Bytes) : Option (SnapshotStaging I) :=
  let start := min offset s.buf.length
  let stop := min (start + data.length) s.buf.length
  let runs := insertRun s.runs start stop
  if maxStagingRuns < runs.length then none
  else some { s with
    buf := s.buf.take start ++ data.take (stop - start) ++ s.buf.drop stop
    runs := runs }

def isComplete (s : SnapshotStaging I) : Bool := s.contiguous = s.buf.length

end SnapshotStaging

/-! ## The stable store -/

inductive StableDone where
  | wrote (id : OpId)
  | snapshotWritten (id : OpId)
deriving DecidableEq, Repr

structure StableImage (I : Type) where
  hardState : HardState I
  snapshot : Option (SnapshotMeta I × Bytes)
deriving DecidableEq

structure StableStore (I : Type) where
  durable : StableImage I
  staged : List (StableImage I × StableDone)
  done : List StableDone
  ready : List (Option StableDone)
  staging : Option (SnapshotStaging I)
  /-- The largest blob the store stages. -/
  stagingCap : Nat
  /-- `hard_state` shows a submitted write before it is durable. -/
  eager : Bool
  /-- The store answers `durable_hard_state`. -/
  probe : Bool
  chunkCold : Bool
  chunkError : Bool

inductive SnapshotChunkRead where
  | ready (chunk : Bytes)
  | pending

namespace StableStore

def empty : StableStore I :=
  ⟨⟨.initial, none⟩, [], [], [], none, u64Max, false, true, false, false⟩

def images (s : StableStore I) : List (StableImage I) := s.durable :: s.staged.map Prod.fst

def visible (s : StableStore I) : StableImage I := (s.staged.getLast?.map Prod.fst).getD s.durable

def hardState (s : StableStore I) : HardState I :=
  if s.eager then s.visible.hardState else s.durable.hardState

def durableHardState (s : StableStore I) : Option (HardState I) :=
  if s.probe then some s.durable.hardState else none

def submitWrite (s : StableStore I) (id : OpId) (hs : HardState I) : StableStore I :=
  { s with staged := s.staged ++ [({ s.visible with hardState := hs }, .wrote id)] }

def submitSnapshot (s : StableStore I) (id : OpId) (snap : SnapshotMeta I) (data : Bytes) :
    StableStore I :=
  { s with
    staged := s.staged ++ [({ s.visible with snapshot := some (snap, data) }, .snapshotWritten id)] }

def snapshot (s : StableStore I) : Option (SnapshotMeta I × Bytes) := s.visible.snapshot

def durableSnapshot (s : StableStore I) : Option (SnapshotMeta I) := s.durable.snapshot.map Prod.fst

/-- A run of the visible blob: `none` when there is no snapshot, an error when
the read fails. -/
def snapshotChunk (s : StableStore I) (offset len : Nat) :
    Option (Except Unit (SnapshotMeta I × Nat × SnapshotChunkRead)) :=
  s.snapshot.map fun (snap, blob) =>
    if s.chunkError then .error ()
    else .ok (snap, blob.length,
      if s.chunkCold then .pending else .ready ((blob.drop offset).take len))

/-- A chunk of another transfer replaces the partial one. -/
def acceptSnapshotChunk (s : StableStore I) (snap : SnapshotMeta I) (totalLen offset : Nat)
    (data : Bytes) : Option Nat × StableStore I :=
  if s.stagingCap < totalLen then (none, s)
  else
    let current := match s.staging with
      | some st => if st.snapshot.identityEq snap && st.totalLen == totalLen then st
        else ⟨snap, List.replicate totalLen 0, []⟩
      | none => ⟨snap, List.replicate totalLen 0, []⟩
    match current.accept offset data with
    | none => (none, s)
    | some st => (some st.contiguous, { s with staging := some st })

def takeStagedSnapshot (s : StableStore I) (snap : SnapshotMeta I) : Option Bytes × StableStore I :=
  match s.staging with
  | some st =>
    if st.snapshot.lastIndex = snap.lastIndex ∧ st.isComplete then
      (some st.buf, { s with staging := none })
    else (none, s)
  | none => (none, s)

def discardSnapshotStaging (s : StableStore I) : StableStore I := { s with staging := none }

def poll (s : StableStore I) : Option (Option StableDone) × StableStore I :=
  match s.ready with
  | [] => (none, s)
  | d :: rest => (some d, { s with ready := rest })

def hasPending (s : StableStore I) : Bool := s.ready ≠ []

def sync (s : StableStore I) : StableStore I :=
  match s.staged with
  | [] => s
  | (im, d) :: rest => { s with durable := im, staged := rest, done := s.done ++ [d] }

def surface (s : StableStore I) (i : Nat) : StableStore I :=
  match s.done[i]? with
  | none => s
  | some d => { s with done := s.done.eraseIdx i, ready := s.ready ++ [some d] }

def crash (s : StableStore I) : StableStore I := { s with staged := [], staging := none }

end StableStore

end Sailing
