import Sailing.Model.Replication
import Sailing.Transport.Frame
import Sailing.Wire.Message
import Mathlib.Algebra.Order.BigOperators.Group.List

/-!
# What fits one frame

A frame carries the group header and one encoded message. `append_fits` and `chunk_fits_frame`
are the two budgets of the leader: the estimated cost of the entries of a batch, and what
the envelope of a snapshot chunk, sized with no data in it, leaves for the data. The length
in front of the arm may grow by the data; where it does, the frame is far from full.
`offer_fits` is the exact check of a snapshot that is offered whole.
-/

namespace Sailing.Wire

open List (length_append map_map nil_append)
open Proto (delimitedLen uint64Len_le bytesLen_le length_uint64 length_bytes bytesLen varintLen)

open Endpoint (groupHeaderReserve maxFrameBytes appendFrameEntryBudget maxSnapshotChunkBytes)

variable {I : Type} [LinearOrder I]

/-- The longest id a peer decodes. -/
def maxIdLen : Nat := 1024

/-- The encodings of the application, and what the wire adds to the entries and metas of the
endpoint's model. -/
structure Codec (I : Type) where
  encodeId : I → Bytes
  encodeConfChange : Option (ConfChangeV2 I) → Bytes
  encodeMerge : Bytes
  timestamp : Sailing.Entry I → Nat
  leaseWindow : Sailing.Entry I → Nat
  wallTimestamp : Sailing.Entry I → Nat
  snapshotMeta : Sailing.SnapshotMeta I → SnapshotMeta I

namespace Codec

variable (codec : Codec I)

def kind : Sailing.EntryKind I → EntryKind
  | .normal _ => .normal
  | .confChange _ => .confChange
  | .empty => .empty
  | .commitMerge => .commitMerge

def data : Sailing.EntryKind I → Bytes
  | .normal data => data
  | .confChange change => codec.encodeConfChange change
  | .empty => []
  | .commitMerge => codec.encodeMerge

def entry (e : Sailing.Entry I) : Entry :=
  ⟨e.term, e.index, kind e.kind, codec.data e.kind, codec.timestamp e, codec.leaseWindow e, codec.wallTimestamp e⟩

def appendEntries (m : Sailing.AppendEntries I) : AppendEntries I :=
  ⟨m.term, m.leader, m.prevLogIndex, m.prevLogTerm, m.entries.map codec.entry, m.leaderCommit⟩

def installSnapshot (m : Sailing.InstallSnapshot I) : InstallSnapshot I :=
  ⟨m.term, m.leader, codec.snapshotMeta m.snapshot, m.data, m.offset, m.totalLen⟩

/-- The sizes that the endpoint of `me` reckons with. -/
def sizes (me : I) : Sailing.Wire I :=
  ⟨fun kind => (codec.data kind).length, fun term snap offset totalLen =>
    installSnapshotEncodedLen codec.encodeId term me (codec.snapshotMeta snap) offset totalLen 0⟩

/-- The payload of a frame. -/
def payload (group : Bytes) (generation : UInt64) (msg : Message I) : Bytes :=
  Transport.writeGroupHeader group generation ++ encodeMessage codec.encodeId msg []

end Codec

/-- The framed message is no longer than a frame may be. -/
def Codec.Fits (codec : Codec I) (group : Bytes) (generation : UInt64) : Sailing.Message I → Prop
  | .appendEntries m =>
    (codec.payload group generation (.appendEntries (codec.appendEntries m))).length ≤ maxFrameBytes
  | .installSnapshot m =>
    (codec.payload group generation (.installSnapshot (codec.installSnapshot m))).length ≤ maxFrameBytes
  | _ => True

/-! ## The parts of a frame -/

theorem length_writeGroupHeader (short : group.length ≤ Transport.maxGroupIdLen)
    (generation : UInt64) : (Transport.writeGroupHeader group generation).length ≤ groupHeaderReserve := by
  have stamp : (Transport.writeVarint generation).length ≤ 10 := by
    unfold Transport.writeVarint
    rw [Proto.length_leb]
    exact Proto.groups_le 9 _
  have be := Octets.length_be 2 group.length
  simp only [Transport.writeGroupHeader, length_append, be, groupHeaderReserve]
  simp only [Transport.maxGroupIdLen] at short
  omega

theorem delimitedLen_le (n : Nat) : delimitedLen n ≤ n + 11 := by
  have := Proto.varintLen_le n
  unfold delimitedLen
  omega

/-- An entry within a batch costs no more than it is reckoned with. -/
theorem length_encodeEntry_le (e : Entry) : delimitedLen (encodeEntry e).length ≤ e.data.length + 128 := by
  have term := uint64Len_le e.term
  have index := uint64Len_le e.index
  have kind := uint64Len_le e.kind.code
  have stamp := uint64Len_le e.timestamp
  have window := uint64Len_le e.leaseWindow
  have wall := uint64Len_le e.wallTimestamp
  have data := (bytesLen_le e.data.length).trans (delimitedLen_le e.data.length)
  refine (delimitedLen_le _).trans ?_
  simp only [encodeEntry, length_append, length_uint64 (by decide : 1 < 16),
    length_uint64 (by decide : 2 < 16), length_uint64 (by decide : 3 < 16),
    length_bytes (by decide : 4 < 16), length_uint64 (by decide : 5 < 16),
    length_uint64 (by decide : 6 < 16), length_uint64 (by decide : 7 < 16)]
  omega

variable (codec : Codec I)

omit [LinearOrder I] in
theorem length_entries_le (entries : List (Sailing.Entry I)) :
    (Proto.repeated 5 ((entries.map codec.entry).map encodeEntry)).length ≤
      (entries.map fun e => (codec.data e.kind).length + 128).sum := by
  rw [Proto.length_repeated (by decide), map_map, map_map]
  exact List.sum_le_sum fun e _ => length_encodeEntry_le (codec.entry e)

/-! ## The budgets -/

variable {group : Bytes} (short : group.length ≤ Transport.maxGroupIdLen) (generation : UInt64)

include short

/-- A batch within the budget of the entries fits one frame. -/
theorem append_fits {m : Sailing.AppendEntries I} (id : (codec.encodeId m.leader).length ≤ maxIdLen)
    (cost : (m.entries.map fun e => (codec.data e.kind).length + 128).sum ≤ appendFrameEntryBudget) :
    (codec.payload group generation (.appendEntries (codec.appendEntries m))).length ≤ maxFrameBytes := by
  have header := length_writeGroupHeader short generation
  have entries := (length_entries_le codec m.entries).trans cost
  have term := uint64Len_le m.term
  have prev := uint64Len_le m.prevLogIndex
  have prevTerm := uint64Len_le m.prevLogTerm
  have commit := uint64Len_le m.leaderCommit
  have leader := (bytesLen_le (codec.encodeId m.leader).length).trans (delimitedLen_le _)
  have body : (appendEntriesBody codec.encodeId (codec.appendEntries m)).length ≤
      44 + (maxIdLen + 11) + appendFrameEntryBudget := by
    simp only [appendEntriesBody, Codec.appendEntries, length_append, length_uint64 (by decide : 1 < 16),
      length_bytes (by decide : 2 < 16), length_uint64 (by decide : 3 < 16),
      length_uint64 (by decide : 4 < 16), length_uint64 (by decide : 6 < 16)]
    omega
  have arm := delimitedLen_le (appendEntriesBody codec.encodeId (codec.appendEntries m)).length
  simp only [Codec.payload, encodeMessage, encodeArm, length_append, nil_append,
    Proto.length_delimited (by decide : 1 < 16)]
  simp only [maxIdLen, appendFrameEntryBudget, maxFrameBytes, groupHeaderReserve] at *
  omega

omit short in
theorem le_length_append (group : Bytes) (m : Sailing.AppendEntries I) : (codec.encodeId m.leader).length +
    (m.entries.map fun e => (codec.data e.kind).length).sum ≤
      (codec.payload group generation (.appendEntries (codec.appendEntries m))).length := by
  have field : ∀ n, n ≤ bytesLen n := by
    intro n
    unfold bytesLen delimitedLen
    split <;> omega
  have leader := field (codec.encodeId m.leader).length
  have entries : (m.entries.map fun e => (codec.data e.kind).length).sum ≤
      (Proto.repeated 5 ((m.entries.map codec.entry).map encodeEntry)).length := by
    rw [Proto.length_repeated (by decide), map_map, map_map]
    refine List.sum_le_sum fun e _ => ?_
    have data := field (codec.data e.kind).length
    have held : (codec.data e.kind).length ≤ (encodeEntry (codec.entry e)).length := by
      simp only [encodeEntry, length_append, length_bytes (by decide : 4 < 16)]
      simp only [Codec.entry]
      omega
    simp only [Function.comp, delimitedLen]
    omega
  simp only [Codec.payload, encodeMessage, encodeArm, length_append, nil_append,
    Proto.length_delimited (by decide : 1 < 16), delimitedLen, appendEntriesBody, Codec.appendEntries,
    length_bytes (by decide : 2 < 16)]
  omega

/-- The envelope of a snapshot is no longer than it is sized. -/
theorem length_installSnapshot_le (m : InstallSnapshot I) :
    (codec.payload group generation (.installSnapshot m)).length ≤ groupHeaderReserve +
      installSnapshotEncodedLen codec.encodeId m.term m.leader m.snapshot m.offset m.totalLen m.data.length := by
  have header := length_writeGroupHeader short generation
  have leader : bytesLen (codec.encodeId m.leader).length ≤ idBytesField codec.encodeId m.leader := bytesLen_le _
  have arm : (installSnapshotBody codec.encodeId m (encodeSnapshotMeta codec.encodeId m.snapshot)).length ≤
      installSnapshotLen codec.encodeId m.term m.leader m.snapshot m.offset m.totalLen m.data.length := by
    rw [length_installSnapshotBody, length_encodeSnapshotMeta]
    unfold installSnapshotLen
    omega
  have framed := Proto.delimitedLen_strictMono.monotone arm
  simp only [Codec.payload, encodeMessage, encodeArm, length_append, nil_append,
    Proto.length_delimited (by decide : 7 < 16), installSnapshotEncodedLen]
  omega

/-- A snapshot offered whole, sized exactly, fits one frame. -/
theorem offer_fits {m : InstallSnapshot I}
    (sized : installSnapshotEncodedLen codec.encodeId m.term m.leader m.snapshot m.offset m.totalLen m.data.length +
      groupHeaderReserve ≤ maxFrameBytes) :
    (codec.payload group generation (.installSnapshot m)).length ≤ maxFrameBytes := by
  have := length_installSnapshot_le codec short generation m
  omega

omit [LinearOrder I] short in
/-- The length in front of an arm of `inner` bytes grows with the data only where there is room. -/
theorem delimitedLen_add_le {inner data : Nat} (chunk : data ≤ maxSnapshotChunkBytes)
    (room : delimitedLen inner + 5 + data + groupHeaderReserve ≤ maxFrameBytes) :
    delimitedLen (inner + bytesLen data) + groupHeaderReserve ≤ maxFrameBytes := by
  have field : bytesLen data ≤ data + 5 := by
    have prefixed : varintLen data ≤ 4 := (Proto.varintLen_mono chunk).trans (by decide)
    have := bytesLen_le data
    unfold delimitedLen at this
    omega
  unfold delimitedLen at room ⊢
  simp only [maxFrameBytes, groupHeaderReserve, maxSnapshotChunkBytes] at room chunk ⊢
  have outer : varintLen (inner + bytesLen data) ≤ 4 := by
    have below : inner + bytesLen data ≤ 2 ^ 28 - 1 := by omega
    exact (Proto.varintLen_mono below).trans (by decide)
  by_cases small : inner < 2 ^ 21
  · omega
  have grown : 4 ≤ varintLen inner := by
    have low : varintLen (2 ^ 21) ≤ varintLen inner := Proto.varintLen_mono (not_lt.mp small)
    have four : varintLen (2 ^ 21) = 4 := by decide
    omega
  omega

/-- A chunk within the budget that its envelope leaves fits one frame. -/
theorem chunk_fits_frame {m : InstallSnapshot I} (chunk : m.data.length ≤ maxSnapshotChunkBytes)
    (room : installSnapshotEncodedLen codec.encodeId m.term m.leader m.snapshot m.offset m.totalLen 0 + 5 +
      m.data.length + groupHeaderReserve ≤ maxFrameBytes) :
    (codec.payload group generation (.installSnapshot m)).length ≤ maxFrameBytes := by
  have split : installSnapshotLen codec.encodeId m.term m.leader m.snapshot m.offset m.totalLen m.data.length =
      installSnapshotLen codec.encodeId m.term m.leader m.snapshot m.offset m.totalLen 0 + bytesLen m.data.length := by
    have none : bytesLen 0 = 0 := rfl
    unfold installSnapshotLen
    omega
  refine offer_fits codec short generation ?_
  unfold installSnapshotEncodedLen at room ⊢
  rw [split]
  exact delimitedLen_add_le chunk room

end Sailing.Wire
