import Sailing.Model.Basic
import Sailing.Lib.Octets

/-!
# Frames

`transport/frame/mod.rs`: length-prefixed frames, the group header of a
single-message frame, the entries of a coalesced one, and the decoder that
reassembles frames from a stream cut anywhere. `split_writeGroupHeader` and
`splitCoalesced_write` are the round trips.
-/

namespace Sailing.Transport

open List (length_append take_left' drop_left')
open Octets (leb ofBe length_be ofBe_be)

inductive TransportError where
  | frameTooLarge
  | decode
  | record
  | notValidated
  | duplicateConnId
  | idleTimeout
  | selfIdentity
  | unexpectedPeer
  | invalidLocalId
deriving DecidableEq, Repr

def maxFrameLen : Nat := 64 * 1024 * 1024

def maxGroupIdLen : Nat := 1024

def maxGenerationVarintLen : Nat := 10

def encodeFrame (payload : Bytes) : Bytes := Octets.be 4 payload.length ++ payload

def writeVarint (v : UInt64) : Bytes := leb 9 v.toNat

def readVarint (buf : Bytes) : Option (UInt64 × Nat) :=
  (Octets.readLeb maxGenerationVarintLen 1 0 0 buf).map fun r => (UInt64.ofNat r.1, r.2)

def writeGroupHeader (group : Bytes) (generation : UInt64) : Bytes :=
  Octets.be 2 group.length ++ group ++ writeVarint generation

def splitGroupHeader (frame : Bytes) : Except TransportError (Bytes × UInt64 × Bytes) :=
  if frame.length < 2 then .error .decode
  else
    let groupLen := ofBe (frame.take 2)
    if maxGroupIdLen < groupLen ∨ frame.length < 2 + groupLen then .error .decode
    else
      match readVarint (frame.drop (2 + groupLen)) with
      | none => .error .decode
      | some (generation, n) =>
        .ok ((frame.drop 2).take groupLen, generation, frame.drop (2 + groupLen + n))

/-! ## Coalesced frames -/

def coalescedMarker : Nat := 0xFFFF

def coalescedFrameBudget : Nat := 64 * 1024

def isCoalescedFrame (frame : Bytes) : Bool :=
  2 ≤ frame.length && frame.take 2 == Octets.be 2 coalescedMarker

def writeCoalescedMarker : Bytes := Octets.be 2 coalescedMarker

def writeCoalescedEntry (flags : UInt8) (group : Bytes) (generation : UInt64) (msg : Bytes) : Bytes :=
  flags :: (Octets.be 2 group.length ++ group ++ writeVarint generation ++ Octets.be 4 msg.length ++ msg)

/-- The shifts of `varint_len`, which a `u64` leaves after nine at most. -/
def varintRounds : Nat → Nat → Nat
  | 0, _ => 0
  | k + 1, v => if v ≠ 0 then varintRounds k (v >>> 7) + 1 else 0

def varintLen (v : UInt64) : Nat := 1 + varintRounds 9 (v.toNat >>> 7)

def coalescedEntryLen (groupLen : Nat) (generation : UInt64) (msgLen : Nat) : Nat :=
  1 + 2 + groupLen + varintLen generation + 4 + msgLen

/-- The entries from the front of `rest` on; each takes a byte at least. -/
def splitEntries : Nat → Bytes → Except TransportError (List (UInt8 × Bytes × UInt64 × Bytes))
  | _, [] => .ok []
  | 0, _ :: _ => .error .decode
  | fuel + 1, flags :: rest =>
    if rest.length < 2 then .error .decode
    else
      let groupLen := ofBe (rest.take 2)
      if groupLen = 0 ∨ maxGroupIdLen < groupLen then .error .decode
      else
        let rest := rest.drop 2
        if rest.length < groupLen then .error .decode
        else
          let group := rest.take groupLen
          let rest := rest.drop groupLen
          match readVarint rest with
          | none => .error .decode
          | some (generation, n) =>
            let rest := rest.drop n
            if rest.length < 4 then .error .decode
            else
              let msgLen := ofBe (rest.take 4)
              let rest := rest.drop 4
              if rest.length < msgLen then .error .decode
              else
                (splitEntries fuel (rest.drop msgLen)).map fun entries =>
                  (flags, group, generation, rest.take msgLen) :: entries

def splitCoalesced (frame : Bytes) : Except TransportError (List (UInt8 × Bytes × UInt64 × Bytes)) :=
  if isCoalescedFrame frame = false then .error .decode
  else if 2 + coalescedFrameBudget < frame.length then .error .decode
  else splitEntries frame.length (frame.drop 2)

/-! ## The decoder -/

structure FrameDecoder where
  buf : Bytes
  fill : Nat
  expect : Option Nat
  failed : Bool
deriving DecidableEq, Repr

namespace FrameDecoder

def new : FrameDecoder := ⟨[], 0, none, false⟩

/-- The loop of `push`: each round takes a byte of the input at least. -/
def pushLoop : Nat → FrameDecoder → Bytes → FrameDecoder
  | 0, d, _ => d
  | fuel + 1, d, input =>
    if input = [] then d
    else
      match d.expect with
      | none =>
        let took := min (4 - d.fill) input.length
        let buf := d.buf ++ input.take took
        let fill := d.fill + took
        let input := input.drop took
        if fill < 4 then { d with buf := buf, fill := fill }
        else
          let len := ofBe (buf.drop (buf.length - 4))
          if maxFrameLen < len then ⟨[], 0, none, true⟩
          else if len = 0 then pushLoop fuel { d with buf := buf, fill := 0 } input
          else pushLoop fuel { d with buf := buf, fill := fill, expect := some (4 + len) } input
      | some total =>
        let took := min (total - d.fill) input.length
        let buf := d.buf ++ input.take took
        let fill := d.fill + took
        let input := input.drop took
        if fill = total then pushLoop fuel { d with buf := buf, fill := 0, expect := none } input
        else pushLoop fuel { d with buf := buf, fill := fill } input

def push (d : FrameDecoder) (bytes : Bytes) : FrameDecoder :=
  if d.failed then d else pushLoop bytes.length d bytes

def poll (d : FrameDecoder) : Except TransportError (Option Bytes) × FrameDecoder :=
  if d.failed then (.error .frameTooLarge, d)
  else
    let complete := d.buf.length - d.fill
    if complete < 4 then (.ok none, d)
    else
      let stop := 4 + ofBe (d.buf.take 4)
      if complete < stop then (.ok none, d)
      else (.ok (some ((d.buf.take stop).drop 4)), { d with buf := d.buf.drop stop })

end FrameDecoder

/-! ## Round trips -/

@[simp] theorem length_encodeFrame (p : Bytes) : (encodeFrame p).length = 4 + p.length := by
  simp [encodeFrame]

theorem readVarint_writeVarint (v : UInt64) (rest : Bytes) :
    readVarint (writeVarint v ++ rest) = some (v, (writeVarint v).length) := by
  have hv : v.toNat < (1 + 1) * 2 ^ (7 * 9) := v.toNat_lt
  have hr : Octets.readLeb maxGenerationVarintLen 1 0 0 (writeVarint v ++ rest) =
      some (0 + v.toNat * 2 ^ (7 * 0), 0 + (writeVarint v).length) :=
    Octets.readLeb_leb rfl (by decide) hv (by decide)
  unfold readVarint
  rw [hr]
  simp

theorem varintRounds_eq (k n : Nat) : 1 + varintRounds k (n >>> 7) = (leb k n).length := by
  induction k generalizing n with
  | zero => rfl
  | succ k ih =>
    have hs : n >>> 7 = n / 128 := by rw [Nat.shiftRight_eq_div_pow]
    unfold varintRounds leb
    by_cases h : 0x80 ≤ n
    · have hne : n >>> 7 ≠ 0 := by omega
      rw [if_pos hne, if_pos h, List.length_cons, ← ih (n >>> 7)]
      omega
    have he : ¬ n >>> 7 ≠ 0 := by omega
    rw [if_neg he, if_neg h]
    rfl

theorem varintLen_eq (v : UInt64) : varintLen v = (writeVarint v).length := varintRounds_eq 9 v.toNat

theorem length_writeCoalescedEntry (flags : UInt8) (group : Bytes) (generation : UInt64) (msg : Bytes) :
    (writeCoalescedEntry flags group generation msg).length = coalescedEntryLen group.length generation msg.length := by
  simp only [writeCoalescedEntry, coalescedEntryLen, varintLen_eq, List.length_cons, length_append, length_be]
  omega

theorem split_writeGroupHeader {group : Bytes} (generation : UInt64) (msg : Bytes) (h : group.length ≤ maxGroupIdLen) :
    splitGroupHeader (writeGroupHeader group generation ++ msg) = .ok (group, generation, msg) := by
  have hb : (Octets.be 2 group.length).length = 2 := length_be 2 _
  have hn : ofBe (Octets.be 2 group.length) = group.length := ofBe_be (h.trans_lt (by decide))
  have ht : (writeGroupHeader group generation ++ msg).take 2 = Octets.be 2 group.length := by
    simp only [writeGroupHeader, List.append_assoc]
    exact take_left' hb
  have hd : (writeGroupHeader group generation ++ msg).drop 2 = group ++ (writeVarint generation ++ msg) := by
    simp only [writeGroupHeader, List.append_assoc]
    exact drop_left' hb
  have hlen : (writeGroupHeader group generation ++ msg).length =
      2 + (group.length + ((writeVarint generation).length + msg.length)) := by
    simp only [writeGroupHeader, length_append, hb]
    omega
  have hdg : (writeGroupHeader group generation ++ msg).drop (2 + group.length) = writeVarint generation ++ msg := by
    rw [← List.drop_drop, hd]
    exact drop_left' rfl
  have hr := readVarint_writeVarint generation msg
  unfold splitGroupHeader
  rw [if_neg (by omega)]
  simp only [ht, hn]
  rw [if_neg (by omega), hdg, hr]
  simp only
  rw [← List.drop_drop, hdg, drop_left' rfl, hd, take_left' rfl]

/-- A single-message frame does not open with the marker. -/
theorem isCoalescedFrame_header {group : Bytes} (generation : UInt64) (msg : Bytes) (h : group.length ≤ maxGroupIdLen) :
    isCoalescedFrame (writeGroupHeader group generation ++ msg) = false := by
  have ht : (writeGroupHeader group generation ++ msg).take 2 = Octets.be 2 group.length := by
    simp only [writeGroupHeader, List.append_assoc]
    exact take_left' (length_be 2 _)
  have hne : Octets.be 2 group.length ≠ Octets.be 2 coalescedMarker := fun he => by
    have hn : group.length < 256 ^ 2 := h.trans_lt (by decide)
    have := congrArg ofBe he
    rw [ofBe_be hn, ofBe_be (by decide)] at this
    rw [this] at h
    exact absurd h (by decide)
  unfold isCoalescedFrame
  rw [ht, beq_eq_false_iff_ne.mpr hne, Bool.and_false]

/-- What may be written as an entry of a coalesced frame. -/
def EntryFits (e : UInt8 × Bytes × UInt64 × Bytes) : Prop :=
  e.2.1 ≠ [] ∧ e.2.1.length ≤ maxGroupIdLen ∧ e.2.2.2.length < 256 ^ 4

def writeEntry (e : UInt8 × Bytes × UInt64 × Bytes) : Bytes :=
  writeCoalescedEntry e.1 e.2.1 e.2.2.1 e.2.2.2

theorem splitEntries_write {entries : List (UInt8 × Bytes × UInt64 × Bytes)} {fuel : Nat}
    (fits : ∀ e ∈ entries, EntryFits e) (hf : entries.length ≤ fuel) :
    splitEntries fuel (entries.flatMap writeEntry) = .ok entries := by
  induction entries generalizing fuel with
  | nil => cases fuel <;> rfl
  | cons e entries ih =>
    obtain ⟨flags, group, generation, msg⟩ := e
    obtain ⟨hne, hg, hm⟩ := fits _ List.mem_cons_self
    simp only at hne hg hm
    obtain ⟨fuel, rfl⟩ : ∃ k, fuel = k + 1 := ⟨fuel - 1, by simp at hf; omega⟩
    have ih := ih (fun e he => fits e (List.mem_cons_of_mem _ he)) (Nat.le_of_succ_le_succ hf)
    generalize hrest : entries.flatMap writeEntry = rest at ih
    have hflat : ((flags, group, generation, msg) :: entries).flatMap writeEntry =
        flags :: (Octets.be 2 group.length ++ (group ++ (writeVarint generation ++
          (Octets.be 4 msg.length ++ (msg ++ rest))))) := by
      simp [List.flatMap_cons, hrest, writeEntry, writeCoalescedEntry]
    have hb2 : (Octets.be 2 group.length).length = 2 := length_be 2 _
    have hb4 : (Octets.be 4 msg.length).length = 4 := length_be 4 _
    have hn2 : ofBe (Octets.be 2 group.length) = group.length := ofBe_be (hg.trans_lt (by decide))
    have hn4 : ofBe (Octets.be 4 msg.length) = msg.length := ofBe_be hm
    have hpos : group.length ≠ 0 := fun h => hne (List.length_eq_zero_iff.mp h)
    rw [hflat]
    unfold splitEntries
    simp only [length_append, hb2, take_left' hb2, drop_left' hb2, hn2, take_left' (rfl : group.length = group.length),
      drop_left' (rfl : group.length = group.length), readVarint_writeVarint,
      drop_left' (rfl : (writeVarint generation).length = _), hb4, take_left' hb4,
      drop_left' hb4, hn4, take_left' (rfl : msg.length = msg.length),
      drop_left' (rfl : msg.length = msg.length), ih]
    rw [if_neg (by omega), if_neg (by omega), if_neg (by omega), if_neg (by omega), if_neg (by omega)]
    rfl

theorem length_le_flatMap_writeEntry (entries : List (UInt8 × Bytes × UInt64 × Bytes)) :
    entries.length ≤ (entries.flatMap writeEntry).length := by
  induction entries with
  | nil => simp
  | cons =>
    simp only [List.flatMap_cons, length_append, List.length_cons, writeEntry, writeCoalescedEntry]
    omega

theorem splitCoalesced_write {entries : List (UInt8 × Bytes × UInt64 × Bytes)} (fits : ∀ e ∈ entries, EntryFits e)
    (hlen : (writeCoalescedMarker ++ entries.flatMap writeEntry).length ≤ 2 + coalescedFrameBudget) :
    isCoalescedFrame (writeCoalescedMarker ++ entries.flatMap writeEntry) = true ∧
      splitCoalesced (writeCoalescedMarker ++ entries.flatMap writeEntry) = .ok entries := by
  have hb : writeCoalescedMarker.length = 2 := length_be 2 _
  have hc : isCoalescedFrame (writeCoalescedMarker ++ entries.flatMap writeEntry) = true := by
    unfold isCoalescedFrame
    rw [take_left' hb, length_append, hb]
    simp [writeCoalescedMarker]
  refine ⟨hc, ?_⟩
  unfold splitCoalesced
  rw [if_neg (by simp [hc]), if_neg (by omega), drop_left' hb]
  refine splitEntries_write fits ((length_le_flatMap_writeEntry entries).trans ?_)
  rw [length_append]
  omega

end Sailing.Transport
