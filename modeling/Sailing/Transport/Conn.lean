import Sailing.Transport.Record

/-!
# Connections

`transport/conn/mod.rs`: a connection feeds what it reads to its record layer,
binds the peer once the handshake is through, decodes the frames of a bound
peer, and frames what it sends. Messages and node ids are coded by a `Codec`;
the encoder's cache of snapshot metadata changes no byte and is left out.
-/

namespace Sailing.Transport

open RecordIo

/-- `wire::encode_message`, `wire::decode_message` and `NodeId::decode_exact`. -/
structure Codec (I Msg : Type) where
  encodeMessage : Msg → Bytes
  decodeMessage : Bytes → Option Msg
  decodeId : Bytes → Option I

/-- Group, entry flags, incarnation stamp and message. -/
abbrev Tuple (Msg : Type) := Bytes × UInt8 × UInt64 × Msg

/-- Entry flags, group, incarnation stamp and message. -/
abbrev CoalescedEntry (Msg : Type) := UInt8 × Bytes × UInt64 × Msg

inductive ConnState (I : Type) where
  | handshaking
  | validated (peer : I)
  | closed (peer : Option I)
deriving DecidableEq, Repr

def maxConnOutBuf : Nat := 2 * maxFrameLen

structure Conn (I R : Type) where
  record : R
  decoder : FrameDecoder
  state : ConnState I
  -- what lies from `out_pos` on
  outPlain : Bytes
  maxOut : Nat

namespace Conn

variable {I R Msg : Type} [RecordIo R] (codec : Codec I Msg)

def new (record : R) : Conn I R := ⟨record, .new, .handshaking, [], maxConnOutBuf⟩

def peer (c : Conn I R) : Option I :=
  match c.state with
  | .validated peer => some peer
  | .closed peer => peer
  | .handshaking => none

def currentPeer (c : Conn I R) : Option I :=
  match c.state with
  | .validated peer => some peer
  | _ => none

def isClosed (c : Conn I R) : Bool :=
  match c.state with
  | .closed _ => true
  | _ => false

def releaseOut (c : Conn I R) : Conn I R := { c with outPlain := [] }

def closeSuspect (c : Conn I R) : Conn I R := { c with state := .closed none }.releaseOut

/-- The close that keeps the peer, for what it still delivers. -/
def closeClean (c : Conn I R) : Conn I R := { c with state := .closed c.currentPeer }.releaseOut

def tryValidate (c : Conn I R) : Except TransportError Unit × Conn I R :=
  match c.state with
  | .handshaking =>
    if isHandshaking c.record then (.ok (), c)
    else
      match peerIdentity c.record with
      | none => (.ok (), c)
      | some bytes =>
        match codec.decodeId bytes with
        | some peer => (.ok (), { c with state := .validated peer })
        | none => (.error .decode, c.closeSuspect)
  | _ => (.ok (), c)

/-- One round of `handle_data`: what is left of the input, and whether the
layer made progress. -/
def intake (c : Conn I R) (input : Bytes) (now : Instant) :
    Except TransportError (Bytes × Bool) × Conn I R :=
  match handleTransportData c.record input now with
  | (.failed, record) => (.error .record, { c with record := record }.closeSuspect)
  | (taken, record) =>
    let (input, consumed) := match taken with
      | .pending n => (input.drop n, decide (0 < n))
      | _ => ([], true)
    let (scratch, record) := readPlaintext record
    let decoder := if scratch = [] then c.decoder else c.decoder.push scratch
    match tryValidate codec { c with record := record, decoder := decoder } with
    | (.error e, c) => (.error e, c)
    | (.ok (), c) => (.ok (input, consumed || scratch ≠ []), c)

/-- The loop of `handle_data`. A round takes a byte of the input, or drains the
layer so that the next one does: a layer that goes on refusing and draining
would keep the source in its loop, and is closed here like a wedged one. -/
def intakeLoop : Nat → Conn I R → Bytes → Instant → Except TransportError Unit × Conn I R
  | 0, c, _, _ => (.error .record, c.closeSuspect)
  | fuel + 1, c, input, now =>
    match intake codec c input now with
    | (.error e, c) => (.error e, c)
    | (.ok (rest, progress), c) =>
      if rest = [] then (.ok (), c)
      else if progress = false then (.error .record, c.closeSuspect)
      else intakeLoop fuel c rest now

def handleData (c : Conn I R) (bytes : Bytes) (eof : Bool) (now : Instant) :
    Except TransportError Unit × Conn I R :=
  if c.isClosed then (.ok (), c)
  else
    match intakeLoop codec (2 * bytes.length + 2) c bytes now with
    | (.error e, c) => (.error e, c)
    | (.ok (), c) => (.ok (), if eof || peerHasClosed c.record then c.closeClean else c)

/-- The tuples of one frame. -/
def decodeFrame (frame : Bytes) : Except TransportError (List (Tuple Msg)) :=
  if isCoalescedFrame frame then
    match splitCoalesced frame with
    | .error e => .error e
    | .ok entries =>
      entries.mapM fun (flags, group, generation, message) =>
        match codec.decodeMessage message with
        | some msg => .ok (group, flags, generation, msg)
        | none => .error .decode
  else
    match splitGroupHeader frame with
    | .error e => .error e
    | .ok (group, generation, message) =>
      match codec.decodeMessage message with
      | some msg => .ok [(group, 0, generation, msg)]
      | none => .error .decode

/-- The loop of `poll_decoded`. Each frame takes four bytes of the buffer. -/
def pollLoop : Nat → Conn I R → Except TransportError (List (Tuple Msg)) × Conn I R
  | 0, c => (.ok [], c)
  | fuel + 1, c =>
    match c.decoder.poll with
    | (.error e, decoder) => (.error e, { c with decoder := decoder }.closeSuspect)
    | (.ok none, decoder) => (.ok [], { c with decoder := decoder })
    | (.ok (some frame), decoder) =>
      let c := { c with decoder := decoder }
      match decodeFrame codec frame with
      | .error e => (.error e, c.closeSuspect)
      | .ok tuples =>
        match pollLoop fuel c with
        | (.error e, c) => (.error e, c)
        | (.ok more, c) => (.ok (tuples ++ more), c)

/-- What was decoded before an error is not delivered by the only caller, so an
error carries no tuples. -/
def pollDecoded (c : Conn I R) : Except TransportError (List (Tuple Msg)) × Conn I R :=
  if c.peer.isNone then (.ok [], c) else pollLoop codec (c.decoder.buf.length + 1) c

def drainOut (c : Conn I R) : Conn I R :=
  let (left, record) := offer c.outPlain.length c.record c.outPlain
  { c with outPlain := left, record := record }

/-- Frames the payload and queues it; `false` when that closed the connection. -/
def emitFrame (c : Conn I R) (payload : Bytes) : Bool × Conn I R :=
  let occupancy := c.outPlain.length + bufferedOutbound c.record
  if maxFrameLen < payload.length ∨ c.maxOut < occupancy + 4 + payload.length then (false, c.closeClean)
  else (true, { c with outPlain := c.outPlain ++ encodeFrame payload }.drainOut)

def messagePayload (group : Bytes) (generation : UInt64) (msg : Msg) : Bytes :=
  writeGroupHeader group generation ++ codec.encodeMessage msg

def sendMessage (c : Conn I R) (group : Bytes) (generation : UInt64) (msg : Msg) : Conn I R :=
  if c.isClosed then c else (c.emitFrame (messagePayload codec group generation msg)).2

/-- The loop of `send_coalesced`, `payload` being the frame under construction. -/
def coalesceLoop : Conn I R → Bytes → List (CoalescedEntry Msg) → Conn I R
  | c, payload, [] => if 2 < payload.length then (c.emitFrame payload).2 else c
  | c, payload, (flags, group, generation, msg) :: entries =>
    let bytes := codec.encodeMessage msg
    let entryLen := coalescedEntryLen group.length generation bytes.length
    if coalescedFrameBudget < entryLen then
      match c.emitFrame (writeGroupHeader group generation ++ bytes) with
      | (false, c) => c
      | (true, c) => coalesceLoop c payload entries
    else if 2 < payload.length ∧ coalescedFrameBudget < payload.length + entryLen then
      match c.emitFrame payload with
      | (false, c) => c
      | (true, c) =>
        coalesceLoop c (writeCoalescedMarker ++ writeCoalescedEntry flags group generation bytes) entries
    else coalesceLoop c (payload ++ writeCoalescedEntry flags group generation bytes) entries

def sendCoalesced (c : Conn I R) (entries : List (CoalescedEntry Msg)) : Conn I R :=
  if c.isClosed ∨ entries = [] then c else coalesceLoop codec c writeCoalescedMarker entries

def sendProbe (c : Conn I R) : Conn I R :=
  if c.isClosed then c else (c.emitFrame writeCoalescedMarker).2

def pollTransmit (c : Conn I R) : Bytes × Conn I R :=
  let c := c.drainOut
  let (bytes, record) := pollTransportTransmit c.record
  (bytes, { c with record := record })

end Conn

/-! ## Plain connections -/

/-- Messages are bytes, and a node id is one byte. -/
def plainCodec : Codec Nat Bytes where
  encodeMessage := id
  decodeMessage := some
  decodeId
    | [b] => some b.toNat
    | _ => none

def plainCluster : ClusterId := ⟨List.replicate 16 0, rfl⟩

end Sailing.Transport
