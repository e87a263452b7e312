import Sailing.Transport.Frame

/-!
# Record layers

`transport/stream.rs`, `transport/passthrough/mod.rs` and
`transport/labeled/mod.rs`: the interface of a record layer, the layer that
carries plaintext as it is, and the layer that opens every connection with a
hello. A layer's `out` arguments are the bytes it appends.
-/

namespace Sailing.Transport

/-- The outcome of feeding bytes to a record layer. -/
inductive Intake where
  | done
  | pending (n : Nat)
  | failed
deriving DecidableEq, Repr

class RecordIo (R : Type) where
  handleTransportData : R → Bytes → Instant → Intake × R
  pollTransportTransmit : R → Bytes × R
  readPlaintext : R → Bytes × R
  /-- How many bytes were accepted. -/
  writePlaintext : R → Bytes → Nat × R
  bufferedOutbound : R → Nat
  isHandshaking : R → Bool
  peerIdentity : R → Option Bytes
  peerHasClosed : R → Bool

open RecordIo

/-- Offers the bytes again and again until the layer accepts none; what is left
of them comes back. Each round but the last takes a byte at least. -/
def offer {R : Type} [RecordIo R] : Nat → R → Bytes → Bytes × R
  | 0, r, bytes => (bytes, r)
  | fuel + 1, r, bytes =>
    if bytes = [] then (bytes, r)
    else
      let (n, r) := writePlaintext r bytes
      if n = 0 then (bytes, r) else offer fuel r (bytes.drop n)

/-! ## Passthrough -/

structure Passthrough where
  inbound : Bytes
  outbound : Bytes
deriving DecidableEq, Repr

def recvLimit : Nat := 256 * 1024

def sendLimit : Nat := 64 * 1024 * 1024

def Passthrough.new : Passthrough := ⟨[], []⟩

instance : RecordIo Passthrough where
  handleTransportData p input _ :=
    let room := recvLimit - p.inbound.length
    if input.length ≤ room then (.done, { p with inbound := p.inbound ++ input })
    else (.pending room, { p with inbound := p.inbound ++ input.take room })
  pollTransportTransmit p := (p.outbound, { p with outbound := [] })
  readPlaintext p := (p.inbound, { p with inbound := [] })
  writePlaintext p plaintext :=
    let took := min plaintext.length (sendLimit - p.outbound.length)
    (took, { p with outbound := p.outbound ++ plaintext.take took })
  bufferedOutbound p := p.outbound.length
  isHandshaking _ := false
  peerIdentity _ := none
  peerHasClosed _ := false

/-! ## Labeled -/

inductive ConnRole where
  | dialer
  | acceptor
deriving DecidableEq, Repr

def labelMagic : UInt8 := 0xCA

def labelVersion : UInt8 := 3

def helloHeader : Nat := 1 + 1 + 16 + 2

def maxPeerIdLen : Nat := 1024

structure ClusterId where
  bytes : Bytes
  length_eq : bytes.length = 16
deriving DecidableEq

structure LabelOptions where
  cluster : ClusterId
  localId : Bytes

def buildHello (cluster : ClusterId) (localId : Bytes) : Bytes :=
  labelMagic :: labelVersion :: (cluster.bytes ++ Octets.be 2 localId.length ++ localId)

structure Labeled (R : Type) where
  inner : R
  cluster : ClusterId
  localHello : Bytes
  role : ConnRole
  pending : Bytes
  helloOut : Bytes
  validated : Option Bytes
  failed : Bool

namespace Labeled

variable {R : Type} [RecordIo R]

def checkLocalId (localId : Bytes) : Except TransportError Unit :=
  if localId = [] ∨ maxPeerIdLen < localId.length then .error .invalidLocalId else .ok ()

def flushHello (l : Labeled R) : Labeled R :=
  let (left, inner) := offer l.helloOut.length l.inner l.helloOut
  { l with helloOut := left, inner := inner }

def dialer (inner : R) (opts : LabelOptions) : Except TransportError (Labeled R) :=
  (checkLocalId opts.localId).map fun _ =>
    let hello := buildHello opts.cluster opts.localId
    flushHello
      { inner := inner, cluster := opts.cluster, localHello := hello, role := .dialer, pending := []
        helloOut := hello, validated := none, failed := false }

def acceptor (inner : R) (opts : LabelOptions) : Except TransportError (Labeled R) :=
  (checkLocalId opts.localId).map fun _ =>
    { inner := inner, cluster := opts.cluster
      localHello := buildHello opts.cluster opts.localId, role := .acceptor, pending := []
      helloOut := [], validated := none, failed := false }

/-- Parses the hello at the front of `pending`; `false` when it is refused. -/
def advanceHandshake (l : Labeled R) : Bool × Labeled R :=
  if l.validated.isSome ∨ l.pending.length < helloHeader then (true, l)
  else if l.pending.take 2 ≠ [labelMagic, labelVersion] then (false, { l with failed := true })
  else if (l.pending.drop 2).take 16 ≠ l.cluster.bytes then (false, { l with failed := true })
  else
    let peerIdLen := Octets.ofBe ((l.pending.drop 18).take 2)
    if peerIdLen = 0 ∨ maxPeerIdLen < peerIdLen then (false, { l with failed := true })
    else if l.pending.length < helloHeader + peerIdLen then (true, l)
    else
      let l := { l with
        validated := some ((l.pending.drop helloHeader).take peerIdLen)
        pending := l.pending.drop (helloHeader + peerIdLen) }
      match l.role with
      | .dialer => (true, l)
      | .acceptor => (true, flushHello { l with helloOut := l.helloOut ++ l.localHello })

def handleTransportData (l : Labeled R) (input : Bytes) (now : Instant) : Intake × Labeled R :=
  if l.failed then (.failed, l)
  else
    match RecordIo.handleTransportData l.inner input now with
    | (.failed, inner) => (.failed, { l with inner := inner, failed := true })
    | (intake, inner) =>
      let (plain, inner) := RecordIo.readPlaintext inner
      let l := { l with inner := inner, pending := l.pending ++ plain }
      if l.validated.isNone then
        match advanceHandshake l with
        | (true, l) => (intake, l)
        | (false, l) => (.failed, l)
      else (intake, l)

def pollTransportTransmit (l : Labeled R) : Bytes × Labeled R :=
  if l.failed then ([], l)
  else
    let l := flushHello l
    let (bytes, inner) := RecordIo.pollTransportTransmit l.inner
    (bytes, { l with inner := inner })

def readPlaintext (l : Labeled R) : Bytes × Labeled R :=
  if l.failed ∨ l.validated.isNone then ([], l) else (l.pending, { l with pending := [] })

def writePlaintext (l : Labeled R) (plaintext : Bytes) : Nat × Labeled R :=
  if l.failed then (0, l)
  else
    let l := flushHello l
    if l.helloOut ≠ [] then (0, l)
    else
      let (n, inner) := RecordIo.writePlaintext l.inner plaintext
      (n, { l with inner := inner })

instance : RecordIo (Labeled R) where
  handleTransportData := handleTransportData
  pollTransportTransmit := pollTransportTransmit
  readPlaintext := readPlaintext
  writePlaintext := writePlaintext
  bufferedOutbound l := l.helloOut.length + RecordIo.bufferedOutbound l.inner
  isHandshaking l := RecordIo.isHandshaking l.inner || l.validated.isNone
  peerIdentity l := l.validated
  peerHasClosed l := RecordIo.peerHasClosed l.inner

end Labeled

end Sailing.Transport
