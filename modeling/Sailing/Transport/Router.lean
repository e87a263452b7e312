import Mathlib.Data.Finset.Basic
import Sailing.Transport.Conn

/-!
# The peer router

`transport/router/mod.rs`: the table of connections, the peer each is bound to
and how it was opened. A connection that closes is dropped from the table in
the call that closes it, so between calls every connection is open, and one
that has a peer was checked when it got it: the peer is not this node, and is
the one that was dialed. A read that completes the hello and closes the
connection skips that check.
-/

namespace Sailing.Transport

abbrev ConnId := Nat

/-- How a connection was opened. -/
inductive Provenance (I : Type) where
  | accepted
  | dialed (expected : I)
deriving DecidableEq, Repr

/-- Group, entry flags, incarnation stamp, sending peer and message. -/
abbrev Delivery (I Msg : Type) := Bytes × UInt8 × UInt64 × I × Msg

def handshakeTimeout : Duration := 10000

def idleTimeout : Duration := 3000

def probeInterval : Duration := 3000 / 3

structure PeerRouter (I R : Type) where
  conns : Std.TreeMap ConnId (Conn I R)
  peerOf : I → Option ConnId
  handshakeDeadline : Std.TreeMap ConnId Instant
  idleDeadline : Std.TreeMap ConnId Instant
  probeDeadline : Std.TreeMap ConnId Instant
  provenance : Std.TreeMap ConnId (Provenance I)
  localId : Option I
  closed : List (ConnId × Option TransportError)

namespace PeerRouter

variable {I R Msg : Type} [LinearOrder I] [RecordIo R] (codec : Codec I Msg)

def new : PeerRouter I R := ⟨∅, fun _ => none, ∅, ∅, ∅, ∅, none, []⟩

def setLocalId (r : PeerRouter I R) (id : I) : PeerRouter I R := { r with localId := some id }

def register (r : PeerRouter I R) (id : ConnId) (provenance : Provenance I) (record : R)
    (now : Instant) : PeerRouter I R :=
  if r.conns.contains id then { r with closed := r.closed ++ [(id, some .duplicateConnId)] }
  else
    { r with
      conns := r.conns.insert id (Conn.new record)
      handshakeDeadline := r.handshakeDeadline.insert id (now + handshakeTimeout)
      provenance := r.provenance.insert id provenance }

def registerDial (r : PeerRouter I R) (id : ConnId) (expected : I) (record : R) (now : Instant) :
    PeerRouter I R := r.register id (.dialed expected) record now

def registerAccept (r : PeerRouter I R) (id : ConnId) (record : R) (now : Instant) :
    PeerRouter I R := r.register id .accepted record now

def remove (r : PeerRouter I R) (id : ConnId) : PeerRouter I R :=
  { r with
    conns := r.conns.erase id
    handshakeDeadline := r.handshakeDeadline.erase id
    idleDeadline := r.idleDeadline.erase id
    probeDeadline := r.probeDeadline.erase id
    provenance := r.provenance.erase id
    peerOf := fun p => if r.peerOf p = some id then none else r.peerOf p }

def removeInternal (r : PeerRouter I R) (id : ConnId) (reason : Option TransportError) :
    PeerRouter I R :=
  { r.remove id with closed := r.closed ++ [(id, reason)] }

/-- Which of two connections to the same peer stays. -/
def duplicateWinner (r : PeerRouter I R) (id prev : ConnId) (peer : I) : ConnId :=
  match r.provenance[id]?, r.provenance[prev]?, r.localId.map fun me => decide (me < peer) with
  | some (.dialed _), some .accepted, some lower => if lower then id else prev
  | some .accepted, some (.dialed _), some lower => if lower then prev else id
  | _, _, _ => max id prev

def close (r : PeerRouter I R) (id : ConnId) (reason : Option TransportError) : PeerRouter I R :=
  if r.conns.contains id then r.removeInternal id reason else r

def pollConnClosed (r : PeerRouter I R) : PeerRouter I R := { r with closed := r.closed.tail }

/-- The connections whose deadline has passed. -/
def expired (deadlines : Std.TreeMap ConnId Instant) (now : Instant) : List ConnId :=
  (deadlines.toList.filter fun p => p.2 ≤ now).map Prod.fst

def reapHandshakes (r : PeerRouter I R) (now : Instant) : PeerRouter I R :=
  (expired r.handshakeDeadline now).foldl (fun r id => r.removeInternal id (some .notValidated)) r

def probe (now : Instant) (r : PeerRouter I R) (id : ConnId) : PeerRouter I R :=
  match r.conns[id]? with
  | none => r
  | some conn =>
    let conn := conn.sendProbe
    let r := { r with conns := r.conns.insert id conn }
    if conn.isClosed then r.removeInternal id none
    else { r with probeDeadline := r.probeDeadline.insert id (now + probeInterval) }

def serviceLiveness (r : PeerRouter I R) (now : Instant) : PeerRouter I R :=
  let reap := expired r.idleDeadline now
  let r := reap.foldl (fun r id => r.removeInternal id (some .idleTimeout)) r
  ((expired r.probeDeadline now).filter fun id => !reap.contains id).foldl (probe now) r

/-- The connection was dialed to reach another peer. -/
def crossed (r : PeerRouter I R) (id : ConnId) (peer : I) : Bool :=
  match r.provenance[id]? with
  | some (.dialed expected) => expected ≠ peer
  | _ => false

/-- The checks on a connection that has a peer and is open, and its binding;
`false` when the connection was dropped. -/
def bindPeer (r : PeerRouter I R) (id : ConnId) (peer : I) (now : Instant) : Bool × PeerRouter I R :=
  if r.localId = some peer then (false, r.removeInternal id (some .selfIdentity))
  else
    if r.crossed id peer then (false, r.removeInternal id (some .unexpectedPeer))
    else
      let first := r.handshakeDeadline.contains id
      let r := { r with handshakeDeadline := r.handshakeDeadline.erase id }
      let bound (r : PeerRouter I R) : PeerRouter I R :=
        { r with
          peerOf := fun p => if p = peer then some id else r.peerOf p
          probeDeadline := if first then r.probeDeadline.insert id (now + probeInterval)
            else r.probeDeadline }
      match r.peerOf peer with
      | none => (true, bound r)
      | some prev =>
        if prev = id then (true, bound r)
        else if r.duplicateWinner id prev peer = prev then (false, r.removeInternal id none)
        else (true, bound (r.removeInternal prev none))

/-- Hands out what the connection has decoded. -/
def deliver (r : PeerRouter I R) (id : ConnId) :
    Except TransportError (List (Delivery I Msg)) × PeerRouter I R :=
  match r.conns[id]? with
  | none => (.ok [], r)
  | some conn =>
    match conn.pollDecoded codec with
    | (.error e, conn) => (.error e, { r with conns := r.conns.insert id conn })
    | (.ok msgs, conn) =>
      (.ok (match conn.peer with
        | some p => msgs.map fun (group, flags, generation, msg) => (group, flags, generation, p, msg)
        | none => []),
        { r with conns := r.conns.insert id conn })

def handleConnDataInner (r : PeerRouter I R) (id : ConnId) (bytes : Bytes) (eof : Bool)
    (now : Instant) : Except TransportError (List (Delivery I Msg)) × PeerRouter I R :=
  match r.conns[id]? with
  | none => (.ok [], r)
  | some conn =>
    match conn.handleData codec bytes eof now with
    | (.error e, conn) => (.error e, { r with conns := r.conns.insert id conn })
    | (.ok (), conn) =>
      let r := { r with conns := r.conns.insert id conn }
      if conn.isClosed then r.deliver codec id
      else
        match conn.peer with
        | none => r.deliver codec id
        | some peer =>
          match r.bindPeer id peer now with
          | (true, r) => r.deliver codec id
          | (false, r) => (.ok [], r)

def handleConnData (r : PeerRouter I R) (id : ConnId) (bytes : Bytes) (eof : Bool)
    (now : Instant) : List (Delivery I Msg) × PeerRouter I R :=
  match r.handleConnDataInner codec id bytes eof now with
  | (.error e, r) => ([], r.removeInternal id (some e))
  | (.ok out, r) =>
    match r.conns[id]? with
    | none => (out, r)
    | some conn =>
      if conn.isClosed then (out, r.removeInternal id none)
      else if bytes ≠ [] ∧ conn.peer.isSome then
        (out, { r with idleDeadline := r.idleDeadline.insert id (now + idleTimeout) })
      else (out, r)

/-- `route` and `route_coalesced`: what `send` does to the connection bound to
the peer. -/
def routeWith (r : PeerRouter I R) (dest : I) (send : Conn I R → Conn I R) : PeerRouter I R :=
  match r.peerOf dest with
  | none => r
  | some id =>
    match r.conns[id]? with
    | none => r
    | some conn =>
      let conn := send conn
      let r := { r with conns := r.conns.insert id conn }
      if conn.isClosed then r.removeInternal id none else r

def route (r : PeerRouter I R) (group : Bytes) (generation : UInt64) (dest : I) (msg : Msg) :
    PeerRouter I R := r.routeWith dest fun c => c.sendMessage codec group generation msg

def routeCoalesced (r : PeerRouter I R) (dest : I) (entries : List (CoalescedEntry Msg)) :
    PeerRouter I R := r.routeWith dest fun c => c.sendCoalesced codec entries

def pollTransmit (r : PeerRouter I R) : PeerRouter I R :=
  { r with conns := r.conns.map fun _ c => c.pollTransmit.2 }

/-- What a driver calls once the router has its identity. -/
inductive Call (I R Msg : Type) where
  | registerDial (id : ConnId) (expected : I) (record : R) (now : Instant)
  | registerAccept (id : ConnId) (record : R) (now : Instant)
  | handleConnData (id : ConnId) (bytes : Bytes) (eof : Bool) (now : Instant)
  | reapHandshakes (now : Instant)
  | serviceLiveness (now : Instant)
  | remove (id : ConnId)
  | close (id : ConnId) (reason : Option TransportError)
  | route (group : Bytes) (generation : UInt64) (dest : I) (msg : Msg)
  | routeCoalesced (dest : I) (entries : List (CoalescedEntry Msg))
  | pollTransmit
  | pollConnClosed

def exec (r : PeerRouter I R) : Call I R Msg → PeerRouter I R
  | .registerDial id expected record now => r.registerDial id expected record now
  | .registerAccept id record now => r.registerAccept id record now
  | .handleConnData id bytes eof now => (r.handleConnData codec id bytes eof now).2
  | .reapHandshakes now => r.reapHandshakes now
  | .serviceLiveness now => r.serviceLiveness now
  | .remove id => r.remove id
  | .close id reason => r.close id reason
  | .route group generation dest msg => r.route codec group generation dest msg
  | .routeCoalesced dest entries => r.routeCoalesced codec dest entries
  | .pollTransmit => r.pollTransmit
  | .pollConnClosed => r.pollConnClosed

def execs (r : PeerRouter I R) (calls : List (Call I R Msg)) : PeerRouter I R :=
  calls.foldl (exec codec) r

end PeerRouter

end Sailing.Transport
