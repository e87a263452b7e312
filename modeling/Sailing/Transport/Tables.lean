import Sailing.Transport.Identity

/-!
# The router's tables

What the six tables of the router say about one connection is a `Row`. Between calls a row is
`Settled`: empty; or a connection in its handshake, with a handshake deadline only; or a validated
one, with an idle and a probe deadline only; and `peerOf` names exactly the validated connections.
A call touches the row of one connection and drops others, so the proofs keep `Around`, the
invariant of every other row, through a call and restore the row at its end.

The idle deadline is set by a read that carries bytes. That a handshake never ends in a read
without any is a property of the record layers, stated as `Layer`.
-/

namespace Sailing.Transport

open Octets (ofBe)

open RecordIo

/-! ## Record layers -/

/-- The handshake is over and names a peer. -/
def ready {R : Type} [RecordIo R] (record : R) : Bool := !isHandshaking record && (peerIdentity record).isSome

/-- A record layer in its handshake waits for bytes. -/
structure Layer (R : Type) [RecordIo R] where
  Waits : R → Prop
  read : ∀ {record record' : R} {input : Bytes} {now : Instant} {taken : Intake}, Waits record →
    handleTransportData record input now = (taken, record') → taken ≠ .failed →
    ready (readPlaintext record').2 = false → Waits (readPlaintext record').2
  idle : ∀ {record record' : R} {now : Instant} {taken : Intake}, Waits record →
    handleTransportData record [] now = (taken, record') → taken ≠ .failed →
    ready (readPlaintext record').2 = false
  write : ∀ {record : R} (plaintext : Bytes), Waits record → Waits (writePlaintext record plaintext).2
  transmit : ∀ {record : R}, Waits record → Waits (pollTransportTransmit record).2

/-- A plain layer never names a peer. -/
def Passthrough.layer : Layer Passthrough where
  Waits _ := True
  read := fun _ _ _ _ => trivial
  idle := fun _ _ _ => rfl
  write := fun _ _ => trivial
  transmit := fun _ => trivial

namespace Labeled

/-- No hello can be taken from the front of these bytes. -/
def NoHello (cluster : ClusterId) (pending : Bytes) : Prop :=
  pending.length < helloHeader ∨ pending.take 2 ≠ [labelMagic, labelVersion] ∨
    (pending.drop 2).take 16 ≠ cluster.bytes ∨ ofBe ((pending.drop 18).take 2) = 0 ∨
    maxPeerIdLen < ofBe ((pending.drop 18).take 2) ∨
    pending.length < helloHeader + ofBe ((pending.drop 18).take 2)

variable {R : Type} [RecordIo R] {l l' : Labeled R}

/-- The handshake goes on exactly when there is no hello yet. -/
theorem advanceHandshake_spec (open_ : l.validated = none) (h : l.advanceHandshake = (true, l')) :
    l' = l ∧ NoHello l.cluster l.pending ∨ l'.validated.isSome ∧ ¬ NoHello l.cluster l.pending := by
  unfold advanceHandshake at h
  rw [open_] at h
  simp only [Option.isSome_none, Bool.false_eq_true, false_or] at h
  unfold NoHello
  by_cases short : l.pending.length < helloHeader
  · rw [if_pos short] at h
    exact .inl ⟨(Prod.mk.inj h).2.symm, .inl short⟩
  rw [if_neg short] at h
  by_cases magic : l.pending.take 2 ≠ [labelMagic, labelVersion]
  · rw [if_pos magic] at h
    exact absurd (Prod.mk.inj h).1 (by decide)
  rw [if_neg magic] at h
  by_cases cluster : (l.pending.drop 2).take 16 ≠ l.cluster.bytes
  · rw [if_pos cluster] at h
    exact absurd (Prod.mk.inj h).1 (by decide)
  rw [if_neg cluster] at h
  by_cases size : ofBe ((l.pending.drop 18).take 2) = 0 ∨ maxPeerIdLen < ofBe ((l.pending.drop 18).take 2)
  · rw [if_pos size] at h
    exact absurd (Prod.mk.inj h).1 (by decide)
  rw [if_neg size] at h
  rw [not_or] at size
  by_cases rest : l.pending.length < helloHeader + ofBe ((l.pending.drop 18).take 2)
  · rw [if_pos rest] at h
    exact .inl ⟨(Prod.mk.inj h).2.symm, by tauto⟩
  rw [if_neg rest] at h
  refine .inr ⟨?_, by tauto⟩
  cases role : l.role with
  | dialer | acceptor =>
    simp only [role] at h
    rw [← (Prod.mk.inj h).2]
    rfl

end Labeled

theorem Passthrough.offer_inbound (fuel : Nat) (p : Passthrough) (bytes : Bytes) :
    (offer fuel p bytes).2.inbound = p.inbound := by
  induction fuel generalizing p bytes with
  | zero => rfl
  | succ fuel ih =>
    unfold offer
    split
    · rfl
    simp only
    split
    · rfl
    · exact ih _ _

/-- A labeled layer waits while the hello of the peer is not complete. -/
def Labeled.Awaiting (l : Labeled Passthrough) : Prop :=
  l.validated = none ∧ l.inner.inbound = [] ∧ Labeled.NoHello l.cluster l.pending

variable {l : Labeled Passthrough}

theorem Labeled.awaiting_flushHello (h : l.Awaiting) : l.flushHello.Awaiting :=
  ⟨h.1, (Passthrough.offer_inbound _ _ _).trans h.2.1, h.2.2⟩

theorem Labeled.handleTransportData_spec {l' : Labeled Passthrough} {input : Bytes} {now : Instant} {taken : Intake}
    (h : l.Awaiting) (read : l.handleTransportData input now = (taken, l')) (good : taken ≠ .failed) :
    l'.Awaiting ∨ l'.validated.isSome ∧ input ≠ [] := by
  obtain ⟨fresh, drained, none_yet⟩ := h
  have inner : ∃ passed n, RecordIo.handleTransportData l.inner input now =
      (n, { l.inner with inbound := l.inner.inbound ++ passed }) ∧ n ≠ .failed ∧ (input = [] → passed = []) := by
    by_cases room : input.length ≤ recvLimit - l.inner.inbound.length
    · exact ⟨input, .done, if_pos room, by simp, fun h => h⟩
    · exact ⟨input.take (recvLimit - l.inner.inbound.length), .pending (recvLimit - l.inner.inbound.length), if_neg room,
        by simp, fun h => by rw [h, List.take_nil]⟩
  obtain ⟨passed, n, taken_eq, fine, empty⟩ := inner
  unfold Labeled.handleTransportData at read
  by_cases dead : l.failed = true
  · rw [if_pos dead] at read
    exact absurd (Prod.mk.inj read).1.symm good
  rw [if_neg dead, taken_eq] at read
  cases n with
  | failed => exact absurd rfl fine
  | done | pending n =>
    simp only [fresh, Option.isNone_none, if_true] at read
    generalize whole : advanceHandshake (R := Passthrough) _ = res at read
    obtain ⟨ok, l₁⟩ := res
    cases ok with
    | false => exact absurd (Prod.mk.inj read).1.symm good
    | true =>
      rw [← (Prod.mk.inj read).2]
      obtain ⟨same, still⟩ | ⟨named, hello⟩ := advanceHandshake_spec rfl whole
      · rw [same]
        exact .inl ⟨rfl, rfl, still⟩
      refine .inr ⟨named, fun none_read => hello ?_⟩
      have nothing : (RecordIo.readPlaintext { l.inner with inbound := l.inner.inbound ++ passed }).1 = [] := by
        show l.inner.inbound ++ passed = []
        rw [drained, empty none_read, List.append_nil]
      show NoHello l.cluster (l.pending ++ _)
      rw [nothing, List.append_nil]
      exact none_yet

theorem Labeled.readPlaintext_of_awaiting (h : l.Awaiting) : l.readPlaintext = ([], l) := by
  unfold Labeled.readPlaintext
  rw [if_pos (.inr (by rw [h.1]; rfl))]

theorem Labeled.ready_of_validated (h : l.validated.isSome) : ready (RecordIo.readPlaintext l).2 = true := by
  have kept : (Labeled.readPlaintext l).2.validated = l.validated := by
    unfold Labeled.readPlaintext
    split <;> rfl
  show (!(false || (Labeled.readPlaintext l).2.validated.isNone) && (Labeled.readPlaintext l).2.validated.isSome) = true
  rw [kept]
  cases named : l.validated with
  | none => rw [named] at h; exact absurd h (by decide)
  | some => rfl

theorem Labeled.awaiting_writePlaintext (plaintext : Bytes) (h : l.Awaiting) :
    (l.writePlaintext plaintext).2.Awaiting := by
  have flushed := awaiting_flushHello h
  unfold Labeled.writePlaintext
  split
  · exact h
  simp only
  split <;> exact flushed

theorem Labeled.awaiting_pollTransportTransmit (h : l.Awaiting) : l.pollTransportTransmit.2.Awaiting := by
  unfold Labeled.pollTransportTransmit
  split
  · exact h
  · exact awaiting_flushHello h

def Labeled.layer : Layer (Labeled Passthrough) where
  Waits := Labeled.Awaiting
  read := fun waits read good not_ready => by
    obtain waits | ⟨named, -⟩ := Labeled.handleTransportData_spec waits read good
    · show (Labeled.readPlaintext _).2.Awaiting
      rwa [Labeled.readPlaintext_of_awaiting waits]
    · rw [Labeled.ready_of_validated named] at not_ready
      exact absurd not_ready (by decide)
  idle := fun waits read good => by
    obtain waits | ⟨-, some_read⟩ := Labeled.handleTransportData_spec waits read good
    · show ready (Labeled.readPlaintext _).2 = false
      rw [Labeled.readPlaintext_of_awaiting waits]
      show (_ && Option.isSome _) = false
      rw [show RecordIo.peerIdentity _ = none from waits.1]
      exact Bool.and_false _
    · exact absurd rfl some_read
  write := fun plaintext waits => Labeled.awaiting_writePlaintext plaintext waits
  transmit := fun waits => Labeled.awaiting_pollTransportTransmit waits

/-- As the constructors build it, a labeled layer waits. -/
theorem Labeled.awaiting_new {opts : LabelOptions}
    (built : dialer .new opts = .ok l ∨ acceptor .new opts = .ok l) : l.Awaiting := by
  have short : NoHello opts.cluster [] := .inl (by decide)
  unfold dialer acceptor at built
  cases checked : checkLocalId opts.localId with
  | error =>
    rw [checked] at built
    obtain dialed | accepted := built
    · cases dialed
    · cases accepted
  | ok =>
    rw [checked] at built
    obtain dialed | accepted := built
    · cases dialed
      exact awaiting_flushHello ⟨rfl, rfl, short⟩
    · cases accepted
      exact ⟨rfl, rfl, short⟩

/-! ## Rows -/

section

variable {I R : Type}

/-- What the tables say about one connection. -/
@[ext]
structure Row (I R : Type) where
  conn : Option (Conn I R)
  handshake : Option Instant
  idle : Option Instant
  probe : Option Instant
  provenance : Option (Provenance I)

namespace Row

def empty : Row I R := ⟨none, none, none, none, none⟩

/-- The peer of the connection. -/
def peer (row : Row I R) : Option I := row.conn.bind Conn.peer

end Row

theorem Conn.peer_of_validated {c : Conn I R} {p : I} (h : c.state = .validated p) : c.peer = some p := by
  unfold Conn.peer
  rw [h]

theorem Conn.peer_of_handshaking {c : Conn I R} (h : c.state = .handshaking) : c.peer = none := by
  unfold Conn.peer
  rw [h]

namespace PeerRouter

variable {r : PeerRouter I R} {id : ConnId}

def row (r : PeerRouter I R) (a : ConnId) : Row I R :=
  ⟨r.conns[a]?, r.handshakeDeadline[a]?, r.idleDeadline[a]?, r.probeDeadline[a]?, r.provenance[a]?⟩

/-- The connection is in the table. -/
def Live (r : PeerRouter I R) (a : ConnId) : Prop := (r.row a).conn.isSome

instance (r : PeerRouter I R) (a : ConnId) : Decidable (Live r a) :=
  inferInstanceAs (Decidable (_ = true))

theorem row_conns (c : Conn I R) (a : ConnId) : ({ r with conns := r.conns.insert id c } : PeerRouter I R).row a =
      if a = id then { r.row a with conn := some c } else r.row a := by
  unfold row
  rw [getElem?_insert]
  split <;> rfl

theorem row_remove (a : ConnId) : (r.remove id).row a = if a = id then .empty else r.row a := by
  unfold row remove
  simp only [getElem?_erase]
  split <;> rfl

theorem row_removeInternal (reason : Option TransportError) (a : ConnId) :
    (r.removeInternal id reason).row a = if a = id then .empty else r.row a := row_remove a

theorem peerOf_remove {a : ConnId} (p : I) : (r.remove id).peerOf p = some a ↔ a ≠ id ∧ r.peerOf p = some a := by
  show (if r.peerOf p = some id then none else r.peerOf p) = some a ↔ _
  by_cases here : r.peerOf p = some id
  · rw [if_pos here, here]
    constructor
    · intro impossible
      cases impossible
    · rintro ⟨other, same⟩
      exact absurd (Option.some.inj same).symm other
  · rw [if_neg here]
    refine ⟨fun same => ⟨fun eq => here (eq ▸ same), same⟩, fun both => both.2⟩

end PeerRouter

end

/-! ## Reads of a connection -/

variable {I R Msg : Type} [RecordIo R] {codec : Codec I Msg} {L : Layer R}

namespace Conn

variable {c c' c₁ : Conn I R} {bytes input : Bytes} {now : Instant}

/-- What a read that leaves the connection open does to its state. -/
def Outcome (L : Layer R) (c c' : Conn I R) (bytes : Bytes) : Prop :=
  (∃ p, c.state = .validated p ∧ c'.state = .validated p) ∨
    (c.state = .handshaking ∧ c'.state = .handshaking ∧ L.Waits c'.record) ∨
    ∃ p, c.state = .handshaking ∧ c'.state = .validated p ∧ bytes ≠ []

theorem intake_spec {res : Bytes × Bool} (opened : c.isClosed = false) (waits : c.state = .handshaking → L.Waits c.record)
    (h : intake codec c input now = (.ok res, c')) : Outcome L c c' input ∧ (input = [] → res.1 = []) := by
  unfold intake at h
  generalize read : handleTransportData c.record input now = taken at h
  obtain ⟨taken, record⟩ := taken
  cases taken with
  | failed => cases h
  | done | pending n =>
    simp only at h
    cases state : c.state with
    | closed =>
      rw [isClosed, state] at opened
      cases opened
    | validated p =>
      simp only [tryValidate, state] at h
      obtain ⟨rest, rfl⟩ := Prod.mk.inj h
      cases rest
      exact ⟨.inl ⟨p, state, rfl⟩, fun empty => by simp [empty]⟩
    | handshaking =>
      have kept := L.read (waits state) read (by simp)
      simp only [tryValidate, state] at h
      by_cases busy : isHandshaking (readPlaintext record).2 = true
      · rw [if_pos busy] at h
        obtain ⟨rest, rfl⟩ := Prod.mk.inj h
        cases rest
        have unready : ready (readPlaintext record).2 = false := by rw [ready, busy]; rfl
        exact ⟨.inr (.inl ⟨state, rfl, kept unready⟩), fun empty => by simp [empty]⟩
      · rw [if_neg busy] at h
        cases identity : peerIdentity (readPlaintext record).2 with
        | none =>
          simp only [identity] at h
          obtain ⟨rest, rfl⟩ := Prod.mk.inj h
          cases rest
          have unready : ready (readPlaintext record).2 = false := by rw [ready, identity]; exact Bool.and_false _
          exact ⟨.inr (.inl ⟨state, rfl, kept unready⟩), fun empty => by simp [empty]⟩
        | some name =>
          simp only [identity] at h
          cases decoded : codec.decodeId name with
          | none =>
            simp only [decoded] at h
            cases h
          | some p =>
            simp only [decoded] at h
            obtain ⟨rest, rfl⟩ := Prod.mk.inj h
            cases rest
            have is_ready : ready (readPlaintext record).2 = true := by
              rw [ready, identity, Bool.eq_false_iff.mpr busy]
              rfl
            refine ⟨.inr (.inr ⟨p, state, rfl, fun empty => ?_⟩), fun empty => by simp [empty]⟩
            rw [empty] at read
            have unready := L.idle (waits state) read (by simp)
            rw [is_ready] at unready
            exact absurd unready (by decide)

theorem Outcome.opened (h : Outcome L c c' bytes) : c'.isClosed = false := by
  unfold isClosed
  obtain ⟨p, -, state⟩ | ⟨-, state, -⟩ | ⟨p, -, state, -⟩ := h <;> rw [state]

theorem Outcome.waits (h : Outcome L c c' bytes) (state : c'.state = .handshaking) : L.Waits c'.record := by
  obtain ⟨p, -, other⟩ | ⟨-, -, waits⟩ | ⟨p, -, other, -⟩ := h
  · rw [state] at other
    cases other
  · exact waits
  · rw [state] at other
    cases other

theorem Outcome.trans (h : Outcome L c c₁ bytes) (k : Outcome L c₁ c' input) (some_read : bytes ≠ []) :
    Outcome L c c' bytes := by
  obtain ⟨p, before, state⟩ | ⟨before, state, -⟩ | ⟨p, before, state, -⟩ := h
  · obtain ⟨q, same, after⟩ | ⟨other, -⟩ | ⟨q, other, -⟩ := k
    · rw [state] at same
      cases same
      exact .inl ⟨p, before, after⟩
    · rw [state] at other
      cases other
    · rw [state] at other
      cases other
  · obtain ⟨q, other, -⟩ | ⟨-, after, waits⟩ | ⟨q, -, after, -⟩ := k
    · rw [state] at other
      cases other
    · exact .inr (.inl ⟨before, after, waits⟩)
    · exact .inr (.inr ⟨q, before, after, some_read⟩)
  · obtain ⟨q, same, after⟩ | ⟨other, -⟩ | ⟨q, other, -⟩ := k
    · rw [state] at same
      cases same
      exact .inr (.inr ⟨p, before, after, some_read⟩)
    · rw [state] at other
      cases other
    · rw [state] at other
      cases other

theorem intakeLoop_spec (fuel : Nat) (c : Conn I R) (input : Bytes) (opened : c.isClosed = false)
    (waits : c.state = .handshaking → L.Waits c.record) (h : intakeLoop codec fuel c input now = (.ok (), c')) :
    Outcome L c c' input := by
  induction fuel generalizing c input with
  | zero => cases h
  | succ fuel ih =>
    unfold intakeLoop at h
    generalize round : intake codec c input now = res at h
    obtain ⟨res, c₁⟩ := res
    cases res with
    | error => cases h
    | ok res =>
      obtain ⟨outcome, empty⟩ := intake_spec opened waits round
      obtain ⟨rest, progress⟩ := res
      simp only at h empty
      split at h
      · exact (Prod.mk.inj h).2 ▸ outcome
      next more =>
      split at h
      · cases h
      · exact outcome.trans (ih c₁ rest outcome.opened outcome.waits h) fun none_read => more (empty none_read)

theorem handleData_spec {eof : Bool} (opened : c.isClosed = false) (waits : c.state = .handshaking → L.Waits c.record)
    (h : c.handleData codec bytes eof now = (.ok (), c')) : c'.isClosed = true ∨ Outcome L c c' bytes := by
  unfold handleData at h
  rw [if_neg (by rw [opened]; decide)] at h
  generalize loop : intakeLoop codec _ c bytes now = res at h
  obtain ⟨res, c₁⟩ := res
  cases res with
  | error => cases h
  | ok =>
    simp only at h
    have outcome := intakeLoop_spec _ c bytes opened waits loop
    rw [← (Prod.mk.inj h).2]
    split
    · exact .inl rfl
    · exact .inr outcome

theorem waits_offer (fuel : Nat) (record : R) (bytes : Bytes) (waits : L.Waits record) : L.Waits (offer fuel record bytes).2 := by
  induction fuel generalizing record bytes with
  | zero => exact waits
  | succ fuel ih =>
    unfold offer
    split
    · exact waits
    simp only
    split
    · exact L.write bytes waits
    · exact ih _ _ (L.write bytes waits)

theorem waits_pollTransmit (waits : L.Waits c.record) : L.Waits c.pollTransmit.2.record :=
  L.transmit (waits_offer _ _ _ waits)

end Conn

/-! ## Settled rows -/

namespace Row

/-- A row between calls. -/
inductive Settled (L : Layer R) : Row I R → Prop
  | absent : Settled L empty
  | waiting {c : Conn I R} {deadline : Instant} {provenance : Provenance I} (state : c.state = .handshaking)
      (waits : L.Waits c.record) : Settled L ⟨some c, some deadline, none, none, some provenance⟩
  | routed {c : Conn I R} {p : I} {idle probe : Instant} {provenance : Provenance I} (state : c.state = .validated p) :
      Settled L ⟨some c, none, some idle, some probe, some provenance⟩

variable {row : Row I R}

theorem Settled.opened (h : Settled L row) {c : Conn I R} (here : row.conn = some c) : c.isClosed = false := by
  unfold Conn.isClosed
  cases h with
  | absent => cases here
  | waiting state waits | routed state =>
    cases here
    rw [state]

theorem Settled.waits (h : Settled L row) {c : Conn I R} (here : row.conn = some c) (state : c.state = .handshaking) :
    L.Waits c.record := by
  cases h with
  | absent => cases here
  | waiting _ waits =>
    cases here
    exact waits
  | routed other =>
    cases here
    rw [state] at other
    cases other

theorem Settled.eq_empty (h : Settled L row) (gone : row.conn = none) : row = empty := by
  cases h with
  | absent => rfl
  | waiting | routed => cases gone

end Row

namespace PeerRouter

variable {r r' r₁ r₂ : PeerRouter I R} {id : ConnId}

/-- The row of `a` is settled, and `peerOf` names it for its peer only. -/
def SettledAt (L : Layer R) (r : PeerRouter I R) (a : ConnId) : Prop :=
  (r.row a).Settled L ∧ ∀ p, r.peerOf p = some a ↔ (r.row a).peer = some p

/-- The tables between calls. -/
def Tables (L : Layer R) (r : PeerRouter I R) : Prop := ∀ a, SettledAt L r a

/-- The tables while `id` is being handled. -/
def Around (L : Layer R) (id : ConnId) (r : PeerRouter I R) : Prop := ∀ a, a ≠ id → SettledAt L r a

theorem Tables.around (h : Tables L r) (id : ConnId) : Around L id r := fun a _ => h a

theorem SettledAt.congr {a : ConnId} (h : SettledAt L r a) (rows : r'.row a = r.row a)
    (peers : ∀ p, r'.peerOf p = some a ↔ r.peerOf p = some a) : SettledAt L r' a := by
  unfold SettledAt
  rw [rows]
  exact ⟨h.1, fun p => (peers p).trans (h.2 p)⟩

theorem Around.congr (h : Around L id r) (rows : ∀ a, a ≠ id → r'.row a = r.row a)
    (peers : ∀ a, a ≠ id → ∀ p, r'.peerOf p = some a ↔ r.peerOf p = some a) : Around L id r' :=
  fun a other => (h a other).congr (rows a other) (peers a other)

theorem Around.settle (h : Around L id r) (here : SettledAt L r id) : Tables L r := by
  intro a
  by_cases same : a = id
  · rw [same]
    exact here
  · exact h a same

/-- Dropping the connection being handled restores the tables. -/
theorem Around.remove (h : Around L id r) : Tables L (r.remove id) := by
  refine Around.settle (h.congr ?_ ?_) ⟨?_, ?_⟩
  · intro a other
    rw [row_remove, if_neg other]
  · intro a other p
    rw [peerOf_remove]
    exact ⟨And.right, fun same => ⟨other, same⟩⟩
  · rw [row_remove, if_pos rfl]
    exact .absent
  · intro p
    rw [peerOf_remove, row_remove, if_pos rfl]
    constructor
    · rintro ⟨other, -⟩
      exact absurd rfl other
    · intro impossible
      cases impossible

theorem Around.removeInternal (h : Around L id r) (reason : Option TransportError) :
    Tables L (r.removeInternal id reason) := fun a => Around.remove h a

end PeerRouter

end Sailing.Transport
