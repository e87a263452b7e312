import Sailing.Transport.Tables

/-!
# Drops and their reports

`Drops r r' new` says that between `r` and `r'` connections were only dropped, and that `new`,
what was added to the queue of closed connections, names each dropped one once. Every call but
the driver's own registrations and removals is such a step between settled tables (`Served`).
-/

namespace Sailing.Transport

variable {I R Msg : Type}

namespace PeerRouter

variable {r r' r₁ r₂ : PeerRouter I R} {id : ConnId}

abbrev Report := ConnId × Option TransportError

structure Drops (r r' : PeerRouter I R) (new : List Report) : Prop where
  queue : r'.closed = r.closed ++ new
  once : (new.map Prod.fst).Nodup
  exact : ∀ a, a ∈ new.map Prod.fst ↔ Live r a ∧ ¬ Live r' a
  shrink : ∀ a, Live r' a → Live r a

theorem Drops.of_same (queue : r'.closed = r.closed) (lives : ∀ a, Live r' a ↔ Live r a) : Drops r r' [] := by
  refine ⟨by rw [queue, List.append_nil], List.nodup_nil, fun a => ?_, fun a => (lives a).mp⟩
  rw [lives a]
  simp

theorem Drops.trans {new more : List Report} (h : Drops r r₁ new) (k : Drops r₁ r₂ more) : Drops r r₂ (new ++ more) := by
  refine ⟨by rw [k.queue, h.queue, List.append_assoc], ?_, fun a => ?_, fun a live => h.shrink a (k.shrink a live)⟩
  · rw [List.map_append]
    refine List.nodup_append.mpr ⟨h.once, k.once, fun a first b second same => ?_⟩
    -- what was dropped first is not there to be dropped again
    rw [← same] at second
    exact ((h.exact a).mp first).2 ((k.exact a).mp second).1
  · have first := h.exact a
    have second := k.exact a
    have back := h.shrink a
    have back' := k.shrink a
    rw [List.map_append, List.mem_append]
    tauto

theorem live_removeInternal (reason : Option TransportError) (a : ConnId) :
    Live (r.removeInternal id reason) a ↔ a ≠ id ∧ Live r a := by
  unfold Live
  rw [row_removeInternal]
  by_cases same : a = id
  · rw [if_pos same]
    simp [same, Row.empty]
  · rw [if_neg same]
    simp [same]

theorem drops_removeInternal (here : Live r id) (reason : Option TransportError) :
    Drops r (r.removeInternal id reason) [(id, reason)] := by
  refine ⟨rfl, List.nodup_singleton _, fun a => ?_, fun a live => ((live_removeInternal reason a).mp live).2⟩
  rw [live_removeInternal]
  simp only [List.map_cons, List.map_nil, List.mem_singleton]
  constructor
  · intro same
    rw [same]
    exact ⟨here, fun both => both.1 rfl⟩
  · rintro ⟨live, gone⟩
    by_contra other
    exact gone ⟨other, live⟩

variable {c : Conn I R}

theorem drops_conns {c' : Conn I R} (here : r.conns[id]? = some c) :
    Drops r { r with conns := r.conns.insert id c' } [] := by
  refine Drops.of_same rfl fun a => ?_
  unfold Live
  rw [row_conns]
  split
  · next same =>
    show true = true ↔ (r.conns[a]?).isSome = true
    rw [same, here]
    simp
  · exact Iff.rfl

variable [RecordIo R] {L : Layer R}

/-- A call between settled tables that reports each connection it drops once. -/
def Served (L : Layer R) (r r' : PeerRouter I R) : Prop := Tables L r' ∧ ∃ new, Drops r r' new

theorem Tables.served (h : Tables L r) : Served L r r := ⟨h, [], .of_same rfl fun _ => Iff.rfl⟩

theorem Served.trans (h : Served L r r₁) (k : Served L r₁ r₂) : Served L r r₂ := by
  obtain ⟨-, new, drops⟩ := h
  obtain ⟨tables, more, drops'⟩ := k
  exact ⟨tables, new ++ more, drops.trans drops'⟩

theorem Around.served {new : List Report} (h : Around L id r₁) (drops : Drops r r₁ new) (here : Live r₁ id)
    (reason : Option TransportError) : Served L r (r₁.removeInternal id reason) :=
  ⟨h.removeInternal reason, _, drops.trans (drops_removeInternal here reason)⟩

/-! ## Deadlines -/

theorem nodup_expired (deadlines : Std.TreeMap ConnId Instant) (now : Instant) : (expired deadlines now).Nodup := by
  have keys : (deadlines.toList.map Prod.fst).Nodup := by
    rw [Std.TreeMap.map_fst_toList_eq_keys]
    exact Std.TreeMap.nodup_keys
  exact keys.sublist (List.filter_sublist.map _)

theorem mem_expired {deadlines : Std.TreeMap ConnId Instant} {now : Instant} (h : id ∈ expired deadlines now) :
    ∃ t, deadlines[id]? = some t := by
  obtain ⟨⟨a, t⟩, mem, rfl⟩ := List.mem_map.mp h
  exact ⟨t, Std.TreeMap.mem_toList_iff_getElem?_eq_some.mp (List.mem_filter.mp mem).1⟩

theorem served_removeAll {reason : Option TransportError} (ids : List ConnId) (distinct : ids.Nodup)
    (live : ∀ id ∈ ids, Live r id) (tables : Tables L r) :
    Served L r (ids.foldl (fun r id => r.removeInternal id reason) r) := by
  induction ids generalizing r with
  | nil => exact tables.served
  | cons id ids ih =>
    obtain ⟨fresh, rest⟩ := List.nodup_cons.mp distinct
    have first : Served L r (r.removeInternal id reason) :=
      (tables.around id).served (.of_same rfl fun _ => Iff.rfl) (live id List.mem_cons_self) reason
    refine first.trans (ih rest (fun a mem => ?_) first.1)
    exact (live_removeInternal reason a).mpr ⟨fun same => fresh (same ▸ mem), live a (List.mem_cons_of_mem _ mem)⟩

/-- A deadline belongs to a connection in the table. -/
theorem Tables.live_of_handshake (h : Tables L r) {t : Instant} (here : r.handshakeDeadline[id]? = some t) : Live r id := by
  have settled := (h id).1
  have same : (r.row id).handshake = some t := here
  unfold Live
  generalize r.row id = row at settled same
  cases settled with
  | absent => cases same
  | waiting => rfl
  | routed => cases same

/-- An idle or a probe deadline belongs to a validated connection. -/
theorem Tables.validated_of_deadline (h : Tables L r)
    (here : (r.idleDeadline[id]?).isSome ∨ (r.probeDeadline[id]?).isSome) :
    Live r id ∧ ∀ c, r.conns[id]? = some c → ∃ p, c.state = .validated p := by
  have settled := (h id).1
  have same : (r.row id).idle.isSome ∨ (r.row id).probe.isSome := here
  show Live r id ∧ ∀ c, (r.row id).conn = some c → _
  unfold Live
  generalize r.row id = row at settled same
  cases settled with
  | absent | waiting =>
    obtain same | same := same
    · cases same
    · cases same
  | routed state => exact ⟨rfl, fun c here => by cases here; exact ⟨_, state⟩⟩

theorem served_reapHandshakes (tables : Tables L r) (now : Instant) : Served L r (r.reapHandshakes now) := by
  refine served_removeAll _ (nodup_expired _ _) (fun id mem => ?_) tables
  obtain ⟨t, here⟩ := mem_expired mem
  exact tables.live_of_handshake here

/-! ## Sends -/

theorem served_use {c' : Conn I R} {p : I} (tables : Tables L r) (here : r.conns[id]? = some c)
    (state : c.state = .validated p) (sent : Conn.Sent c c') :
    Served L r (if c'.isClosed then { r with conns := r.conns.insert id c' }.removeInternal id none
      else { r with conns := r.conns.insert id c' }) := by
  have around : Around L id { r with conns := r.conns.insert id c' } :=
    (tables.around id).congr (fun a other => by rw [row_conns, if_neg other]) fun _ _ _ => Iff.rfl
  have live : Live { r with conns := r.conns.insert id c' } id := by
    unfold Live
    rw [row_conns, if_pos rfl]
    rfl
  split
  · exact around.served (drops_conns here) live none
  next opened =>
  obtain same | closed := sent
  · refine ⟨around.settle ⟨?_, fun q => ?_⟩, [], drops_conns here⟩
    · have settled := (tables id).1
      have conn : (r.row id).conn = some c := here
      rw [row_conns, if_pos rfl]
      generalize r.row id = row at settled conn
      cases settled with
      | absent => cases conn
      | waiting other =>
        cases conn
        rw [state] at other
        cases other
      | routed => exact .routed (same.trans state)
    · have peers := (tables id).2 q
      have before : (r.row id).peer = some p := by
        show (r.conns[id]?).bind Conn.peer = some p
        rw [here]
        exact Conn.peer_of_validated state
      rw [row_conns, if_pos rfl]
      show _ ↔ c'.peer = some q
      rw [Conn.peer_of_validated (same.trans state), ← before]
      exact peers
  · exact absurd closed opened

theorem Tables.validated_of_peerOf {p : I} (h : Tables L r) (named : r.peerOf p = some id)
    (here : r.conns[id]? = some c) : c.state = .validated p := by
  have peer : (r.row id).peer = some p := ((h id).2 p).mp named
  have opened := (h id).1.opened (show (r.row id).conn = some c from here)
  have bound : c.peer = some p := by
    have : (r.conns[id]?).bind Conn.peer = some p := peer
    rwa [here] at this
  unfold Conn.peer at bound
  unfold Conn.isClosed at opened
  cases state : c.state with
  | handshaking => rw [state] at bound; cases bound
  | validated => rw [state] at bound; cases bound; rfl
  | closed => rw [state] at opened; cases opened

theorem served_routeWith {send : Conn I R → Conn I R} (tables : Tables L r) (dest : I) (sent : ∀ c, Conn.Sent c (send c)) :
    Served L r (r.routeWith dest send) := by
  unfold routeWith
  split
  · exact tables.served
  next id named =>
  split
  · exact tables.served
  · next c here => exact served_use tables here (tables.validated_of_peerOf named here) (sent c)

theorem Tables.probeDeadline (h : Tables L r) (t : Instant) {p : I} (here : r.conns[id]? = some c)
    (state : c.state = .validated p) : Tables L { r with probeDeadline := r.probeDeadline.insert id t } := by
  have rows : ∀ a, row { r with probeDeadline := r.probeDeadline.insert id t } a =
      if a = id then { r.row a with probe := some t } else r.row a := by
    intro a
    unfold row
    rw [getElem?_insert]
    split <;> rfl
  refine Around.settle ((h.around id).congr (fun a other => ?_) fun _ _ _ => Iff.rfl) ⟨?_, fun q => ?_⟩
  · rw [rows, if_neg other]
  · have settled := (h id).1
    have conn : (r.row id).conn = some c := here
    rw [rows, if_pos rfl]
    generalize r.row id = row at settled conn
    cases settled with
    | absent => cases conn
    | waiting other =>
      cases conn
      rw [state] at other
      cases other
    | routed state => exact .routed state
  · rw [rows, if_pos rfl]
    exact (h id).2 q

theorem served_probe (now : Instant) (tables : Tables L r) (validated : ∀ c, r.conns[id]? = some c → ∃ p, c.state = .validated p) :
    Served L r (r.probe now id) := by
  unfold probe
  split
  · exact tables.served
  next c here =>
  obtain ⟨p, state⟩ := validated c here
  have used := served_use tables here state (Conn.sent_sendProbe (c := c))
  simp only
  split
  · next closed =>
    rw [if_pos closed] at used
    exact used
  next opened =>
  rw [if_neg opened] at used
  obtain ⟨tables, new, drops⟩ := used
  have kept : c.sendProbe.state = .validated p := by
    obtain same | closed := Conn.sent_sendProbe (c := c)
    · exact same.trans state
    · exact absurd closed opened
  refine ⟨tables.probeDeadline _ (c := c.sendProbe) ?_ kept, new, ⟨drops.queue, drops.once, drops.exact, drops.shrink⟩⟩
  rw [getElem?_insert, if_pos rfl]

theorem served_probes (now : Instant) (ids : List ConnId) (tables : Tables L r)
    (validated : ∀ id ∈ ids, ∀ c, r.conns[id]? = some c → ∃ p, c.state = .validated p) :
    Served L r (ids.foldl (probe now) r) := by
  induction ids generalizing r with
  | nil => exact tables.served
  | cons id ids ih =>
    have first := served_probe now tables (validated id List.mem_cons_self)
    refine first.trans (ih first.1 fun a mem c' here' => ?_)
    -- what is still there is in the state it was in
    obtain ⟨-, c, here, same⟩ := (shrinks_probe now r id).kept a c' here'
    obtain ⟨p, state⟩ := validated a (List.mem_cons_of_mem _ mem) c here
    exact ⟨p, same.trans state⟩

theorem served_serviceLiveness (tables : Tables L r) (now : Instant) : Served L r (r.serviceLiveness now) := by
  have reaped : Served L r ((expired r.idleDeadline now).foldl (fun r id => r.removeInternal id (some .idleTimeout)) r) := by
    refine served_removeAll _ (nodup_expired _ _) (fun id mem => ?_) tables
    obtain ⟨t, here⟩ := mem_expired mem
    exact (tables.validated_of_deadline (.inl (by rw [here]; rfl))).1
  refine reaped.trans (served_probes now _ reaped.1 fun id mem => ?_)
  obtain ⟨t, here⟩ := mem_expired (List.mem_filter.mp mem).1
  exact (reaped.1.validated_of_deadline (.inr (by rw [here]; rfl))).2

theorem served_pollTransmit (tables : Tables L r) : Served L r r.pollTransmit := by
  have rows : ∀ a, r.pollTransmit.row a = { r.row a with conn := (r.row a).conn.map fun c => c.pollTransmit.2 } := by
    intro a
    unfold row pollTransmit
    simp only [Std.TreeMap.getElem?_map]
  refine ⟨fun a => ⟨?_, fun p => ?_⟩, [], .of_same rfl fun a => ?_⟩
  · have settled := (tables a).1
    rw [rows]
    generalize r.row a = row at settled
    cases settled with
    | absent => exact .absent
    | waiting state waits => exact .waiting state (Conn.waits_pollTransmit waits)
    | routed state => exact .routed state
  · have same : (r.pollTransmit.row a).peer = (r.row a).peer := by
      rw [rows]
      show ((r.row a).conn.map _).bind Conn.peer = (r.row a).conn.bind Conn.peer
      cases (r.row a).conn <;> rfl
    rw [same]
    exact (tables a).2 p
  · unfold Live
    rw [rows]
    exact Iff.of_eq (congrArg (· = true) (Option.isSome_map ..))

/-! ## Registrations and removals -/

/-- A connection is registered: it is new to the table, or the attempt is reported. -/
theorem tables_register {provenance : Provenance I} {record : R} {now : Instant} (tables : Tables L r)
    (waits : L.Waits record) : Tables L (r.register id provenance record now) := by
  unfold register
  by_cases known : r.conns.contains id = true
  · rw [if_pos known]
    exact tables
  rw [if_neg known]
  have absent : (r.row id).conn = none := by
    show r.conns[id]? = none
    rw [Std.TreeMap.contains_eq_isSome_getElem?] at known
    exact Option.not_isSome_iff_eq_none.mp known
  have before : r.row id = .empty := (tables id).1.eq_empty absent
  have rows : ∀ a, row { r with
      conns := r.conns.insert id (Conn.new record)
      handshakeDeadline := r.handshakeDeadline.insert id (now + handshakeTimeout)
      provenance := r.provenance.insert id provenance } a =
      if a = id then ⟨some (Conn.new record), some (now + handshakeTimeout), (r.row a).idle, (r.row a).probe, some provenance⟩
      else r.row a := by
    intro a
    unfold row
    simp only [getElem?_insert]
    split <;> rfl
  refine Around.settle ((tables.around id).congr (fun a other => ?_) fun _ _ _ => Iff.rfl) ⟨?_, fun p => ?_⟩
  · rw [rows, if_neg other]
  · rw [rows, if_pos rfl, before]
    exact .waiting rfl waits
  · rw [rows, if_pos rfl]
    have none_named := (tables id).2 p
    rw [before] at none_named
    exact none_named

/-! ## Reads -/

theorem Around.removeOther {prev : ConnId} (h : Around L id r) (other : prev ≠ id) (reason : Option TransportError) :
    Around L id (r.removeInternal prev reason) ∧ (r.removeInternal prev reason).row id = r.row id ∧
      ∀ p, (r.removeInternal prev reason).peerOf p = some id ↔ r.peerOf p = some id := by
  refine ⟨fun a here => ?_, ?_, fun p => ?_⟩
  · by_cases dropped : a = prev
    · rw [dropped]
      refine ⟨?_, fun p => ?_⟩
      · rw [row_removeInternal, if_pos rfl]
        exact .absent
      · rw [row_removeInternal, if_pos rfl]
        constructor
        · intro named
          exact absurd rfl (((peerOf_remove p).mp named).1)
        · intro impossible
          cases impossible
    · refine (h a here).congr ?_ fun p => ?_
      · rw [row_removeInternal, if_neg dropped]
      · exact (peerOf_remove p).trans ⟨And.right, fun named => ⟨dropped, named⟩⟩
  · rw [row_removeInternal, if_neg other.symm]
  · exact (peerOf_remove p).trans ⟨And.right, fun named => ⟨other.symm, named⟩⟩

/-- The row of a connection that was just bound to `p`; its idle deadline is not set yet. -/
structure Bound (L : Layer R) (r : PeerRouter I R) (id : ConnId) (p : I) (c : Conn I R) (idle : Option Instant) : Prop where
  around : Around L id r
  state : c.state = .validated p
  row : ∃ probe provenance, r.row id = ⟨some c, none, idle, some probe, some provenance⟩
  named : ∀ q, r.peerOf q = some id ↔ q = p

/-- The handshake of a connection is over. -/
def endHandshake (r : PeerRouter I R) (id : ConnId) : PeerRouter I R :=
  { r with handshakeDeadline := r.handshakeDeadline.erase id }

omit [RecordIo R] in
theorem row_endHandshake (a : ConnId) :
    (r.endHandshake id).row a = if a = id then { r.row a with handshake := none } else r.row a := by
  unfold row endHandshake
  rw [getElem?_erase]
  split <;> rfl

section

variable [LinearOrder I] {p : I} {c : Conn I R} {idle probe : Option Instant} {provenance : Provenance I}
variable {prev : ConnId} {now : Instant}

/-- `id` becomes the connection to `p`; `first` when it was in its handshake. -/
def bindTo (r : PeerRouter I R) (id : ConnId) (p : I) (now : Instant) (first : Bool) : PeerRouter I R :=
  { r with
    peerOf := fun q => if q = p then some id else r.peerOf q
    probeDeadline := if first then r.probeDeadline.insert id (now + probeInterval) else r.probeDeadline }

omit [RecordIo R] in
theorem bindPeer_free (now : Instant) (own : r.localId ≠ some p) (cross : r.crossed id p = false)
    (free : r.peerOf p = none ∨ r.peerOf p = some id) :
    r.bindPeer id p now = (true, (r.endHandshake id).bindTo id p now (r.handshakeDeadline.contains id)) := by
  unfold bindPeer
  rw [if_neg own, if_neg (by rw [cross]; decide)]
  obtain none_held | mine := free
  · simp only [none_held]
    rfl
  · simp only [mine, if_true]
    rfl

omit [RecordIo R] in
theorem bindPeer_lost (now : Instant) (own : r.localId ≠ some p) (cross : r.crossed id p = false) (held : r.peerOf p = some prev)
    (other : prev ≠ id) (lost : r.duplicateWinner id prev p = prev) :
    r.bindPeer id p now = (false, (r.endHandshake id).removeInternal id none) := by
  have same : (r.endHandshake id).duplicateWinner id prev p = prev := lost
  unfold endHandshake at same
  unfold bindPeer
  rw [if_neg own, if_neg (by rw [cross]; decide)]
  simp only [held, if_neg other, same, if_true]
  rfl

omit [RecordIo R] in
theorem bindPeer_won (now : Instant) (own : r.localId ≠ some p) (cross : r.crossed id p = false) (held : r.peerOf p = some prev)
    (other : prev ≠ id) (won : r.duplicateWinner id prev p ≠ prev) :
    r.bindPeer id p now =
      (true, ((r.endHandshake id).removeInternal prev none).bindTo id p now (r.handshakeDeadline.contains id)) := by
  have same : ¬ (r.endHandshake id).duplicateWinner id prev p = prev := won
  unfold endHandshake at same
  unfold bindPeer
  rw [if_neg own, if_neg (by rw [cross]; decide)]
  simp only [held, if_neg other, if_neg same]
  rfl

/-- The binding of a connection whose handshake deadline is gone. -/
theorem bound_bindTo {first : Bool} (around : Around L id r) (state : c.state = .validated p)
    (here : r.row id = ⟨some c, none, idle, probe, some provenance⟩) (probed : first = false → probe.isSome)
    (mine : ∀ q, r.peerOf q = some id → q = p) (free : ∀ a, a ≠ id → r.peerOf p ≠ some a) :
    Bound L (r.bindTo id p now first) id p c idle := by
  refine ⟨around.congr (fun a other => ?_) fun a other q => ?_, state, ?_, fun q => ?_⟩
  · unfold PeerRouter.row bindTo
    cases first with
    | false => rfl
    | true => simp only [if_true, getElem?_insert, if_neg other]
  · show (if q = p then some id else r.peerOf q) = some a ↔ _
    split
    · next same =>
      rw [same]
      constructor
      · intro this
        exact absurd (Option.some.inj this).symm other
      · intro this
        exact absurd this (free a other)
    · exact Iff.rfl
  · cases first with
    | false =>
      obtain ⟨t, some_probe⟩ := Option.isSome_iff_exists.mp (probed rfl)
      exact ⟨t, provenance, by rw [← some_probe]; exact here⟩
    | true =>
      refine ⟨now + probeInterval, provenance, ?_⟩
      obtain ⟨conn, handshake, idle_eq, -, prov⟩ := Row.mk.inj here
      unfold PeerRouter.row bindTo
      simp only [if_true, getElem?_insert, conn, handshake, idle_eq, prov]
  · show (if q = p then some id else r.peerOf q) = some id ↔ _
    split
    · next same => exact ⟨fun _ => same, fun _ => rfl⟩
    · next other => exact ⟨mine q, fun same => absurd same other⟩

omit [RecordIo R] in
theorem drops_bindTo {first : Bool} : Drops r (r.bindTo id p now first) [] := .of_same rfl fun _ => Iff.rfl

omit [RecordIo R] [LinearOrder I] in
theorem drops_endHandshake : Drops r (r.endHandshake id) [] := .of_same rfl fun _ => Iff.rfl

theorem bindPeer_cases {handshake : Option Instant} (now : Instant) (around : Around L id r) (state : c.state = .validated p)
    (here : r.row id = ⟨some c, handshake, idle, probe, some provenance⟩) (probed : handshake = none → probe.isSome)
    (mine : ∀ q, r.peerOf q = some id → q = p) :
    (∃ r' new, r.bindPeer id p now = (false, r') ∧ Tables L r' ∧ ¬ Live r' id ∧ Drops r r' new) ∨
      ∃ r' new, r.bindPeer id p now = (true, r') ∧ Bound L r' id p c idle ∧ Drops r r' new := by
  have live : Live r id := by
    unfold Live
    rw [here]
    rfl
  have gone (s : PeerRouter I R) (reason : Option TransportError) : ¬ Live (s.removeInternal id reason) id := by
    rw [live_removeInternal]
    exact fun both => both.1 rfl
  by_cases own : r.localId = some p
  · refine .inl ⟨_, _, ?_, around.removeInternal (some .selfIdentity), gone r _, drops_removeInternal live _⟩
    rw [bindPeer, if_pos own]
  cases cross : r.crossed id p with
  | true =>
    refine .inl ⟨_, _, ?_, around.removeInternal (some .unexpectedPeer), gone r _, drops_removeInternal live _⟩
    rw [bindPeer, if_neg own, if_pos cross]
  | false =>
    have first : r.handshakeDeadline.contains id = false → probe.isSome := by
      intro none_left
      have same : r.handshakeDeadline[id]? = handshake := congrArg Row.handshake here
      rw [Std.TreeMap.contains_eq_isSome_getElem?, same] at none_left
      exact probed (Option.isNone_iff_eq_none.mp (Option.isSome_eq_false_iff.mp none_left))
    have ended : Around L id (r.endHandshake id) :=
      around.congr (fun a other => by rw [row_endHandshake, if_neg other]) fun _ _ _ => Iff.rfl
    have done : (r.endHandshake id).row id = ⟨some c, none, idle, probe, some provenance⟩ := by
      rw [row_endHandshake, if_pos rfl, here]
    have free_case (free : r.peerOf p = none ∨ r.peerOf p = some id) :
        ∃ r' new, r.bindPeer id p now = (true, r') ∧ Bound L r' id p c idle ∧ Drops r r' new := by
      refine ⟨_, _, bindPeer_free now own cross free, bound_bindTo ended state done first mine fun a other => ?_,
        drops_endHandshake.trans drops_bindTo⟩
      show r.peerOf p ≠ some a
      obtain none_held | held := free
      · rw [none_held]
        simp
      · rw [held]
        exact fun same => other (Option.some.inj same).symm
    cases held : r.peerOf p with
    | none => exact .inr (free_case (.inl held))
    | some prev =>
      by_cases same : prev = id
      · exact .inr (free_case (.inr (same ▸ held)))
      by_cases lost : r.duplicateWinner id prev p = prev
      · exact .inl ⟨_, _, bindPeer_lost now own cross held same lost, ended.removeInternal none, gone _ none,
          drops_endHandshake.trans (drops_removeInternal (r := r.endHandshake id) live none)⟩
      -- the connection that was bound is in the table, so that its drop is a report
      have bound_before : Live (r.endHandshake id) prev := by
        have peer := ((around prev same).2 p).mp held
        unfold Row.peer at peer
        unfold Live
        rw [row_endHandshake, if_neg same]
        cases conn : (r.row prev).conn with
        | none => rw [conn] at peer; cases peer
        | some => rfl
      obtain ⟨around', row', names'⟩ := ended.removeOther same none
      refine .inr ⟨_, _, bindPeer_won now own cross held same lost,
        bound_bindTo around' state (row'.trans done) first (fun q named => mine q ((names' q).mp named)) fun a other named => ?_,
        drops_endHandshake.trans ((drops_removeInternal bound_before none).trans drops_bindTo)⟩
      obtain ⟨not_prev, named⟩ := (peerOf_remove p).mp named
      have : some prev = some a := held.symm.trans named
      exact not_prev (Option.some.inj this).symm

/-! ### A whole read -/

variable {codec : Codec I Msg} {bytes : Bytes} {eof : Bool} {out : List (Delivery I Msg)}

/-- The router inside a read of `id`, when the connection's data is handled. -/
inductive Handled (L : Layer R) (r : PeerRouter I R) (id : ConnId) (bytes : Bytes) :
    Except TransportError (List (Delivery I Msg)) → PeerRouter I R → Prop
  | failed {r' : PeerRouter I R} {new : List Report} (e : TransportError) (around : Around L id r') (live : Live r' id)
      (drops : Drops r r' new) : Handled L r id bytes (.error e) r'
  | gone {r' : PeerRouter I R} {new : List Report} (out : List (Delivery I Msg)) (tables : Tables L r') (dead : ¬ Live r' id)
      (drops : Drops r r' new) : Handled L r id bytes (.ok out) r'
  | closed {r' : PeerRouter I R} {new : List Report} {c : Conn I R} (out : List (Delivery I Msg)) (around : Around L id r')
      (here : r'.conns[id]? = some c) (shut : c.isClosed = true) (drops : Drops r r' new) : Handled L r id bytes (.ok out) r'
  | waiting {r' : PeerRouter I R} {new : List Report} {c : Conn I R} (out : List (Delivery I Msg)) (tables : Tables L r')
      (here : r'.conns[id]? = some c) (state : c.state = .handshaking) (drops : Drops r r' new) :
      Handled L r id bytes (.ok out) r'
  | bound {r' : PeerRouter I R} {new : List Report} {c : Conn I R} {p : I} {idle : Option Instant}
      (out : List (Delivery I Msg)) (bound : Bound L r' id p c idle) (fed : bytes = [] → idle.isSome) (drops : Drops r r' new) :
      Handled L r id bytes (.ok out) r'

omit [RecordIo R] [LinearOrder I] in
theorem deliver_cases {res : Except TransportError (List (Delivery I Msg))}
    (here : r.conns[id]? = some c) (h : r.deliver codec id = (res, r')) :
    ∃ c', r' = { r with conns := r.conns.insert id c' } ∧ ((∃ e, res = .error e) ∨ ∃ out, res = .ok out ∧ c'.state = c.state ∧
      (c.peer = none → c' = c)) := by
  unfold deliver at h
  rw [here] at h
  simp only at h
  cases polled : c.pollDecoded codec with
  | mk msgs c' =>
    rw [polled] at h
    cases msgs with
    | error e =>
      obtain ⟨rfl, rfl⟩ := Prod.mk.inj h
      exact ⟨c', rfl, .inl ⟨e, rfl⟩⟩
    | ok =>
      obtain ⟨rfl, rfl⟩ := Prod.mk.inj h
      refine ⟨c', rfl, .inr ⟨_, rfl, Conn.pollDecoded_state polled, fun unnamed => ?_⟩⟩
      unfold Conn.pollDecoded at polled
      rw [if_pos (by rw [unnamed]; rfl)] at polled
      exact (Prod.mk.inj polled).2.symm

omit [RecordIo R] [LinearOrder I] in
theorem row_conns_self (c' : Conn I R) :
    row { r with conns := r.conns.insert id c' } id = { r.row id with conn := some c' } := by
  rw [row_conns, if_pos rfl]

omit [LinearOrder I] in
theorem around_conns (h : Around L id r) (c' : Conn I R) : Around L id { r with conns := r.conns.insert id c' } :=
  h.congr (fun a other => by rw [row_conns, if_neg other]) fun _ _ _ => Iff.rfl

omit [RecordIo R] [LinearOrder I] in
theorem live_conns (c' : Conn I R) : Live { r with conns := r.conns.insert id c' } id := by
  unfold Live
  rw [row_conns_self]
  rfl

omit [RecordIo R] [LinearOrder I] in
theorem conns_self (c' : Conn I R) : (r.conns.insert id c')[id]? = some c' := by
  rw [getElem?_insert, if_pos rfl]

theorem handled_inner {res : Except TransportError (List (Delivery I Msg))}
    (tables : Tables L r) (h : r.handleConnDataInner codec id bytes eof now = (res, r')) : Handled L r id bytes res r' := by
  unfold handleConnDataInner at h
  cases here : r.conns[id]? with
  | none =>
    rw [here] at h
    obtain ⟨rfl, rfl⟩ := Prod.mk.inj h
    refine .gone _ tables (fun live => ?_) (.of_same rfl fun _ => Iff.rfl)
    have : (r.conns[id]?).isSome := live
    rw [here] at this
    cases this
  | some c =>
    rw [here] at h
    simp only at h
    have settled := (tables id).1
    have conn : (r.row id).conn = some c := here
    cases read : c.handleData codec bytes eof now with
    | mk res₁ c₁ =>
      rw [read] at h
      have around := around_conns (tables.around id) c₁
      cases res₁ with
      | error e =>
        obtain ⟨rfl, rfl⟩ := Prod.mk.inj h
        exact .failed e around (live_conns c₁) (drops_conns here)
      | ok =>
        simp only at h
        -- the delivery of a connection whose state is known
        have delivered : ∀ {s : PeerRouter I R} {new : List Report}, Around L id s → s.conns[id]? = some c₁ → Drops r s new →
            s.deliver codec id = (res, r') → ∃ c', r' = { s with conns := s.conns.insert id c' } ∧
              Around L id r' ∧ Live r' id ∧ r'.conns[id]? = some c' ∧ Drops r r' new ∧
              ((∃ e, res = .error e) ∨ ∃ out, res = .ok out ∧ c'.state = c₁.state ∧ (c₁.peer = none → c' = c₁)) := by
          intro s new around here drops done
          obtain ⟨c', rfl, outcome⟩ := deliver_cases here done
          have dropped : Drops r { s with conns := s.conns.insert id c' } (new ++ []) := drops.trans (drops_conns here)
          rw [List.append_nil] at dropped
          exact ⟨c', rfl, around_conns around c', live_conns c', conns_self c', dropped, outcome⟩
        obtain shut | outcome := Conn.handleData_spec (settled.opened conn) (settled.waits conn) read
        · rw [if_pos shut] at h
          obtain ⟨c', -, around, live, here', drops, ⟨e, rfl⟩ | ⟨out, rfl, same, -⟩⟩ :=
            delivered around (conns_self c₁) (drops_conns here) h
          · exact .failed e around live drops
          · exact .closed out around here' ((Conn.isClosed_of_state same).trans shut) drops
        rw [if_neg (by rw [outcome.opened]; decide)] at h
        have finish : ∀ {p : I} {handshake idle probe : Option Instant} {v : Provenance I}, c₁.state = .validated p →
            row { r with conns := r.conns.insert id c₁ } id = ⟨some c₁, handshake, idle, probe, some v⟩ →
            (handshake = none → probe.isSome) → (bytes = [] → idle.isSome) → (∀ q, r.peerOf q = some id → q = p) →
            Handled L r id bytes res r' := by
          intro p handshake idle probe v state row probed fed mine
          simp only [Conn.peer_of_validated state] at h
          obtain ⟨s, new, bind, tables, dead, drops⟩ | ⟨s, new, bind, bound, drops⟩ :=
            bindPeer_cases now around state row probed mine
          · rw [bind] at h
            obtain ⟨rfl, rfl⟩ := Prod.mk.inj h
            exact .gone _ tables dead ((drops_conns here).trans drops)
          · rw [bind] at h
            obtain ⟨t, w, row⟩ := bound.row
            obtain ⟨c', rfl, around, live, -, dropped, ⟨e, rfl⟩ | ⟨out, rfl, same, -⟩⟩ :=
              delivered bound.around (congrArg Row.conn row) ((drops_conns here).trans drops) h
            · exact .failed e around live dropped
            · refine .bound out ⟨around, same.trans state, ⟨t, w, ?_⟩, bound.named⟩ fed dropped
              rw [row_conns_self, row]
        have names := (tables id).2
        obtain ⟨p, before, state⟩ | ⟨before, state, waits⟩ | ⟨p, before, state, fed⟩ := outcome
        · -- validated before
          have row : row { r with conns := r.conns.insert id c₁ } id = { r.row id with conn := some c₁ } := row_conns_self c₁
          generalize r.row id = old at settled conn row names
          cases settled with
          | absent => cases conn
          | waiting other =>
            cases conn
            rw [before] at other
            cases other
          | routed =>
            cases conn
            refine finish state row (fun _ => rfl) (fun _ => rfl) fun q named => ?_
            have : c.peer = some q := (names q).mp named
            rw [Conn.peer_of_validated before] at this
            exact (Option.some.inj this).symm
        · -- still in its handshake
          simp only [Conn.peer_of_handshaking state] at h
          obtain ⟨c', rfl, around, live, here', drops, ⟨e, rfl⟩ | ⟨out, rfl, -, same⟩⟩ :=
            delivered around (conns_self c₁) (drops_conns here) h
          · exact .failed e around live drops
          · obtain rfl := same (Conn.peer_of_handshaking state)
            refine .waiting out (around.settle ⟨?_, fun q => ?_⟩) here' state drops
            · rw [row_conns_self, row_conns_self]
              generalize r.row id = old at settled conn
              cases settled with
              | absent => cases conn
              | waiting => exact .waiting state waits
              | routed other =>
                cases conn
                rw [before] at other
                cases other
            · rw [row_conns_self]
              show r.peerOf q = some id ↔ c'.peer = some q
              rw [Conn.peer_of_handshaking state, names q]
              show (r.row id).conn.bind Conn.peer = some q ↔ _
              rw [conn]
              show c.peer = some q ↔ _
              rw [Conn.peer_of_handshaking before]
        · -- validated by this read
          have row : row { r with conns := r.conns.insert id c₁ } id = { r.row id with conn := some c₁ } := row_conns_self c₁
          generalize r.row id = old at settled conn row names
          cases settled with
          | absent => cases conn
          | waiting =>
            cases conn
            refine finish state row (fun none_here => by cases none_here) (fun none_read => absurd none_read fed) fun q named => ?_
            have : c.peer = some q := (names q).mp named
            rw [Conn.peer_of_handshaking before] at this
            cases this
          | routed other =>
            cases conn
            rw [before] at other
            cases other

omit [LinearOrder I] in
/-- A bound connection that is fed, or was, is settled. -/
theorem Bound.tables (h : Bound L r id p c idle) (fed : idle.isSome) : Tables L r := by
  obtain ⟨t, v, row⟩ := h.row
  obtain ⟨i, rfl⟩ := Option.isSome_iff_exists.mp fed
  refine h.around.settle ⟨?_, fun q => ?_⟩
  · rw [row]
    exact .routed h.state
  · rw [h.named q, row]
    show _ ↔ c.peer = some q
    rw [Conn.peer_of_validated h.state]
    exact ⟨fun same => congrArg some same.symm, fun same => (Option.some.inj same).symm⟩

omit [LinearOrder I] in
theorem Bound.idleDeadline (h : Bound L r id p c idle) (t : Instant) :
    Bound L { r with idleDeadline := r.idleDeadline.insert id t } id p c (some t) := by
  obtain ⟨q, v, row⟩ := h.row
  refine ⟨h.around.congr (fun a other => ?_) fun _ _ _ => Iff.rfl, h.state, ⟨q, v, ?_⟩, h.named⟩
  · unfold PeerRouter.row
    simp only [getElem?_insert, if_neg other]
  · obtain ⟨conn, handshake, -, probe, provenance⟩ := Row.mk.inj row
    unfold PeerRouter.row
    simp only [getElem?_insert, if_true, conn, handshake, probe, provenance]

theorem served_handleConnData (tables : Tables L r) : Served L r (r.handleConnData codec id bytes eof now).2 := by
  unfold handleConnData
  cases inner : r.handleConnDataInner codec id bytes eof now with
  | mk res s =>
    have handled := handled_inner tables inner
    cases handled with
    | failed e around live drops => exact around.served drops live (some e)
    | gone out tables dead drops =>
      have none_here : s.conns[id]? = none := Option.not_isSome_iff_eq_none.mp dead
      simp only [none_here]
      exact ⟨tables, _, drops⟩
    | closed out around here shut drops =>
      have live : Live s id := by
        unfold Live
        show (s.conns[id]?).isSome = true
        rw [here]
        rfl
      simp only [here, shut, if_true]
      exact around.served drops live none
    | @waiting _ _ c out tables here state drops =>
      have opened : ¬ c.isClosed = true := by
        unfold Conn.isClosed
        rw [state]
        exact Bool.false_ne_true
      have unnamed : ¬ (bytes ≠ [] ∧ c.peer.isSome = true) := by
        rw [Conn.peer_of_handshaking state]
        exact fun both => Bool.false_ne_true both.2
      simp only [here, if_neg opened, if_neg unnamed]
      exact ⟨tables, _, drops⟩
    | @bound _ _ c p idle out bound fed drops =>
      obtain ⟨t, v, row⟩ := bound.row
      have here : s.conns[id]? = some c := congrArg Row.conn row
      have opened : ¬ c.isClosed = true := by
        unfold Conn.isClosed
        rw [bound.state]
        exact Bool.false_ne_true
      simp only [here, if_neg opened, Conn.peer_of_validated bound.state, Option.isSome_some, and_true]
      by_cases empty : bytes = []
      · rw [if_neg (fun other => other empty)]
        exact ⟨bound.tables (fed empty), _, drops⟩
      · rw [if_pos empty]
        exact ⟨(bound.idleDeadline (now + idleTimeout)).tables rfl, _, ⟨drops.queue, drops.once, drops.exact, drops.shrink⟩⟩

end

end PeerRouter

end Sailing.Transport
