import Sailing.Transport.Closes

/-!
# The ledger of a run

A run of the router hands out, in order, what its moves add to the reports (`Ledger`): each
connection a call drops, once; a registration of a known connection; nothing for a connection the
driver removed. When two nodes that know their own ids dial each other, the tie is broken the same
way at both ends.
-/

namespace Sailing.Transport

variable {I R Msg : Type} [LinearOrder I] [RecordIo R] {L : Layer R} {codec : Codec I Msg}

namespace PeerRouter

variable {r r' : PeerRouter I R} {id : ConnId}

/-- A call of the driver, or of the node that gives the router its identity. -/
inductive Move (I R Msg : Type) where
  | call (call : Call I R Msg)
  | setLocalId (me : I)

namespace Move

/-- The connection a move registers, and its record layer. -/
def registers : Move I R Msg → Option (ConnId × R)
  | .call (.registerDial id _ record _) => some (id, record)
  | .call (.registerAccept id record _) => some (id, record)
  | _ => none

/-- The connection the driver takes away. -/
def removes : Move I R Msg → Option ConnId
  | .call (.remove id) => some id
  | _ => none

end Move

variable (codec)

def step (r : PeerRouter I R) : Move I R Msg → PeerRouter I R
  | .call call => r.exec codec call
  | .setLocalId me => r.setLocalId me

/-- The report a move hands out. -/
def polled (r : PeerRouter I R) : Move I R Msg → List Report
  | .call .pollConnClosed => r.closed.head?.toList
  | _ => []

/-- The reports handed out by a run, and where it ends. -/
def run : PeerRouter I R → List (Move I R Msg) → List Report × PeerRouter I R
  | r, [] => ([], r)
  | r, m :: moves =>
    let (reports, r') := run (step codec r m) moves
    (polled r m ++ reports, r')

/-- What a move adds to the reports: the connections it drops, each once. A registration of a
known connection is reported as such, a removal by the driver is not reported. -/
structure Accounts (r : PeerRouter I R) (m : Move I R Msg) (new : List Report) : Prop where
  queue : polled r m ++ (step codec r m).closed = r.closed ++ new
  registered : ∀ id record, m.registers = some (id, record) →
    (Live r id ∧ new = [(id, some .duplicateConnId)] ∨ ¬ Live r id ∧ new = []) ∧
      ∀ a, Live (step codec r m) a ↔ a = id ∨ Live r a
  removed : ∀ id, m.removes = some id → new = [] ∧ ∀ a, Live (step codec r m) a ↔ a ≠ id ∧ Live r a
  dropped : m.registers = none → m.removes = none → (new.map Prod.fst).Nodup ∧
    (∀ a, a ∈ new.map Prod.fst ↔ Live r a ∧ ¬ Live (step codec r m) a) ∧ ∀ a, Live (step codec r m) a → Live r a

/-- The moves of a run, each with what it adds to the reports. -/
def Ledger : PeerRouter I R → List (Move I R Msg) → List (List Report) → Prop
  | _, [], [] => True
  | r, m :: moves, new :: news => Accounts codec r m new ∧ Ledger (step codec r m) moves news
  | _, _, _ => False

variable {codec}

theorem Served.accounts {m : Move I R Msg} (h : Served L r (step codec r m)) (quiet : polled r m = [])
    (registers : m.registers = none) (removes : m.removes = none) :
    Tables L (step codec r m) ∧ ∃ new, Accounts codec r m new := by
  obtain ⟨tables, new, drops⟩ := h
  refine ⟨tables, new, ?_, fun id record impossible => ?_, fun id impossible => ?_, fun _ _ => ⟨drops.once, drops.exact, drops.shrink⟩⟩
  · rw [quiet, List.nil_append, drops.queue]
  · rw [registers] at impossible
    cases impossible
  · rw [removes] at impossible
    cases impossible

omit [LinearOrder I] [RecordIo R] in
theorem register_accounts (r : PeerRouter I R) (id : ConnId) (provenance : Provenance I) (record : R) (now : Instant) :
    ∃ new, (r.register id provenance record now).closed = r.closed ++ new ∧
      (Live r id ∧ new = [(id, some .duplicateConnId)] ∨ ¬ Live r id ∧ new = []) ∧
      ∀ a, Live (r.register id provenance record now) a ↔ a = id ∨ Live r a := by
  have contains : r.conns.contains id = true ↔ Live r id := by
    rw [Std.TreeMap.contains_eq_isSome_getElem?]
    exact Iff.rfl
  unfold register
  by_cases known : r.conns.contains id = true
  · rw [if_pos known]
    refine ⟨_, rfl, .inl ⟨contains.mp known, rfl⟩, fun a => ⟨Or.inr, fun or => ?_⟩⟩
    obtain same | live := or
    · rw [same]
      exact contains.mp known
    · exact live
  · rw [if_neg known]
    refine ⟨[], (List.append_nil _).symm, .inr ⟨fun live => known (contains.mpr live), rfl⟩, fun a => ?_⟩
    show ((r.conns.insert id (Conn.new record))[a]?).isSome = true ↔ a = id ∨ (r.conns[a]?).isSome = true
    rw [getElem?_insert]
    split
    · next same => exact ⟨fun _ => .inl same, fun _ => rfl⟩
    · next other => exact ⟨Or.inr, fun or => or.resolve_left other⟩

/-- One move keeps the tables and accounts for what it drops. -/
theorem step_spec (codec : Codec I Msg) {m : Move I R Msg} (tables : Tables L r)
    (waits : ∀ id record, m.registers = some (id, record) → L.Waits record) :
    Tables L (step codec r m) ∧ ∃ new, Accounts codec r m new := by
  have registration {provenance : Provenance I} {id : ConnId} {record : R} {now : Instant}
      (quiet : polled r m = []) (same : step codec r m = r.register id provenance record now)
      (registers : m.registers = some (id, record)) (removes : m.removes = none) :
      Tables L (step codec r m) ∧ ∃ new, Accounts codec r m new := by
    obtain ⟨new, queue, reported, lives⟩ := register_accounts r id provenance record now
    rw [← same] at queue lives
    refine ⟨?_, new, ?_, fun a record' this => ?_, fun a this => ?_, fun this => ?_⟩
    · rw [same]
      exact tables_register tables (waits id record registers)
    · rw [quiet, List.nil_append, queue]
    · rw [registers] at this
      cases this
      exact ⟨reported, lives⟩
    · rw [removes] at this
      cases this
    · rw [registers] at this
      cases this
  cases m with
  | setLocalId => exact Served.accounts ⟨tables, [], .of_same rfl fun _ => Iff.rfl⟩ rfl rfl rfl
  | call call =>
    cases call with
    | registerDial | registerAccept => exact registration rfl rfl rfl rfl
    | handleConnData => exact Served.accounts (served_handleConnData tables) rfl rfl rfl
    | reapHandshakes now => exact Served.accounts (served_reapHandshakes tables now) rfl rfl rfl
    | serviceLiveness now => exact Served.accounts (served_serviceLiveness tables now) rfl rfl rfl
    | remove id =>
      refine ⟨Around.remove (tables.around id), [], ?_, fun a record this => ?_, fun a this => ⟨rfl, ?_⟩, fun _ this => ?_⟩
      · rw [List.append_nil]
        rfl
      · cases this
      · cases this
        exact live_removeInternal none
      · cases this
    | close id reason =>
      refine Served.accounts ?_ rfl rfl rfl
      show Served L r (if r.conns.contains id then r.removeInternal id reason else r)
      split
      · next known =>
        rw [Std.TreeMap.contains_eq_isSome_getElem?] at known
        exact (tables.around id).served (.of_same rfl fun _ => Iff.rfl) known reason
      · exact tables.served
    | route group generation dest msg =>
      exact Served.accounts (served_routeWith tables dest fun c => Conn.sent_sendMessage group generation msg) rfl rfl rfl
    | routeCoalesced dest entries =>
      exact Served.accounts (served_routeWith tables dest fun c => Conn.sent_sendCoalesced entries) rfl rfl rfl
    | pollTransmit => exact Served.accounts (served_pollTransmit tables) rfl rfl rfl
    | pollConnClosed =>
      refine ⟨tables, [], ?_, fun a record this => ?_, fun a this => ?_, fun _ _ => ⟨List.nodup_nil, fun a => ?_, fun _ live => live⟩⟩
      · show r.closed.head?.toList ++ r.closed.tail = r.closed ++ []
        rw [List.append_nil]
        cases r.closed <;> rfl
      · cases this
      · cases this
      · constructor
        · intro this
          cases this
        · rintro ⟨live, gone⟩
          exact absurd live gone

/-- A run keeps the tables, and hands out the reports of its ledger in order. -/
theorem run_spec (codec : Codec I Msg) (moves : List (Move I R Msg)) (r : PeerRouter I R) (tables : Tables L r)
    (waits : ∀ m ∈ moves, ∀ id record, m.registers = some (id, record) → L.Waits record) :
    Tables L (run codec r moves).2 ∧ ∃ news, Ledger codec r moves news ∧
      (run codec r moves).1 ++ (run codec r moves).2.closed = r.closed ++ news.flatten := by
  induction moves generalizing r with
  | nil => exact ⟨tables, [], trivial, (List.append_nil _).symm⟩
  | cons m moves ih =>
    obtain ⟨stepped, new, accounts⟩ := step_spec codec tables (waits m List.mem_cons_self)
    obtain ⟨ended, news, ledger, queue⟩ := ih (step codec r m) stepped fun m mem => waits m (List.mem_cons_of_mem _ mem)
    refine ⟨ended, new :: news, ⟨accounts, ledger⟩, ?_⟩
    show polled r m ++ (run codec (step codec r m) moves).1 ++ (run codec (step codec r m) moves).2.closed = _
    rw [List.append_assoc, queue, ← List.append_assoc, accounts.queue, List.flatten_cons, List.append_assoc]

/-- A connection that is not in the table is not reported until it is registered again. -/
theorem Ledger.silent {moves : List (Move I R Msg)} {news : List (List Report)} (h : Ledger codec r moves news)
    (gone : ¬ Live r id) (none_registers : ∀ m ∈ moves, ∀ record, m.registers ≠ some (id, record)) :
    ∀ new ∈ news, id ∉ new.map Prod.fst := by
  induction moves generalizing r news with
  | nil =>
    cases news with
    | nil => exact fun new mem => absurd mem List.not_mem_nil
    | cons => exact h.elim
  | cons m moves ih =>
    cases news with
    | nil => exact h.elim
    | cons new =>
      obtain ⟨accounts, ledger⟩ := h
      have here : id ∉ new.map Prod.fst ∧ ¬ Live (step codec r m) id := by
        cases registers : m.registers with
        | some known =>
          obtain ⟨a, record⟩ := known
          have other : id ≠ a := fun same => none_registers m List.mem_cons_self record (same ▸ registers)
          obtain ⟨reported, lives⟩ := accounts.registered a record registers
          refine ⟨?_, fun live => ((lives id).mp live).elim other gone⟩
          obtain ⟨-, rfl⟩ | ⟨-, rfl⟩ := reported
          · simpa using other
          · exact List.not_mem_nil
        | none =>
          cases removes : m.removes with
          | some a =>
            obtain ⟨rfl, lives⟩ := accounts.removed a removes
            exact ⟨List.not_mem_nil, fun live => gone ((lives id).mp live).2⟩
          | none =>
            obtain ⟨-, drops, shrink⟩ := accounts.dropped registers removes
            exact ⟨fun mem => gone ((drops id).mp mem).1, fun live => gone (shrink id live)⟩
      exact List.forall_mem_cons.mpr ⟨here.1, ih ledger here.2 fun m mem => none_registers m (List.mem_cons_of_mem _ mem)⟩

/-- The same after a removal in the middle of a run. -/
theorem Ledger.silent_after_remove {before after : List (Move I R Msg)} {news : List (List Report)}
    (h : Ledger codec r (before ++ .call (.remove id) :: after) news)
    (none_registers : ∀ m ∈ after, ∀ record, m.registers ≠ some (id, record)) :
    ∀ new ∈ news.drop (before.length + 1), id ∉ new.map Prod.fst := by
  induction before generalizing r news with
  | nil =>
    cases news with
    | nil => exact h.elim
    | cons =>
      obtain ⟨accounts, ledger⟩ := h
      obtain ⟨-, lives⟩ := accounts.removed id rfl
      exact ledger.silent (fun live => ((lives id).mp live).1 rfl) none_registers
  | cons m before ih =>
    cases news with
    | nil => exact h.elim
    | cons => exact ih h.2

/-! ## Two nodes that dial each other -/

variable {me p : I} {dialed accepted first second : ConnId} {bytes : Bytes} {eof : Bool} {now : Instant}

/-- A connection to `p` that this node dialed and one that it accepted; `first` is bound, `second`
is the other. -/
structure Tie (r : PeerRouter I R) (me p : I) (dialed accepted first second : ConnId) : Prop where
  self : r.localId = some me
  ours : r.provenance[dialed]? = some (.dialed p)
  theirs : r.provenance[accepted]? = some .accepted
  order : first = dialed ∧ second = accepted ∨ first = accepted ∧ second = dialed
  bound : r.peerOf p = some first

/-- A read of `id` completes its handshake with `p` and leaves it open. -/
def Validates (codec : Codec I Msg) (r : PeerRouter I R) (id : ConnId) (bytes : Bytes) (eof : Bool) (now : Instant)
    (p : I) : Prop :=
  ∃ c c' c'' tuples, r.conns[id]? = some c ∧ c.handleData codec bytes eof now = (.ok (), c') ∧ c'.state = .validated p ∧
    c'.pollDecoded codec = (.ok tuples, c'')

omit [LinearOrder I] [RecordIo R] in
theorem Tie.ne (h : Tie r me p dialed accepted first second) : first ≠ second := by
  have apart : dialed ≠ accepted := by
    intro same
    have provenance := h.ours
    rw [same, h.theirs] at provenance
    cases provenance
  obtain ⟨rfl, rfl⟩ | ⟨rfl, rfl⟩ := h.order
  · exact apart
  · exact apart.symm

omit [RecordIo R] in
/-- The connection the lower of the two nodes dialed wins. -/
theorem Tie.duplicateWinner (h : Tie r me p dialed accepted first second) :
    r.duplicateWinner second first p = if me < p then dialed else accepted := by
  unfold PeerRouter.duplicateWinner
  obtain ⟨rfl, rfl⟩ | ⟨rfl, rfl⟩ := h.order
  · simp only [h.self, h.ours, h.theirs, Option.map_some, decide_eq_true_eq]
  · simp only [h.self, h.ours, h.theirs, Option.map_some, decide_eq_true_eq]

omit [RecordIo R] in
theorem Tie.not_crossed (h : Tie r me p dialed accepted first second) : r.crossed second p = false := by
  unfold crossed
  obtain ⟨-, rfl⟩ | ⟨-, rfl⟩ := h.order
  · simp only [h.theirs]
  · simp only [h.ours, ne_eq, not_true_eq_false, decide_false]

/-- The second connection validates: one of the two is left, bound to the peer. -/
theorem Tie.broken (h : Tie r me p dialed accepted first second) (other : me ≠ p)
    (validates : Validates codec r second bytes eof now p) :
    (r.handleConnData codec second bytes eof now).2.peerOf p = some (if me < p then dialed else accepted) ∧
      ¬ Live (r.handleConnData codec second bytes eof now).2 (if me < p then accepted else dialed) := by
  obtain ⟨c, c', c'', tuples, here, read, state, delivered⟩ := validates
  have opened : ¬ c'.isClosed = true := by
    unfold Conn.isClosed
    rw [state]
    exact Bool.false_ne_true
  have apart := h.ne
  have own : r.localId ≠ some p := by
    rw [h.self]
    exact fun same => other (Option.some.inj same)
  have winner := h.duplicateWinner
  have pair : (if me < p then dialed else accepted) = first ∧ (if me < p then accepted else dialed) = second ∨
      (if me < p then dialed else accepted) = second ∧ (if me < p then accepted else dialed) = first := by
    obtain ⟨rfl, rfl⟩ | ⟨rfl, rfl⟩ := h.order
    · by_cases lower : me < p
      · exact .inl ⟨if_pos lower, if_pos lower⟩
      · exact .inr ⟨if_neg lower, if_neg lower⟩
    by_cases lower : me < p
    · exact .inr ⟨if_pos lower, if_pos lower⟩
    · exact .inl ⟨if_neg lower, if_neg lower⟩
  obtain ⟨kept, dropped⟩ | ⟨kept, dropped⟩ := pair
  · -- the bound one stays
    rw [kept] at winner
    have bind : bindPeer { r with conns := r.conns.insert second c' } second p now = (false, _) :=
      bindPeer_lost now own h.not_crossed h.bound apart winner
    have gone : ((endHandshake { r with conns := r.conns.insert second c' } second).removeInternal second none).conns[second]? = none := by
      show ((r.conns.insert second c').erase second)[second]? = none
      rw [getElem?_erase, if_pos rfl]
    rw [kept, dropped]
    simp only [handleConnData, handleConnDataInner, here, read, if_neg opened, Conn.peer_of_validated state, bind, gone]
    refine ⟨(peerOf_remove p).mpr ⟨apart, h.bound⟩, ?_⟩
    rw [live_removeInternal]
    exact fun both => both.1 rfl
  · -- the new one takes its place
    rw [kept] at winner
    have won : PeerRouter.duplicateWinner { r with conns := r.conns.insert second c' } second first p ≠ first := by
      show r.duplicateWinner second first p ≠ first
      rw [winner]
      exact apart.symm
    have bind : bindPeer { r with conns := r.conns.insert second c' } second p now = (true, _) :=
      bindPeer_won now own h.not_crossed h.bound apart won
    generalize bound : bindTo _ second p now _ = s at bind
    have conn : s.conns[second]? = some c' := by
      rw [← bound]
      show ((r.conns.insert second c').erase first)[second]? = some c'
      rw [getElem?_erase, if_neg apart.symm, getElem?_insert, if_pos rfl]
    have named : s.peerOf p = some second := by
      rw [← bound]
      exact if_pos rfl
    have gone : s.conns[first]? = none := by
      rw [← bound]
      show ((r.conns.insert second c').erase first)[first]? = none
      rw [getElem?_erase, if_pos rfl]
    have opened' : ¬ c''.isClosed = true := by
      rw [Conn.isClosed_of_state (Conn.pollDecoded_state delivered)]
      exact opened
    have dead : (s.conns.insert second c'')[first]? = none := by rw [getElem?_insert, if_neg apart, gone]
    have not_live {t : PeerRouter I R} (none_here : t.conns[first]? = none) : ¬ Live t first := by
      show ¬ (t.conns[first]?).isSome = true
      rw [none_here]
      exact Bool.false_ne_true
    rw [kept, dropped]
    simp only [handleConnData, handleConnDataInner, here, read, if_neg opened, Conn.peer_of_validated state, bind, deliver,
      conn, delivered, conns_self, if_neg opened']
    split <;> exact ⟨named, not_live dead⟩

/-! ## The router -/

/-- What settled tables say in full. -/
structure Consistent (r : PeerRouter I R) : Prop where
  routed : ∀ p a, r.peerOf p = some a ↔ ∃ c : Conn I R, r.conns[a]? = some c ∧ c.state = .validated p
  injective : ∀ p q a, r.peerOf p = some a → r.peerOf q = some a → p = q
  handshake : ∀ (a : ConnId) (c : Conn I R), r.conns[a]? = some c → ((r.handshakeDeadline[a]?).isSome ↔ ∀ p, c.state ≠ .validated p)
  idle : ∀ (a : ConnId) (c : Conn I R), r.conns[a]? = some c → ((r.idleDeadline[a]?).isSome ↔ ∃ p, c.state = .validated p)
  probe : ∀ (a : ConnId) (c : Conn I R), r.conns[a]? = some c → ((r.probeDeadline[a]?).isSome ↔ ∃ p, c.state = .validated p)
  absent : ∀ a : ConnId, r.conns[a]? = none → r.handshakeDeadline[a]? = none ∧ r.idleDeadline[a]? = none ∧
    r.probeDeadline[a]? = none ∧ r.provenance[a]? = none ∧ ∀ p, r.peerOf p ≠ some a

omit [LinearOrder I] in
theorem Tables.routed (h : Tables L r) (p : I) (a : ConnId) :
    r.peerOf p = some a ↔ ∃ c, r.conns[a]? = some c ∧ c.state = .validated p := by
  constructor
  · intro named
    cases here : r.conns[a]? with
    | none =>
      have peer : (r.row a).peer = some p := ((h a).2 p).mp named
      have : (r.conns[a]?).bind Conn.peer = some p := peer
      rw [here] at this
      cases this
    | some c => exact ⟨c, rfl, h.validated_of_peerOf named here⟩
  · rintro ⟨c, here, state⟩
    refine ((h a).2 p).mpr ?_
    show (r.conns[a]?).bind Conn.peer = some p
    rw [here]
    exact Conn.peer_of_validated state

omit [LinearOrder I] in
theorem Tables.consistent (h : Tables L r) : Consistent r := by
  have deadlines : ∀ (a : ConnId) (c : Conn I R), r.conns[a]? = some c →
      ((r.row a).handshake.isSome ↔ ∀ p, c.state ≠ .validated p) ∧ ((r.row a).idle.isSome ↔ ∃ p, c.state = .validated p) ∧
        ((r.row a).probe.isSome ↔ ∃ p, c.state = .validated p) := by
    intro a c here
    have settled := (h a).1
    have conn : (r.row a).conn = some c := here
    generalize r.row a = row at settled conn
    cases settled with
    | absent => cases conn
    | waiting state | routed state =>
      cases conn
      simp [state]
  refine ⟨h.routed, fun p q a named named' => ?_, fun a c here => (deadlines a c here).1, fun a c here => (deadlines a c here).2.1,
    fun a c here => (deadlines a c here).2.2, fun a gone => ?_⟩
  · obtain ⟨c, here, state⟩ := (h.routed p a).mp named
    obtain ⟨c', here', state'⟩ := (h.routed q a).mp named'
    rw [here] at here'
    cases here'
    rw [state] at state'
    cases state'
    rfl
  · obtain ⟨-, handshake, idle, probe, provenance⟩ := Row.mk.inj ((h a).1.eq_empty (show (r.row a).conn = none from gone))
    refine ⟨handshake, idle, probe, provenance, fun p named => ?_⟩
    obtain ⟨c, here, -⟩ := (h.routed p a).mp named
    rw [gone] at here
    cases here

omit [LinearOrder I] in
theorem tables_new : Tables L (new : PeerRouter I R) := by
  have rows : ∀ a, (new : PeerRouter I R).row a = .empty := by
    intro a
    unfold PeerRouter.row new
    simp only [Std.TreeMap.getElem?_emptyc]
    rfl
  intro a
  unfold SettledAt
  rw [rows]
  refine ⟨.absent, fun p => ?_⟩
  constructor
  · intro impossible
    cases impossible
  · intro impossible
    cases impossible

/-- The tables are consistent after every run, and the reports handed out, with those still queued,
are the ledger of the run; a connection the driver removed is not in it until it is registered
again. Two nodes that know their own ids and dial each other keep the same one of the two
connections, `x`, which the first dialed, or `y`, which the second did, in whatever order they
validate at each end. -/
theorem router_consistent (codec : Codec I Msg) (L : Layer R) :
    (∀ moves : List (Move I R Msg), (∀ m ∈ moves, ∀ id record, m.registers = some (id, record) → L.Waits record) →
        Consistent (run codec new moves).2 ∧ ∃ news, Ledger codec (new : PeerRouter I R) moves news ∧
          (run codec new moves).1 ++ (run codec new moves).2.closed = news.flatten ∧
          ∀ before after id, moves = before ++ .call (.remove id) :: after →
            (∀ m ∈ after, ∀ record, m.registers ≠ some (id, record)) →
            ∀ new ∈ news.drop (before.length + 1), id ∉ new.map Prod.fst) ∧
      ∀ (a b : I) (r s : PeerRouter I R) (x y x' y' first second first' second' : ConnId) (bytes bytes' : Bytes)
        (eof eof' : Bool) (now now' : Instant), a ≠ b →
        Tie r a b x y first second → Validates codec r second bytes eof now b →
        Tie s b a y' x' first' second' → Validates codec s second' bytes' eof' now' a →
        let r := (r.handleConnData codec second bytes eof now).2
        let s := (s.handleConnData codec second' bytes' eof' now').2
        (r.peerOf b = some x ∧ ¬ Live r y ∧ s.peerOf a = some x' ∧ ¬ Live s y') ∨
          (r.peerOf b = some y ∧ ¬ Live r x ∧ s.peerOf a = some y' ∧ ¬ Live s x') := by
  refine ⟨fun moves waits => ?_, fun a b r s x y x' y' first second first' second' bytes bytes' eof eof' now now' apart tie validates
    tie' validates' => ?_⟩
  · obtain ⟨tables, news, ledger, queue⟩ := run_spec codec moves new tables_new waits
    refine ⟨tables.consistent, news, ledger, queue, fun before after id split none_registers => ?_⟩
    rw [split] at ledger
    exact ledger.silent_after_remove none_registers
  · obtain ⟨kept, dropped⟩ := tie.broken apart validates
    obtain ⟨kept', dropped'⟩ := tie'.broken apart.symm validates'
    by_cases lower : a < b
    · have higher : ¬ b < a := not_lt.mpr lower.le
      rw [if_pos lower] at kept dropped
      rw [if_neg higher] at kept' dropped'
      exact Or.inl ⟨kept, dropped, kept', dropped'⟩
    · have higher : b < a := lt_of_le_of_ne (not_lt.mp lower) apart.symm
      rw [if_neg lower] at kept dropped
      rw [if_pos higher] at kept' dropped'
      exact Or.inr ⟨kept, dropped, kept', dropped'⟩

/-- A node that dials `peer` on connection 2 has accepted connection 1, and the
hello of `peer` came on that one first. -/
def dialsBack (peer : UInt8) (ours theirs : Labeled Passthrough) : List (Move Nat (Labeled Passthrough) Bytes) :=
  [.call (.registerDial 2 peer.toNat ours 0), .call (.registerAccept 1 theirs 0),
    .call (.handleConnData 1 (buildHello plainCluster [peer]) false 0)]

/-- Then it comes on connection 2. -/
def bothOpen (peer : UInt8) (r : PeerRouter Nat (Labeled Passthrough)) : PeerRouter Nat (Labeled Passthrough) :=
  (r.handleConnData plainCodec 2 (buildHello plainCluster [peer]) false 0).2

theorem waits_dialsBack (me : Nat) (peer : UInt8) {ours theirs : Labeled Passthrough} (opts : LabelOptions)
    (dialed : Labeled.dialer .new opts = .ok ours) (accepted : Labeled.acceptor .new opts = .ok theirs) :
    ∀ m ∈ (.setLocalId me :: dialsBack peer ours theirs : List (Move Nat (Labeled Passthrough) Bytes)), ∀ id record,
      m.registers = some (id, record) → Labeled.layer.Waits record := by
  intro m mem id record registers
  simp only [dialsBack, List.mem_cons, List.not_mem_nil, or_false] at mem
  obtain rfl | rfl | rfl | rfl := mem
  · cases registers
  · cases registers
    exact Labeled.awaiting_new (.inl dialed)
  · cases registers
    exact Labeled.awaiting_new (.inr accepted)
  · cases registers

/-- Nodes 1 and 2 dial each other and know their own ids; a plain connection waits for ever. -/
theorem router_consistent_crossing :
    Consistent (run plainCodec new [.call (.registerAccept 1 Passthrough.new 0),
      .call (.handleConnData 1 (buildHello plainCluster [1]) false 0)]).2 ∧ ∃ x y x' y',
    Labeled.dialer .new ⟨plainCluster, [1]⟩ = .ok x ∧ Labeled.acceptor .new ⟨plainCluster, [1]⟩ = .ok y ∧
      Labeled.dialer .new ⟨plainCluster, [2]⟩ = .ok y' ∧ Labeled.acceptor .new ⟨plainCluster, [2]⟩ = .ok x' ∧
      let r := (run plainCodec new (.setLocalId 1 :: dialsBack 2 x y)).2
      let s := (run plainCodec new (.setLocalId 2 :: dialsBack 1 y' x')).2
      Consistent r ∧ Consistent s ∧ ((bothOpen 2 r).peerOf 2 = some 2 ∧ ¬ Live (bothOpen 2 r) 1 ∧
        (bothOpen 1 s).peerOf 1 = some 1 ∧ ¬ Live (bothOpen 1 s) 2) := by
  refine ⟨((router_consistent plainCodec Passthrough.layer).1 _ fun _ _ _ _ _ => trivial).1,
    _, _, _, _, rfl, rfl, rfl, rfl, ?_⟩
  refine ⟨((router_consistent plainCodec Labeled.layer).1 _ (waits_dialsBack 1 2 ⟨plainCluster, [1]⟩ rfl rfl)).1,
    ((router_consistent plainCodec Labeled.layer).1 _ (waits_dialsBack 2 1 ⟨plainCluster, [2]⟩ rfl rfl)).1, ?_⟩
  exact ((router_consistent plainCodec Labeled.layer).2 1 2 _ _ 2 1 1 2 1 2 1 2 _ _ false false 0 0 (by decide)
    ⟨rfl, rfl, rfl, .inr ⟨rfl, rfl⟩, rfl⟩ ⟨_, _, _, _, rfl, rfl, rfl, rfl⟩ ⟨rfl, rfl, rfl, .inr ⟨rfl, rfl⟩, rfl⟩
    ⟨_, _, _, _, rfl, rfl, rfl, rfl⟩).resolve_right (by decide +kernel)

/-- Neither knows its own id: each keeps the connection it dialed and drops the other. -/
theorem unnamed_ends_differ : ∃ x y x' y',
    Labeled.dialer .new ⟨plainCluster, [1]⟩ = .ok x ∧ Labeled.acceptor .new ⟨plainCluster, [1]⟩ = .ok y ∧
      Labeled.dialer .new ⟨plainCluster, [2]⟩ = .ok y' ∧ Labeled.acceptor .new ⟨plainCluster, [2]⟩ = .ok x' ∧
      (bothOpen 2 (run plainCodec new (dialsBack 2 x y)).2).peerOf 2 = some 2 ∧
      ¬ Live (bothOpen 2 (run plainCodec new (dialsBack 2 x y)).2) 1 ∧
      (bothOpen 1 (run plainCodec new (dialsBack 1 y' x')).2).peerOf 1 = some 2 ∧
      ¬ Live (bothOpen 1 (run plainCodec new (dialsBack 1 y' x')).2) 1 :=
  ⟨_, _, _, _, rfl, rfl, rfl, rfl, by decide +kernel⟩

end PeerRouter

end Sailing.Transport
