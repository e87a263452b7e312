import Sailing.Transport.Router

/-!
# Who a delivery is from

In every run in which no read ends the stream of a connection that is still
handshaking, what the router hands out names a peer that is not this node, and on
a dialed connection the peer that was dialed. With such a read it may name anyone.
-/

namespace Sailing.Transport

variable {I R Msg : Type} {codec : Codec I Msg}

/-! ## Connections -/

namespace Conn

variable {c c' : Conn I R}

theorem peer_of_state (h : c'.state = c.state) : c'.peer = c.peer := by
  unfold peer
  rw [h]

theorem isClosed_of_state (h : c'.state = c.state) : c'.isClosed = c.isClosed := by
  unfold isClosed
  rw [h]

theorem pollDecoded_state {tuples : List (Tuple Msg)} (h : c.pollDecoded codec = (.ok tuples, c')) :
    c'.state = c.state := by
  have loop : ∀ fuel (c c' : Conn I R) tuples, pollLoop codec fuel c = (.ok tuples, c') → c'.state = c.state := by
    intro fuel
    induction fuel with
    | zero =>
      intro c c' tuples h
      exact (Prod.mk.inj h).2 ▸ rfl
    | succ fuel ih =>
      intro c c' tuples h
      unfold pollLoop at h
      split at h
      · cases h
      · exact (Prod.mk.inj h).2 ▸ rfl
      simp only at h
      split at h
      · cases h
      split at h
      · cases h
      next hl =>
      rw [← (Prod.mk.inj h).2]
      have hc := ih _ _ _ hl
      exact hc
  unfold pollDecoded at h
  split at h
  · exact (Prod.mk.inj h).2 ▸ rfl
  · exact loop _ _ _ _ h

variable [RecordIo R]

theorem emitFrame_state (payload : Bytes) {b : Bool} (h : c.emitFrame payload = (b, c')) :
    b = true ∧ c'.state = c.state ∨ b = false ∧ c'.isClosed = true := by
  unfold emitFrame at h
  simp only at h
  split at h
  · rw [← (Prod.mk.inj h).1, ← (Prod.mk.inj h).2]
    exact .inr ⟨rfl, rfl⟩
  · rw [← (Prod.mk.inj h).1, ← (Prod.mk.inj h).2]
    exact .inl ⟨rfl, rfl⟩

/-- What every send does to the state. -/
def Sent (c c' : Conn I R) : Prop := c'.state = c.state ∨ c'.isClosed = true

theorem sent_emitFrame (payload : Bytes) : Sent c (c.emitFrame payload).2 :=
  (emitFrame_state payload rfl).imp And.right And.right

theorem sent_coalesceLoop (entries : List (CoalescedEntry Msg)) (payload : Bytes) (c : Conn I R) :
    Sent c (coalesceLoop codec c payload entries) := by
  induction entries generalizing payload c with
  | nil =>
    unfold coalesceLoop
    split
    · exact sent_emitFrame payload
    · exact .inl rfl
  | cons e entries ih =>
    obtain ⟨flags, group, generation, msg⟩ := e
    -- once a frame went out, the rest
    have rest : ∀ {frame c₁} next, c.emitFrame frame = (true, c₁) →
        Sent c (coalesceLoop codec c₁ next entries) := fun next he => by
      rcases emitFrame_state _ he with ⟨-, hs⟩ | ⟨hb, -⟩
      · exact (ih next _).imp_left fun h => h.trans hs
      · cases hb
    have stop : ∀ {frame c₁}, c.emitFrame frame = (false, c₁) → Sent c c₁ := fun he => by
      rcases emitFrame_state _ he with ⟨hb, -⟩ | ⟨-, hs⟩
      · cases hb
      · exact .inr hs
    unfold coalesceLoop
    simp only
    split
    · split
      · next he => exact stop he
      · next he => exact rest _ he
    split
    · split
      · next he => exact stop he
      · next he => exact rest _ he
    · exact ih _ c

theorem sent_sendMessage (group : Bytes) (generation : UInt64) (msg : Msg) :
    Sent c (c.sendMessage codec group generation msg) := by
  unfold sendMessage
  split
  · exact .inl rfl
  · exact sent_emitFrame _

theorem sent_sendCoalesced (entries : List (CoalescedEntry Msg)) : Sent c (c.sendCoalesced codec entries) := by
  unfold sendCoalesced
  split
  · exact .inl rfl
  · exact sent_coalesceLoop entries _ c

theorem sent_sendProbe : Sent c c.sendProbe := by
  unfold sendProbe
  split
  · exact .inl rfl
  · exact sent_emitFrame _

/-- The layer after it took the bytes as `handle_data` offers them to it. -/
def absorb : Nat → R → Bytes → Instant → R
  | 0, record, _, _ => record
  | fuel + 1, record, input, now =>
    let (taken, record) := RecordIo.handleTransportData record input now
    let record := (RecordIo.readPlaintext record).2
    match taken with
    | .pending n => if input.drop n = [] then record else absorb fuel record (input.drop n) now
    | _ => record

/-- The layer learns from these bytes that the peer closes the connection. -/
def closesInBand (record : R) (bytes : Bytes) (now : Instant) : Bool :=
  RecordIo.peerHasClosed (absorb (2 * bytes.length + 2) record bytes now)

theorem tryValidate_open (h : c.tryValidate codec = (.ok (), c')) (opened : c.isClosed = false) :
    c'.isClosed = false ∧ c'.record = c.record := by
  unfold tryValidate at h
  split at h
  · split at h
    · exact (Prod.mk.inj h).2 ▸ ⟨opened, rfl⟩
    split at h
    · exact (Prod.mk.inj h).2 ▸ ⟨opened, rfl⟩
    split at h
    · exact (Prod.mk.inj h).2 ▸ ⟨rfl, rfl⟩
    · cases h
  · exact (Prod.mk.inj h).2 ▸ ⟨opened, rfl⟩

theorem intake_open {input rest : Bytes} {progress : Bool} {now : Instant}
    (h : intake codec c input now = (.ok (rest, progress), c')) (opened : c.isClosed = false) :
    c'.isClosed = false ∧ c'.record = (RecordIo.readPlaintext (RecordIo.handleTransportData c.record input now).2).2 ∧
      rest = match (RecordIo.handleTransportData c.record input now).1 with
        | .pending n => input.drop n
        | _ => [] := by
  unfold intake at h
  split at h
  · cases h
  next taken record failed read =>
  simp only at h
  split at h
  · cases h
  next c₁ validated =>
  obtain ⟨same, rfl⟩ := Prod.mk.inj h
  obtain ⟨still, record_eq⟩ := tryValidate_open validated opened
  rw [read]
  refine ⟨still, record_eq, ?_⟩
  rw [← (Prod.mk.inj (Except.ok.inj same)).1]
  cases taken <;> rfl

/-- The loop keeps an open connection open, and does to its layer what `absorb` does. -/
theorem intakeLoop_open {fuel : Nat} {input : Bytes} {now : Instant}
    (h : intakeLoop codec fuel c input now = (.ok (), c')) (opened : c.isClosed = false) :
    c'.isClosed = false ∧ c'.record = absorb fuel c.record input now := by
  induction fuel generalizing c input with
  | zero => cases h
  | succ fuel ih =>
    unfold intakeLoop at h
    split at h
    · cases h
    next rest progress c₁ round =>
    obtain ⟨still, record_eq, rest_eq⟩ := intake_open round opened
    have done : rest = [] → c₁.record = absorb (fuel + 1) c.record input now := by
      intro none_left
      rw [record_eq, absorb]
      cases taken : (RecordIo.handleTransportData c.record input now).1 with
      | pending n =>
        rw [taken] at rest_eq
        simp only [taken, ← rest_eq, if_pos none_left]
      | done | failed => simp only [taken]
    split at h
    · next none_left => exact (Prod.mk.inj h).2 ▸ ⟨still, done none_left⟩
    next some_left =>
    split at h
    · cases h
    obtain ⟨still', record_eq'⟩ := ih h still
    refine ⟨still', record_eq'.trans ?_⟩
    split at rest_eq
    · next taken => simp only [absorb, taken, ← rest_eq, if_neg some_left, record_eq]
    · exact absurd rest_eq some_left

/-- A read that does not end the stream leaves the connection open. -/
theorem handleData_open {bytes : Bytes} {now : Instant} (h : c.handleData codec bytes false now = (.ok (), c'))
    (opened : c.isClosed = false) (goes_on : closesInBand c.record bytes now = false) : c'.isClosed = false := by
  unfold handleData at h
  rw [opened] at h
  simp only [Bool.false_eq_true, if_false] at h
  split at h
  · cases h
  next c₁ loop =>
  obtain ⟨still, record_eq⟩ := intakeLoop_open loop opened
  have alive : RecordIo.peerHasClosed c₁.record = false := by
    rw [record_eq]
    exact goes_on
  rw [alive] at h
  exact (Prod.mk.inj h).2 ▸ still

/-- The peer of a validated connection does not change any more. -/
theorem handleData_state {p : I} {bytes : Bytes} {eof : Bool} {now : Instant}
    (hv : c.state = .validated p) (h : c.handleData codec bytes eof now = (.ok (), c')) :
    c'.peer = some p := by
  have round : ∀ (c c' : Conn I R) input r, c.state = .validated p →
      intake codec c input now = (.ok r, c') → c'.state = .validated p := by
    intro c c' input r hc h
    unfold intake at h
    split at h
    · cases h
    · simp only [tryValidate, hc] at h
      rw [← (Prod.mk.inj h).2]
  have loop : ∀ fuel (c c' : Conn I R) input, c.state = .validated p →
      intakeLoop codec fuel c input now = (.ok (), c') → c'.state = .validated p := by
    intro fuel
    induction fuel with
    | zero =>
      intro c c' input _ h
      cases h
    | succ fuel ih =>
      intro c c' input hc h
      unfold intakeLoop at h
      split at h
      · cases h
      next hr =>
      have hc₁ := round _ _ _ _ hc hr
      split at h
      · exact (Prod.mk.inj h).2 ▸ hc₁
      split at h
      · cases h
      · exact ih _ _ _ hc₁ h
  have hopen : c.isClosed = false := by
    unfold isClosed
    rw [hv]
  unfold handleData at h
  rw [hopen] at h
  simp only [Bool.false_eq_true, if_false] at h
  split at h
  · cases h
  next c₁ hl =>
  have hc₁ := loop _ _ _ _ hv hl
  rw [← (Prod.mk.inj h).2]
  split
  · unfold closeClean releaseOut peer currentPeer
    simp only [hc₁]
  · unfold peer
    rw [hc₁]

end Conn

/-! ## The table -/

theorem getElem?_insert {α : Type} (m : Std.TreeMap ConnId α) (k a : ConnId) (v : α) :
    (m.insert k v)[a]? = if a = k then some v else m[a]? := by
  have hk : compare k a = .eq ↔ a = k := by rw [Nat.compare_eq_eq, eq_comm]
  rw [Std.TreeMap.getElem?_insert]
  simp only [hk]

theorem getElem?_erase {α : Type} (m : Std.TreeMap ConnId α) (k a : ConnId) :
    (m.erase k)[a]? = if a = k then none else m[a]? := by
  have hk : compare k a = .eq ↔ a = k := by rw [Nat.compare_eq_eq, eq_comm]
  rw [Std.TreeMap.getElem?_erase]
  simp only [hk]

namespace PeerRouter

variable {r r' r₁ r₂ : PeerRouter I R} {me : I} {id : ConnId}

/-- `p` may be the peer of the connection `id`. -/
structure Fits (me : I) (r : PeerRouter I R) (id : ConnId) (p : I) : Prop where
  other : p ≠ me
  dialed : ∀ e, r.provenance[id]? = some (.dialed e) → p = e

/-- What holds of a connection between calls. -/
def Sound (me : I) (r : PeerRouter I R) (id : ConnId) (c : Conn I R) : Prop :=
  c.isClosed = false ∧ ∀ p, c.peer = some p → Fits me r id p

structure Inv (me : I) (r : PeerRouter I R) : Prop where
  self : r.localId = some me
  sound : ∀ id c, r.conns[id]? = some c → Sound me r id c

/-- A connection of `r'` was there before, opened the same way and in the same
state. -/
def Kept (r r' : PeerRouter I R) (id : ConnId) : Prop :=
  ∀ c', r'.conns[id]? = some c' → r'.provenance[id]? = r.provenance[id]? ∧
    ∃ c, r.conns[id]? = some c ∧ c'.state = c.state

theorem Kept.refl (r : PeerRouter I R) (id : ConnId) : Kept r r id := fun c h => ⟨rfl, c, h, rfl⟩

theorem Kept.trans (h : Kept r r₁ id) (k : Kept r₁ r₂ id) : Kept r r₂ id := fun c hc => by
  obtain ⟨hp, c₁, hc₁, hs⟩ := k c hc
  obtain ⟨hp₁, c₀, hc₀, hs₀⟩ := h c₁ hc₁
  exact ⟨hp.trans hp₁, c₀, hc₀, hs.trans hs₀⟩

/-- Nothing but drops connections. -/
structure Shrinks (r r' : PeerRouter I R) : Prop where
  self : r'.localId = r.localId
  kept : ∀ id, Kept r r' id

theorem Shrinks.refl (r : PeerRouter I R) : Shrinks r r := ⟨rfl, Kept.refl r⟩

theorem Shrinks.trans (h : Shrinks r r₁) (k : Shrinks r₁ r₂) : Shrinks r r₂ :=
  ⟨k.self.trans h.self, fun id => (h.kept id).trans (k.kept id)⟩

theorem Shrinks.inv (h : Shrinks r r') (inv : Inv me r) : Inv me r' := by
  refine ⟨h.self.trans inv.self, fun id c' hc' => ?_⟩
  obtain ⟨hp, c, hc, hs⟩ := h.kept id c' hc'
  obtain ⟨hopen, hfit⟩ := inv.sound id c hc
  refine ⟨(Conn.isClosed_of_state hs).trans hopen, fun p hpeer => ?_⟩
  have hf := hfit p ((Conn.peer_of_state hs).symm.trans hpeer)
  exact ⟨hf.other, fun e he => hf.dialed e (hp.symm.trans he)⟩

theorem Shrinks.foldl {α : Type} {f : PeerRouter I R → α → PeerRouter I R}
    (step : ∀ r a, Shrinks r (f r a)) (l : List α) (r : PeerRouter I R) :
    Shrinks r (l.foldl f r) := by
  induction l generalizing r with
  | nil => exact .refl r
  | cons a l ih => exact (step r a).trans (ih (f r a))

/-- What is left once `id` is dropped, whatever became of it before. -/
theorem kept_remove (conns : Std.TreeMap ConnId (Conn I R)) {a : ConnId}
    (hc : a ≠ id → conns[a]? = r.conns[a]?) (reason : Option TransportError) :
    Kept r ({ r with conns := conns }.removeInternal id reason) a := by
  intro c' hc'
  have he : (conns.erase id)[a]? = some c' := hc'
  rw [getElem?_erase] at he
  split at he
  · cases he
  next hne =>
  refine ⟨?_, c', (hc hne) ▸ he, rfl⟩
  show (r.provenance.erase id)[a]? = _
  rw [getElem?_erase, if_neg hne]

theorem shrinks_removeInternal (id : ConnId) (reason : Option TransportError) :
    Shrinks r (r.removeInternal id reason) :=
  ⟨rfl, fun _ => kept_remove r.conns (fun _ => rfl) reason⟩

theorem shrinks_remove (id : ConnId) : Shrinks r (r.remove id) := ⟨rfl, (shrinks_removeInternal id none).kept⟩

theorem shrinks_use {c c' : Conn I R} (hc : r.conns[id]? = some c) (h : Conn.Sent c c') :
    Shrinks r (if c'.isClosed then { r with conns := r.conns.insert id c' }.removeInternal id none
      else { r with conns := r.conns.insert id c' }) := by
  split
  · exact ⟨rfl, fun a => kept_remove _ (fun hne => by rw [getElem?_insert, if_neg hne]) none⟩
  next hopen =>
  refine ⟨rfl, fun a x hx => ⟨rfl, ?_⟩⟩
  have hx : (r.conns.insert id c')[a]? = some x := hx
  rw [getElem?_insert] at hx
  split at hx
  · next ha =>
    obtain rfl := Option.some.inj hx
    rcases h with h | h
    · exact ⟨c, ha ▸ hc, h⟩
    · exact absurd h hopen
  · exact ⟨x, hx, rfl⟩

theorem shrinks_routeWith {send : Conn I R → Conn I R} (dest : I) (h : ∀ c, Conn.Sent c (send c)) :
    Shrinks r (r.routeWith dest send) := by
  unfold routeWith
  split
  · exact .refl r
  split
  · exact .refl r
  · next c hc => exact shrinks_use hc (h c)

section

variable [RecordIo R]

theorem shrinks_probe (now : Instant) (r : PeerRouter I R) (id : ConnId) : Shrinks r (r.probe now id) := by
  unfold probe
  split
  · exact .refl r
  next c hc =>
  have h := shrinks_use hc (Conn.sent_sendProbe (c := c))
  simp only
  split
  · next hcl =>
    rw [if_pos hcl] at h
    exact h
  next hop =>
  rw [if_neg hop] at h
  exact ⟨h.self, h.kept⟩

theorem shrinks_serviceLiveness (now : Instant) : Shrinks r (r.serviceLiveness now) :=
  (Shrinks.foldl (fun _ id => shrinks_removeInternal id _) _ r).trans
    (Shrinks.foldl (shrinks_probe now) _ _)

theorem shrinks_pollTransmit : Shrinks r r.pollTransmit := by
  refine ⟨rfl, fun id c' hc' => ⟨rfl, ?_⟩⟩
  have hc' : (r.conns.map fun _ c => c.pollTransmit.2)[id]? = some c' := hc'
  rw [Std.TreeMap.getElem?_map] at hc'
  obtain ⟨c, hc, he⟩ := Option.map_eq_some_iff.mp hc'
  exact ⟨c, hc, he ▸ rfl⟩

end

theorem new_inv (me : I) : Inv me ((new : PeerRouter I R).setLocalId me) := by
  refine ⟨rfl, fun id c hc => ?_⟩
  have hc : (∅ : Std.TreeMap ConnId (Conn I R))[id]? = some c := hc
  cases hc

/-- A registration opens a connection of its own, or changes nothing. -/
theorem register_spec {provenance : Provenance I} {record : R} {now : Instant} (inv : Inv me r) :
    Inv me (r.register id provenance record now) ∧
      ∀ (a : ConnId) c, r.conns[a]? = some c → (r.register id provenance record now).provenance[a]? =
        r.provenance[a]? := by
  unfold register
  split
  · have h : Shrinks r { r with closed := r.closed ++ [(id, some .duplicateConnId)] } :=
      ⟨rfl, fun a x hx => ⟨rfl, x, hx, rfl⟩⟩
    exact ⟨h.inv inv, fun _ _ _ => rfl⟩
  next hfree =>
  have hid : r.conns[id]? = none := by
    rw [Std.TreeMap.contains_eq_isSome_getElem?] at hfree
    exact Option.not_isSome_iff_eq_none.mp hfree
  refine ⟨⟨inv.self, fun a c hc => ?_⟩, fun a c hc => ?_⟩
  · have hc : (r.conns.insert id (Conn.new record))[a]? = some c := hc
    rw [getElem?_insert] at hc
    split at hc
    · obtain rfl := Option.some.inj hc
      exact ⟨rfl, fun p hp => absurd hp (by simp [Conn.peer, Conn.new])⟩
    next ha =>
    obtain ⟨hopen, hfit⟩ := inv.sound a c hc
    refine ⟨hopen, fun p hp => ⟨(hfit p hp).other, fun e he => (hfit p hp).dialed e ?_⟩⟩
    have he : (r.provenance.insert id provenance)[a]? = some (.dialed e) := he
    rwa [getElem?_insert, if_neg ha] at he
  · have ha : a ≠ id := fun ha => by
      rw [ha, hid] at hc
      cases hc
    show (r.provenance.insert id provenance)[a]? = _
    rw [getElem?_insert, if_neg ha]

/-! ## A read -/

/-- Only the connection `id` may have changed its state. -/
structure Beside (id : ConnId) (r r' : PeerRouter I R) : Prop where
  self : r'.localId = r.localId
  kept : ∀ a, a ≠ id → Kept r r' a
  opened : ∀ c, r'.conns[id]? = some c → r'.provenance[id]? = r.provenance[id]?
  there : ∀ c, r'.conns[id]? = some c → ∃ c₀, r.conns[id]? = some c₀

theorem Beside.inv (h : Beside id r r') (inv : Inv me r)
    (own : ∀ c, r'.conns[id]? = some c → Sound me r id c) : Inv me r' := by
  refine ⟨h.self.trans inv.self, fun a c' hc' => ?_⟩
  by_cases ha : a = id
  · subst ha
    obtain ⟨hopen, hfit⟩ := own c' hc'
    have hp := h.opened c' hc'
    exact ⟨hopen, fun p hpeer => ⟨(hfit p hpeer).other, fun e he => (hfit p hpeer).dialed e (hp ▸ he)⟩⟩
  · obtain ⟨hp, c, hc, hs⟩ := h.kept a ha c' hc'
    obtain ⟨hopen, hfit⟩ := inv.sound a c hc
    refine ⟨(Conn.isClosed_of_state hs).trans hopen, fun p hpeer => ?_⟩
    have hf := hfit p ((Conn.peer_of_state hs).symm.trans hpeer)
    exact ⟨hf.other, fun e he => hf.dialed e (hp.symm.trans he)⟩

theorem Beside.insert {c c' : Conn I R} (h : Beside id r r') (hc : r'.conns[id]? = some c) :
    Beside id r { r' with conns := r'.conns.insert id c' } := by
  refine ⟨h.self, fun a ha x hx => h.kept a ha x ?_, fun _ _ => h.opened c hc, fun _ _ => h.there c hc⟩
  have hx : (r'.conns.insert id c')[a]? = some x := hx
  rwa [getElem?_insert, if_neg ha] at hx

theorem Beside.shrinks (h : Beside id r r₁) (k : Shrinks r₁ r₂) : Beside id r r₂ := by
  refine ⟨k.self.trans h.self, fun a ha => (h.kept a ha).trans (k.kept a), fun c hc => ?_, fun c hc => ?_⟩
  · obtain ⟨hp, c₁, hc₁, -⟩ := k.kept id c hc
    exact hp.trans (h.opened c₁ hc₁)
  · obtain ⟨-, c₁, hc₁, -⟩ := k.kept id c hc
    exact h.there c₁ hc₁

theorem removeInternal_conns (a : ConnId) (reason : Option TransportError) :
    (r.removeInternal id reason).conns[a]? = if a = id then none else r.conns[a]? :=
  getElem?_erase r.conns id a

section

variable [LinearOrder I]

/-- A binding passed the checks; without one the connection is gone. -/
theorem bindPeer_spec {p : I} {now : Instant} {b : Bool} {c : Conn I R} (h : Beside id r r₁)
    (hc : r₁.conns[id]? = some c) (hme : r.localId = some me)
    (hb : r₁.bindPeer id p now = (b, r₂)) :
    Beside id r r₂ ∧ (b = true → Fits me r id p ∧ r₂.conns[id]? = some c) ∧ (b = false → r₂.conns[id]? = none) := by
  have hprov := h.opened c hc
  -- the connection is dropped
  have dropped : ∀ {r₃ : PeerRouter I R} {reason}, Shrinks r₁ r₃ → (false, r₃.removeInternal id reason) = (b, r₂) →
      Beside id r r₂ ∧ (b = true → Fits me r id p ∧ r₂.conns[id]? = some c) ∧
        (b = false → r₂.conns[id]? = none) := fun {r₃ reason} hs he => by
    obtain ⟨rfl, rfl⟩ := Prod.mk.inj he
    refine ⟨h.shrinks (hs.trans (shrinks_removeInternal id reason)), fun hb => absurd hb (by simp), fun _ => ?_⟩
    rw [removeInternal_conns, if_pos rfl]
  unfold bindPeer at hb
  split at hb
  · exact dropped (.refl r₁) hb
  next hself =>
  simp only at hb
  split at hb
  · exact dropped (.refl r₁) hb
  next hcross =>
  have hfit : Fits me r id p := by
    refine ⟨fun he => hself ?_, fun e he => ?_⟩
    · rw [h.self, hme, he]
    · unfold crossed at hcross
      rw [hprov, he] at hcross
      have hcross : ¬ decide (e ≠ p) = true := hcross
      rw [decide_eq_true_iff, not_not] at hcross
      exact hcross.symm
  -- the connection is bound
  have bound : ∀ {r₃ : PeerRouter I R}, Shrinks r₁ r₃ → r₃.conns[id]? = some c → b = true →
      r₂.localId = r₃.localId → r₂.conns = r₃.conns → r₂.provenance = r₃.provenance →
      Beside id r r₂ ∧ (b = true → Fits me r id p ∧ r₂.conns[id]? = some c) ∧
        (b = false → r₂.conns[id]? = none) := fun {r₃} hs hc₃ hb h₁ h₂ h₃ => by
    have hk : Shrinks r₃ r₂ := ⟨h₁, fun a x hx => ⟨by rw [h₃], x, h₂ ▸ hx, rfl⟩⟩
    exact ⟨h.shrinks (hs.trans hk), fun _ => ⟨hfit, h₂ ▸ hc₃⟩, fun hf => absurd hf (by simp [hb])⟩
  have hs : ∀ m : Std.TreeMap ConnId Instant, Shrinks r₁ { r₁ with handshakeDeadline := m } :=
    fun m => ⟨rfl, fun a x hx => ⟨rfl, x, hx, rfl⟩⟩
  split at hb
  · obtain ⟨rfl, rfl⟩ := Prod.mk.inj hb
    exact bound (hs _) hc rfl rfl rfl rfl
  next prev hprev =>
  split at hb
  · obtain ⟨rfl, rfl⟩ := Prod.mk.inj hb
    exact bound (hs _) hc rfl rfl rfl rfl
  next hne =>
  split at hb
  · exact dropped (hs _) hb
  obtain ⟨rfl, rfl⟩ := Prod.mk.inj hb
  refine bound ((hs _).trans (shrinks_removeInternal prev none)) ?_ rfl rfl rfl rfl
  rw [removeInternal_conns, if_neg (Ne.symm hne)]
  exact hc

end

theorem deliver_spec {c : Conn I R} {res : Except TransportError (List (Delivery I Msg))}
    (h : Beside id r r₁) (hc : r₁.conns[id]? = some c) (hfit : ∀ p, c.peer = some p → Fits me r id p)
    (hd : r₁.deliver codec id = (res, r₂)) :
    Beside id r r₂ ∧ ∀ out, res = .ok out → (∀ d ∈ out, Fits me r id d.2.2.2.1) ∧
      ∃ c₂, r₂.conns[id]? = some c₂ ∧ c₂.state = c.state := by
  unfold deliver at hd
  rw [hc] at hd
  simp only at hd
  split at hd
  · next e c₂ _ =>
    obtain ⟨rfl, rfl⟩ := Prod.mk.inj hd
    exact ⟨h.insert hc, fun out he => absurd he (by simp)⟩
  next msgs c₂ hpoll =>
  obtain ⟨rfl, rfl⟩ := Prod.mk.inj hd
  have hs : c₂.state = c.state := Conn.pollDecoded_state hpoll
  refine ⟨h.insert hc, fun out he => ⟨fun d hdm => ?_, c₂, ?_, hs⟩⟩
  · obtain rfl := Except.ok.inj he
    split at hdm
    · next p hp =>
      obtain ⟨m, -, rfl⟩ := List.mem_map.mp hdm
      exact hfit p ((Conn.peer_of_state hs).symm.trans hp)
    · exact absurd hdm List.not_mem_nil
  · show (r₁.conns.insert id c₂)[id]? = some c₂
    rw [getElem?_insert, if_pos rfl]

section

variable [RecordIo R]

/-- The read ends the stream of a connection that is still handshaking. -/
def cutsHello (r : PeerRouter I R) : Call I R Msg → Bool
  | .handleConnData id bytes eof now =>
    match r.conns[id]? with
    | some c =>
      match c.state with
      | .handshaking => eof || Conn.closesInBand c.record bytes now
      | _ => false
    | none => false
  | _ => false

variable {bytes : Bytes} {eof : Bool} {now : Instant} {calls : List (Call I R Msg)}

/-- The peer of a connection that a read closed was checked before. -/
theorem fits_of_closed {c c' : Conn I R} {p : I} (inv : Inv me r) (hc : r.conns[id]? = some c)
    (whole : r.cutsHello (.handleConnData id bytes eof now : Call I R Msg) = false)
    (hd : c.handleData codec bytes eof now = (.ok (), c')) (hcl : c'.isClosed = true)
    (hp : c'.peer = some p) : Fits me r id p := by
  obtain ⟨hopen, hfit⟩ := inv.sound id c hc
  cases hs : c.state with
  | handshaking =>
    -- this is the read that is excluded
    simp only [cutsHello, hc, hs, Bool.or_eq_false_iff] at whole
    obtain ⟨rfl, goes_on⟩ := whole
    rw [Conn.handleData_open hd hopen goes_on] at hcl
    cases hcl
  | validated q =>
    have hq : c'.peer = some q := Conn.handleData_state hs hd
    rw [hp] at hq
    refine hfit p ?_
    unfold Conn.peer
    rw [hs, Option.some.inj hq]
  | closed =>
    unfold Conn.isClosed at hopen
    rw [hs] at hopen
    cases hopen

variable [LinearOrder I]

theorem handleConnDataInner_spec {res : Except TransportError (List (Delivery I Msg))} (inv : Inv me r)
    (whole : r.cutsHello (.handleConnData id bytes eof now : Call I R Msg) = false)
    (h : r.handleConnDataInner codec id bytes eof now = (res, r₂)) :
    Beside id r r₂ ∧ ∀ out, res = .ok out → (∀ d ∈ out, Fits me r id d.2.2.2.1) ∧
      ∀ c, r₂.conns[id]? = some c → ∀ p, c.peer = some p → Fits me r id p := by
  have same : Beside id r r := ⟨rfl, fun a _ => Kept.refl r a, fun _ _ => rfl, fun c hc => ⟨c, hc⟩⟩
  unfold handleConnDataInner at h
  split at h
  · next hnone =>
    obtain ⟨rfl, rfl⟩ := Prod.mk.inj h
    refine ⟨same, fun out he => ?_⟩
    obtain rfl := Except.ok.inj he
    exact ⟨fun d hd => absurd hd List.not_mem_nil, fun c hc => absurd (hnone.symm.trans hc) (by simp)⟩
  next c hc =>
  split at h
  · obtain ⟨rfl, rfl⟩ := Prod.mk.inj h
    exact ⟨same.insert hc, fun out he => absurd he (by simp)⟩
  next c₁ hdata =>
  have h₁ : Beside id r { r with conns := r.conns.insert id c₁ } := same.insert hc
  have hc₁ : ({ r with conns := r.conns.insert id c₁ } : PeerRouter I R).conns[id]? = some c₁ := by
    show (r.conns.insert id c₁)[id]? = some c₁
    rw [getElem?_insert, if_pos rfl]
  -- a connection with a checked peer hands out what it has
  have delivers : ∀ {r₁ : PeerRouter I R}, Beside id r r₁ → r₁.conns[id]? = some c₁ →
      (∀ p, c₁.peer = some p → Fits me r id p) → r₁.deliver codec id = (res, r₂) →
      Beside id r r₂ ∧ ∀ out, res = .ok out → (∀ d ∈ out, Fits me r id d.2.2.2.1) ∧
        ∀ c, r₂.conns[id]? = some c → ∀ p, c.peer = some p → Fits me r id p :=
    fun hb hc₁ hfit hd => by
      obtain ⟨hb₂, hout⟩ := deliver_spec hb hc₁ hfit hd
      refine ⟨hb₂, fun out he => ⟨(hout out he).1, fun x hx p hp => ?_⟩⟩
      obtain ⟨c₂, hc₂, hs⟩ := (hout out he).2
      obtain rfl := Option.some.inj (hc₂.symm.trans hx)
      exact hfit p ((Conn.peer_of_state hs).symm.trans hp)
  simp only at h
  split at h
  · next hcl =>
    exact delivers h₁ hc₁ (fun p hp => fits_of_closed inv hc whole hdata hcl hp) h
  split at h
  · next hnone => exact delivers h₁ hc₁ (fun p hp => absurd (hnone.symm.trans hp) (by simp)) h
  next peer hpeer =>
  split at h
  · next r₃ hbind =>
    obtain ⟨hb₃, hok, -⟩ := bindPeer_spec h₁ hc₁ inv.self hbind
    refine delivers hb₃ (hok rfl).2 (fun p hp => ?_) h
    rw [← Option.some.inj (hpeer.symm.trans hp)]
    exact (hok rfl).1
  · next r₃ hbind =>
    obtain ⟨hb₃, -, hgone⟩ := bindPeer_spec h₁ hc₁ inv.self hbind
    obtain ⟨rfl, rfl⟩ := Prod.mk.inj h
    refine ⟨hb₃, fun out he => ?_⟩
    obtain rfl := Except.ok.inj he
    exact ⟨fun d hd => absurd hd List.not_mem_nil, fun c hc => absurd ((hgone rfl).symm.trans hc) (by simp)⟩

theorem handleConnData_spec (inv : Inv me r)
    (whole : r.cutsHello (.handleConnData id bytes eof now : Call I R Msg) = false) :
    Beside id r (r.handleConnData codec id bytes eof now).2 ∧ Inv me (r.handleConnData codec id bytes eof now).2 ∧
      ∀ d ∈ (r.handleConnData codec id bytes eof now).1, Fits me r id d.2.2.2.1 := by
  unfold handleConnData
  split
  · next e r₂ hin =>
    obtain ⟨hb, -⟩ := handleConnDataInner_spec inv whole hin
    have hb := hb.shrinks (shrinks_removeInternal id (some e))
    refine ⟨hb, hb.inv inv fun c hc => ?_, fun d hd => absurd hd List.not_mem_nil⟩
    rw [removeInternal_conns, if_pos rfl] at hc
    cases hc
  · next out r₂ hin =>
    obtain ⟨hb, hout⟩ := handleConnDataInner_spec inv whole hin
    obtain ⟨hdel, hfit⟩ := hout out rfl
    split
    · next hnone =>
      exact ⟨hb, hb.inv inv fun c hc => absurd (hnone.symm.trans hc) (by simp), hdel⟩
    next c hc =>
    -- a connection that is still open stays
    have stays : ¬ c.isClosed = true → ∀ x, r₂.conns[id]? = some x → Sound me r id x := fun hopen x hx => by
        obtain rfl := Option.some.inj (hc.symm.trans hx)
        exact ⟨(Bool.not_eq_true _).mp hopen, hfit c hc⟩
    split
    · have hb := hb.shrinks (shrinks_removeInternal id none)
      refine ⟨hb, hb.inv inv fun x hx => ?_, hdel⟩
      rw [removeInternal_conns, if_pos rfl] at hx
      cases hx
    · next hopen =>
      split
      · have hb' : Beside id r { r₂ with
            idleDeadline := r₂.idleDeadline.insert id (now + idleTimeout) } :=
          ⟨hb.self, hb.kept, hb.opened, hb.there⟩
        exact ⟨hb', hb'.inv inv (stays hopen), hdel⟩
      · exact ⟨hb, hb.inv inv (stays hopen), hdel⟩

/-! ## Runs -/

variable (codec) in
/-- No read of the run does that. -/
def hellosWhole : PeerRouter I R → List (Call I R Msg) → Bool
  | _, [] => true
  | r, call :: calls => !r.cutsHello call && hellosWhole (r.exec codec call) calls

/-- Every call but a registration and a read only drops connections. -/
theorem exec_spec (inv : Inv me r) (call : Call I R Msg) (whole : r.cutsHello call = false) :
    Inv me (r.exec codec call) ∧ ∀ (a : ConnId) c c', r.conns[a]? = some c → (r.exec codec call).conns[a]? = some c' →
      (r.exec codec call).provenance[a]? = r.provenance[a]? := by
  have shrinks : ∀ {r' : PeerRouter I R}, Shrinks r r' → Inv me r' ∧ ∀ (a : ConnId) c c', r.conns[a]? = some c →
      r'.conns[a]? = some c' → r'.provenance[a]? = r.provenance[a]? := fun h =>
    ⟨h.inv inv, fun a _ c' _ hc' => (h.kept a c' hc').1⟩
  cases call with
  | registerDial | registerAccept =>
    exact (register_spec inv).imp_right fun h a c _ hc _ => h a c hc
  | handleConnData id =>
    obtain ⟨hb, hinv, -⟩ := handleConnData_spec inv whole
    refine ⟨hinv, fun a c c' _ hc' => ?_⟩
    by_cases ha : a = id
    · subst ha
      exact hb.opened c' hc'
    · exact (hb.kept a ha c' hc').1
  | reapHandshakes => exact shrinks (Shrinks.foldl (fun _ id => shrinks_removeInternal id _) _ r)
  | serviceLiveness now => exact shrinks (shrinks_serviceLiveness now)
  | remove id => exact shrinks (shrinks_remove id)
  | close id reason =>
    refine shrinks ?_
    show Shrinks r (r.close id reason)
    unfold PeerRouter.close
    split
    · exact shrinks_removeInternal id reason
    · exact .refl r
  | route group generation dest msg =>
    exact shrinks (shrinks_routeWith dest fun c => Conn.sent_sendMessage group generation msg)
  | routeCoalesced dest entries =>
    exact shrinks (shrinks_routeWith dest fun c => Conn.sent_sendCoalesced entries)
  | pollTransmit => exact shrinks shrinks_pollTransmit
  | pollConnClosed => exact shrinks ⟨rfl, fun a x hx => ⟨rfl, x, hx, rfl⟩⟩

theorem hellosWhole_append {more : List (Call I R Msg)} (h : r.hellosWhole codec (calls ++ more) = true) :
    r.hellosWhole codec calls = true ∧ (r.execs codec calls).hellosWhole codec more = true := by
  induction calls generalizing r with
  | nil => exact ⟨rfl, h⟩
  | cons call calls ih =>
    simp only [List.cons_append, hellosWhole, Bool.and_eq_true] at h
    obtain ⟨h₁, h₂⟩ := ih h.2
    refine ⟨?_, h₂⟩
    simp only [hellosWhole, Bool.and_eq_true]
    exact ⟨h.1, h₁⟩

theorem execs_inv (inv : Inv me r) (whole : r.hellosWhole codec calls = true) : Inv me (r.execs codec calls) := by
  induction calls generalizing r with
  | nil => exact inv
  | cons call calls ih =>
    simp only [hellosWhole, Bool.and_eq_true, Bool.not_eq_true'] at whole
    exact ih (exec_spec inv call whole.1).1 whole.2

/-- A connection that is never dropped stays the one that was opened. -/
theorem execs_provenance (inv : Inv me r) (whole : r.hellosWhole codec calls = true)
    (stays : ∀ k ≤ calls.length, (r.execs codec (calls.take k)).conns[id]? ≠ none) :
    (r.execs codec calls).provenance[id]? = r.provenance[id]? := by
  induction calls generalizing r with
  | nil => rfl
  | cons call calls ih =>
    simp only [hellosWhole, Bool.and_eq_true, Bool.not_eq_true'] at whole
    obtain ⟨hinv, hprov⟩ := exec_spec inv call whole.1
    obtain ⟨c, hc⟩ := Option.ne_none_iff_exists'.mp (stays 0 (Nat.zero_le _))
    have h1 : (r.exec codec call).conns[id]? ≠ none := stays 1 (by simp)
    obtain ⟨c', hc'⟩ := Option.ne_none_iff_exists'.mp h1
    refine (ih hinv whole.2 fun k hk => ?_).trans (hprov id c c' hc hc')
    exact stays (k + 1) (Nat.succ_le_succ hk)

/-- In every run whose reads end no stream of a connection that is handshaking: a
delivery is never from this node itself, and one on a dialed connection, as long
as that connection stays in the table, is from the peer that was dialed. -/
theorem deliveries_from_peer (me : I) (calls : List (Call I R Msg)) (id : ConnId) (bytes : Bytes)
    (eof : Bool) (now : Instant)
    (whole : ((new : PeerRouter I R).setLocalId me).hellosWhole codec
      (calls ++ [.handleConnData id bytes eof now]) = true) :
    let r := ((new : PeerRouter I R).setLocalId me).execs codec calls
    ∀ d ∈ (r.handleConnData codec id bytes eof now).1, d.2.2.2.1 ≠ me ∧
      ∀ before expected record t after, calls = before ++ .registerDial id expected record t :: after →
        (((new : PeerRouter I R).setLocalId me).execs codec before).conns[id]? = none →
        (∀ k ≤ after.length, (((new : PeerRouter I R).setLocalId me).execs codec
          (before ++ .registerDial id expected record t :: after.take k)).conns[id]? ≠ none) →
        d.2.2.2.1 = expected := by
  intro r d hd
  obtain ⟨hcalls, hlast⟩ := hellosWhole_append whole
  have inv : Inv me r := execs_inv (new_inv me) hcalls
  simp only [hellosWhole, Bool.and_eq_true, Bool.not_eq_true', and_true] at hlast
  obtain ⟨-, -, hfit⟩ := handleConnData_spec inv hlast
  refine ⟨(hfit d hd).other, fun before expected record t after he hfree stays => ?_⟩
  refine (hfit d hd).dialed expected ?_
  -- the connection is the one that was dialed
  obtain ⟨hbefore, hrest⟩ := hellosWhole_append (he ▸ hcalls)
  have inv₀ : Inv me (((new : PeerRouter I R).setLocalId me).execs codec before) :=
    execs_inv (new_inv me) hbefore
  set r₀ := ((new : PeerRouter I R).setLocalId me).execs codec before
  simp only [hellosWhole, Bool.and_eq_true, Bool.not_eq_true'] at hrest
  have split : ∀ more, ((new : PeerRouter I R).setLocalId me).execs codec
      (before ++ .registerDial id expected record t :: more) =
        (r₀.exec codec (.registerDial id expected record t)).execs codec more := fun more =>
    List.foldl_append ..
  have hprov := execs_provenance (exec_spec inv₀ _ hrest.1).1 hrest.2 (fun k hk => by
    rw [← split]
    exact stays k hk)
  have hr : r = (r₀.exec codec (.registerDial id expected record t)).execs codec after := by
    rw [← split after, ← he]
  rw [hr, hprov]
  show (r₀.register id (.dialed expected) record t).provenance[id]? = _
  have hfresh : r₀.conns.contains id = false := by
    rw [Std.TreeMap.contains_eq_isSome_getElem?, hfree]
    rfl
  unfold register
  rw [hfresh]
  show (r₀.provenance.insert id (.dialed expected))[id]? = _
  rw [getElem?_insert, if_pos rfl]

end

end PeerRouter

/-! ## Plain connections -/

/-- What a node sends on a connection it opens: its hello and one message. -/
def greeting (sender : UInt8) : Bytes :=
  buildHello plainCluster [sender] ++ encodeFrame (Conn.messagePayload plainCodec [] 0 [7])

/-- Node 0 has dialed node 2 over a plain connection. -/
def dialedTwo (record : Labeled Passthrough) : PeerRouter Nat (Labeled Passthrough) :=
  (PeerRouter.new.setLocalId 0).execs plainCodec [.registerDial 1 2 record 0]

theorem greeting_from_two : ∃ record, Labeled.dialer Passthrough.new ⟨plainCluster, [0]⟩ = .ok record ∧
    ((dialedTwo record).handleConnData plainCodec 1 (greeting 2) false 0).1 = [([], 0, 0, 2, [7])] ∧
    ∀ d ∈ ((dialedTwo record).handleConnData plainCodec 1 (greeting 2) false 0).1, d.2.2.2.1 = 2 := by
  refine ⟨_, rfl, by decide +kernel, fun d hd => ?_⟩
  exact (PeerRouter.deliveries_from_peer 0 [.registerDial 1 2 _ 0] 1 (greeting 2) false 0
    (by decide +kernel) d hd).2 [] 2 _ 0 [] rfl rfl (by decide +kernel)

/-- The hello is node 0's own, and the end of the stream comes with it: the
message is handed out as one from node 0, on the connection to node 2. -/
theorem greeting_cut : ∃ record, Labeled.dialer Passthrough.new ⟨plainCluster, [0]⟩ = .ok record ∧
    ((dialedTwo record).handleConnData plainCodec 1 (greeting 0) true 0).1 = [([], 0, 0, 0, [7])] :=
  ⟨_, rfl, by decide +kernel⟩

end Sailing.Transport
