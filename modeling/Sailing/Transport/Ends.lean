import Sailing.Transport.Conn
import Sailing.Transport.Link
import Sailing.Transport.Reassembly

/-!
# The two ends of a stream

A sending and a receiving connection over a lossless record layer. What the
sender has handed to its layer, the hello it owes and what it still holds are,
in this order, the hello and the frames it accepted (`Sending`); what the
receiver was given is the hello, the frames it has decoded and what its decoder
holds (`Receiving`).
-/

namespace Sailing.Transport

open List (append_nil append_assoc flatMap_append length_append)

open RecordIo

variable {I R Msg : Type} {codec : Codec I Msg}

/-- The tuples of a frame. -/
def tuplesOf (codec : Codec I Msg) (p : Bytes) : List (Tuple Msg) :=
  match Conn.decodeFrame codec p with
  | .ok tuples => tuples
  | .error _ => []

/-- A frame the decoder and the connection take. -/
def FrameOk (codec : Codec I Msg) (p : Bytes) : Prop :=
  p.length ≤ maxFrameLen ∧ Conn.decodeFrame codec p = .ok (tuplesOf codec p)

/-! ## What is accepted -/

section

variable [RecordIo R]

variable (codec) in
/-- The message, if its frame was queued. -/
def acceptedMessage (c : Conn I R) (group : Bytes) (generation : UInt64) (msg : Msg) :
    List (Tuple Msg) :=
  if c.isClosed then []
  else if (c.emitFrame (Conn.messagePayload codec group generation msg)).1 then
    [(group, 0, generation, msg)] else []

variable (codec) in
/-- The entries whose frame was queued, `batch` being those in `payload`. -/
def acceptedLoop : Conn I R → Bytes → List (Tuple Msg) → List (CoalescedEntry Msg) → List (Tuple Msg)
  | c, payload, batch, [] => if 2 < payload.length ∧ (c.emitFrame payload).1 then batch else []
  | c, payload, batch, (flags, group, generation, msg) :: entries =>
    let bytes := codec.encodeMessage msg
    let entryLen := coalescedEntryLen group.length generation bytes.length
    let entry := writeCoalescedEntry flags group generation bytes
    if coalescedFrameBudget < entryLen then
      match c.emitFrame (writeGroupHeader group generation ++ bytes) with
      | (false, _) => []
      | (true, c) => (group, flags, generation, msg) :: acceptedLoop c payload batch entries
    else if 2 < payload.length ∧ coalescedFrameBudget < payload.length + entryLen then
      match c.emitFrame payload with
      | (false, _) => []
      | (true, c) =>
        batch ++ acceptedLoop c (writeCoalescedMarker ++ entry) [(group, flags, generation, msg)] entries
    else acceptedLoop c (payload ++ entry) (batch ++ [(group, flags, generation, msg)]) entries

variable (codec) in
def acceptedCoalesced (c : Conn I R) (entries : List (CoalescedEntry Msg)) : List (Tuple Msg) :=
  if c.isClosed ∨ entries = [] then [] else acceptedLoop codec c writeCoalescedMarker [] entries

end

/-- What may be given to `send_coalesced`. -/
def CoalescedFits (codec : Codec I Msg) (e : CoalescedEntry Msg) : Prop :=
  e.2.1 ≠ [] ∧ e.2.1.length ≤ maxGroupIdLen ∧
    coalescedEntryLen e.2.1.length e.2.2.1 (codec.encodeMessage e.2.2.2).length ≤ coalescedFrameBudget

instance : DecidablePred (CoalescedFits codec) := fun _ => inferInstanceAs (Decidable (_ ∧ _ ∧ _))

/-! ## Frames of the sender -/

/-- The entries of a coalesced frame as they are written. -/
def encoded (codec : Codec I Msg) (t : Tuple Msg) : UInt8 × Bytes × UInt64 × Bytes :=
  (t.2.1, t.1, t.2.2.1, codec.encodeMessage t.2.2.2)

section

variable (lawful : ∀ m, codec.decodeMessage (codec.encodeMessage m) = some m)

include lawful

theorem decode_message {group : Bytes} (generation : UInt64) (msg : Msg) (h : group.length ≤ maxGroupIdLen) :
    Conn.decodeFrame codec (Conn.messagePayload codec group generation msg) = .ok [(group, 0, generation, msg)] := by
  unfold Conn.decodeFrame Conn.messagePayload
  rw [isCoalescedFrame_header generation _ h, split_writeGroupHeader generation _ h]
  simp only [Bool.false_eq_true, if_false, lawful]

theorem decode_batch {batch : List (Tuple Msg)} (fits : ∀ t ∈ batch, EntryFits (encoded codec t))
    (hlen : (writeCoalescedMarker ++ (batch.map (encoded codec)).flatMap writeEntry).length ≤
      2 + coalescedFrameBudget) :
    Conn.decodeFrame codec (writeCoalescedMarker ++ (batch.map (encoded codec)).flatMap writeEntry) = .ok batch := by
  obtain ⟨hc, hs⟩ := splitCoalesced_write (fun e he => by
    obtain ⟨t, ht, rfl⟩ := List.mem_map.mp he
    exact fits t ht) hlen
  unfold Conn.decodeFrame
  rw [hc, hs]
  simp only [if_true]
  clear fits hlen hc hs
  induction batch with
  | nil => rfl
  | cons t batch ih =>
    rw [List.map_cons, List.mapM_cons, ih]
    simp only [encoded, lawful]
    rfl

end

theorem tuplesOf_of_decode {p : Bytes} {tuples : List (Tuple Msg)}
    (h : Conn.decodeFrame codec p = .ok tuples) : tuplesOf codec p = tuples := by
  unfold tuplesOf
  rw [h]

theorem FrameOk.of_decode {p : Bytes} {tuples : List (Tuple Msg)} (hl : p.length ≤ maxFrameLen)
    (h : Conn.decodeFrame codec p = .ok tuples) : FrameOk codec p :=
  ⟨hl, by rw [tuplesOf_of_decode h, h]⟩

/-! ## The sender -/

variable [RecordIo R]

/-- What the sender has handed over (`sent`), holds and owes is the hello and
its frames, or a part of that once it is closed. -/
structure Sending (link : Lossless R) (hello : Bytes) (rx : R) (wire got : Bytes)
    (c : Conn I (Labeled R)) (sent : Bytes) (frames : List Bytes) : Prop where
  carried : link.carries c.record.inner wire rx sent got
  initial : sent ++ c.record.helloOut ++ c.record.owed ++ c.outPlain <+:
    hello ++ frames.flatMap encodeFrame
  whole : c.isClosed = false →
    sent ++ c.record.helloOut ++ c.record.owed ++ c.outPlain = hello ++ frames.flatMap encodeFrame
  quiet : c.record.owed ≠ [] → c.outPlain = [] ∧ frames = []

namespace Sending

variable {link : Lossless R} {hello wire got sent : Bytes} {rx : R} {c : Conn I (Labeled R)}
  {frames : List Bytes}

section

variable (h : Sending link hello rx wire got c sent frames)

include h

theorem close {state : ConnState I} {c' : Conn I (Labeled R)}
    (hc' : c' = { c with state := state, outPlain := [] }) (hcl : c'.isClosed = true) :
    Sending link hello rx wire got c' sent frames := by
  subst hc'
  refine ⟨h.carried, ?_, fun ho => absurd ho (by simp [hcl]), fun ho => ⟨rfl, (h.quiet ho).2⟩⟩
  rw [append_nil]
  exact (List.prefix_append _ _).trans h.initial

theorem drainOut : ∃ sent', Sending link hello rx wire got c.drainOut sent' frames := by
  by_cases ho : c.record.owed = []
  · obtain ⟨hs, sent', hc, he⟩ := Labeled.offer_carries c.outPlain.length c.outPlain h.carried
    have ho' : c.drainOut.record.owed = [] := hs.owed.trans ho
    have heq : sent' ++ c.drainOut.record.helloOut ++ c.drainOut.record.owed ++ c.drainOut.outPlain =
        sent ++ c.record.helloOut ++ c.record.owed ++ c.outPlain := by
      rw [ho, ho', append_nil, append_nil]
      exact he
    exact ⟨sent', hc, heq ▸ h.initial, fun hopen => heq.trans (h.whole hopen), fun hne => absurd ho' hne⟩
  · -- nothing is held while the hello is owed
    have hout := (h.quiet ho).1
    have hd : c.drainOut = c := by
      unfold Conn.drainOut
      rw [hout]
      cases c
      simp only at hout
      subst hout
      rfl
    rw [hd]
    exact ⟨sent, h⟩

/-- A frame is queued behind the others, or the connection closes. -/
theorem emitFrame (hopen : c.isClosed = false) (ho : c.record.owed = []) (p : Bytes) :
    (c.emitFrame p).1 = true ∧ p.length ≤ maxFrameLen ∧
      (∃ sent', Sending link hello rx wire got (c.emitFrame p).2 sent' (frames ++ [p])) ∧
      (c.emitFrame p).2.isClosed = false ∧ (c.emitFrame p).2.record.owed = [] ∨
    (c.emitFrame p).1 = false ∧ ∃ sent', Sending link hello rx wire got (c.emitFrame p).2 sent' frames := by
  unfold Conn.emitFrame
  simp only
  split
  · exact .inr ⟨rfl, sent, h.close rfl rfl⟩
  next hfit =>
  rw [not_or, not_lt] at hfit
  have heq : sent ++ c.record.helloOut ++ c.record.owed ++ (c.outPlain ++ encodeFrame p) =
      hello ++ (frames ++ [p]).flatMap encodeFrame := by
    rw [← append_assoc, h.whole hopen, flatMap_append]
    simp
  have h₁ : Sending link hello rx wire got { c with outPlain := c.outPlain ++ encodeFrame p } sent (frames ++ [p]) :=
    ⟨h.carried, heq ▸ List.prefix_refl _, fun _ => heq, fun hne => absurd ho hne⟩
  obtain ⟨sent', h₂⟩ := h₁.drainOut
  obtain ⟨hs, -⟩ := Labeled.offer_carries (c.outPlain ++ encodeFrame p).length (c.outPlain ++ encodeFrame p) h.carried
  exact .inl ⟨rfl, hfit.1, ⟨sent', h₂⟩, hopen, hs.owed.trans ho⟩

end

end Sending

/-- What a send does: some frames that carry what was accepted are behind the
others. -/
def Queues (codec : Codec I Msg) (link : Lossless R) (hello : Bytes) (rx : R) (wire got : Bytes)
    (frames : List Bytes) (c' : Conn I (Labeled R)) (accepted : List (Tuple Msg)) : Prop :=
  ∃ sent' new, Sending link hello rx wire got c' sent' (frames ++ new) ∧ (∀ p ∈ new, FrameOk codec p) ∧
    new.flatMap (tuplesOf codec) = accepted

section

variable {link : Lossless R} {hello wire got sent : Bytes} {rx : R} {c : Conn I (Labeled R)}
  {frames : List Bytes}

theorem Queues.none (h : Sending link hello rx wire got c sent frames) :
    Queues codec link hello rx wire got frames c [] :=
  ⟨sent, [], by rwa [append_nil], fun p hp => absurd hp List.not_mem_nil, rfl⟩

theorem Queues.cons {c' : Conn I (Labeled R)} {p : Bytes} {tuples accepted : List (Tuple Msg)}
    (hl : p.length ≤ maxFrameLen) (hd : Conn.decodeFrame codec p = .ok tuples)
    (h : Queues codec link hello rx wire got (frames ++ [p]) c' accepted) :
    Queues codec link hello rx wire got frames c' (tuples ++ accepted) := by
  obtain ⟨sent', new, hs, hok, he⟩ := h
  refine ⟨sent', p :: new, by simpa using hs, fun q hq => ?_, ?_⟩
  · rcases List.mem_cons.mp hq with rfl | hq
    · exact .of_decode hl hd
    · exact hok q hq
  · rw [List.flatMap_cons, tuplesOf_of_decode hd, he]

theorem Queues.one (h : Sending link hello rx wire got c sent frames) (hopen : c.isClosed = false)
    (ho : c.record.owed = []) {p : Bytes} {tuples : List (Tuple Msg)}
    (hd : Conn.decodeFrame codec p = .ok tuples) :
    Queues codec link hello rx wire got frames (c.emitFrame p).2 (if (c.emitFrame p).1 then tuples else []) := by
  rcases h.emitFrame hopen ho p with ⟨hb, hl, ⟨sent', hs⟩, -, -⟩ | ⟨hb, sent', hs⟩
  · have hq := Queues.cons hl hd (.none hs)
    rw [hb, if_pos rfl]
    rwa [append_nil] at hq
  · rw [hb]
    exact .none hs

variable (lawful : ∀ m, codec.decodeMessage (codec.encodeMessage m) = some m)

include lawful

/-- The loop over the entries, `batch` being in the frame under construction. -/
theorem queues_coalesceLoop {entries : List (CoalescedEntry Msg)} {batch : List (Tuple Msg)}
    (h : Sending link hello rx wire got c sent frames) (hopen : c.isClosed = false)
    (ho : c.record.owed = []) (fits : ∀ e ∈ entries, CoalescedFits codec e)
    (hb : ∀ t ∈ batch, EntryFits (encoded codec t))
    (hlen : (writeCoalescedMarker ++ (batch.map (encoded codec)).flatMap writeEntry).length ≤
      2 + coalescedFrameBudget) :
    Queues codec link hello rx wire got frames (Conn.coalesceLoop codec c
        (writeCoalescedMarker ++ (batch.map (encoded codec)).flatMap writeEntry) entries)
      (acceptedLoop codec c
        (writeCoalescedMarker ++ (batch.map (encoded codec)).flatMap writeEntry) batch entries) := by
  have hdec : ∀ {batch : List (Tuple Msg)}, (∀ t ∈ batch, EntryFits (encoded codec t)) →
      (writeCoalescedMarker ++ (batch.map (encoded codec)).flatMap writeEntry).length ≤
        2 + coalescedFrameBudget → _ := fun hb hlen => decode_batch lawful hb hlen
  induction entries generalizing batch frames c sent with
  | nil =>
    unfold Conn.coalesceLoop acceptedLoop
    split
    · next h2 =>
      have hq := Queues.one h hopen ho (hdec hb hlen)
      simpa only [h2, true_and] using hq
    next h2 =>
    rw [if_neg (fun hc => h2 hc.1)]
    exact .none h
  | cons e entries ih =>
    obtain ⟨flags, group, generation, msg⟩ := e
    obtain ⟨hne, hg, hbudget⟩ := fits _ List.mem_cons_self
    simp only at hne hg hbudget
    have fits' : ∀ e ∈ entries, CoalescedFits codec e := fun e he => fits e (List.mem_cons_of_mem _ he)
    have hent : EntryFits (encoded codec (group, flags, generation, msg)) := by
      refine ⟨hne, hg, ?_⟩
      have hm : (codec.encodeMessage msg).length ≤ coalescedFrameBudget := by
        unfold coalescedEntryLen at hbudget
        omega
      exact hm.trans_lt (by decide)
    have hsize : (writeEntry (encoded codec (group, flags, generation, msg))).length =
        coalescedEntryLen group.length generation (codec.encodeMessage msg).length :=
      length_writeCoalescedEntry _ _ _ _
    have hmark : writeCoalescedMarker.length = 2 := Octets.length_be 2 _
    have hone : writeCoalescedMarker ++ ([(group, flags, generation, msg)].map (encoded codec)).flatMap writeEntry =
          writeCoalescedMarker ++ writeCoalescedEntry flags group generation (codec.encodeMessage msg) := by
      simp [writeEntry, encoded]
    have hmore : writeCoalescedMarker ++
        ((batch ++ [(group, flags, generation, msg)]).map (encoded codec)).flatMap writeEntry =
          writeCoalescedMarker ++ (batch.map (encoded codec)).flatMap writeEntry ++
            writeCoalescedEntry flags group generation (codec.encodeMessage msg) := by
      simp [writeEntry, encoded]
    unfold Conn.coalesceLoop acceptedLoop
    simp only
    rw [if_neg (not_lt.mpr hbudget), if_neg (not_lt.mpr hbudget)]
    split
    · next hfull =>
      -- the frame under construction goes out first
      rcases h.emitFrame hopen ho (writeCoalescedMarker ++ (batch.map (encoded codec)).flatMap writeEntry) with
        ⟨hbool, hl, ⟨sent', hs⟩, hopen', ho'⟩ | ⟨hbool, sent', hs⟩
      · have hb' : ∀ t ∈ [(group, flags, generation, msg)], EntryFits (encoded codec t) := fun t ht =>
          (List.mem_singleton.mp ht) ▸ hent
        have hcons := Queues.cons hl (hdec hb hlen) (ih hs hopen' ho' fits' hb' (by
          rw [length_append, hmark, List.map_singleton, List.flatMap_singleton, hsize]
          omega))
        rw [hone] at hcons
        rw [show c.emitFrame _ = (true, _) from Prod.ext hbool rfl]
        exact hcons
      · rw [show c.emitFrame _ = (false, _) from Prod.ext hbool rfl]
        exact .none hs
    · next hroom =>
      have hb' : ∀ t ∈ batch ++ [(group, flags, generation, msg)], EntryFits (encoded codec t) := by
        intro t ht
        rcases List.mem_append.mp ht with ht | ht
        · exact hb t ht
        · exact (List.mem_singleton.mp ht) ▸ hent
      have hq := ih h hopen ho fits' hb' (by
        rw [hmore, length_append, length_writeCoalescedEntry]
        rw [not_and_or, not_lt, not_lt] at hroom
        rcases hroom with hroom | hroom <;> omega)
      rw [hmore] at hq
      exact hq

theorem queues_sendMessage {group : Bytes} (generation : UInt64) (msg : Msg)
    (h : Sending link hello rx wire got c sent frames) (ho : c.record.owed = [])
    (hg : group.length ≤ maxGroupIdLen) :
    Queues codec link hello rx wire got frames (c.sendMessage codec group generation msg)
      (acceptedMessage codec c group generation msg) := by
  unfold Conn.sendMessage acceptedMessage
  split
  · exact .none h
  · next hopen =>
    exact .one h ((Bool.not_eq_true _).mp hopen) ho (decode_message lawful generation msg hg)

theorem queues_sendCoalesced {entries : List (CoalescedEntry Msg)}
    (h : Sending link hello rx wire got c sent frames) (ho : c.record.owed = [])
    (fits : ∀ e ∈ entries, CoalescedFits codec e) :
    Queues codec link hello rx wire got frames (c.sendCoalesced codec entries) (acceptedCoalesced codec c entries) := by
  unfold Conn.sendCoalesced acceptedCoalesced
  split
  · exact .none h
  next hopen =>
  rw [not_or, Bool.not_eq_true] at hopen
  have hb : ∀ t ∈ ([] : List (Tuple Msg)), EntryFits (encoded codec t) := fun t ht =>
    absurd ht List.not_mem_nil
  have hq := queues_coalesceLoop lawful h hopen.1 ho fits hb (by simp [writeCoalescedMarker])
  simpa using hq

theorem queues_sendProbe (h : Sending link hello rx wire got c sent frames) (ho : c.record.owed = []) :
    Queues codec link hello rx wire got frames c.sendProbe [] := by
  have hd : Conn.decodeFrame codec writeCoalescedMarker = .ok [] := by
    have hb : ∀ t ∈ ([] : List (Tuple Msg)), EntryFits (encoded codec t) := fun t ht =>
      absurd ht List.not_mem_nil
    simpa using decode_batch lawful hb (by simp [writeCoalescedMarker])
  unfold Conn.sendProbe
  split
  · exact .none h
  next hopen =>
  have hq := Queues.one h ((Bool.not_eq_true _).mp hopen) ho hd
  simpa using hq

end

namespace Sending

variable {link : Lossless R} {hello wire got sent : Bytes} {rx : R} {c c' : Conn I (Labeled R)}
  {frames : List Bytes}

theorem of_record (h : Sending link hello rx wire got c sent frames) {sent' : Bytes}
    (hc : link.carries c'.record.inner wire rx sent' got)
    (he : sent' ++ c'.record.helloOut ++ c'.record.owed = sent ++ c.record.helloOut ++ c.record.owed)
    (ho : c'.record.owed = c.record.owed ∨ c'.record.owed = []) (hout : c'.outPlain = c.outPlain)
    (hcl : c'.isClosed = false → c.isClosed = false) :
    Sending link hello rx wire got c' sent' frames := by
  have heq : sent' ++ c'.record.helloOut ++ c'.record.owed ++ c'.outPlain =
      sent ++ c.record.helloOut ++ c.record.owed ++ c.outPlain := by rw [he, hout]
  refine ⟨hc, heq ▸ h.initial, fun hopen => heq.trans (h.whole (hcl hopen)), fun hne => ?_⟩
  rcases ho with ho | ho
  · rw [hout]
    exact h.quiet (ho ▸ hne)
  · exact absurd ho hne

variable (codec) in
theorem tryValidate (h : Sending link hello rx wire got c sent frames) :
    Sending link hello rx wire got (Conn.tryValidate codec c).2 sent frames := by
  unfold Conn.tryValidate
  split
  · next hs =>
    have hopen : c.isClosed = false := by
      unfold Conn.isClosed
      rw [hs]
    split
    · exact h
    split
    · exact h
    split
    · exact h.of_record h.carried rfl (.inl rfl) rfl fun _ => hopen
    · exact h.close rfl rfl
  · exact h

variable (codec) in
theorem intake (h : Sending link hello rx wire got c sent frames) (input : Bytes) (now : Instant) :
    ∃ sent', Sending link hello rx wire got (Conn.intake codec c input now).2 sent' frames := by
  obtain ⟨sent', hc, he, ho⟩ := Labeled.handle_carries h.carried input now
  have hh : RecordIo.handleTransportData c.record input now = c.record.handleTransportData input now := rfl
  unfold Conn.intake
  rw [hh]
  split
  · next record hr =>
    rw [hr] at hc he ho
    have h₁ : Sending link hello rx wire got { c with record := record } sent' frames := h.of_record hc he ho rfl id
    exact ⟨sent', h₁.close rfl rfl⟩
  · next taken record _ hr =>
    rw [hr] at hc he ho
    -- the layer only empties its buffer
    have hread : (readPlaintext record).2.inner = record.inner ∧ (readPlaintext record).2.helloOut = record.helloOut ∧
        (readPlaintext record).2.owed = record.owed := by
      show record.readPlaintext.2.inner = _ ∧ record.readPlaintext.2.helloOut = _ ∧ record.readPlaintext.2.owed = _
      unfold Labeled.readPlaintext
      split <;> exact ⟨rfl, rfl, rfl⟩
    have h₁ : ∀ decoder, Sending link hello rx wire got
        { c with record := (readPlaintext record).2, decoder := decoder } sent' frames := fun decoder => by
      refine h.of_record ?_ ?_ ?_ rfl id
      · exact hread.1.symm ▸ hc
      · exact hread.2.1.symm ▸ hread.2.2.symm ▸ he
      · exact hread.2.2.symm ▸ ho
    have h₂ := fun decoder => (h₁ decoder).tryValidate codec
    simp only
    split
    · next ht => exact ⟨sent', (congrArg Prod.snd ht) ▸ h₂ _⟩
    · next ht => exact ⟨sent', (congrArg Prod.snd ht) ▸ h₂ _⟩

variable (codec) in
theorem intakeLoop (fuel : Nat) (input : Bytes) (now : Instant) (h : Sending link hello rx wire got c sent frames) :
    ∃ sent', Sending link hello rx wire got (Conn.intakeLoop codec fuel c input now).2 sent' frames := by
  induction fuel generalizing c sent input with
  | zero => exact ⟨sent, h.close rfl rfl⟩
  | succ fuel ih =>
    obtain ⟨sent', h₁⟩ := h.intake codec input now
    unfold Conn.intakeLoop
    split
    · next he => exact ⟨sent', (congrArg Prod.snd he) ▸ h₁⟩
    next he =>
    have h₁ := (congrArg Prod.snd he) ▸ h₁
    split
    · exact ⟨sent', h₁⟩
    split
    · exact ⟨sent', h₁.close rfl rfl⟩
    · exact ih _ h₁

variable (codec) in
theorem handleData (h : Sending link hello rx wire got c sent frames) (bytes : Bytes) (eof : Bool) (now : Instant) :
    ∃ sent', Sending link hello rx wire got (c.handleData codec bytes eof now).2 sent' frames := by
  unfold Conn.handleData
  split
  · exact ⟨sent, h⟩
  obtain ⟨sent', h₁⟩ := h.intakeLoop codec (2 * bytes.length + 2) bytes now
  split
  · next he => exact ⟨sent', (congrArg Prod.snd he) ▸ h₁⟩
  next he =>
  have h₁ := (congrArg Prod.snd he) ▸ h₁
  simp only
  split
  · exact ⟨sent', h₁.close rfl rfl⟩
  · exact ⟨sent', h₁⟩

theorem pollTransmit (h : Sending link hello rx wire got c sent frames) :
    ∃ sent', Sending link hello rx (wire ++ c.pollTransmit.1) got c.pollTransmit.2 sent' frames := by
  obtain ⟨sent₁, h₁⟩ := h.drainOut
  obtain ⟨hs, sent₂, hc, he⟩ := Labeled.transmit_carries h₁.carried
  have ho : c.pollTransmit.2.record.owed = c.drainOut.record.owed := hs.owed
  have heq : sent₂ ++ c.pollTransmit.2.record.helloOut ++ c.pollTransmit.2.record.owed ++ c.pollTransmit.2.outPlain =
      sent₁ ++ c.drainOut.record.helloOut ++ c.drainOut.record.owed ++ c.drainOut.outPlain := by
    rw [ho]
    have he : sent₂ ++ c.pollTransmit.2.record.helloOut = sent₁ ++ c.drainOut.record.helloOut := he
    rw [he]
    rfl
  exact ⟨sent₂, hc, heq ▸ h₁.initial, fun hopen => heq.trans (h₁.whole hopen), fun hne => h₁.quiet (ho ▸ hne)⟩

end Sending

/-! ## The receiver -/

/-- What the receiver was given is the hello, the frames `polled`, which were
decoded, and what its decoder holds of the frames `rest`. -/
structure Receiving (hello id : Bytes) (peer : I) (c : Conn I (Labeled R)) (got : Bytes)
    (polled rest : List Bytes) : Prop where
  alive : c.record.failed = false
  cluster : hello = buildHello c.record.cluster id
  drained : Drained c.record.inner
  heard : ∃ app w, c.record.Heard hello id got app ∧ app = polled.flatMap encodeFrame ++ w ∧
    Holds c.decoder rest w
  empty : c.record.validated ≠ none → c.record.pending = []
  state : c.state = .handshaking ∧ polled = [] ∧ c.record.validated = none ∨ c.state = .validated peer
  idle : c.outPlain = []

namespace Receiving

variable {link : Lossless R} {hello id wire got sent : Bytes} {peer : I} {tx : R}
  {c c' : Conn I (Labeled R)} {polled rest : List Bytes}

theorem append (h : Receiving hello id peer c got polled rest) (new : List Bytes) :
    Receiving hello id peer c got polled (rest ++ new) := by
  obtain ⟨app, w, h₁, h₂, h₃⟩ := h.heard
  exact ⟨h.alive, h.cluster, h.drained, ⟨app, w, h₁, h₂, h₃.append new⟩, h.empty, h.state, h.idle⟩

/-- What the layer has of the stream goes to the decoder, and the hello names the
peer. -/
theorem validate {record : Labeled R} {got' app w : Bytes}
    (h : Receiving hello id peer c got polled rest) (hpeer : codec.decodeId id = some peer)
    (small : ∀ p ∈ rest, p.length ≤ maxFrameLen)
    (alive : record.failed = false) (cluster : record.cluster = c.record.cluster)
    (drained : Drained record.inner) (heard : record.Heard hello id got' app)
    (happ : app = polled.flatMap encodeFrame ++ w) (hold : Holds c.decoder rest w)
    (hgot : got' <+: hello ++ (polled ++ rest).flatMap encodeFrame)
    (settled : got' ≠ [] → isHandshaking record.inner = false) :
    ∃ c', Conn.tryValidate codec { c with
        record := (readPlaintext record).2
        decoder := if (readPlaintext record).1 = [] then c.decoder
          else c.decoder.push (readPlaintext record).1 } = (.ok (), c') ∧
      c'.record.inner = record.inner ∧ Receiving hello id peer c' got' polled rest := by
  have hread : readPlaintext record = if record.failed ∨ record.validated.isNone then ([], record)
      else (record.pending, { record with pending := [] }) := rfl
  rcases heard with ⟨hv, h₁, h₂, h₃⟩ | ⟨hv, hg⟩
  · -- the hello is not complete
    rw [if_pos (.inr (by rw [hv]; rfl))] at hread
    rw [hread]
    have hhand : isHandshaking record = true := by
      show (isHandshaking record.inner || record.validated.isNone) = true
      rw [hv]
      simp
    have hkeep : Receiving hello id peer { c with record := record } got' polled rest := by
      refine ⟨alive, cluster ▸ h.cluster, drained, ⟨app, w, .inl ⟨hv, h₁, h₂, h₃⟩, happ, hold⟩,
        fun hne => absurd hv hne, ?_, h.idle⟩
      rcases h.state with ⟨hs, hp, -⟩ | hs
      · exact .inl ⟨hs, hp, hv⟩
      · exact .inr hs
    refine ⟨{ c with record := record }, ?_, rfl, hkeep⟩
    unfold Conn.tryValidate
    simp only [if_true, hhand]
    split <;> rfl
  · rw [if_neg (by rw [hv, alive]; simp)] at hread
    rw [hread]
    have hw : w ++ record.pending <+: rest.flatMap encodeFrame := by
      rw [hg, happ, append_assoc, append_assoc, flatMap_append] at hgot
      exact (List.prefix_append_right_inj _).mp ((List.prefix_append_right_inj _).mp hgot)
    have hne : got' ≠ [] := by
      rw [hg, h.cluster]
      simp [buildHello]
    have hhold : Holds (if record.pending = [] then c.decoder else c.decoder.push record.pending) rest
        (w ++ record.pending) := by
      split
      · next hp =>
        rw [hp, append_nil]
        exact hold
      · exact hold.push small hw
    have hkeep : Receiving hello id peer { c with
        record := { record with pending := [] }
        decoder := if record.pending = [] then c.decoder else c.decoder.push record.pending
        state := .validated peer } got' polled rest := by
      refine ⟨alive, cluster ▸ h.cluster, drained, ⟨app ++ record.pending, w ++ record.pending,
        .inr ⟨hv, ?_⟩, by rw [happ, append_assoc], hhold⟩, fun _ => rfl, .inr rfl,
        h.idle⟩
      rw [hg]
      simp
    refine ⟨_, ?_, rfl, hkeep⟩
    rcases h.state with ⟨hs, -, -⟩ | hs
    · have hhand : isHandshaking { record with pending := [] } = false := by
        show (isHandshaking record.inner || record.validated.isNone) = false
        rw [hv, settled hne]
        rfl
      have hident : peerIdentity { record with pending := [] } = some id := hv
      unfold Conn.tryValidate
      simp only [hs, hhand, hident, hpeer, Bool.false_eq_true, if_false]
    · unfold Conn.tryValidate
      simp only [hs]

variable {input : Bytes}

theorem intake (now : Instant) (h : Receiving hello id peer c got polled rest)
    (hid : id ≠ [] ∧ id.length ≤ maxPeerIdLen) (hpeer : codec.decodeId id = some peer)
    (small : ∀ p ∈ rest, p.length ≤ maxFrameLen)
    (hc : link.carries tx (input ++ wire) c.record.inner sent got)
    (hs : sent <+: hello ++ (polled ++ rest).flatMap encodeFrame) :
    ∃ left progress c' got', Conn.intake codec c input now = (.ok (left, progress), c') ∧
      link.carries tx (left ++ wire) c'.record.inner sent got' ∧
      Receiving hello id peer c' got' polled rest ∧
      (left = [] ∨ left.length < input.length ∧ progress = true) := by
  obtain ⟨app, w, heard, happ, hold⟩ := h.heard
  obtain ⟨halive, hcl, hdr, got', left, heard', hc', hleft⟩ :=
    Labeled.handle_heard now h.cluster hid h.alive h.drained hc hs heard
  obtain ⟨c', hv, hinner, h'⟩ := h.validate hpeer small halive hcl hdr heard' happ hold
    ((link.ordered hc').trans hs) (link.settled hc')
  rw [← hinner] at hc'
  have hh : RecordIo.handleTransportData c.record input now = c.record.handleTransportData input now := rfl
  unfold Conn.intake
  rcases hleft with ⟨hd, rfl⟩ | ⟨n, hp, rfl, hpos⟩
  · rw [hh, show c.record.handleTransportData input now = (.done, _) from Prod.ext hd rfl]
    simp only [hv]
    exact ⟨[], _, c', got', rfl, hc', h', .inl rfl⟩
  rw [hh, show c.record.handleTransportData input now = (.pending n, _) from Prod.ext hp rfl]
  simp only [hv]
  refine ⟨_, _, c', got', rfl, hc', h', ?_⟩
  by_cases hin : input = []
  · exact .inl (by rw [hin, List.drop_nil])
  have hn := hpos hin
  have hl := List.length_pos_of_ne_nil hin
  refine .inr ⟨by rw [List.length_drop]; omega, by simp [hn]⟩

theorem intakeLoop (fuel : Nat) (now : Instant) (h : Receiving hello id peer c got polled rest)
    (hid : id ≠ [] ∧ id.length ≤ maxPeerIdLen) (hpeer : codec.decodeId id = some peer)
    (small : ∀ p ∈ rest, p.length ≤ maxFrameLen)
    (hc : link.carries tx (input ++ wire) c.record.inner sent got)
    (hs : sent <+: hello ++ (polled ++ rest).flatMap encodeFrame) (hf : input.length < fuel) :
    ∃ c' got', Conn.intakeLoop codec fuel c input now = (.ok (), c') ∧
      link.carries tx wire c'.record.inner sent got' ∧ Receiving hello id peer c' got' polled rest := by
  induction fuel generalizing c got input with
  | zero => exact absurd hf (Nat.not_lt_zero _)
  | succ fuel ih =>
    obtain ⟨left, progress, c', got', he, hc', h', hleft⟩ := h.intake now hid hpeer small hc hs
    unfold Conn.intakeLoop
    rw [he]
    by_cases hl : left = []
    · simp only [hl, if_true]
      rw [hl] at hc'
      exact ⟨c', got', rfl, hc', h'⟩
    obtain ⟨hlt, hprog⟩ := hleft.resolve_left hl
    simp only [hl, hprog, if_false, Bool.true_eq_false]
    exact ih h' hc' (by omega)

theorem handleData (now : Instant) (h : Receiving hello id peer c got polled rest)
    (hid : id ≠ [] ∧ id.length ≤ maxPeerIdLen) (hpeer : codec.decodeId id = some peer)
    (small : ∀ p ∈ rest, p.length ≤ maxFrameLen)
    (hc : link.carries tx (input ++ wire) c.record.inner sent got)
    (hs : sent <+: hello ++ (polled ++ rest).flatMap encodeFrame) :
    ∃ c' got', c.handleData codec input false now = (.ok (), c') ∧
      link.carries tx wire c'.record.inner sent got' ∧ Receiving hello id peer c' got' polled rest := by
  obtain ⟨c', got', he, hc', h'⟩ := h.intakeLoop (2 * input.length + 2) now hid hpeer small hc hs (by omega)
  have hopen : c.isClosed = false := by
    unfold Conn.isClosed
    rcases h.state with ⟨hs, -, -⟩ | hs <;> rw [hs]
  have hpc : peerHasClosed c'.record = false := link.opened hc'
  refine ⟨c', got', ?_, hc', h'⟩
  unfold Conn.handleData
  rw [hopen, he]
  simp only [hpc, Bool.false_eq_true, if_false, Bool.or_self]

theorem pollLoop (fuel : Nat) (h : Receiving hello id peer c got polled rest) (hv : c.state = .validated peer)
    (good : ∀ p ∈ rest, FrameOk codec p) (hf : c.decoder.buf.length < fuel) :
    ∃ c' new more, Conn.pollLoop codec fuel c = (.ok (new.flatMap (tuplesOf codec)), c') ∧
      rest = new ++ more ∧ c'.record = c.record ∧
      Receiving hello id peer c' got (polled ++ new) more ∧
      ∀ p more', more = p :: more' → ¬ encodeFrame p <+: c'.decoder.buf := by
  induction fuel generalizing c polled rest with
  | zero => exact absurd hf (Nat.not_lt_zero _)
  | succ fuel ih =>
    obtain ⟨app, w, heard, happ, hold⟩ := h.heard
    unfold Conn.pollLoop
    rcases hold.poll fun p hp => (good p hp).1 with ⟨p, rest', w', hps, hw, hpoll, hold'⟩ | ⟨hpoll, hnone⟩
    · -- a frame, and then those after it
      have hp : FrameOk codec p := good p (by rw [hps]; simp)
      have h₁ : Receiving hello id peer { c with decoder := { c.decoder with buf := w' } } got
          (polled ++ [p]) rest' := by
        refine ⟨h.alive, h.cluster, h.drained, ⟨app, w', heard, ?_, hold'⟩, h.empty, .inr hv, h.idle⟩
        rw [happ, hw, flatMap_append]
        simp
      have hlen : w'.length < fuel := by
        rw [hold.buf, hw, length_append, length_encodeFrame] at hf
        omega
      obtain ⟨c', new, more, he, hrest, hr, h', hlast⟩ :=
        ih h₁ hv (fun q hq => good q (by rw [hps]; exact List.mem_cons_of_mem _ hq)) hlen
      refine ⟨c', p :: new, more, ?_, by rw [hps, hrest]; rfl, hr, ?_, hlast⟩
      · rw [hpoll]
        simp only [hp.2, he, List.flatMap_cons]
      · have hl : polled ++ p :: new = polled ++ [p] ++ new := by simp
        rw [hl]
        exact h'
    · refine ⟨c, [], rest, ?_, rfl, rfl, by rw [append_nil]; exact h, ?_⟩
      · rw [hpoll]
        rfl
      · rw [hold.buf]
        exact hnone

/-- What a poll decodes, and that it leaves no whole frame. -/
theorem pollDecoded (h : Receiving hello id peer c got polled rest) (good : ∀ p ∈ rest, FrameOk codec p) :
    ∃ c' new more, c.pollDecoded codec = (.ok (new.flatMap (tuplesOf codec)), c') ∧
      rest = new ++ more ∧ c'.record = c.record ∧
      Receiving hello id peer c' got (polled ++ new) more ∧
      (c.state = .validated peer → ∀ p more', more = p :: more' → ¬ encodeFrame p <+: c'.decoder.buf) := by
  unfold Conn.pollDecoded
  rcases h.state with ⟨hs, -, -⟩ | hs
  · have hp : c.peer.isNone = true := by
      unfold Conn.peer
      rw [hs]
      rfl
    rw [if_pos hp]
    exact ⟨c, [], rest, rfl, rfl, rfl, by rw [append_nil]; exact h, fun hv => absurd (hs.symm.trans hv) (by simp)⟩
  · have hp : ¬ c.peer.isNone = true := by
      unfold Conn.peer
      rw [hs]
      simp
    rw [if_neg hp]
    obtain ⟨c', new, more, h₁, h₂, h₃, h₄, h₅⟩ := h.pollLoop (c.decoder.buf.length + 1) hs good (Nat.lt_succ_self _)
    exact ⟨c', new, more, h₁, h₂, h₃, h₄, fun _ => h₅⟩

theorem pollTransmit (h : Receiving hello id peer c got polled rest)
    (hc : link.carries tx wire c.record.inner sent got) :
    link.carries tx wire c.pollTransmit.2.record.inner sent got ∧
      Receiving hello id peer c.pollTransmit.2 got polled rest := by
  have hdrain : c.drainOut = c := by
    unfold Conn.drainOut
    rw [h.idle]
    simp only [List.length_nil, offer]
    rw [← h.idle]
  obtain ⟨hf, hfd⟩ := Labeled.flushHello_receives hc h.drained
  obtain ⟨ht, htd⟩ := link.receiverTransmit hf
  have hr : c.pollTransmit.2 = { c with record := { c.record.flushHello with
      inner := (pollTransportTransmit c.record.flushHello.inner).2 } } := by
    unfold Conn.pollTransmit
    rw [hdrain]
    show { c with record := c.record.pollTransportTransmit.2 } = _
    unfold Labeled.pollTransportTransmit
    rw [if_neg (by simp [h.alive])]
  rw [hr]
  exact ⟨ht, h.alive, h.cluster, htd hfd, h.heard, h.empty, h.state, h.idle⟩

end Receiving

end Sailing.Transport
