import Sailing.Transport.Record

/-!
# What a record layer carries

A lossless record layer accepts any part of what it is offered and delivers
what it accepted in order (`Lossless`); `Passthrough` is one. Over such a layer
`Labeled` sends its hello before anything else, as long as nothing is written
while the hello is still owed, and surfaces the bytes behind the hello of the
other side.
-/

namespace Sailing.Transport

open List (append_assoc append_nil drop_zero take_left' drop_left')

open RecordIo

variable {R : Type} [RecordIo R]

/-- The layer has nothing to read. -/
def Drained (r : R) : Prop := (readPlaintext r).1 = []

/-- Two ends of a record layer. `carries tx wire rx sent got`: `tx` has accepted
the plaintext `sent`, `rx` has given out `got` of it, and `wire` is under way. -/
structure Lossless (R : Type) [RecordIo R] where
  carries : R → Bytes → R → Bytes → Bytes → Prop
  write : ∀ {tx wire rx sent got} p, carries tx wire rx sent got →
    (writePlaintext tx p).1 ≤ p.length ∧
      carries (writePlaintext tx p).2 wire rx (sent ++ p.take (writePlaintext tx p).1) got
  transmit : ∀ {tx wire rx sent got}, carries tx wire rx sent got →
    carries (pollTransportTransmit tx).2 (wire ++ (pollTransportTransmit tx).1) rx sent got
  senderHandle : ∀ {tx wire rx sent got} input now, carries tx wire rx sent got →
    carries (handleTransportData tx input now).2 wire rx sent got
  senderRead : ∀ {tx wire rx sent got}, carries tx wire rx sent got →
    carries (readPlaintext tx).2 wire rx sent got
  handle : ∀ {tx wire rx sent got input} now, carries tx (input ++ wire) rx sent got →
    (handleTransportData rx input now).1 = .done ∧
      carries tx wire (handleTransportData rx input now).2 sent got ∨
    ∃ n, (handleTransportData rx input now).1 = .pending n ∧ n ≤ input.length ∧
      (Drained rx → input ≠ [] → 0 < n) ∧
      carries tx (input.drop n ++ wire) (handleTransportData rx input now).2 sent got
  read : ∀ {tx wire rx sent got}, carries tx wire rx sent got →
    carries tx wire (readPlaintext rx).2 sent (got ++ (readPlaintext rx).1) ∧
      Drained (readPlaintext rx).2
  receiverWrite : ∀ {tx wire rx sent got} p, carries tx wire rx sent got →
    carries tx wire (writePlaintext rx p).2 sent got ∧ (Drained rx → Drained (writePlaintext rx p).2)
  receiverTransmit : ∀ {tx wire rx sent got}, carries tx wire rx sent got →
    carries tx wire (pollTransportTransmit rx).2 sent got ∧
      (Drained rx → Drained (pollTransportTransmit rx).2)
  ordered : ∀ {tx wire rx sent got}, carries tx wire rx sent got → got <+: sent
  complete : ∀ {tx rx sent got}, carries tx [] rx sent got → bufferedOutbound tx = 0 → Drained rx →
    got = sent
  settled : ∀ {tx wire rx sent got}, carries tx wire rx sent got → got ≠ [] → isHandshaking rx = false
  opened : ∀ {tx wire rx sent got}, carries tx wire rx sent got → peerHasClosed rx = false

variable {link : Lossless R} {tx rx : R} {wire sent got : Bytes}

theorem Lossless.offer (h : link.carries tx wire rx sent got) (fuel : Nat) (bytes : Bytes) :
    ∃ sent', link.carries (offer fuel tx bytes).2 wire rx sent' got ∧
      sent' ++ (Transport.offer fuel tx bytes).1 = sent ++ bytes := by
  induction fuel generalizing tx sent bytes with
  | zero => exact ⟨sent, h, rfl⟩
  | succ fuel ih =>
    unfold Transport.offer
    split
    · exact ⟨sent, h, rfl⟩
    obtain ⟨-, hw⟩ := link.write bytes h
    simp only
    split
    · next hz =>
      rw [hz, List.take_zero, append_nil] at hw
      exact ⟨sent, hw, rfl⟩
    obtain ⟨sent', hc, he⟩ := ih hw (bytes.drop (writePlaintext tx bytes).1)
    refine ⟨sent', hc, he.trans ?_⟩
    rw [append_assoc, List.take_append_drop]

theorem Lossless.receiverOffer (h : link.carries tx wire rx sent got) (hd : Drained rx) (fuel : Nat) (bytes : Bytes) :
    link.carries tx wire (Transport.offer fuel rx bytes).2 sent got ∧ Drained (Transport.offer fuel rx bytes).2 := by
  induction fuel generalizing rx bytes with
  | zero => exact ⟨h, hd⟩
  | succ fuel ih =>
    unfold Transport.offer
    split
    · exact ⟨h, hd⟩
    obtain ⟨hw, hk⟩ := link.receiverWrite bytes h
    simp only
    split
    · exact ⟨hw, hk hd⟩
    · exact ih hw (hk hd) _

/-! ## The sending side of the hello -/

namespace Labeled

/-- The hello an acceptor holds back until it has seen the other side's. -/
def owed (l : Labeled R) : Bytes :=
  match l.role, l.validated with
  | .acceptor, none => l.localHello
  | _, _ => []

/-- The fields only the handshake changes. -/
structure Same (l l' : Labeled R) : Prop where
  cluster : l'.cluster = l.cluster
  localHello : l'.localHello = l.localHello
  role : l'.role = l.role
  pending : l'.pending = l.pending
  validated : l'.validated = l.validated
  failed : l'.failed = l.failed

omit [RecordIo R] in
theorem Same.owed {l' : Labeled R} (h : Same l l') : l'.owed = l.owed := by
  unfold Labeled.owed
  rw [h.role, h.validated, h.localHello]

variable {l : Labeled R}

theorem flushHello_same : Same l l.flushHello := ⟨rfl, rfl, rfl, rfl, rfl, rfl⟩

theorem flushHello_carries (h : link.carries l.inner wire rx sent got) :
    ∃ sent', link.carries l.flushHello.inner wire rx sent' got ∧ sent' ++ l.flushHello.helloOut = sent ++ l.helloOut :=
  Lossless.offer h l.helloOut.length l.helloOut

theorem flushHello_receives (h : link.carries tx wire l.inner sent got) (hd : Drained l.inner) :
    link.carries tx wire l.flushHello.inner sent got ∧ Drained l.flushHello.inner :=
  Lossless.receiverOffer h hd l.helloOut.length l.helloOut

theorem writePlaintext_carries (h : link.carries l.inner wire rx sent got) (p : Bytes) :
    Same l (l.writePlaintext p).2 ∧ ∃ sent', link.carries (l.writePlaintext p).2.inner wire rx sent' got ∧
      sent' ++ (l.writePlaintext p).2.helloOut ++ p.drop (l.writePlaintext p).1 = sent ++ l.helloOut ++ p := by
  unfold writePlaintext
  split
  · exact ⟨⟨rfl, rfl, rfl, rfl, rfl, rfl⟩, sent, h, rfl⟩
  obtain ⟨sent₁, h₁, he⟩ := flushHello_carries h
  simp only
  split
  · exact ⟨flushHello_same, sent₁, h₁, by rw [he]; rfl⟩
  next hout =>
  obtain ⟨-, hw⟩ := link.write p h₁
  refine ⟨⟨rfl, rfl, rfl, rfl, rfl, rfl⟩, _, hw, ?_⟩
  have hout : l.flushHello.helloOut = [] := not_not.mp hout
  rw [hout, append_nil] at he
  simp only [hout, append_nil]
  rw [append_assoc, List.take_append_drop, he]

/-- `offer` over a labeled layer. -/
theorem offer_carries (fuel : Nat) (bytes : Bytes) (h : link.carries l.inner wire rx sent got) :
    Same l (offer fuel l bytes).2 ∧ ∃ sent', link.carries (offer fuel l bytes).2.inner wire rx sent' got ∧
      sent' ++ (offer fuel l bytes).2.helloOut ++ (offer fuel l bytes).1 = sent ++ l.helloOut ++ bytes := by
  induction fuel generalizing l sent bytes with
  | zero => exact ⟨⟨rfl, rfl, rfl, rfl, rfl, rfl⟩, sent, h, rfl⟩
  | succ fuel ih =>
    obtain ⟨hs, sent₁, h₁, he⟩ := writePlaintext_carries h bytes
    unfold offer
    split
    · exact ⟨⟨rfl, rfl, rfl, rfl, rfl, rfl⟩, sent, h, rfl⟩
    have hw : RecordIo.writePlaintext l bytes = l.writePlaintext bytes := rfl
    simp only [hw]
    split
    · next hz =>
      rw [hz, drop_zero] at he
      exact ⟨hs, sent₁, h₁, he⟩
    obtain ⟨hs₂, sent₂, h₂, he₂⟩ := ih (bytes.drop (l.writePlaintext bytes).1) h₁
    exact ⟨⟨hs₂.cluster.trans hs.cluster, hs₂.localHello.trans hs.localHello,
      hs₂.role.trans hs.role, hs₂.pending.trans hs.pending, hs₂.validated.trans hs.validated,
      hs₂.failed.trans hs.failed⟩, sent₂, h₂, he₂.trans he⟩

section

variable (h : link.carries l.inner wire rx sent got)

include h

theorem transmit_carries : Same l l.pollTransportTransmit.2 ∧ ∃ sent',
      link.carries l.pollTransportTransmit.2.inner (wire ++ l.pollTransportTransmit.1) rx sent' got ∧
      sent' ++ l.pollTransportTransmit.2.helloOut = sent ++ l.helloOut := by
  unfold pollTransportTransmit
  split
  · exact ⟨⟨rfl, rfl, rfl, rfl, rfl, rfl⟩, sent, by simpa using h, rfl⟩
  · obtain ⟨sent₁, h₁, he⟩ := flushHello_carries h
    exact ⟨⟨rfl, rfl, rfl, rfl, rfl, rfl⟩, sent₁, link.transmit h₁, he⟩

/-- A hello that comes due follows what was sent before. -/
theorem advanceHandshake_carries : ∃ sent', link.carries l.advanceHandshake.2.inner wire rx sent' got ∧
      sent' ++ l.advanceHandshake.2.helloOut ++ l.advanceHandshake.2.owed = sent ++ l.helloOut ++ l.owed ∧
      (l.advanceHandshake.2.owed = l.owed ∨ l.advanceHandshake.2.owed = []) := by
  unfold advanceHandshake
  split
  · exact ⟨sent, h, rfl, .inl rfl⟩
  next hnone =>
  split
  · exact ⟨sent, h, rfl, .inl rfl⟩
  split
  · exact ⟨sent, h, rfl, .inl rfl⟩
  simp only
  split
  · exact ⟨sent, h, rfl, .inl rfl⟩
  split
  · exact ⟨sent, h, rfl, .inl rfl⟩
  have hv : l.validated = none := by
    rw [not_or, Option.not_isSome_iff_eq_none] at hnone
    exact hnone.1
  cases hr : l.role with
  | dialer =>
    refine ⟨sent, h, ?_, .inr ?_⟩
    · simp only [owed, hr]
    · simp only [owed]
  | acceptor =>
    simp only
    obtain ⟨sent₁, h₁, he⟩ := flushHello_carries (l := { l with
      helloOut := l.helloOut ++ l.localHello }) h
    have ho : l.owed = l.localHello := by simp only [owed, hr, hv]
    refine ⟨sent₁, h₁, ?_, .inr ?_⟩
    · rw [ho, append_assoc sent, ← he]
      simp [owed, flushHello, hr]
    · simp [owed, flushHello]

theorem handle_carries (input : Bytes) (now : Instant) :
    ∃ sent', link.carries (l.handleTransportData input now).2.inner wire rx sent' got ∧
      sent' ++ (l.handleTransportData input now).2.helloOut ++
        (l.handleTransportData input now).2.owed = sent ++ l.helloOut ++ l.owed ∧
      ((l.handleTransportData input now).2.owed = l.owed ∨
        (l.handleTransportData input now).2.owed = []) := by
  have hin := link.senderHandle input now h
  unfold handleTransportData
  split
  · exact ⟨sent, h, rfl, .inl rfl⟩
  split
  · next inner he =>
    rw [he] at hin
    exact ⟨sent, hin, rfl, .inl rfl⟩
  next intake inner _ he =>
  rw [he] at hin
  have hrd := link.senderRead hin
  simp only
  split
  · obtain ⟨sent₁, h₁, he₁, ho₁⟩ := advanceHandshake_carries (l := { l with
      inner := (RecordIo.readPlaintext inner).2
      pending := l.pending ++ (RecordIo.readPlaintext inner).1 }) hrd
    split
    · next ha =>
      rw [ha] at h₁ he₁ ho₁
      exact ⟨sent₁, h₁, he₁, ho₁⟩
    next ha =>
    rw [ha] at h₁ he₁ ho₁
    exact ⟨sent₁, h₁, he₁, ho₁⟩
  · exact ⟨sent, hrd, rfl, .inl rfl⟩

end

/-! ## The receiving side of the hello -/

/-- Where a receiver stands that was given `got`: before the end of the hello,
or behind it with `app` passed on. -/
def Heard (l : Labeled R) (hello id got app : Bytes) : Prop :=
  l.validated = none ∧ app = [] ∧ got = l.pending ∧ l.pending.length < hello.length ∨
    l.validated = some id ∧ got = hello ++ app ++ l.pending

omit [RecordIo R] in
theorem length_buildHello (cluster : ClusterId) (id : Bytes) :
    (buildHello cluster id).length = helloHeader + id.length := by
  simp only [buildHello, List.length_cons, List.length_append, cluster.length_eq, Octets.length_be, helloHeader]
  omega

/-- The hello of the same cluster is waited for and then taken. -/
theorem advanceHandshake_hello {id rest : Bytes} (hv : l.validated = none)
    (hid : id ≠ [] ∧ id.length ≤ maxPeerIdLen) (hp : l.pending <+: buildHello l.cluster id ++ rest) :
    l.pending.length < (buildHello l.cluster id).length ∧ l.advanceHandshake = (true, l) ∨
    (∃ more, l.pending = buildHello l.cluster id ++ more ∧
      (l.advanceHandshake = (true, { l with validated := some id, pending := more }) ∨
        l.advanceHandshake = (true, flushHello { l with
          validated := some id, pending := more, helloOut := l.helloOut ++ l.localHello }))) := by
  have hlen := length_buildHello l.cluster id
  have hb : (Octets.be 2 id.length).length = 2 := Octets.length_be 2 _
  have h16 := l.cluster.length_eq
  have h2 : [labelMagic, labelVersion].length = 2 := rfl
  unfold advanceHandshake
  by_cases hshort : l.pending.length < helloHeader
  · rw [if_pos (.inr hshort)]
    exact .inl ⟨by omega, rfl⟩
  have hfull : helloHeader ≤ l.pending.length := not_lt.mp hshort
  -- the first bytes are those of the hello
  obtain ⟨tail, htail⟩ := hp
  have hhead : ∀ n m, n + m ≤ helloHeader → (l.pending.drop n).take m =
      ((buildHello l.cluster id ++ rest).drop n).take m := fun n m hnm => by
    rw [← htail, List.drop_append_of_le_length (by omega), List.take_append_of_le_length]
    rw [List.length_drop]
    omega
  have hcons : buildHello l.cluster id ++ rest = [labelMagic, labelVersion] ++
      (l.cluster.bytes ++ (Octets.be 2 id.length ++ (id ++ rest))) := by
    simp [buildHello]
  have htwo : l.pending.take 2 = [labelMagic, labelVersion] := by
    have := hhead 0 2 (by decide)
    rw [drop_zero, drop_zero, hcons] at this
    exact this.trans (take_left' rfl)
  have hcluster : (l.pending.drop 2).take 16 = l.cluster.bytes := by
    rw [hhead 2 16 (by decide), hcons, drop_left' h2, take_left' h16]
  have hidlen : Octets.ofBe ((l.pending.drop 18).take 2) = id.length := by
    rw [hhead 18 2 (by decide), hcons, show 18 = 2 + 16 from rfl, ← List.drop_drop, drop_left' h2,
      drop_left' h16, take_left' hb]
    exact Octets.ofBe_be (hid.2.trans_lt (by decide))
  have hpos : id.length ≠ 0 := fun h => hid.1 (List.length_eq_zero_iff.mp h)
  rw [if_neg (by simp [hv, hshort]), if_neg (by simp [htwo]), if_neg (by simp [hcluster])]
  simp only [hidlen]
  rw [if_neg (by omega)]
  by_cases hwait : l.pending.length < helloHeader + id.length
  · rw [if_pos hwait]
    exact .inl ⟨by omega, rfl⟩
  rw [if_neg hwait]
  right
  have hpre : buildHello l.cluster id <+: l.pending :=
    List.prefix_of_prefix_length_le (List.prefix_append _ rest) ⟨tail, htail⟩ (by omega)
  obtain ⟨more, hmore⟩ := hpre
  have hdrop : l.pending.drop (helloHeader + id.length) = more := by
    rw [← hmore, drop_left' hlen]
  have hpeer : (l.pending.drop helloHeader).take id.length = id := by
    have hl : ([labelMagic, labelVersion] ++ (l.cluster.bytes ++ Octets.be 2 id.length)).length = helloHeader := by
      simp only [List.length_append, h16, hb, List.length_cons, List.length_nil, helloHeader]
    have he : l.pending = ([labelMagic, labelVersion] ++ (l.cluster.bytes ++ Octets.be 2 id.length)) ++
        (id ++ more) := by
      rw [← hmore]
      simp [buildHello]
    rw [he, drop_left' hl, take_left' rfl]
  refine ⟨more, hmore.symm, ?_⟩
  cases hr : l.role with
  | dialer =>
    left
    simp only [hdrop, hpeer]
  | acceptor =>
    right
    simp only [hdrop, hpeer]

/-- A layer that is not broken passes on what it read and looks for the hello. -/
theorem handle_eq {input : Bytes} {now : Instant} {intake : Intake} {inner : R} (alive : l.failed = false)
    (he : RecordIo.handleTransportData l.inner input now = (intake, inner)) (hne : intake ≠ .failed) :
    l.handleTransportData input now = let l₁ := { l with
        inner := (RecordIo.readPlaintext inner).2
        pending := l.pending ++ (RecordIo.readPlaintext inner).1 }
      if l₁.validated.isNone then
        (if l₁.advanceHandshake.1 then intake else .failed, l₁.advanceHandshake.2)
      else (intake, l₁) := by
  unfold handleTransportData
  rw [if_neg (by simp [alive]), he]
  cases intake with
  | failed => exact absurd rfl hne
  | done | pending =>
    simp only
    split
    · split <;> (next ha => rw [ha]; rfl)
    · rfl

/-- Bytes of the stream are taken, and the hello at its front is recognised. -/
theorem handle_heard {hello id stream app input : Bytes} (now : Instant)
    (hhello : hello = buildHello l.cluster id) (hid : id ≠ [] ∧ id.length ≤ maxPeerIdLen)
    (alive : l.failed = false) (hd : Drained l.inner)
    (hc : link.carries tx (input ++ wire) l.inner sent got) (hs : sent <+: hello ++ stream)
    (heard : l.Heard hello id got app) :
    let r := l.handleTransportData input now
    r.2.failed = false ∧ r.2.cluster = l.cluster ∧ Drained r.2.inner ∧
      ∃ got' left, r.2.Heard hello id got' app ∧ link.carries tx (left ++ wire) r.2.inner sent got' ∧
        (r.1 = .done ∧ left = [] ∨ ∃ n, r.1 = .pending n ∧ left = input.drop n ∧
          (input ≠ [] → 0 < n)) := by
  intro r
  -- what the layer below made of the input
  obtain ⟨intake, inner, he, hne, left, hleft, hc₁⟩ : ∃ intake inner,
      RecordIo.handleTransportData l.inner input now = (intake, inner) ∧ intake ≠ .failed ∧
      ∃ left, (intake = .done ∧ left = [] ∨ ∃ n, intake = .pending n ∧ left = input.drop n ∧
        (input ≠ [] → 0 < n)) ∧ link.carries tx (left ++ wire) inner sent got := by
    rcases link.handle now hc with ⟨h₁, h₂⟩ | ⟨n, h₁, -, hpos, h₂⟩
    · exact ⟨_, _, rfl, fun hf => absurd (h₁.symm.trans hf) (by simp), [], .inl ⟨h₁, rfl⟩, h₂⟩
    · exact ⟨_, _, rfl, fun hf => absurd (h₁.symm.trans hf) (by simp), input.drop n, .inr ⟨n, h₁, rfl, hpos hd⟩, h₂⟩
  obtain ⟨hread, hdr⟩ := link.read hc₁
  set plain := (RecordIo.readPlaintext inner).1 with hplain
  set l₁ : Labeled R := { l with
    inner := (RecordIo.readPlaintext inner).2, pending := l.pending ++ plain } with hl₁
  have hr : r = if l₁.validated.isNone then
      (if l₁.advanceHandshake.1 then intake else .failed, l₁.advanceHandshake.2) else (intake, l₁) :=
    handle_eq alive he hne
  rcases heard with ⟨hv, happ, hgot, -⟩ | ⟨hv, hgot⟩
  · have hg : got ++ plain = l₁.pending := by rw [hgot]
    have hpre : l₁.pending <+: buildHello l₁.cluster id ++ stream := by
      rw [← hg]
      have := (link.ordered hread).trans hs
      rw [hhello] at this
      exact this
    have hv₁ : l₁.validated.isNone = true := by
      show l.validated.isNone = true
      rw [hv]
      rfl
    rw [if_pos hv₁] at hr
    rcases advanceHandshake_hello (l := l₁) hv hid hpre with ⟨hlt, ha⟩ | ⟨more, hmore, ha | ha⟩
    · rw [ha] at hr
      rw [hr]
      refine ⟨alive, rfl, hdr, got ++ plain, left, .inl ⟨hv, happ, hg, ?_⟩, hread, hleft⟩
      rw [hhello]
      exact hlt
    · rw [ha] at hr
      rw [hr]
      refine ⟨alive, rfl, hdr, got ++ plain, left, .inr ⟨rfl, ?_⟩, hread, hleft⟩
      rw [hg, hmore, happ, hhello]
      simp [hl₁]
    · rw [ha] at hr
      rw [hr]
      have hf := flushHello_receives (l := { l₁ with
        validated := some id, pending := more, helloOut := l₁.helloOut ++ l₁.localHello }) hread hdr
      refine ⟨alive, rfl, hf.2, got ++ plain, left, .inr ⟨rfl, ?_⟩, hf.1, hleft⟩
      rw [hg, hmore, happ, hhello]
      simp [hl₁, flushHello]
  · have hv₁ : ¬ l₁.validated.isNone = true := by
      show ¬ l.validated.isNone = true
      rw [hv]
      simp
    rw [if_neg hv₁] at hr
    rw [hr]
    refine ⟨alive, rfl, hdr, got ++ plain, left, .inr ⟨hv, ?_⟩, hread, hleft⟩
    rw [hgot]
    simp [hl₁]

end Labeled

end Sailing.Transport
