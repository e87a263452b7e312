import Sailing.Transport.Ends

/-!
# A stream of messages

Runs of two connections: sends and reads at one end, reads of any size and
decodes at the other. What is decoded is what was accepted, from its start and in
order, as long as an acceptor sends nothing before it has seen the dialer's hello.
-/

namespace Sailing.Transport

open RecordIo

variable {I R Msg : Type} {codec : Codec I Msg}


/-- The two ends, the bytes between them, and what was accepted at one and decoded
or reported at the other. -/
structure Stream (I R Msg : Type) where
  sender : Conn I (Labeled R)
  wire : Bytes
  receiver : Conn I (Labeled R)
  accepted : List (Tuple Msg)
  decoded : List (Tuple Msg)
  faults : List TransportError

inductive StreamOp (Msg : Type) where
  | sendMessage (group : Bytes) (generation : UInt64) (msg : Msg)
  | sendCoalesced (entries : List (CoalescedEntry Msg))
  | sendProbe
  -- whatever reaches the sender
  | senderData (bytes : Bytes) (eof : Bool) (now : Instant)
  | transmit
  -- a read of at most `n` bytes
  | receive (n : Nat) (now : Instant)
  | decode
  | receiverTransmit

def StreamOp.Fits (codec : Codec I Msg) : StreamOp Msg → Prop
  | .sendMessage group _ _ => group.length ≤ maxGroupIdLen
  | .sendCoalesced entries => ∀ e ∈ entries, CoalescedFits codec e
  | _ => True

instance (op : StreamOp Msg) : Decidable (op.Fits codec) := by
  cases op <;> unfold StreamOp.Fits <;> infer_instance

def StreamOp.isSend : StreamOp Msg → Bool
  | .sendMessage .. | .sendCoalesced .. | .sendProbe => true
  | _ => false

def faultOf {α : Type} : Except TransportError α → List TransportError
  | .error e => [e]
  | .ok _ => []

def tuplesIn : Except TransportError (List (Tuple Msg)) → List (Tuple Msg)
  | .error _ => []
  | .ok tuples => tuples

namespace Stream

variable [RecordIo R]

def start (tx rx : Labeled R) : Stream I R Msg := ⟨.new tx, [], .new rx, [], [], []⟩

section

variable (codec)

def exec (s : Stream I R Msg) : StreamOp Msg → Stream I R Msg
  | .sendMessage group generation msg => { s with
      sender := s.sender.sendMessage codec group generation msg
      accepted := s.accepted ++ acceptedMessage codec s.sender group generation msg }
  | .sendCoalesced entries => { s with
      sender := s.sender.sendCoalesced codec entries
      accepted := s.accepted ++ acceptedCoalesced codec s.sender entries }
  | .sendProbe => { s with sender := s.sender.sendProbe }
  | .senderData bytes eof now => { s with sender := (s.sender.handleData codec bytes eof now).2 }
  | .transmit =>
    let (bytes, sender) := s.sender.pollTransmit
    { s with sender := sender, wire := s.wire ++ bytes }
  | .receive n now =>
    let (result, receiver) := s.receiver.handleData codec (s.wire.take n) false now
    { s with wire := s.wire.drop n, receiver := receiver, faults := s.faults ++ faultOf result }
  | .decode =>
    let (result, receiver) := s.receiver.pollDecoded codec
    { s with
      receiver := receiver, decoded := s.decoded ++ tuplesIn result
      faults := s.faults ++ faultOf result }
  | .receiverTransmit => { s with receiver := s.receiver.pollTransmit.2 }

def execs (s : Stream I R Msg) (ops : List (StreamOp Msg)) : Stream I R Msg := ops.foldl (exec codec) s

/-- Nothing is sent by an acceptor that has not seen the dialer's hello. -/
def helloFirst : Stream I R Msg → List (StreamOp Msg) → Bool
  | _, [] => true
  | s, op :: ops => !(op.isSend && s.sender.record.owed ≠ []) && helloFirst (s.exec codec op) ops

end

/-- The frames of the sender are those decoded and those to come. -/
def Inv (codec : Codec I Msg) (link : Lossless R) (hello id : Bytes) (peer : I) (s : Stream I R Msg) :
    Prop :=
  ∃ sent got polled rest,
    Sending link hello s.receiver.record.inner s.wire got s.sender sent (polled ++ rest) ∧
    Receiving hello id peer s.receiver got polled rest ∧
    (∀ p ∈ polled ++ rest, FrameOk codec p) ∧
    s.accepted = (polled ++ rest).flatMap (tuplesOf codec) ∧
    s.decoded = polled.flatMap (tuplesOf codec) ∧ s.faults = []

variable {link : Lossless R} {hello id : Bytes} {peer : I} {s : Stream I R Msg}

theorem Inv.queue {sender : Conn I (Labeled R)} {accepted : List (Tuple Msg)} {got : Bytes} {polled rest : List Bytes}
    (hq : Queues codec link hello s.receiver.record.inner s.wire got (polled ++ rest) sender accepted)
    (hr : Receiving hello id peer s.receiver got polled rest)
    (good : ∀ p ∈ polled ++ rest, FrameOk codec p)
    (hacc : s.accepted = (polled ++ rest).flatMap (tuplesOf codec))
    (hdec : s.decoded = polled.flatMap (tuplesOf codec)) (hf : s.faults = []) :
    Inv codec link hello id peer { s with sender := sender, accepted := s.accepted ++ accepted } := by
  obtain ⟨sent', new, hs, hok, he⟩ := hq
  refine ⟨sent', got, polled, rest ++ new, by rwa [← List.append_assoc], hr.append new, fun p hp => ?_, ?_, hdec, hf⟩
  · rw [← List.append_assoc] at hp
    rcases List.mem_append.mp hp with hp | hp
    · exact good p hp
    · exact hok p hp
  · rw [← List.append_assoc, List.flatMap_append, he, ← hacc]

section

variable (lawful : ∀ m, codec.decodeMessage (codec.encodeMessage m) = some m)
  (hid : id ≠ [] ∧ id.length ≤ maxPeerIdLen) (hpeer : codec.decodeId id = some peer)

include lawful hid hpeer

theorem exec_inv (op : StreamOp Msg) (inv : Inv codec link hello id peer s) (fits : op.Fits codec)
    (first : op.isSend = true → s.sender.record.owed = []) :
    Inv codec link hello id peer (s.exec codec op) := by
  obtain ⟨sent, got, polled, rest, hs, hr, good, hacc, hdec, hf⟩ := inv
  cases op with
  | sendMessage group generation msg =>
    exact .queue (queues_sendMessage lawful generation msg hs (first rfl) fits) hr good hacc hdec hf
  | sendCoalesced =>
    exact .queue (queues_sendCoalesced lawful hs (first rfl) fits) hr good hacc hdec hf
  | sendProbe =>
    have := Inv.queue (queues_sendProbe lawful hs (first rfl)) hr good hacc hdec hf
    rwa [List.append_nil] at this
  | senderData bytes eof now =>
    obtain ⟨sent', hs'⟩ := hs.handleData codec bytes eof now
    exact ⟨sent', got, polled, rest, hs', hr, good, hacc, hdec, hf⟩
  | transmit =>
    obtain ⟨sent', hs'⟩ := hs.pollTransmit
    exact ⟨sent', got, polled, rest, hs', hr, good, hacc, hdec, hf⟩
  | receive n now =>
    have hc := hs.carried
    rw [← List.take_append_drop n s.wire] at hc
    have hsent : sent <+: hello ++ (polled ++ rest).flatMap encodeFrame := by
      refine List.IsPrefix.trans ?_ hs.initial
      rw [List.append_assoc, List.append_assoc]
      exact List.prefix_append _ _
    obtain ⟨c', got', he, hc', hr'⟩ := hr.handleData now hid hpeer
      (fun p hp => (good p (List.mem_append_right _ hp)).1) hc hsent
    simp only [exec, he]
    exact ⟨sent, got', polled, rest, ⟨hc', hs.initial, hs.whole, hs.quiet⟩, hr', good, hacc, hdec,
      by simp [hf, faultOf]⟩
  | decode =>
    obtain ⟨c', new, more, he, hrest, hrec, hr', -⟩ := hr.pollDecoded fun p hp => good p (List.mem_append_right _ hp)
    simp only [exec, he]
    have hl : polled ++ rest = polled ++ new ++ more := by rw [hrest, List.append_assoc]
    rw [hl] at hs good hacc
    refine ⟨sent, got, polled ++ new, more, ?_, hr', good, hacc, ?_, by simp [hf, faultOf]⟩
    · show Sending link hello c'.record.inner s.wire got s.sender sent _
      rw [hrec]
      exact hs
    · show s.decoded ++ new.flatMap (tuplesOf codec) = _
      rw [hdec, List.flatMap_append]
  | receiverTransmit =>
    obtain ⟨hc', hr'⟩ := hr.pollTransmit hs.carried
    exact ⟨sent, got, polled, rest, ⟨hc', hs.initial, hs.whole, hs.quiet⟩, hr', good, hacc, hdec, hf⟩

theorem execs_inv {ops : List (StreamOp Msg)} (inv : Inv codec link hello id peer s)
    (fits : ∀ op ∈ ops, op.Fits codec) (first : s.helloFirst codec ops = true) :
    Inv codec link hello id peer (s.execs codec ops) := by
  induction ops generalizing s with
  | nil => exact inv
  | cons op ops ih =>
    rw [helloFirst, Bool.and_eq_true] at first
    refine ih (exec_inv lawful hid hpeer op inv (fits op (by simp)) fun hop => ?_)
      (fun op hop => fits op (List.mem_cons_of_mem _ hop)) first.2
    simpa [hop] using first.1

end

end Stream

/-! ## Opening -/

namespace Labeled

variable [RecordIo R]

/-- Either end of a connection. -/
def opened (role : ConnRole) (inner : R) (opts : LabelOptions) : Except TransportError (Labeled R) :=
  match role with
  | .dialer => dialer inner opts
  | .acceptor => acceptor inner opts

variable {role : ConnRole} {inner rx tx : R} {opts : LabelOptions} {l : Labeled R} {wire sent got : Bytes}

/-- An end that has sent nothing. -/
def unsent (role : ConnRole) (inner : R) (opts : LabelOptions) (helloOut : Bytes) : Labeled R where
  inner := inner
  cluster := opts.cluster
  localHello := buildHello opts.cluster opts.localId
  role := role
  pending := []
  helloOut := helloOut
  validated := none
  failed := false

section

variable (h : opened role inner opts = .ok l)

include h

end

end Labeled

namespace Stream

variable [RecordIo R] {link : Lossless R}

end Stream

/-! ## Plain streams -/

/-- The hello of the dialer, a message in answer to it, and reads of three bytes. -/
def answered : List (StreamOp Bytes) :=
  [.senderData (buildHello plainCluster [0]) false 0, .sendMessage [1] 4 [7], .transmit] ++
    List.replicate 12 (.receive 3 0) ++ [.decode]

/-- The acceptor sends before it has seen the dialer's hello: the frame is on the
wire before its own hello, which the dialer then refuses. -/
def unanswered : List (StreamOp Bytes) :=
  [.sendMessage [1] 4 [7], .transmit, .senderData (buildHello plainCluster [0]) false 0, .transmit,
    .receive 100 0, .decode]

end Sailing.Transport
