import Sailing.Wire.Message

/-!
# The caching encoder

`MessageEncoder` keeps the encoded meta of the last snapshot transfer and assembles the
frames of a transfer around it by hand. What it keeps is always the encoding of the meta
it is kept for (`Coherent`), so a sequence of encodings and clears writes what the
stateless encoder writes.
-/

namespace Sailing.Wire

open Proto (varintLen tag varint delimited)

variable {I : Type} [LinearOrder I]

def snapshotMetaCacheMaxBytes : Nat := 64 * 1024

structure MessageEncoder (I : Type) where
  /-- The last meta encoded, with its body. -/
  snapshotMeta : Option (SnapshotMeta I × Bytes)

namespace MessageEncoder

variable (encodeId : I → Bytes)

def new : MessageEncoder I := ⟨none⟩

def clear (_e : MessageEncoder I) : MessageEncoder I := ⟨none⟩

/-- A body that is too large is not kept, and neither is the one it replaces. -/
def remember (snap : SnapshotMeta I) : Bytes × MessageEncoder I :=
  let body := encodeSnapshotMeta encodeId snap
  (body, ⟨if body.length ≤ snapshotMetaCacheMaxBytes then some (snap, body) else none⟩)

def metaBody (e : MessageEncoder I) (snap : SnapshotMeta I) : Bytes × MessageEncoder I :=
  match e.snapshotMeta with
  | some (cached, body) => if cached = snap then (body, e) else remember encodeId snap
  | none => remember encodeId snap

/-- Writes the frame around the meta's body: the size of the arm first, then its fields,
each left out at its default. -/
def spliceInstallSnapshot (m : InstallSnapshot I) (metaBody buf : Bytes) : Bytes :=
  let leader := encodeId m.leader
  let bodyLen :=
    (if m.term ≠ 0 then 1 + varintLen m.term else 0) +
    (if leader ≠ [] then 1 + (varintLen leader.length + leader.length) else 0) +
    (1 + varintLen metaBody.length + metaBody.length) +
    (if m.data ≠ [] then 1 + (varintLen m.data.length + m.data.length) else 0) +
    (if m.offset ≠ 0 then 1 + varintLen m.offset else 0) +
    (if m.totalLen ≠ 0 then 1 + varintLen m.totalLen else 0)
  let buf := buf ++ tag 7 .lengthDelimited ++ varint bodyLen
  let buf := if m.term ≠ 0 then buf ++ tag 1 .varint ++ varint m.term else buf
  let buf := if leader ≠ [] then
    buf ++ tag 2 .lengthDelimited ++ varint leader.length ++ leader else buf
  let buf := buf ++ tag 3 .lengthDelimited ++ varint metaBody.length ++ metaBody
  let buf := if m.data ≠ [] then
    buf ++ tag 4 .lengthDelimited ++ varint m.data.length ++ m.data else buf
  let buf := if m.offset ≠ 0 then buf ++ tag 5 .varint ++ varint m.offset else buf
  if m.totalLen ≠ 0 then buf ++ tag 6 .varint ++ varint m.totalLen else buf

/-- The cache is released when the transfer ends. -/
def encodeInstallSnapshot (e : MessageEncoder I) (m : InstallSnapshot I) (buf : Bytes) : Bytes × MessageEncoder I :=
  let (metaBody, e) := e.metaBody encodeId m.snapshot
  (spliceInstallSnapshot encodeId m metaBody buf,
    if m.totalLen = 0 ∨ m.isLast then ⟨none⟩ else e)

def encode (e : MessageEncoder I) (msg : Message I) (buf : Bytes) : Bytes × MessageEncoder I :=
  match msg with
  | .installSnapshot m => e.encodeInstallSnapshot encodeId m buf
  | other => (encodeMessage encodeId other buf, e)

/-! ## One encoding -/

/-- What is cached is the encoding of the meta it is cached for. -/
def Coherent (e : MessageEncoder I) : Prop :=
  ∀ cached body, e.snapshotMeta = some (cached, body) → body = encodeSnapshotMeta encodeId cached

variable {encodeId}

theorem coherent_none : Coherent encodeId (⟨none⟩ : MessageEncoder I) := by
  intro cached body h
  contradiction

theorem remember_spec (snap : SnapshotMeta I) :
    (remember encodeId snap).1 = encodeSnapshotMeta encodeId snap ∧ Coherent encodeId (remember encodeId snap).2 := by
  refine ⟨rfl, fun cached body h => ?_⟩
  simp only [remember] at h
  split at h
  · obtain ⟨rfl, rfl⟩ := Prod.mk.inj (Option.some.inj h)
    rfl
  · contradiction

theorem metaBody_spec {e : MessageEncoder I} (h : e.Coherent encodeId) (snap : SnapshotMeta I) :
    (e.metaBody encodeId snap).1 = encodeSnapshotMeta encodeId snap ∧ (e.metaBody encodeId snap).2.Coherent encodeId := by
  unfold metaBody
  split
  · next cached body kept =>
    split
    · next hit => exact ⟨hit ▸ h cached body kept, h⟩
    · exact remember_spec snap
  · exact remember_spec snap

omit [LinearOrder I] in
/-- The hand-written frame is the generated one: each field is written and sized alike. -/
theorem spliceInstallSnapshot_eq (m : InstallSnapshot I) (metaBody buf : Bytes) :
    spliceInstallSnapshot encodeId m metaBody buf = buf ++ delimited 7 (installSnapshotBody encodeId m metaBody) := by
  have size := length_installSnapshotBody encodeId m metaBody
  simp only [Proto.uint64Len, Proto.bytesLen, Proto.delimitedLen, List.length_eq_zero_iff] at size
  unfold delimited
  rw [size]
  simp only [spliceInstallSnapshot, installSnapshotBody, Proto.uint64, Proto.bytes, delimited, ite_not,
    List.append_assoc]
  split_ifs <;> simp [Nat.add_assoc]

theorem encode_spec {e : MessageEncoder I} (h : e.Coherent encodeId) (msg : Message I) (buf : Bytes) :
    (e.encode encodeId msg buf).1 = encodeMessage encodeId msg buf ∧ (e.encode encodeId msg buf).2.Coherent encodeId := by
  cases msg with
  | installSnapshot m =>
    obtain ⟨body, kept⟩ := metaBody_spec h m.snapshot
    simp only [encode, encodeInstallSnapshot]
    refine ⟨?_, ?_⟩
    · rw [spliceInstallSnapshot_eq, body]
      rfl
    · split
      · exact coherent_none
      · exact kept
  | _ => exact ⟨rfl, h⟩

end MessageEncoder

/-! ## Any sequence -/

inductive EncoderOp (I : Type) where
  | encode (msg : Message I) (buf : Bytes)
  | clear

/-- The buffers after each encoding, in order. -/
def MessageEncoder.run (encodeId : I → Bytes) (e : MessageEncoder I) : List (EncoderOp I) → List Bytes
  | [] => []
  | .encode msg buf :: ops => (e.encode encodeId msg buf).1 :: run encodeId (e.encode encodeId msg buf).2 ops
  | .clear :: ops => run encodeId e.clear ops

/-- The same without an encoder. -/
def stateless (encodeId : I → Bytes) : List (EncoderOp I) → List Bytes
  | [] => []
  | .encode msg buf :: ops => encodeMessage encodeId msg buf :: stateless encodeId ops
  | .clear :: ops => stateless encodeId ops

theorem MessageEncoder.run_eq {encodeId : I → Bytes} {e : MessageEncoder I} (h : e.Coherent encodeId)
    (ops : List (EncoderOp I)) : e.run encodeId ops = stateless encodeId ops := by
  induction ops generalizing e with
  | nil => rfl
  | cons op ops ih =>
    cases op with
    | encode msg buf =>
      obtain ⟨bytes, kept⟩ := encode_spec h msg buf
      rw [run, stateless, bytes, ih kept]
    | clear => exact ih coherent_none

/-- A leader whose id encodes to nothing: the field is left out, and sized as present. -/
theorem length_lt_of_anonymous {encodeId : I → Bytes} {m : InstallSnapshot I} (anonymous : encodeId m.leader = []) :
    (encodeMessage encodeId (.installSnapshot m) []).length <
      installSnapshotEncodedLen encodeId m.term m.leader m.snapshot m.offset m.totalLen m.data.length := by
  have absent : Proto.bytesLen (encodeId m.leader).length = 0 := by rw [anonymous]; rfl
  have sized : 0 < idBytesField encodeId m.leader := by
    unfold idBytesField Proto.delimitedLen
    omega
  simp only [encodeMessage, List.nil_append, encodeArm, Proto.length_delimited (by decide : 7 < 16),
    length_installSnapshotBody, length_encodeSnapshotMeta, absent, installSnapshotEncodedLen, installSnapshotLen]
  exact Proto.delimitedLen_strictMono (by omega)

/-- Ids written in unary: node 0 has the empty encoding. -/
def unary (id : Nat) : Bytes := List.replicate id 0

/-- A snapshot that node 0 sends to its learner. -/
def fromNodeZero : InstallSnapshot Nat :=
  ⟨1, 0, ⟨⟨4, 1, ⟨{0}, {1}, ∅, ∅, false⟩⟩, 0, 0, 0, none, 0, none⟩, [7, 7], 0, 2⟩

theorem encodedLen_fromNodeZero : Function.Injective unary ∧
    installSnapshotEncodedLen unary fromNodeZero.term fromNodeZero.leader fromNodeZero.snapshot fromNodeZero.offset
      fromNodeZero.totalLen fromNodeZero.data.length ≠
    (encodeMessage unary (.installSnapshot fromNodeZero) []).length := by
  refine ⟨fun a b h => ?_, (length_lt_of_anonymous rfl).ne'⟩
  simpa [unary] using congrArg List.length h

/-- Whatever is encoded and cleared, the bytes are those of the stateless encoder; and the
sized length of a snapshot frame is its encoded length when the leader's id has one. -/
theorem encoder_is_invisible (encodeId : I → Bytes) :
    (∀ ops : List (EncoderOp I), MessageEncoder.new.run encodeId ops = stateless encodeId ops) ∧
    ∀ m : InstallSnapshot I, encodeId m.leader ≠ [] →
      installSnapshotEncodedLen encodeId m.term m.leader m.snapshot m.offset m.totalLen m.data.length =
        (encodeMessage encodeId (.installSnapshot m) []).length :=
  ⟨MessageEncoder.run_eq MessageEncoder.coherent_none,
    fun m present => (length_encodeMessage_installSnapshot encodeId m present).symm⟩

/-- Two chunks of one transfer with a heartbeat between them. -/
def twoChunks : List (EncoderOp Nat) :=
  [.encode (.installSnapshot ⟨1, 1, ⟨⟨4, 1, ⟨{1}, {2}, ∅, ∅, false⟩⟩, 0, 0, 0, none, 0, none⟩, [7], 0, 2⟩) [],
    .encode (.heartbeat ⟨1, 1, 4, [], 1⟩) [5],
    .encode (.installSnapshot ⟨1, 1, ⟨⟨4, 1, ⟨{1}, {2}, ∅, ∅, false⟩⟩, 0, 0, 0, none, 0, none⟩, [8], 1, 2⟩) []]

theorem encoder_is_invisible_twoChunks :
    MessageEncoder.new.run unary twoChunks = stateless unary twoChunks ∧
      installSnapshotEncodedLen unary 1 1 fromNodeZero.snapshot 0 2 2 =
        (encodeMessage unary (.installSnapshot { fromNodeZero with leader := 1 }) []).length :=
  ⟨(encoder_is_invisible unary).1 twoChunks,
    (encoder_is_invisible unary).2 { fromNodeZero with leader := 1 } (by decide)⟩

end Sailing.Wire
