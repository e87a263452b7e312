import Sailing.Wire.Codec

/-!
# Round trips

Each decoder of `wire/mod.rs` undoes its encoder, from the parts to the whole: identifiers, sets
of them, entries, metas, then every message and payload. The one condition is the length of the
identifiers, 1 to 1024 bytes, which the decoders check; a rollback that names no source is read
as the source's own thaw.
-/

namespace Sailing.Wire

variable {I : Type} [LinearOrder I] {encodeId : I → Bytes} {decodeExact : Bytes → Except DecodeError I}

theorem Generated.read_encode {W : Type} (g : Generated W) (w : W) : g.read (g.encode w) = .ok w := by
  rw [Generated.read, g.decode_encode]
  rfl

@[simp] theorem ok_bind {A B : Type} (a : A) (f : A → Except DecodeError B) : (Except.ok a >>= f) = f a := rfl

@[simp] theorem pure_eq {A : Type} (a : A) : (pure a : Except DecodeError A) = .ok a := rfl

/-! ## Identifiers -/

omit [LinearOrder I] in
theorem decodeId_encodeId (exact : ∀ id, decodeExact (encodeId id) = .ok id) {id : I}
    (bound : WithinWireBound (encodeId id)) : decodeId decodeExact (encodeId id) = .ok id := by
  obtain ⟨present, short⟩ := bound
  have fits : ¬ (encodeId id = [] ∨ maxIdLen < (encodeId id).length) := by
    rw [not_or]
    exact ⟨present, by omega⟩
  rw [decodeId, if_neg fits, exact]

/-- Ascending identifiers, all after `prev`, are read. -/
theorem decodeSetFrom_map (exact : ∀ id, decodeExact (encodeId id) = .ok id) {ids : List I} (prev : Option I)
    (out : Finset I) (sorted : ids.Pairwise (· < ·)) (after : ∀ p ∈ prev, ∀ id ∈ ids, p < id)
    (bound : ∀ id ∈ ids, WithinWireBound (encodeId id)) :
    decodeSetFrom decodeExact prev out (ids.map encodeId) = .ok (out ∪ ids.toFinset) := by
  induction ids generalizing prev out with
  | nil => simp [decodeSetFrom]
  | cons id ids ih =>
    obtain ⟨least, rest⟩ := List.pairwise_cons.mp sorted
    have fresh : ¬ prev.any (id ≤ ·) = true := by
      cases prev with
      | none => simp
      | some p => simpa using after p rfl id List.mem_cons_self
    have next := ih (some id) (insert id out) rest
      (fun p here other mem => by cases here; exact least other mem)
      (fun other mem => bound other (List.mem_cons_of_mem _ mem))
    rw [List.map_cons, decodeSetFrom, decodeId_encodeId exact (bound id List.mem_cons_self)]
    show (if _ then _ else _) = _
    rw [if_neg fresh, next]
    congr 1
    ext other
    simp only [List.toFinset_cons, Finset.mem_union, Finset.mem_insert]
    tauto

theorem decodeSet_encodeSet (exact : ∀ id, decodeExact (encodeId id) = .ok id) {ids : Finset I}
    (bound : ∀ id ∈ ids, WithinWireBound (encodeId id)) : decodeSet decodeExact (encodeSet encodeId ids) = .ok ids := by
  have read := decodeSetFrom_map exact none ∅ ids.sortedLT_sort.pairwise (fun _ none_here => by cases none_here)
    fun id mem => bound id ((Finset.mem_sort _).mp mem)
  rwa [Finset.empty_union, Finset.sort_toFinset] at read

/-! ## Entries and metas -/

@[simp] theorem entryKindFrom_pb (k : EntryKind) : entryKindFrom (.known (pbEntryKind k)) = .ok k := by cases k <;> rfl

@[simp] theorem ccTypeFrom_pb (t : ConfChangeType) : ccTypeFrom (pbCcType t) = .ok t := by cases t <;> rfl

@[simp] theorem transitionFrom_pb (t : ConfChangeTransition) : transitionFrom (.known (pbTransition t)) = .ok t := by
  cases t <;> rfl

theorem entryFrom_pb (e : Entry) : entryFrom (pbEntry e) = .ok e := by
  simp only [entryFrom, pbEntry, entryKindFrom_pb, ok_bind, pure_eq]

theorem mapM_map {A W : Type} {write : A → W} {read : W → Except DecodeError A} (parts : List A)
    (each : ∀ a ∈ parts, read (write a) = .ok a) : (parts.map write).mapM read = .ok parts := by
  induction parts with
  | nil => rfl
  | cons a parts ih =>
    rw [List.map_cons, List.mapM_cons, each a List.mem_cons_self,
      ih fun other mem => each other (List.mem_cons_of_mem _ mem)]
    rfl

/-- The identifiers of a configuration. -/
def confIds (c : ConfState I) : Finset I := c.voters ∪ c.learners ∪ c.votersOutgoing ∪ c.learnersNext

theorem confStateFrom_pb (exact : ∀ id, decodeExact (encodeId id) = .ok id) {c : ConfState I}
    (bound : ∀ id ∈ confIds c, WithinWireBound (encodeId id)) :
    confStateFrom decodeExact (pbConfState encodeId c) = .ok c := by
  have part {ids : Finset I} (within : ids ⊆ confIds c) : decodeSet decodeExact (encodeSet encodeId ids) = .ok ids :=
    decodeSet_encodeSet exact fun id mem => bound id (within mem)
  unfold confIds at part
  simp only [confStateFrom, pbConfState]
  rw [part (by grind), part (by grind), part (by grind), part (by grind)]
  rfl

/-- No mode, and each mode, has a code of its own. -/
theorem readOnlyFrom_code (mode : Option ReadMode) : readOnlyFrom (readOnlyCode mode) = .ok mode := by
  cases mode with
  | none => rfl
  | some mode => cases mode <;> rfl

theorem snapshotMetaFrom_pb (exact : ∀ id, decodeExact (encodeId id) = .ok id) {m : SnapshotMeta I}
    (bound : ∀ id ∈ confIds m.conf, WithinWireBound (encodeId id)) :
    snapshotMetaFrom decodeExact (pbSnapshotMeta encodeId m) = .ok m := by
  have fork : (m.forkId.map pbForkId).map forkIdFrom = m.forkId := by
    rw [Option.map_map]
    exact congrFun Option.map_id m.forkId
  simp only [snapshotMetaFrom, pbSnapshotMeta, Option.elim_some, fork, ok_bind, readOnlyFrom_code,
    confStateFrom_pb exact bound, pure_eq]

/-! ## Messages -/

/-- The identifiers a message names. -/
def Message.ids : Message I → Finset I
  | .appendEntries m => {m.leader}
  | .appendResponse m => {m.sender}
  | .requestVote m => {m.candidate}
  | .voteResponse m => {m.sender}
  | .heartbeat m => {m.leader}
  | .heartbeatResponse m => {m.sender}
  | .installSnapshot m => insert m.leader (confIds m.snapshot.conf)
  | .snapshotResponse m => {m.sender}
  | .timeoutNow m => {m.leader}
  | .readIndex m => {m.sender}
  | .readIndexResponse m => {m.sender}

theorem messageFrom_pb (exact : ∀ id, decodeExact (encodeId id) = .ok id) {m : Message I}
    (bound : ∀ id ∈ m.ids, WithinWireBound (encodeId id)) :
    messageFrom decodeExact (pbMessage encodeId m) = .ok m := by
  have named {id : I} (mem : id ∈ m.ids) : decodeId decodeExact (encodeId id) = .ok id :=
    decodeId_encodeId exact (bound id mem)
  cases m with
  | appendEntries m =>
    have entries := mapM_map m.entries fun e _ => entryFrom_pb e
    simp only [messageFrom, pbMessage, Option.elim_some, ok_bind, named (Finset.mem_singleton_self _), entries, pure_eq]
  | heartbeatResponse m =>
    have nanos : ¬ 10 ^ 9 ≤ m.leaseSupport % 10 ^ 9 := Nat.not_le.mpr (Nat.mod_lt _ (by decide))
    have whole : m.leaseSupport / 10 ^ 9 * 10 ^ 9 + m.leaseSupport % 10 ^ 9 = m.leaseSupport := Nat.div_add_mod' _ _
    simp only [messageFrom, pbMessage, Option.elim_some, ok_bind, if_neg nanos, named (Finset.mem_singleton_self _),
      whole, pure_eq]
  | installSnapshot =>
    have snapshot := snapshotMetaFrom_pb exact fun id mem => bound id (Finset.mem_insert_of_mem mem)
    simp only [messageFrom, pbMessage, Option.elim_some, ok_bind, named (Finset.mem_insert_self _ _), snapshot, pure_eq]
  | appendResponse m | requestVote m | voteResponse m | heartbeat m | snapshotResponse m | timeoutNow m | readIndex m
  | readIndexResponse =>
    simp only [messageFrom, pbMessage, Option.elim_some, ok_bind, named (Finset.mem_singleton_self _), pure_eq]

theorem decodeMessage_writeMessage (g : Generated Pb.Message) (exact : ∀ id, decodeExact (encodeId id) = .ok id)
    {m : Message I} (bound : ∀ id ∈ m.ids, WithinWireBound (encodeId id)) :
    decodeMessage decodeExact g (writeMessage encodeId g m) = .ok m := by
  rw [decodeMessage, writeMessage, g.read_encode]
  exact messageFrom_pb exact bound

/-! ## Payloads -/

omit [LinearOrder I] in
theorem decodeConfChangeV2_encode (g : Generated Pb.ConfChangeV2) (exact : ∀ id, decodeExact (encodeId id) = .ok id)
    {cc : ConfChangeV2 I} (bound : ∀ c ∈ cc.changes, WithinWireBound (encodeId c.node)) :
    decodeConfChangeV2 decodeExact g (encodeConfChangeV2 encodeId g cc) = .ok cc := by
  have single : ∀ c ∈ cc.changes, confChangeSingleFrom decodeExact ⟨pbCcType c.ty, encodeId c.node⟩ = .ok c := by
    intro c mem
    simp only [confChangeSingleFrom, ccTypeFrom_pb, decodeId_encodeId exact (bound c mem), ok_bind, pure_eq]
  simp only [decodeConfChangeV2, encodeConfChangeV2, g.read_encode, transitionFrom_pb, mapM_map cc.changes single, ok_bind,
    pure_eq]

theorem checkGroupId_ok {b : Bytes} (bound : WithinWireBound b) (what : String) : checkGroupId what b = .ok () := by
  obtain ⟨present, short⟩ := bound
  have fits : ¬ (b = [] ∨ Transport.maxGroupIdLen < b.length) := by
    rw [not_or]
    exact ⟨present, Nat.not_lt.mpr short⟩
  rw [checkGroupId, if_neg fits]

theorem decodeSplitPayload_encode (g : Generated Pb.SplitPayload) {p : SplitPayload} (bound : WithinWireBound p.childBytes) :
    decodeSplitPayload g (encodeSplitPayload g p) = .ok p := by
  simp only [decodeSplitPayload, encodeSplitPayload, g.read_encode, checkGroupId_ok bound, ok_bind, pure_eq]

theorem decodePrepareMergePayload_encode (g : Generated Pb.PrepareMergePayload) {p : PrepareMergePayload}
    (bound : WithinWireBound p.targetBytes) : decodePrepareMergePayload g (encodePrepareMergePayload g p) = .ok p := by
  simp only [decodePrepareMergePayload, encodePrepareMergePayload, g.read_encode, checkGroupId_ok bound, ok_bind, pure_eq]

theorem decodeCommitMergePayload_encode (g : Generated Pb.CommitMergePayload) {p : CommitMergePayload}
    (bound : WithinWireBound p.sourceBytes) : decodeCommitMergePayload g (encodeCommitMergePayload g p) = .ok p := by
  simp only [decodeCommitMergePayload, encodeCommitMergePayload, g.read_encode, checkGroupId_ok bound, ok_bind, pure_eq]

/-- The two roles of a rollback are told apart by the source's id. -/
theorem decodeRollbackMergePayload_encode (g : Generated Pb.RollbackMergePayload) {p : RollbackMergePayload}
    (short : p.sourceBytes.length ≤ Transport.maxGroupIdLen) (thaw : p.sourceBytes = [] → p.targetGenAfter = 0) :
    decodeRollbackMergePayload g (encodeRollbackMergePayload g p) = .ok p := by
  rw [decodeRollbackMergePayload, encodeRollbackMergePayload, g.read_encode]
  show (if Transport.maxGroupIdLen < p.sourceBytes.length then _ else if p.sourceBytes = [] then _ else _) = _
  rw [if_neg (Nat.not_lt.mpr short)]
  by_cases absent : p.sourceBytes = []
  · rw [if_pos absent]
    show Except.ok (RollbackMergePayload.mk [] p.sourceGenAfter 0) = _
    rw [← absent, ← thaw absent]
  · rw [if_neg absent]
    rfl

theorem decodeThawDischargedPayload_encode (g : Generated Pb.ThawDischargedPayload) {p : ThawDischargedPayload}
    (bound : WithinWireBound p.sourceBytes) : decodeThawDischargedPayload g (encodeThawDischargedPayload g p) = .ok p := by
  simp only [decodeThawDischargedPayload, encodeThawDischargedPayload, g.read_encode, checkGroupId_ok bound, ok_bind, pure_eq]

/-! ## All codecs -/

/-- Messages and payloads survive the wire when every identifier of a node and of a group in them
is within the wire's bound; a rollback without a source has no generation of a target. -/
theorem codecs_round_trip (code : GeneratedCode) (exact : ∀ id, decodeExact (encodeId id) = .ok id) :
    (∀ m : Message I, (∀ id ∈ m.ids, WithinWireBound (encodeId id)) →
        decodeMessage decodeExact code.message (writeMessage encodeId code.message m) = .ok m) ∧
      (∀ cc : ConfChangeV2 I, (∀ c ∈ cc.changes, WithinWireBound (encodeId c.node)) →
        decodeConfChangeV2 decodeExact code.confChangeV2 (encodeConfChangeV2 encodeId code.confChangeV2 cc) = .ok cc) ∧
      (∀ p : SplitPayload, WithinWireBound p.childBytes →
        decodeSplitPayload code.splitPayload (encodeSplitPayload code.splitPayload p) = .ok p) ∧
      (∀ p : PrepareMergePayload, WithinWireBound p.targetBytes →
        decodePrepareMergePayload code.prepareMergePayload (encodePrepareMergePayload code.prepareMergePayload p) = .ok p) ∧
      (∀ p : CommitMergePayload, WithinWireBound p.sourceBytes →
        decodeCommitMergePayload code.commitMergePayload (encodeCommitMergePayload code.commitMergePayload p) = .ok p) ∧
      (∀ p : RollbackMergePayload, p.sourceBytes.length ≤ Transport.maxGroupIdLen →
        (p.sourceBytes = [] → p.targetGenAfter = 0) →
        decodeRollbackMergePayload code.rollbackMergePayload
          (encodeRollbackMergePayload code.rollbackMergePayload p) = .ok p) ∧
      ∀ p : ThawDischargedPayload, WithinWireBound p.sourceBytes →
        decodeThawDischargedPayload code.thawDischargedPayload
          (encodeThawDischargedPayload code.thawDischargedPayload p) = .ok p := by
  refine ⟨?_, ?_, ?_, ?_, ?_, ?_, ?_⟩
  · exact fun m bound => decodeMessage_writeMessage code.message exact bound
  · exact fun cc bound => decodeConfChangeV2_encode code.confChangeV2 exact bound
  · exact fun p bound => decodeSplitPayload_encode code.splitPayload bound
  · exact fun p bound => decodePrepareMergePayload_encode code.prepareMergePayload bound
  · exact fun p bound => decodeCommitMergePayload_encode code.commitMergePayload bound
  · exact fun p short thaw => decodeRollbackMergePayload_encode code.rollbackMergePayload short thaw
  · exact fun p bound => decodeThawDischargedPayload_encode code.thawDischargedPayload bound

/-- An identifier is as many zero bytes. -/
def zeros (n : Nat) : Bytes := List.replicate n 0

/-- A chunk of a snapshot in a joint configuration. -/
def chunk : Message Nat :=
  .installSnapshot ⟨3, 1, ⟨⟨7, 2, ⟨{1, 2}, {4}, {1, 3}, {3}, true⟩⟩, 5, 9, 0, some .safe, 6, some ⟨[1], 2, 3, 4, [], 0⟩⟩,
    [8], 0, 0⟩

/-- The generated code writes the chunk as the encoder of frames does. -/
noncomputable def chunkCode : GeneratedCode :=
  { GeneratedCode.ofCountable with
    message := .ofSamples [(pbMessage zeros chunk, encodeMessage zeros chunk [])] (by simp) (by decide +kernel) }

theorem codecs_round_trip_joint :
    writeMessage zeros chunkCode.message chunk = encodeMessage zeros chunk [] ∧
      decodeMessage (fun b => .ok b.length) chunkCode.message (encodeMessage zeros chunk []) = .ok chunk := by
  have written : writeMessage zeros chunkCode.message chunk = encodeMessage zeros chunk [] := by
    simp [writeMessage, chunkCode, Generated.ofSamples, sampleEncode]
  obtain ⟨read, -⟩ := @codecs_round_trip Nat _ zeros (fun b => .ok b.length) chunkCode
    fun n => congrArg Except.ok List.length_replicate
  exact ⟨written, written ▸ read chunk (by decide)⟩

/-- An identifier of 1025 bytes is written but not read, whatever the codec of identifiers makes
of it; nor is an empty group id, and an abort that names no source comes back as a thaw. -/
theorem long_id_not_read :
    (∀ n : Nat, (fun b : Bytes => Except.ok b.length) (List.replicate n 0) = (Except.ok n : Except DecodeError Nat)) ∧
      decodeMessage (fun b => .ok b.length) GeneratedCode.ofCountable.message
          (writeMessage (fun n => List.replicate n 0) GeneratedCode.ofCountable.message (.timeoutNow ⟨1, 1025⟩)) =
        .error (.invalid "node id length") ∧
      decodeSplitPayload GeneratedCode.ofCountable.splitPayload (encodeSplitPayload GeneratedCode.ofCountable.splitPayload ⟨[], 0, 1, []⟩) =
        .error (.invalid "SplitPayload.child length") ∧
      decodeRollbackMergePayload GeneratedCode.ofCountable.rollbackMergePayload
          (encodeRollbackMergePayload GeneratedCode.ofCountable.rollbackMergePayload (.abort [] 1 2)) = .ok (.unfreeze 1) ∧
      RollbackMergePayload.abort [] 1 2 ≠ .unfreeze 1 := by
  have long : decodeId (I := Nat) (fun b => .ok b.length) (List.replicate 1025 0) = .error (.invalid "node id length") := by
    have long_ : List.replicate 1025 (0 : UInt8) = [] ∨ maxIdLen < (List.replicate 1025 (0 : UInt8)).length := by
      rw [List.length_replicate]
      exact Or.inr (by decide)
    rw [decodeId, if_pos long_]
  refine ⟨fun n => by simp, ?_, ?_, ?_, by decide⟩
  · simp only [decodeMessage, writeMessage, Generated.read_encode, ok_bind, messageFrom, pbMessage, Option.elim_some, long]
    rfl
  · simp only [decodeSplitPayload, encodeSplitPayload, Generated.read_encode, ok_bind]
    rfl
  · simp only [decodeRollbackMergePayload, encodeRollbackMergePayload, Generated.read_encode, ok_bind]
    rfl

end Sailing.Wire
