import Sailing.Run.Commit
import Sailing.Wire.Budget

/-!
# Everything a leader sends fits one frame

Entries and snapshots are enqueued by two effects: a send that kept to its budget, and the
farewell of a removed peer (`Step.loads`). What was packed so fits one frame, whatever the
group and its generation (`Packed.fits`).
-/

namespace Sailing

variable {I : Type} [LinearOrder I] {M : StateMachine}

omit [LinearOrder I] in
theorem LogImage.mem_putAll {l : LogImage I} {x : Entry I} (es : List (Entry I))
    (mem : x ∈ (l.putAll es).entries) : x ∈ l.entries ∨ x ∈ es := by
  induction es generalizing l with
  | nil => exact .inl mem
  | cons e es ih =>
    rcases ih mem with mem | mem
    · rcases List.mem_append.mp mem with mem | mem
      · exact .inl (List.mem_of_mem_take mem)
      · exact .inr (List.mem_singleton.mp mem ▸ List.mem_cons_self)
    · exact .inr (List.mem_cons_of_mem e mem)

/-- The entries a message brings passed the size check of the leader that proposed them. -/
def Input.Checked (wire : Wire I) : Input I → Prop
  | .message _ (.appendEntries ae) => ∀ e ∈ ae.entries, wire.dataLen e.kind + 128 ≤ Endpoint.appendFrameEntryBudget
  | _ => True

def Call.Checked (wire : Wire I) (c : Call I M) : Prop := ∀ inp, c.Brings inp → inp.Checked wire

/-- The message carries entries or a snapshot. -/
def bulk : Message I → Bool
  | .appendEntries _ | .installSnapshot _ => true
  | _ => false

namespace Endpoint

variable {mono : Prop} {now : Instant} {inp : Input I} {s s' s'' : Endpoint I M}

/-- The chunk is a run of the blob in the slot, empty only at its end. -/
def Sliced (s : Endpoint I M) (is : InstallSnapshot I) : Prop :=
  ∃ blob, s.stable.snapshot = some (is.snapshot, blob) ∧ is.totalLen = blob.length ∧
    (∃ k, is.data = (blob.drop is.offset).take k) ∧ is.offset ≤ is.totalLen ∧ (is.data = [] → is.offset = is.totalLen)

/-- The message keeps to the budgets of the node that enqueues it. -/
def Packed (s : Endpoint I M) : Message I → Prop
  | .appendEntries ae => ae.leader = s.config.id ∧ (∀ e ∈ ae.entries, e ∈ s.log.visible.entries) ∧
      (ae.entries.length ≤ 1 ∨ (ae.entries.map s.entryFrameCost).sum ≤ appendFrameEntryBudget)
  | .installSnapshot is => is.leader = s.config.id ∧ is.term = s.term ∧ is.data.length ≤ maxSnapshotChunkBytes ∧
      0 < s.chunkFrameBudget is.snapshot is.offset is.totalLen ∧
      is.data.length ≤ s.chunkFrameBudget is.snapshot is.offset is.totalLen ∧ s.Sliced is
  | _ => True

omit [LinearOrder I] in
theorem Packed.of_same {m : Message I} (h : s'.Packed m) (config : s'.config = s.config) (term : s'.term = s.term)
    (log : s'.log = s.log) (stable : s'.stable = s.stable) : s.Packed m := by
  cases m with
  | appendEntries =>
    obtain ⟨leader, held, fits⟩ := h
    refine ⟨config ▸ leader, log ▸ held, ?_⟩
    unfold entryFrameCost at fits ⊢
    rwa [config] at fits
  | installSnapshot =>
    simp only [Packed, Sliced, chunkFrameBudget, config, term, stable] at h ⊢
    exact h
  | _ => trivial

/-- What is enqueued keeps to the budgets. -/
structure Loads (s s' : Endpoint I M) : Prop where
  config : s'.config = s.config
  out : ∀ o ∈ s'.outgoing, bulk o.message = true → o ∈ s.outgoing ∨ s.Packed o.message

namespace Loads

omit [LinearOrder I] in
theorem of_same (config : s'.config = s.config) (out : s'.outgoing = s.outgoing) : Loads s s' :=
  ⟨config, fun _ ho _ => .inl (out ▸ ho)⟩

omit [LinearOrder I] in
theorem of_fewer (config : s'.config = s.config) (out : ∀ o ∈ s'.outgoing, o ∈ s.outgoing) : Loads s s' :=
  ⟨config, fun o ho _ => .inl (out o ho)⟩

omit [LinearOrder I] in
theorem refl (s : Endpoint I M) : Loads s s := of_same rfl rfl

omit [LinearOrder I] in
theorem of_reads (s : Endpoint I M) (reads : Reads I) : Loads s { s with reads := reads } := of_same rfl rfl

omit [LinearOrder I] in
theorem of_send {t : Endpoint I M} {dest : I} {m : Message I} (h : Loads s t)
    (packed : bulk m = true → s.Packed m) : Loads s (t.send dest m) := by
  rw [send_eq]
  refine ⟨h.config, fun o ho heavy => ?_⟩
  rcases List.mem_append.mp ho with ho | ho
  · exact h.out o ho heavy
  split at ho
  · exact absurd ho List.not_mem_nil
  · obtain rfl := List.mem_singleton.mp ho
    exact .inr (packed heavy)

omit [LinearOrder I] in
theorem trans (h : Loads s s') (sends : Sends s s') (k : Loads s' s'') : Loads s s'' := by
  refine ⟨k.config.trans h.config, fun o ho heavy => ?_⟩
  rcases k.out o ho heavy with ho | packed
  · exact h.out o ho heavy
  · exact .inr (packed.of_same sends.config sends.term sends.log sends.stable)

omit [LinearOrder I] in
theorem foldl {α : Type} {f : Endpoint I M → α → Endpoint I M} (loads : ∀ s a, Loads s (f s a))
    (sends : ∀ s a, Sends s (f s a)) (l : List α) (s : Endpoint I M) : Loads s (l.foldl f s) := by
  induction l generalizing s with
  | nil => exact refl s
  | cons a l ih => exact (loads s a).trans (sends s a) (ih _)

end Loads

/-! ## The farewells -/

omit [LinearOrder I] in
theorem loads_sendFarewell (s : Endpoint I M) (peer : I) (matched idx : Index) :
    Loads s (s.sendFarewell peer matched idx) := by
  have out := sendFarewell_outcome s peer matched idx
  generalize s.sendFarewell peer matched idx = t at out ⊢
  cases out with
  | still => exact .refl s
  | dies => exact .of_same rfl rfl
  | append leader read fits =>
    refine .of_send (.refl _) fun _ => ⟨leader, fun e he => ?_, .inr fits⟩
    exact List.mem_of_mem_drop ((entries_ready read).subset he)
  | heartbeat => exact .of_send (.refl _) fun heavy => absurd heavy (by simp [bulk])

theorem loads_captureFarewells (idx : Index) (removed : List (I × Index)) (s : Endpoint I M) :
    Loads s (captureFarewells idx removed s) := by
  have both : Loads s (captureFarewells idx removed s) ∧ Sends s (captureFarewells idx removed s) :=
    captureFarewells_induct (R := fun s t => Loads s t ∧ Sends s t) (fun s => ⟨.refl s, .refl s⟩)
      (fun h k => ⟨h.1.trans h.2 k.1, h.2.trans k.2⟩)
      (fun s peer matched idx => ⟨loads_sendFarewell s peer matched idx, .of_sendFarewell s peer matched idx⟩)
      (fun s _ => ⟨.of_same rfl rfl, { Sends.refl s with }⟩) idx removed s
  exact both.1

theorem loads_applyConfChange (s : Endpoint I M) (idx : Index) (cc : ConfChangeV2 I) :
    Loads s (s.applyConfChange idx cc) := by
  unfold applyConfChange
  split
  · exact .of_same rfl rfl
  next tracker changed =>
  extract_lets s₁ s₂ s₃ s₄
  have first : Loads s s₁ := by
    unfold s₁
    split
    · exact loads_captureFarewells idx _ s
    · exact .refl s
  clear_value s₁
  split
  · exact first
  have later : s₄.config = s₁.config ∧ s₄.outgoing = s₁.outgoing := by
    obtain ⟨config, -, out, -⟩ := stepDownIfRemoved_same s₃
    exact ⟨config, out⟩
  clear_value s₄
  have after : Loads s s₄ := ⟨later.1.trans first.config, fun o ho => first.out o (later.2 ▸ ho)⟩
  split
  · exact ⟨after.config, after.out⟩
  · exact after

theorem loads_applyEntry (s : Endpoint I M) (e : Entry I) : Loads s (s.applyEntry e) := by
  have out := applyEntry_outcome s e
  generalize s.applyEntry e = t at out ⊢
  cases out with
  | refused => exact loads_applyConfChange s _ _
  | @changed cc =>
    have changed := loads_applyConfChange s e.index cc
    exact ⟨changed.config, changed.out⟩
  | _ => exact .of_same rfl rfl

/-! ## One effect -/

omit [LinearOrder I] in
theorem loads_emitReadState (s : Endpoint I M) (index : Index) (context : Bytes) :
    Loads s (s.emitReadState index context) := by
  unfold emitReadState
  split <;> exact .of_same rfl rfl

omit [LinearOrder I] in
theorem loads_emitOrReplyRead (s : Endpoint I M) (index : Index) (context : Bytes) (reqFrom : Option I) :
    Loads s (s.emitOrReplyRead index context reqFrom) := by
  unfold emitOrReplyRead
  split
  · exact loads_emitReadState s index context
  · exact .of_send (.refl s) fun heavy => absurd heavy (by simp [bulk])

omit [LinearOrder I] in
theorem Loads.of_acks (h : Acks s s') : Loads s s' := by
  cases h with
  | hold => exact .of_same rfl rfl
  | append | snapshot => exact .of_send (.of_same rfl rfl) fun heavy => by cases heavy

theorem Step.loads (st : Step mono now inp s s') : Loads s s' := by
  have light : ∀ {t : Endpoint I M} {dest : I} {m : Message I}, Loads s t → bulk m = false → Loads s (t.send dest m) :=
    fun h small => h.of_send fun heavy => absurd heavy (by simp [small])
  cases st with
  | idle h => exact .of_same (congrArg Core.config h) (congrArg Core.outgoing h)
  | junk dead config log stable id outgoing => exact .of_fewer config fun _ ho => outgoing.subset ho
  | adopt | follow | preCampaign | stepDown | retire =>
    simp only [adoptTerm, followLeader, startPreCampaign, stepDownToFollower]
    rw [setLeader_eq]
    exact .of_same rfl rfl
  | campaign live mint | cast live mint | write live mint | appendOwn live mint | beginInstall live mint
  | capture live mint =>
    simp only [startCampaign_eq live mint, castVote_eq live mint, submitHardState_eq live mint,
      appendOwn_eq live mint, submitSnapshot_eq live mint, Endpoint.capture]
    exact .of_same rfl rfl
  | lead =>
    unfold resetLeader
    rw [setLeader_eq]
    simp only
    split <;> exact .of_same rfl rfl
  | rewrite live mint =>
    rw [mintWrite_eq live mint]
    exact .of_same rfl rfl
  | @send dest m live ok =>
    refine .of_send (.refl s) fun heavy => ?_
    cases m with
    | appendEntries =>
      obtain ⟨-, -, leader, -, -, -, run, fits⟩ := ok
      exact ⟨leader, fun e he => List.mem_of_mem_drop (run.subset he), fits⟩
    | installSnapshot =>
      obtain ⟨-, term, leader, blob, slot, total, run, start, ends, chunk, room, within⟩ := ok
      exact ⟨leader, term, chunk, room, within, blob, slot, total, run, start, ends⟩
    | _ => exact absurd heavy (by simp [bulk])
  | overwrite live mint =>
    rw [overwrite_eq live mint]
    exact .of_fewer rfl fun _ h => List.mem_of_mem_filter h
  | ackAppend | releaseAck | ackSnapshot | ackShortcut | flushShortcut | flushSnapshotGate | flushAppendGate =>
    exact .of_acks (by simp)
  | appended =>
    unfold noteAppended
    split <;> exact .of_same rfl rfl
  | apply => exact loads_applyEntry s _
  | install =>
    exact .of_fewer rfl fun _ h => List.mem_of_mem_filter h
  | receive live msg term chunk =>
    obtain ⟨n, stable, hc, hst⟩ := chunk
    exact .of_same (congrArg Core.config hst) (congrArg Core.outgoing hst)
  | farewell => exact loads_sendFarewell s _ _ _
  | confirm =>
    exact (Loads.of_reads s _).trans (Sends.of_reads s _)
      (.foldl (fun s (st : ReadIndexStatus I) => loads_emitOrReplyRead s st.index st.context st.reqFrom)
        (fun s st => Sends.of_emitOrReplyRead s st.index st.context st.reqFrom) _ _)
  | leaseRead =>
    exact (Loads.of_reads s _).trans (Sends.of_reads s _) (loads_emitOrReplyRead _ _ _ _)
  | forward => exact light (.of_same rfl rfl) rfl
  | answered =>
    unfold onReadIndexResponse
    split
    · exact .refl s
    split
    · exact .refl s
    simp only
    split
    · exact .of_same rfl rfl
    · exact (Loads.of_reads s _).trans (Sends.of_reads s _) (loads_emitReadState _ _ _)
  | renewLease =>
    unfold Endpoint.renewLease
    simp only
    split <;> exact .of_same rfl rfl
  | _ => exact .of_same rfl rfl

/-! ## The frames -/

/-- Every entry of the log passed the size check of the proposals. -/
def Checked (s : Endpoint I M) : Prop := ∀ e ∈ s.log.visible.entries, s.entryFrameCost e ≤ appendFrameEntryBudget

theorem Packed.fits {codec : Wire.Codec I} {m : Message I} (h : s.Packed m)
    (sizes : s.config.wire = codec.sizes s.config.id)
    (id : (codec.encodeId s.config.id).length ≤ Wire.maxIdLen) (checked : s.Checked) {group : Bytes}
    (short : group.length ≤ Transport.maxGroupIdLen) (generation : UInt64) : codec.Fits group generation m := by
  have cost : s.entryFrameCost = fun e => (codec.data e.kind).length + 128 := by
    unfold entryFrameCost
    rw [sizes]
    rfl
  cases m with
  | appendEntries ae =>
    obtain ⟨leader, held, fits⟩ := h
    refine Wire.append_fits codec short generation (leader ▸ id) ?_
    rw [← cost]
    rcases fits with few | fits
    · -- one entry goes whatever it costs, and it was checked when it was proposed
      match entries : ae.entries with
      | [] => exact Nat.zero_le _
      | [e] =>
        have one := checked e (held e (by simp [entries]))
        simpa using one
      | e :: e' :: rest => simp [entries] at few
    · exact fits
  | installSnapshot =>
    obtain ⟨leader, term, chunk, room, within, -⟩ := h
    unfold chunkFrameBudget at room within
    rw [sizes, ← term] at room within
    simp only [Wire.Codec.sizes] at room within
    rw [← leader] at room within
    refine Wire.chunk_fits_frame codec short generation chunk ?_
    simp only [Wire.Codec.installSnapshot]
    omega
  | _ => trivial

theorem Does.loads {brings : Input I → Prop} (hd : Does mono now brings s s') : s'.config = s.config ∧
    ∀ o ∈ s'.outgoing, bulk o.message = true → o ∈ s.outgoing ∨
      ∃ u, Does mono now brings s u ∧ u.config = s.config ∧ u.Packed o.message := by
  induction hd with
  | refl => exact ⟨rfl, fun o ho _ => .inl ho⟩
  | @tail u s' hd st ih =>
    obtain ⟨inp, -, st⟩ := st
    have loads := st.loads
    refine ⟨loads.config.trans ih.1, fun o ho heavy => ?_⟩
    rcases loads.out o ho heavy with ho | packed
    · exact ih.2 o ho heavy
    · exact .inr ⟨u, hd, ih.1, packed⟩

/-! ## What is in the log -/

/-- Where an entry of the log comes from. -/
inductive Origin (inp : Input I) (s : Endpoint I M) (e : Entry I) : Prop where
  | held (held : e ∈ s.log.visible.entries)
  | own (sized : s.Sized e.kind)
  | sent {sender : I} {ae : AppendEntries I} (msg : inp = .message sender (.appendEntries ae)) (mem : e ∈ ae.entries)

theorem Step.origin (st : Step mono now inp s s') {e : Entry I} (mem : e ∈ s'.log.visible.entries) :
    Origin inp s e := by
  have same : ∀ {t : Endpoint I M}, t.log.visible = s.log.visible → e ∈ t.log.visible.entries → Origin inp s e :=
    fun h mem => .held (h ▸ mem)
  have acked : ∀ {t : Endpoint I M}, Acks s t → e ∈ t.log.visible.entries → Origin inp s e := fun h => by
    obtain ⟨l, a, b, c, out, rfl⟩ := h.eq
    exact fun mem => .held mem
  have sent : ∀ {t : Endpoint I M}, Sends s t → e ∈ t.log.visible.entries → Origin inp s e := fun h =>
    same (by rw [h.log])
  cases st with
  | idle h => exact same (by rw [show s'.log = s.log from congrArg Core.log h]) mem
  | junk dead config log => exact same (by rw [log]) mem
  | adopt | follow | preCampaign | stepDown | retire =>
    simp only [adoptTerm, followLeader, startPreCampaign, stepDownToFollower] at mem
    rw [setLeader_eq] at mem
    exact .held mem
  | campaign live mint | cast live mint | write live mint | rewrite live mint | beginInstall live mint
  | capture live mint =>
    simp only [startCampaign_eq live mint, castVote_eq live mint, submitHardState_eq live mint, mintWrite_eq live mint,
      submitSnapshot_eq live mint, Endpoint.capture] at mem
    exact .held mem
  | lead =>
    unfold resetLeader at mem
    rw [setLeader_eq] at mem
    simp only at mem
    split at mem <;> exact .held mem
  | send =>
    rw [send_eq] at mem
    exact .held mem
  | @appendOwn index kind live mint role index_eq conf sized =>
    rw [appendOwn_eq live mint] at mem
    have mem : e ∈ (s.log.submitAppend s.nextOpId [⟨s.term, index, kind⟩]).visible.entries := mem
    rw [LogStore.submitAppend_visible] at mem
    rcases LogImage.mem_putAll _ mem with mem | mem
    · exact .held mem
    · rw [List.mem_singleton.mp mem]
      exact .own sized
  | @overwrite sender ae first rest live mint msg term role conflict =>
    rw [overwrite_eq live mint] at mem
    have mem : e ∈ (s.log.submitAppend s.nextOpId (first :: rest)).visible.entries := mem
    rw [LogStore.submitAppend_visible] at mem
    obtain ⟨pre, split, -⟩ := conflict.split
    rcases LogImage.mem_putAll _ mem with mem | mem
    · exact .held mem
    · refine .sent msg ?_
      rw [split]
      exact List.mem_append_right _ mem
  | ackAppend | releaseAck | ackSnapshot | ackShortcut | flushShortcut | flushSnapshotGate | flushAppendGate =>
    exact acked (by simp) mem
  | appended =>
    unfold noteAppended at mem
    split at mem <;> exact .held mem
  | apply live running entry =>
    rw [(Keeps.of_applyEntry live entry).log] at mem
    exact .held mem
  | @compacted id m =>
    unfold finishCompact LogStore.compact at mem
    split at mem
    · have visible : ({ s.log with staged := s.log.staged ++ [(s.log.visible.compact m.lastIndex,
          some (.compacted m.lastIndex))] } : LogStore I).visible = s.log.visible.compact m.lastIndex :=
        Fifo.newest_concat
      exact .held (List.mem_of_mem_drop (congrArg LogImage.entries visible ▸ mem))
    · exact .held mem
  | @install id m snap leader fsm =>
    have empty : (s.installBase fsm m).log.visible.entries = [] := congrArg LogImage.entries Fifo.newest_concat
    rw [empty] at mem
    cases mem
  | receive live msg term chunk =>
    obtain ⟨n, stable, hc, hst⟩ := chunk
    exact same (by rw [show s'.log = s.log from congrArg Core.log hst]) mem
  | farewell | confirm | leaseRead | forward | answered | renewLease =>
    exact sent (by simp) mem
  | _ => exact .held mem

variable {codec : Wire.Codec I}

/-- Peers accept the node's id, and an empty change fits a frame. -/
structure Fair (codec : Wire.Codec I) (s : Endpoint I M) : Prop where
  sizes : s.config.wire = codec.sizes s.config.id
  id : (codec.encodeId s.config.id).length ≤ Wire.maxIdLen
  leave : (codec.encodeConfChange (some ⟨.auto, []⟩)).length + 128 ≤ appendFrameEntryBudget

theorem Sized.checked (fair : s.Fair codec) {kind : EntryKind I} (h : s.Sized kind) :
    s.config.wire.dataLen kind + 128 ≤ appendFrameEntryBudget := by
  rcases h with rfl | rfl | h
  · rw [fair.sizes]
    exact (by decide : 0 + 128 ≤ appendFrameEntryBudget)
  · rw [fair.sizes]
    exact fair.leave
  · exact h

theorem Step.checked (st : Step mono now inp s s') (fair : s.Fair codec) (brought : inp.Checked s.config.wire)
    (h : s.Checked) : s'.Checked := by
  intro e mem
  unfold entryFrameCost
  rw [st.loads.config]
  cases st.origin mem with
  | held held => exact h e held
  | own sized => exact sized.checked fair
  | sent msg mem =>
    subst msg
    exact brought e mem

/-- The bulk messages of `s'` that `s` had not enqueued fit. -/
def Framed (codec : Wire.Codec I) (s s' : Endpoint I M) : Prop :=
  ∀ o ∈ s'.outgoing, o ∈ s.outgoing ∨ ∀ (group : Bytes) (generation : UInt64),
    group.length ≤ Transport.maxGroupIdLen → codec.Fits group generation o.message

theorem fits_of_light {m : Message I} (light : bulk m ≠ true) (group : Bytes) (generation : UInt64) :
    codec.Fits group generation m := by
  cases m with
  | appendEntries => exact absurd rfl light
  | installSnapshot => exact absurd rfl light
  | _ => trivial

theorem Step.framed (st : Step mono now inp s s') (fair : s.Fair codec) (h : s.Checked) : Framed codec s s' := by
  intro o ho
  by_cases heavy : bulk o.message = true
  · refine (st.loads.out o ho heavy).imp_right fun packed group generation short => ?_
    exact packed.fits fair.sizes fair.id h short generation
  · exact .inr fun group generation _ => fits_of_light heavy group generation

theorem Framed.trans (h : Framed codec s s') (k : Framed codec s' s'') : Framed codec s s'' := by
  intro o ho
  rcases k o ho with ho | fits
  · exact h o ho
  · exact .inr fits

theorem Does.framed {brings : Input I → Prop} (hd : Does mono now brings s s')
    (brought : ∀ inp, brings inp → inp.Checked s.config.wire) (fair : s.Fair codec) (h : s.Checked) :
    s'.config = s.config ∧ s'.Checked ∧ Framed codec s s' := by
  induction hd with
  | refl => exact ⟨rfl, h, fun o ho => .inl ho⟩
  | @tail u s' hd st ih =>
    obtain ⟨inp, hi, st⟩ := st
    obtain ⟨config, checked, framed⟩ := ih
    have fair : u.Fair codec := ⟨config ▸ fair.sizes, config ▸ fair.id, fair.leave⟩
    exact ⟨st.loads.config.trans config, st.checked fair (config ▸ brought inp hi) checked,
      framed.trans (st.framed fair checked)⟩

/-- What is neither public nor a crash enqueues nothing. -/
theorem exec_quiet {c : Call I M} (hp : ¬ c.isPublic = true) (stays : (Move.call c).crashes = false) :
    (s.exec c).config = s.config ∧ ∀ o ∈ (s.exec c).outgoing, o ∈ s.outgoing := by
  cases c with
  | pollMessage =>
    obtain ⟨out, he, fewer⟩ := pollMessage_outgoing (s := s)
    have he : s.exec .pollMessage = _ := he
    rw [he]
    exact ⟨rfl, fun _ ho => fewer.subset ho⟩
  | pollEvent =>
    obtain ⟨events, he⟩ := pollEvent_events (s := s)
    have he : s.exec .pollEvent = _ := he
    rw [he]
    exact ⟨rfl, fun _ => id⟩
  | crash => exact absurd stays (by simp [Move.crashes])
  | _ =>
    first
    | exact ⟨rfl, fun _ => id⟩
    | exact absurd rfl hp

/-- A call that is not a crash keeps the log checked and enqueues what fits. -/
theorem exec_framed {c : Call I M} (inv : NodeInv False s) (sub : s.Submitted) (stays : (Move.call c).crashes = false)
    (brought : c.Checked s.config.wire) (fair : s.Fair codec) (h : s.Checked) :
    (s.exec c).config = s.config ∧ (s.exec c).Checked ∧ Framed codec s (s.exec c) := by
  by_cases hp : c.isPublic = true
  · exact Does.framed (does_exec hp inv sub False.elim).1 brought fair h
  obtain ⟨-, -, -, -, visible, -⟩ := exec_of_not_public (s := s) hp stays
  obtain ⟨config, out⟩ := exec_quiet (s := s) hp stays
  refine ⟨config, fun e mem => ?_, fun o ho => .inl (out o ho)⟩
  unfold entryFrameCost
  rw [config]
  exact h e (visible ▸ mem)

theorem execs_framed (calls : List (Call I M)) (inv : NodeInv False s) (sub : s.Submitted)
    (calm : ∀ c ∈ calls, (Move.call c).crashes = false ∧ c.Checked s.config.wire) (fair : s.Fair codec)
    (h : s.Checked) : (s.execs calls).Checked ∧ Framed codec s (s.execs calls) := by
  induction calls generalizing s with
  | nil => exact ⟨h, fun o ho => .inl ho⟩
  | cons c calls ih =>
    obtain ⟨stays, brought⟩ := calm c List.mem_cons_self
    obtain ⟨config, checked, framed⟩ := exec_framed inv sub stays brought fair h
    obtain ⟨inv', sub'⟩ := inv.exec sub c False.elim
    obtain ⟨last, rest⟩ := ih inv' sub' (fun c' hc => config ▸ calm c' (List.mem_cons_of_mem c hc))
      ⟨config ▸ fair.sizes, config ▸ fair.id, fair.leave⟩ checked
    exact ⟨last, framed.trans rest⟩

/-- Everything a leader sends fits one frame, if its id is no longer than peers accept. In any
sequence of calls from any state of a node whose log holds only entries that passed the size
check, with only such entries in the appends it is sent, every append and every snapshot it
enqueues fits, and the log goes on to hold only such entries; and a snapshot that is sized
whole before it is offered fits as well. -/
theorem leader_frames_fit (codec : Wire.Codec I) (s : Endpoint I M) (inv : NodeInv False s) (sub : s.Submitted)
    (fair : s.Fair codec) (checked : s.Checked) :
    (∀ calls : List (Call I M), (∀ c ∈ calls, (Move.call c).crashes = false ∧ c.Checked s.config.wire) →
      (s.execs calls).Checked ∧ ∀ o ∈ (s.execs calls).outgoing, o ∈ s.outgoing ∨
        ∀ (group : Bytes) (generation : UInt64), group.length ≤ Transport.maxGroupIdLen →
          codec.Fits group generation o.message) ∧
    ∀ m : InstallSnapshot I, Wire.installSnapshotEncodedLen codec.encodeId m.term m.leader (codec.snapshotMeta m.snapshot)
        m.offset m.totalLen m.data.length + groupHeaderReserve ≤ maxFrameBytes →
      ∀ (group : Bytes) (generation : UInt64), group.length ≤ Transport.maxGroupIdLen →
        codec.Fits group generation (.installSnapshot m) :=
  ⟨fun calls calm => execs_framed calls inv sub calm fair checked,
    fun _ sized _ generation short => Wire.offer_fits codec short generation sized⟩

end Endpoint

namespace Tape

/-- Ids of as many bytes as asked for. -/
def codec (idLen : Nat) : Wire.Codec Nat where
  encodeId := fun _ => List.replicate idLen 0
  encodeConfChange := fun _ => []
  encodeMerge := []
  timestamp := fun _ => 0
  leaseWindow := fun _ => 0
  wallTimestamp := fun _ => 0
  snapshotMeta := fun m => ⟨m, 0, 0, 0, none, 0, none⟩

/-- A leader of term 1 whose log is one entry with `data`. -/
def leading (idLen : Nat) (data : Bytes) : Endpoint Nat tape :=
  { node { config {0, 1, 2} 0 with wire := (codec idLen).sizes 0 } with
    role := .leader
    term := 1
    log := { LogStore.empty with durable := ⟨0, 0, [⟨1, 1, .normal data⟩]⟩ } }

/-- Its append to a new peer. -/
def append (data : Bytes) : Outgoing Nat := ⟨1, .appendEntries ⟨1, 0, 0, 0, [⟨1, 1, .normal data⟩], 0⟩⟩

theorem leading_read (idLen : Nat) (data : Bytes) :
    (leading idLen data).readAppend 1 = .ready [⟨1, 1, .normal data⟩] := by
  have last : (leading idLen data).log.lastIndex = 1 := rfl
  have visible : (leading idLen data).log.visible = ⟨0, 0, [⟨1, 1, .normal data⟩]⟩ := rfl
  have stop : min (next 1) (min (1 + Endpoint.maxReadBatchEntries) u64Max) = 2 := by decide
  have within : ¬ ((1 : Index) ≤ 0 ∨ (1 : Index) < 1 ∨ 2 ≤ 1) := by decide
  have answers : (leading idLen data).log.readError 1 = false ∧ (leading idLen data).log.cold 1 = false := ⟨rfl, rfl⟩
  have short : ([⟨1, 1, .normal data⟩] : List (Entry Nat)).length ≤ max (leading idLen data).log.readCap 1 :=
    le_max_right _ _
  have whole : (([⟨1, 1, .normal data⟩] : List (Entry Nat)).drop (1 - 0 - 1)).take (2 - 1) =
      [⟨1, 1, .normal data⟩] := rfl
  unfold Endpoint.readAppend
  simp only [last, stop]
  rw [if_pos (by decide)]
  unfold LogStore.entries
  simp only [last, visible, answers.1, answers.2, if_neg within]
  rw [whole, List.take_of_length_le short, List.takeWhile_cons]
  simp [answers.2]

theorem leading_outgoing (idLen : Nat) (data : Bytes) :
    ((leading idLen data).maybeSendAppend 11 1).outgoing = [append data] := by
  have live : (leading idLen data).poisoned = false := rfl
  have held : (leading idLen data).tracker.progress 1 = some (Progress.new 1 8 0) := rfl
  have free : (Progress.new 1 8 0).isPaused = false := rfl
  have next : (Progress.new 1 8 0).nextIndex = 1 := rfl
  have first : (leading idLen data).log.firstIndex = 1 := rfl
  have term : (leading idLen data).prevLogTerm (1 - 1) = (some 0, leading idLen data) := rfl
  have cap : (leading idLen data).capEntries [⟨1, 1, .normal data⟩] = [⟨1, 1, .normal data⟩] := by
    simp only [Endpoint.capEntries, List.take_nil]
  unfold Endpoint.maybeSendAppend
  simp only [live, held, free, next, first, term, leading_read, cap, Bool.false_eq_true, if_false, lt_irrefl]
  unfold Endpoint.sendAppend
  simp only [Endpoint.send_eq, live, Bool.false_eq_true, if_false]
  rfl

theorem leading_checked (idLen : Nat) {data : Bytes} (fits : data.length + 128 ≤ Endpoint.appendFrameEntryBudget) :
    (leading idLen data).Checked := by
  intro e he
  obtain rfl := List.mem_singleton.mp (show e ∈ [(⟨1, 1, .normal data⟩ : Entry Nat)] from he)
  exact fits

/-- The id of the leader is longer than the reserve allows for, and the append of an entry of
the largest size does not fit a frame. -/
theorem long_id_overflows : ∃ (codec : Wire.Codec Nat) (s : Endpoint Nat tape), s.role = .leader ∧ s.poisoned = false ∧
    s.config.wire = codec.sizes s.config.id ∧ s.Checked ∧ ∃ o ∈ (s.maybeSendAppend 11 1).outgoing, o ∉ s.outgoing ∧
      ∀ (group : Bytes) (generation : UInt64), ¬ codec.Fits group generation o.message := by
  obtain ⟨data, size⟩ : ∃ data : Bytes, data.length = Endpoint.appendFrameEntryBudget - 128 :=
    ⟨List.replicate _ 0, List.length_replicate⟩
  have budget : Endpoint.appendFrameEntryBudget = 67106548 := by decide
  refine ⟨codec 4096, leading 4096 data, rfl, rfl, rfl, leading_checked 4096 (by omega), append data, ?_, ?_, ?_⟩
  · rw [leading_outgoing]
    exact List.mem_singleton_self _
  · exact List.not_mem_nil
  · intro group generation fits
    have long : 4096 + data.length ≤ Endpoint.maxFrameBytes := by
      have held := Wire.le_length_append (codec 4096) generation group ⟨1, 0, 0, 0, [⟨1, 1, .normal data⟩], 0⟩
      have id : ((codec 4096).encodeId 0).length = 4096 := List.length_replicate
      simp only [id, List.map_cons, List.map_nil, List.sum_cons, List.sum_nil, Nat.add_zero] at held
      exact held.trans fits
    have frame : Endpoint.maxFrameBytes = 67108864 := by decide
    omega

/-- Node 0 is elected, the first peer acknowledges its first entry, and it proposes another. -/
def proposed : List (Call Nat tape) :=
  [.timeout 10, .syncStable, .surfaceStable 0, .storage 10, .message 10 1 (.voteResponse ⟨1, 1, false, false⟩),
    .message 10 1 (.appendResponse ⟨1, 1, false, 0, 0, 1, 0⟩), .propose [7], .flush 11]

/-- The entries of an append. -/
def entriesOf (o : Outgoing Nat) : List (Entry Nat) :=
  match o.message with
  | .appendEntries ae => ae.entries
  | _ => []

/-- With an id of the longest size that peers accept it fits, for every group. -/
theorem leader_frames_fit_longest :
    ∃ s : Endpoint Nat tape, s = (node { config {0, 1, 2} 0 with wire := (codec 1024).sizes 0 }).execs proposed ∧
      s.role = .leader ∧ s.Checked ∧ ∃ o ∈ s.outgoing, entriesOf o = [⟨1, 2, .normal [7]⟩] ∧
        ∀ (group : Bytes) (generation : UInt64), group.length ≤ Transport.maxGroupIdLen →
          (codec 1024).Fits group generation o.message := by
  have steady := Endpoint.steadfast_new (M := tape) { config {0, 1, 2} 0 with wire := (codec 1024).sizes 0 } 0 fun _ => 0
  obtain ⟨runs, -⟩ := Endpoint.leader_frames_fit (codec 1024) _ steady.inv steady.submitted
    ⟨rfl, le_of_eq List.length_replicate, by decide⟩ (fun _ mem => absurd mem List.not_mem_nil)
  have calm : ∀ c ∈ proposed, (Move.call c).crashes = false ∧ Call.Checked ((codec 1024).sizes 0) c := by
    simp [proposed, Move.crashes, Call.Checked, Call.Brings, Input.Checked]
  obtain ⟨checked, fits⟩ := runs proposed calm
  have sent : ((node { config {0, 1, 2} 0 with wire := (codec 1024).sizes 0 }).execs proposed).outgoing.any
      (fun o => entriesOf o = [⟨1, 2, .normal [7]⟩]) = true := by decide +kernel
  obtain ⟨o, mem, entries⟩ := List.any_eq_true.mp sent
  refine ⟨_, rfl, by decide +kernel, checked, o, mem, of_decide_eq_true entries, ?_⟩
  exact (fits o mem).resolve_left List.not_mem_nil

end Tape

end Sailing
