import Sailing.Step.Keeps

/-!
# Sending, as steps

Everything a leader sends goes out in steps that leave the rest of the state
alone: `Sent` pairs the steps of a function with its frame, so that the
functions compose without being unfolded again. `Ran` is the same for the
weaker frame of applying.
-/

namespace Sailing.Endpoint

variable {I : Type} [LinearOrder I] {M : StateMachine}
variable {mono : Prop} {now : Instant} {inp : Input I} {s s' s'' : Endpoint I M}

/-- What a dead node does is one step that changes nothing that matters. -/
theorem Keeps.junk (h : Keeps s s') (dead : s.poisoned = true) : Step mono now inp s s' := by
  refine .junk (h.poisoned dead) h.config h.log h.stable h.nextOpId ?_ (fun hr => ⟨?_, h.term⟩)
    (h.frozen dead).1 fun hp => (h.frozen hp).2
  · rw [h.quiet dead]
  · rcases h.role with hk | hk
    · rw [← hk, hr]
    · rw [hk] at hr
      cases hr

omit [LinearOrder I] in
theorem Sends.of_core (h : s'.core = s.core) : Sends s s' where
  config := congrArg Core.config h
  fsm := congrArg Core.fsm h
  role := congrArg Core.role h
  term := congrArg Core.term h
  votedFor := congrArg Core.votedFor h
  leader := congrArg Core.leader h
  commit := congrArg Core.commit h
  applied := congrArg Core.applied h
  passed := congrArg Core.passed h
  votes := congrArg Core.votes h
  electionDeadline := congrArg Core.electionDeadline h
  nextOpId := congrArg Core.nextOpId h
  pendingLog := congrArg Core.pendingLog h
  pendingStable := congrArg Core.pendingStable h
  pendingApply := congrArg Core.pendingApply h
  durable := congrArg Core.durable h
  log := congrArg Core.log h
  stable := congrArg Core.stable h
  snapshotRecv := congrArg Core.snapshotRecv h
  pendingInstall := congrArg Core.pendingInstall h
  pendingCompact := congrArg Core.pendingCompact h
  conf := congrArg Core.conf h
  acks := congrArg (fun c => c.outgoing.filterMap fun o => ackOf o.message) h
  poisoned hp := (congrArg (fun c => c.poisonReason.isSome) h).trans hp
  quiet _ := congrArg Core.outgoing h
  reason _ := congrArg Core.poisonReason h
  sent := ⟨[], (congrArg Core.outgoing h).trans (List.append_nil _).symm, by simp⟩

/-! ## Steps with their frame -/

structure Sent (mono : Prop) (now : Instant) (inp : Input I) (s s' : Endpoint I M) : Prop where
  steps : Steps mono now inp s s'
  sends : Sends s s'

structure Ran (mono : Prop) (now : Instant) (inp : Input I) (s s' : Endpoint I M) : Prop where
  steps : Steps mono now inp s s'
  keeps : Keeps s s'

theorem Sent.ran (h : Sent mono now inp s s') : Ran mono now inp s s' := ⟨h.steps, h.sends.keeps⟩

namespace Ran

theorem refl (s : Endpoint I M) : Ran mono now inp s s := ⟨.refl, Keeps.refl s⟩

theorem trans (h : Ran mono now inp s s') (k : Ran mono now inp s' s'') : Ran mono now inp s s'' :=
  ⟨h.steps.trans k.steps, h.keeps.trans k.keeps⟩

theorem of_live (k : Keeps s s') (h : s.poisoned = false → Steps mono now inp s s') : Ran mono now inp s s' := by
  refine ⟨?_, k⟩
  by_cases live : s.poisoned = false
  · exact h live
  · exact .single (k.junk (by simpa using live))

end Ran

namespace Sent

theorem refl (s : Endpoint I M) : Sent mono now inp s s := ⟨.refl, Sends.refl s⟩

theorem trans (h : Sent mono now inp s s') (k : Sent mono now inp s' s'') : Sent mono now inp s s'' :=
  ⟨h.steps.trans k.steps, h.sends.trans k.sends⟩

theorem of_live (k : Sends s s') (h : s.poisoned = false → Steps mono now inp s s') : Sent mono now inp s s' :=
  ⟨(Ran.of_live k.keeps h).steps, k⟩

theorem idle (h : s'.core = s.core)
    (flow : s.tracker.Moves False inp.Rewinds s.log.visible.Contiguous s.stable.visible.slot s'.tracker) :
    Sent mono now inp s s' :=
  ⟨.single (.idle h flow), Sends.of_core h⟩

theorem poison (s : Endpoint I M) (reason : PoisonReason) : Sent mono now inp s (s.poison reason) :=
  ⟨.single (.die reason), Sends.of_poison s reason⟩

theorem send {dest : I} {m : Message I} (hm : plain m = true)
    (ok : s.poisoned = false → Sendable now inp s dest m) : Sent mono now inp s (s.send dest m) :=
  of_live (Sends.of_send s dest hm) fun live => .single (.send live (ok live))

theorem leads (h : Sent mono now inp s s') : s.Leads → s'.Leads := h.sends.keeps.leads

theorem of_foldl {α : Type} {f : Endpoint I M → α → Endpoint I M}
    (hf : ∀ s : Endpoint I M, s.Leads → ∀ a, Sent mono now inp s (f s a)) (l : List α)
    (lead : s.Leads) : Sent mono now inp s (l.foldl f s) := by
  induction l generalizing s with
  | nil => exact refl s
  | cons a l ih =>
    have h := hf s lead a
    exact h.trans (ih (h.leads lead))

end Sent

omit [LinearOrder I] in
/-- What may be sent does not depend on what is already queued. -/
theorem Sendable.of_outgoing {out : List (Outgoing I)} {dest : I} {m : Message I}
    (h : Sendable now inp s dest m) : Sendable now inp { s with outgoing := out } dest m := h

theorem Sent.sendAll {ms : List (Outgoing I)} (hm : ∀ o ∈ ms, plain o.message = true)
    (ok : s.poisoned = false → ∀ o ∈ ms, Sendable now inp s o.dest o.message) :
    Sent mono now inp s (s.sendAll ms) := by
  refine of_live (Sends.of_sendAll s ms hm) fun live => ?_
  replace ok := ok live
  clear hm
  simp only [Endpoint.sendAll, live, Bool.false_eq_true, if_false]
  -- one message at a time: the queue grows, what is sendable stays
  induction ms using List.reverseRecOn with
  | nil =>
    rw [List.append_nil]
  | append_singleton ms o ih =>
    refine (ih fun o ho => ok o (by simp [ho])).tail ?_
    have st : Step mono now inp { s with outgoing := s.outgoing ++ ms } _ := .send live (ok o (by simp)).of_outgoing
    rwa [send_live (s := { s with outgoing := s.outgoing ++ ms }) live, List.append_assoc] at st

/-! ## Bookkeeping of the peers -/

theorem core_modifyProgress {id : I} {f : Progress → Progress} (hf : ∀ p, (f p).matchIndex = p.matchIndex) :
    ({ s with tracker := s.tracker.modifyProgress id f } : Endpoint I M).core = s.core := by
  have h : ({ s with tracker := s.tracker.modifyProgress id f } : Endpoint I M).matchOf = s.matchOf := by
    funext x
    simp only [matchOf, Tracker.modifyProgress, Function.update_apply]
    split
    · next h =>
      rw [h]
      cases s.tracker.progress id with
      | none => rfl
      | some p => exact congrArg some (hf p)
    · rfl
  unfold core
  rw [h]
  rfl

theorem Sent.modifyProgress {id : I} {f : Progress → Progress} (hf : ∀ p, (f p).matchIndex = p.matchIndex)
    (flow : ∀ p, s.tracker.progress id = some p →
      Progress.Path inp.Rewinds s.log.visible.Contiguous s.stable.visible.slot p (f p)) :
    Sent mono now inp s { s with tracker := s.tracker.modifyProgress id f } :=
  Sent.idle (core_modifyProgress hf) (Tracker.Moves.modifyProgress flow)

@[simp] theorem matchIndex_sentEntries (p : Progress) (last : Index) (bytes : Nat) :
    (p.sentEntries last bytes).matchIndex = p.matchIndex := by
  unfold Progress.sentEntries
  split <;> rfl

@[simp] theorem matchIndex_becomeSnapshot (p : Progress) (pending : Index) (total : Nat) :
    (p.becomeSnapshot pending total).matchIndex = p.matchIndex := by
  unfold Progress.becomeSnapshot
  split <;> rfl

@[simp] theorem matchIndex_snapshotAcked (p : Progress) (offset : Nat) :
    (p.snapshotAcked offset).matchIndex = p.matchIndex := by
  unfold Progress.snapshotAcked
  split <;> rfl

@[simp] theorem matchIndex_freeInflightOnHeartbeat (p : Progress) :
    p.freeInflightOnHeartbeat.matchIndex = p.matchIndex := by
  unfold Progress.freeInflightOnHeartbeat
  split <;> rfl

@[simp] theorem matchIndex_maybeUpdate (p : Progress) (n : Index) :
    (p.maybeUpdate n).1.matchIndex = max p.matchIndex n := by
  unfold Progress.maybeUpdate
  simp only
  split
  · split <;> rfl
  · rfl

theorem Sent.setResendAfter (peer : I) (t : Option Instant) : Sent mono now inp s (s.setResendAfter peer t) :=
  Sent.idle rfl (Tracker.Moves.refl _)

theorem Sent.logTerm (i : Index) : Sent mono now inp s (s.logTerm i).2 := by
  rw [logTerm_eq]
  simp only
  split
  · exact Sent.refl s
  · exact Sent.poison s _

omit [LinearOrder I] in
theorem logTerm_some {i : Index} {t : Term} (h : s.logTerm i = (some t, s')) : s' = s ∧ s.log.visible.term i = t := by
  rw [logTerm_eq] at h
  unfold LogStore.term at h
  split at h
  · cases h
  · simp only [Option.isSome_some, if_true, Prod.mk.injEq, Option.some.injEq] at h
    exact ⟨h.2.symm, h.1⟩

omit [LinearOrder I] in
theorem logTerm_none {i : Index} (h : s.logTerm i = (none, s')) : s' = s.poison .logTerm := by
  rw [logTerm_eq] at h
  unfold LogStore.term at h
  split at h
  · simp only [Option.isSome_none, Bool.false_eq_true, if_false, Prod.mk.injEq, true_and] at h
    exact h.symm
  · cases h

/-! ## Heartbeats -/

theorem mem_heartbeats {context : Bytes} {o : Outgoing I} (ho : o ∈ s.heartbeats context) :
    ∃ pr, s.tracker.progress o.dest = some pr ∧ o.message = .heartbeat
      ⟨s.term, s.config.id, min s.commit pr.matchIndex, context, s.checkQuorumLease.leaseRound⟩ := by
  obtain ⟨peer, -, hp⟩ := List.mem_filterMap.mp ho
  obtain ⟨pr, hpr, rfl⟩ := Option.map_eq_some_iff.mp hp
  exact ⟨pr, hpr, rfl⟩

theorem Sent.broadcastHeartbeatWithCtx {context : Bytes} (lead : s.Leads)
    (hc : context = [] ∨ context ∈ s.reads.readOnly.queue) :
    Sent mono now inp s (s.broadcastHeartbeatWithCtx context) := by
  refine Sent.sendAll (fun o ho => ?_) fun _ o ho => ?_
  · obtain ⟨pr, -, hm⟩ := mem_heartbeats ho
    rw [hm]
    rfl
  · obtain ⟨pr, hpr, hm⟩ := mem_heartbeats ho
    rw [hm]
    refine ⟨lead, rfl, rfl, min_le_left _ _, .inl ⟨pr.matchIndex, ?_, min_le_right _ _, rfl, hc⟩⟩
    exact congrArg (Option.map (·.matchIndex)) hpr

omit [LinearOrder I] in
theorem lastPendingRequestCtx_mem (r : ReadOnly I) :
    r.lastPendingRequestCtx.getD [] = [] ∨ r.lastPendingRequestCtx.getD [] ∈ r.queue := by
  unfold ReadOnly.lastPendingRequestCtx
  cases h : r.queue.getLast? with
  | none => exact .inl rfl
  | some => exact .inr (List.mem_of_getLast? h)

theorem Sent.broadcastHeartbeat (role : s.role = .leader) : Sent mono now inp s (s.broadcastHeartbeat now) := by
  unfold Endpoint.broadcastHeartbeat
  split
  · next more =>
    extract_lets lease s₁
    have h₁ : Sent mono now inp s s₁ :=
      Sent.of_live { Sends.refl s with } fun live => .single (.leaseRound live role more)
    have lead : s₁.Leads := .inl role
    clear_value s₁
    exact h₁.trans (Sent.broadcastHeartbeatWithCtx lead (lastPendingRequestCtx_mem _))
  · exact Sent.poison s _

/-! ## Snapshot chunks -/

omit [LinearOrder I] in
theorem slot_of_snapshot {m : SnapshotMeta I} {blob : Bytes} (h : s.stable.snapshot = some (m, blob)) :
    s.stable.visible.slot = m.lastIndex := by
  have visible : s.stable.visible.snapshot = some (m, blob) := h
  unfold StableImage.slot
  rw [visible]
  rfl

theorem Sent.chunkStart (peer : I) {boundary : Index} (known : boundary ≤ s.stable.visible.slot) (total fromOffset : Nat) :
    Sent mono now inp s (s.chunkStart peer boundary total fromOffset).2 := by
  unfold Endpoint.chunkStart
  split
  · split
    · exact Sent.refl s
    · exact Sent.modifyProgress (fun p => matchIndex_becomeSnapshot p _ _) fun p _ => (Progress.Turn.snapshot p _ known).path
  · exact Sent.modifyProgress (fun p => matchIndex_becomeSnapshot p _ _) fun p _ => (Progress.Turn.snapshot p _ known).path

omit [LinearOrder I] in
theorem snapshotChunk_ok {st : StableStore I} {offset len total : Nat} {m : SnapshotMeta I}
    {chunk : SnapshotChunkRead} (h : st.snapshotChunk offset len = some (.ok (m, total, chunk))) :
    ∃ blob, st.snapshot = some (m, blob) ∧ total = blob.length ∧
      ∀ bytes, chunk = .ready bytes → bytes = (blob.drop offset).take len := by
  unfold StableStore.snapshotChunk at h
  obtain ⟨⟨m', blob⟩, hs, hr⟩ := Option.map_eq_some_iff.mp h
  simp only at hr
  split at hr
  · cases hr
  simp only [Except.ok.injEq, Prod.mk.injEq] at hr
  obtain ⟨rfl, rfl, rfl⟩ := hr
  refine ⟨blob, hs, rfl, fun bytes hb => ?_⟩
  split at hb
  · cases hb
  · exact (SnapshotChunkRead.ready.inj hb).symm

/-- A chunk that is sent fits the budget, and is empty only at the end of the blob. -/
theorem chunk_fits {bytes : Bytes} {offset total config budget : Nat} (pos : 0 < config) (room : budget ≠ 0)
    (short : ¬ (0 < total - min offset total ∧ bytes = [])) :
    (bytes.take (min (min config budget) (total - min offset total)) = [] → min offset total = total) ∧
      (bytes.take (min (min config budget) (total - min offset total))).length ≤ config ∧
      (bytes.take (min (min config budget) (total - min offset total))).length ≤ budget := by
  refine ⟨fun empty => ?_, ?_, ?_⟩
  · by_contra inside
    have left : 0 < total - min offset total := by omega
    have some : bytes ≠ [] := fun none => short ⟨left, none⟩
    rcases List.take_eq_nil_iff.mp empty with zero | none
    · omega
    · exact some none
  · rw [List.length_take]
    omega
  · rw [List.length_take]
    omega

theorem Sent.sendSnapshotChunk (lead : s.Leads) (peer : I) (fromOffset : Nat) :
    Sent mono now inp s (s.sendSnapshotChunk peer fromOffset).2 := by
  unfold Endpoint.sendSnapshotChunk
  extract_lets configChunk
  split
  · exact Sent.refl s
  · exact Sent.poison s _
  next m total chunkAtFrom hread =>
  obtain ⟨blob, hslot, htotal, hbytes⟩ := snapshotChunk_ok hread
  have h₁ : Sent mono now inp s (s.chunkStart peer m.lastIndex total fromOffset).2 :=
    Sent.chunkStart peer (slot_of_snapshot hslot).ge total fromOffset
  generalize s.chunkStart peer m.lastIndex total fromOffset = p at h₁ ⊢
  obtain ⟨offset, s₁⟩ := p
  have hpos : 0 < configChunk := lt_min (lt_max_of_lt_right Nat.one_pos) (by decide)
  simp only at h₁ ⊢
  split
  · exact h₁
  next hbudget =>
  split
  · exact h₁
  · exact h₁.trans (Sent.poison s₁ _)
  next m' total' chunk hread' =>
  split
  · exact h₁.trans (Sent.poison s₁ _)
  split
  · exact h₁
  next bytes =>
  split
  · exact h₁.trans (Sent.poison s₁ _)
  next hempty =>
  -- the chunk is a run of the blob that starts where the frame says
  have hrun : ∃ k, bytes = (blob.drop (min offset total)).take k := by
    split at hread'
    · next hstart =>
      simp only [Option.some.injEq, Except.ok.injEq, Prod.mk.injEq] at hread'
      rw [hstart]
      exact ⟨_, hbytes bytes hread'.2.2⟩
    · obtain ⟨blob', hslot', -, hb⟩ := snapshotChunk_ok hread'
      rw [h₁.sends.stable, hslot] at hslot'
      simp only [Option.some.injEq, Prod.mk.injEq] at hslot'
      rw [hslot'.2]
      exact ⟨_, hb bytes rfl⟩
  obtain ⟨k, rfl⟩ := hrun
  have chunk := chunk_fits hpos hbudget hempty
  refine h₁.trans (Sent.send rfl fun _ => ⟨h₁.leads lead, rfl, rfl, blob, ?_, htotal, ?_, min_le_right _ _,
    chunk.1, chunk.2.1.trans (min_le_right _ _), Nat.pos_of_ne_zero hbudget, chunk.2.2⟩)
  · rw [h₁.sends.stable]
    exact hslot
  · exact ⟨_, List.take_take⟩

theorem Sent.sendSnapshotPaced (lead : s.Leads) (peer : I) (fromOffset : Nat) :
    Sent mono now inp s (s.sendSnapshotPaced now peer fromOffset) := by
  have h : Sent mono now inp s (s.sendSnapshotChunk peer fromOffset).2 := Sent.sendSnapshotChunk lead ..
  unfold Endpoint.sendSnapshotPaced
  generalize s.sendSnapshotChunk peer fromOffset = p at h ⊢
  obtain ⟨c, s₁⟩ := p
  cases c with
  | sent | deferred | unsendable => exact h.trans (Sent.setResendAfter ..)
  | poisoned => exact h

/-! ## Appends -/

variable {es : List (Entry I)} {prev : Index}

omit [LinearOrder I] in
theorem entries_ready {log : LogStore I} {start stop : Index} (h : log.entries start stop = .ready es) :
    es <+: log.visible.entries.drop (start - log.visible.base - 1) := by
  unfold LogStore.entries at h
  split at h
  · cases h
  split at h
  · obtain rfl := EntriesRead.ready.inj h
    exact List.nil_prefix
  split at h
  · cases h
  simp only at h
  obtain rfl := EntriesRead.ready.inj h
  exact (List.takeWhile_prefix _).trans ((List.take_prefix _ _).trans (List.take_prefix _ _))

omit [LinearOrder I] in
theorem length_entries {log : LogStore I} {start stop : Index}
    (h : log.entries start stop = .ready es) : es = [] ∨ log.visible.base < start ∧ es.length ≤ stop - start := by
  unfold LogStore.entries at h
  split at h
  · cases h
  split at h
  · exact .inl (EntriesRead.ready.inj h).symm
  next view =>
  split at h
  · cases h
  simp only at h
  obtain rfl := EntriesRead.ready.inj h
  simp only [not_or, not_le] at view
  refine .inr ⟨view.1, (List.takeWhile_prefix _).length_le.trans ?_⟩
  rw [List.length_take, List.length_take]
  exact (min_le_right _ _).trans (min_le_left _ _)

omit [LinearOrder I] in
theorem packCount_fits (budget frameUsed : Nat) (es : List (Entry I)) : s.packCount budget frameUsed es = 0 ∨
      frameUsed + ((es.take (s.packCount budget frameUsed es)).map s.entryFrameCost).sum ≤ appendFrameEntryBudget := by
  induction es generalizing budget frameUsed with
  | nil => exact .inl rfl
  | cons e es ih =>
    unfold packCount
    split
    · next fits =>
      right
      rw [Nat.add_comm 1, List.take_succ_cons, List.map_cons, List.sum_cons, ← Nat.add_assoc]
      rcases ih (budget - s.entrySize e) (frameUsed + s.entryFrameCost e) with none | more
      · rw [none]
        simpa using fits.2
      · exact more
    · exact .inl rfl

omit [LinearOrder I] in
theorem capEntries_fits (es : List (Entry I)) :
    (s.capEntries es).length ≤ 1 ∨ ((s.capEntries es).map s.entryFrameCost).sum ≤ appendFrameEntryBudget := by
  cases es with
  | nil => exact .inl (Nat.zero_le _)
  | cons e es =>
    simp only [capEntries]
    rcases packCount_fits (s := s) (s.config.maxSizePerMsg - s.entrySize e) (s.entryFrameCost e) es with none | fits
    · rw [none]
      exact .inl le_rfl
    · right
      rwa [List.map_cons, List.sum_cons]

omit [LinearOrder I] in
theorem capEntries_initial (es : List (Entry I)) : s.capEntries es <+: es := by
  cases es with
  | nil => exact List.nil_prefix
  | cons => exact List.cons_prefix_cons.mpr ⟨rfl, List.take_prefix _ _⟩

omit [LinearOrder I] in
theorem readAppend_ready {nextIndex : Index} (h : s.readAppend nextIndex = .ready es) :
    es <+: s.log.visible.entries.drop (nextIndex - 1 - s.log.visible.base) := by
  unfold readAppend at h
  simp only at h
  split at h
  · have := entries_ready h
    rwa [Nat.sub_right_comm] at this
  · obtain rfl := EntriesRead.ready.inj h
    exact List.nil_prefix

omit [LinearOrder I] in
/-- The last entry of a batch that follows `prev` stands as many places above it. -/
theorem lastSentIndex_of_run {l : LogImage I} (hc : l.Contiguous) (base : l.base ≤ prev)
    (run : es <+: l.entries.drop (prev - l.base)) :
    lastSentIndex prev es = prev + es.length := by
  unfold lastSentIndex
  cases last : es.getLast? with
  | none =>
    rw [List.getLast?_eq_none_iff.mp last]
    rfl
  | some e =>
    rw [List.getLast?_eq_getElem?] at last
    have pos : 0 < es.length := by
      by_contra none
      rw [List.getElem?_eq_none (by omega)] at last
      contradiction
    obtain ⟨rest, run⟩ := run
    have place : (es ++ rest)[es.length - 1]? = es[es.length - 1]? := List.getElem?_append_left (by omega)
    rw [← place, run, List.getElem?_drop] at last
    have index := hc _ e last
    simp only [Option.map_some, Option.getD_some, index]
    lia

omit [LinearOrder I] in
/-- A batch is sent from the next index on, and ends below the last index there is. -/
theorem readAppend_bounds (hc : s.log.visible.Contiguous) {nextIndex : Index} {read : List (Entry I)}
    (base : s.log.visible.base ≤ nextIndex - 1) (h : s.readAppend nextIndex = .ready read) (cut : es <+: read) :
    nextIndex ≤ lastSentIndex (nextIndex - 1) es + 1 ∧
      (nextIndex ≤ lastSentIndex (nextIndex - 1) es → lastSentIndex (nextIndex - 1) es < u64Max) := by
  rw [lastSentIndex_of_run hc base (cut.trans (readAppend_ready h))]
  have short := cut.length_le
  unfold readAppend at h
  simp only at h
  split at h
  · rcases length_entries h with none | ⟨above, bound⟩
    · rw [none] at short
      have zero : es.length = 0 := Nat.le_zero.mp short
      have top : 0 < u64Max := by decide
      constructor
      · lia
      · lia
    · have stop : min (next s.log.lastIndex) (min (nextIndex + maxReadBatchEntries) u64Max) ≤ u64Max :=
        (min_le_right _ _).trans (min_le_right _ _)
      constructor
      · lia
      · intro more
        lia
  · obtain rfl := EntriesRead.ready.inj h
    have zero : es.length = 0 := Nat.le_zero.mp short
    have top : 0 < u64Max := by decide
    constructor
    · lia
    · lia

omit [LinearOrder I] in
theorem prevLogTerm_some {t : Term} (h : s.prevLogTerm prev = (some t, s')) :
    s' = s ∧ (prev = 0 ∧ t = 0 ∨ t = s.log.visible.term prev) := by
  unfold prevLogTerm at h
  split at h
  · simp only [Prod.mk.injEq, Option.some.injEq] at h
    exact ⟨h.2.symm, .inl ⟨‹_›, h.1.symm⟩⟩
  · obtain ⟨rfl, ht⟩ := logTerm_some h
    exact ⟨rfl, .inr ht.symm⟩

theorem Sent.prevLogTerm (prev : Index) : Sent mono now inp s (s.prevLogTerm prev).2 := by
  unfold Endpoint.prevLogTerm
  split
  · exact Sent.refl s
  · exact Sent.logTerm prev

theorem Sent.sendAppend (lead : s.Leads) {peer : I} {prevTerm : Term}
    {pr : Progress} (held : s.tracker.progress peer = some pr) (free : pr.isPaused = false)
    (bounds : s.log.visible.Contiguous → pr.nextIndex ≤ lastSentIndex prev es + 1 ∧
      (pr.nextIndex ≤ lastSentIndex prev es → lastSentIndex prev es < u64Max))
    (base : s.log.visible.base ≤ prev)
    (term : prev = 0 ∧ prevTerm = 0 ∨ prevTerm = s.log.visible.term prev)
    (run : es <+: s.log.visible.entries.drop (prev - s.log.visible.base))
    (fits : es.length ≤ 1 ∨ (es.map s.entryFrameCost).sum ≤ appendFrameEntryBudget) :
    Sent mono now inp s (s.sendAppend peer prev prevTerm es) := by
  unfold Endpoint.sendAppend
  extract_lets lastSent bytes s₁
  have h₁ : Sent mono now inp s s₁ := Sent.send rfl fun _ => ⟨lead, rfl, rfl, le_rfl, base, term, run, fits⟩
  have same : s₁.tracker = s.tracker ∧ s₁.log = s.log := by
    unfold s₁
    rw [send_eq]
    exact ⟨rfl, rfl⟩
  clear_value s₁
  refine h₁.trans (Sent.modifyProgress (fun p => ?_) fun p hp => ?_)
  · split
    · exact matchIndex_sentEntries p _ _
    · rfl
  · rw [same.1, held] at hp
    obtain rfl := Option.some.inj hp
    rw [same.2]
    split
    · exact (Progress.Turn.sent lastSent bytes free bounds).path
    · exact .refl _

theorem Sent.maybeSendAppend (lead : s.Leads) (peer : I) : Sent mono now inp s (s.maybeSendAppend now peer) := by
  unfold Endpoint.maybeSendAppend
  split
  · exact Sent.refl s
  split
  · exact Sent.refl s
  next pr held =>
  split
  · exact Sent.refl s
  next free =>
  split
  · exact Sent.sendSnapshotPaced lead _ _
  next hfirst =>
  have h : Sent mono now inp s (s.prevLogTerm (pr.nextIndex - 1)).2 := Sent.prevLogTerm _
  split
  · next he => simpa [he] using h
  next prevTerm s₁ he =>
  obtain ⟨rfl, hterm⟩ := prevLogTerm_some he
  split
  · exact Sent.refl _
  · exact Sent.poison _ _
  next es hr =>
  have hb : s₁.log.visible.base ≤ pr.nextIndex - 1 := by
    simp only [LogStore.firstIndex, LogImage.firstIndex, not_lt] at hfirst
    lia
  refine Sent.sendAppend lead held (by simpa using free) (fun hc => ?_) hb hterm
    ((capEntries_initial es).trans (readAppend_ready hr)) (capEntries_fits es)
  exact readAppend_bounds hc hb hr (capEntries_initial es)

theorem Sent.pumpLoop (peer : I) (fuel : Nat) (lead : s.Leads) :
    Sent mono now inp s (Endpoint.pumpLoop now peer fuel s) := by
  induction fuel generalizing s with
  | zero => exact Sent.refl s
  | succ fuel ih =>
    unfold Endpoint.pumpLoop
    split
    · exact Sent.refl s
    split
    · exact Sent.refl s
    extract_lets s₁
    have h₁ : Sent mono now inp s s₁ := Sent.maybeSendAppend lead peer
    clear_value s₁
    split
    · exact h₁
    split
    · exact h₁
    split
    · exact h₁
    · exact h₁.trans (ih (h₁.leads lead))

theorem Sent.pumpAppends (lead : s.Leads) (peer : I) : Sent mono now inp s (s.pumpAppends now peer) := by
  unfold Endpoint.pumpAppends
  split
  · exact Sent.refl s
  · exact Sent.pumpLoop peer _ lead

theorem Sent.flushAppends : Sent mono now inp s (s.flushAppends now) := by
  unfold Endpoint.flushAppends
  split
  · exact Sent.refl s
  next h =>
  have lead : s.Leads := .inl (by tauto)
  extract_lets last s₁
  have h₁ : Sent mono now inp s s₁ := by
    refine Sent.of_foldl (fun s lead peer => ?_) _ lead
    split
    · split
      · exact Sent.maybeSendAppend lead peer
      · exact Sent.refl s
    · exact Sent.refl s
  clear_value s₁
  exact h₁.trans (Sent.idle rfl (Tracker.Moves.refl _))

/-! ## Hand-off and conflict hints -/

theorem Sent.maybeHandOffToTransferee (lead : s.Leads) (sender : I) :
    Sent mono now inp s (s.maybeHandOffToTransferee sender) := by
  unfold Endpoint.maybeHandOffToTransferee
  split
  · extract_lets t s₁ s₂
    have h₁ : Sent mono now inp s s₁ := Sent.idle rfl (Tracker.Moves.refl _)
    have h₂ : Sent mono now inp s₁ s₂ := Sent.send rfl fun _ => ⟨h₁.leads lead, rfl, rfl⟩
    clear_value s₁ s₂
    exact (h₁.trans h₂).trans (Sent.idle rfl (Tracker.Moves.refl _))
  · exact Sent.refl s

theorem Sent.findConflictByTerm (term : Term) (budget : Nat) (s : Endpoint I M) (index : Index) :
    Sent mono now inp s (Endpoint.findConflictByTerm term budget s index).2 := by
  induction budget generalizing s index with
  | zero => exact Sent.refl s
  | succ budget ih =>
    unfold Endpoint.findConflictByTerm
    split
    · exact Sent.refl s
    split
    · next h =>
      rw [logTerm_none h]
      exact Sent.poison s _
    next h =>
    obtain ⟨rfl, -⟩ := logTerm_some h
    split
    · exact Sent.refl _
    · exact ih _ _

/-! ## Farewells -/

/-- Only the queues and the fail-stop flag move. -/
def Emits (s s' : Endpoint I M) : Prop :=
  ∃ out events reason, s' = { s with outgoing := out, events := events, poisonReason := reason }

namespace Emits

omit [LinearOrder I] in
theorem refl (s : Endpoint I M) : Emits s s := ⟨_, _, _, rfl⟩

omit [LinearOrder I] in
theorem trans (h : Emits s s') (k : Emits s' s'') : Emits s s'' := by
  obtain ⟨_, _, _, rfl⟩ := h
  obtain ⟨_, _, _, rfl⟩ := k
  exact ⟨_, _, _, rfl⟩

omit [LinearOrder I] in
theorem pendingFarewells (h : Emits s s') : s'.pendingFarewells = s.pendingFarewells := by
  obtain ⟨_, _, _, rfl⟩ := h
  rfl

omit [LinearOrder I] in
theorem of_poison (s : Endpoint I M) (reason : PoisonReason) : Emits s (s.poison reason) := ⟨_, _, _, rfl⟩

omit [LinearOrder I] in
theorem of_send (s : Endpoint I M) (dest : I) (m : Message I) : Emits s (s.send dest m) := by
  rw [send_eq]
  exact ⟨_, _, _, rfl⟩

omit [LinearOrder I] in
theorem of_sendFarewell (s : Endpoint I M) (peer : I) (matched idx : Index) :
    Emits s (s.sendFarewell peer matched idx) := by
  have out := sendFarewell_outcome s peer matched idx
  generalize s.sendFarewell peer matched idx = t at out ⊢
  cases out with
  | still => exact refl s
  | dies => exact of_poison s _
  | append | heartbeat => exact of_send s _ _

end Emits

/-- The retries are driven from the list the node holds. -/
theorem Sent.driveFarewells (farewells : List (I × FarewellRetry))
    (role : s.role = .leader) (held : ∀ p ∈ farewells, p ∈ s.pendingFarewells) :
    Sent mono now inp s (Endpoint.driveFarewells now farewells s).2 ∧
      Emits s (Endpoint.driveFarewells now farewells s).2 := by
  induction farewells generalizing s with
  | nil => exact ⟨Sent.refl s, Emits.refl s⟩
  | cons p rest ih =>
    obtain ⟨peer, retry⟩ := p
    have held' : ∀ p ∈ rest, p ∈ s.pendingFarewells := fun p hp => held p (List.mem_cons_of_mem _ hp)
    unfold Endpoint.driveFarewells
    split
    · extract_lets s₁
      have h₁ : Sent mono now inp s s₁ ∧ Emits s s₁ := by
        by_cases hp : s.poisoned = true
        · simpa [s₁, hp] using ⟨Sent.refl s, Emits.refl s⟩
        have he : s₁ = s.sendFarewell peer retry.matched retry.idx := by simp [s₁, hp]
        rw [he]
        refine ⟨Sent.of_live (Sends.of_sendFarewell s ..) fun live => ?_, Emits.of_sendFarewell s ..⟩
        exact .single (.farewell live role (held _ List.mem_cons_self))
      clear_value s₁
      obtain ⟨h₁, e₁⟩ := h₁
      have h₂ : Sent mono now inp s (Endpoint.driveFarewells now rest s₁).2 ∧
          Emits s (Endpoint.driveFarewells now rest s₁).2 := by
        obtain ⟨h₂, e₂⟩ := ih (h₁.sends.role.trans role) (by rwa [e₁.pendingFarewells])
        exact ⟨h₁.trans h₂, e₁.trans e₂⟩
      simp only
      split <;> exact h₂
    · exact ih role held'

theorem Sent.drivePendingFarewells : Sent mono now inp s (s.drivePendingFarewells now) := by
  unfold Endpoint.drivePendingFarewells
  split
  · exact Sent.refl s
  next h =>
  have role : s.role = .leader := by tauto
  obtain ⟨h₁, e₁⟩ : Sent mono now inp s (Endpoint.driveFarewells now s.pendingFarewells s).2 ∧
      Emits s (Endpoint.driveFarewells now s.pendingFarewells s).2 :=
    Sent.driveFarewells _ role fun _ => id
  have hk : s.pendingFarewells = [] → (Endpoint.driveFarewells now s.pendingFarewells s).1 = [] := fun he => by
    rw [he]
    rfl
  generalize Endpoint.driveFarewells now s.pendingFarewells s = p at h₁ e₁ hk
  obtain ⟨kept, s₁⟩ := p
  refine h₁.trans (Sent.of_live { Sends.refl s₁ with } fun live => .single (.farewells live ?_))
  rwa [e₁.pendingFarewells]

end Sailing.Endpoint
