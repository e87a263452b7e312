import Sailing.Run.Reach

/-!
# Persist before respond

A vote is granted, and anything is acknowledged, only when the durable hard
state already says so, and a node leads only on a durable vote for itself.
`Guarded` states this of one effect, with the durable state as it is when the
message is enqueued; no effect changes that state, so it composes over a call.
-/

namespace Sailing

variable {I : Type} [LinearOrder I] {M : StateMachine}

/-- What the durable hard state holds when the message is enqueued for `dest`. -/
def Backed (hs : HardState I) (dest : I) : Message I → Prop
  | .voteResponse vr => vr.preVote = false → vr.reject = false →
      hs.term = vr.term ∧ hs.vote = some dest
  | .appendResponse r => r.reject = false → r.term ≤ hs.term
  | .snapshotResponse r => r.reject = false → r.progress = false → r.term ≤ hs.term
  | _ => True

omit [LinearOrder I] in
theorem Backed.of_plain {hs : HardState I} {dest : I} {m : Message I} (h : plain m = true) : Backed hs dest m := by
  cases m with
  | voteResponse =>
    intro hp hr
    simp [plain, hr] at h
  | appendResponse =>
    intro hr
    simp [plain, hr] at h
  | snapshotResponse =>
    intro hr hp
    simp [plain, hr, hp] at h
  | _ => trivial

namespace Endpoint

variable {mono : Prop} {now : Instant} {inp : Input I} {s s' s'' : Endpoint I M}

/-- What is enqueued between two states is backed by the durable hard state,
and so is leadership. -/
structure Guarded (s s' : Endpoint I M) : Prop where
  config : s'.config = s.config
  durable : s'.stable.durable = s.stable.durable
  enqueued : ∃ old new, s'.outgoing = old ++ new ∧ old.Sublist s.outgoing ∧
    ∀ o ∈ new, Backed s.stable.durable.hardState o.dest o.message
  leader : s'.role = .leader → (s.role = .leader ∧ s'.term = s.term) ∨
    s.stable.durable.ballot = (s'.term, some s.config.id)

namespace Guarded

omit [LinearOrder I] in
theorem of_same (hc : s'.config = s.config) (hd : s'.stable.durable = s.stable.durable)
    (ho : s'.outgoing = s.outgoing) (hr : s'.role = .leader → s.role = .leader ∧ s'.term = s.term) :
    Guarded s s' :=
  ⟨hc, hd, ⟨s.outgoing, [], by simpa using ho, List.Sublist.refl _, by simp⟩, fun h => .inl (hr h)⟩

omit [LinearOrder I] in
theorem of_frame (hc : s'.config = s.config) (hs : s'.stable.durable = s.stable.durable)
    (ho : s'.outgoing = s.outgoing) (hr : s'.role = s.role) (ht : s'.term = s.term) : Guarded s s' :=
  of_same hc hs ho fun h => ⟨hr.symm.trans h, ht⟩

omit [LinearOrder I] in
theorem refl (s : Endpoint I M) : Guarded s s := of_frame rfl rfl rfl rfl rfl

omit [LinearOrder I] in
theorem of_keeps (h : Keeps s s') : Guarded s s' := by
  obtain ⟨new, ho, hp⟩ := h.sent
  refine ⟨h.config, by rw [h.stable], ⟨s.outgoing, new, ho, List.Sublist.refl _, fun o hm =>
    Backed.of_plain (hp o hm)⟩, fun hr => .inl ⟨?_, h.term⟩⟩
  rcases h.role with hk | hk
  · exact hk.symm.trans hr
  · rw [hk] at hr
    cases hr

omit [LinearOrder I] in
theorem trans (h : Guarded s s') (k : Guarded s' s'') : Guarded s s'' := by
  obtain ⟨old, new, ho, hsub, hnew⟩ := h.enqueued
  obtain ⟨old', new', ho', hsub', hnew'⟩ := k.enqueued
  rw [ho] at hsub'
  obtain ⟨a, b, rfl, ha, hb⟩ := List.sublist_append_iff.mp hsub'
  refine ⟨k.config.trans h.config, k.durable.trans h.durable,
    ⟨a, b ++ new', by rw [ho', List.append_assoc], ha.trans hsub, fun o hm => ?_⟩, fun hr => ?_⟩
  · rcases List.mem_append.mp hm with hm | hm
    · exact hnew o (hb.subset hm)
    · rw [← h.durable]
      exact hnew' o hm
  · rcases k.leader hr with ⟨hr', ht⟩ | hb
    · rcases h.leader hr' with ⟨hr, ht'⟩ | hb
      · exact .inl ⟨hr, ht.trans ht'⟩
      · exact .inr (by rw [ht]; exact hb)
    · rw [h.durable, h.config] at hb
      exact .inr hb

omit [LinearOrder I] in
theorem of_send {t : Endpoint I M} {dest : I} {m : Message I} (ht : Guarded s t)
    (hb : Backed s.stable.durable.hardState dest m) :
    Guarded s (t.send dest m) := by
  refine ht.trans ?_
  rw [send_eq]
  refine ⟨rfl, rfl, ⟨t.outgoing, _, rfl, List.Sublist.refl _, fun o ho => ?_⟩, fun h => .inl ⟨h, rfl⟩⟩
  split at ho
  · cases ho
  · rw [List.mem_singleton.mp ho, ht.durable]
    exact hb

end Guarded

/-! ## Acknowledgements -/

section

variable (inv : NodeInv mono s) (live : s.poisoned = false)

include inv live

theorem NodeInv.term_durable (h : s.termIsDurable = true) : s.term ≤ s.stable.durable.hardState.term := by
  have hd : s.term ≤ s.durable.durableTerm := by simpa [termIsDurable] using h
  exact hd.trans ((inv.votes live).durable _ List.mem_cons_self)

theorem Guarded.of_appendAck {pl : List (OpId × Pending I)} (dest : I) (n : Index) :
    Guarded s ({ s with pendingLog := pl }.sendOrGateAppendAck dest n) := by
  unfold sendOrGateAppendAck
  split
  · next h => exact Guarded.of_send (.of_frame rfl rfl rfl rfl rfl) fun _ => inv.term_durable live h
  · exact .of_frame rfl rfl rfl rfl rfl

theorem Guarded.of_snapshotAck (dest : I) (n : Index) : Guarded s (s.sendOrGateSnapshotAck dest n) := by
  unfold sendOrGateSnapshotAck
  split
  · next h => exact Guarded.of_send (.refl s) fun _ _ => inv.term_durable live h
  · exact .of_frame rfl rfl rfl rfl rfl

theorem NodeInv.shortcut_durable {n : Index}
    (h : s.shortcutAckReady n = true) : s.term ≤ s.stable.durable.hardState.term := by
  unfold shortcutAckReady at h
  simp only [Bool.and_eq_true] at h
  exact inv.term_durable live h.1.1

theorem Guarded.of_shortcutAck (dest : I) (n : Index) : Guarded s (s.sendOrGateShortcutSnapshotAck dest n) := by
  unfold sendOrGateShortcutSnapshotAck
  split
  · next h => exact Guarded.of_send (.refl s) fun _ _ => inv.shortcut_durable live h
  · exact .of_frame rfl rfl rfl rfl rfl

theorem Guarded.of_flushShortcut : Guarded s s.flushShortcutGatedAck := by
  unfold flushShortcutGatedAck
  split
  · exact .refl s
  split
  · exact .of_frame rfl rfl rfl rfl rfl
  split
  · next h =>
    exact Guarded.of_send (.of_frame rfl rfl rfl rfl rfl) fun _ _ => inv.shortcut_durable live h
  · exact .refl s

theorem Guarded.of_flushSnapshotGate (durable : s.termIsDurable = true) : Guarded s s.flushTermGatedSnapshotAck := by
  unfold flushTermGatedSnapshotAck
  split
  · exact .refl s
  · exact Guarded.of_send (.of_frame rfl rfl rfl rfl rfl) fun _ _ => inv.term_durable live durable

theorem Guarded.of_flushAppendGate (durable : s.termIsDurable = true) : Guarded s s.flushTermGatedAppendAck := by
  unfold flushTermGatedAppendAck
  split
  · exact .refl s
  · exact Guarded.of_send (.of_frame rfl rfl rfl rfl rfl) fun _ => inv.term_durable live durable

end

/-! ## One effect -/

omit [LinearOrder I] in
theorem Sendable.backed {dest : I} {m : Message I} (h : Sendable now inp s dest m) :
    Backed s.stable.durable.hardState dest m := by
  cases m with
  | voteResponse =>
    intro hp hr
    obtain ⟨ht, hg⟩ := h.2.1 hp
    obtain ⟨-, hb, -⟩ := hg hr
    exact ⟨(congrArg Prod.fst hb).trans ht.symm, congrArg Prod.snd hb⟩
  | appendResponse => exact fun hr => absurd (h.2.2.symm.trans hr) (by simp)
  | snapshotResponse => exact fun _ hp => absurd (h.2.2.2.symm.trans hp) (by simp)
  | _ => trivial

theorem Step.guarded (st : Step mono now inp s s') (inv : NodeInv mono s) : Guarded s s' := by
  cases st with
  | idle h => exact .of_keeps (Sends.of_core h).keeps
  | junk dead config log stable id outgoing role =>
    exact ⟨config, by rw [stable], ⟨s'.outgoing, [], by simp, outgoing, by simp⟩, fun h => .inl (role h)⟩
  | adopt | follow | stepDown | retire =>
    simp only [adoptTerm, followLeader, stepDownToFollower]
    rw [setLeader_eq]
    exact .of_same rfl rfl rfl fun h => absurd h (by show Role.follower ≠ .leader; simp)
  | preCampaign =>
    unfold startPreCampaign
    rw [setLeader_eq]
    exact .of_same rfl rfl rfl fun h => absurd h (by show Role.preCandidate ≠ .leader; simp)
  | campaign live mint =>
    rw [startCampaign_eq live mint]
    exact .of_same rfl rfl rfl fun h => absurd h (by show Role.candidate ≠ .leader; simp)
  | cast live mint | write live mint | rewrite live mint | appendOwn live mint | beginInstall live mint
  | capture live mint =>
    simp only [castVote_eq live mint, submitHardState_eq live mint, mintWrite_eq live mint, appendOwn_eq live mint,
      submitSnapshot_eq live mint, Endpoint.capture]
    exact .of_frame rfl rfl rfl rfl rfl
  | lead live role won durable =>
    unfold resetLeader
    rw [setLeader_eq]
    simp only
    split <;> exact ⟨rfl, rfl, ⟨s.outgoing, [], (List.append_nil _).symm, List.Sublist.refl _, by simp⟩,
      fun _ => .inr durable⟩
  | send live ok => exact Guarded.of_send (.refl s) ok.backed
  | overwrite live mint =>
    rw [overwrite_eq live mint]
    exact ⟨rfl, rfl, ⟨_, [], (List.append_nil _).symm, List.filter_sublist, by simp⟩, fun h => .inl ⟨h, rfl⟩⟩
  | ackAppend live | releaseAck live => exact .of_appendAck inv live _ _
  | appended =>
    unfold noteAppended
    split <;> exact .of_frame rfl rfl rfl rfl rfl
  | apply live running entry => exact .of_keeps (Keeps.of_applyEntry live entry)
  | install =>
    exact ⟨rfl, rfl, ⟨_, [], (List.append_nil _).symm, List.filter_sublist, by simp⟩, fun h => .inl ⟨h, rfl⟩⟩
  | ackSnapshot live => exact .of_snapshotAck inv live _ _
  | ackShortcut live => exact .of_shortcutAck inv live _ _
  | receive live msg term chunk =>
    obtain ⟨n, stable, hc, hst⟩ := chunk
    obtain ⟨sg, rfl⟩ := acceptSnapshotChunk_stable hc
    have hs : s'.stable = { s.stable with staging := sg } := congrArg Core.stable hst
    exact .of_frame (congrArg Core.config hst) (by rw [hs]) (congrArg Core.outgoing hst)
      (congrArg Core.role hst) (congrArg Core.term hst)
  | flushShortcut live => exact .of_flushShortcut inv live
  | flushSnapshotGate live durable => exact .of_flushSnapshotGate inv live durable
  | flushAppendGate live durable => exact .of_flushAppendGate inv live durable
  | farewell | confirm | leaseRead | forward | answered | renewLease => exact .of_keeps (Sends.keeps (by simp))
  | _ => exact .of_frame rfl rfl rfl rfl rfl

/-! ## Calls and runs -/

theorem Does.guarded {brings : Input I → Prop} (h : Does mono now brings s s') (inv : NodeInv mono s) :
    Guarded s s' := by
  induction h with
  | refl => exact .refl s
  | tail h st ih =>
    obtain ⟨_, _, st⟩ := st
    exact ih.trans (st.guarded (Does.inv h inv))

theorem Steps.guarded (h : Steps mono now inp s s') (inv : NodeInv mono s) : Guarded s s' := by
  have hd : Does mono now (fun i => i = inp) s s' := Steps.does h rfl
  exact Does.guarded hd inv

/-- The restarted node has enqueued nothing that needs backing, and follows. -/
theorem guarded_crash (inv : NodeInv mono s) {rng : Nat → Nat} {bootEpoch : Nat}
    {prior : Option Duration} (later : s.nextOpId.epoch < bootEpoch) :
    (∃ new, (s.crash now rng bootEpoch prior).outgoing = new ∧
      ∀ o ∈ new, Backed s.stable.durable.hardState o.dest o.message) ∧
    (s.crash now rng bootEpoch prior).stable.durable = s.stable.durable ∧
    ((s.crash now rng bootEpoch prior).role = .leader →
      s.stable.durable.ballot = ((s.crash now rng bootEpoch prior).term, some s.config.id)) := by
  obtain ⟨r, s', inv, from_, st, hb⟩ := exists_recovered now inv later
  have hg := Steps.guarded st inv
  have hd : r.stable.durable = s.stable.durable := by rw [from_.stable]
  rw [hb]
  obtain ⟨old, new, ho, hsub, hnew⟩ := hg.enqueued
  rw [from_.outgoing, List.sublist_nil] at hsub
  rw [hsub, List.nil_append] at ho
  refine ⟨⟨new, ho, hd ▸ hnew⟩, hg.durable.trans hd, fun h => ?_⟩
  rcases hg.leader h with ⟨hl, -⟩ | hl
  · rw [from_.role] at hl
    cases hl
  · rw [← hd, ← from_.config]
    exact hl

/-- Whatever a call enqueues, and whatever leadership it ends in, is backed by
the hard state a crash would leave at that moment; no public call changes that
hard state. -/
theorem exec_persistBeforeRespond (config : Config I) (now : Instant) (rng : Nat → Nat)
    (calls : List (Call I M)) (c : Call I M) :
    let s := (new config now rng M.init : Endpoint I M).execs calls
    let s' := s.exec c
    (∃ old new, s'.outgoing = old ++ new ∧ old.Sublist s.outgoing ∧
      ∀ o ∈ new, Backed s'.stable.durable.hardState o.dest o.message) ∧
    (s'.role = .leader → (s.role = .leader ∧ s'.term = s.term) ∨
      s'.stable.durable.hardState.term = s'.term ∧
        s'.stable.durable.hardState.vote = some s.config.id) ∧
    (c.isPublic = true → s'.stable.durable = s.stable.durable) := by
  intro s s'
  have reach : Reachable config s := ⟨now, rng, calls, rfl⟩
  obtain ⟨inv, sub⟩ := reach.inv
  by_cases hc : c.isPublic = true
  · obtain ⟨hd, -⟩ := does_exec hc inv sub False.elim
    have hg := Does.guarded hd inv
    have hdur : s'.stable.durable = s.stable.durable := hg.durable
    refine ⟨?_, fun hr => ?_, fun _ => hdur⟩
    · rw [hdur]
      exact hg.enqueued
    · rw [hdur]
      rcases hg.leader hr with h | h
      · exact Or.inl h
      · exact Or.inr ⟨congrArg Prod.fst h, congrArg Prod.snd h⟩
  rw [and_iff_left fun hp => absurd hp hc]
  clear_value s
  -- the stores move, or the node is polled: nothing is enqueued
  have quiet : ∀ {t : Endpoint I M}, t.outgoing.Sublist s.outgoing → t.role = s.role →
      t.term = s.term →
      (∃ old new, t.outgoing = old ++ new ∧ old.Sublist s.outgoing ∧
        ∀ o ∈ new, Backed t.stable.durable.hardState o.dest o.message) ∧
      (t.role = .leader → (s.role = .leader ∧ t.term = s.term) ∨
        t.stable.durable.hardState.term = t.term ∧
          t.stable.durable.hardState.vote = some s.config.id) := fun ho hr ht =>
    ⟨⟨_, [], (List.append_nil _).symm, ho, by simp⟩, fun h => Or.inl ⟨hr.symm.trans h, ht⟩⟩
  cases c with
  | pollMessage =>
    obtain ⟨out, he, hsuf⟩ := pollMessage_outgoing (s := s)
    have he : s' = { s with outgoing := out } := he
    rw [he]
    exact quiet hsuf.sublist rfl rfl
  | pollEvent =>
    obtain ⟨events, he⟩ := pollEvent_events (s := s)
    have he : s' = { s with events := events } := he
    rw [he]
    exact quiet (List.Sublist.refl _) rfl rfl
  | crash =>
    simp only [s', Endpoint.exec]
    split
    · next h =>
      obtain ⟨⟨new, ho, hnew⟩, hd, hl⟩ := guarded_crash inv h.1
      rw [hd]
      exact ⟨⟨[], new, ho, List.nil_sublist _, hnew⟩, fun hr =>
        Or.inr ⟨congrArg Prod.fst (hl hr), congrArg Prod.snd (hl hr)⟩⟩
    · exact quiet (List.Sublist.refl _) rfl rfl
  | message | timeout | storage | transfer | propose | proposeConf | readIndex | flush
  | failStopQueryPanicked =>
    exact absurd rfl hc
  | _ => exact quiet (List.Sublist.refl _) rfl rfl

end Endpoint

end Sailing
