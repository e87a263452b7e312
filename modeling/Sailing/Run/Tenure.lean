import Sailing.Run.Reach

/-!
# One tenure of a leader

What a leader appended stays in its log for as long as it leads, and nothing ends
its tenure without a `LeaderChanged` in the queue of events. So for an entry a
leader appended the first event that is a change of leader, or is about the
entry's index, decides: if it is about the index then this very entry was applied
(`Goes.phase`).
-/

namespace Sailing

/-- A record of what a state machine was made to apply. -/
structure History (M : StateMachine) where
  of : M.State → List (Index × M.Command × M.Response)
  init : of M.init = []
  apply : ∀ {st st' i cmd r}, M.apply st i cmd = some (st', r) → of st' = of st ++ [(i, cmd, r)]
  restore : ∀ {st st' snap}, M.restore st snap = some st' → of st' = of st

/-- The state machine beside a record of what it applied. -/
abbrev StateMachine.recorded (M : StateMachine) : StateMachine where
  State := M.State × List (Index × M.Command × M.Response)
  Command := M.Command
  Response := M.Response
  Snapshot := M.Snapshot
  init := (M.init, [])
  encodeCommand := M.encodeCommand
  decodeCommand := M.decodeCommand
  apply := fun st i cmd => (M.apply st.1 i cmd).map fun p => ((p.1, st.2 ++ [(i, cmd, p.2)]), p.2)
  snapshot := fun st => M.snapshot st.1
  encodeSnapshot := M.encodeSnapshot
  decodeSnapshot := M.decodeSnapshot
  restore := fun st snap => (M.restore st.1 snap).map fun x => (x, st.2)

/-- Every state machine can be watched. -/
def History.recorded (M : StateMachine) : History M.recorded where
  of := Prod.snd
  init := rfl
  apply := fun h => by
    obtain ⟨p, -, hp⟩ := Option.map_eq_some_iff.mp h
    obtain ⟨rfl, rfl⟩ := Prod.mk.inj hp
    rfl
  restore := fun h => by
    obtain ⟨x, -, rfl⟩ := Option.map_eq_some_iff.mp h
    rfl

variable {I : Type} [LinearOrder I] {M : StateMachine}

/-- The index of the entry an event is about. -/
def Event.about {Response : Type} : Event I Response → Option Index
  | .applied i _ | .confChanged i _ => some i
  | _ => none

/-- The event is a change of leader, or about the index. -/
def Event.decides {Response : Type} (i : Index) : Event I Response → Bool
  | .leaderChanged .. => true
  | .applied j _ | .confChanged j _ => j = i
  | _ => false

omit [LinearOrder I] in
theorem Event.about_of_undecided {Response : Type} {e : Event I Response}
    (h : ∀ i, e.decides i = false) : e.about = none := by
  cases e with
  | applied j | confChanged j => exact absurd (h j) (by simp [decides])
  | _ => rfl

/-- A message from another node. -/
def Input.foreign (me : I) : Input I → Prop
  | .message sender _ => sender ≠ me
  | _ => True

omit [LinearOrder I] in
theorem LogStore.visible_sync (l : LogStore I) : l.sync.visible = l.visible := by
  unfold LogStore.sync
  split
  · rfl
  next h =>
  rw [LogStore.visible_eq_newest, LogStore.visible_eq_newest, h]
  exact Fifo.newest_cons.symm

namespace Endpoint

variable {mono : Prop} {now : Instant} {inp : Input I} {s s' s'' : Endpoint I M} {history : History M}

/-- A leader knows that it leads. -/
def Known (s : Endpoint I M) : Prop := s.role = .leader → s.leader = some s.config.id

/-- More events, about entries that are applied. -/
def Tells (s s' : Endpoint I M) : Prop :=
  ∃ news, s'.events = s.events ++ news ∧ ∀ e ∈ news, ∀ i, e.about = some i → i ≤ s'.applied

omit [LinearOrder I] in
theorem Tells.of_eq (h : s'.events = s.events) : Tells s s' := ⟨[], by simp [h], by simp⟩

/-- What an effect that applies nothing does. -/
structure Moved (history : History M) (s s' : Endpoint I M) : Prop where
  config : s'.config = s.config
  applied : s.applied ≤ s'.applied
  history : history.of s'.fsm = history.of s.fsm
  events : Tells s s'
  base : s.log.visible.base ≤ s'.log.visible.base
  kept : ∀ i ≤ s.applied, s'.log.visible.get i = s.log.visible.get i ∨ i ≤ s'.log.visible.base
  tenure : s.role = .leader →
    (∃ t l, s'.events = s.events ++ [.leaderChanged t l]) ∨
      (s'.role = .leader ∧ s'.term = s.term ∧ s'.applied = s.applied ∧
        (∃ news, s'.events = s.events ++ news ∧ ∀ e ∈ news, ∀ i, e.decides i = false) ∧
        ∀ i e, s.applied < i → s.log.visible.get i = some e → s'.log.visible.get i = some e)
  known : s'.Known
  passed : s'.passed = s.passed

namespace Moved

section

variable (known : s.Known) (config : s'.config = s.config) (role : s'.role = s.role) (term : s'.term = s.term)
  (leader : s'.leader = s.leader) (applied : s'.applied = s.applied) (fsm : s'.fsm = s.fsm)
  (passed : s'.passed = s.passed) (log : s'.log.visible = s.log.visible)

include known config role term leader applied fsm passed log

omit [LinearOrder I] in
theorem of_reads {news : List (Event I M.Response)} (events : s'.events = s.events ++ news)
    (reads : ∀ e ∈ news, ∀ i, e.decides i = false) : Moved history s s' where
  config := config
  applied := applied.ge
  history := by rw [fsm]
  events := ⟨news, events, fun e he i hi => by
    rw [Event.about_of_undecided (reads e he)] at hi
    exact absurd hi (by simp)⟩
  base := by rw [log]
  kept i _ := .inl (by rw [log])
  tenure hr := .inr ⟨role.trans hr, term, applied, ⟨news, events, reads⟩, fun i e _ he => by
    rw [log]
    exact he⟩
  known hr := by
    rw [leader, config]
    exact known (role.symm.trans hr)
  passed := passed

omit [LinearOrder I] in
theorem of_eq (events : s'.events = s.events) : Moved history s s' :=
  of_reads known config role term leader applied fsm passed log (events.trans (List.append_nil _).symm) (by simp)

end

omit [LinearOrder I] in
theorem of_core (known : s.Known) (hc : s'.core = s.core) : Moved history s s' := by
  refine of_eq known (congrArg Core.config hc) (congrArg Core.role hc) (congrArg Core.term hc)
    (congrArg Core.leader hc) (congrArg Core.applied hc) (congrArg Core.fsm hc) (congrArg Core.passed hc) ?_
    (congrArg Core.events hc)
  rw [show s'.log = s.log from congrArg Core.log hc]

theorem of_lost (known : s.Known) {term : Term} (config : s'.config = s.config)
    (role : s'.role ≠ .leader) (leader : s'.leader ≠ some s.config.id) (applied : s'.applied = s.applied)
    (fsm : s'.fsm = s.fsm) (passed : s'.passed = s.passed) (log : s'.log.visible = s.log.visible)
    (events : s'.events = if s.leader = s'.leader then s.events
      else s.events ++ [.leaderChanged term s'.leader]) : Moved history s s' where
  config := config
  applied := applied.ge
  history := by rw [fsm]
  events := by
    split at events
    · exact .of_eq events
    · exact ⟨_, events, by simp [Event.about]⟩
  base := by rw [log]
  kept i _ := .inl (by rw [log])
  tenure hr := .inl ⟨term, s'.leader, by
    rw [events, if_neg (by rw [known hr]; exact leader.symm)]⟩
  known hr := absurd hr role
  passed := passed

omit [LinearOrder I] in
theorem of_log (config : s'.config = s.config) (was : s.role ≠ .leader)
    (role : s'.role = s.role) (applied : s.applied ≤ s'.applied)
    (hist : history.of s'.fsm = history.of s.fsm) (events : Tells s s')
    (base : s.log.visible.base ≤ s'.log.visible.base)
    (kept : ∀ i ≤ s.applied, s'.log.visible.get i = s.log.visible.get i ∨ i ≤ s'.log.visible.base)
    (passed : s'.passed = s.passed) : Moved history s s' :=
  ⟨config, applied, hist, events, base, kept, fun hr => absurd hr was, fun hr => absurd (role.symm.trans hr) was, passed⟩

omit [LinearOrder I] in
theorem of_appended (known : s.Known) {e : Entry I} {id : OpId}
    (index : e.index = s.log.visible.lastIndex + 1) (last : s.applied ≤ s.log.visible.lastIndex)
    (config : s'.config = s.config) (role : s'.role = s.role) (term : s'.term = s.term)
    (leader : s'.leader = s.leader) (applied : s'.applied = s.applied) (fsm : s'.fsm = s.fsm)
    (passed : s'.passed = s.passed) (events : s'.events = s.events) (log : s'.log = s.log.submitAppend id [e]) :
    Moved history s s' := by
  have hv : s'.log.visible = s.log.visible.put e := by
    rw [log]
    exact LogStore.submitAppend_visible s.log _ _ _
  have fits : s.log.visible.Fits e.index := by
    refine ⟨?_, index.le⟩
    rw [index]
    exact Nat.lt_succ_of_le (Nat.le_add_right _ _)
  have get : ∀ i ≤ s.log.visible.lastIndex, s'.log.visible.get i = s.log.visible.get i := fun i hi => by
    rw [hv]
    exact LogImage.get_put_lt fits (by rw [index]; exact Nat.lt_succ_of_le hi)
  refine ⟨config, applied.ge, by rw [fsm], .of_eq events, by rw [hv]; rfl,
    fun i hi => .inl (get i (hi.trans last)), fun hr => .inr ⟨role.trans hr, term, applied,
      ⟨[], by simp [events], by simp⟩, fun i x _ hx => ?_⟩, fun hr => ?_, passed⟩
  · rw [get i (LogImage.isSome_get.mp (by rw [hx]; rfl)).2]
    exact hx
  · rw [leader, config]
    exact known (role.symm.trans hr)

omit [LinearOrder I] in
theorem of_compacted (known : s.Known) {n : Index} (le : n ≤ s.applied) (above : s.log.visible.base < n)
    (config : s'.config = s.config) (role : s'.role = s.role) (term : s'.term = s.term)
    (leader : s'.leader = s.leader) (applied : s'.applied = s.applied) (fsm : s'.fsm = s.fsm)
    (passed : s'.passed = s.passed) (events : s'.events = s.events) (log : s'.log.visible = s.log.visible.compact n) :
    Moved history s s' := by
  refine ⟨config, applied.ge, by rw [fsm], .of_eq events, by rw [log]; exact above.le,
    fun i _ => ?_, fun hr => .inr ⟨role.trans hr, term, applied, ⟨[], by simp [events], by simp⟩,
      fun i x hi hx => ?_⟩, fun hr => ?_, passed⟩
  · rw [log]
    rcases lt_or_ge n i with hi | hi
    · exact .inl (LogImage.get_compact above.le hi)
    · exact .inr hi
  · rw [log, LogImage.get_compact above.le (le.trans_lt hi)]
    exact hx
  · rw [leader, config]
    exact known (role.symm.trans hr)

end Moved

omit [LinearOrder I] in
theorem events_send (dest : I) (m : Message I) : (s.send dest m).events = s.events := by
  rw [send_eq]

omit [LinearOrder I] in
theorem events_sendFarewell (s : Endpoint I M) (peer : I) (matched idx : Index) :
    (s.sendFarewell peer matched idx).events = s.events := by
  have out := sendFarewell_outcome s peer matched idx
  generalize s.sendFarewell peer matched idx = t at out ⊢
  cases out with
  | append | heartbeat => exact events_send _ _
  | _ => rfl

/-- Reads that are answered decide nothing. -/
def Reported (s s' : Endpoint I M) : Prop :=
  ∃ outgoing reads news, s' = { s with outgoing := outgoing, reads := reads, events := s.events ++ news } ∧
    ∀ e ∈ news, ∀ i, e.decides i = false

namespace Reported

omit [LinearOrder I] in
theorem refl (s : Endpoint I M) : Reported s s := ⟨s.outgoing, s.reads, [], by simp, by simp⟩

omit [LinearOrder I] in
theorem trans (h : Reported s s') (k : Reported s' s'') : Reported s s'' := by
  obtain ⟨o, r, n, rfl, hn⟩ := h
  obtain ⟨o', r', n', rfl, hn'⟩ := k
  refine ⟨o', r', n ++ n', by simp, fun e he => ?_⟩
  rcases List.mem_append.mp he with he | he
  · exact hn e he
  · exact hn' e he

omit [LinearOrder I] in
theorem moved (h : Reported s s') (known : s.Known) : Moved history s s' := by
  obtain ⟨o, r, n, rfl, hn⟩ := h
  exact .of_reads known rfl rfl rfl rfl rfl rfl rfl rfl rfl hn

omit [LinearOrder I] in
theorem reads (reads : Reads I) : Reported s { s with reads := reads } := ⟨s.outgoing, reads, [], by simp, by simp⟩

omit [LinearOrder I] in
theorem send (dest : I) (m : Message I) : Reported s (s.send dest m) := by
  rw [send_eq]
  exact ⟨s.outgoing ++ if s.poisoned then [] else [⟨dest, m⟩], s.reads, [], by simp, by simp⟩

omit [LinearOrder I] in
theorem emitReadState (index : Index) (context : Bytes) : Reported s (s.emitReadState index context) := by
  unfold Endpoint.emitReadState
  split
  · exact .refl s
  · exact ⟨s.outgoing, s.reads, [.readState index context], rfl, by simp [Event.decides]⟩

omit [LinearOrder I] in
theorem emitOrReplyRead (index : Index) (context : Bytes) (reqFrom : Option I) :
    Reported s (s.emitOrReplyRead index context reqFrom) := by
  unfold Endpoint.emitOrReplyRead
  split
  · exact emitReadState _ _
  · exact send _ _

omit [LinearOrder I] in
theorem foldl {α : Type} {f : Endpoint I M → α → Endpoint I M} (hf : ∀ s a, Reported s (f s a))
    (l : List α) (s : Endpoint I M) : Reported s (l.foldl f s) := by
  induction l generalizing s with
  | nil => exact .refl s
  | cons a l ih => exact (hf s a).trans (ih _)

omit [LinearOrder I] in
theorem confirmReads (token : Bytes) : Reported s (s.confirmReads token) :=
  (reads _).trans (foldl (fun _ (st : ReadIndexStatus I) => emitOrReplyRead st.index st.context st.reqFrom) _ _)

theorem onReadIndexResponse (sender : I) (r : ReadIndexResponse I) : Reported s (s.onReadIndexResponse sender r) := by
  unfold Endpoint.onReadIndexResponse
  split
  · exact .refl s
  split
  · exact .refl s
  simp only
  split
  · exact reads _
  · exact (reads _).trans (emitReadState _ _)

end Reported

theorem Step.moved (history : History M) (st : Step mono now inp s s') (inv : NodeInv mono s) (known : s.Known)
    (foreign : inp.foreign s.config.id) (live' : s'.poisoned = false) :
    Moved history s s' ∨ s.poisoned = false ∧ ∃ e, s.log.visible.get e.index = some e ∧ s' = s.applyEntry e := by
  have same : ∀ {t : Endpoint I M}, t.config = s.config → t.role = s.role → t.term = s.term →
      t.leader = s.leader → t.applied = s.applied → t.fsm = s.fsm → t.passed = s.passed →
      t.log.visible = s.log.visible → t.events = s.events →
      Moved history s t ∨ s.poisoned = false ∧ ∃ e, s.log.visible.get e.index = some e ∧ t = s.applyEntry e :=
    fun h₁ h₂ h₃ h₄ h₅ h₆ h₇ h₈ h₉ => .inl (.of_eq known h₁ h₂ h₃ h₄ h₅ h₆ h₇ h₈ h₉)
  have acked : ∀ {t : Endpoint I M}, Acks s t → Moved history s t := fun h => by
    obtain ⟨l, a, b, c, out, rfl⟩ := h.eq
    exact .of_eq known rfl rfl rfl rfl rfl rfl rfl rfl rfl
  cases st with
  | idle hc => exact .inl (.of_core known hc)
  | die => exact absurd live' (by simp [poisoned_poison])
  | junk dead => exact absurd live' (by simp [dead])
  | adopt | preCampaign | stepDown | retire =>
    simp only [adoptTerm, startPreCampaign, stepDownToFollower]
    rw [setLeader_eq]
    exact .inl (.of_lost known rfl (by simp [armElectionTimer, dropTransfer])
      (by simp [armElectionTimer, dropTransfer]) rfl rfl rfl rfl rfl)
  | follow live msg =>
    subst msg
    have hne := foreign
    unfold followLeader
    rw [setLeader_eq]
    refine .inl (.of_lost known rfl (by simp [armElectionTimer]) ?_ rfl rfl rfl rfl rfl)
    exact fun h => hne (Option.some.inj h)
  | campaign live mint =>
    rw [startCampaign_eq live mint]
    exact .inl (.of_lost known rfl (by simp [nominated]) (by simp [nominated]) rfl rfl rfl rfl rfl)
  | cast live mint | write live mint | rewrite live mint | beginInstall live mint | capture live mint =>
    simp only [castVote_eq live mint, submitHardState_eq live mint, mintWrite_eq live mint, submitSnapshot_eq live mint,
      Endpoint.capture]
    exact same rfl rfl rfl rfl rfl rfl rfl rfl rfl
  | lead live role =>
    have grows : ∀ {t : Endpoint I M} leader, t.events = ({ s with
        replicationPending := false, role := .leader } : Endpoint I M).eventsUnder leader → Tells s t := by
      intro t leader h
      unfold eventsUnder at h
      split at h
      · exact .of_eq h
      · exact ⟨_, h, by simp [Event.about]⟩
    have was : s.role ≠ .leader := by simp [role]
    unfold resetLeader
    rw [setLeader_eq]
    simp only
    split <;> exact .inl ⟨rfl, le_rfl, rfl, grows _ rfl, le_rfl, fun _ _ => .inl rfl,
      fun hr => absurd hr was, fun _ => rfl, rfl⟩
  | send => exact .inl ((Reported.send _ _).moved known)
  | @appendOwn index kind live mint role index_eq conf =>
    have hs := inv.shape live
    rw [appendOwn_eq live mint]
    exact .inl (.of_appended known (by rw [index_eq]; rfl) (hs.applied_commit.trans hs.commit_last)
      rfl rfl rfl rfl rfl rfl rfl rfl rfl)
  | overwrite live mint msg term role conflict =>
    have hs := inv.shape live
    obtain ⟨fits, run⟩ := conflict.fits hs.base_last
    rw [overwrite_eq live mint]
    refine .inl (.of_log rfl (by simp [role]) rfl le_rfl rfl (.of_eq rfl) ?_ (fun i hi => .inl ?_) rfl)
    · exact ((congrArg LogImage.base (LogStore.submitAppend_visible s.log _ _ _)).trans (LogImage.putAll_base _ _).1).ge
    · refine (congrArg (LogImage.get · i) (LogStore.submitAppend_visible s.log _ _ _)).trans ?_
      exact LogImage.get_putAll_lt fits run ((hi.trans hs.applied_commit).trans_lt conflict.uncommitted)
  | ackAppend | releaseAck | ackSnapshot | ackShortcut | flushShortcut | flushSnapshotGate | flushAppendGate =>
    exact .inl (acked (by simp))
  | appended =>
    unfold noteAppended
    split <;> exact same rfl rfl rfl rfl rfl rfl rfl rfl rfl
  | apply live running entry => exact .inr ⟨live, _, entry, rfl⟩
  | compacted live pending =>
    have hle := (inv.shape live).compacting _ _ pending
    unfold finishCompact LogStore.compact
    split
    · next hlt =>
      refine .inl (.of_compacted known hle hlt.1 rfl rfl rfl rfl rfl rfl rfl rfl ?_)
      exact Fifo.newest_concat
    · exact same rfl rfl rfl rfl rfl rfl rfl rfl rfl
  | @install id m snap leader fsm live role pending covers ahead foreign restored slot =>
    have hs := inv.shape live
    have hbase : (s.installBase fsm m).log.visible.base = m.lastIndex := congrArg LogImage.base Fifo.newest_concat
    refine .inl (.of_log rfl (by simp [role]) rfl (hs.applied_commit.trans ahead.le)
      (history.restore restored) (.of_eq rfl) ?_ (fun i hi => .inr ?_) rfl)
    · rw [hbase]
      exact (hs.base_applied.trans hs.applied_commit).trans ahead.le
    · rw [hbase]
      exact (hi.trans hs.applied_commit).trans ahead.le
  | retrack live role slot reached reported =>
    refine .inl (.of_log rfl (by rw [role]; simp) rfl le_rfl rfl ⟨_, rfl, fun e he i hi => ?_⟩ le_rfl
      (fun _ _ => .inl rfl) rfl)
    rcases reported with rfl | rfl
    · rw [List.mem_singleton.mp he] at hi
      exact absurd hi (by simp [Event.about])
    rcases List.mem_pair.mp he with rfl | rfl
    · exact absurd hi (by simp [Event.about])
    · rw [← Option.some.inj hi]
      exact reached
  | receive live msg term chunk =>
    obtain ⟨n, stable, hc, hst⟩ := chunk
    exact same (congrArg Core.config hst) (congrArg Core.role hst) (congrArg Core.term hst)
      (congrArg Core.leader hst) (congrArg Core.applied hst) (congrArg Core.fsm hst)
      (congrArg Core.passed hst)
      (by rw [show s'.log = s.log from congrArg Core.log hst]) (congrArg Core.events hst)
  | @farewell peer retry live role owed =>
    have hk := Sends.of_sendFarewell s peer retry.matched retry.idx
    exact same hk.config hk.role hk.term hk.leader hk.applied hk.fsm hk.passed (by rw [hk.log]) (events_sendFarewell _ _ _ _)
  | confirm => exact .inl ((Reported.confirmReads _).moved known)
  | leaseRead =>
    exact .inl (((Reported.reads _).trans (.emitOrReplyRead _ _ _)).moved known)
  | forward =>
    exact .inl (((Reported.reads _).trans (.send _ _)).moved known)
  | answered => exact .inl ((Reported.onReadIndexResponse _ _).moved known)
  | renewLease =>
    unfold Endpoint.renewLease
    simp only
    split <;> exact same rfl rfl rfl rfl rfl rfl rfl rfl rfl
  | _ => exact same rfl rfl rfl rfl rfl rfl rfl rfl rfl

/-! ## Applying an entry -/

theorem events_captureFarewells (idx : Index) (removed : List (I × Index)) (s : Endpoint I M) :
    (captureFarewells idx removed s).events = s.events :=
  captureFarewells_induct (R := fun s t => t.events = s.events) (fun _ => rfl) (fun h k => k.trans h)
    events_sendFarewell (fun _ _ => rfl) idx removed s

theorem stepDownIfRemoved_same (s : Endpoint I M) : s.stepDownIfRemoved.config = s.config ∧
    s.stepDownIfRemoved.poisonReason = s.poisonReason ∧ s.stepDownIfRemoved.outgoing = s.outgoing ∧
    s.stepDownIfRemoved.log = s.log ∧ s.stepDownIfRemoved.tracker = s.tracker := by
  unfold stepDownIfRemoved
  split
  · rw [setLeader_eq]
    exact ⟨rfl, rfl, rfl, rfl, rfl⟩
  · exact ⟨rfl, rfl, rfl, rfl, rfl⟩

theorem stepDownIfRemoved_events (s : Endpoint I M) : s.stepDownIfRemoved.fsm = s.fsm ∧
    ∃ l, s.stepDownIfRemoved.events = s.events ++ l ∧ (∀ x ∈ l, x.about = none) ∧
      (l = [] ∧ s.stepDownIfRemoved.role = s.role ∧ s.stepDownIfRemoved.leader = s.leader ∨
        s.stepDownIfRemoved.role ≠ .leader ∧ (s.leader ≠ none → l = [.leaderChanged s.term none])) := by
  unfold stepDownIfRemoved
  split
  · rw [setLeader_eq]
    by_cases hl : s.leader = none
    · refine ⟨rfl, [], ?_, by simp, .inr ⟨by simp [dropTransfer], fun h => absurd hl h⟩⟩
      rw [List.append_nil]
      exact if_pos hl
    · exact ⟨rfl, _, if_neg hl, by simp [Event.about], .inr ⟨by simp [dropTransfer], fun _ => rfl⟩⟩
  · exact ⟨rfl, [], by simp, by simp, .inl ⟨rfl, rfl, rfl⟩⟩

/-- A configuration change is reported, and then the end of a tenure. -/
theorem applyConfChange_events (known : s.Known) (idx : Index) (cc : ConfChangeV2 I)
    (live : (s.applyConfChange idx cc).poisoned = false) :
    (s.applyConfChange idx cc).fsm = s.fsm ∧ ∃ conf l,
      (s.applyConfChange idx cc).events = s.events ++ .confChanged idx conf :: l ∧
      (∀ x ∈ l, x.about = none) ∧
      (l = [] ∧ (s.applyConfChange idx cc).role = s.role ∧ (s.applyConfChange idx cc).leader = s.leader ∨
        (s.applyConfChange idx cc).role ≠ .leader ∧ (s.role = .leader → ∃ t n, l = [.leaderChanged t n])) := by
  unfold applyConfChange at live ⊢
  split
  · next h =>
    simp only [h] at live
    exact absurd live (by simp [poisoned_poison])
  next tracker h =>
  simp only [h] at live
  revert live
  extract_lets s₁ s₂ s₃ s₄
  intro live
  have h₁ : s₁.events = s.events ∧ Sends s s₁ := by
    unfold s₁
    split
    · exact ⟨events_captureFarewells _ _ _, .of_captureFarewells idx _ s⟩
    · exact ⟨rfl, .refl s⟩
  obtain ⟨he, hk⟩ := h₁
  -- what the last effect, the end of a transfer, leaves alone
  have last : ∀ t : Endpoint I M, (if t.transfer.leadTransferee.any fun x => !t.tracker.isVoter x
      then t.dropTransfer else t).fsm = t.fsm ∧
      (if t.transfer.leadTransferee.any fun x => !t.tracker.isVoter x then t.dropTransfer else t).events =
        t.events ∧
      (if t.transfer.leadTransferee.any fun x => !t.tracker.isVoter x then t.dropTransfer else t).role =
        t.role ∧
      (if t.transfer.leadTransferee.any fun x => !t.tracker.isVoter x then t.dropTransfer else t).leader =
        t.leader := fun t => by split <;> exact ⟨rfl, rfl, rfl, rfl⟩
  have adopts : ∀ (t : Endpoint I M) (ev : Event I M.Response),
      ((t.adoptTracker tracker).emit ev).fsm = t.fsm ∧ ((t.adoptTracker tracker).emit ev).role = t.role ∧
      ((t.adoptTracker tracker).emit ev).leader = t.leader ∧
      ((t.adoptTracker tracker).emit ev).events = t.events ++ [ev] := fun _ _ => ⟨rfl, rfl, rfl, rfl⟩
  split
  · next hp =>
    rw [if_pos hp] at live
    exact absurd (hp.symm.trans live) (by simp)
  obtain ⟨l₁, l₂, l₃, l₄⟩ := last s₄
  rw [l₁, l₂, l₃, l₄]
  have h₃ : s₃.fsm = s.fsm ∧ s₃.role = s.role ∧ s₃.leader = s.leader ∧
      s₃.events = s.events ++ [.confChanged idx s₂.tracker.confState] := by
    obtain ⟨a₁, a₂, a₃, a₄⟩ := adopts s₁ (.confChanged idx s₂.tracker.confState)
    exact ⟨a₁.trans hk.fsm, a₂.trans hk.role, a₃.trans hk.leader, a₄.trans (by rw [he])⟩
  clear_value s₃
  obtain ⟨hf, l, hl, hn, hr⟩ := stepDownIfRemoved_events s₃
  refine ⟨hf.trans h₃.1, s₂.tracker.confState, l, ?_, hn,
    hr.imp (fun h => ⟨h.1, h.2.1.trans h₃.2.1, h.2.2.trans h₃.2.2.1⟩) fun h => ⟨h.1, fun hs => ⟨_, _, h.2 ?_⟩⟩⟩
  · rw [hl, h₃.2.2.2]
    simp
  · rw [h₃.2.2.1, known hs]
    simp

/-- What applying an entry does, when it does not fail. -/
structure Applies (history : History M) (s : Endpoint I M) (e : Entry I) (s' : Endpoint I M) : Prop where
  config : s'.config = s.config
  term : s'.term = s.term
  log : s'.log = s.log
  known : s'.Known
  grows : s.passed <+: s'.passed
  result :
    (s'.applied = s.applied ∧ s'.role = s.role ∧ s'.events = s.events ∧
      history.of s'.fsm = history.of s.fsm) ∨
    (s'.applied = e.index ∧ e.index = next s.applied ∧ e.index ≤ s.commit ∧ e ∈ s'.passed ∧
      ((s'.role = s.role ∧ s'.events = s.events ∧ history.of s'.fsm = history.of s.fsm ∧
          e.kind = .empty) ∨
        (∃ data cmd r, e.kind = .normal data ∧ M.decodeCommand data = some cmd ∧ s'.role = s.role ∧
          s'.events = s.events ++ [.applied e.index r] ∧
          history.of s'.fsm = history.of s.fsm ++ [(e.index, cmd, r)]) ∨
        (∃ conf l, e.kind.isConfChange = true ∧ s'.events = s.events ++ .confChanged e.index conf :: l ∧
          history.of s'.fsm = history.of s.fsm ∧ (∀ x ∈ l, x.about = none) ∧
          (l = [] ∧ s'.role = s.role ∨ (s.role = .leader → ∃ t n, l = [.leaderChanged t n])))))

theorem applies_applyEntry (history : History M) {e : Entry I} (live : s.poisoned = false) (known : s.Known)
    (he : s.log.visible.get e.index = some e) (live' : (s.applyEntry e).poisoned = false) :
    Applies history s e (s.applyEntry e) := by
  have hk := Keeps.of_applyEntry live he
  have hk' : ∀ t : Endpoint I M, t.config = s.config → t.role = s.role → t.leader = s.leader →
      t.Known := fun t h₁ h₂ h₃ hr => by
    rw [h₃, h₁]
    exact known (h₂.symm.trans hr)
  have out := applyEntry_outcome s e
  generalize s.applyEntry e = t at out hk live' ⊢
  cases out with
  | dies => exact absurd live' (by simp [poisoned_poison])
  | refused kind dead => exact absurd (live'.symm.trans dead) (by decide)
  | normal at_ low kind decoded applied =>
    exact ⟨rfl, rfl, rfl, hk' _ rfl rfl rfl, List.prefix_append _ _, .inr ⟨rfl, at_, low,
      List.mem_append_right _ (List.mem_singleton_self e), .inr (.inl ⟨_, _, _, kind, decoded, rfl, rfl, history.apply applied⟩)⟩⟩
  | empty at_ low kind =>
    exact ⟨rfl, rfl, rfl, hk' _ rfl rfl rfl, List.prefix_append _ _, .inr ⟨rfl, at_, low,
      List.mem_append_right _ (List.mem_singleton_self e), .inl ⟨rfl, rfl, rfl, kind⟩⟩⟩
  | @changed cc at_ low kind alive =>
    obtain ⟨hf, conf, l, hev, hnone, hrole⟩ := applyConfChange_events known e.index cc alive
    have same := (applyConfChange_same s e.index cc).2.2.2.2
    refine ⟨hk.config, hk.term, hk.log, ?_, same ▸ List.prefix_append _ _, .inr ⟨rfl, at_, low,
      List.mem_append_right _ (List.mem_singleton_self e), .inr (.inr ⟨conf, l,
      by rw [kind]; rfl, hev, congrArg history.of hf, hnone, ?_⟩)⟩⟩
    · rcases hrole with ⟨-, hr, hl⟩ | ⟨hr, -⟩
      · exact hk' _ hk.config hr hl
      · exact fun h => absurd h hr
    · exact hrole.imp (fun h => ⟨h.1, h.2.1⟩) fun h => h.2
  | parks => exact ⟨rfl, rfl, rfl, hk' _ rfl rfl rfl, List.prefix_rfl, .inl ⟨rfl, rfl, rfl, rfl⟩⟩

/-- What an effect does: it applies one entry of the log, or nothing. -/
def Goes (history : History M) (s s' : Endpoint I M) : Prop :=
  Moved history s s' ∨ ∃ e, s.log.visible.get e.index = some e ∧ Applies history s e s'

theorem Step.goes (history : History M) (st : Step mono now inp s s') (inv : NodeInv mono s)
    (known : s.Known) (foreign : inp.foreign s.config.id) (live' : s'.poisoned = false) :
    Goes history s s' := by
  rcases st.moved history inv known foreign live' with m | ⟨live, e, he, rfl⟩
  · exact .inl m
  · exact .inr ⟨e, he, applies_applyEntry history live known he live'⟩

/-! ## What becomes of an entry -/

/-- Nothing beyond `applied` was applied. -/
def Bounded (history : History M) (s : Endpoint I M) : Prop :=
  ∀ x ∈ history.of s.fsm, x.1 ≤ s.applied

/-- The entry was applied as a command, once, and answered by `r`. -/
def Once (history : History M) (own : Entry I) (s : Endpoint I M) (r : M.Response) : Prop :=
  ∃ data cmd, own.kind = .normal data ∧ M.decodeCommand data = some cmd ∧
    (history.of s.fsm).filter (fun x => x.1 = own.index) = [(own.index, cmd, r)]

/-- The entry is applied, and in the log until it is compacted. -/
structure Kept (own : Entry I) (s : Endpoint I M) : Prop where
  reached : own.index ≤ s.applied
  held : s.log.visible.get own.index = some own ∨ own.index ≤ s.log.visible.base
  passed : own ∈ s.passed

/-- The event reports that the entry was applied. -/
def Outcome (history : History M) (own : Entry I) (s : Endpoint I M) : Event I M.Response → Prop
  | .applied i r => i = own.index ∧ Once history own s r
  | .confChanged i _ => i = own.index ∧ own.kind.isConfChange = true
  | _ => False

/-- The leader that appended the entry leads, and has not applied it. -/
structure Waiting (own : Entry I) (s : Endpoint I M) : Prop where
  role : s.role = .leader
  term : s.term = own.term
  ahead : s.applied < own.index
  held : s.log.visible.get own.index = some own
  undecided : s.events.find? (Event.decides own.index) = none
  asked : own.kind ≠ .empty

def Settled (history : History M) (own : Entry I) (s : Endpoint I M) : Prop :=
  Kept own s ∧ ∃ ev, s.events.find? (Event.decides own.index) = some ev ∧ Outcome history own s ev

/-- A change of leader comes before anything about the index. -/
def Doomed (own : Entry I) (s : Endpoint I M) : Prop :=
  ∃ t l, s.events.find? (Event.decides own.index) = some (.leaderChanged t l)

variable {own : Entry I}

omit [LinearOrder I] in
theorem find?_of_undecided {events news : List (Event I M.Response)} {i : Index}
    (h : events.find? (Event.decides i) = none) :
    (events ++ news).find? (Event.decides i) = news.find? (Event.decides i) := by
  rw [List.find?_append, h, Option.none_or]

omit [LinearOrder I] in
theorem find?_of_decided {events news : List (Event I M.Response)} {i : Index} {ev : Event I M.Response}
    (h : events.find? (Event.decides i) = some ev) :
    (events ++ news).find? (Event.decides i) = some ev := by
  rw [List.find?_append, h, Option.some_or]

omit [LinearOrder I] in
theorem Doomed.grow (h : Doomed own s) (told : Tells s s') : Doomed own s' := by
  obtain ⟨t, l, h⟩ := h
  obtain ⟨news, he, -⟩ := told
  exact ⟨t, l, by rw [he]; exact find?_of_decided h⟩

omit [LinearOrder I] in
/-- A change of leader dooms what was not decided. -/
theorem doomed_of_undecided {l : List (Event I M.Response)} {t : Term} {n : Option I}
    (h : s.events.find? (Event.decides own.index) = none)
    (hl : ∀ e ∈ l, e.decides own.index = false)
    (he : s'.events = s.events ++ (l ++ [.leaderChanged t n])) : Doomed own s' := by
  refine ⟨t, n, ?_⟩
  rw [he, find?_of_undecided h, List.find?_append, List.find?_eq_none.mpr (by simpa using hl)]
  rfl

theorem lt_next {i applied : Index} (small : i < u64Max) (h : i ≤ applied) : i < next applied := by
  unfold next
  split
  · exact Nat.lt_succ_of_le h
  · next hn => exact small.trans_le (not_lt.mp hn)

namespace Goes

omit [LinearOrder I] in
theorem kept (g : Goes history s s') (small : own.index < u64Max)
    (h : Kept own s) : Kept own s' ∧ ∀ r, Once history own s r → Once history own s' r := by
  rcases g with m | ⟨e, he, a⟩
  · refine ⟨⟨h.reached.trans m.applied, ?_, by rw [m.passed]; exact h.passed⟩, fun r => ?_⟩
    · rcases h.held with hg | hb
      · exact (m.kept _ h.reached).imp_left fun hk => hk.trans hg
      · exact .inr (hb.trans m.base)
    · unfold Once
      rw [m.history]
      exact id
  · refine ⟨⟨?_, by rw [a.log]; exact h.held, a.grows.subset h.passed⟩, ?_⟩
    · rcases a.result with ⟨ha, -⟩ | ⟨ha, hn, -⟩
      · rw [ha]
        exact h.reached
      · rw [ha, hn]
        exact (lt_next small h.reached).le
    · rintro r ⟨data, cmd, h₁, h₂, h₃⟩
      refine ⟨data, cmd, h₁, h₂, ?_⟩
      rcases a.result with ⟨-, -, -, hh⟩ | ⟨-, hn, -, -, ⟨-, -, hh, -⟩ | ⟨_, _, _, -, -, -, -, hh⟩ |
        ⟨_, _, -, -, hh, -, -⟩⟩
      · rw [hh]
        exact h₃
      · rw [hh]
        exact h₃
      · have hne : ¬ e.index = own.index := fun heq =>
          (lt_next small h.reached).ne (heq.symm.trans hn)
        rw [hh, List.filter_append, h₃]
        simp [hne]
      · rw [hh]
        exact h₃

omit [LinearOrder I] in
theorem known (g : Goes history s s') : s'.Known ∧ s'.config = s.config ∧ s.applied ≤ s'.applied ∧
      (Bounded history s → Bounded history s') ∧ Tells s s' := by
  rcases g with m | ⟨e, he, a⟩
  · refine ⟨m.known, m.config, m.applied, fun hb x hx => ?_, m.events⟩
    rw [m.history] at hx
    exact (hb x hx).trans m.applied
  have hle : s.applied ≤ s'.applied := by
    rcases a.result with ⟨ha, -⟩ | ⟨ha, hn, -⟩
    · exact ha.ge
    rw [ha, hn]
    unfold next
    split
    · exact Nat.le_succ _
    · exact le_rfl
  refine ⟨a.known, a.config, hle, fun hb x hx => ?_, ?_⟩
  · rcases a.result with ⟨-, -, -, hh⟩ | ⟨ha, -, -, -, ⟨-, -, hh, -⟩ | ⟨_, _, _, -, -, -, -, hh⟩ | ⟨_, _, -, -, hh, -, -⟩⟩
    · rw [hh] at hx
      exact (hb x hx).trans hle
    · rw [hh] at hx
      exact (hb x hx).trans hle
    · rw [hh] at hx
      rcases List.mem_append.mp hx with hx | hx
      · exact (hb x hx).trans hle
      · rw [List.mem_singleton.mp hx, ha]
    · rw [hh] at hx
      exact (hb x hx).trans hle
  · rcases a.result with ⟨-, -, hev, -⟩ | ⟨ha, -, -, -, ⟨-, hev, -, -⟩ | ⟨_, _, _, -, -, -, hev, -⟩ |
      ⟨_, l, -, hev, -, hnone, -⟩⟩
    · exact .of_eq hev
    · exact .of_eq hev
    · refine ⟨_, hev, fun x hx i hi => ?_⟩
      rw [List.mem_singleton.mp hx] at hi
      rw [ha, ← Option.some.inj hi]
    · refine ⟨_, hev, fun x hx i hi => ?_⟩
      rcases List.mem_cons.mp hx with rfl | hx
      · rw [ha, ← Option.some.inj hi]
      · rw [hnone x hx] at hi
        cases hi

omit [LinearOrder I] in
/-- A leader goes on waiting for its entry, or applies this very entry, or stops
leading first. -/
theorem phase (g : Goes history s s') (bounded : Bounded history s) (w : Waiting own s) :
    Waiting own s' ∨ Settled history own s' ∨ Doomed own s' := by
  rcases g with m | ⟨e, he, a⟩
  · rcases m.tenure w.role with ⟨t, l, hev⟩ | ⟨hr, ht, ha, ⟨news, hev, hn⟩, hl⟩
    · exact .inr (.inr (doomed_of_undecided (l := []) w.undecided (by simp) hev))
    · refine .inl ⟨hr, ht.trans w.term, ha ▸ w.ahead, hl _ _ w.ahead w.held, ?_, w.asked⟩
      rw [hev, find?_of_undecided w.undecided]
      exact List.find?_eq_none.mpr fun x hx => by simp [hn x hx own.index]
  · have held : s'.log.visible.get own.index = some own := by
      rw [a.log]
      exact w.held
    rcases a.result with ⟨ha, hr, hev, -⟩ | ⟨ha, hn, -, in_, hres⟩
    · exact .inl ⟨hr.trans w.role, a.term.trans w.term, ha ▸ w.ahead, held, by rw [hev]; exact w.undecided, w.asked⟩
    by_cases heq : e.index = own.index
    · -- it is the leader's own entry
      have hown : e = own := by
        rw [heq, w.held] at he
        exact (Option.some.inj he).symm
      subst hown
      have hkept : Kept e s' := ⟨ha.ge, .inl held, in_⟩
      rcases hres with ⟨-, hev, -, hk⟩ | ⟨data, cmd, r, hk, hd, -, hev, hh⟩ | ⟨conf, l, hk, hev, -, -, -⟩
      · exact absurd hk w.asked
      · refine .inr (.inl ⟨hkept, .applied e.index r, ?_, rfl, data, cmd, hk, hd, ?_⟩)
        · rw [hev, find?_of_undecided w.undecided]
          simp [Event.decides]
        · rw [hh, List.filter_append, List.filter_eq_nil_iff.mpr fun x hx => ?_]
          · simp
          · simpa using ((bounded x hx).trans_lt w.ahead).ne
      · refine .inr (.inl ⟨hkept, .confChanged e.index conf, ?_, rfl, hk⟩)
        rw [hev, find?_of_undecided w.undecided]
        simp [Event.decides]
    · have hlt : e.index < own.index := by
        refine lt_of_le_of_ne ?_ heq
        rw [hn]
        unfold next
        split
        · exact w.ahead
        · exact w.ahead.le
      have wait : ∀ {news : List (Event I M.Response)}, s'.role = s.role → s'.events = s.events ++ news →
          (∀ x ∈ news, x.decides own.index = false) → Waiting own s' := fun hr hev hnews =>
        ⟨hr.trans w.role, a.term.trans w.term, ha ▸ hlt, held, by
          rw [hev, find?_of_undecided w.undecided]
          exact List.find?_eq_none.mpr fun x hx => by simp [hnews x hx], w.asked⟩
      rcases hres with ⟨hr, hev, -, -⟩ | ⟨data, cmd, r, -, -, hr, hev, -⟩ | ⟨conf, l, -, hev, -, -, hl⟩
      · exact .inl (wait hr (hev.trans (List.append_nil _).symm) (by simp))
      · exact .inl (wait hr hev (by simp [Event.decides, heq]))
      rcases hl with ⟨rfl, hr⟩ | hl
      · exact .inl (wait hr hev (by simp [Event.decides, heq]))
      obtain ⟨t, n, rfl⟩ := hl w.role
      exact .inr (.inr (doomed_of_undecided (l := [.confChanged e.index conf]) w.undecided
        (by simp [Event.decides, heq]) hev))

end Goes

/-! ## Runs -/

/-- A node as its driver has it from its start on. -/
structure Sound (history : History M) (s : Endpoint I M) : Prop where
  known : s.Known
  bounded : Bounded history s
  told : ∀ e ∈ s.events, ∀ i, e.about = some i → i ≤ s.applied

/-- What becomes of the entry from `s` to `s'`. -/
structure Tracks (history : History M) (own : Entry I) (s s' : Endpoint I M) : Prop where
  waiting : Waiting own s ∨ Settled history own s →
    (Waiting own s' ∨ Settled history own s') ∨ Doomed own s'
  doomed : Doomed own s → Doomed own s'
  kept : Kept own s → Kept own s' ∧ ∀ r, Once history own s r → Once history own s' r

omit [LinearOrder I] in
theorem Tracks.refl (s : Endpoint I M) : Tracks history own s s := ⟨Or.inl, id, fun h => ⟨h, fun _ => id⟩⟩

omit [LinearOrder I] in
theorem Tracks.trans (h : Tracks history own s s') (k : Tracks history own s' s'') : Tracks history own s s'' := by
  refine ⟨fun w => ?_, fun d => k.doomed (h.doomed d), fun hk => ?_⟩
  · rcases h.waiting w with w | d
    · exact k.waiting w
    · exact .inr (k.doomed d)
  · obtain ⟨hk₁, ho₁⟩ := h.kept hk
    obtain ⟨hk₂, ho₂⟩ := k.kept hk₁
    exact ⟨hk₂, fun r hr => ho₂ r (ho₁ r hr)⟩

omit [LinearOrder I] in
theorem Goes.sound (g : Goes history s s') (h : Sound history s) : Sound history s' := by
  obtain ⟨known, -, applied, bounded, news, hev, hn⟩ := g.known
  refine ⟨known, bounded h.bounded, fun e he i hi => ?_⟩
  rw [hev] at he
  rcases List.mem_append.mp he with he | he
  · exact (h.told e he i hi).trans applied
  · exact hn e he i hi

omit [LinearOrder I] in
theorem Goes.tracks (g : Goes history s s') (h : Sound history s) (small : own.index < u64Max) :
    Tracks history own s s' := by
  obtain ⟨-, -, -, -, told⟩ := g.known
  refine ⟨fun w => ?_, fun d => d.grow told, g.kept small⟩
  rcases w with w | ⟨hk, ev, hev, ho⟩
  · rcases g.phase h.bounded w with h | h | h
    · exact .inl (.inl h)
    · exact .inl (.inr h)
    · exact .inr h
  · -- what is decided stays decided
    obtain ⟨hk', once⟩ := g.kept small hk
    obtain ⟨news, he, -⟩ := told
    refine .inl (.inr ⟨hk', ev, by rw [he]; exact find?_of_decided hev, ?_⟩)
    cases ev with
    | applied i r => exact ⟨ho.1, once r ho.2⟩
    | confChanged => exact ho
    | _ => exact ho.elim

theorem Step.live (st : Step mono now inp s s') (live' : s'.poisoned = false) : s.poisoned = false := by
  cases hp : s.poisoned with
  | false => rfl
  | true => exact absurd (st.dead hp).1 (by simp [live'])

theorem Does.live {brings : Input I → Prop} (h : Does mono now brings s s')
    (live' : s'.poisoned = false) : s.poisoned = false := by
  induction h with
  | refl => exact live'
  | tail _ st ih =>
    obtain ⟨_, _, st⟩ := st
    exact ih (st.live live')

theorem Does.tracks {brings : Input I → Prop} (h : Does mono now brings s s') (inv : NodeInv mono s)
    (foreign : ∀ inp, brings inp → inp.foreign s.config.id) (sound : Sound history s)
    (small : own.index < u64Max) (live' : s'.poisoned = false) :
    s'.config = s.config ∧ Sound history s' ∧ Tracks history own s s' := by
  induction h with
  | refl => exact ⟨rfl, sound, .refl s⟩
  | tail hd st ih =>
    obtain ⟨inp, hi, st⟩ := st
    obtain ⟨hc, hs, ht⟩ := ih (st.live live')
    have g : Goes history _ _ := st.goes history (Does.inv hd inv) hs.known (by
      rw [hc]
      exact foreign inp hi) live'
    exact ⟨g.known.2.1.trans hc, g.sound hs, ht.trans (g.tracks hs small)⟩

theorem exec_tracks {c : Call I M} (inv : NodeInv False s) (sub : s.Submitted)
    (hc : ∀ now sender m, c = .message now sender m → sender ≠ s.config.id)
    (poll : c ≠ .pollEvent) (crash : ∀ now rng bootEpoch prior, c ≠ .crash now rng bootEpoch prior)
    (sound : s.poisoned = false → Sound history s) (small : own.index < u64Max)
    (live' : (s.exec c).poisoned = false) :
    s.poisoned = false ∧ (s.exec c).config = s.config ∧ Sound history (s.exec c) ∧ Tracks history own s (s.exec c) := by
  by_cases hp : c.isPublic = true
  · have hd := (does_exec hp inv sub False.elim).1
    have live : s.poisoned = false := Does.live hd live'
    refine ⟨live, Does.tracks hd inv (fun inp hi => ?_) (sound live) small live'⟩
    cases c with
    | message now sender m =>
      rw [show inp = .message sender m from hi]
      exact hc now sender m rfl
    | storage =>
      rcases hi with rfl | rfl <;> trivial
    | timeout now | transfer now dest | propose cmd | proposeConf cc | readIndex now context | flush now
    | failStopQueryPanicked =>
      rw [show inp = _ from hi]
      trivial
    | _ => exact absurd hp (by simp [Call.isPublic])
  · have same : ∀ {t : Endpoint I M}, t.poisoned = false → t.poisonReason = s.poisonReason →
        t.config = s.config → t.role = s.role → t.term = s.term → t.leader = s.leader →
        t.applied = s.applied → t.fsm = s.fsm → t.passed = s.passed → t.log.visible = s.log.visible →
        t.events = s.events →
        s.poisoned = false ∧ t.config = s.config ∧ Sound history t ∧ Tracks history own s t := by
      intro t ht hr h₁ h₂ h₃ h₄ h₅ h₆ h₇ h₈ h₉
      have live : s.poisoned = false := (congrArg Option.isSome hr).symm.trans ht
      have g : Goes history s t := .inl (.of_eq (sound live).known h₁ h₂ h₃ h₄ h₅ h₆ h₇ h₈ h₉)
      exact ⟨live, h₁, g.sound (sound live), g.tracks (sound live) small⟩
    cases c with
    | pollMessage =>
      obtain ⟨out, he, -⟩ := pollMessage_outgoing (s := s)
      have he : s.exec .pollMessage = _ := he
      rw [he] at live' ⊢
      exact same live' rfl rfl rfl rfl rfl rfl rfl rfl rfl rfl
    | pollEvent => exact absurd rfl poll
    | crash now rng bootEpoch prior => exact absurd rfl (crash now rng bootEpoch prior)
    | syncLog => exact same live' rfl rfl rfl rfl rfl rfl rfl rfl (LogStore.visible_sync _) rfl
    | surfaceLog i =>
      refine same live' rfl rfl rfl rfl rfl rfl rfl rfl ?_ rfl
      show (s.log.surface i).visible = s.log.visible
      unfold LogStore.visible
      rw [(surfaceLog_staged _ i).1, (surfaceLog_staged _ i).2]
    | _ =>
      first
      | exact same live' rfl rfl rfl rfl rfl rfl rfl rfl rfl rfl
      | exact absurd rfl hp

end Endpoint

end Sailing
