import Sailing.Calls.Electing

/-!
# Heartbeats and appends, as steps

What a follower does with a heartbeat or an append of its leader, and what a
leader does with the answers.
-/

namespace Sailing.Endpoint

variable {I : Type} [LinearOrder I] {M : StateMachine}
variable {mono : Prop} {now : Instant} {inp : Input I} {s s' : Endpoint I M}

/-! ## Heartbeats -/

theorem followLeader_frame (s : Endpoint I M) (now : Instant) (l : I) : (s.followLeader now l).role = .follower ∧
    (s.followLeader now l).term = s.term ∧ (s.followLeader now l).leader = some l ∧
    (s.followLeader now l).log = s.log ∧ (s.followLeader now l).config = s.config ∧
    (s.followLeader now l).poisoned = s.poisoned ∧
    ∃ d, (s.followLeader now l).electionDeadline = some d ∧ now + s.config.electionTimeout ≤ d := by
  unfold followLeader
  rw [setLeader_eq]
  exact ⟨rfl, rfl, rfl, rfl, rfl, rfl, _, rfl, Nat.add_le_add_left (le_randomElectionTimeout _ _) _⟩

/-- A promise is made when the floor is below it, and reported when it is
durable. -/
theorem steps_supportLease (live : s.poisoned = false) : ∃ d,
    s.supportLease.2 = { s with durable := d } ∧ Steps mono now inp s s.supportLease.2 ∧
    (s.supportLease.1 = 0 ∨ s.supportLease.1 = s.config.electionTimeout ∧
      optLt d.durableLeaseSupport (some s.config.electionTimeout) = false) := by
  unfold supportLease
  split
  · next henf =>
    by_cases hraise : optLt s.durable.leaseSupportFloor (some s.config.electionTimeout) = true
    · simp only [hraise, if_true]
      refine ⟨_, rfl, .single (.support live henf hraise), ?_⟩
      split
      · exact .inl rfl
      · next h => exact .inr ⟨rfl, Bool.eq_false_iff.mpr h⟩
    · simp only [hraise, Bool.false_eq_true, if_false]
      refine ⟨_, rfl, .refl, ?_⟩
      split
      · exact .inl rfl
      · next h => exact .inr ⟨rfl, Bool.eq_false_iff.mpr h⟩
  · exact ⟨_, rfl, .refl, .inl rfl⟩

theorem steps_onHeartbeat {hb : Heartbeat I} (inv : NodeInv mono s) (live : s.poisoned = false)
    (msg : inp = .message hb.leader (.heartbeat hb)) (term : hb.term = s.term) :
    Steps mono now inp s (s.onHeartbeat now hb) := by
  unfold onHeartbeat
  extract_lets s₁ s₂
  have h₁ : Steps mono now inp s s₁ := .single (.follow live msg rfl rfl term)
  obtain ⟨role₁, term₁, leader₁, log₁, config₁, -, d, deadline₁, late⟩ := followLeader_frame s now hb.leader
  have h₂ : Ran mono now inp s₁ s₂ := by
    refine Ran.commitTo ?_ fun live hlt => .commitHeartbeat live msg (term.trans term₁.symm) hlt
    rw [log₁]
    exact inv.contiguous
  split
  · exact h₁.trans h₂.steps
  next hp =>
  have live₂ : s₂.poisoned = false := by simpa using hp
  have role₂ := h₂.keeps.role_follower role₁
  obtain ⟨leader₂, deadline₂⟩ := h₂.keeps.follower role₁
  have term₂ : s₂.term = s.term := h₂.keeps.term.trans term₁
  have config₂ : s₂.config = s.config := h₂.keeps.config.trans config₁
  rw [leader₁] at leader₂
  rw [deadline₁] at deadline₂
  refine (h₁.trans h₂.steps).trans ?_
  clear_value s₂
  obtain ⟨d₃, he, h₃, hs⟩ : ∃ d, _ = _ ∧ Steps mono now inp s₂ s₂.supportLease.2 ∧ _ := steps_supportLease live₂
  generalize s₂.supportLease = p at he h₃ hs
  obtain ⟨support, s₃⟩ := p
  simp only at he
  subst he
  refine h₃.trans (.single (.send live₂ ?_))
  refine ⟨rfl, rfl, role₂, leader₂, ⟨d, deadline₂, ?_⟩, ⟨hb.leader, hb, msg, ?_, rfl, rfl, rfl⟩, hs⟩
  · show now + s₂.config.electionTimeout ≤ d
    rw [config₂]
    exact late
  · exact term.trans term₂.symm

theorem Sent.resendIfDue (lead : s.Leads) (peer : I) : Sent mono now inp s (s.resendIfDue now peer).2 := by
  unfold Endpoint.resendIfDue
  split
  · split
    · unfold resendSnapshot
      extract_lets offset
      have h : Sent mono now inp s (s.sendSnapshotChunk peer offset).2 := Sent.sendSnapshotChunk lead peer offset
      generalize s.sendSnapshotChunk peer offset = p at h
      obtain ⟨c, s₁⟩ := p
      cases c with
      | sent => exact h.trans (Sent.setResendAfter ..)
      | deferred => exact h
      | unsendable => exact h
      | poisoned => exact h
    · exact Sent.refl s
  · exact Sent.setResendAfter ..

variable {r : AppendResponse I} {sender : I} {ae : AppendEntries I} {lastNew : Index} {e : Entry I}
    {es : List (Entry I)}

theorem Sent.onHeartbeatResponse {r : HeartbeatResponse I}
    (msg : inp = .message sender (.heartbeatResponse r)) (term : r.term = s.term)
    (from_ : r.sender = sender) : Sent mono now inp s (s.onHeartbeatResponse now sender r) := by
  unfold Endpoint.onHeartbeatResponse
  split
  · exact Sent.refl s
  next role =>
  have role : s.role = .leader := by simpa using role
  extract_lets s₁ s₂ s₃
  have h₁ : Sent mono now inp s s₁ := Sent.of_live (Sends.of_renewLease s sender r) fun live =>
    .single (.renewLease live role msg term from_)
  have h₂ : Sent mono now inp s s₂ := h₁.trans (Sent.modifyProgress (fun p =>
    matchIndex_freeInflightOnHeartbeat p.clearProbePause) fun p _ =>
    (Progress.Turn.mark false p.recentActive).path.trans (Progress.Turn.freed p.clearProbePause).path)
  have lead₂ : s₂.Leads := .inl (h₂.sends.role.trans role)
  have h₃ : Sent mono now inp s s₃ := by
    unfold s₃
    split
    · exact h₂.trans (Sent.pumpAppends lead₂ sender)
    · exact h₂
  clear_value s₃
  have lead₃ : s₃.Leads := .inl (h₃.sends.role.trans role)
  split
  · exact h₃
  have h₄ : Sent mono now inp s (s₃.resendIfDue now sender).2 := h₃.trans (Sent.resendIfDue lead₃ sender)
  generalize s₃.resendIfDue now sender = p at h₄
  obtain ⟨_ | _, s₄⟩ := p
  · exact h₄
  simp only at h₄ ⊢
  split
  · exact h₄
  · exact h₄.trans (Sent.ackRead (h₄.sends.role.trans role) msg (term.trans h₄.sends.term.symm) from_)

/-! ## Appends at a follower -/

omit [LinearOrder I] in
theorem Matches.of_log (hl : s'.log = s.log) (h : s.Matches ae lastNew) : s'.Matches ae lastNew := by
  obtain ⟨hp, hr, he⟩ := h
  refine ⟨?_, hr, ?_⟩
  · unfold PrevOk
    rw [hl]
    exact hp
  · unfold EntriesOk
    rw [hl]
    exact he

omit [LinearOrder I] in
theorem prevMatches_cases {b : Bool} (h : s.prevMatches ae = (b, s')) :
    s' = s.poison .logTerm ∨ (s' = s ∧ (b = true → s.PrevOk ae)) := by
  unfold prevMatches at h
  split at h
  · next hp =>
    simp only [Prod.mk.injEq] at h
    refine .inr ⟨h.2.symm, fun _ => ?_⟩
    rcases hp with hp | hp
    · exact .inl hp
    · exact .inr (.inl hp)
  · split at h
    · next hle =>
      split at h
      · next h' =>
        obtain ⟨rfl, ht⟩ := logTerm_some h'
        simp only [Prod.mk.injEq] at h
        refine .inr ⟨h.2.symm, fun hb => .inr (.inr ⟨hle, ?_⟩)⟩
        rw [hb] at h
        exact ht.trans (by simpa using h.1)
      · next h' =>
        simp only [Prod.mk.injEq] at h
        exact .inl (h.2.symm.trans (logTerm_none h'))
    · simp only [Prod.mk.injEq] at h
      exact .inr ⟨h.2.symm, fun hb => absurd (h.1.trans hb) (by simp)⟩

/-- The log holds everything before `rest`, and not its first entry. -/
def HoldsUpTo (s : Endpoint I M) (entries rest : List (Entry I)) : Prop :=
  ∃ pre, entries = pre ++ rest ∧ s.EntriesOk pre ∧ ∀ e es, rest = e :: es →
    s.log.firstIndex ≤ e.index ∧
    (e.index ≤ s.log.lastIndex → s.log.visible.term e.index ≠ e.term)

omit [LinearOrder I] in
theorem HoldsUpTo.cons {entries rest : List (Entry I)} (he : e.index < s.log.firstIndex ∨
      (e.index ≤ s.log.lastIndex ∧ s.log.visible.term e.index = e.term))
    (h : s.HoldsUpTo entries rest) : s.HoldsUpTo (e :: entries) rest := by
  obtain ⟨pre, rfl, hok, hrest⟩ := h
  refine ⟨e :: pre, rfl, fun a ha => ?_, hrest⟩
  rcases List.mem_cons.mp ha with rfl | ha
  · exact he
  · exact hok a ha

omit [LinearOrder I] in
theorem HoldsUpTo.here (first : s.log.firstIndex ≤ e.index)
    (differs : e.index ≤ s.log.lastIndex → s.log.visible.term e.index ≠ e.term) :
    s.HoldsUpTo (e :: es) (e :: es) := by
  refine ⟨[], rfl, by simp [EntriesOk], fun a as ha => ?_⟩
  obtain ⟨rfl, rfl⟩ := List.cons.inj ha
  exact ⟨first, differs⟩

omit [LinearOrder I] in
theorem conflictSuffix_cases (entries : List (Entry I)) {suffix : Option (List (Entry I))}
    (h : conflictSuffix entries s = (suffix, s')) :
    (suffix = none ∧ s' = s.poison .logTerm) ∨ (s' = s ∧ ∃ rest, suffix = some rest ∧ s.HoldsUpTo entries rest) := by
  induction entries with
  | nil =>
    simp only [conflictSuffix, Prod.mk.injEq] at h
    exact .inr ⟨h.2.symm, [], h.1.symm, [], rfl, by simp [EntriesOk], by simp⟩
  | cons e es ih =>
    unfold conflictSuffix at h
    split at h
    · next hlt =>
      exact (ih h).imp_right fun ⟨hs, rest, hr, hu⟩ => ⟨hs, rest, hr, hu.cons (.inl hlt)⟩
    next hfirst =>
    replace hfirst := not_lt.mp hfirst
    split at h
    · next hle =>
      split at h
      · next h' =>
        simp only [Prod.mk.injEq] at h
        exact .inl ⟨h.1.symm, h.2.symm.trans (logTerm_none h')⟩
      next t s₁ h' =>
      obtain ⟨hs, ht⟩ := logTerm_some h'
      rw [hs] at h
      split at h
      · next heq =>
        exact (ih h).imp_right fun ⟨hs, rest, hr, hu⟩ =>
          ⟨hs, rest, hr, hu.cons (.inr ⟨hle, ht.trans heq⟩)⟩
      next hne =>
      simp only [Prod.mk.injEq] at h
      exact .inr ⟨h.2.symm, _, h.1.symm, .here hfirst fun _ => by rw [ht]; exact hne⟩
    · next hgt =>
      simp only [Prod.mk.injEq] at h
      exact .inr ⟨h.2.symm, _, h.1.symm, .here hfirst fun hle => absurd hle hgt⟩

omit [LinearOrder I] in
theorem Run.lt_of_mem {first : Index} {pre rest : List (Entry I)} {a : Entry I}
    (h : LogImage.Run first (pre ++ rest)) (ha : a ∈ pre) : a.index < first + pre.length := by
  induction pre generalizing first with
  | nil => exact absurd ha (by simp)
  | cons p pre ih =>
    obtain ⟨rfl, hr⟩ := h
    rw [List.length_cons]
    rcases List.mem_cons.mp ha with rfl | ha
    · lia
    · have := ih hr ha
      lia

/-- After the overwrite the log agrees with the whole append. -/
theorem Conflicts.matches (h : s.Conflicts ae e es) (hb : s.log.visible.base ≤ s.log.visible.lastIndex)
    (run : lastContiguous ae.prevLogIndex ae.entries = some lastNew)
    (hv : s'.log.visible = s.log.visible.putAll (e :: es)) : s'.Matches ae lastNew := by
  obtain ⟨fits, hrun⟩ := h.fits hb
  obtain ⟨pre, hsp, hok⟩ := h.split
  have hall : LogImage.Run (ae.prevLogIndex + 1) (pre ++ e :: es) := hsp ▸ run_of_lastContiguous run
  have hidx := (Run.append_right hall).2.1
  have hfirst : s'.log.firstIndex = s.log.firstIndex := by
    unfold LogStore.firstIndex LogImage.firstIndex
    rw [hv, (LogImage.putAll_base _ _).1]
  have hlast : e.index ≤ s'.log.lastIndex := by
    have hg := LogImage.get_putAll fits hrun e List.mem_cons_self
    have := (LogImage.isSome_get.mp (Option.isSome_iff_exists.mpr ⟨e, hg⟩)).2
    unfold LogStore.lastIndex
    rwa [hv]
  -- below the overwritten entry nothing changed
  have hterm : ∀ i < e.index, s'.log.visible.term i = s.log.visible.term i := fun i hi => by
    rw [hv]
    exact LogImage.term_putAll_lt fits hrun hi
  refine ⟨?_, run, fun a ha => ?_⟩
  · rcases h.prev with hp | hp | hp
    · exact .inl hp
    · exact .inr (.inl (hfirst ▸ hp))
    · have hlt : ae.prevLogIndex < e.index := by lia
      exact .inr (.inr ⟨(hlt.trans_le hlast).le, (hterm _ hlt).trans hp.2⟩)
  · rw [hsp] at ha
    rcases List.mem_append.mp ha with ha | ha
    · rcases hok a ha with hp | hp
      · exact .inl (hfirst ▸ hp)
      · have hlt : a.index < e.index := by
          rw [hidx]
          exact Run.lt_of_mem hall ha
        exact .inr ⟨(hlt.trans_le hlast).le, (hterm _ hlt).trans hp.2⟩
    · have hg := LogImage.get_putAll fits hrun a ha
      obtain ⟨hba, hla⟩ := LogImage.isSome_get.mp (Option.isSome_iff_exists.mpr ⟨a, hg⟩)
      refine .inr ⟨?_, ?_⟩
      · unfold LogStore.lastIndex
        rwa [hv]
      · rw [hv, LogImage.term_of_base_lt hba, hg]
        rfl

omit [LinearOrder I] in
theorem overwrite_spent (mint : ¬ s.Mintable) (first : Index) (suffix : List (Entry I)) : (s.overwrite first suffix).2 =
      ((s.scrubAcksAbove (first - 1)).cutDurable first).poison .opIdExhausted := by
  unfold overwrite
  simp only
  rw [mintOpId_spent (s := (s.scrubAcksAbove (first - 1)).cutDurable first) mint]
  simp [submitAppend]

theorem steps_overwrite (spent : s.poisoned = true → ¬ s.Mintable) (msg : inp = .message sender (.appendEntries ae))
    (term : ae.term = s.term) (role : s.role = .follower) (conflict : s.Conflicts ae e es) :
    Steps mono now inp s (s.overwrite e.index (e :: es)).2 := by
  by_cases mint : s.Mintable
  · have live : s.poisoned = false := by
      by_contra hp
      exact spent (by simpa using hp) mint
    exact .single (.overwrite live mint msg term role conflict)
  · rw [overwrite_spent mint]
    exact .single (.junk (poisoned_poison _) rfl rfl rfl rfl List.filter_sublist
      (fun hr => ⟨hr, rfl⟩) rfl fun hp => poisonReason_poison (s := s) hp _)

omit [LinearOrder I] in
/-- What an overwrite leaves as it was; and a node that survives it had an id
for it. -/
theorem overwrite_frame (e : Entry I) (es : List (Entry I)) : (s.overwrite e.index (e :: es)).2.term = s.term ∧
    (s.overwrite e.index (e :: es)).2.role = s.role ∧
    (s.overwrite e.index (e :: es)).2.commit = s.commit ∧
    ((s.overwrite e.index (e :: es)).2.poisoned = false →
      (s.overwrite e.index (e :: es)).2.log.visible = s.log.visible.putAll (e :: es)) := by
  by_cases mint : s.Mintable
  · unfold overwrite
    simp only
    rw [mintOpId_eq (s := (s.scrubAcksAbove (e.index - 1)).cutDurable e.index) mint]
    simp only
    unfold submitAppend
    split
    · next hp => exact ⟨rfl, rfl, rfl, fun live => absurd (live.symm.trans hp) (by simp)⟩
    · exact ⟨rfl, rfl, rfl, fun _ => LogStore.submitAppend_visible ..⟩
  · rw [overwrite_spent mint]
    exact ⟨rfl, rfl, rfl, fun live => absurd live (by simp)⟩

theorem steps_finishAppend {appended : Option OpId} (inv : NodeInv mono s)
    (msg : inp = .message sender (.appendEntries ae)) (term : ae.term = s.term)
    (role : s.role = .follower) (agrees : s.poisoned = false → s.Matches ae lastNew) :
    Steps mono now inp s (s.finishAppend ae lastNew appended) := by
  unfold finishAppend
  extract_lets s₁
  have h₁ : Ran mono now inp s s₁ := Ran.commitTo inv.contiguous fun live hlt =>
    .commitAppend live msg term (agrees live) hlt
  clear_value s₁
  split
  · exact h₁.steps
  next hp =>
  have live₁ : s₁.poisoned = false := by simpa using hp
  have agrees₁ : s₁.Matches ae lastNew := (agrees (h₁.keeps.live live₁)).of_log h₁.keeps.log
  have term₁ := term.trans h₁.keeps.term.symm
  split
  · exact h₁.steps.tail (.pushAck live₁ msg term₁ (h₁.keeps.role_follower role) agrees₁)
  · exact h₁.steps.tail (.ackAppend live₁ msg term₁ agrees₁)

theorem steps_acceptAppend (inv : NodeInv mono s)
    (live : s.poisoned = false) (msg : inp = .message sender (.appendEntries ae))
    (term : ae.term = s.term) (role : s.role = .follower) (prev : s.PrevOk ae) :
    Steps mono now inp s (s.acceptAppend ae) := by
  unfold acceptAppend
  split
  · exact .single (.die _)
  next lastNew run =>
  split
  · next h =>
    rcases conflictSuffix_cases _ h with ⟨-, he⟩ | ⟨-, _, hn, -⟩
    · rw [he]
      exact .single (.die _)
    · cases hn
  · next h =>
    rcases conflictSuffix_cases _ h with ⟨hn, -⟩ | ⟨he, rest, hr, pre, hsp, hok, -⟩
    · cases hn
    obtain rfl := Option.some.inj hr
    rw [he]
    refine steps_finishAppend inv msg term role fun _ => ⟨prev, run, ?_⟩
    rwa [hsp, List.append_nil]
  · next e es s₁ h =>
    rcases conflictSuffix_cases _ h with ⟨hn, -⟩ | ⟨he, rest, hr, pre, hsp, hok, hfirst⟩
    · cases hn
    obtain rfl := Option.some.inj hr
    obtain ⟨first, differs⟩ := hfirst e es rfl
    rw [he]
    split
    · exact .single (.die _)
    next hcommit =>
    have h₂ : Steps mono now inp s s.ensureTermDurable := steps_ensureTermDurable
    have w₂ : Writes s s.ensureTermDurable := ensureTermDurable_writes
    generalize s.ensureTermDurable = s₂ at h₂ w₂
    have conflict : s₂.Conflicts ae e es := by
      obtain ⟨_, _, _, _, rfl⟩ := w₂.rest
      exact ⟨prev, ⟨_, run⟩, ⟨pre, hsp, hok⟩, first, differs, not_le.mp hcommit⟩
    have f₂ : s₂.term = s.term ∧ s₂.role = s.role ∧ s₂.log = s.log := by
      obtain ⟨_, _, _, _, rfl⟩ := w₂.rest
      exact ⟨rfl, rfl, rfl⟩
    have h₃ : Steps mono now inp s (s₂.overwrite e.index (e :: es)).2 := h₂.trans
      (steps_overwrite (w₂.spent live) msg (term.trans f₂.1.symm) (f₂.2.1.trans role) conflict)
    obtain ⟨term₃, role₃, -, visible₃⟩ := overwrite_frame (s := s₂) e es
    have hb : s₂.log.visible.base ≤ s₂.log.visible.lastIndex := by
      rw [f₂.2.2]
      exact (inv.shape live).base_last
    generalize s₂.overwrite e.index (e :: es) = p at h₃ term₃ role₃ visible₃
    obtain ⟨id, s₃⟩ := p
    exact h₃.trans (steps_finishAppend (Steps.inv h₃ inv) msg
      (term.trans (term₃.trans f₂.1).symm) (role₃.trans (f₂.2.1.trans role)) fun live₃ =>
        conflict.matches hb run (visible₃ live₃))

theorem steps_rejectAppend : Steps mono now inp s (s.rejectAppend ae) := by
  unfold rejectAppend
  have h : Sent mono now inp s (Endpoint.findConflictByTerm ae.prevLogTerm conflictWalkBudget s
      (min ae.prevLogIndex s.log.lastIndex)).2 := Sent.findConflictByTerm ..
  generalize Endpoint.findConflictByTerm ae.prevLogTerm conflictWalkBudget s
    (min ae.prevLogIndex s.log.lastIndex) = p at h
  obtain ⟨_ | hint, s₁⟩ := p
  · exact h.steps
  simp only
  split
  · next h' =>
    rw [logTerm_none h']
    exact h.steps.tail (.die _)
  next h' =>
  obtain ⟨he, -⟩ := logTerm_some h'
  rw [he]
  refine (h.trans (Sent.send rfl fun _ => ?_)).steps
  exact ⟨rfl, rfl, rfl⟩

theorem steps_onAppendEntries (inv : NodeInv mono s)
    (live : s.poisoned = false) (msg : inp = .message ae.leader (.appendEntries ae))
    (term : ae.term = s.term) : Steps mono now inp s (s.onAppendEntries now ae) := by
  have h₁ : Steps mono now inp s (s.followLeader now ae.leader) := .single (.follow live msg rfl rfl term)
  obtain ⟨role₁, term₁, -, -, -, live₁, -⟩ := followLeader_frame s now ae.leader
  have inv₁ := Steps.inv h₁ inv
  unfold onAppendEntries
  generalize s.followLeader now ae.leader = s₁ at h₁ role₁ term₁ live₁ inv₁
  split
  next consistent s₂ h =>
  rcases prevMatches_cases h with he | ⟨he, hprev⟩
  · rw [he]
    simpa using h₁.tail (.die _)
  rw [he]
  split
  · exact h₁
  split
  · next hc =>
    exact h₁.trans (steps_acceptAppend inv₁ (live₁.trans live) msg (term.trans term₁.symm) role₁ (hprev hc))
  · exact h₁.trans steps_rejectAppend

/-! ## Answers at the leader -/

omit [LinearOrder I] in
theorem tracker_findConflictByTerm (term : Term) (budget : Nat) (index : Index) :
    (findConflictByTerm term budget s index).2.tracker = s.tracker := by
  induction budget generalizing s index with
  | zero => rfl
  | succ budget ih =>
    unfold findConflictByTerm
    split
    · rfl
    split
    · next h =>
      rw [logTerm_none h]
      rfl
    next h =>
    obtain ⟨rfl, -⟩ := logTerm_some h
    split
    · rfl
    · exact ih _

/-- Only a rejection that does not say what it rejects takes the probe below the match. -/
theorem Sent.onAppendReject (lead : s.Leads) {pr : Progress} (hpr : s.tracker.progress sender = some pr)
    (names : inp.Rewinds ∨ r.rejectedIndex ≠ 0 ∨ pr.matchIndex = 0) :
    Sent mono now inp s (s.onAppendReject now sender pr r) := by
  unfold Endpoint.onAppendReject
  split
  · exact Sent.refl s
  split
  · exact Sent.refl s
  have h : Sent mono now inp s (Endpoint.findConflictByTerm r.rejectHintTerm conflictWalkBudget s
      (min r.rejectHintIndex s.log.lastIndex)).2 := Sent.findConflictByTerm ..
  have ht := tracker_findConflictByTerm r.rejectHintTerm conflictWalkBudget (min r.rejectHintIndex s.log.lastIndex) (s := s)
  generalize Endpoint.findConflictByTerm r.rejectHintTerm conflictWalkBudget s
    (min r.rejectHintIndex s.log.lastIndex) = p at h ht
  obtain ⟨_ | conflict, s₁⟩ := p
  · exact h
  simp only at h ht ⊢
  have above : inp.Rewinds ∨ pr.matchIndex < max (min (pr.nextIndex - 1) (conflict + 1))
      (if r.rejectedIndex ≠ 0 then pr.matchIndex + 1 else 1) := by
    refine names.imp_right fun named => lt_max_of_lt_right ?_
    split
    · exact Nat.lt_succ_self _
    next zero =>
    rw [named.resolve_left zero]
    exact Nat.one_pos
  generalize max (min (pr.nextIndex - 1) (conflict + 1)) _ = safeNext at above
  have flow : s₁.tracker.Moves False inp.Rewinds s₁.log.visible.Contiguous s₁.stable.visible.slot
      (s₁.tracker.modifyProgress sender fun p => p.becomeProbe.setNextIndex safeNext) := by
    refine Tracker.Moves.modifyProgress fun p hp => ?_
    rw [ht] at hp
    obtain rfl := Option.some.inj (hp.symm.trans hpr)
    exact (Progress.Turn.reprobe safeNext above).path
  have h₂ : Sent mono now inp s { s₁ with
      tracker := s₁.tracker.modifyProgress sender fun p =>
        p.becomeProbe.setNextIndex safeNext } :=
    h.trans (Sent.idle (core_modifyProgress fun _ => rfl) flow)
  exact h₂.trans (Sent.maybeSendAppend (h₂.leads lead) sender)

/-- What an acknowledgement makes of the progress of its sender. -/
def acknowledged (n : Index) (p : Progress) : Progress :=
  if (p.maybeUpdate n).2 ∧ p.state = .probe then (p.maybeUpdate n).1.becomeReplicate
  else (p.maybeUpdate n).1

theorem matchIndex_acknowledged (n : Index) (p : Progress) : (acknowledged n p).matchIndex = max p.matchIndex n := by
  unfold acknowledged
  split <;> exact matchIndex_maybeUpdate p n

theorem path_acknowledged (n : Index) (p : Progress) : Progress.Path False True 0 p (acknowledged n p) := by
  unfold acknowledged
  split
  · exact (Progress.Turn.update p n).path.trans (Progress.Turn.replicate _).path
  · exact (Progress.Turn.update p n).path

theorem modifyProgress_const {t : Tracker I} {id : I} {p : Progress} {f : Progress → Progress}
    (h : t.progress id = some p) : t.modifyProgress id (fun _ => f p) = t.modifyProgress id f := by
  simp [Tracker.modifyProgress, h]

theorem steps_onAppendAck {pr : Progress} (inv : NodeInv mono s) (live : s.poisoned = false) (role : s.role = .leader)
    (msg : inp = .message sender (.appendResponse r)) (term : r.term = s.term)
    (from_ : r.sender = sender) (ok : r.reject = false)
    (hpr : s.tracker.progress sender = some pr) :
    Steps mono now inp s (s.onAppendAck now sender pr r) := by
  unfold onAppendAck
  split
  · exact .refl
  next hle =>
  have h₁ : Steps mono now inp s { s with
      tracker := s.tracker.modifyProgress sender (acknowledged r.matchIndex) } :=
    .single (.matchPeer live role msg (.inl rfl) term from_ ok (not_lt.mp hle)
      (matchIndex_acknowledged r.matchIndex) (path_acknowledged r.matchIndex))
  rcases hu : pr.maybeUpdate r.matchIndex with ⟨pr', moved⟩
  have ha : acknowledged r.matchIndex pr = if moved ∧ pr.state = .probe then pr'.becomeReplicate else pr' := by
    simp only [acknowledged, hu]
  rw [← modifyProgress_const hpr, ha] at h₁
  dsimp -zeta only
  extract_lets pr'' s₁ s₂ s₃
  replace h₁ : Steps mono now inp s s₁ := h₁
  split
  · have h₂ : Ran mono now inp s₁ s₂ := Ran.onProgress role inv.contiguous
    have lead : s₂.Leads := h₂.keeps.leads (.inl role)
    replace h₁ := h₁.trans h₂.steps
    split
    · exact h₁
    have h₃ : Sent mono now inp s₂ s₃ := by
      have hf : Sent mono now inp s₂ (s₂.maybeFlushDeferredReads now) := Sent.maybeFlushDeferredReads
      exact hf.trans (Sent.pumpAppends (hf.leads lead) sender)
    clear_value s₃
    split
    · exact h₁.trans h₃.steps
    · exact h₁.trans (h₃.trans (Sent.maybeHandOffToTransferee (h₃.leads lead) sender)).steps
  · exact h₁

theorem steps_onAppendResponse (inv : NodeInv mono s)
    (msg : inp = .message sender (.appendResponse r)) (term : r.term = s.term)
    (from_ : r.sender = sender) : Steps mono now inp s (s.onAppendResponse now sender r) := by
  unfold onAppendResponse
  split
  · exact .refl
  next hgo =>
  simp only [not_or, Bool.not_eq_true, ne_eq, not_not] at hgo
  split
  · exact .refl
  next pr hpr =>
  split
  · next hr =>
    have names : inp.Rewinds ∨ r.rejectedIndex ≠ 0 ∨ pr.matchIndex = 0 := by
      by_cases zero : r.rejectedIndex = 0
      · exact .inl ⟨sender, r, msg, hr, zero⟩
      · exact .inr (.inl zero)
    exact (Sent.onAppendReject (.inl hgo.2) hpr names).steps
  · next hr =>
    exact steps_onAppendAck inv hgo.1 hgo.2 msg term from_ (by simpa using hr) hpr

end Sailing.Endpoint
