import Sailing.Model.Merge
import Sailing.Model.Tape
import Sailing.Run.Tenure

/-!
# Commit and apply only move forward

Six places write the commit index. `Justified` says what each of them knows when it
raises it, and `Parks` what an effect does to a parked merge; both are read off the
list of effects. That neither index goes back and that no committed entry changes is
read off the coverage steps.
-/

namespace Sailing

variable {I : Type} [LinearOrder I] {M : StateMachine}

/-! ## What is committed stays -/

/-- Nothing committed is lost or changed, except that it may be compacted. -/
structure Cover.Forward (c c' : Cover I) : Prop where
  commit : c.commit ≤ c'.commit
  applied : c.applied ≤ c'.applied
  base : c.visible.base ≤ c'.visible.base
  entries : ∀ i ≤ c.commit, c'.visible.base < i → c'.visible.get i = c.visible.get i

namespace Cover.Forward

variable {c c' c'' : Cover I}

omit [LinearOrder I] in
theorem refl (c : Cover I) : c.Forward c := ⟨le_rfl, le_rfl, le_rfl, fun _ _ _ => rfl⟩

omit [LinearOrder I] in
theorem trans (h : c.Forward c') (k : c'.Forward c'') : c.Forward c'' where
  commit := h.commit.trans k.commit
  applied := h.applied.trans k.applied
  base := h.base.trans k.base
  entries i hi above := (k.entries i (hi.trans h.commit) above).trans (h.entries i hi (k.base.trans_lt above))

omit [LinearOrder I] in
theorem of_eq (commit : c'.commit = c.commit) (applied : c'.applied = c.applied)
    (visible : c'.visible = c.visible) : c.Forward c' :=
  ⟨commit.ge, applied.ge, by rw [visible], fun _ _ _ => by rw [visible]⟩

end Cover.Forward

omit [LinearOrder I] in
theorem Cover.Forward.of_putAll {c c' : Cover I} {first : Index} {es : List (Entry I)}
    (commit : c'.commit = c.commit) (applied : c'.applied = c.applied) (visible : c'.visible = c.visible.putAll es)
    (fits : c.visible.Fits first) (run : LogImage.Run first es) (above : c.commit < first) : c.Forward c' where
  commit := commit.ge
  applied := applied.ge
  base := by rw [visible, (LogImage.putAll_base _ _).1]
  entries i hi _ := by
    rw [visible]
    exact LogImage.get_putAll_lt fits run (hi.trans_lt above)

theorem CoverStep.forward {mono : Prop} {c c' : Cover I} (st : CoverStep mono c c') (h : Shape c) : c.Forward c' := by
  cases st with
  | commit higher => exact ⟨higher, le_rfl, le_rfl, fun _ _ _ => rfl⟩
  | apply higher => exact ⟨le_rfl, higher, le_rfl, fun _ _ _ => rfl⟩
  | @own e pre mint index untagged images =>
    have fits : c.visible.Fits e.index := ⟨index ▸ Nat.lt_succ_of_le h.base_last, index.le⟩
    refine .of_putAll rfl rfl (Cover.visible_append e [] pre) fits ⟨rfl, trivial⟩ ?_
    exact index ▸ Nat.lt_succ_of_le h.commit_last
  | @overwrite e es pre a g l mint role fits run uncommitted untagged images scrubbed capped =>
    refine .of_putAll rfl rfl ?_ fits run uncommitted
    exact Cover.visible_append (c := { c.cut e.index with acks := a, gates := g, pendingLog := l }) e es pre
  | @compacted n applied covers above =>
    have visible := c.visible_compactTo n
    refine ⟨le_rfl, le_rfl, ?_, fun i hi hb => ?_⟩
    · rw [visible]
      exact above.le
    · rw [visible] at hb ⊢
      exact LogImage.get_compact above.le hb
  | @install n t acks gates covers ahead scrubbed capped =>
    have visible := c.visible_installAt n t acks gates
    refine ⟨ahead.le, h.applied_commit.trans ahead.le, ?_, fun i hi hb => ?_⟩
    · rw [visible]
      exact (h.base_applied.trans h.applied_commit).trans ahead.le
    · rw [visible] at hb
      exact absurd (hi.trans ahead.le) (not_le.mpr hb)
  | _ => exact .of_eq rfl rfl rfl

/-! ## Who raises the commit index -/

namespace Endpoint

variable {mono : Prop} {now : Instant} {inp : Input I} {s s' s'' : Endpoint I M}

/-- What an effect knows when it raises the commit index. -/
inductive Justified (inp : Input I) (s s' : Endpoint I M) : Prop where
  | same (commit : s'.commit = s.commit)
  /-- The leader counts: the entry is of its own term. -/
  | counted (role : s.role = .leader) (quorum : s'.commit = s.tracker.quorumCommitted)
      (own : s.log.visible.term s'.commit = s.term) (log : s'.log = s.log) (term : s'.term = s.term)
  /-- The leader of the term says so. -/
  | heartbeat {sender : I} {hb : Heartbeat I} (msg : inp = .message sender (.heartbeat hb))
      (term : hb.term = s.term) (told : s'.commit ≤ hb.commit)
  | append {sender : I} {ae : AppendEntries I} (msg : inp = .message sender (.appendEntries ae))
      (term : ae.term = s.term) (told : s'.commit ≤ ae.leaderCommit)
  /-- The log holds the boundary of a snapshot already. -/
  | redundant {m : SnapshotMeta I} (offered : s.Offered inp m) (commit : s'.commit = m.lastIndex)
      (boundary : s.log.visible.term m.lastIndex = m.lastTerm)
  /-- The log starts anew behind a snapshot. -/
  | installed {m : SnapshotMeta I} {blob : Bytes} (slot : s.stable.durable.snapshot = some (m, blob))
      (commit : s'.commit = m.lastIndex) (base : s'.log.visible.base = m.lastIndex)

/-- What an effect does to a parked merge. -/
inductive Parks (s s' : Endpoint I M) : Prop where
  | same (parked : s'.pendingApply = s.pendingApply) (applied : s'.applied = s.applied)
  | none (none : s'.pendingApply = none)
  | parked {k : Index} (parked : s'.pendingApply = some k) (applied : s.applied ≤ k) (commit : k ≤ s.commit)
      (same : s'.applied = s.applied)

/-- The indices, the machine and the tracker stand still. -/
structure Still (s s' : Endpoint I M) : Prop where
  commit : s'.commit = s.commit
  pending : s'.pendingApply = s.pendingApply
  applied : s'.applied = s.applied
  fsm : s'.fsm = s.fsm
  tracker : s'.tracker = s.tracker
  passed : s'.passed = s.passed

omit [LinearOrder I] in
theorem Reported.still (h : Reported s s') : Still s s' := by
  obtain ⟨o, r, n, rfl, -⟩ := h
  exact ⟨rfl, rfl, rfl, rfl, rfl, rfl⟩

/-- Applying an entry does not raise the commit index, and parks at most at the entry. -/
theorem commit_parks_applyEntry {e : Entry I} (running : s.pendingApply = none) :
    (s.applyEntry e).commit = s.commit ∧ Parks s (s.applyEntry e) := by
  refine ⟨applyEntry_commit s e, ?_⟩
  have out := applyEntry_outcome s e
  generalize s.applyEntry e = t at out ⊢
  cases out with
  | refused | changed => exact .none ((applyConfChange_same s _ _).2.2.2.1.trans running)
  | parks at_ low => exact .parked rfl (at_ ▸ le_next _) low rfl
  | _ => exact .none running

/-- A parked merge is committed and not applied. -/
def Parked (s : Endpoint I M) : Prop := ∀ k, s.pendingApply = some k → s.applied ≤ k ∧ k ≤ s.commit

omit [LinearOrder I] in
theorem Parked.of_none (h : s.pendingApply = none) : s.Parked := fun k hk => by
  rw [h] at hk
  cases hk

omit [LinearOrder I] in
theorem Parks.keeps (h : Parks s s') (parked : s.Parked) (commit : s.commit ≤ s'.commit) : s'.Parked := by
  intro k hk
  cases h with
  | same same applied =>
    obtain ⟨h₁, h₂⟩ := parked k (same.symm.trans hk)
    exact ⟨applied.le.trans h₁, h₂.trans commit⟩
  | none none => exact absurd (hk.symm.trans none) (by simp)
  | parked at_ applied low same =>
    obtain rfl := Option.some.inj (hk.symm.trans at_)
    exact ⟨same.le.trans applied, low.trans commit⟩

/-- The commit index stays, and what the apply loop parks at is committed. -/
def Drains (s s' : Endpoint I M) : Prop := s'.commit = s.commit ∧ (s.Parked → s'.Parked)

omit [LinearOrder I] in
theorem Drains.refl (s : Endpoint I M) : Drains s s := ⟨rfl, id⟩

omit [LinearOrder I] in
theorem Drains.trans (h : Drains s s') (k : Drains s' s'') : Drains s s'' := ⟨k.1.trans h.1, k.2 ∘ h.2⟩

theorem drains_applyEntry {e : Entry I} (running : s.pendingApply = none) : Drains s (s.applyEntry e) := by
  obtain ⟨commit, parks⟩ := commit_parks_applyEntry (e := e) running
  exact ⟨commit, fun parked => parks.keeps parked commit.ge⟩

theorem drains_applyBatch (batch : List (Entry I)) (running : s.pendingApply = none) :
    Drains s (s.applyBatch batch) := by
  induction batch generalizing s with
  | nil => exact .refl s
  | cons e es ih =>
    have step : Drains s (s.applyEntry e) := drains_applyEntry running
    unfold applyBatch
    simp only
    split
    · exact step
    next go =>
    simp only [not_or, Bool.not_eq_true, Option.isSome_eq_false_iff, Option.isNone_iff_eq_none] at go
    exact step.trans (ih go.2)

theorem drains_applyLoop (start : Index) (fuel : Nat) (running : s.pendingApply = none) :
    Drains s (applyLoop start fuel s).2 := by
  induction fuel generalizing s with
  | zero => exact .refl s
  | succ fuel ih =>
    unfold applyLoop
    split
    · split
      · exact ⟨rfl, id⟩
      · exact .refl s
      · exact .refl s
      · next batch _ _ =>
        have step : Drains s (s.applyBatch batch) := drains_applyBatch batch running
        simp only
        split
        · exact step
        next go =>
        split
        · exact step
        · exact step.trans (ih (by simpa using go))
    · exact .refl s

theorem drains_applyCommitted : Drains s s.applyCommitted.2 := by
  unfold applyCommitted
  split
  · exact .refl s
  split
  · exact .refl s
  · next go => exact drains_applyLoop _ _ (by simpa using go)

theorem drains_replay (fuel : Nat) : Drains s (replay fuel s) := by
  induction fuel generalizing s with
  | zero => exact .refl s
  | succ fuel ih =>
    have step : Drains s s.applyCommitted.2 := drains_applyCommitted
    unfold replay
    cases h : s.applyCommitted with
    | mk drain =>
      rw [h] at step
      cases drain <;> first | exact step | exact step.trans ih

theorem parked_boot (running : s.pendingApply = none) (now : Instant) : (s.boot now).Parked := by
  have floor : ∀ t : Endpoint I M, t.Parked → t.persistLeaseFloor.Parked := by
    intro t ht
    unfold persistLeaseFloor mintOpId submitWrite
    simp only
    split
    · split <;> split <;> exact ht
    · exact ht
  have replayed : (if s.poisoned then s else replay (s.commit - s.applied + 1) s).Parked := by
    split
    · exact .of_none running
    · exact (drains_replay _).2 (.of_none running)
  exact floor _ replayed

theorem parked_restart (config : Config I) (now : Instant) (rng : Nat → Nat) (fsm : M.State) (bootEpoch : Nat)
    (assumePrior : Option Duration) (log : LogStore I) (stable : StableStore I) :
    (restart config now rng fsm bootEpoch assumePrior log stable : Endpoint I M).Parked := by
  unfold restart
  simp only
  split
  · exact parked_boot rfl now
  · split <;> exact parked_boot rfl now

/-- What an effect feeds the machine: nothing, the entry it applies, or a snapshot. -/
inductive Feeds (s s' : Endpoint I M) : Prop where
  | quiet (fsm : s'.fsm = s.fsm) (applied : s'.applied = s.applied)
      (parked : s'.pendingApply = s.pendingApply)
  | entry {e : Entry I} (running : s.pendingApply = none) (held : s.log.visible.get e.index = some e)
      (applies : s' = s.applyEntry e)
  | installed {snap : M.Snapshot} (restored : M.restore s.fsm snap = some s'.fsm)
      (base : s'.applied = s'.log.visible.base) (none : s'.pendingApply = none)

theorem Feeds.parks (h : Feeds s s') : Parks s s' := by
  cases h with
  | quiet fsm applied parked => exact .same parked applied
  | entry running held applies =>
    rw [applies]
    exact (commit_parks_applyEntry running).2
  | installed restored base none => exact .none none

omit [LinearOrder I] in
theorem sendFarewell_live {peer : I} {matched idx : Index} (live : (s.sendFarewell peer matched idx).poisoned = false) :
    ∃ out, s.sendFarewell peer matched idx = { s with outgoing := out } := by
  have outcome := sendFarewell_outcome s peer matched idx
  generalize s.sendFarewell peer matched idx = t at outcome live ⊢
  cases outcome with
  | still => exact ⟨s.outgoing, rfl⟩
  | dies => exact absurd live (by simp [poisoned_poison])
  | append | heartbeat => exact ⟨_, send_eq _ _⟩

/-- A new leader starts from fresh records; its own is at the end of its log. -/
theorem moves_resetLeader (s : Endpoint I M) (now : Instant) {adds : Prop} (back counted : Prop) (slot : Index) (allowed : adds) :
    s.tracker.Moves adds back counted slot (s.resetLeader now).tracker := by
  have reset : s.tracker.Moves adds back counted slot ((s.tracker.resetProgress (next s.log.lastIndex) s.config.maxInflightMsgs
      s.config.maxInflightBytes).modifyProgress s.config.id fun p => (p.maybeUpdate s.log.lastIndex).1) :=
    (Tracker.Moves.of_fresh allowed (Tracker.fresh_resetProgress _ _ _ _)).trans
      (.modifyProgress fun p _ => (Progress.Turn.update p _).path)
  unfold resetLeader
  rw [setLeader_eq]
  simp only
  split
  · exact reset.trans (.modifyProgress fun p _ => (Progress.Turn.mark p.msgAppFlowPaused true).path)
  · exact reset

/-- What an effect does to the indices, the machine and the tracker. -/
inductive Acts (inp : Input I) (s s' : Endpoint I M) : Prop where
  | keeps (commit : s'.commit = s.commit) (pending : s'.pendingApply = s.pendingApply)
      (applied : s'.applied = s.applied) (fsm : s'.fsm = s.fsm)
      (flow : s.tracker.Moves (s.role ≠ .leader) inp.Rewinds s.log.visible.Contiguous s.stable.visible.slot
        s'.tracker)
      (passed : s'.passed = s.passed)
  | commits (justified : Justified inp s s') (pending : s'.pendingApply = s.pendingApply)
      (applied : s'.applied = s.applied) (fsm : s'.fsm = s.fsm) (tracker : s'.tracker = s.tracker)
      (passed : s'.passed = s.passed)
  | applies {e : Entry I} (running : s.pendingApply = none) (held : s.log.visible.get e.index = some e)
      (eq : s' = s.applyEntry e)
  | installs {snap : M.Snapshot} (justified : Justified inp s s') (restored : M.restore s.fsm snap = some s'.fsm)
      (base : s'.applied = s'.log.visible.base) (none : s'.pendingApply = none) (tracker : s'.tracker = s.tracker)
      (passed : s'.passed = s.passed)

/-- The effects are gone through once; what follows reads `Acts`. -/
theorem Step.acts (st : Step mono now inp s s') (live' : s'.poisoned = false) : Acts inp s s' := by
  have same : ∀ {t : Endpoint I M}, Still s t → Acts inp s t := fun h =>
    .keeps h.commit h.pending h.applied h.fsm (Tracker.Moves.of_progress (congrArg Tracker.progress h.tracker))
      h.passed
  have acked : ∀ {t : Endpoint I M}, Acks s t → Acts inp s t := fun h => by
    obtain ⟨l, a, b, c, out, rfl⟩ := h.eq
    exact same ⟨rfl, rfl, rfl, rfl, rfl, rfl⟩
  cases st with
  | idle hc flow =>
    exact .keeps (congrArg Core.commit hc) (congrArg Core.pendingApply hc) (congrArg Core.applied hc)
      (congrArg Core.fsm hc) (flow.weaken False.elim id id le_rfl) (congrArg Core.passed hc)
  | die => exact absurd live' (by simp [poisoned_poison])
  | junk dead => exact absurd live' (by simp [dead])
  | adopt | follow | preCampaign | stepDown | retire =>
    simp only [adoptTerm, followLeader, startPreCampaign, stepDownToFollower]
    rw [setLeader_eq]
    exact same ⟨rfl, rfl, rfl, rfl, rfl, rfl⟩
  | campaign live mint | cast live mint | write live mint | appendOwn live mint | overwrite live mint
  | rewrite live mint | beginInstall live mint | capture live mint =>
    simp only [startCampaign_eq live mint, castVote_eq live mint, submitHardState_eq live mint, mintWrite_eq live mint,
      appendOwn_eq live mint, overwrite_eq live mint, submitSnapshot_eq live mint, Endpoint.capture]
    exact same ⟨rfl, rfl, rfl, rfl, rfl, rfl⟩
  | lead live role =>
    have moves := moves_resetLeader s now inp.Rewinds s.log.visible.Contiguous s.stable.visible.slot
      (show s.role ≠ .leader by simp [role])
    revert moves
    unfold resetLeader
    rw [setLeader_eq]
    simp only
    split <;> exact fun moves => .keeps rfl rfl rfl rfl moves rfl
  | send =>
    rw [send_eq]
    exact same ⟨rfl, rfl, rfl, rfl, rfl, rfl⟩
  | ackAppend | releaseAck | ackSnapshot | ackShortcut | flushShortcut | flushSnapshotGate | flushAppendGate =>
    exact acked (by simp)
  | appended =>
    unfold noteAppended
    split <;> exact same ⟨rfl, rfl, rfl, rfl, rfl, rfl⟩
  | matchOwn =>
    exact .keeps rfl rfl rfl rfl (.modifyProgress fun p _ => (Progress.Turn.update p _).path) rfl
  | matchPeer live role msg ack term from_ ok within raises flow =>
    exact .keeps rfl rfl rfl rfl
      (.modifyProgress fun p _ => (flow p).weaken False.elim (fun _ => trivial) (Nat.zero_le _)) rfl
  | commitQuorum live role higher own => exact .commits (.counted role rfl own rfl rfl) rfl rfl rfl rfl rfl
  | commitHeartbeat live msg term => exact .commits (.heartbeat msg term (min_le_left _ _)) rfl rfl rfl rfl rfl
  | commitAppend live msg term => exact .commits (.append msg term (min_le_left _ _)) rfl rfl rfl rfl rfl
  | commitShortcut live offered higher held boundary =>
    exact .commits (.redundant offered rfl boundary) rfl rfl rfl rfl rfl
  | apply live running entry => exact .applies running entry rfl
  | compacted =>
    unfold finishCompact LogStore.compact
    split <;> exact same ⟨rfl, rfl, rfl, rfl, rfl, rfl⟩
  | @install id m snap leader fsm live role pending covers ahead foreign restored slot =>
    obtain ⟨blob, slot⟩ := slot
    have base : (s.installBase fsm m).log.visible.base = m.lastIndex := congrArg LogImage.base Fifo.newest_concat
    exact .installs (.installed slot rfl base) restored base.symm rfl rfl rfl
  | retrack live role =>
    exact .keeps rfl rfl rfl rfl (.of_fresh (by simp [role]) (Tracker.fresh_fromConfState _ _ _ _)) rfl
  | receive live msg term chunk flow =>
    obtain ⟨n, stable, hc, hst⟩ := chunk
    exact same ⟨congrArg Core.commit hst, congrArg Core.pendingApply hst, congrArg Core.applied hst,
      congrArg Core.fsm hst, flow, congrArg Core.passed hst⟩
  | farewell =>
    obtain ⟨out, eq⟩ := sendFarewell_live live'
    rw [eq]
    exact same ⟨rfl, rfl, rfl, rfl, rfl, rfl⟩
  | confirm => exact same (Reported.confirmReads _).still
  | leaseRead =>
    exact same ((Reported.reads _).trans (.emitOrReplyRead _ _ _)).still
  | forward => exact same ((Reported.reads _).trans (.send _ _)).still
  | answered => exact same (Reported.onReadIndexResponse _ _).still
  | renewLease =>
    unfold Endpoint.renewLease
    simp only
    split <;> exact same ⟨rfl, rfl, rfl, rfl, rfl, rfl⟩
  | _ => exact same ⟨rfl, rfl, rfl, rfl, rfl, rfl⟩

theorem Step.justified (st : Step mono now inp s s') (live' : s'.poisoned = false) :
    Justified inp s s' ∧ Feeds s s' := by
  cases st.acts live' with
  | keeps commit pending applied fsm => exact ⟨.same commit, .quiet fsm applied pending⟩
  | commits justified pending applied fsm => exact ⟨justified, .quiet fsm applied pending⟩
  | applies running held eq =>
    refine ⟨.same ?_, .entry running held eq⟩
    rw [eq]
    exact (commit_parks_applyEntry running).1
  | installs justified restored base none => exact ⟨justified, .installed restored base none⟩

/-! ## Whole calls -/

theorem Step.onward (st : Step mono now inp s s') (inv : NodeInv mono s) (live' : s'.poisoned = false) :
    s.cover.Forward s'.cover := by
  have live := st.live live'
  rcases st.coverStep inv.ballots (inv.votes live) inv.log (inv.shape live) with h | ⟨dead, -⟩
  · exact h.forward (inv.shape live)
  · exact absurd live' (by simp [dead])

theorem Step.parked (st : Step mono now inp s s') (inv : NodeInv mono s) (parked : s.Parked)
    (live' : s'.poisoned = false) : s'.Parked :=
  (st.justified live').2.parks.keeps parked (st.onward inv live').commit

theorem Does.forward {brings : Input I → Prop} (h : Does mono now brings s s') (inv : NodeInv mono s)
    (parked : s.Parked) (live' : s'.poisoned = false) : s.cover.Forward s'.cover ∧ s'.Parked := by
  induction h with
  | refl => exact ⟨.refl _, parked⟩
  | tail hd st ih =>
    obtain ⟨inp, hi, st⟩ := st
    obtain ⟨forward, parked⟩ := ih (st.live live')
    have inv := Does.inv hd inv
    exact ⟨forward.trans (st.onward inv live'), st.parked inv parked live'⟩

theorem Does.raised {brings : Input I → Prop} (h : Does mono now brings s s') (inv : NodeInv mono s)
    (live' : s'.poisoned = false) (higher : s.commit < s'.commit) :
    ∃ a b inp, brings inp ∧ Does mono now brings s a ∧ Does mono now brings b s' ∧ Justified inp a b ∧
      a.commit < b.commit ∧ b.commit = s'.commit := by
  induction h with
  | refl => exact absurd higher (lt_irrefl _)
  | @tail m s' hd st ih =>
    have step := st
    obtain ⟨inp, hi, st⟩ := st
    have mono : m.commit ≤ s'.commit := (st.onward (Does.inv hd inv) live').commit
    rcases mono.lt_or_eq with hlt | heq
    · exact ⟨m, s', inp, hi, hd, .refl, (st.justified live').1, hlt, rfl⟩
    · obtain ⟨a, b, inp, hi, before, after, just, hab, hb⟩ := ih (st.live live') (heq ▸ higher)
      exact ⟨a, b, inp, hi, before, after.tail step, just, hab, hb.trans heq⟩

/-- A write of the commit index, the applied index or the parked merge. -/
theorem NodeInv.of_cover (inv : NodeInv mono s) (ballots : s'.ballots = s.ballots) (log : s'.log = s.log)
    (id : s'.nextOpId = s.nextOpId) (poisoned : s'.poisoned = s.poisoned)
    (step : s.poisoned = false → CoverStep mono s.cover s'.cover) : NodeInv mono s' := by
  refine ⟨by rw [ballots]; exact inv.ballots, cover_stored_of_same log id inv.log, fun hl => ?_, fun hl => ?_,
    fun hm hl => ?_⟩
  all_goals have live : s.poisoned = false := poisoned.symm.trans hl
  · rw [ballots]
    exact inv.votes live
  · exact (step live).shape inv.log (inv.shape live)
  · exact (step live).covered hm inv.log (inv.shape live) (inv.covered hm live)

/-! ## A snapshot in the place of a parked merge -/

section

variable {m : SnapshotMeta I} {is : InstallSnapshot I} {sender : I} {walked : Option Index}

/-- The snapshot `m` covers the parked merge of `s` and the machine moves to its boundary. -/
structure Adopts (m : SnapshotMeta I) (s s' : Endpoint I M) : Prop where
  live : s.poisoned = false
  role : s.role = .follower
  park : ∃ k, s.pendingApply = some k ∧ k ≤ m.lastIndex
  known : m.lastIndex ≤ s.commit
  united : ∃ snap fsm, M.restore s.fsm snap = some fsm ∧
    s' = { s with pendingApply := none, fsm := fsm, applied := m.lastIndex }.retrack m

namespace Adopts

/-- Besides the machine and what is applied only the tracker and the reports change. -/
theorem eq (h : Adopts m s s') : ∃ fsm news farewells, s' = { s with
    pendingApply := none
    fsm := fsm
    applied := m.lastIndex
    events := news
    pendingFarewells := farewells
    tracker := Tracker.fromConfState m.conf m.lastIndex s.config.maxInflightMsgs s.config.maxInflightBytes } := by
  obtain ⟨snap, fsm, -, rfl⟩ := h.united
  obtain ⟨news, eq, -⟩ := retrack_eq { s with pendingApply := none, fsm := fsm, applied := m.lastIndex } m
  exact ⟨fsm, _, _, eq⟩

theorem coverStep (h : Adopts m s s') (parked : s.Parked) : CoverStep mono s.cover s'.cover := by
  obtain ⟨k, at_, below⟩ := h.park
  obtain ⟨fsm, news, farewells, rfl⟩ := h.eq
  exact .apply ((parked k at_).1.trans below) h.known (.inl rfl)

theorem inv (h : Adopts m s s') (parked : s.Parked) (inv : NodeInv mono s) : NodeInv mono s' := by
  have step : CoverStep mono s.cover s'.cover := h.coverStep parked
  obtain ⟨fsm, news, farewells, rfl⟩ := h.eq
  exact inv.of_cover rfl rfl rfl rfl fun _ => step

theorem parked (h : Adopts m s s') : s'.Parked := by
  obtain ⟨fsm, news, farewells, rfl⟩ := h.eq
  exact .of_none rfl

end Adopts

/-- The effects of a message, which may take a snapshot for a parked merge on the way. -/
def Unites (now : Instant) (inp : Input I) (m : SnapshotMeta I) (s s' : Endpoint I M) : Prop :=
  Steps False now inp s s' ∨ ∃ a b, Steps False now inp s a ∧ Adopts m a b ∧ Steps False now inp b s'

theorem Unites.head (first : Steps False now inp s s') (h : Unites now inp m s' s'') : Unites now inp m s s'' := by
  obtain steps | ⟨a, b, before, adopts, after⟩ := h
  · exact .inl (first.trans steps)
  · exact .inr ⟨a, b, first.trans before, adopts, after⟩

theorem Unites.tail (h : Unites now inp m s s') (last : Steps False now inp s' s'') : Unites now inp m s s'' := by
  obtain steps | ⟨a, b, before, adopts, after⟩ := h
  · exact .inl (steps.trans last)
  · exact .inr ⟨a, b, before, adopts, after.trans last⟩

theorem Unites.inv (h : Unites now inp m s s') (inv : NodeInv False s) (parked : s.poisoned = false → s.Parked) :
    NodeInv False s' := by
  obtain steps | ⟨a, b, before, adopts, after⟩ := h
  · exact Steps.inv steps inv
  have does : Does False now (· = inp) s a := Steps.does before rfl
  obtain ⟨-, parked⟩ := Does.forward does inv (parked (Does.live does adopts.live)) adopts.live
  exact Steps.inv after (adopts.inv parked (Steps.inv before inv))

theorem unites_installUnion (live : s.poisoned = false) (role : s.role = .follower) (parked : s.Parked)
    (takes : s.adopts is walked = true) : Unites now inp is.snapshot s (s.installUnion is) := by
  simp only [adopts, Bool.and_eq_true, Option.any_eq_true, decide_eq_true_eq] at takes
  obtain ⟨-, k, at_, below, upto, -, reached⟩ := takes
  -- the walk stops at the commit index
  have known : is.snapshot.lastIndex ≤ s.commit := reached.trans (max_le (min_le_right _ _) (parked k at_).2)
  unfold installUnion adoptParkedUnion
  cases M.decodeSnapshot is.data with
  | none => exact .inl (.single (.die _))
  | some snap =>
    by_cases valid : is.snapshot.conf.isValid = true
    · simp only [if_pos valid]
      cases restored : M.restore s.fsm snap with
      | none =>
        exact .inl (.single (.junk (poisoned_poison _) rfl rfl rfl rfl (List.Sublist.refl _)
          (fun hr => ⟨hr, rfl⟩) rfl fun hp => poisonReason_poison hp _))
      | some fsm =>
        have adopts : Adopts is.snapshot s
            ({ s with pendingApply := none, fsm := fsm, applied := is.snapshot.lastIndex }.retrack is.snapshot) :=
          ⟨live, role, ⟨k, at_, below⟩, known, snap, fsm, restored, rfl⟩
        refine .inr ⟨s, _, .refl, adopts, ?_⟩
        obtain ⟨fsm', news, farewells, eq⟩ := adopts.eq
        simp only [eq]
        unfold shortcutInstall
        rw [if_neg (not_lt.mpr known)]
        exact steps_shortcutAck known
    · simp only [if_neg valid]
      exact .inl (.single (.die _))

theorem unites_receive (now : Instant) (walked : Option Index) (inv : NodeInv False s) (live : s.poisoned = false)
    (parked : s.Parked) (from_ : is.leader = sender) (term : is.term = s.term) :
    Unites now (.message sender (.installSnapshot is)) is.snapshot s
        (s.receive now sender (.installSnapshot is) walked) ∧
      (s.receive now sender (.installSnapshot is) walked).Submitted := by
  subst from_
  have h₁ : Sent False now (.message is.leader (.installSnapshot is)) s (s.heard is.leader) := Sent.heard is.leader
  have live₁ : (s.heard is.leader).poisoned = false := (heard_poisoned is.leader).trans live
  have term₁ : is.term = (s.heard is.leader).term := term.trans h₁.sends.term.symm
  have inv₁ := Steps.inv h₁.steps inv
  have dispatched : Unites now (.message is.leader (.installSnapshot is)) is.snapshot s
      ((s.heard is.leader).onInstallSnapshot now is walked) := by
    refine .head h₁.steps ?_
    obtain same | ⟨a, before, live₂, role₂, takes, eq⟩ :=
      onInstallSnapshot_cases False now walked live₁ rfl term₁
    · rw [same]
      exact .inl (steps_onInstallSnapshot inv₁ live₁ rfl term₁ False.elim)
    · have does : Does False now (· = .message is.leader (.installSnapshot is)) s a :=
        Steps.does (h₁.steps.trans before) rfl
      rw [eq]
      exact .head before (unites_installUnion live₂ role₂ (Does.forward does inv parked live₂).2 takes)
  exact ⟨dispatched.tail steps_epilogue,
    (ensureTermDurable_submitted (dispatched.inv inv fun _ => parked)).reconcileElectionTimer⟩

theorem unites_handleMessage (now : Instant) (sender : I) (is : InstallSnapshot I) (walked : Option Index)
    (inv : NodeInv False s) (sub : s.Submitted) (parked : s.poisoned = false → s.Parked) :
    Unites now (.message sender (.installSnapshot is)) is.snapshot s
        (s.handleMessage now sender (.installSnapshot is) walked) ∧
      (s.handleMessage now sender (.installSnapshot is) walked).Submitted := by
  unfold handleMessage
  split
  · exact ⟨.inl .refl, sub⟩
  next hgo =>
  simp only [not_or, Bool.not_eq_true, ne_eq, not_not] at hgo
  obtain ⟨live, from_⟩ := hgo
  split
  · next hnew =>
    split
    · exact ⟨.inl .refl, sub⟩
    next open_ =>
    have h₁ : Steps False now (.message sender (.installSnapshot is)) s (s.adoptTerm is.term) :=
      .single (.adopt live rfl hnew.1 hnew.2 (by simpa using open_))
    have live₁ : (s.adoptTerm is.term).poisoned = false := by
      unfold adoptTerm
      rw [setLeader_eq]
      exact live
    have does : Does False now (· = .message sender (.installSnapshot is)) s (s.adoptTerm is.term) := Steps.does h₁ rfl
    have parked₁ := (Does.forward does inv (parked live) live₁).2
    obtain ⟨rest, sub'⟩ := unites_receive now walked (Steps.inv h₁ inv) live₁ parked₁ from_
      (term_adoptTerm _).symm
    exact ⟨.head h₁ rest, sub'⟩
  next hnew =>
  split
  · have h₁ : Sent False now (.message sender (.installSnapshot is)) s (s.answerStale sender (.installSnapshot is)) :=
      Sent.answerStale sender _
    refine ⟨.inl h₁.steps, fun live₁ => ?_⟩
    rw [h₁.sends.stable, h₁.sends.term]
    exact sub live
  next hold =>
  refine unites_receive now walked inv live (parked live) from_ ?_
  have not_newer : ¬ s.term < is.term := fun newer => hnew ⟨newer, rfl⟩
  have not_older : ¬ is.term < s.term := fun older => hold ⟨older, rfl⟩
  exact le_antisymm (not_lt.mp not_newer) (not_lt.mp not_older)

/-- What the message does to a live node, however it goes. -/
theorem Unites.forward (h : Unites now inp m s s') (inv : NodeInv False s) (parked : s.Parked)
    (live' : s'.poisoned = false) : s.cover.Forward s'.cover ∧ s'.Parked := by
  obtain steps | ⟨a, b, before, adopts, after⟩ := h
  · have does : Does False now (· = inp) s s' := Steps.does steps rfl
    exact Does.forward does inv parked live'
  have does : Does False now (· = inp) s a := Steps.does before rfl
  have does' : Does False now (· = inp) b s' := Steps.does after rfl
  obtain ⟨first, parked⟩ := Does.forward does inv parked adopts.live
  have inv := Steps.inv before inv
  have step : CoverStep False a.cover b.cover := adopts.coverStep parked
  obtain ⟨last, parked'⟩ := Does.forward does' (adopts.inv parked inv) adopts.parked live'
  exact ⟨(first.trans (step.forward (inv.shape adopts.live))).trans last, parked'⟩

theorem Unites.live (h : Unites now inp m s s') (live' : s'.poisoned = false) : s.poisoned = false := by
  obtain steps | ⟨a, b, before, adopts, -⟩ := h
  · have does : Does False now (· = inp) s s' := Steps.does steps rfl
    exact Does.live does live'
  · have does : Does False now (· = inp) s a := Steps.does before rfl
    exact Does.live does adopts.live

theorem Does.steps (h : Does mono now (· = inp) s s') : Steps mono now inp s s' := by
  induction h with
  | refl => exact .refl
  | tail _ st ih =>
    obtain ⟨_, rfl, st⟩ := st
    exact ih.tail st

/-- An effect of the message raised the commit index. -/
theorem Unites.raised (h : Unites now inp m s s') (inv : NodeInv False s) (parked : s.Parked)
    (live' : s'.poisoned = false) (higher : s.commit < s'.commit) : ∃ a b, Unites now inp m s a ∧ Unites now inp m b s' ∧ Justified inp a b ∧
      a.commit < b.commit ∧ b.commit = s'.commit := by
  obtain steps | ⟨u, v, before, adopts, after⟩ := h
  · have does : Does False now (· = inp) s s' := Steps.does steps rfl
    obtain ⟨a, b, _, rfl, first, last, just, raises, reached⟩ := Does.raised does inv live' higher
    exact ⟨a, b, .inl (Does.steps first), .inl (Does.steps last), just, raises, reached⟩
  have does : Does False now (· = inp) s u := Steps.does before rfl
  have does' : Does False now (· = inp) v s' := Steps.does after rfl
  obtain ⟨-, parked⟩ := Does.forward does inv parked adopts.live
  have inv' := adopts.inv parked (Steps.inv before inv)
  have same : v.commit = u.commit := by
    obtain ⟨fsm, news, farewells, rfl⟩ := adopts.eq
    rfl
  have onward : v.commit ≤ s'.commit := (Does.forward does' inv' adopts.parked live').1.commit
  rcases onward.lt_or_eq with later | still
  · obtain ⟨a, b, _, rfl, first, last, just, raises, reached⟩ := Does.raised does' inv' live' later
    exact ⟨a, b, .inr ⟨u, v, before, adopts, Does.steps first⟩, .inl (Does.steps last), just, raises, reached⟩
  · obtain ⟨a, b, _, rfl, first, last, just, raises, reached⟩ :=
      Does.raised does inv adopts.live (higher.trans_eq (still.symm.trans same))
    exact ⟨a, b, .inl (Does.steps first), .inr ⟨u, v, Does.steps last, adopts, after⟩, just, raises,
      reached.trans (same.symm.trans still)⟩

end

/-! ## Moves and runs -/

/-- What holds between any two moves. -/
structure Steadfast (s : Endpoint I M) : Prop where
  inv : NodeInv False s
  submitted : s.Submitted
  parked : s.poisoned = false → s.Parked

/-- What a move does to a live node. -/
structure Onward (s s' : Endpoint I M) : Prop where
  live : s.poisoned = false
  forward : s.cover.Forward s'.cover
  steadfast : s'.Steadfast

theorem exec_of_not_public {c : Call I M} (hp : ¬ c.isPublic = true) (stays : (Move.call c).crashes = false) :
    (s.exec c).poisonReason = s.poisonReason ∧ (s.exec c).commit = s.commit ∧
      (s.exec c).applied = s.applied ∧ (s.exec c).pendingApply = s.pendingApply ∧
      (s.exec c).log.visible = s.log.visible ∧ (s.exec c).fsm = s.fsm ∧
      (s.exec c).tracker = s.tracker ∧ (s.exec c).role = s.role ∧ (s.exec c).term = s.term ∧
      (s.exec c).passed = s.passed := by
  cases c with
  | pollMessage =>
    obtain ⟨out, he, -⟩ := pollMessage_outgoing (s := s)
    have he : s.exec .pollMessage = _ := he
    rw [he]
    exact ⟨rfl, rfl, rfl, rfl, rfl, rfl, rfl, rfl, rfl, rfl⟩
  | pollEvent =>
    obtain ⟨events, he⟩ := pollEvent_events (s := s)
    have he : s.exec .pollEvent = _ := he
    rw [he]
    exact ⟨rfl, rfl, rfl, rfl, rfl, rfl, rfl, rfl, rfl, rfl⟩
  | syncLog => exact ⟨rfl, rfl, rfl, rfl, LogStore.visible_sync _, rfl, rfl, rfl, rfl, rfl⟩
  | surfaceLog i =>
    refine ⟨rfl, rfl, rfl, rfl, ?_, rfl, rfl, rfl, rfl, rfl⟩
    show (s.log.surface i).visible = s.log.visible
    unfold LogStore.visible
    rw [(surfaceLog_staged _ i).1, (surfaceLog_staged _ i).2]
  | crash => exact absurd stays (by simp [Move.crashes])
  | _ =>
    first
    | exact ⟨rfl, rfl, rfl, rfl, rfl, rfl, rfl, rfl, rfl, rfl⟩
    | exact absurd rfl hp

theorem onward_exec (h : s.Steadfast) {c : Call I M} (stays : (Move.call c).crashes = false)
    (live' : (s.exec c).poisoned = false) : Onward s (s.exec c) := by
  obtain ⟨inv, sub⟩ := h.inv.exec h.submitted c False.elim
  by_cases hp : c.isPublic = true
  · have hd := (does_exec hp h.inv h.submitted False.elim).1
    have live := Does.live hd live'
    obtain ⟨forward, parked⟩ := Does.forward hd h.inv (h.parked live) live'
    exact ⟨live, forward, inv, sub, fun _ => parked⟩
  · obtain ⟨reason, commit, applied, pending, visible, -⟩ := exec_of_not_public (s := s) hp stays
    have live : s.poisoned = false := (congrArg Option.isSome reason).symm.trans live'
    refine ⟨live, .of_eq commit applied visible, inv, sub, fun _ k hk => ?_⟩
    rw [commit, applied]
    exact h.parked live k (pending.symm.trans hk)

theorem inv_poison (reason : PoisonReason) (inv : NodeInv False s) :
    NodeInv False (s.poison reason) ∧ (s.poison reason).Submitted := by
  have st : Step False 0 .quiet s (s.poison reason) := .die reason
  exact ⟨st.inv inv, fun live => absurd live (by simp [poisoned_poison])⟩

theorem commitTo_eq (n : Index) : s.commitTo n =
    if s.applied < max s.commit n then { s with commit := max s.commit n }.applyCommitted.2
    else { s with commit := max s.commit n } := by
  unfold commitTo
  extract_lets s₁
  have raised : s₁ = { s with commit := max s.commit n } := by
    unfold s₁
    split
    · next lt => rw [max_eq_right lt.le]
    · next le => rw [max_eq_left (not_lt.mp le)]
  rw [raised]

/-- The commit index raised to a boundary the log reaches, and the effects of applying up to it. -/
theorem does_commitTo (h : s.Steadfast) (live : s.poisoned = false) {n : Index} (held : n ≤ s.log.lastIndex) :
    CoverStep False s.cover { s with commit := max s.commit n }.cover ∧
    NodeInv False { s with commit := max s.commit n } ∧
      Steps False 0 .quiet { s with commit := max s.commit n } (s.commitTo n) := by
  have step : CoverStep False s.cover { s with commit := max s.commit n }.cover :=
    .commit (le_max_left _ _) (max_le (h.inv.shape live).commit_last held)
  have inv : NodeInv False { s with commit := max s.commit n } := h.inv.of_cover rfl rfl rfl rfl fun _ => step
  refine ⟨step, inv, ?_⟩
  rw [commitTo_eq]
  split
  · exact (Ran.applyCommitted (NodeInv.contiguous inv)).steps
  · exact .refl

theorem commitTo_commit (n : Index) : (s.commitTo n).commit = max s.commit n := by
  rw [commitTo_eq]
  split
  · exact drains_applyCommitted.1
  · rfl

theorem inv_commitTo (h : s.Steadfast) (live : s.poisoned = false) {n : Index} (held : n ≤ s.log.lastIndex) :
    NodeInv False (s.commitTo n) ∧ (s.commitTo n).Submitted := by
  obtain ⟨-, inv, steps⟩ := does_commitTo h live held
  exact ⟨Steps.inv steps inv, (Steps.stableKept steps).submitted id h.submitted⟩

theorem onward_commitTo (h : s.Steadfast) (live : s.poisoned = false) {n : Index} (held : n ≤ s.log.lastIndex)
    (live' : (s.commitTo n).poisoned = false) : Onward s (s.commitTo n) := by
  obtain ⟨step, inv, steps⟩ := does_commitTo h live held
  have parked : { s with commit := max s.commit n }.Parked := fun k hk =>
    ⟨(h.parked live k hk).1, (h.parked live k hk).2.trans (le_max_left _ _)⟩
  have does : Does False 0 (· = .quiet) _ _ := Steps.does steps rfl
  obtain ⟨rest, parked⟩ := Does.forward does inv parked live'
  obtain ⟨inv', sub'⟩ := inv_commitTo h live held
  exact ⟨live, (step.forward (h.inv.shape live)).trans rest, inv', sub', fun _ => parked⟩

/-- What a freeze call comes to: nothing, a failed read, or a commit at the boundary. -/
theorem freeze_cases (boundary : Index) (freezeTerm : Term) :
    (s.advanceCommitOnFreezeIdentity boundary freezeTerm).2 = s ∨
    (s.advanceCommitOnFreezeIdentity boundary freezeTerm).2 = s.poison .logTerm ∨
    (s.poisoned = false ∧ boundary ≤ s.log.lastIndex ∧ s.log.visible.term boundary = freezeTerm ∧
      (s.advanceCommitOnFreezeIdentity boundary freezeTerm).2 = s.commitTo boundary) := by
  unfold advanceCommitOnFreezeIdentity
  split
  · exact .inl rfl
  next go =>
  split
  · exact .inl rfl
  next held =>
  cases read : s.logTerm boundary with
  | mk term =>
    cases term with
    | none => exact .inr (.inl (logTerm_none read))
    | some =>
      obtain ⟨rfl, term⟩ := logTerm_some read
      simp only
      split
      · exact .inl rfl
      next same =>
      exact .inr (.inr ⟨(Bool.not_eq_true _).mp (not_or.mp go).1, not_lt.mp held, term.trans (not_not.mp same), rfl⟩)

theorem inv_freeze (h : s.Steadfast) (boundary : Index) (freezeTerm : Term) :
    NodeInv False (s.advanceCommitOnFreezeIdentity boundary freezeTerm).2 ∧
      (s.advanceCommitOnFreezeIdentity boundary freezeTerm).2.Submitted := by
  rcases s.freeze_cases boundary freezeTerm with he | he | ⟨live, held, -, he⟩ <;> rw [he]
  · exact ⟨h.inv, h.submitted⟩
  · exact inv_poison _ h.inv
  · exact inv_commitTo h live held

theorem Onward.refl (h : s.Steadfast) (live : s.poisoned = false) : Onward s s := ⟨live, .refl _, h⟩

theorem onward_freeze (h : s.Steadfast) (boundary : Index) (freezeTerm : Term)
    (live' : (s.advanceCommitOnFreezeIdentity boundary freezeTerm).2.poisoned = false) :
    Onward s (s.advanceCommitOnFreezeIdentity boundary freezeTerm).2 ∧
      (s.commit < (s.advanceCommitOnFreezeIdentity boundary freezeTerm).2.commit →
        (s.advanceCommitOnFreezeIdentity boundary freezeTerm).2.commit = boundary ∧
          s.log.visible.term boundary = freezeTerm) := by
  rcases s.freeze_cases boundary freezeTerm with he | he | ⟨live, held, term, he⟩ <;> rw [he] at live' ⊢
  · exact ⟨.refl h live', fun higher => absurd higher (lt_irrefl _)⟩
  · exact absurd live' (by simp [poisoned_poison])
  refine ⟨onward_commitTo h live held live', fun higher => ?_⟩
  rw [commitTo_commit] at higher ⊢
  refine ⟨max_eq_right ?_, term⟩
  exact (lt_max_iff.mp higher).elim (fun h => absurd h (lt_irrefl _)) le_of_lt

theorem inv_pass (h : s.Steadfast) {k : Index} (parked : s.pendingApply = some k) (fsm : M.State) :
    NodeInv False { s with pendingApply := none, fsm := fsm, applied := k } :=
  h.inv.of_cover rfl rfl rfl rfl fun live =>
    .apply (h.parked live k parked).1 (h.parked live k parked).2 (.inl rfl)

theorem onward_pass (h : s.Steadfast) {k : Index} (parked : s.pendingApply = some k) (fsm : M.State)
    (live : s.poisoned = false) : Onward s { s with pendingApply := none, fsm := fsm, applied := k } := by
  obtain ⟨low, high⟩ := h.parked live k parked
  have step : CoverStep False s.cover { s with pendingApply := none, fsm := fsm, applied := k }.cover :=
    .apply low high (.inl rfl)
  exact ⟨live, step.forward (h.inv.shape live), inv_pass h parked fsm, h.submitted, fun _ => .of_none rfl⟩

/-- How a move raises the commit index. -/
inductive Raised (s : Endpoint I M) : Move I M → Endpoint I M → Prop where
  /-- `a` and `b` are the states around the last effect of the call that raises it. -/
  | call {c : Call I M} {a b s' : Endpoint I M} {inp : Input I} (brings : c.Brings inp)
      (before : Does False c.time c.Brings s a) (after : Does False c.time c.Brings b s')
      (justified : Justified inp a b) (raises : a.commit < b.commit) (last : b.commit = s'.commit) :
      Raised s (.call c) s'
  | freeze {boundary : Index} {freezeTerm : Term} {s' : Endpoint I M} (commit : s'.commit = boundary)
      (frozen : s.log.visible.term boundary = freezeTerm) : Raised s (.freeze boundary freezeTerm) s'
  /-- The same for a snapshot that may be taken for a parked merge. -/
  | adopt {now : Instant} {sender : I} {is : InstallSnapshot I} {walked : Index} {a b s' : Endpoint I M}
      (before : Unites now (.message sender (.installSnapshot is)) is.snapshot s a)
      (after : Unites now (.message sender (.installSnapshot is)) is.snapshot b s')
      (justified : Justified (.message sender (.installSnapshot is)) a b) (raises : a.commit < b.commit)
      (last : b.commit = s'.commit) : Raised s (.adopt now sender is walked) s'

section

variable (h : s.Steadfast)

include h

theorem onward_resolve (fsm : Option M.State) (live' : (s.resolvePendingMerge fsm).poisoned = false) :
    Onward s (s.resolvePendingMerge fsm) ∧
      (s.commit < (s.resolvePendingMerge fsm).commit → s.Raised (.resolve fsm) (s.resolvePendingMerge fsm)) := by
  revert live'
  unfold resolvePendingMerge
  split
  · exact fun live => ⟨.refl h live, fun higher => absurd higher (lt_irrefl _)⟩
  next k parked =>
  cases fsm with
  | none => exact fun live' => absurd live' (by simp [poisoned_poison])
  | some fsm => exact fun live => ⟨onward_pass h parked fsm live, fun higher => absurd higher (lt_irrefl _)⟩

theorem onward_resolveAborted (live' : s.resolvePendingMergeAborted.poisoned = false) :
    Onward s s.resolvePendingMergeAborted ∧
      (s.commit < s.resolvePendingMergeAborted.commit → s.Raised .resolveAborted s.resolvePendingMergeAborted) := by
  revert live'
  unfold resolvePendingMergeAborted
  split
  · exact fun live => ⟨.refl h live, fun higher => absurd higher (lt_irrefl _)⟩
  next k parked =>
  exact fun live => ⟨onward_pass h parked s.fsm live, fun higher => absurd higher (lt_irrefl _)⟩

theorem onward_move {m : Move I M} (stays : m.crashes = false) (live' : (s.move m).poisoned = false) :
    Onward s (s.move m) ∧ (s.commit < (s.move m).commit → s.Raised m (s.move m)) := by
  cases m with
  | call c =>
    refine ⟨onward_exec h stays live', fun higher => ?_⟩
    have hp : c.isPublic = true := by
      by_contra hp
      exact absurd ((exec_of_not_public hp stays).2.1) higher.ne'
    have hd := (does_exec hp h.inv h.submitted False.elim).1
    obtain ⟨a, b, inp, brings, before, after, just, raises, last⟩ := Does.raised hd h.inv live' higher
    exact .call brings before after just raises last
  | freeze boundary freezeTerm =>
    obtain ⟨onward, raised⟩ := onward_freeze h boundary freezeTerm live'
    exact ⟨onward, fun higher => .freeze (raised higher).1 (raised higher).2⟩
  | resolve fsm => exact onward_resolve h fsm live'
  | resolveAborted => exact onward_resolveAborted h live'
  | adopt now sender is walked =>
    obtain ⟨unites, sub⟩ := unites_handleMessage now sender is (some walked) h.inv h.submitted h.parked
    have live := unites.live live'
    obtain ⟨forward, parked⟩ := unites.forward h.inv (h.parked live) live'
    refine ⟨⟨live, forward, unites.inv h.inv h.parked, sub, fun _ => parked⟩, fun higher => ?_⟩
    obtain ⟨a, b, before, after, just, raises, last⟩ := unites.raised h.inv (h.parked live) live' higher
    exact .adopt before after just raises last

/-- The invariant of the node holds whether the move fails or not. -/
theorem inv_move (m : Move I M) : NodeInv False (s.move m) ∧ (s.move m).Submitted := by
  cases m with
  | call c => exact h.inv.exec h.submitted c False.elim
  | freeze boundary freezeTerm => exact inv_freeze h boundary freezeTerm
  | resolve fsm =>
    simp only [Endpoint.move, resolvePendingMerge]
    split
    · exact ⟨h.inv, h.submitted⟩
    next k parked =>
    cases fsm with
    | none => exact inv_poison .mergeUnsupported (h.inv.of_cover rfl rfl rfl rfl fun _ => .keep)
    | some fsm => exact ⟨inv_pass h parked fsm, h.submitted⟩
  | resolveAborted =>
    simp only [Endpoint.move, resolvePendingMergeAborted]
    split
    · exact ⟨h.inv, h.submitted⟩
    next k parked => exact ⟨inv_pass h parked s.fsm, h.submitted⟩
  | adopt now sender is walked =>
    obtain ⟨unites, sub⟩ := unites_handleMessage now sender is (some walked) h.inv h.submitted h.parked
    exact ⟨unites.inv h.inv h.parked, sub⟩

theorem Steadfast.move (m : Move I M) : (s.move m).Steadfast := by
  obtain ⟨inv, sub⟩ := inv_move h m
  refine ⟨inv, sub, fun live' => ?_⟩
  by_cases stays : m.crashes = false
  · exact (onward_move h stays live').1.steadfast.parked live'
  cases m with
  | call c =>
    cases c with
    | crash =>
      revert live'
      unfold Endpoint.move exec
      simp only
      split
      · exact fun _ => parked_restart _ _ _ _ _ _ _ _
      · exact h.parked
    | _ => exact absurd rfl stays
  | _ => exact absurd rfl stays

theorem Steadfast.moves (ms : List (Move I M)) : (s.moves ms).Steadfast := by
  induction ms generalizing s with
  | nil => exact h
  | cons m ms ih => exact ih (h.move m)

end

theorem steadfast_new (config : Config I) (now : Instant) (rng : Nat → Nat) :
    (new config now rng M.init : Endpoint I M).Steadfast := by
  have inv : NodeInv False (new config now rng M.init : Endpoint I M) ∧ (new config now rng M.init).Submitted :=
    new_inv config now rng
  exact ⟨inv.1, inv.2, fun _ => .of_none rfl⟩

theorem forward_moves {ms : List (Move I M)} (h : s.Steadfast) (stays : ∀ m ∈ ms, m.crashes = false)
    (live' : (s.moves ms).poisoned = false) : s.poisoned = false ∧ s.cover.Forward (s.moves ms).cover := by
  induction ms generalizing s with
  | nil => exact ⟨live', .refl _⟩
  | cons m ms ih =>
    obtain ⟨live, rest⟩ := ih (h.move m) (fun m' hm => stays m' (List.mem_cons_of_mem _ hm)) live'
    have onward := (onward_move h (stays m List.mem_cons_self) live).1
    exact ⟨onward.live, onward.forward.trans rest⟩

omit [LinearOrder I] in
theorem maybeAdvanceCommit_own (higher : s.commit < (s.maybeAdvanceCommit now).commit) :
    (s.maybeAdvanceCommit now).commit = s.tracker.quorumCommitted ∧
      s.log.visible.term (s.maybeAdvanceCommit now).commit = s.term := by
  revert higher
  unfold maybeAdvanceCommit
  split
  · exact fun higher => absurd higher (lt_irrefl _)
  simp only
  cases read : s.logTerm s.tracker.quorumCommitted with
  | mk term =>
    cases term with
    | none =>
      rw [logTerm_none read]
      exact fun higher => absurd higher (lt_irrefl _)
    | some =>
      obtain ⟨rfl, term⟩ := logTerm_some read
      simp only
      split
      · next go =>
        split
        · exact fun higher => absurd higher (lt_irrefl _)
        · exact fun _ => ⟨rfl, term.trans go.2⟩
      · exact fun higher => absurd higher (lt_irrefl _)

/-- Commit and apply stay within the log and each other, never go back, keep what is committed,
and only the listed causes raise the commit index. -/
theorem commit_forward (config : Config I) (now : Instant) (rng : Nat → Nat) (before ms : List (Move I M))
    (stays : ∀ m ∈ ms, m.crashes = false)
    (live : (((new config now rng M.init : Endpoint I M).moves before).moves ms).poisoned = false) :
    let s := (new config now rng M.init : Endpoint I M).moves before
    let s' := s.moves ms
    s'.log.firstIndex - 1 ≤ s'.commit ∧ s'.commit ≤ s'.log.lastIndex ∧ s'.applied ≤ s'.commit ∧
    s.commit ≤ s'.commit ∧ s.applied ≤ s'.applied ∧
    (∀ i ≤ s.commit, s'.log.firstIndex ≤ i → s'.log.visible.get i = s.log.visible.get i) ∧
    (∀ m, m.crashes = false → (s'.move m).poisoned = false → s'.commit < (s'.move m).commit →
      s'.Raised m (s'.move m)) ∧
    ∀ now, s'.commit < (s'.maybeAdvanceCommit now).commit →
      (s'.maybeAdvanceCommit now).commit = s'.tracker.quorumCommitted ∧
        s'.log.visible.term (s'.maybeAdvanceCommit now).commit = s'.term := by
  intro s s'
  have start : s.Steadfast := (steadfast_new config now rng).moves before
  have reached : s'.Steadfast := start.moves ms
  have shape := reached.inv.shape live
  obtain ⟨-, forward⟩ := forward_moves start stays live
  refine ⟨?_, shape.commit_last, shape.applied_commit, forward.commit, forward.applied, fun i hi above => ?_,
    fun m stays live' => (onward_move reached stays live').2, fun _ => maybeAdvanceCommit_own⟩
  · exact shape.base_applied.trans shape.applied_commit
  · exact forward.entries i hi above

end Endpoint

namespace Tape

/-- A follower learns of three committed entries, the second a merge commit, which it cannot
resolve. The snapshot at its index holds what the absorbed group had written. -/
def mergePassed : List (Move Nat tape) :=
  [.call (.message 1 0 (.appendEntries ⟨1, 0, 0, 0,
    [⟨1, 1, .normal [1]⟩, ⟨1, 2, .commitMerge⟩, ⟨1, 3, .normal [2]⟩], 3⟩)),
    .call .syncLog, .call .syncLog, .call .syncLog, .call (.surfaceLog 0), .call (.storage 1),
    .adopt 2 0 ⟨1, 0, ⟨2, 1, ⟨{0, 1, 2}, ∅, ∅, ∅, false⟩⟩, [1, 9], 0, 0⟩ 3, .call (.storage 3)]

theorem mergePassed_commit_forward : ∃ s : Endpoint Nat tape,
    s = (node (config {0, 1, 2} 1)).moves mergePassed ∧ s.fsm = [1, 9, 2] ∧ s.applied = 3 ∧
      s.applied ≤ s.commit ∧ s.commit ≤ s.log.lastIndex := by
  have h := Endpoint.commit_forward (M := tape) (config {0, 1, 2} 1) 0 (fun _ => 0) [] mergePassed
    (by decide) (by decide +kernel)
  exact ⟨_, rfl, by decide +kernel, by decide +kernel, h.2.2.1, h.2.1⟩

end Tape

end Sailing
