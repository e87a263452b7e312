import Sailing.Calls.Installing

/-!
# `handle_storage`, as steps

The completions of the two stores, the reconciliation with what the stores say
is durable, and what follows: apply, capture, leave a joint configuration.
-/

namespace Sailing.Endpoint

variable {I : Type} [LinearOrder I] {M : StateMachine}
variable {mono : Prop} {now : Instant} {inp : Input I} {s s' : Endpoint I M}

theorem find?_split {α : Type} {l : List α} {p : α → Bool} {a : α} (h : l.find? p = some a) :
    p a = true ∧ ∃ pre post, l = pre ++ a :: post ∧ l.eraseP p = pre ++ post := by
  obtain ⟨ha, pre, post, rfl, hn⟩ := List.find?_eq_some_iff_append.mp h
  refine ⟨ha, pre, post, rfl, ?_⟩
  rw [List.eraseP_append_right _ fun x hx => by simpa using hn x hx, List.eraseP_cons_of_pos ha]

/-! ## Log completions -/

variable {id : OpId} {m : SnapshotMeta I} {ready : OpId → SnapshotMeta I → Bool} {leader : I}

theorem steps_releaseLogPending (inv : NodeInv mono s) (live : s.poisoned = false)
    (landed : ∀ u, (id, u) ∉ s.durable.inflightAppendUpto) :
    Steps mono now inp s (s.releaseLogPending now id) := by
  unfold releaseLogPending takeLogPending
  cases hf : s.pendingLog.find? (·.1 == id) with
  | none => exact .refl
  | some q =>
    obtain ⟨hid, pre, post, hsplit, herase⟩ := find?_split hf
    obtain ⟨id', p⟩ := q
    obtain rfl : id' = id := by simpa using hid
    simp only [herase]
    cases p with
    | followerAck => exact .single (.releaseAck live hsplit)
    | castVote | campaign => exact .single (.dropLog live hsplit)
    | leaderAppend upto =>
      simp only
      split
      · next role =>
        have durable : upto ≤ s.durable.durableIndex := by
          refine ((inv.shape live).own (.inr role) id' upto ?_).resolve_left (landed upto)
          show _ ∈ s.pendingLog
          rw [hsplit]
          simp
        have h₁ : Steps mono now inp s { s with
            pendingLog := pre ++ post
            tracker := s.tracker.modifyProgress s.config.id fun p => (p.maybeUpdate upto).1 } :=
          .single (.matchOwn live role hsplit durable)
        refine h₁.trans ?_
        have h₂ : Ran mono now inp { s with
            pendingLog := pre ++ post
            tracker := s.tracker.modifyProgress s.config.id fun p => (p.maybeUpdate upto).1 } _ :=
          Ran.onProgress role inv.contiguous
        exact h₂.steps.trans Sent.maybeFlushDeferredReads.steps
      · exact .single (.dropLog live hsplit)

theorem notMem_of_ordered {l : List (OpId × Index)} {u : Index}
    (h : ((id, u) :: l).Pairwise fun p q => p.1 < q.1 ∧ p.2 < q.2) : ∀ u, (id, u) ∉ l := by
  intro u' hm
  exact OpId.lt_irrefl _ ((List.pairwise_cons.mp h).1 _ hm).1

omit [LinearOrder I] in
theorem noteAppended_landed (h : s.durable.inflightAppendUpto.Pairwise fun p q => p.1 < q.1 ∧ p.2 < q.2) :
    ∀ u, (id, u) ∉ (s.noteAppended id).durable.inflightAppendUpto := by
  intro u hm
  unfold noteAppended at hm
  split at hm
  · next p hf =>
    obtain ⟨hid, pre, post, hsplit, herase⟩ := find?_split hf
    simp only at hm
    rw [herase] at hm
    rw [hsplit, List.pairwise_append] at h
    obtain ⟨-, hpost, hpre⟩ := h
    have hid : p.1 = id := by simpa using hid
    rcases List.mem_append.mp hm with hm | hm
    · have := (hpre _ hm p List.mem_cons_self).1
      rw [hid] at this
      exact OpId.lt_irrefl _ this
    have := ((List.pairwise_cons.mp hpost).1 _ hm).1
    rw [hid] at this
    exact OpId.lt_irrefl _ this
  · next hf =>
    have := List.find?_eq_none.mp hf _ hm
    simp at this

theorem steps_drainLog (budget : Nat) (inv : NodeInv mono s)
    (live : s.poisoned = false) : Steps mono now inp s (drainLog now budget s) := by
  induction budget generalizing s with
  | zero => exact .refl
  | succ budget ih =>
    unfold drainLog LogStore.poll
    cases hr : s.log.ready with
    | nil => exact .refl
    | cons d rest =>
      have h₁ : Steps mono now inp s { s with log := { s.log with ready := rest } } := .single (.pollLog live hr)
      match d with
      | none => exact h₁.tail (.die _)
      | some (.compacted _) => exact h₁.trans (ih (Steps.inv h₁ inv) live)
      | some (.appended id) =>
        have h₂ : Steps mono now inp s ({ s with log := { s.log with ready := rest } }.noteAppended id) :=
          .single (.appended live hr)
        have inv₂ := Steps.inv h₂ inv
        have live₂ : ({ s with log := { s.log with ready := rest } }.noteAppended id).poisoned = false := by
          unfold noteAppended
          split <;> exact live
        have landed : ∀ u, (id, u) ∉ ({ s with log := { s.log with ready := rest } }.noteAppended
            id).durable.inflightAppendUpto :=
          noteAppended_landed (inv.shape live).inflight_ordered
        simp only
        unfold onLogAppended
        generalize { s with log := { s.log with ready := rest } }.noteAppended id = s₂ at *
        have h₃ := h₂.trans (steps_releaseLogPending inv₂ live₂ landed)
        split
        · exact h₃
        · next hp => exact h₃.trans (ih (Steps.inv h₃ inv) (by simpa using hp))

/-! ## Stable completions -/

theorem provenBy_castVote {me dest : I} {hs : HardState I} {t : Term}
    (h : provenBy me hs (.castVote dest t) = true) : t = hs.term ∧ hs.vote = some dest := by
  simpa [provenBy] using h

theorem provenBy_campaign {me : I} {hs : HardState I} {t : Term}
    (h : provenBy me hs (.campaign t) = true) : t = hs.term ∧ hs.vote = some me := by
  simpa [provenBy] using h

theorem steps_releaseStablePending {p : Pending I} {pre post : List (OpId × Pending I)}
    (live : s.poisoned = false) (pending : s.pendingStable = pre ++ (id, p) :: post)
    (proven : provenBy s.config.id s.stable.durable.hardState p = true) :
    Steps mono now inp s ({ s with pendingStable := pre ++ post }.releaseStablePending now p) := by
  have settled : Step mono now inp s { s with pendingStable := pre ++ post } := .settled live pending proven
  unfold releaseStablePending
  cases p with
  | castVote dest t =>
    obtain ⟨ht, hv⟩ := provenBy_castVote proven
    simp only
    split
    · next hgo =>
      -- the response goes out while the vote is still on the list
      have ok : Sendable now inp s dest (.voteResponse ⟨t, s.config.id, false, false⟩) := by
        refine ⟨rfl, fun _ => ⟨hgo.1, fun _ => ⟨hgo.2, ?_, id, ?_⟩⟩, fun h => absurd h (by simp)⟩
        · exact Prod.ext (ht.symm.trans hgo.1) hv
        · rw [pending]
          simp
      have h₁ : Step mono now inp s (s.send dest (.voteResponse ⟨t, s.config.id, false, false⟩)) := .send live ok
      rw [send_live live] at h₁
      rw [send_live (s := { s with pendingStable := pre ++ post }) live]
      exact .head h₁ (.single (.settled live pending proven))
    · exact .single settled
  | campaign =>
    obtain ⟨ht, hv⟩ := provenBy_campaign proven
    simp only
    split
    · next hgo =>
      exact .head settled (steps_becomeLeader live hgo.2.1 hgo.2.2 (Prod.ext (ht.symm.trans hgo.1) hv))
    · exact .single settled
  | followerAck => exact .single settled
  | leaderAppend => exact .single settled

theorem NodeInv.proven (inv : NodeInv mono s) (live : s.poisoned = false) {p : Pending I}
    (hp : (id, p) ∈ s.pendingStable) (done : .wrote id ∉ Fifo.tags s.ballots.staged) :
    provenBy s.config.id s.stable.durable.hardState p = true := by
  have hall : ∀ x ∈ s.ballots.kept, x ∈ s.ballots.since id := fun x hx => by
    unfold Ballots.since
    rw [Fifo.since_of_notMem done]
    exact hx
  have hsaved := hall _ (List.mem_cons_self : s.ballots.saved ∈ s.ballots.kept)
  have owed := (inv.votes live).owed (id, p) hp
  cases p with
  | castVote c t =>
    have he : s.stable.durable.ballot = (t, some c) := owed.2.2 _ hsaved
    simp only [provenBy, Bool.and_eq_true, decide_eq_true_eq]
    exact ⟨(congrArg Prod.fst he).symm, congrArg Prod.snd he⟩
  | campaign t =>
    have he : s.stable.durable.ballot = (t, some s.config.id) := owed.2.2 _ hsaved
    simp only [provenBy, Bool.and_eq_true, decide_eq_true_eq]
    exact ⟨(congrArg Prod.fst he).symm, congrArg Prod.snd he⟩
  | followerAck => exact owed.elim
  | leaderAppend => exact owed.elim

theorem NodeInv.wrote_notMem (inv : NodeInv mono s) (h : id ∈ s.stable.doneIds) :
    .wrote id ∉ Fifo.tags s.ballots.staged := by
  intro ht
  obtain ⟨p, hp, hpe⟩ := List.mem_map.mp ht
  refine inv.ballots.ids.notMem_staged h (OpId.le_iff.mpr (.inl rfl)) ?_
  exact List.mem_map.mpr ⟨p, hp, by rw [hpe]; rfl⟩

theorem NodeInv.snapshotWritten_notMem (inv : NodeInv mono s)
    (h : id ∈ s.stable.doneIds) : .snapshotWritten id ∉ Fifo.tags s.cover.slots := by
  intro ht
  obtain ⟨p, hp, hpe⟩ := List.mem_map.mp ht
  obtain ⟨q, hq, rfl⟩ := List.mem_map.mp hp
  refine inv.ballots.ids.notMem_staged h (OpId.le_iff.mpr (.inl rfl)) ?_
  refine List.mem_map.mpr ⟨(q.1.ballot, q.2), List.mem_map_of_mem hq, ?_⟩
  simp only at hpe ⊢
  rw [hpe]
  rfl

theorem steps_onStableWrote {rest : List (Option StableDone)} (inv : NodeInv mono s)
    (live : s.poisoned = false) (ready : s.stable.ready = some (.wrote id) :: rest) :
    Steps mono now inp s ({ s with stable := { s.stable with ready := rest } }.onStableWrote now id) := by
  have done := inv.wrote_notMem (mem_doneIds ready)
  have h₁ : Steps mono now inp s { s with
      stable := { s.stable with ready := rest }, durable := noteWrote s.durable id } :=
    .single (.wrote live ready)
  have inv₁ := Steps.inv h₁ inv
  unfold onStableWrote takeStablePending
  refine h₁.trans ?_
  simp only
  cases hf : s.pendingStable.find? (·.1 == id) with
  | none => exact steps_flushTermGatedAcks
  | some q =>
    obtain ⟨hid, pre, post, hsplit, herase⟩ := find?_split hf
    obtain ⟨id', p⟩ := q
    obtain rfl : id' = id := by simpa using hid
    have proven := inv₁.proven live (p := p) (by rw [hsplit]; simp) done
    simp only [herase]
    refine Relation.ReflTransGen.trans ?_ steps_flushTermGatedAcks
    exact steps_releaseStablePending (s := { s with
      stable := { s.stable with ready := rest }, durable := noteWrote s.durable id' }) live hsplit proven

/-! ## The slot -/

/-- The write of the snapshot `m` under `id` is known to be durable. -/
def SlotWritten (s : Endpoint I M) (id : OpId) (m : SnapshotMeta I) : Prop :=
  .snapshotWritten id ∉ Fifo.tags s.cover.slots ∨
    ∃ blob, s.stable.durable.snapshot = some (m, blob)

omit [LinearOrder I] in
theorem slotsSince_of_notMem (h : .snapshotWritten id ∉ Fifo.tags s.cover.slots) :
    s.cover.slotsSince id = s.cover.slotImages := Fifo.since_of_notMem h

section

variable (inv : NodeInv mono s) (live : s.poisoned = false)

include inv live

/-- The slots are in order, so what the first reaches all reach. -/
theorem NodeInv.slotCovers_durable (hm : mono) {blob : Bytes} (h : s.stable.durable.snapshot = some (m, blob)) :
    s.cover.SlotCovers m.lastIndex := by
  have hb : boundary s.cover.slot = m.lastIndex := by
    show boundary s.stable.durable.snapshot = _
    rw [h]
    rfl
  intro x hx
  rw [← hb]
  have hs := (inv.covered hm live).slots
  unfold Cover.slotImages at hx hs
  rcases List.mem_cons.mp hx with rfl | hx
  · exact le_rfl
  · exact (List.pairwise_cons.mp hs).1 _ (List.mem_map_of_mem hx)

theorem steps_compactIf (written : ∀ id m, ready id m = true → s.SlotWritten id m) :
    Steps mono now inp s (s.compactIf ready) := by
  unfold compactIf
  split
  · next id m hp =>
    split
    · next hr =>
      refine .single (.compacted live hp fun hm => cover_slotCovers.mp ?_)
      rcases written id m hr with h | ⟨blob, h⟩
      · intro x hx
        exact (inv.covered hm live).compacting id m hp x (by rw [slotsSince_of_notMem h]; exact hx)
      · exact inv.slotCovers_durable live hm h
    · exact .refl
  · exact .refl

theorem NodeInv.installed {snap : M.Snapshot}
    (pending : s.snapshot.pendingInstall = some (id, m, snap, leader)) (written : s.SlotWritten id m) :
    (∃ blob, s.stable.durable.snapshot = some (m, blob)) ∧ (mono → s.SlotCovers m.lastIndex) := by
  have hd : ∃ blob, s.stable.durable.snapshot = some (m, blob) := by
    rcases written with h | h
    · refine ((inv.shape live).installing id m ?_).2 _ ?_
      · show s.snapshot.pendingInstall.map (fun p => (p.1, p.2.1)) = _
        rw [pending]
        rfl
      · rw [slotsSince_of_notMem h]
        exact List.mem_cons_self
    · exact h
  obtain ⟨blob, hb⟩ := hd
  exact ⟨⟨blob, hb⟩, fun hm => cover_slotCovers.mp (inv.slotCovers_durable live hm hb)⟩

end

/-- The durable boundary is raised once the commit index is there too. -/
def raisedSlot (s : Endpoint I M) (n : Index) : Endpoint I M :=
  { s with durable := { s.durable with
      durableSnapshotIndex := max s.durable.durableSnapshotIndex n } }

/-- The shortcut after an install whose boundary the log already reaches. -/
theorem steps_shortcutInstalled {dest : I} (inv : NodeInv mono s)
    (live : s.poisoned = false) (offered : s.Offered inp m)
    (covers : mono → s.SlotCovers m.lastIndex) (held : s.commit < m.lastIndex →
      m.lastIndex ≤ s.durable.durableIndex ∧ s.log.visible.term m.lastIndex = m.lastTerm) :
    Steps mono now inp s ((s.raisedSlot m.lastIndex).shortcutInstall m dest) := by
  unfold shortcutInstall
  split
  · next hlt =>
    have hlt : s.commit < m.lastIndex := hlt
    have h₁ : Steps mono now inp s { s with commit := m.lastIndex } :=
      .single (.commitShortcut live offered hlt (held hlt).1 (held hlt).2)
    have h₂ : Steps mono now inp s { s.raisedSlot m.lastIndex with commit := m.lastIndex } :=
      h₁.tail (.raiseSlot live covers le_rfl)
    have he : (s.raisedSlot m.lastIndex).commitTo m.lastIndex =
        { s.raisedSlot m.lastIndex with commit := m.lastIndex }.commitTo m.lastIndex :=
      commitTo_of_lt hlt
    have h₃ : Ran mono now inp { s.raisedSlot m.lastIndex with commit := m.lastIndex }
        ({ s.raisedSlot m.lastIndex with commit := m.lastIndex }.commitTo m.lastIndex) :=
      Ran.commitTo inv.contiguous fun _ hlt => absurd hlt (lt_irrefl _)
    have known : m.lastIndex ≤ ((s.raisedSlot m.lastIndex).commitTo m.lastIndex).commit :=
      commit_commitTo (s := s.raisedSlot m.lastIndex) inv.contiguous m.lastIndex
    rw [← he] at h₃
    generalize (s.raisedSlot m.lastIndex).commitTo m.lastIndex = s₃ at h₃ known
    simp only
    split
    · exact h₂.trans h₃.steps
    · exact (h₂.trans h₃.steps).trans (steps_persistAndAck known)
  · next hle =>
    have known : m.lastIndex ≤ s.commit := not_lt.mp hle
    have h₁ : Step mono now inp s (s.raisedSlot m.lastIndex) := .raiseSlot live covers known
    exact .head h₁ (steps_shortcutAck known)

theorem steps_installed {blob : Bytes} (live : s.poisoned = false)
    (role : s.role = .follower) (slot : s.stable.durable.snapshot = some (m, blob))
    (known : m.lastIndex ≤ s.commit) (reached : m.lastIndex ≤ s.applied) :
    Steps mono now inp s (if restoreRebaselined s.log m.lastIndex m.lastTerm = false then s.poison .snapshotRebaseline
      else (s.retrack m).sendOrGateSnapshotAck leader m.lastIndex) := by
  split
  · exact .single (.die _)
  obtain ⟨news, eq, reported⟩ := s.retrack_eq m
  rw [eq]
  refine .head (.retrack live role slot reached reported)
    ((Gates.of_acks (.ackSnapshot _ leader _)).steps fun live => .single (.ackSnapshot live ?_))
  exact known

theorem steps_installSnapshotNow {snap : M.Snapshot} (inv : NodeInv mono s) (live : s.poisoned = false)
    (pending : s.snapshot.pendingInstall = some (id, m, snap, leader)) (written : s.SlotWritten id m) :
    Steps mono now inp s ({ s with snapshot := { s.snapshot with
      pendingInstall := none } }.installSnapshotNow m snap leader) := by
  obtain ⟨⟨blob, slot⟩, covers⟩ := inv.installed live pending written
  have h₀ : Steps mono now inp s { s with snapshot := { s.snapshot with pendingInstall := none } } :=
    .single (.dropInstall live)
  have inv₀ := Steps.inv h₀ inv
  unfold installSnapshotNow
  split
  · exact h₀
  next hgo =>
  have role : s.role = .follower := by
    simp only [not_or, ne_eq, not_not] at hgo
    exact hgo.2
  simp only
  split
  · next hc =>
    -- the read of the boundary term failed
    rcases coveredByLocalHistory_cases hc with ⟨-, he⟩ | ⟨-, ⟨hb, -⟩ | ⟨hb, -⟩⟩
    · rw [he]
      exact .single (.junk (poisoned_poison _) rfl rfl rfl rfl (List.Sublist.refl _)
        (fun hr => ⟨hr, rfl⟩) rfl fun hp => poisonReason_poison hp _)
    · cases hb
    · cases hb
  · next hc =>
    rcases coveredByLocalHistory_cases hc with ⟨hb, -⟩ | ⟨he, ⟨-, held⟩ | ⟨hb, -⟩⟩
    · cases hb
    · rw [he]
      refine h₀.trans (steps_shortcutInstalled inv₀ live ?_ covers held)
      exact .inr ⟨m, blob, slot, identityEq_self m⟩
    · cases hb
  · next hc =>
    rcases coveredByLocalHistory_cases hc with ⟨hb, -⟩ | ⟨he, ⟨hb, -⟩ | ⟨-, ahead, foreign⟩⟩
    · cases hb
    · cases hb
    rw [he]
    split
    · exact .single (.junk (poisoned_poison _) rfl rfl rfl rfl (List.Sublist.refl _)
        (fun hr => ⟨hr, rfl⟩) rfl fun hp => poisonReason_poison hp _)
    next fsm restored =>
    have h₁ : Steps mono now inp s (s.installBase fsm m) :=
      .single (.install live role pending covers ahead foreign restored ⟨blob, slot⟩)
    exact h₁.trans (steps_installed live role slot le_rfl le_rfl)

omit [LinearOrder I] in
theorem SlotWritten.of_stable (hs : s'.stable = s.stable) (h : s.SlotWritten id m) : s'.SlotWritten id m := by
  unfold SlotWritten at h ⊢
  have hc : s'.cover.slots = s.cover.slots := by
    show s'.stable.staged.map _ = s.stable.staged.map _
    rw [hs]
  rw [hc, hs]
  exact h

theorem steps_installIf (inv : NodeInv mono s)
    (live : s.poisoned = false) (written : ∀ id m, ready id m = true → s.SlotWritten id m) :
    Steps mono now inp s (s.installIf ready) := by
  unfold installIf
  split
  · next id m snap leader pending =>
    split
    · next hr => exact steps_installSnapshotNow inv live pending (written id m hr)
    · exact .refl
  · exact .refl

omit [LinearOrder I] in
theorem compactIf_frame (ready : OpId → SnapshotMeta I → Bool) :
    (s.compactIf ready).stable = s.stable ∧ (s.compactIf ready).poisoned = s.poisoned := by
  unfold compactIf
  split
  · split <;> exact ⟨rfl, rfl⟩
  · exact ⟨rfl, rfl⟩

theorem steps_slotWritten {ready' : OpId → SnapshotMeta I → Bool} (inv : NodeInv mono s)
    (live : s.poisoned = false) (written : ∀ id m, ready id m = true → s.SlotWritten id m)
    (written' : ∀ id m, ready' id m = true → s.SlotWritten id m) :
    Steps mono now inp s ((s.compactIf ready).installIf ready') := by
  have h₁ : Steps mono now inp s (s.compactIf ready) := steps_compactIf inv live written
  obtain ⟨hs, hp⟩ := compactIf_frame (s := s) ready
  exact h₁.trans (steps_installIf (Steps.inv h₁ inv) (hp.trans live) fun id m hr =>
    (written' id m hr).of_stable hs)

theorem steps_drainStable (budget : Nat) (inv : NodeInv mono s)
    (live : s.poisoned = false) : Steps mono now inp s (drainStable now budget s) := by
  induction budget generalizing s with
  | zero => exact .refl
  | succ budget ih =>
    unfold drainStable StableStore.poll
    cases hr : s.stable.ready with
    | nil => exact .refl
    | cons d rest =>
      have h₁ : Steps mono now inp s { s with stable := { s.stable with ready := rest } } :=
        .single (.pollStable live hr)
      match d with
      | none => exact h₁.tail (.die _)
      | some (.wrote id) =>
        have h₂ : Steps mono now inp s ({ s with stable := { s.stable with ready := rest } }.onStableWrote now id) :=
          steps_onStableWrote inv live hr
        simp only
        generalize { s with stable := { s.stable with ready := rest } }.onStableWrote now id = s₂ at h₂
        split
        · exact h₂
        · next hp => exact h₂.trans (ih (Steps.inv h₂ inv) (by simpa using hp))
      | some (.snapshotWritten id) =>
        have written : .snapshotWritten id ∉ Fifo.tags s.cover.slots :=
          inv.snapshotWritten_notMem (by simp [StableStore.doneIds, hr, StableDone.id])
        have h₂ : Steps mono now inp s (({ s with stable := { s.stable with ready := rest } }.compactIf fun pid _ =>
              pid = id).installIf fun pid _ => pid = id) := by
          refine h₁.trans (steps_slotWritten (Steps.inv h₁ inv) live ?_ ?_)
          all_goals
            intro pid m hpid
            obtain rfl : pid = id := by simpa using hpid
            exact .inl written
        simp only
        generalize ({ s with stable := { s.stable with ready := rest } }.compactIf fun pid _ =>
          pid = id).installIf (fun pid _ => pid = id) = s₂ at h₂
        split
        · exact h₂
        · next hp => exact h₂.trans (ih (Steps.inv h₂ inv) (by simpa using hp))

/-! ## Lost completions -/

theorem steps_reconcileDurableSnapshot (inv : NodeInv mono s) (live : s.poisoned = false) :
    Steps mono now inp s s.reconcileDurableSnapshot := by
  have written : ∀ m : SnapshotMeta I, ∀ id, s.stable.durableSnapshot.any (·.identityEq m) = true →
      s.SlotWritten id m := by
    intro m id h
    obtain ⟨m', hm', heq⟩ := (Option.any_eq_true _ _).mp h
    obtain ⟨⟨m'', blob⟩, hd, rfl⟩ := Option.map_eq_some_iff.mp hm'
    obtain rfl := identityEq_iff.mp heq
    exact .inr ⟨blob, hd⟩
  unfold reconcileDurableSnapshot
  refine steps_slotWritten inv live (fun id m hr => written m id hr) fun id m hr => written m id ?_
  simp only [(compactIf_frame (s := s) _).1] at hr
  exact hr

theorem durableIndex_sendOrGateAppendAck (dest : I) (n : Index) :
    (s.sendOrGateAppendAck dest n).durable.durableIndex = s.durable.durableIndex := by
  unfold sendOrGateAppendAck
  split
  · rw [send_eq]
  · rfl

theorem durableIndex_releaseLogPending (id : OpId) (hc : s.log.visible.Contiguous) :
    (s.releaseLogPending now id).durable.durableIndex = s.durable.durableIndex := by
  unfold releaseLogPending takeLogPending
  cases s.pendingLog.find? (·.1 == id) with
  | none => rfl
  | some q =>
    obtain ⟨_, p⟩ := q
    cases p with
    | followerAck dest m => exact durableIndex_sendOrGateAppendAck dest m
    | castVote => rfl
    | campaign => rfl
    | leaderAppend upto =>
      simp only
      split
      · next role =>
        have h₁ : Ran True now .quiet { s with
            pendingLog := s.pendingLog.eraseP (·.1 == id)
            tracker := s.tracker.modifyProgress s.config.id fun p => (p.maybeUpdate upto).1 } _ :=
          Ran.onProgress role hc
        have h₂ : Sent True now .quiet ({ s with
            pendingLog := s.pendingLog.eraseP (·.1 == id)
            tracker := s.tracker.modifyProgress s.config.id
              fun p => (p.maybeUpdate upto).1 }.onProgress now) _ := Sent.maybeFlushDeferredReads
        rw [h₂.sends.durable, h₁.keeps.durable]
      · rfl

theorem steps_releaseCovered (covered : Index) (fuel : Nat)
    (inv : NodeInv mono s) (live : s.poisoned = false) (le : covered ≤ s.durable.durableIndex) :
    Steps mono now inp s (releaseCovered now covered fuel s) := by
  induction fuel generalizing s with
  | zero => exact .refl
  | succ fuel ih =>
    unfold releaseCovered
    split
    · exact .refl
    next id upto rest hq =>
    split
    · next hle =>
      have h₁ : Steps mono now inp s { s with
          durable := { s.durable with inflightAppendUpto := rest } } :=
        .single (.popInflight live hq (hle.trans le))
      have inv₁ := Steps.inv h₁ inv
      have landed : ∀ u, (id, u) ∉ rest := by
        have := (inv.shape live).inflight_ordered
        rw [show s.cover.inflight = (id, upto) :: rest from hq] at this
        exact notMem_of_ordered this
      have h₂ := h₁.trans (steps_releaseLogPending inv₁ live landed)
      have hd : ({ s with durable := { s.durable with
          inflightAppendUpto := rest } }.releaseLogPending now id).durable.durableIndex =
          s.durable.durableIndex := durableIndex_releaseLogPending id inv₁.contiguous
      simp only
      generalize { s with durable := { s.durable with
        inflightAppendUpto := rest } }.releaseLogPending now id = s₂ at h₂ hd
      split
      · exact h₂
      · next hp => exact h₂.trans (ih (Steps.inv h₂ inv) (by simpa using hp) (le.trans hd.ge))
    · exact .refl

theorem steps_reconcileDurableIndex (inv : NodeInv mono s) (live : s.poisoned = false) :
    Steps mono now inp s (s.reconcileDurableIndex now) := by
  unfold reconcileDurableIndex
  split
  · exact .refl
  split
  · exact .refl
  next d hd =>
  have h₁ : Steps mono now inp s { s with
      durable := { s.durable with durableIndex := max s.durable.durableIndex d } } :=
    .single (.raiseIndex live hd)
  exact h₁.trans (steps_releaseCovered _ _ (Steps.inv h₁ inv) live le_rfl)

theorem steps_releaseProven (fuel : Nat) (live : s.poisoned = false) :
    Steps mono now inp s (releaseProven now s.stable.durable.hardState fuel s) := by
  induction fuel generalizing s with
  | zero => exact .refl
  | succ fuel ih =>
    unfold releaseProven
    split
    · exact .refl
    next p hf =>
    obtain ⟨proven, pre, post, hsplit, herase⟩ := find?_split hf
    have h₂ : Steps mono now inp s ({ s with pendingStable := pre ++ post }.releaseStablePending now p.2) :=
      steps_releaseStablePending live hsplit proven
    have hs := (Steps.stableKept h₂).durable
    simp only [herase]
    generalize { s with pendingStable := pre ++ post }.releaseStablePending now p.2 = s₂ at h₂ hs
    split
    · exact h₂
    next hp =>
    rw [← hs]
    exact h₂.trans (ih (by simpa using hp))

theorem steps_reconcileDurableHardState (live : s.poisoned = false) :
    Steps mono now inp s (s.reconcileDurableHardState now) := by
  unfold reconcileDurableHardState
  split
  · exact .refl
  split
  · exact .refl
  next hs hd =>
  have hd : s.stable.durable.hardState = hs := by
    unfold StableStore.durableHardState at hd
    split at hd
    · exact Option.some.inj hd
    · cases hd
  subst hd
  have h₁ : Steps mono now inp s { s with
      durable := raiseDurable s.durable s.stable.durable.hardState } :=
    .single (.raiseHard live rfl)
  have h₂ : Steps mono now inp s (releaseProven now s.stable.durable.hardState s.pendingStable.length { s with
        durable := raiseDurable s.durable s.stable.durable.hardState }) :=
    h₁.trans (steps_releaseProven _ live)
  simp only
  split
  · exact h₂
  · exact h₂.trans steps_flushTermGatedAcks

/-! ## `handle_storage` -/

theorem steps_reclaimStaleSnapshotRecv (live : s.poisoned = false) :
    Steps mono now inp s s.reclaimStaleSnapshotRecv.2 := by
  cases h : s.reclaimStaleSnapshotRecv with
  | mk =>
    rcases reclaimStaleSnapshotRecv_cases h with ⟨-, he⟩ | ⟨-, he | he⟩
    · rw [he]
      exact .single (.die _)
    · rw [he]
    · rw [he]
      exact steps_dropSnapshotRecv live

theorem steps_drainStorage (inv : NodeInv mono s) (live : s.poisoned = false) :
    Steps mono now inp s (s.drainStorage now).2 := by
  unfold drainStorage
  extract_lets s₁ s₂ s₃ s₄ s₅
  have h₁ : Steps mono now inp s s₁ := steps_drainLog _ inv live
  split
  · exact h₁
  next live₁ =>
  have h₂ : Steps mono now inp s s₂ := h₁.trans (steps_drainStable _ (Steps.inv h₁ inv) (by simpa using live₁))
  split
  · exact h₂
  next live₂ =>
  have h₃ : Steps mono now inp s s₃ :=
    h₂.trans (steps_reconcileDurableSnapshot (Steps.inv h₂ inv) (by simpa using live₂))
  split
  · exact h₃
  next live₃ =>
  have h₄ : Steps mono now inp s s₄ := h₃.trans (steps_reconcileDurableIndex (Steps.inv h₃ inv) (by simpa using live₃))
  split
  · exact h₄
  next live₄ =>
  have h₅ : Steps mono now inp s s₅ := h₄.trans (steps_reconcileDurableHardState (by simpa using live₄))
  split
  · exact h₅
  next live₅ => exact h₅.trans (steps_reclaimStaleSnapshotRecv (by simpa using live₅))

theorem Steps.slot_eq (st : Steps mono now inp s s') (h : ¬ ReplacesSlot inp) : s'.slot = s.slot := by
  unfold slot StableImage.slot
  rw [(Steps.stableKept st).slot h]

theorem steps_maybeSnapshot (sub : s.Submitted) (higher : mono → s.slot ≤ s.maybeSnapshot.slot) :
    Steps mono now .snapshot s s.maybeSnapshot := by
  revert higher
  unfold maybeSnapshot
  split
  · exact fun _ => .refl
  next hgo =>
  simp only [not_or, Bool.not_eq_true] at hgo
  obtain ⟨live, free, nonzero, -⟩ := hgo
  split
  · exact fun _ => .single (.die _)
  next snap encoded =>
  split
  · next h =>
    rw [logTerm_none h]
    exact fun _ => .single (.die _)
  next lastTerm s₁ h =>
  obtain ⟨rfl, boundary⟩ := logTerm_some h
  intro higher
  by_cases mint : s₁.Mintable
  · refine .single (.capture live mint rfl ?_ encoded nonzero boundary (sub live) fun hm => ?_)
    · simpa [captureBlocked] using free
    · refine (higher hm).trans ?_
      unfold slot Endpoint.capture
      rw [submitSnapshot_eq live mint]
      simp only [visible_submitSnapshot]
      exact le_rfl
  · unfold Endpoint.capture
    rw [submitSnapshot_spent mint]
    exact .single (.junk (poisoned_poison _) rfl rfl rfl rfl (List.Sublist.refl _)
      (fun hr => ⟨hr, rfl⟩) rfl fun hp => poisonReason_poison hp _)

theorem steps_appendConfChange {cc : ConfChangeV2 I} (role : s.role = .leader)
    (conf : s.tracker.isJoint = true ∨ inp = .change) (sized : s.Sized (.confChange (some cc))) :
    Steps mono now inp s (s.appendConfChange cc).2 := by
  unfold appendConfChange
  split
  · exact .refl
  next hp =>
  split
  · exact .refl
  next index hi =>
  have h₁ : Steps mono now inp s (s.appendOwn index (.confChange (some cc))) :=
    steps_appendOwn (by simpa using hp) role (nextLogIndex_some hi) (fun _ => conf) sized
  exact h₁.tail (.idle rfl (Tracker.Moves.refl _))

theorem steps_maybeLeaveJoint : Steps mono now inp s s.maybeLeaveJoint := by
  unfold maybeLeaveJoint
  split
  · next hgo =>
    have h₁ : Steps mono now inp s (s.appendConfChange ⟨.auto, []⟩).2 :=
      steps_appendConfChange hgo.1 (.inl hgo.2.2.1) (.inr (.inl rfl))
    split
    · next s₁ h =>
      rw [h] at h₁
      exact h₁.tail (.die _)
    next h =>
    rw [h] at h₁
    exact h₁
  · exact .refl

/-- What a call of `handle_storage` does: the snapshot, if one is captured, is
captured in the middle. -/
structure Stored (mono : Prop) (now : Instant) (s s' : Endpoint I M) : Prop where
  phases : ∃ s₁ s₂, Steps mono now .quiet s s₁ ∧ Steps mono now .snapshot s₁ s₂ ∧
    Steps mono now .quiet s₂ s'

theorem Stored.of_steps (h : Steps mono now .quiet s s') : Stored mono now s s' := ⟨s', s', h, .refl, .refl⟩

theorem stored_settle (inv : NodeInv mono s) (sub : s.Submitted)
    (higher : mono → s.slot ≤ (s.settle now).2.slot) : Stored mono now s (s.settle now).2 := by
  revert higher
  unfold settle
  simp only
  generalize hd : (if s.poisoned = false ∧ s.applied < s.commit then
    (s.applyCommitted.1, s.applyCommitted.2.maybeFlushDeferredReads now) else (.drained, s)) = d
  obtain ⟨drain, s₁⟩ := d
  have h₁ : Steps mono now .quiet s s₁ := by
    split at hd
    · simp only [Prod.mk.injEq] at hd
      rw [← hd.2]
      exact (Ran.applyCommitted inv.contiguous).steps.trans Sent.maybeFlushDeferredReads.steps
    · simp only [Prod.mk.injEq] at hd
      rw [← hd.2]
  clear hd
  have sub₁ := (Steps.stableKept h₁).submitted id sub
  rw [← Steps.slot_eq h₁ (by simp [ReplacesSlot])]
  simp only
  split
  · exact fun _ => .of_steps h₁
  split
  · exact fun higher => ⟨_, _, h₁, steps_maybeSnapshot sub₁ higher, .refl⟩
  have h₃ : Steps mono now .quiet s₁.maybeSnapshot s₁.maybeSnapshot.maybeLeaveJoint := steps_maybeLeaveJoint
  split
  · intro higher
    rw [Steps.slot_eq h₃ (by simp [ReplacesSlot])] at higher
    exact ⟨_, _, h₁, steps_maybeSnapshot sub₁ higher, h₃⟩
  have h₄ : Steps mono now .quiet s₁.maybeSnapshot
      (s₁.maybeSnapshot.maybeLeaveJoint.persistCommitFloor.flushShortcutGatedAck.reconcileElectionTimer
        now) :=
    ((h₃.trans steps_persistCommitFloor).trans steps_flushShortcutGatedAck).trans
      steps_reconcileElectionTimer
  intro higher
  rw [Steps.slot_eq h₄ (by simp [ReplacesSlot])] at higher
  exact ⟨_, _, h₁, steps_maybeSnapshot sub₁ higher, h₄⟩

theorem stored_handleStorage (inv : NodeInv mono s) (sub : s.Submitted)
    (higher : mono → s.slot ≤ (s.handleStorage now).2.slot) :
    Stored mono now s (s.handleStorage now).2 := by
  revert higher
  unfold handleStorage
  split
  · exact fun _ => .of_steps .refl
  next hp =>
  have h₁ : Steps mono now .quiet s (s.drainStorage now).2 := steps_drainStorage inv (by simpa using hp)
  split
  · next h =>
    rw [h] at h₁
    exact fun _ => .of_steps h₁
  next s₁ h =>
  rw [h] at h₁
  have hs : ∀ p : StorageProgress × Endpoint I M, p.2 = (s₁.settle now).2 →
      (mono → s.slot ≤ p.2.slot) → Stored mono now s p.2 := by
    intro p hp higher
    rw [hp] at higher ⊢
    rw [← Steps.slot_eq h₁ (by simp [ReplacesSlot])] at higher
    obtain ⟨s₂, s₃, h₂, h₃, h₄⟩ := (stored_settle (Steps.inv h₁ inv)
      ((Steps.stableKept h₁).submitted id sub) higher).phases
    exact ⟨s₂, s₃, h₁.trans h₂, h₃, h₄⟩
  refine hs _ ?_
  simp only
  split
  · rfl
  · split <;> rfl

end Sailing.Endpoint
