import Sailing.Run.Acknowledge
import Sailing.Run.FailStop

/-!
# The hard state moves forward

The images of the stable store are the hard states submitted and not yet
overtaken, in order, and each is no older than the one before: in its term and
vote, in its lease floor and, as long as the snapshot slot is never lowered, in
its commit index. That index is also recoverable whatever a crash leaves: `Held`
says that every entry up to it is in all images of the log or folded into all
images of the slot.
-/

namespace Sailing

variable {I : Type} [LinearOrder I] {M : StateMachine}

namespace Endpoint

variable {mono : Prop} {now : Instant} {inp : Input I} {s s' : Endpoint I M}

/-! ## Entries a crash cannot take -/

/-- The entry at `i` is in every image of the log, or folded into every image of
the slot. -/
def HeldAt (s : Endpoint I M) (i : Index) : Prop :=
  s.SlotCovers i ∨ ∃ e, ∀ d ∈ s.log.images, d.get i = some e

/-- So is every entry below a submitted commit index. -/
def Held (s : Endpoint I M) : Prop :=
  ∀ im ∈ s.stable.images, ∀ i, 0 < i → i ≤ im.commit → s.HeldAt i

theorem Held.of_live (inv : NodeInv True s) (fl : FloorInv True s) (live : s.poisoned = false) : s.Held := by
  intro im him i _ hi
  have hc := inv.covered trivial live
  have hs := inv.shape live
  have hdur : i ≤ s.cover.dur := (hi.trans ((fl.stamped live).commit trivial im him)).trans (min_le_right _ _)
  by_cases hb : i ≤ s.cover.visible.base
  · exact .inl fun x hx => hb.trans (cover_slotCovers.mp hc.base x hx)
  rcases hc.kept i hdur with hf | hall
  · exact .inl (cover_slotCovers.mp hf.1)
  right
  have hsome : (s.cover.visible.get i).isSome := LogImage.isSome_get.mpr ⟨not_le.mp hb, hdur.trans hs.dur_last⟩
  obtain ⟨e, he⟩ := Option.isSome_iff_exists.mp hsome
  exact ⟨e, fun d hd => (hall d hd).trans he⟩

omit [LinearOrder I] in
theorem Held.of_fewer (h : s.Held) (stable : ∀ im ∈ s'.stable.images, im ∈ s.stable.images)
    (log : ∀ d ∈ s'.log.images, d ∈ s.log.images) : s'.Held := by
  intro im him i h0 hi
  rcases h im (stable im him) i h0 hi with hc | ⟨e, he⟩
  · exact .inl fun x hx => hc x (stable x hx)
  · exact .inr ⟨e, fun d hd => he d (log d hd)⟩

/-! ## The floors of a run -/

variable {bootEpoch : Nat} {brings : Input I → Prop} {rng : Nat → Nat} {im : StableImage I}

omit [LinearOrder I] in
/-- What restart makes of a node whose commit floor is held. -/
theorem RecoveredFrom.floors {c : Config I} {r : Endpoint I M} (h : RecoveredFrom c now s r bootEpoch)
    (held : mono → ∀ i, 0 < i → i ≤ s.stable.durable.commit → i ≤ s.stable.durable.slot ∨
      i ≤ s.log.durable.lastIndex) : FloorInv mono r := by
  have himg : ∀ im ∈ r.stable.images, im = s.stable.durable := fun im him => by
    rw [h.stable] at him
    simpa [StableStore.images] using him
  refine ⟨?_, fun hl => ⟨fun hm im him => ?_, fun im him => ?_, fun im him => ?_, fun im him => ?_, ?_,
    fun im him => ?_⟩⟩
  · rw [h.stable]
    exact List.pairwise_singleton _ _
  · rw [himg im him]
    have hlast := h.last hl
    have hle : s.stable.durable.commit ≤ r.log.lastIndex := by
      rcases Nat.eq_zero_or_pos s.stable.durable.commit with h0 | h0
      · rw [h0]
        exact Nat.zero_le _
      have hb : boundary s.stable.durable.snapshot = s.stable.durable.slot := rfl
      have hc : s.stable.durable.hardState.commit = s.stable.durable.commit := rfl
      rcases hlast with ⟨he, hsl⟩ | ⟨he, hwhy⟩ <;> rcases held hm _ h0 le_rfl with hk | hk <;> rw [hb] at * <;> lia
    refine le_min ?_ (h.index ▸ hle)
    have hcm : min s.stable.durable.commit r.log.lastIndex ≤ r.commit := h.commit hl
    rw [min_eq_left hle] at hcm
    exact hcm
  · rw [himg im him]
    exact h.floor hl
  · rw [himg im him, h.durableLease]
    exact le_rfl
  · have hin := Fifo.since_subset_images him
    have hin : im ∈ r.stable.images := hin
    rw [himg im hin, h.lastLease]
    exact le_rfl
  · rw [h.lastLease]
    exact h.floor hl
  · rw [himg im him, h.founding hl]

omit [LinearOrder I] in
theorem FloorInv.events (h : FloorInv mono s) (events : List (Event I M.Response)) :
    FloorInv mono { s with events := events } :=
  h.kept ⟨rfl, rfl, le_rfl, rfl, rfl, rfl, le_rfl, id, rfl⟩

theorem Does.floors (st : Does mono now brings s s') (inv : NodeInv mono s)
    (h : FloorInv mono s) : FloorInv mono s' := by
  induction st with
  | refl => exact h
  | tail hd st ih =>
    obtain ⟨_, _, st⟩ := st
    exact st.floors (Does.inv hd inv) ih

theorem Does.held (st : Does True now brings s s') (inv : NodeInv True s)
    (fl : FloorInv True s) (h : s.Held) : s'.Held := by
  induction st with
  | refl => exact h
  | @tail s₁ s₂ hd st ih =>
    obtain ⟨_, _, st⟩ := st
    have inv₁ := Does.inv hd inv
    by_cases live : s₂.poisoned = false
    · exact Held.of_live (st.inv inv₁) (st.floors inv₁ (Does.floors hd inv fl)) live
    · have hu := st.untouched ((Bool.not_eq_false _).mp live)
      exact ih.of_fewer (fun im him => hu.stable ▸ him) fun d hd => hu.log ▸ hd

omit [LinearOrder I] in
theorem Held.durable (h : s.Held) {i : Index} (h0 : 0 < i) (hi : i ≤ s.stable.durable.commit) :
    i ≤ s.stable.durable.slot ∨ ∃ e, s.log.durable.get i = some e := by
  rcases h _ List.mem_cons_self i h0 hi with hc | ⟨e, he⟩
  · exact .inl (hc _ List.mem_cons_self)
  · exact .inr ⟨e, he _ List.mem_cons_self⟩

omit [LinearOrder I] in
theorem RecoveredFrom.held_of {c : Config I} {r : Endpoint I M}
    (h : RecoveredFrom c now s r bootEpoch) (hs : s.Held) : r.Held := by
  intro im him i h0 hi
  have himg : im = s.stable.durable := by
    rw [h.stable] at him
    simpa [StableStore.images] using him
  rw [himg] at hi
  rcases h.held i hi (hs.durable h0 hi) with hb | he
  · refine .inl fun x hx => ?_
    rw [h.stable] at hx
    simp only [StableStore.images, List.map_nil, List.mem_singleton] at hx
    rw [hx]
    exact hb
  · exact .inr he

/-! ## Runs -/

/-- What holds after every call of a run that never lowers the slot. -/
structure RunInv (s : Endpoint I M) : Prop where
  inv : NodeInv True s
  submitted : s.Submitted
  floors : FloorInv True s
  held : s.Held

/-- `b` may follow `a`. -/
structure HardStateLe (a b : HardState I) : Prop where
  ballot : Voting.Le (a.term, a.vote) (b.term, b.vote)
  commit : a.commit ≤ b.commit
  lease : rank a.leaseSupport.promised ≤ rank b.leaseSupport.promised
  founding : a.foundingGen ≤ b.foundingGen

omit [LinearOrder I] in
theorem HardStateLe.refl (a : HardState I) : HardStateLe a a := ⟨Voting.Le.refl _, le_rfl, le_rfl, le_rfl⟩

omit [LinearOrder I] in
theorem HardStateLe.trans {a b c : HardState I} (h : HardStateLe a b) (k : HardStateLe b c) : HardStateLe a c :=
  ⟨h.ballot.trans k.ballot, h.commit.trans k.commit, h.lease.trans k.lease, h.founding.trans k.founding⟩

theorem RunInv.ordered (h : RunInv s) : (s.stable.images.map (·.hardState)).Pairwise HardStateLe := by
  have hb := h.inv.ballots.ordered
  rw [ballots_kept, List.pairwise_map] at hb
  rw [List.pairwise_map]
  refine (hb.and h.floors.ordered).imp fun hab => ?_
  exact ⟨hab.1, hab.2.commit trivial, hab.2.lease, hab.2.founding⟩

theorem RunInv.crash (h : RunInv s) {prior : Option Duration}
    (later : s.nextOpId.epoch < bootEpoch) : RunInv (s.crash now rng bootEpoch prior) := by
  obtain ⟨r, s', inv, from_, st, hb⟩ := exists_recovered now h.inv later
  have hd : Does True now (fun i => i = .quiet) r s' := Steps.does st rfl
  have fl : FloorInv True r := from_.floors fun _ i h0 hi => by
    rcases h.held.durable h0 hi with hs | ⟨e, he⟩
    · exact .inl hs
    · exact .inr (LogImage.isSome_get.mp (Option.isSome_of_eq_some he)).2
  have held : s'.Held := Does.held hd inv fl (from_.held_of h.held)
  rw [hb]
  exact ⟨(hd.inv inv).events [], (Steps.stableKept st).submitted id from_.submitted,
    (Does.floors hd inv fl).events [], held⟩

/-- What the stores, and whoever polls, do between the calls of the node. -/
structure StoreMove (s s' : Endpoint I M) : Prop where
  stable : s'.stable.images <:+ s.stable.images
  since : ∀ im ∈ s'.leaseSince, im ∈ s.leaseSince
  log : ∀ d ∈ s'.log.images, d ∈ s.log.images
  durable : s'.durable = s.durable
  commit : s'.commit = s.commit
  reason : s'.poisonReason = s.poisonReason
  pending : s'.pendingStable = s.pendingStable
  outgoing : s'.outgoing.Sublist s.outgoing

namespace StoreMove

omit [LinearOrder I] in
theorem of_same (stable : s'.stable.durable = s.stable.durable)
    (staged : s'.stable.staged = s.stable.staged) (log : ∀ d ∈ s'.log.images, d ∈ s.log.images)
    (durable : s'.durable = s.durable) (commit : s'.commit = s.commit)
    (reason : s'.poisonReason = s.poisonReason) (pending : s'.pendingStable = s.pendingStable)
    (outgoing : s'.outgoing.Sublist s.outgoing) : StoreMove s s' := by
  refine ⟨?_, fun im him => ?_, log, durable, commit, reason, pending, outgoing⟩
  · unfold StableStore.images
    rw [stable, staged]
  · unfold leaseSince at him ⊢
    rwa [stable, staged, durable] at him

omit [LinearOrder I] in
theorem of_sync (s : Endpoint I M) : StoreMove s { s with stable := s.stable.sync } := by
  unfold StableStore.sync
  split
  · exact of_same rfl rfl (fun _ h => h) rfl rfl rfl rfl (List.Sublist.refl _)
  next im d rest hs =>
  refine ⟨?_, fun x hx => ?_, fun _ h => h, rfl, rfl, rfl, rfl, List.Sublist.refl _⟩
  · simp only [StableStore.images, hs, List.map_cons]
    exact List.suffix_cons _ _
  · unfold leaseSince
    rw [hs]
    exact Fifo.mem_since_sync hx

end StoreMove

/-- Every call is the node's own, a crash, or one the node takes no part in. -/
theorem exec_storeMove {c : Call I M} (hc : c.isPublic ≠ true) (same : c.isCrash = false) : StoreMove s (s.exec c) := by
  have surfaced : ∀ {l : LogStore I}, l.durable = s.log.durable → l.staged = s.log.staged →
      ∀ d ∈ l.images, d ∈ s.log.images := fun h₁ h₂ d hd => by
    unfold LogStore.images at hd
    rwa [h₁, h₂] at hd
  cases c with
  | pollMessage =>
    obtain ⟨out, he, hsub⟩ := pollMessage_outgoing (s := s)
    have he : s.exec .pollMessage = { s with outgoing := out } := he
    rw [he]
    exact .of_same rfl rfl (fun _ h => h) rfl rfl rfl rfl hsub.sublist
  | pollEvent =>
    obtain ⟨events, he⟩ := pollEvent_events (s := s)
    have he : s.exec .pollEvent = { s with events := events } := he
    rw [he]
    exact .of_same rfl rfl (fun _ h => h) rfl rfl rfl rfl (List.Sublist.refl _)
  | syncStable => exact .of_sync s
  | syncLog =>
    exact .of_same rfl rfl (fun _ => mem_images_syncLog s.log) rfl rfl rfl rfl (List.Sublist.refl _)
  | surfaceLog i =>
    exact .of_same rfl rfl (surfaced (surfaceLog_staged _ i).1 (surfaceLog_staged _ i).2) rfl rfl rfl rfl
      (List.Sublist.refl _)
  | surfaceStable i =>
    exact .of_same (surface_staged _ i).1 (surface_staged _ i).2 (fun _ h => h) rfl rfl rfl rfl (List.Sublist.refl _)
  | crash => exact absurd same (by simp [Call.isCrash])
  | loseLog | loseStable | failLog | failStable | logReads | stableReads =>
    exact .of_same rfl rfl (fun _ h => h) rfl rfl rfl rfl (List.Sublist.refl _)
  | _ => exact absurd rfl hc

omit [LinearOrder I] in
theorem FloorInv.storeMove (h : FloorInv mono s) (k : StoreMove s s') : FloorInv mono s' := by
  refine ⟨h.ordered.sublist k.stable.sublist, fun hl => ?_⟩
  have hst := h.stamped ((congrArg Option.isSome k.reason).symm.trans hl)
  have hsub := k.stable.subset
  refine ⟨fun hm im him => ?_, fun im him => ?_, fun im him => ?_, fun im him => ?_, ?_, fun im him => ?_⟩
  · unfold durableCommit
    rw [k.durable, k.commit]
    exact hst.commit hm im (hsub him)
  · rw [k.durable]
    exact hst.lease im (hsub him)
  · rw [k.durable]
    exact hst.durable im (hsub him)
  · rw [k.durable]
    exact hst.last im (k.since im him)
  · rw [k.durable]
    exact hst.last_le
  · rw [k.durable]
    exact hst.founding im (hsub him)

theorem RunInv.exec (h : RunInv s) (c : Call I M)
    (higher : c.isPublic = true → s.slot ≤ (s.exec c).slot) : RunInv (s.exec c) := by
  obtain ⟨inv', sub'⟩ := h.inv.exec h.submitted c fun _ => higher
  by_cases hc : c.isPublic = true
  · obtain ⟨hd, -⟩ := does_exec hc h.inv h.submitted fun _ => higher hc
    exact ⟨inv', sub', Does.floors hd h.inv h.floors, Does.held hd h.inv h.floors h.held⟩
  cases hcrash : c.isCrash with
  | false =>
    have k : StoreMove s (s.exec c) := exec_storeMove hc hcrash
    exact ⟨inv', sub', h.floors.storeMove k, h.held.of_fewer (fun _ => (k.stable.subset ·)) k.log⟩
  | true =>
    obtain ⟨now, rng, bootEpoch, prior, rfl⟩ := Call.eq_crash hcrash
    simp only [Endpoint.exec]
    split
    · next hlater => exact h.crash hlater.1
    · exact h

theorem RunInv.execs (calls : List (Call I M)) (h : RunInv s) (rise : s.SlotsRise calls) : RunInv (s.execs calls) := by
  induction calls generalizing s with
  | nil => exact h
  | cons c cs ih => exact ih (h.exec c rise.1) rise.2

theorem new_images {config : Config I} (h : im ∈ (new config now rng M.init : Endpoint I M).stable.images) :
    im = StableStore.empty.durable := List.mem_singleton.mp h

theorem new_floors (config : Config I) (now : Instant) (rng : Nat → Nat) :
    FloorInv mono (new config now rng M.init : Endpoint I M) := by
  refine ⟨List.pairwise_singleton _ _, fun _ => ⟨fun _ im him => ?_, fun im him => ?_,
    fun im him => Nat.zero_le _, fun im him => Nat.zero_le _, le_rfl, fun im him => ?_⟩⟩
  all_goals
    rw [new_images him]
    exact Nat.zero_le _

theorem RunInv.new (config : Config I) (now : Instant) (rng : Nat → Nat) :
    RunInv (new config now rng M.init : Endpoint I M) := by
  have h : NodeInv True (Endpoint.new config now rng M.init : Endpoint I M) ∧
      (Endpoint.new config now rng M.init : Endpoint I M).Submitted := new_inv config now rng
  refine ⟨h.1, h.2, new_floors config now rng, fun im him i h0 hi => ?_⟩
  rw [new_images him] at hi
  exact absurd hi (not_le.mpr h0)

/-- The generation is seeded before anything is written. -/
theorem RunInv.seedLineage (h : RunInv s) {generation : Nat}
    (above : s.durable.foundingGen ≤ generation) : RunInv (s.seedLineage generation) := by
  refine ⟨⟨h.inv.ballots, h.inv.log, h.inv.votes, h.inv.shape, h.inv.covered⟩, h.submitted,
    ⟨h.floors.ordered, fun live => ?_⟩, h.held⟩
  have hst := h.floors.stamped live
  exact ⟨hst.commit, hst.lease, hst.durable, hst.last, hst.last_le, fun im him => (hst.founding im him).trans above⟩

/-! ## What one call does to the hard state -/

omit [LinearOrder I] in
theorem images_getLast (st : StableStore I) : st.images.getLast? = some st.visible := by
  rcases List.eq_nil_or_concat st.staged with hs | ⟨l, p, hs⟩
  · simp [StableStore.images, StableStore.visible, hs]
  have hi : st.images = (st.durable :: l.map Prod.fst) ++ [p.1] := by simp [StableStore.images, hs]
  rw [hi, List.getLast?_append]
  simp [StableStore.visible, hs]

theorem RunInv.le_visible (h : RunInv s) (him : im ∈ s.stable.images) :
    HardStateLe im.hardState s.stable.visible.hardState := by
  obtain ⟨l, hl⟩ := List.getLast?_eq_some_iff.mp (images_getLast s.stable)
  have ho := h.ordered
  rw [hl, List.map_append] at ho
  rw [hl] at him
  rcases List.mem_append.mp him with him | him
  · exact (List.pairwise_append.mp ho).2.2 _ (List.mem_map_of_mem him) _ (by simp)
  · rw [List.mem_singleton.mp him]
    exact .refl _

theorem RunInv.durable_le (h : RunInv s) (him : im ∈ s.stable.images) :
    HardStateLe s.stable.durable.hardState im.hardState := by
  have ho := h.ordered
  simp only [StableStore.images, List.map_cons] at ho him
  rcases List.mem_cons.mp him with rfl | him
  · exact .refl _
  · exact List.rel_of_pairwise_cons ho (List.mem_map_of_mem him)

theorem Does.durable (st : Does mono now brings s s') : s'.stable.durable = s.stable.durable := by
  induction st with
  | refl => rfl
  | tail _ st ih =>
    obtain ⟨_, _, st⟩ := st
    exact st.stableKept.durable.trans ih

theorem RunInv.crash_durable (h : RunInv s) {prior : Option Duration} (later : s.nextOpId.epoch < bootEpoch) :
    (s.crash now rng bootEpoch prior).stable.durable = s.stable.durable := by
  obtain ⟨r, s', inv, from_, st, hb⟩ := exists_recovered now h.inv later
  rw [hb]
  show s'.stable.durable = _
  rw [(Steps.stableKept st).durable, from_.stable]

theorem Does.images (st : Does mono now brings s s') : s.stable.images <+: s'.stable.images := by
  induction st with
  | refl => exact List.prefix_refl _
  | tail _ st ih =>
    obtain ⟨_, _, st⟩ := st
    exact ih.trans st.stableKept.images

omit [LinearOrder I] in
theorem StoreMove.visible (k : StoreMove s s') : s'.stable.visible = s.stable.visible := by
  obtain ⟨l, hl⟩ := k.stable
  have newest : some s'.stable.visible = some s.stable.visible := by
    rw [← images_getLast, ← images_getLast s.stable, ← hl, List.getLast?_append, images_getLast]
    rfl
  exact Option.some.inj newest

/-- Within one life the newest write is never taken back: a public call only
adds to the store, and the stores keep what they were given. -/
theorem RunInv.visible_exec (h : RunInv s) (c : Call I M)
    (higher : c.isPublic = true → s.slot ≤ (s.exec c).slot) (same : c.isCrash = false) :
    HardStateLe s.stable.visible.hardState (s.exec c).stable.visible.hardState := by
  by_cases hc : c.isPublic = true
  · obtain ⟨hd, -⟩ := does_exec hc h.inv h.submitted fun _ => higher hc
    exact (h.exec c higher).le_visible ((Does.images hd).subset s.stable.visible_mem)
  have k : StoreMove s (s.exec c) := exec_storeMove hc same
  rw [k.visible]
  exact .refl _

/-- What is durable is only ever replaced by a later write, and survives a
restart. -/
theorem RunInv.durable_exec (h : RunInv s) (c : Call I M) (higher : c.isPublic = true → s.slot ≤ (s.exec c).slot) :
    HardStateLe s.stable.durable.hardState (s.exec c).stable.durable.hardState := by
  by_cases hc : c.isPublic = true
  · obtain ⟨hd, -⟩ := does_exec hc h.inv h.submitted fun _ => higher hc
    rw [Does.durable hd]
    exact .refl _
  cases hcrash : c.isCrash with
  | false =>
    have k : StoreMove s (s.exec c) := exec_storeMove hc hcrash
    exact h.durable_le (k.stable.subset List.mem_cons_self)
  | true =>
    obtain ⟨now, rng, bootEpoch, prior, rfl⟩ := Call.eq_crash hcrash
    simp only [Endpoint.exec]
    split
    · next hlater =>
      rw [h.crash_durable hlater.1]
      exact .refl _
    · exact .refl _

theorem RunInv.visible_execs (later : List (Call I M)) (h : RunInv s)
    (rise : s.SlotsRise later) (same : ∀ c ∈ later, c.isCrash = false) :
    HardStateLe s.stable.visible.hardState (s.execs later).stable.visible.hardState := by
  induction later generalizing s with
  | nil => exact .refl _
  | cons c cs ih =>
    exact (h.visible_exec c rise.1 (same c List.mem_cons_self)).trans
      (ih (h.exec c rise.1) rise.2 fun d hd => same d (List.mem_cons_of_mem _ hd))

theorem RunInv.durable_execs (later : List (Call I M)) (h : RunInv s) (rise : s.SlotsRise later) :
    HardStateLe s.stable.durable.hardState (s.execs later).stable.durable.hardState := by
  induction later generalizing s with
  | nil => exact .refl _
  | cons c cs ih => exact (h.durable_exec c rise.1).trans (ih (h.exec c rise.1) rise.2)

theorem SlotsRise.append {later : List (Call I M)} : {calls : List (Call I M)} → {s : Endpoint I M} →
    s.SlotsRise (calls ++ later) → s.SlotsRise calls ∧ (s.execs calls).SlotsRise later
  | [], _, h => ⟨trivial, h⟩
  | _ :: _, _, h => ⟨⟨h.1, (SlotsRise.append h.2).1⟩, (SlotsRise.append h.2).2⟩

/-- The last index a node recovers from a log and a slot: a log that starts
above the slot is of no use. -/
def recoverable (log : LogImage I) (slot : Index) : Index :=
  if log.base ≤ slot then max slot log.lastIndex else slot

theorem RunInv.recoverable (h : RunInv s) :
    s.stable.durable.hardState.commit ≤ recoverable s.log.durable s.stable.durable.slot := by
  have hc : s.stable.durable.hardState.commit = s.stable.durable.commit := rfl
  rw [hc]
  by_cases hle : s.stable.durable.commit ≤ s.stable.durable.slot
  · unfold Endpoint.recoverable
    split
    · exact hle.trans (le_max_left _ _)
    · exact hle
  have hlt := not_le.mp hle
  -- the entry above the slot is in the log, so the log starts at or below it
  have get : ∀ i, s.stable.durable.slot < i → i ≤ s.stable.durable.commit →
      s.log.durable.base < i ∧ i ≤ s.log.durable.lastIndex := fun i hi hic => by
    rcases h.held.durable (Nat.zero_lt_of_lt hi) hic with hs | ⟨e, he⟩
    · exact absurd hs (not_le.mpr hi)
    · exact LogImage.isSome_get.mp (Option.isSome_of_eq_some he)
  have hbase := (get _ (Nat.lt_succ_self _) hlt).1
  have hlast := (get _ hlt le_rfl).2
  unfold Endpoint.recoverable
  rw [if_pos (Nat.lt_succ_iff.mp hbase)]
  exact hlast.trans (le_max_right _ _)

/-- In a run in which no call lowers the slot the writes of the hard state are
submitted in order, within one life and on from what a crash leaves, and the
commit index that is durable can be recovered. -/
theorem execs_hardState_forward (config : Config I) (now : Instant) (rng : Nat → Nat)
    (generation : Nat) (calls later : List (Call I M))
    (rise : ((Endpoint.new config now rng M.init : Endpoint I M).seedLineage generation).SlotsRise
      (calls ++ later)) :
    let s := ((Endpoint.new config now rng M.init : Endpoint I M).seedLineage generation).execs calls
    (s.stable.images.map (·.hardState)).Pairwise HardStateLe ∧
    ((∀ c ∈ later, c.isCrash = false) →
      HardStateLe s.stable.visible.hardState (s.execs later).stable.visible.hardState) ∧
    HardStateLe s.stable.durable.hardState (s.execs later).stable.durable.hardState ∧
    s.stable.durable.hardState.commit ≤ recoverable s.log.durable s.stable.durable.slot := by
  intro s
  obtain ⟨before, after⟩ := SlotsRise.append rise
  have h : RunInv s :=
    ((RunInv.new config now rng).seedLineage (Nat.zero_le _)).execs calls before
  exact ⟨h.ordered, h.visible_execs later after, h.durable_execs later after, h.recoverable⟩

end Endpoint

namespace Tape

/-- A follower told that its two entries are committed, then in a new life. -/
def rebooted : List (Call Nat tape) :=
  [.message 0 0 (.appendEntries ⟨1, 0, 2, 1, [], 2⟩), .storage 0] ++ persist 0 2 ++
  [.crash 10 (fun _ => 0) 1 none]

theorem acknowledged_forward :
    ((follower.seedLineage 3).execs acknowledged).stable.durable.hardState.commit = 0 ∧
    (((follower.seedLineage 3).execs acknowledged).execs rebooted).stable.durable.hardState.commit = 2 ∧
    Endpoint.HardStateLe ((follower.seedLineage 3).execs acknowledged).stable.durable.hardState
      (((follower.seedLineage 3).execs acknowledged).execs rebooted).stable.durable.hardState :=
  ⟨by decide +kernel, by decide +kernel,
    (Endpoint.execs_hardState_forward _ _ _ 3 acknowledged rebooted (by decide +kernel)).2.2.1⟩

/-- Snapshots through 3 and 5 go to the slot; a third transfer starts, so the
second is not installed. When the first is durable the node has applied 3 and
captures there, over the second, and takes the first, which is the same
snapshot, for its own. It writes the commit index 5, captures at 5 and, the
second transfer having become durable, compacts the log through 5. Then the
snapshot through 3 becomes durable, and the commit index with it. -/
def commitLost : List (Call Nat tape) :=
  let conf : ConfState Nat := .fromVoters {0, 1, 2}
  [.message 0 0 (.installSnapshot ⟨1, 0, ⟨3, 1, conf⟩, [1, 2, 3], 0, 0⟩),
    .message 0 0 (.installSnapshot ⟨1, 0, ⟨5, 1, conf⟩, [1, 2, 3, 4, 5], 0, 0⟩),
    .message 0 0 (.installSnapshot ⟨1, 0, ⟨7, 1, conf⟩, [1], 0, 7⟩), .syncStable, .syncStable,
    .message 0 0 (.appendEntries ⟨1, 0, 0, 0, run 1 1 [1, 2, 3], 3⟩)] ++ persistLog 0 3 ++
  [.storage 0, reads (3 < ·), .message 0 0 (.appendEntries ⟨1, 0, 3, 1, run 1 4 [4, 5], 5⟩)] ++
  persistLog 0 3 ++ [reads fun _ => false, .storage 0, .syncStable, .storage 0] ++
  List.replicate 2 .syncLog ++ List.replicate 3 .syncStable

/-- The commit index 5 is durable, and what could be recovered ends at 3: the
log has dropped its prefix through 5, and a restart refuses it. -/
theorem commitLost_unrecoverable :
    let s := follower.execs commitLost
    s.poisonReason = none ∧ s.stable.durable.hardState.commit = 5 ∧ s.stable.durable.slot = 3 ∧
    s.log.durable.base = 5 ∧ Endpoint.recoverable s.log.durable s.stable.durable.slot = 3 ∧
    (s.exec (.crash 10 (fun _ => 0) 1 none)).poisonReason = some .orphanedLog := by
  decide +kernel

end Tape

end Sailing
