import Sailing.Calls.Sending
import Sailing.Node.Invariant

/-!
# Floors that only rise

The hard state carries two floors besides the ballot: the commit index a crash
cannot lower, and the longest lease the node has promised to support. Every
write stamps both from memory, where they only rise; `FloorInv` says so of all
images of the stable store, and that the lease the node believes durable is.
-/

namespace Sailing

variable {I : Type} [LinearOrder I] {M : StateMachine}

/-- The derived order on `Option<Duration>`, as an order of numbers. -/
def rank : Option Duration → Nat
  | none => 0
  | some d => d + 1

theorem optLt_iff {a b : Option Duration} : Endpoint.optLt a b = true ↔ rank a < rank b := by
  cases a <;> cases b <;> simp [Endpoint.optLt, rank]

@[simp] theorem rank_optMax (a b : Option Duration) : rank (LeaseSupport.optMax a b) = max (rank a) (rank b) := by
  cases a <;> cases b <;> simp [LeaseSupport.optMax, rank]

/-- The lease an image of the store records. -/
def StableImage.lease (im : StableImage I) : Nat := rank im.hardState.leaseSupport.promised

def StableImage.commit (im : StableImage I) : Index := im.hardState.commit

/-- No floor of `b` is below that of `a`; of the commit index this is known
under `mono` only, as in `Step`. -/
structure StableImage.FloorsLe (mono : Prop) (a b : StableImage I) : Prop where
  commit : mono → a.commit ≤ b.commit
  lease : a.lease ≤ b.lease
  founding : a.hardState.foundingGen ≤ b.hardState.foundingGen

omit [LinearOrder I] in
theorem StableImage.FloorsLe.trans {mono : Prop} {a b c : StableImage I} (h : a.FloorsLe mono b)
    (k : b.FloorsLe mono c) : a.FloorsLe mono c :=
  ⟨fun hm => (h.commit hm).trans (k.commit hm), h.lease.trans k.lease, h.founding.trans k.founding⟩

namespace Endpoint

variable {mono : Prop} {now : Instant} {inp : Input I} {s s' : Endpoint I M}

/-- The images a crash can leave once the newest lease floor is durable. -/
def leaseSince (s : Endpoint I M) : List (StableImage I) :=
  Fifo.since s.stable.durable s.stable.staged (.wrote s.durable.leaseSupportPersistOpid)

/-- What holds of the floors in a live node. -/
structure Stamped (mono : Prop) (s : Endpoint I M) : Prop where
  commit : mono → ∀ im ∈ s.stable.images, im.commit ≤ s.durableCommit
  lease : ∀ im ∈ s.stable.images, im.lease ≤ rank s.durable.leaseSupportFloor
  durable : ∀ im ∈ s.stable.images, rank s.durable.durableLeaseSupport ≤ im.lease
  last : ∀ im ∈ s.leaseSince, rank s.durable.lastSubmittedLeaseSupport ≤ im.lease
  last_le : rank s.durable.lastSubmittedLeaseSupport ≤ rank s.durable.leaseSupportFloor
  founding : ∀ im ∈ s.stable.images, im.hardState.foundingGen ≤ s.durable.foundingGen

structure FloorInv (mono : Prop) (s : Endpoint I M) : Prop where
  ordered : s.stable.images.Pairwise (StableImage.FloorsLe mono)
  stamped : s.poisoned = false → Stamped mono s

/-- What an effect that writes nothing does to the floors in memory. -/
structure FloorsKept (s s' : Endpoint I M) : Prop where
  saved : s'.stable.durable = s.stable.durable
  staged : s'.stable.staged = s.stable.staged
  floor : rank s.durable.leaseSupportFloor ≤ rank s'.durable.leaseSupportFloor
  durable : s'.durable.durableLeaseSupport = s.durable.durableLeaseSupport
  last : s'.durable.lastSubmittedLeaseSupport = s.durable.lastSubmittedLeaseSupport
  id : s'.durable.leaseSupportPersistOpid = s.durable.leaseSupportPersistOpid
  commit : s.durableCommit ≤ s'.durableCommit
  live : s'.poisoned = false → s.poisoned = false
  founding : s'.durable.foundingGen = s.durable.foundingGen

omit [LinearOrder I] in
theorem FloorsKept.of_keeps (h : Keeps s s') : FloorsKept s s' := by
  refine ⟨by rw [h.stable], by rw [h.stable], by rw [h.durable], by rw [h.durable], by rw [h.durable],
    by rw [h.durable], ?_, h.live, by rw [h.durable]⟩
  unfold durableCommit
  rw [h.durable]
  exact min_le_min_right _ h.commit

omit [LinearOrder I] in
theorem FloorsKept.of_sends (h : Sends s s') : FloorsKept s s' := .of_keeps h.keeps

namespace FloorInv

omit [LinearOrder I] in
theorem kept (h : FloorInv mono s) (k : FloorsKept s s') : FloorInv mono s' := by
  have hi : s'.stable.images = s.stable.images := by
    unfold StableStore.images
    rw [k.saved, k.staged]
  have hs : s'.leaseSince = s.leaseSince := by
    unfold leaseSince
    rw [k.saved, k.staged, k.id]
  refine ⟨hi ▸ h.ordered, fun live => ?_⟩
  have hst := h.stamped (k.live live)
  refine ⟨fun hm im him => ?_, fun im him => ?_, fun im him => ?_, fun im him => ?_, ?_, fun im him => ?_⟩
  · exact (hst.commit hm im (hi ▸ him)).trans k.commit
  · exact (hst.lease im (hi ▸ him)).trans k.floor
  · rw [k.durable]
    exact hst.durable im (hi ▸ him)
  · rw [k.last]
    exact hst.last im (hs ▸ him)
  · rw [k.last]
    exact hst.last_le.trans k.floor
  · rw [k.founding]
    exact hst.founding im (hi ▸ him)

variable {im : StableImage I}

omit [LinearOrder I] in
theorem le_visible (h : FloorInv mono s) (him : im ∈ s.stable.images) : im.FloorsLe mono s.stable.visible := by
  have hrefl : s.stable.visible.FloorsLe mono s.stable.visible := ⟨fun _ => le_rfl, le_rfl, le_rfl⟩
  rcases List.eq_nil_or_concat s.stable.staged with hs | ⟨l, p, hs⟩
  · have : im = s.stable.visible := by
      simpa [StableStore.images, StableStore.visible, hs] using him
    rw [this]
    exact hrefl
  · have hv : s.stable.visible = p.1 := by simp [StableStore.visible, hs]
    have ho := h.ordered
    have hi : s.stable.images = (s.stable.durable :: l.map Prod.fst) ++ [p.1] := by
      simp [StableStore.images, hs]
    rw [hi] at ho him
    rcases List.mem_append.mp him with him | him
    · rw [hv]
      exact (List.pairwise_append.mp ho).2.2 im him p.1 (by simp)
    · rw [List.mem_singleton.mp him, ← hv]
      exact hrefl

omit [LinearOrder I] in
theorem ordered_stage (h : FloorInv mono s) {d : StableDone} (hle : s.stable.visible.FloorsLe mono im) :
    ({ s.stable with staged := s.stable.staged ++ [(im, d)] } : StableStore I).images.Pairwise
      (StableImage.FloorsLe mono) := by
  have hi : ({ s.stable with staged := s.stable.staged ++ [(im, d)] } : StableStore I).images =
      s.stable.images ++ [im] := by simp [StableStore.images]
  rw [hi, List.pairwise_append]
  refine ⟨h.ordered, List.pairwise_singleton _ _, fun a ha b hb => ?_⟩
  rw [List.mem_singleton.mp hb]
  exact (h.le_visible ha).trans hle

omit [LinearOrder I] in
theorem images_stage {st : StableStore I} {x : StableImage I} {d : StableDone}
    (hx : x ∈ ({ st with staged := st.staged ++ [(im, d)] } : StableStore I).images) :
    x ∈ st.images ∨ x = im := by
  have hi : ({ st with staged := st.staged ++ [(im, d)] } : StableStore I).images =
      st.images ++ [im] := by simp [StableStore.images]
  rw [hi] at hx
  simpa using hx

omit [LinearOrder I] in
theorem visible_mem_leaseSince : s.stable.visible ∈ s.leaseSince := Fifo.newest_mem_since

end FloorInv

/-- What a write of the hard state `hs` stages and notes of the lease. -/
structure Records (s s' : Endpoint I M) (hs : HardState I) : Prop where
  stable : s'.stable = s.stable.submitWrite s.nextOpId (s.stampFloors hs)
  floor : s'.durable.leaseSupportFloor = s.durable.leaseSupportFloor
  durable : s'.durable.durableLeaseSupport = s.durable.durableLeaseSupport
  last : s'.durable.lastSubmittedLeaseSupport =
    if optLt s.durable.lastSubmittedLeaseSupport (s.stampFloors hs).leaseSupport.promised then
      (s.stampFloors hs).leaseSupport.promised else s.durable.lastSubmittedLeaseSupport
  id : s'.durable.leaseSupportPersistOpid =
    if optLt s.durable.lastSubmittedLeaseSupport (s.stampFloors hs).leaseSupport.promised then
      s.nextOpId else s.durable.leaseSupportPersistOpid
  commit : s'.durableCommit = s.durableCommit
  founding : s'.durable.foundingGen = s.durable.foundingGen

namespace FloorInv

omit [LinearOrder I] in
/-- A write that stamps a commit between the newest and the one in memory. -/
theorem record {hs : HardState I} (h : FloorInv mono s) (ids : s.ballots.Stored) (live : s.poisoned = false)
    (w : Records s s' hs) (above : mono → s.stable.visible.commit ≤ hs.commit)
    (below : mono → hs.commit ≤ s.durableCommit)
    (lease : rank hs.leaseSupport.promised ≤ rank s.durable.leaseSupportFloor)
    (founding : hs.foundingGen ≤ s.durable.foundingGen) : FloorInv mono s' := by
  have hst := h.stamped live
  have hlease : rank (s.stampFloors hs).leaseSupport.promised = rank s.durable.leaseSupportFloor := by
    show rank (LeaseSupport.optMax _ _) = _
    rw [rank_optMax]
    exact max_eq_right lease
  set im : StableImage I := { s.stable.visible with hardState := s.stampFloors hs } with him
  have hil : im.lease = rank s.durable.leaseSupportFloor := hlease
  have hif : im.hardState.foundingGen = s.durable.foundingGen := max_eq_right founding
  have hic : im.commit = hs.commit := rfl
  have hstable : s'.stable = { s.stable with staged := s.stable.staged ++ [(im, .wrote s.nextOpId)] } := w.stable
  have hvis := hst.lease _ s.stable.visible_mem
  refine ⟨?_, fun _ => ⟨fun hm x hx => ?_, fun x hx => ?_, fun x hx => ?_, fun x hx => ?_, ?_, fun x hx => ?_⟩⟩
  · rw [hstable]
    exact h.ordered_stage ⟨above, hvis.trans hil.ge, (hst.founding _ s.stable.visible_mem).trans hif.ge⟩
  · rw [hstable] at hx
    rw [w.commit]
    rcases images_stage hx with hx | rfl
    · exact hst.commit hm x hx
    · exact below hm
  · rw [hstable] at hx
    rw [w.floor]
    rcases images_stage hx with hx | rfl
    · exact hst.lease x hx
    · exact hil.le
  · rw [hstable] at hx
    rw [w.durable]
    rcases images_stage hx with hx | rfl
    · exact hst.durable x hx
    · exact (hst.durable _ s.stable.visible_mem).trans (hvis.trans hil.ge)
  · unfold leaseSince at hx
    rw [hstable, w.id] at hx
    rw [w.last]
    by_cases hlt : optLt s.durable.lastSubmittedLeaseSupport (s.stampFloors hs).leaseSupport.promised = true
    · rw [if_pos hlt] at hx ⊢
      -- only the new image is left once its write is durable
      have hfresh : StableDone.wrote s.nextOpId ∉ Fifo.tags s.stable.staged := by
        have := ids.fresh_notMem
        simpa [Fifo.tags, ballots, Core.ballots, core, Function.comp_def] using this
      have hx : x ∈ Fifo.since s.stable.durable (s.stable.staged ++ ([] ++ [(im, .wrote s.nextOpId)]))
          (.wrote s.nextOpId) := hx
      rw [Fifo.since_fresh hfresh (by simp [Fifo.tags]), List.mem_singleton] at hx
      rw [hx]
      exact le_rfl
    · rw [if_neg hlt] at hx ⊢
      rcases Fifo.mem_since_append hx with hx | hx
      · exact hst.last x hx
      · rw [List.mem_singleton.mp hx]
        exact hst.last_le.trans hil.ge
  · rw [w.last, w.floor]
    split
    · exact hlease.le
    · exact hst.last_le
  · rw [hstable] at hx
    rw [w.founding]
    rcases images_stage hx with hx | rfl
    · exact hst.founding x hx
    · exact hif.le

omit [LinearOrder I] in
theorem snapshot (h : FloorInv mono s) {id : OpId} {m : SnapshotMeta I} {blob : Bytes}
    (stable : s'.stable = s.stable.submitSnapshot id m blob)
    (durable : s'.durable = s.durable) (commit : s'.commit = s.commit)
    (live : s'.poisoned = false → s.poisoned = false) : FloorInv mono s' := by
  have hc : s'.durableCommit = s.durableCommit := by
    unfold durableCommit
    rw [durable, commit]
  have hstable : s'.stable = { s.stable with staged := s.stable.staged ++
      [({ s.stable.visible with snapshot := some (m, blob) }, .snapshotWritten id)] } := stable
  refine ⟨?_, fun hl => ?_⟩
  · rw [hstable]
    exact h.ordered_stage ⟨fun _ => le_rfl, le_rfl, le_rfl⟩
  · have hst := h.stamped (live hl)
    have hv := s.stable.visible_mem
    refine ⟨fun hm x hx => ?_, fun x hx => ?_, fun x hx => ?_, fun x hx => ?_, ?_, fun x hx => ?_⟩
    · rw [hstable] at hx
      rw [hc]
      rcases images_stage hx with hx | rfl
      · exact hst.commit hm x hx
      · exact hst.commit hm s.stable.visible hv
    · rw [hstable] at hx
      rw [durable]
      rcases images_stage hx with hx | rfl
      · exact hst.lease x hx
      · exact hst.lease s.stable.visible hv
    · rw [hstable] at hx
      rw [durable]
      rcases images_stage hx with hx | rfl
      · exact hst.durable x hx
      · exact hst.durable s.stable.visible hv
    · unfold leaseSince at hx
      rw [hstable, durable] at hx
      rw [durable]
      rcases Fifo.mem_since_append hx with hx | hx
      · exact hst.last x hx
      · rw [List.mem_singleton.mp hx]
        exact hst.last s.stable.visible visible_mem_leaseSince
    · rw [durable]
      exact hst.last_le
    · rw [hstable] at hx
      rw [durable]
      rcases images_stage hx with hx | rfl
      · exact hst.founding x hx
      · exact hst.founding s.stable.visible hv

omit [LinearOrder I] in
theorem raise (h : FloorInv mono s) {d : Durability I} {st : StableStore I}
    (saved : st.durable = s.stable.durable) (staged : st.staged = s.stable.staged)
    (floor : d.leaseSupportFloor = s.durable.leaseSupportFloor)
    (last : d.lastSubmittedLeaseSupport = s.durable.lastSubmittedLeaseSupport)
    (id : d.leaseSupportPersistOpid = s.durable.leaseSupportPersistOpid)
    (index : d.durableIndex = s.durable.durableIndex)
    (founding : d.foundingGen = s.durable.foundingGen)
    (durable : s.poisoned = false → ∀ im ∈ s.stable.images, rank d.durableLeaseSupport ≤ im.lease) :
    FloorInv mono { s with stable := st, durable := d } := by
  have hi : st.images = s.stable.images := by
    unfold StableStore.images
    rw [saved, staged]
  have hs : ({ s with stable := st, durable := d } : Endpoint I M).leaseSince = s.leaseSince := by
    unfold leaseSince
    simp only [saved, staged, id]
  have hc : ({ s with stable := st, durable := d } : Endpoint I M).durableCommit = s.durableCommit := by
    unfold durableCommit
    simp only [index]
  refine ⟨hi ▸ h.ordered, fun hl => ?_⟩
  have hst := h.stamped hl
  refine ⟨fun hm x hx => ?_, fun x hx => ?_, fun x hx => ?_, fun x hx => ?_, ?_, fun x hx => ?_⟩
  · rw [hc]
    exact hst.commit hm x (hi ▸ hx)
  · simp only [floor]
    exact hst.lease x (hi ▸ hx)
  · exact durable hl x (hi ▸ hx)
  · rw [hs] at hx
    simp only [last]
    exact hst.last x hx
  · simp only [floor, last]
    exact hst.last_le
  · simp only [founding]
    exact hst.founding x (hi ▸ hx)

end FloorInv

omit [LinearOrder I] in
theorem hardState_image (s : Endpoint I M) : ∃ im ∈ s.stable.images, s.stable.hardState = im.hardState := by
  unfold StableStore.hardState
  split
  · exact ⟨_, s.stable.visible_mem, rfl⟩
  · exact ⟨_, List.mem_cons_self, rfl⟩

omit [LinearOrder I] in
theorem FloorInv.write (h : FloorInv mono s) (ids : s.ballots.Stored) (live : s.poisoned = false)
    {hs : HardState I} (w : Records s s' hs) (commit : hs.commit = s.durableCommit)
    (lease : hs.leaseSupport = s.stable.hardState.leaseSupport)
    (founding : hs.foundingGen = s.stable.hardState.foundingGen) : FloorInv mono s' := by
  obtain ⟨im, him, he⟩ := s.hardState_image
  have hst := h.stamped live
  refine h.record ids live w (fun hm => ?_) (fun _ => commit.le) ?_ ?_
  · rw [commit]
    exact hst.commit hm _ s.stable.visible_mem
  · rw [lease, he]
    exact hst.lease im him
  · rw [founding, he]
    exact hst.founding im him

section

variable (live : s.poisoned = false) (mint : s.Mintable)

include live mint

omit [LinearOrder I] in
theorem records_submitHardState : Records s s.submitHardState.2 s.currentHardState := by
  rw [submitHardState_eq live mint]
  refine ⟨rfl, ?_, ?_, ?_, ?_, ?_, ?_⟩
  all_goals simp only [notedHardState, noteSubmitted_eq, durableCommit]

theorem records_startCampaign : Records s (s.startCampaign now) s.nominated.currentHardState := by
  rw [startCampaign_eq live mint]
  refine ⟨rfl, ?_, ?_, ?_, ?_, ?_, ?_⟩
  all_goals simp only [notedHardState, noteSubmitted_eq, durableCommit]
  all_goals rfl

omit [LinearOrder I] in
theorem records_castVote (c : I) : Records s (s.castVote now c) { s with votedFor := some c }.currentHardState := by
  rw [castVote_eq live mint]
  refine ⟨rfl, ?_, ?_, ?_, ?_, ?_, ?_⟩
  all_goals simp only [notedHardState, noteSubmitted_eq, durableCommit]
  all_goals rfl

omit [LinearOrder I] in
theorem records_rewrite : Records s (s.mintOpId.2.submitWrite s.nextOpId s.stable.hardState) s.stable.hardState := by
  rw [mintWrite_eq live mint]
  refine ⟨rfl, ?_, ?_, ?_, ?_, ?_, ?_⟩
  all_goals simp only [noteSubmitted_eq, durableCommit]

end

omit [LinearOrder I] in
/-- A completed write, and every one before it, is no longer staged. -/
theorem leaseSince_of_done (ids : s.ballots.Stored) {id : OpId} (hd : id ∈ s.stable.doneIds)
    (hle : s.durable.leaseSupportPersistOpid.le id = true) : s.leaseSince = s.stable.images := by
  refine Fifo.since_of_notMem fun ht => ?_
  refine ids.ids.notMem_staged hd hle ?_
  obtain ⟨p, hp, hpe⟩ := List.mem_map.mp ht
  simp only [ballots, Core.ballots, core, List.map_map]
  exact List.mem_map.mpr ⟨p, hp, by simp [hpe, StableDone.id]⟩

theorem Step.floors (st : Step mono now inp s s') (inv : NodeInv mono s) (h : FloorInv mono s) : FloorInv mono s' := by
  -- the floors in memory, and the store, are as before
  have same : ∀ {t : Endpoint I M}, t.stable.durable = s.stable.durable →
      t.stable.staged = s.stable.staged → t.durable = s.durable → s.commit ≤ t.commit →
      (t.poisoned = false → s.poisoned = false) → FloorInv mono t := fun h₁ h₂ h₃ h₄ h₅ => by
    refine h.kept ⟨h₁, h₂, by rw [h₃], by rw [h₃], by rw [h₃], by rw [h₃], ?_, h₅, by rw [h₃]⟩
    unfold durableCommit
    rw [h₃]
    exact min_le_min_right _ h₄
  -- only acknowledgements change in the bookkeeping
  have gates : ∀ {t : Endpoint I M}, t.stable = s.stable → t.commit = s.commit →
      t.durable.leaseSupportFloor = s.durable.leaseSupportFloor →
      t.durable.durableLeaseSupport = s.durable.durableLeaseSupport →
      t.durable.lastSubmittedLeaseSupport = s.durable.lastSubmittedLeaseSupport →
      t.durable.leaseSupportPersistOpid = s.durable.leaseSupportPersistOpid →
      t.durable.foundingGen = s.durable.foundingGen →
      s.durable.durableIndex ≤ t.durable.durableIndex → (t.poisoned = false → s.poisoned = false) →
      FloorInv mono t := fun h₁ h₂ h₃ h₄ h₅ h₆ hf h₇ h₈ => by
    refine h.kept ⟨by rw [h₁], by rw [h₁], by rw [h₃], h₄, h₅, h₆, ?_, h₈, hf⟩
    unfold durableCommit
    rw [h₂]
    exact min_le_min_left _ h₇
  have acked : ∀ {t : Endpoint I M}, Acks s t → FloorInv mono t := fun h => by
    obtain ⟨l, a, b, c, out, rfl⟩ := h.eq
    exact gates rfl rfl rfl rfl rfl rfl rfl le_rfl id
  cases st with
  | idle hc => exact h.kept (.of_sends (Sends.of_core hc))
  | die reason => exact h.kept (.of_sends (Sends.of_poison s reason))
  | junk dead config log stable =>
    exact ⟨stable ▸ h.ordered, fun hl => absurd hl (by simp [dead])⟩
  | adopt | follow | preCampaign | stepDown | retire =>
    simp only [adoptTerm, followLeader, startPreCampaign, stepDownToFollower]
    rw [setLeader_eq]
    exact same rfl rfl rfl le_rfl id
  | campaign live mint =>
    exact h.write inv.ballots live (records_startCampaign live mint) rfl rfl rfl
  | cast live mint =>
    exact h.write inv.ballots live (records_castVote live mint _) rfl rfl rfl
  | lead =>
    unfold resetLeader
    rw [setLeader_eq]
    simp only
    split <;> exact same rfl rfl rfl le_rfl id
  | write live mint => exact h.write inv.ballots live (records_submitHardState live mint) rfl rfl rfl
  | rewrite live mint same =>
    have hst := h.stamped live
    have hv := s.stable.visible_mem
    refine h.record inv.ballots live (records_rewrite live mint) (fun _ => ?_) (fun hm => ?_) ?_ ?_
    · rw [same]
      exact le_rfl
    · rw [same]
      exact hst.commit hm _ hv
    · rw [same]
      exact hst.lease _ hv
    · rw [same]
      exact hst.founding _ hv
  | @wrote id rest live ready =>
    have hst := h.stamped live
    rw [noteWrote_eq]
    refine h.raise rfl rfl rfl rfl rfl rfl rfl fun _ im him => ?_
    simp only
    split
    · next hn =>
      exact hst.last im (leaseSince_of_done inv.ballots (mem_doneIds ready) hn.2 ▸ him)
    · exact hst.durable im him
  | @raiseHard hs live durable =>
    have hst := h.stamped live
    refine h.raise rfl rfl rfl rfl rfl rfl rfl fun _ im him => ?_
    show rank (LeaseSupport.optMax _ _) ≤ _
    rw [rank_optMax, ← durable]
    refine max_le (hst.durable im him) ?_
    rcases List.mem_cons.mp him with rfl | him
    · exact le_rfl
    · exact ((List.pairwise_cons.mp h.ordered).1 im him).lease
  | send =>
    rw [send_eq]
    exact same rfl rfl rfl le_rfl id
  | appendOwn live mint =>
    rw [appendOwn_eq live mint]
    exact gates rfl rfl rfl rfl rfl rfl rfl le_rfl id
  | overwrite live mint msg term role conflict =>
    rw [overwrite_eq live mint]
    refine h.kept ⟨rfl, rfl, le_rfl, rfl, rfl, rfl, ?_, id, rfl⟩
    -- what is cut lies above the commit index
    have hc := conflict.uncommitted
    show min s.commit s.durable.durableIndex ≤ min s.commit (min s.durable.durableIndex (_ - 1))
    lia
  | ackAppend | releaseAck | ackSnapshot | ackShortcut | flushShortcut | flushSnapshotGate | flushAppendGate =>
    exact acked (by simp)
  | appended =>
    unfold noteAppended
    split
    · exact gates rfl rfl rfl rfl rfl rfl rfl (le_max_left _ _) id
    · exact same rfl rfl rfl le_rfl id
  | raiseIndex => exact gates rfl rfl rfl rfl rfl rfl rfl (le_max_left _ _) id
  | commitQuorum live role higher | commitHeartbeat live msg term higher | commitAppend live msg term agrees higher
  | commitShortcut live offered higher => exact same rfl rfl rfl higher.le id
  | apply live running entry => exact h.kept (.of_keeps (Keeps.of_applyEntry live entry))
  | capture live mint | beginInstall live mint =>
    simp only [Endpoint.capture, submitSnapshot_eq live mint]
    exact h.snapshot rfl rfl rfl id
  | install live role pending covers ahead =>
    refine h.kept ⟨rfl, rfl, le_rfl, rfl, rfl, rfl, ?_, id, rfl⟩
    show min s.commit s.durable.durableIndex ≤ min _ _
    exact (min_le_left _ _).trans (le_min ahead.le ahead.le)
  | receive live msg term chunk =>
    obtain ⟨n, stable, hc, hst⟩ := chunk
    obtain ⟨sg, rfl⟩ := acceptSnapshotChunk_stable hc
    have hs : s'.stable = { s.stable with staging := sg } := congrArg Core.stable hst
    exact same (by rw [hs]) (by rw [hs]) (congrArg Core.durable hst) (congrArg Core.commit hst).ge
      fun hl => (congrArg (Option.isSome ∘ Core.poisonReason) hst).symm.trans hl
  | farewell | confirm | leaseRead | forward | answered | renewLease => exact h.kept (.of_sends (by simp))
  | support live enforcing raise =>
    exact h.kept ⟨rfl, rfl, (optLt_iff.mp raise).le, rfl, rfl, rfl, le_rfl, id, rfl⟩
  | popInflight | compacted | raiseSlot | dropGates =>
    exact gates rfl rfl rfl rfl rfl rfl rfl le_rfl id
  | _ => exact same rfl rfl rfl le_rfl id

end Endpoint

end Sailing
