import Sailing.Node.Ballot
import Sailing.Node.Coverage

/-!
# The invariant of a node

`NodeInv` puts the invariants of votes and of coverage together, and every
effect preserves it.
-/

namespace Sailing

open List (mem_append mem_append_left mem_append_right mem_map)

variable {I : Type} [LinearOrder I] {M : StateMachine}

/-- The boundary of a held acknowledgement. -/
def heldBoundary (held : Option (I × Term × Index)) : List Index := (held.map (·.2.2)).toList

def Core.cover (s : Core I M) : Cover I where
  role := s.role
  commit := s.commit
  applied := s.applied
  durable := s.log.durable
  staged := s.log.staged
  done := s.log.doneIds
  slot := s.stable.durable.snapshot
  slots := s.stable.staged.map fun p => (p.1.snapshot, p.2)
  nextOpId := s.nextOpId
  dur := s.durable.durableIndex
  dsi := s.durable.durableSnapshotIndex
  inflight := s.durable.inflightAppendUpto
  pendingLog := s.pendingLog
  acks := s.outgoing.filterMap fun o => ackOf o.message
  gates := heldBoundary s.durable.termGatedSnapshotAck ++
    heldBoundary s.durable.shortcutGatedSnapshotAck
  pendingCompact := s.pendingCompact
  pendingInstall := s.pendingInstall.map fun p => (p.1, p.2.1)

namespace Endpoint

def cover (s : Endpoint I M) : Cover I := s.core.cover

variable {s s' : Endpoint I M} {now : Instant} {mono : Prop} {inp : Input I}

omit [LinearOrder I] in
theorem cover_newestSlot : s.cover.newestSlot = s.stable.visible.snapshot := by
  rcases List.eq_nil_or_concat s.stable.staged with h | ⟨l, p, h⟩ <;>
    simp [Cover.newestSlot, Fifo.newest, cover, Core.cover, core, StableStore.visible, h]

omit [LinearOrder I] in
theorem cover_slotImages : s.cover.slotImages = s.stable.images.map (·.snapshot) := by
  simp [Cover.slotImages, Fifo.images, cover, Core.cover, core, StableStore.images, Function.comp_def]

variable {n : Index} {es : List (Entry I)} {e : Entry I} {ae : AppendEntries I}
    {held : Option (I × Term × Index)}

omit [LinearOrder I] in
theorem cover_slotCovers : s.cover.SlotCovers n ↔ s.SlotCovers n := by
  unfold Cover.SlotCovers SlotCovers
  rw [cover_slotImages, List.forall_mem_map]
  rfl

omit [LinearOrder I] in
theorem cover_submitWrite (st : StableStore I) (id : OpId) (hs : HardState I) :
    (st.submitWrite id hs).staged.map (fun p => (p.1.snapshot, p.2)) =
      st.staged.map (fun p => (p.1.snapshot, p.2)) ++ [(st.visible.snapshot, .wrote id)] := by
  simp [StableStore.submitWrite]

omit [LinearOrder I] in
theorem cover_submitSnapshot (st : StableStore I) (id : OpId) (m : SnapshotMeta I) (blob : Bytes) :
    (st.submitSnapshot id m blob).staged.map (fun p => (p.1.snapshot, p.2)) =
      st.staged.map (fun p => (p.1.snapshot, p.2)) ++ [(some (m, blob), .snapshotWritten id)] := by
  simp [StableStore.submitSnapshot]

omit [LinearOrder I] in
theorem Sends.cover (h : Sends s s') : s'.cover = s.cover := by
  simp only [Endpoint.cover, Core.cover, core, h.role, h.commit, h.applied, h.log, h.stable,
    h.nextOpId, h.durable, h.pendingLog, h.pendingCompact, h.pendingInstall]
  have ha : s'.acks = s.acks := h.acks
  unfold Endpoint.acks at ha
  rw [ha]

omit [LinearOrder I] in
theorem cover_append (e : Entry I) (es : List (Entry I)) : ∃ pre, (s.log.submitAppend s.nextOpId (e :: es)).staged =
        (s.cover.append e es pre).staged ∧ (∀ p ∈ pre, p.2 = none) ∧
      pre.map Prod.fst ++ [s.cover.visible.putAll (e :: es)] = s.cover.visible.puts (e :: es) :=
  LogStore.submitAppend_staged s.log s.nextOpId e es

theorem subset_of_remove {α : Type} {pre post : List α} {a : α} : pre ++ post ⊆ pre ++ a :: post := by
  intro x hx
  simp only [mem_append, List.mem_cons] at hx ⊢
  tauto

omit [LinearOrder I] in
theorem cover_appendOwn (live : s.poisoned = false) (mint : s.Mintable) {index : Index}
    (kind : EntryKind I) (hi : index = s.log.lastIndex + 1) :
    CoverStep mono s.cover (s.appendOwn index kind).cover := by
  obtain ⟨pre, hst, hn, hp⟩ := cover_append (s := s) ⟨s.term, index, kind⟩ []
  have h : CoverStep mono s.cover _ := .own mint hi hn hp
  rw [appendOwn_eq live mint]
  convert h using 1
  simp only [cover, Core.cover, core, hst]
  rfl

omit [LinearOrder I] in
/-- A run without gaps is one of consecutive entries. -/
theorem run_of_lastContiguous {prev last : Index}
    (h : lastContiguous prev es = some last) : LogImage.Run (prev + 1) es := by
  induction es generalizing prev with
  | nil => trivial
  | cons e es ih =>
    unfold lastContiguous at h
    split at h
    · next hn =>
      have he : e.index = prev + 1 := by
        simp only [nextLogIndex, checkedNext, Option.filter_eq_some_iff] at hn
        obtain ⟨hn, -⟩ := hn
        split at hn
        · exact (Option.some.inj hn).symm
        · cases hn
      exact ⟨he, he ▸ ih h⟩
    · cases h

omit [LinearOrder I] in
theorem lastContiguous_concat {prev last : Index}
    (h : lastContiguous prev (es ++ [e]) = some last) : e.index = last := by
  induction es generalizing prev with
  | nil =>
    simp only [List.nil_append, lastContiguous] at h
    split at h
    · exact Option.some.inj h
    · cases h
  | cons a es ih =>
    simp only [List.cons_append, lastContiguous] at h
    split at h
    · exact ih h
    · cases h

omit [LinearOrder I] in
theorem Run.append_right {first : Index} {pre : List (Entry I)} (h : LogImage.Run first (pre ++ e :: es)) :
    LogImage.Run e.index (e :: es) ∧ e.index = first + pre.length ∧ ∀ p ∈ pre.getLast?, p.index + 1 = e.index := by
  induction pre generalizing first with
  | nil =>
    obtain ⟨rfl, hr⟩ := h
    exact ⟨⟨rfl, hr⟩, rfl, by simp⟩
  | cons a pre ih =>
    obtain ⟨rfl, hr⟩ := h
    obtain ⟨h₁, h₂, h₃⟩ := ih hr
    refine ⟨h₁, by rw [h₂, List.length_cons]; lia, fun p hp => ?_⟩
    cases pre with
    | nil =>
      simp only [List.getLast?_singleton, Option.mem_def, Option.some.injEq] at hp
      subst hp
      rw [h₂]
      rfl
    | cons =>
      rw [List.getLast?_cons_cons] at hp
      exact h₃ p hp

omit [LinearOrder I] in
/-- The first entry a conflicting append writes stands in the log or right
after it. -/
theorem Conflicts.fits (h : s.Conflicts ae e es) (hb : s.log.visible.base ≤ s.log.lastIndex) :
    s.log.visible.Fits e.index ∧ LogImage.Run e.index (e :: es) := by
  obtain ⟨last, hl⟩ := h.run
  obtain ⟨pre, hsp, hok⟩ := h.split
  rw [hsp] at hl
  obtain ⟨hr, hi, hlast⟩ := Run.append_right (run_of_lastContiguous hl)
  refine ⟨⟨h.first, ?_⟩, hr⟩
  have hfirst : s.log.firstIndex = s.log.visible.base + 1 := rfl
  have hlst : s.log.lastIndex = s.log.visible.lastIndex := rfl
  rcases List.eq_nil_or_concat pre with rfl | ⟨l, p, rfl⟩
  · simp only [List.length_nil, Nat.add_zero] at hi
    rcases h.prev with hp | hp | hp
    · lia
    · lia
    · lia
  · have hp := hlast p (by simp)
    rcases hok p (by simp) with hp' | hp'
    · lia
    · lia

section

variable (live : s.poisoned = false) (mint : s.Mintable)

include live mint

omit [LinearOrder I] in
theorem cover_submitHardState : s.submitHardState.2.cover = s.cover.write := by
  rw [submitHardState_eq live mint, Cover.write, cover_newestSlot]
  simp only [cover, Core.cover, core, notedHardState, noteSubmitted_eq, cover_submitWrite]
  rfl

theorem cover_startCampaign :
    (s.startCampaign now).cover = { s.cover.write with role := .candidate, pendingLog := [] } := by
  rw [startCampaign_eq live mint, Cover.write, cover_newestSlot]
  simp only [cover, Core.cover, core, notedHardState, noteSubmitted_eq, cover_submitWrite]
  rfl

omit [LinearOrder I] in
theorem cover_castVote (c : I) : (s.castVote now c).cover = s.cover.write := by
  rw [castVote_eq live mint, Cover.write, cover_newestSlot]
  simp only [cover, Core.cover, core, notedHardState, noteSubmitted_eq, cover_submitWrite]
  rfl

omit [LinearOrder I] in
theorem cover_rewrite (hs : HardState I) : (s.mintOpId.2.submitWrite s.nextOpId hs).cover = s.cover.write := by
  rw [mintWrite_eq live mint, Cover.write, cover_newestSlot]
  simp only [cover, Core.cover, core, noteSubmitted_eq, cover_submitWrite]
  rfl

end

theorem cover_resetLeader : (s.resetLeader now).cover = { s.cover with role := .leader } := by
  unfold resetLeader
  rw [setLeader_eq]
  simp only
  split <;> rfl

omit [LinearOrder I] in
theorem cover_acks_send (live : s.poisoned = false) (dest : I) {m : Message I} {a : Index × Bool}
    (hm : ackOf m = some a) : (s.send dest m).cover = { s.cover with acks := s.cover.acks ++ [a] } := by
  rw [send_live live]
  simp only [cover, Core.cover, core, List.filterMap_append, List.filterMap_cons, hm, List.filterMap_nil]

omit [LinearOrder I] in
theorem cover_send (live : s.poisoned = false) (dest : I) {m : Message I} (hm : ackOf m = none) :
    (s.send dest m).cover = s.cover := by
  rw [send_live live]
  simp only [cover, Core.cover, core, List.filterMap_append, List.filterMap_cons, hm,
    List.filterMap_nil, List.append_nil]

/-- An append acknowledgement, sent or held back, with what was pending for
it released. -/
theorem coverStep_appendAck (live : s.poisoned = false) (dest : I) (n : Index)
    {pl : List (OpId × Pending I)} (released : pl ⊆ s.pendingLog) :
    CoverStep mono s.cover ({ s with pendingLog := pl }.sendOrGateAppendAck dest n).cover := by
  unfold sendOrGateAppendAck
  split
  · rw [cover_acks_send (s := { s with pendingLog := pl }) live dest (a := (_, false)) rfl]
    exact .ack (c := s.cover) (min_le_right _ _) (by simp) (List.Subset.refl _) released
  · exact .pend fun id upto hm => released hm

theorem regate_le {dest : I} {k : Index} (hn : n ≤ k)
    (hh : ∀ g ∈ heldBoundary held, g ≤ k) : (s.regate held dest n).2.2 ≤ k := by
  unfold regate
  split
  · next d t h =>
    have := hh h (by simp [heldBoundary])
    split
    · exact max_le this hn
    · exact hn
  · exact hn

section

variable (live : s.poisoned = false) (h : Shape s.cover)

include live h

theorem coverStep_snapshotAck (dest : I) (known : n ≤ s.commit) :
    CoverStep mono s.cover (s.sendOrGateSnapshotAck dest n).cover := by
  have hg : ∀ g ∈ heldBoundary s.durable.termGatedSnapshotAck ++
      heldBoundary s.durable.shortcutGatedSnapshotAck, g ≤ s.commit := h.gates
  unfold sendOrGateSnapshotAck
  split
  · rw [cover_acks_send live dest (a := (_, true)) rfl]
    exact .ack (c := s.cover) (min_le_right _ _) (fun _ => (min_le_left _ _).trans known)
      (List.Subset.refl _) (List.Subset.refl _)
  refine .gate (c := s.cover) fun g hm => ?_
  rcases mem_append.mp hm with hm | hm
  · rw [List.mem_singleton.mp hm]
    exact regate_le known fun g hg' => hg g (mem_append_left _ hg')
  · exact hg g (mem_append_right _ hm)

theorem coverStep_shortcutAck (dest : I) (known : n ≤ s.commit) :
    CoverStep mono s.cover (s.sendOrGateShortcutSnapshotAck dest n).cover := by
  have hg : ∀ g ∈ heldBoundary s.durable.termGatedSnapshotAck ++
      heldBoundary s.durable.shortcutGatedSnapshotAck, g ≤ s.commit := h.gates
  unfold sendOrGateShortcutSnapshotAck
  split
  · rw [cover_acks_send live dest (a := (_, true)) rfl]
    exact .ack (c := s.cover) (min_le_right _ _) (fun _ => (min_le_left _ _).trans (max_le le_rfl known))
      (List.Subset.refl _) (List.Subset.refl _)
  · refine .gate (c := s.cover) fun g hm => ?_
    rcases mem_append.mp hm with hm | hm
    · exact hg g (mem_append_left _ hm)
    · rw [List.mem_singleton.mp hm]
      exact regate_le known fun g hg' => hg g (mem_append_right _ hg')

omit [LinearOrder I] in
theorem coverStep_flushShortcut : CoverStep mono s.cover s.flushShortcutGatedAck.cover := by
  unfold flushShortcutGatedAck
  split
  · exact .keep
  next dest term n hheld =>
  have hn : n ≤ s.commit := h.gates n (mem_append_right _ (by simp [heldBoundary, core, hheld]))
  have hsub : heldBoundary s.durable.termGatedSnapshotAck ++ heldBoundary (none : Option (I × Term × Index)) ⊆
      s.cover.gates := by
    simp only [heldBoundary, Option.map_none, Option.toList_none, List.append_nil]
    exact List.subset_append_left _ _
  split
  · exact .gate fun g hg => h.gates g (hsub hg)
  split
  · simp only
    rw [cover_acks_send (s := { s with durable := { s.durable with
      shortcutGatedSnapshotAck := none } }) live dest (a := (_, true)) rfl]
    exact .ack (c := s.cover) (min_le_right _ _)
      (fun _ => (min_le_left _ _).trans (max_le le_rfl hn)) hsub (List.Subset.refl _)
  · exact .keep

omit [LinearOrder I] in
theorem coverStep_flushSnapshotGate : CoverStep mono s.cover s.flushTermGatedSnapshotAck.cover := by
  unfold flushTermGatedSnapshotAck
  split
  · exact .keep
  next dest term n hheld =>
  have hn : n ≤ s.commit := h.gates n (mem_append_left _ (by simp [heldBoundary, core, hheld]))
  have hsub : heldBoundary (none : Option (I × Term × Index)) ++ heldBoundary s.durable.shortcutGatedSnapshotAck ⊆
      s.cover.gates := by
    simp only [heldBoundary, Option.map_none, Option.toList_none, List.nil_append]
    exact List.subset_append_right _ _
  simp only
  rw [cover_acks_send (s := { s with durable := { s.durable with
    termGatedSnapshotAck := none } }) live dest (a := (_, true)) rfl]
  exact .ack (c := s.cover) (min_le_right _ _) (fun _ => (min_le_left _ _).trans hn) hsub (List.Subset.refl _)

end

omit [LinearOrder I] in
theorem coverStep_flushAppendGate (live : s.poisoned = false) :
    CoverStep mono s.cover s.flushTermGatedAppendAck.cover := by
  unfold flushTermGatedAppendAck
  split
  · exact .keep
  next dest term n hheld =>
  simp only
  rw [cover_acks_send (s := { s with durable := { s.durable with
    termGatedAppendAck := none } }) live dest (a := (_, false)) rfl]
  exact .ack (c := s.cover) (min_le_right _ _) (by simp) (List.Subset.refl _) (List.Subset.refl _)

omit [LinearOrder I] in
theorem heldBoundary_dropStale {term : Term} {g : Index}
    (h : g ∈ heldBoundary (dropStaleGate term held)) : g ∈ heldBoundary held := by
  unfold dropStaleGate at h
  cases held with
  | none => exact h
  | some =>
    simp only [Option.filter] at h
    split at h
    · exact h
    · simp [heldBoundary] at h

omit [LinearOrder I] in
theorem heldBoundary_capGated {g : Index}
    (h : g ∈ heldBoundary (held.map (capGated n))) : ∃ g' ∈ heldBoundary held, g ≤ g' := by
  cases held with
  | none => simp [heldBoundary] at h
  | some x =>
    obtain ⟨d, t, k⟩ := x
    simp only [heldBoundary, Option.map_some, Option.toList_some, List.mem_singleton, capGated] at h ⊢
    refine ⟨k, rfl, ?_⟩
    rw [h]
    split
    · next hlt => exact hlt.le
    · exact le_rfl

omit [LinearOrder I] in
/-- Scrubbing leaves the acknowledgements of snapshots and those up to the
boundary. -/
theorem mem_acks_scrub {outgoing : List (Outgoing I)} {a : Index × Bool}
    (h : a ∈ (outgoing.filter fun o => !acksAbove n o).filterMap fun o => ackOf o.message) :
    a ∈ outgoing.filterMap (fun o => ackOf o.message) ∧ (a.2 = true ∨ a.1 ≤ n) := by
  obtain ⟨o, ho, ha⟩ := List.mem_filterMap.mp h
  obtain ⟨ho, hb⟩ := List.mem_filter.mp ho
  refine ⟨List.mem_filterMap.mpr ⟨o, ho, ha⟩, ?_⟩
  cases hm : o.message with
  | appendResponse =>
    rw [hm] at ha
    simp only [ackOf] at ha
    split at ha
    · cases ha
    next hr =>
    cases ha
    right
    simpa [acksAbove, hm, hr] using hb
  | snapshotResponse =>
    rw [hm] at ha
    simp only [ackOf] at ha
    split at ha
    · cases ha
    · cases ha
      exact .inl rfl
  | _ =>
    rw [hm] at ha
    exact absurd ha (by simp [ackOf])

omit [LinearOrder I] in
theorem doneIds_log_subset {d : Option LogDone} {rest : List (Option LogDone)} (ready : s.log.ready = d :: rest) :
    LogStore.doneIds { s.log with ready := rest } ⊆ s.log.doneIds := by
  intro id h
  simp only [LogStore.doneIds, ready, mem_append, List.filterMap_cons] at h ⊢
  rcases h with h | h
  · exact .inl h
  right
  split
  · exact h
  · exact List.mem_cons_of_mem _ h

omit [LinearOrder I] in
theorem coverStep_appended {id : OpId} {rest : List (Option LogDone)}
    (ready : s.log.ready = some (.appended id) :: rest) :
    CoverStep mono s.cover ({ s with log := { s.log with ready := rest } }.noteAppended id).cover := by
  have hdone : id ∈ s.cover.done := by
    simp [cover, Core.cover, core, LogStore.doneIds, ready, LogDone.id?]
  unfold noteAppended
  split
  · next p hp =>
    have hid : p.1 = id := by simpa using List.find?_some hp
    have hm : (id, p.2) ∈ s.cover.inflight := hid ▸ List.mem_of_find?_eq_some hp
    exact .appended hdone (doneIds_log_subset ready) hm
  · exact .poll (doneIds_log_subset ready)

theorem durableIndex_spec {d : Index} (hc : s.log.visible.Contiguous)
    (h : s.log.durableIndex = some d) : d ≤ s.log.lastIndex ∧
      ∀ i ≤ d, i ≤ s.log.visible.base ∨ ∀ l ∈ s.log.images, l.get i = s.log.visible.get i := by
  unfold LogStore.durableIndex at h
  split at h
  · simp only [Option.some.injEq] at h
    set p : Entry I → Bool := fun e => s.log.images.all fun l => l.get e.index = some e with hp
    have hpre : s.log.visible.entries.takeWhile p <+: s.log.visible.entries := List.takeWhile_prefix p
    have hlen := hpre.length_le
    refine ⟨?_, fun i hi => ?_⟩
    · rw [← h]
      exact Nat.add_le_add_left hlen _
    · rcases Nat.lt_or_ge s.log.visible.base i with hb | hb
      · right
        -- the entry at `i` is among those every image holds
        have hk : i - s.log.visible.base - 1 < (s.log.visible.entries.takeWhile p).length := by lia
        have hget : s.log.visible.get i = some (s.log.visible.entries.takeWhile p)[i - s.log.visible.base - 1] := by
          unfold LogImage.get
          rw [if_pos hb, hpre.getElem hk, List.getElem?_eq_getElem (by lia)]
        have hall := List.mem_takeWhile_imp (List.getElem_mem hk)
        generalize (s.log.visible.entries.takeWhile p)[i - s.log.visible.base - 1] = e at hget hall
        intro l hl
        simp only [hp, List.all_eq_true, decide_eq_true_eq] at hall
        rw [hget, ← hall l hl, hc.index_of_get hget]
      · exact .inl hb
  · cases h

omit [LinearOrder I] in
theorem le_last_of_term {i : Index} (h : 0 < s.log.visible.term i) : i ≤ s.log.visible.lastIndex := by
  by_contra hlt
  have hb : s.log.visible.base < i := lt_of_le_of_lt (Nat.le_add_right _ _) (not_le.mp hlt)
  rw [LogImage.term_of_base_lt hb, LogImage.get_of_last_lt (not_le.mp hlt)] at h
  cases h

omit [LinearOrder I] in
theorem Matches.lastNew_le {lastNew : Index} (h : s.Matches ae lastNew)
    (hb : s.log.visible.base ≤ s.log.visible.lastIndex) : lastNew ≤ s.log.visible.lastIndex := by
  have hfirst : s.log.firstIndex = s.log.visible.base + 1 := rfl
  have hlst : s.log.lastIndex = s.log.visible.lastIndex := rfl
  have hrun := h.run
  rcases List.eq_nil_or_concat ae.entries with he | ⟨l, e, he⟩
  · rw [he] at hrun
    simp only [lastContiguous, Option.some.injEq] at hrun
    rcases h.prev with hp | hp | hp
    · lia
    · lia
    · lia
  · have hl : e.index = lastNew := by
      rw [he, List.concat_eq_append] at hrun
      exact lastContiguous_concat hrun
    rcases h.entries e (by rw [he]; simp) with hp | hp
    · lia
    · lia

omit [LinearOrder I] in
theorem fresh_snapshotWritten (hb : s.ballots.Stored) :
    StableDone.snapshotWritten s.nextOpId ∉ Fifo.tags s.cover.slots := by
  intro ht
  refine hb.ids.bound_notMem (mem_append_right _ ?_)
  obtain ⟨p, hp, hpe⟩ := mem_map.mp ht
  obtain ⟨q, hq, rfl⟩ := mem_map.mp hp
  refine mem_map.mpr ⟨(q.1.ballot, q.2), List.mem_map_of_mem hq, ?_⟩
  simp only at hpe ⊢
  rw [hpe]
  rfl

theorem coverStep_apply (live : s.poisoned = false) (h : Shape s.cover)
    (he : s.log.visible.get e.index = some e) : CoverStep mono s.cover (s.applyEntry e).cover := by
  have hk := Keeps.of_applyEntry live he
  have hc : (s.applyEntry e).cover =
      { s.cover with applied := (s.applyEntry e).applied, role := (s.applyEntry e).role } := by
    have ha : (s.applyEntry e).acks = s.acks := hk.acks
    unfold acks at ha
    simp only [cover, Core.cover, core, applyEntry_commit, hk.log, hk.stable, hk.nextOpId, hk.durable,
      hk.pendingLog, hk.pendingCompact, hk.pendingInstall, ha]
  rw [hc]
  rcases applyEntry_applied s e with ha | ⟨ha, hn, hle⟩
  · rw [ha]
    exact .apply (c := s.cover) le_rfl h.applied_commit hk.role
  rw [ha]
  refine .apply (c := s.cover) ?_ hle hk.role
  rw [hn]
  unfold next
  split
  · exact Nat.le_succ _
  · exact le_rfl

omit [LinearOrder I] in
theorem coverStep_overwrite (live : s.poisoned = false) (mint : s.Mintable) (role : s.role = .follower)
    (conflict : s.Conflicts ae e es) (h : Shape s.cover) :
    CoverStep mono s.cover (s.overwrite e.index (e :: es)).2.cover := by
  obtain ⟨fits, run⟩ := conflict.fits h.base_last
  obtain ⟨pre, hst, hn, hp⟩ := cover_append (s := s) e es
  have st : CoverStep mono s.cover _ := .overwrite
    (a := (s.outgoing.filter fun o => !acksAbove (e.index - 1) o).filterMap fun o => ackOf o.message)
    (g := heldBoundary (s.durable.termGatedSnapshotAck.map (capGated (e.index - 1))) ++
      heldBoundary s.durable.shortcutGatedSnapshotAck)
    (l := s.pendingLog.filter fun p => !followerAckAbove (e.index - 1) p.2)
    mint role fits run conflict.uncommitted hn hp
    (fun a ha => (mem_acks_scrub ha).imp_right fun h => h.imp_right fun h =>
      Nat.lt_of_le_of_lt h (Nat.sub_lt (Nat.zero_lt_of_lt fits.1) Nat.one_pos))
    (fun g hg => by
      rcases mem_append.mp hg with hg | hg
      · obtain ⟨g', hg', hle⟩ := heldBoundary_capGated hg
        exact ⟨g', mem_append_left _ hg', hle⟩
      · exact ⟨g, mem_append_right _ hg, le_rfl⟩)
  rw [overwrite_eq live mint]
  convert st using 1
  simp only [cover, Core.cover, core, hst]
  rfl

theorem Step.coverStep (st : Step mono now inp s s') (hb : s.ballots.Stored)
    (hv : VoteInv s.ballots) (hs : s.cover.Stored) (h : Shape s.cover) :
    CoverStep mono s.cover s'.cover ∨ (s'.poisoned = true ∧ s'.log = s.log ∧ s'.nextOpId = s.nextOpId) := by
  cases st with
  | idle hc => exact .inl (.of_eq (congrArg Core.cover hc))
  | die => exact .inr ⟨by simp, rfl, rfl⟩
  | junk dead _ log _ id => exact .inr ⟨dead, log, id⟩
  | adopt | follow | stepDown | retire =>
    simp only [adoptTerm, followLeader, stepDownToFollower]
    rw [setLeader_eq]
    exact .inl (.demote (r := .follower) (by simp) (by simp))
  | preCampaign =>
    left
    unfold startPreCampaign
    rw [setLeader_eq]
    exact .demote (r := .preCandidate) (by simp) (by simp)
  | campaign live mint =>
    left
    rw [cover_startCampaign live mint]
    exact .campaign mint
  | cast live mint | write live mint | rewrite live mint =>
    simp only [cover_castVote live mint, cover_submitHardState live mint, cover_rewrite live mint]
    exact .inl (.write mint)
  | lead live role =>
    left
    rw [cover_resetLeader]
    exact .lead role
  | wrote =>
    left
    rw [noteWrote_eq]
    exact .keep
  | @send dest m live ok =>
    left
    refine .of_eq (cover_send live dest ?_)
    cases m with
    | appendResponse => simp [ackOf, ok.2.2]
    | snapshotResponse => simp [ackOf, ok.2.2.2]
    | _ => rfl
  | appendOwn live mint role index_eq => exact .inl (cover_appendOwn live mint _ index_eq)
  | overwrite live mint msg term role conflict =>
    exact .inl (coverStep_overwrite live mint role conflict h)
  | pushAck =>
    refine .inl (.pend fun id upto hm => ?_)
    rcases mem_append.mp hm with hm | hm
    · exact hm
    · simp at hm
  | ackAppend live =>
    exact .inl (coverStep_appendAck live _ _ (List.Subset.refl _))
  | releaseAck live pending =>
    exact .inl (coverStep_appendAck live _ _ (pending ▸ subset_of_remove))
  | dropLog live pending | matchOwn live role pending =>
    exact .inl (.pend fun id upto hm => (pending ▸ subset_of_remove : _ ⊆ s.pendingLog) hm)
  | pollLog live ready => exact .inl (.poll (doneIds_log_subset ready))
  | appended live ready => exact .inl (coverStep_appended ready)
  | raiseIndex live durable =>
    obtain ⟨hle, hall⟩ := durableIndex_spec (hs.contiguous _ Cover.visible_mem) durable
    exact .inl (.raiseIndex hle hall)
  | popInflight live front covered => exact .inl (.popInflight front covered)
  | commitQuorum live role higher own =>
    have hpos : 0 < s.log.visible.term s.tracker.quorumCommitted := by
      rw [own]
      exact (hv.leader role).1
    exact .inl (.commit higher.le (le_last_of_term hpos))
  | commitHeartbeat live msg term higher => exact .inl (.commit higher.le (min_le_right _ _))
  | commitAppend live msg term agrees higher =>
    exact .inl (.commit higher.le ((min_le_right _ _).trans (agrees.lastNew_le h.base_last)))
  | commitShortcut live offered higher held =>
    exact .inl (.commit higher.le (held.trans h.dur_last))
  | apply live running entry => exact .inl (coverStep_apply live h entry)
  | @capture snap lastTerm live mint turn free encoded some_ boundary submitted higher =>
    left
    unfold Endpoint.capture
    rw [submitSnapshot_eq live mint]
    have st : CoverStep mono s.cover _ := .capture
      (m := ⟨s.applied, lastTerm, s.tracker.confState⟩) (b := M.encodeSnapshot snap) mint
      (fresh_snapshotWritten hb) (by simp [cover, Core.cover, core, free.2]) le_rfl
      (by rw [cover_newestSlot]; exact higher)
    convert st using 1
    simp only [cover, Core.cover, core, cover_submitSnapshot]
    rfl
  | compacted live pending covers =>
    left
    have hle := h.compacting _ _ pending
    have hc : mono → s.cover.SlotCovers _ := fun hm => cover_slotCovers.mpr (covers hm)
    unfold finishCompact LogStore.compact
    split
    · next hlt => exact .compacted hle hc hlt.1
    · exact .uncompacted hle hc
  | @beginInstall sender is blob snap live mint msg term role slot ahead decoded higher submitted
      whole =>
    left
    rw [submitSnapshot_eq live mint]
    have st : CoverStep mono s.cover _ := .beginInstall (m := is.snapshot) (b := blob) mint
      (fresh_snapshotWritten hb) (by rw [cover_newestSlot]; exact higher)
    convert st using 1
    simp only [cover, Core.cover, core, cover_submitSnapshot]
    rfl
  | dropInstall => exact .inl .dropInstall
  | raiseSlot live covers known =>
    exact .inl (.raiseSlot (fun hm => cover_slotCovers.mpr (covers hm)) known)
  | install live role pending covers ahead =>
    refine .inl (.install (fun hm => cover_slotCovers.mpr (covers hm)) ahead
      (fun a ha => mem_acks_scrub ha) fun g hg => ?_)
    rcases mem_append.mp hg with hg | hg
    · obtain ⟨g', hg', hle⟩ := heldBoundary_capGated hg
      exact ⟨g', mem_append_left _ hg', hle⟩
    · exact ⟨g, mem_append_right _ hg, le_rfl⟩
  | ackSnapshot live known => exact .inl (coverStep_snapshotAck live h _ known)
  | ackShortcut live known => exact .inl (coverStep_shortcutAck live h _ known)
  | receive live msg term chunk =>
    obtain ⟨n, stable, hc, hst⟩ := chunk
    obtain ⟨st, rfl⟩ := acceptSnapshotChunk_stable hc
    exact .inl (.of_eq ((congrArg Core.cover hst).trans rfl))
  | flushShortcut live => exact .inl (coverStep_flushShortcut live h)
  | dropGates =>
    refine .inl (.gate fun g hg => h.gates g ?_)
    rcases mem_append.mp hg with hg | hg
    · exact mem_append_left _ (heldBoundary_dropStale hg)
    · exact mem_append_right _ hg
  | flushSnapshotGate live => exact .inl (coverStep_flushSnapshotGate live h)
  | flushAppendGate live => exact .inl (coverStep_flushAppendGate live)
  | farewell | confirm | leaseRead | forward | answered | renewLease => exact .inl (.of_eq (Sends.cover (by simp)))
  | _ => exact .inl .keep

theorem Step.dead (st : Step mono now inp s s') (dead : s.poisoned = true) :
    s'.poisoned = true ∧ s'.stable = s.stable ∧ s'.log = s.log ∧ s'.nextOpId = s.nextOpId := by
  cases st with
  | idle h =>
    have hp : s'.poisonReason = s.poisonReason := congrArg Core.poisonReason h
    exact ⟨by unfold poisoned; rw [hp]; exact dead, congrArg Core.stable h, congrArg Core.log h,
      congrArg Core.nextOpId h⟩
  | die => exact ⟨by simp, rfl, rfl, rfl⟩
  | junk dead' _ log stable id => exact ⟨dead', stable, log, id⟩
  | _ => simp_all

/-! ## The invariant -/

/-- What holds of a node between any two effects; `mono` as in `Step`. -/
structure NodeInv (mono : Prop) (s : Endpoint I M) : Prop where
  ballots : s.ballots.Stored
  log : s.cover.Stored
  votes : s.poisoned = false → VoteInv s.ballots
  shape : s.poisoned = false → Shape s.cover
  covered : mono → s.poisoned = false → Covered s.cover

omit [LinearOrder I] in
theorem SameStable.stored (h : SameStable s s') (hs : s.ballots.Stored) : s'.ballots.Stored := by
  obtain ⟨hst, hid⟩ := h
  refine ⟨?_, ?_⟩
  · simpa [Endpoint.ballots, Core.ballots, core, hst, hid] using hs.ids
  · simpa [Ballots.kept, Endpoint.ballots, Core.ballots, core, hst] using hs.ordered

omit [LinearOrder I] in
theorem cover_stored_of_same (hl : s'.log = s.log) (hid : s'.nextOpId = s.nextOpId)
    (hs : s.cover.Stored) : s'.cover.Stored := by
  refine ⟨?_, ?_⟩
  · simpa [Cover.stagedIds, cover, Core.cover, core, hl, hid] using hs.ids
  · simpa [Cover.logs, cover, Core.cover, core, hl] using hs.contiguous

theorem Step.inv (st : Step mono now inp s s') (h : NodeInv mono s) : NodeInv mono s' := by
  cases hp : s.poisoned with
  | true =>
    obtain ⟨hd, hst, hl, hid⟩ := st.dead hp
    refine ⟨SameStable.stored ⟨hst, hid⟩ h.ballots, cover_stored_of_same hl hid h.log, ?_, ?_, ?_⟩ <;> simp [hd]
  | false =>
    have hv := h.votes hp
    have hs := h.shape hp
    have hb : s'.ballots.Stored ∧ (s'.poisoned = false → VoteInv s'.ballots) := by
      rcases st.ballotStep with hb | ⟨hd, hsame⟩
      · exact ⟨hb.stored h.ballots hv, fun _ => hb.inv h.ballots hv⟩
      · exact ⟨hsame.stored h.ballots, by simp [hd]⟩
    rcases st.coverStep h.ballots hv h.log hs with hc | ⟨hd, hl, hid⟩
    · exact ⟨hb.1, hc.stored h.log hs, hb.2, fun _ => hc.shape h.log hs,
        fun hm _ => hc.covered hm h.log hs (h.covered hm hp)⟩
    · exact ⟨hb.1, cover_stored_of_same hl hid h.log, hb.2, by simp [hd], by simp [hd]⟩

theorem Steps.inv (st : Steps mono now inp s s') (h : NodeInv mono s) : NodeInv mono s' := by
  induction st with
  | refl => exact h
  | tail _ st ih => exact st.inv ih

end Endpoint

end Sailing
