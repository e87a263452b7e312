import Sailing.Run.Restart

/-!
# The invariant of every reachable state

A run is a list of calls: what the driver calls, what the stores do, and
crashes. The invariant of the node holds after every run, and the part that
speaks of the snapshot slot after every run in which no call lowers it.
-/

namespace Sailing

variable {I : Type} [LinearOrder I] {M : StateMachine}

namespace Endpoint

variable {mono : Prop} {now : Instant} {s s' : Endpoint I M}

/-! ## One call -/

omit [LinearOrder I] in
theorem Submitted.of_visible (h : s.Submitted) (live : s'.poisoned = false → s.poisoned = false)
    (hv : s'.stable.visible = s.stable.visible) (ht : s'.term = s.term) : s'.Submitted := fun hl => by
  rw [hv, ht]
  exact h (live hl)

omit [LinearOrder I] in
theorem visible_sync (st : StableStore I) : st.sync.visible = st.visible := by
  unfold StableStore.sync
  split
  · rfl
  next im d rest hs =>
  have h : Fifo.newest st.durable st.staged = Fifo.newest im rest := by
    rw [hs]
    exact Fifo.newest_cons
  exact h.symm

omit [LinearOrder I] in
theorem surface_staged (st : StableStore I) (i : Nat) :
    (st.surface i).durable = st.durable ∧ (st.surface i).staged = st.staged := by
  unfold StableStore.surface
  split <;> exact ⟨rfl, rfl⟩

omit [LinearOrder I] in
theorem surfaceLog_staged (st : LogStore I) (i : Nat) :
    (st.surface i).durable = st.durable ∧ (st.surface i).staged = st.staged := by
  unfold LogStore.surface
  split <;> exact ⟨rfl, rfl⟩

omit [LinearOrder I] in
theorem mem_images_syncLog (l : LogStore I) {d : LogImage I} (hd : d ∈ l.sync.images) : d ∈ l.images := by
  unfold LogStore.sync at hd
  split at hd
  · exact hd
  next hs =>
  rw [LogStore.images_eq, hs]
  exact Fifo.mem_images_sync hd

omit [LinearOrder I] in
theorem mem_images_sync (st : StableStore I) {d : StableImage I} (hd : d ∈ st.sync.images) : d ∈ st.images := by
  unfold StableStore.sync at hd
  split at hd
  · exact hd
  next hs =>
  show d ∈ Fifo.images st.durable st.staged
  rw [hs]
  exact Fifo.mem_images_sync hd

omit [LinearOrder I] in
theorem pollMessage_outgoing : ∃ outgoing, s.pollMessage.2 = { s with outgoing := outgoing } ∧
    outgoing <:+ s.outgoing := by
  unfold pollMessage
  split
  · exact ⟨s.outgoing, rfl, List.suffix_rfl⟩
  split
  · exact ⟨s.outgoing, rfl, List.suffix_rfl⟩
  · next o rest h => exact ⟨rest, rfl, h ▸ List.suffix_cons _ _⟩

omit [LinearOrder I] in
theorem pollEvent_events : ∃ events, s.pollEvent.2 = { s with events := events } := by
  unfold pollEvent
  split
  · exact ⟨s.events, rfl⟩
  split
  · exact ⟨s.events, rfl⟩
  · next e rest h => exact ⟨rest, rfl⟩

/-- What one call preserves, if it does not lower the slot. -/
theorem NodeInv.exec (inv : NodeInv mono s) (sub : s.Submitted) (c : Call I M)
    (higher : mono → c.isPublic = true → s.slot ≤ (s.exec c).slot) :
    NodeInv mono (s.exec c) ∧ (s.exec c).Submitted := by
  by_cases hc : c.isPublic = true
  · obtain ⟨h, hs⟩ := does_exec hc inv sub fun hm => higher hm hc
    exact ⟨h.inv inv, hs⟩
  clear higher
  have sub_of : ∀ {s' : Endpoint I M}, s'.poisoned = s.poisoned →
      s'.stable.visible = s.stable.visible → s'.term = s.term → s'.Submitted := fun hp hv ht =>
    sub.of_visible (fun hl => hp.symm.trans hl) hv ht
  cases c with
  | pollMessage =>
    obtain ⟨out, he, hsuf⟩ := pollMessage_outgoing (s := s)
    show NodeInv mono s.pollMessage.2 ∧ s.pollMessage.2.Submitted
    rw [he]
    exact ⟨inv.waiting rfl rfl (fun _ h => h) rfl rfl (fun _ h => h) fun o ho => hsuf.subset ho, sub_of rfl rfl rfl⟩
  | pollEvent =>
    obtain ⟨events, he⟩ := pollEvent_events (s := s)
    show NodeInv mono s.pollEvent.2 ∧ s.pollEvent.2.Submitted
    rw [he]
    exact ⟨inv.events events, sub_of rfl rfl rfl⟩
  | syncLog => exact ⟨inv.syncLog, sub_of rfl rfl rfl⟩
  | syncStable => exact ⟨inv.syncStable, sub_of rfl (visible_sync _) rfl⟩
  | surfaceLog i =>
    exact ⟨inv.waiting (surfaceLog_staged _ i).1 (surfaceLog_staged _ i).2 (doneIds_surfaceLog _ i) rfl rfl
      (fun _ h => h) fun _ h => h, sub_of rfl rfl rfl⟩
  | surfaceStable i =>
    refine ⟨inv.waiting rfl rfl (fun _ h => h) (surface_staged _ i).1 (surface_staged _ i).2
      (doneIds_surface _ i) fun _ h => h, sub_of rfl ?_ rfl⟩
    show (s.stable.surface i).visible = s.stable.visible
    unfold StableStore.visible
    rw [(surface_staged _ i).1, (surface_staged _ i).2]
  | loseLog i =>
    exact ⟨inv.waiting rfl rfl (doneIds_loseLog _ i) rfl rfl (fun _ h => h) fun _ h => h, sub_of rfl rfl rfl⟩
  | loseStable i =>
    exact ⟨inv.waiting rfl rfl (fun _ h => h) rfl rfl (doneIds_lose _ i) fun _ h => h, sub_of rfl rfl rfl⟩
  | failLog =>
    refine ⟨inv.waiting rfl rfl (fun a ha => ?_) rfl rfl (fun _ h => h) fun _ h => h, sub_of rfl rfl rfl⟩
    simpa [LogStore.doneIds] using ha
  | failStable =>
    refine ⟨inv.waiting rfl rfl (fun _ h => h) rfl rfl (fun a ha => ?_) fun _ h => h, sub_of rfl rfl rfl⟩
    simpa [StableStore.doneIds] using ha
  | logReads | stableReads =>
    exact ⟨inv.waiting rfl rfl (fun _ h => h) rfl rfl (fun _ h => h) fun _ h => h, sub_of rfl rfl rfl⟩
  | crash =>
    simp only [Endpoint.exec]
    split
    · next h => exact inv.crash h.1
    · exact ⟨inv, sub⟩
  | _ => exact absurd rfl hc

/-! ## Runs -/

/-- No call of the run lowers the boundary of the snapshot slot. -/
def SlotsRise (s : Endpoint I M) : List (Call I M) → Prop
  | [] => True
  | c :: cs => (c.isPublic = true → s.slot ≤ (s.exec c).slot) ∧ (s.exec c).SlotsRise cs

theorem NodeInv.execs (calls : List (Call I M)) (inv : NodeInv mono s)
    (sub : s.Submitted) (rise : mono → s.SlotsRise calls) :
    NodeInv mono (s.execs calls) ∧ (s.execs calls).Submitted := by
  induction calls generalizing s with
  | nil => exact ⟨inv, sub⟩
  | cons c cs ih =>
    obtain ⟨inv₁, sub₁⟩ := inv.exec sub c fun hm => (rise hm).1
    exact ih inv₁ sub₁ fun hm => (rise hm).2

/-- A new node is one that recovered empty stores. -/
theorem new_eq (config : Config I) (now : Instant) (rng : Nat → Nat) : (new config now rng M.init : Endpoint I M) =
      (recovered config now rng M.init 0 none 0
        (Tracker.fromConfState (ConfState.fromVoters config.voters) 0 config.maxInflightMsgs
          config.maxInflightBytes) (none, none) LogStore.empty StableStore.empty).armElectionTimer now :=
  rfl

theorem new_inv (config : Config I) (now : Instant) (rng : Nat → Nat) :
    NodeInv mono (new config now rng M.init : Endpoint I M) ∧ (new config now rng M.init : Endpoint I M).Submitted := by
  rw [new_eq]
  set r : Endpoint I M := recovered config now rng M.init 0 none 0
    (Tracker.fromConfState (ConfState.fromVoters config.voters) 0 config.maxInflightMsgs
      config.maxInflightBytes) (none, none) LogStore.empty StableStore.empty with hr
  have inv : NodeInv mono r := by
    refine recovered_inv (by simp [LogStore.doneIds, LogStore.empty]) rfl (fun d hd => ?_)
      (by simp [StableStore.doneIds, StableStore.empty]) rfl
      fun _ => ⟨rfl, Nat.zero_le _, Nat.zero_le _, fun i hi => .inl hi⟩
    simp only [LogStore.images, LogStore.empty, List.map_nil, List.mem_singleton] at hd
    rw [hd]
    exact LogImage.contiguous_nil 0 0
  have st : Step mono now .quiet r (r.armElectionTimer now) := .arm rfl (by simp [hr, recovered]) rfl
  exact ⟨st.inv inv, fun _ => rfl⟩

/-- Every reachable state satisfies what does not speak of the slot. -/
theorem Reachable.inv {config : Config I} (h : Reachable config s) : NodeInv False s ∧ s.Submitted := by
  obtain ⟨now, rng, calls, rfl⟩ := h
  have h : NodeInv False (new config now rng M.init : Endpoint I M) ∧
      (new config now rng M.init : Endpoint I M).Submitted := new_inv config now rng
  exact h.1.execs calls h.2 False.elim

end Endpoint

end Sailing
