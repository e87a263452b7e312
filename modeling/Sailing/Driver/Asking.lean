import Sailing.Driver.Routing
import Sailing.Run.Tenure

/-!
# The endpoint of a driver

Where the entry of a request that was taken is, and what the calls between two
pumps, and the pump's polling of events, do to it.
-/

namespace Sailing

variable {I : Type} [LinearOrder I] {M : StateMachine}

namespace Endpoint

variable {s : Endpoint I M} {history : History M} {own : Entry I}

/-! ## Asking -/

variable {i : Index} {c : Call I M} {e : Event I M.Response} {rest : List (Event I M.Response)}

theorem nextLogIndex_eq {last : Index} (h : nextLogIndex last = some i) : i = last + 1 ∧ i < u64Max := by
  unfold nextLogIndex checkedNext at h
  obtain ⟨h, hi⟩ := Option.filter_eq_some_iff.mp h
  split at h
  · next hl =>
    obtain rfl := Option.some.inj h
    exact ⟨rfl, lt_of_le_of_ne hl (by simpa using hi)⟩
  · cases h

omit [LinearOrder I] in
theorem mintable_of_appendOwn {kind : EntryKind I} (live : (s.appendOwn i kind).poisoned = false) : s.Mintable := by
  by_contra mint
  unfold appendOwn at live
  rw [mintOpId_spent mint] at live
  have h : (s.poison .opIdExhausted).submitAppend s.nextOpId
      [⟨(s.poison .opIdExhausted).term, i, kind⟩] = s.poison .opIdExhausted := by
    simp [submitAppend]
  simp only [h] at live
  exact absurd ((poisoned_poison (s := s) _).symm.trans live) (by simp)

omit [LinearOrder I] in
theorem propose_ok {cmd : M.Command} (h : (s.propose cmd).1 = .ok i) :
    s.poisoned = false ∧ s.role = .leader ∧ nextLogIndex s.log.lastIndex = some i ∧
      (s.propose cmd).2 = s.appendOwn i (.normal (M.encodeCommand cmd)) := by
  unfold propose at h
  split at h
  · cases h
  next hp =>
  split at h
  · cases h
  next hr =>
  split at h
  · cases h
  next ht =>
  split at h
  · cases h
  next index hi =>
  simp only at h
  split at h
  · cases h
  next hb =>
  obtain rfl := Except.ok.inj h
  refine ⟨(Bool.not_eq_true _).mp hp, not_not.mp hr, hi, ?_⟩
  unfold propose
  rw [if_neg hp, if_neg hr, if_neg ht]
  simp only [hi]
  rw [if_neg hb]

omit [LinearOrder I] in
theorem appendConfChange_eq {cc : ConfChangeV2 I} (h : (s.appendConfChange cc).1 = some i) :
    s.poisoned = false ∧ nextLogIndex s.log.lastIndex = some i ∧ s.appendConfChange cc =
      (some i, { s.appendOwn i (.confChange (some cc)) with pendingConfIndex := i }) := by
  unfold appendConfChange at h
  split at h
  · cases h
  next hp =>
  split at h
  · cases h
  next index hi =>
  obtain rfl := Option.some.inj h
  refine ⟨(Bool.not_eq_true _).mp hp, hi, ?_⟩
  unfold appendConfChange
  rw [if_neg hp]
  simp only [hi]

theorem proposeConfChange_ok {cc : ConfChangeV2 I} (h : (s.proposeConfChange cc).1 = .ok i) :
    s.poisoned = false ∧ s.role = .leader ∧ nextLogIndex s.log.lastIndex = some i ∧ (s.proposeConfChange cc).2 =
        { s.appendOwn i (.confChange (some cc)) with pendingConfIndex := i } := by
  unfold proposeConfChange at h
  split at h
  · cases h
  next hp =>
  split at h
  · cases h
  next hr =>
  split at h
  · cases h
  next ht =>
  split at h
  · cases h
  next hc =>
  split at h
  · cases h
  next hm =>
  split at h
  · cases h
  next tracker hk =>
  split at h
  · cases h
  next hb =>
  split at h
  · next index s' he =>
    obtain rfl := Except.ok.inj h
    have happ : (s.appendConfChange cc).1 = some index := by rw [he]
    obtain ⟨live, hi, heq⟩ := appendConfChange_eq happ
    refine ⟨live, not_not.mp hr, hi, ?_⟩
    unfold proposeConfChange
    rw [if_neg hp, if_neg hr, if_neg ht, if_neg hc, if_neg hm]
    simp only [hk]
    rw [if_neg hb, heq]
  · cases h

theorem ask_ok {req : Request I M} (h : (s.ask req).1 = .ok i) :
    s.poisoned = false ∧ s.role = .leader ∧ i = s.log.visible.lastIndex + 1 ∧ i < u64Max ∧
      ((s.ask req).2.poisoned = false →
        (s.ask req).2.role = s.role ∧ (s.ask req).2.term = s.term ∧
        (s.ask req).2.applied = s.applied ∧ (s.ask req).2.events = s.events ∧
        (s.ask req).2.log.visible = s.log.visible.put ⟨s.term, i, req.kind⟩) := by
  have visible : ∀ id, (s.log.submitAppend id [⟨s.term, i, req.kind⟩]).visible =
      s.log.visible.put ⟨s.term, i, req.kind⟩ := fun id => LogStore.submitAppend_visible s.log _ _ _
  cases req with
  | submit cmd =>
    obtain ⟨live, role, hi, heq⟩ := propose_ok h
    have heq : (s.ask (.submit cmd)).2 = _ := heq
    obtain ⟨rfl, small⟩ := nextLogIndex_eq hi
    refine ⟨live, role, rfl, small, fun live' => ?_⟩
    rw [heq] at live' ⊢
    rw [appendOwn_eq live (mintable_of_appendOwn live')]
    exact ⟨rfl, rfl, rfl, rfl, visible _⟩
  | conf cc =>
    obtain ⟨live, role, hi, heq⟩ := proposeConfChange_ok h
    have heq : (s.ask (.conf cc)).2 = _ := heq
    obtain ⟨rfl, small⟩ := nextLogIndex_eq hi
    refine ⟨live, role, rfl, small, fun live' => ?_⟩
    rw [heq] at live' ⊢
    rw [appendOwn_eq live (mintable_of_appendOwn live')]
    exact ⟨rfl, rfl, rfl, rfl, visible _⟩

/-- The entry of a request is waited for from the start, or a change of leader that
is not routed yet will sweep its waiter. -/
theorem ask_phase {req : Request I M} (inv : NodeInv False s) (sound : Sound history s)
    (h : (s.ask req).1 = .ok i) (live' : (s.ask req).2.poisoned = false) :
    Waiting ⟨s.term, i, req.kind⟩ (s.ask req).2 ∨ Doomed ⟨s.term, i, req.kind⟩ (s.ask req).2 := by
  obtain ⟨live, role, rfl, small, hask⟩ := ask_ok h
  obtain ⟨hr, ht, ha, he, hl⟩ := hask live'
  have shape := inv.shape live
  have ahead : s.applied < s.log.visible.lastIndex + 1 :=
    Nat.lt_succ_of_le (shape.applied_commit.trans shape.commit_last)
  cases hf : s.events.find? (Event.decides (s.log.visible.lastIndex + 1)) with
  | none =>
    refine .inl ⟨hr.trans role, ht, ha ▸ ahead, ?_, he ▸ hf, by cases req <;> simp [Request.kind]⟩
    rw [hl]
    exact LogImage.get_put_self ⟨Nat.lt_succ_of_le (Nat.le_add_right _ _), le_rfl⟩
  | some e =>
    have told := sound.told e (List.mem_of_find?_eq_some hf)
    have hd := List.find?_some hf
    -- whatever is reported is about entries that are applied
    cases e with
    | leaderChanged t l => exact .inr ⟨t, l, he ▸ hf⟩
    | applied j r | confChanged j conf =>
      have hj : j = s.log.visible.lastIndex + 1 := by simpa [Event.decides] using hd
      exact absurd (hj ▸ told j rfl) (not_le.mpr ahead)
    | _ => exact absurd hd (by simp [Event.decides])

/-! ## Calls and events -/

/-- What a driver's endpoint keeps. -/
structure Driven (history : History M) (s : Endpoint I M) : Prop where
  inv : NodeInv False s
  sub : s.Submitted
  sound : s.poisoned = false → Sound history s

/-- Not a message from the node itself, and no call of the pump or of a restart. -/
structure Routine (me : I) (c : Call I M) : Prop where
  foreign : ∀ now sender m, c = .message now sender m → sender ≠ me
  poll : c ≠ .pollEvent
  crash : ∀ now rng bootEpoch prior, c ≠ .crash now rng bootEpoch prior

theorem Routine.of_between {me : I} (h : Driver.Between me c = true) : Routine me c := by
  refine ⟨fun now sender m hc => ?_, fun hc => ?_, fun now rng bootEpoch prior hc => ?_⟩ <;> subst hc
  · simpa [Driver.Between] using h
  · exact absurd h (by simp [Driver.Between])
  · exact absurd h (by simp [Driver.Between])

omit [LinearOrder I] in
theorem Routine.ask {me : I} (req : Request I M) : Routine me req.call := by
  cases req <;> exact ⟨by simp [Request.call], by simp [Request.call], by simp [Request.call]⟩

theorem ask_eq (req : Request I M) : (s.ask req).2 = s.exec req.call := by cases req <;> rfl

theorem Driven.exec (h : Driven history s) (hc : Routine s.config.id c) : Driven history (s.exec c) := by
  obtain ⟨inv, sub⟩ := h.inv.exec h.sub c False.elim
  refine ⟨inv, sub, fun live => ?_⟩
  have tracked : _ ∧ _ ∧ Sound history (s.exec c) ∧ Tracks history ⟨0, 0, .empty⟩ s (s.exec c) :=
    exec_tracks h.inv h.sub hc.foreign hc.poll hc.crash h.sound (by simp [u64Max]) live
  exact tracked.2.2.1

/-- What becomes of the entry in a live node. -/
def Follows (history : History M) (own : Entry I) (s s' : Endpoint I M) : Prop :=
  s'.poisoned = false → s.poisoned = false ∧ Tracks history own s s'

/-- What was applied stays applied, in a live node. -/
def Retains (history : History M) (own : Entry I) (s s' : Endpoint I M) : Prop :=
  s'.poisoned = false → s.poisoned = false ∧
    (Kept own s → Kept own s' ∧ ∀ r, Once history own s r → Once history own s' r)

omit [LinearOrder I] in
theorem Follows.retains {s' : Endpoint I M} (h : Follows history own s s') : Retains history own s s' :=
  fun live => ⟨(h live).1, (h live).2.kept⟩

omit [LinearOrder I] in
theorem Follows.refl (s : Endpoint I M) : Follows history own s s := fun live => ⟨live, .refl s⟩

theorem Driven.follows (h : Driven history s) (hc : Routine s.config.id c)
    (small : own.index < u64Max) : Follows history own s (s.exec c) := fun live => by
  have tracked : s.poisoned = false ∧ _ ∧ _ ∧ Tracks history own s (s.exec c) :=
    exec_tracks h.inv h.sub hc.foreign hc.poll hc.crash h.sound small live
  exact ⟨tracked.1, tracked.2.2.2⟩

theorem Driven.pop (h : Driven history s)
    (live : s.poisoned = false) (he : s.events = e :: rest) : Driven history { s with events := rest } := by
  have heq : s.exec .pollEvent = { s with events := rest } := by
    simp [Endpoint.exec, pollEvent, live, he]
  obtain ⟨inv, sub⟩ := h.inv.exec h.sub .pollEvent False.elim
  rw [heq] at inv sub
  refine ⟨inv, sub, fun _ => ⟨(h.sound live).known, (h.sound live).bounded, fun x hx => ?_⟩⟩
  exact (h.sound live).told x (he ▸ List.mem_cons_of_mem _ hx)

omit [LinearOrder I] in
theorem retains_pop (rest : List (Event I M.Response)) : Retains history own s { s with events := rest } :=
  fun live => ⟨live, fun hk => ⟨⟨hk.reached, hk.held, hk.passed⟩, fun _ => id⟩⟩

omit [LinearOrder I] in
theorem follows_pop (he : s.events = e :: rest) (hd : e.decides own.index = false) :
    Follows history own s { s with events := rest } := fun live => by
  have hf : s.events.find? (Event.decides own.index) = rest.find? (Event.decides own.index) := by
    rw [he, List.find?_cons_of_neg (by simp [hd])]
  have kept : Retains history own s { s with events := rest } := retains_pop rest
  refine ⟨live, ?_, ?_, (kept live).2⟩
  · rintro (w | ⟨hk, ev, hev, ho⟩)
    · exact .inl (.inl ⟨w.role, w.term, w.ahead, w.held, hf ▸ w.undecided, w.asked⟩)
    · refine .inl (.inr ⟨((kept live).2 hk).1, ev, hf ▸ hev, ?_⟩)
      cases ev <;> exact ho
  · rintro ⟨t, l, hd⟩
    exact ⟨t, l, hf ▸ hd⟩

omit [LinearOrder I] in
theorem find?_head
    (he : s.events = e :: rest) (hd : e.decides i = true) : s.events.find? (Event.decides i) = some e := by
  rw [he, List.find?_cons_of_pos hd]

/-! ## What a driver starts with -/

/-- A new endpoint, or one that a restart recovered. -/
inductive Boots (config : Config I) : Endpoint I M → Prop
  | new (now : Instant) (rng : Nat → Nat) : Boots config (new config now rng M.init)
  | restart {s : Endpoint I M} (now : Instant) (rng : Nat → Nat) {bootEpoch : Nat} (prior : Option Duration)
      (reach : Reachable config s) (later : s.nextOpId.epoch < bootEpoch) :
      Boots config (s.crash now rng bootEpoch prior)

theorem Fresh.nothing {st : M.State} (h : Fresh st) (history : History M) : history.of st = [] := by
  rcases h with rfl | ⟨snap, h⟩
  · exact history.init
  · exact (history.restore h).trans history.init

theorem Boots.driven {config : Config I} (h : Boots config s) (history : History M) : Driven history s := by
  cases h with
  | new now rng =>
    have start : NodeInv False (Endpoint.new config now rng M.init : Endpoint I M) ∧ _ := new_inv config now rng
    refine ⟨start.1, start.2, fun _ => ⟨fun hr => ?_, fun x hx => ?_, fun e he => ?_⟩⟩
    · rw [new_eq] at hr
      exact absurd hr (by simp [recovered, armElectionTimer])
    · rw [new_eq] at hx
      exact absurd hx (by simp [recovered, armElectionTimer, history.init])
    · rw [new_eq] at he
      exact absurd he (by simp [recovered, armElectionTimer])
  | @restart s now rng bootEpoch prior reach later =>
    obtain ⟨inv, sub⟩ := reach.inv
    have booted : NodeInv False (s.crash now rng bootEpoch prior) ∧ _ := inv.crash later
    refine ⟨booted.1, booted.2, fun live => ?_⟩
    have recovers : ∃ r s' : Endpoint I M, NodeInv False r ∧ RecoveredFrom s.config now s r bootEpoch ∧
        Steps False now .quiet r s' ∧ s.crash now rng bootEpoch prior = { s' with events := [] } :=
      exists_recovered now inv later
    obtain ⟨r, s', invr, from_, st, hb⟩ := recovers
    rw [hb] at live ⊢
    have start : Sound history r := ⟨fun hr => absurd hr (by simp [from_.role]),
      fun x hx => absurd hx (by simp [from_.fsm.nothing history]), fun e he => absurd he (by simp [from_.events])⟩
    -- the replay applies the committed prefix to what the snapshot gave
    have replay : Does False now (· = .quiet) r s' := Steps.does st rfl
    have done : _ ∧ Sound history s' ∧ Tracks history ⟨0, 0, .empty⟩ r s' :=
      Does.tracks replay invr (fun inp hi => by rw [hi]; trivial) start (by simp [u64Max]) live
    exact ⟨done.2.1.known, done.2.1.bounded, fun e he => absurd he (by simp)⟩

end Endpoint

end Sailing
