import Sailing.Run.Commit

/-!
# A peer is probed above its match

The next index of every tracked peer stays above its proven match, through every effect
but one: a rejection that does not say what it rejects moves the probe back to the first
entry. Such a rejection is the nudge that a node of a newer term sends to a stale leader.
-/

namespace Sailing

variable {I : Type} [LinearOrder I] {M : StateMachine}

namespace Endpoint

variable {mono : Prop} {now : Instant} {inp : Input I} {s s' : Endpoint I M}

theorem replaces_changeTracker {cc : ConfChangeV2 I} {tracker : Tracker I} (ok : s.changeTracker cc = .ok tracker) :
    s.tracker.Replaces s.changer.added tracker := by
  unfold changeTracker at ok
  split at ok
  · exact Changer.replaces_leaveJoint ok
  split at ok
  · exact Changer.replaces_enterJoint ok
  · exact Changer.replaces_simple ok

/-- A change that does not fail leaves the tracker it asked for. -/
theorem changeTracker_applyConfChange {idx : Index} {cc : ConfChangeV2 I}
    (live : (s.applyConfChange idx cc).poisoned = false) :
    s.changeTracker cc = .ok (s.applyConfChange idx cc).tracker := by
  unfold applyConfChange at live ⊢
  cases changed : s.changeTracker cc with
  | error =>
    simp only [changed] at live
    exact absurd live (by simp [poisoned_poison])
  | ok tracker =>
    simp only [changed] at live ⊢
    generalize (if s.role = .leader then captureFarewells idx (s.removedPeers tracker) s else s) = u at live ⊢
    split
    · next dead =>
      rw [if_pos dead, dead] at live
      contradiction
    obtain ⟨-, -, -, -, same⟩ := stepDownIfRemoved_same
      ((u.adoptTracker tracker).emit (.confChanged idx (u.adoptTracker tracker).tracker.confState))
    split <;> exact congrArg Except.ok same.symm

theorem tracker_applyEntry {e : Entry I} (live' : (s.applyEntry e).poisoned = false) :
    (s.applyEntry e).tracker = s.tracker ∨
      e.kind.isConfChange = true ∧ (s.applyEntry e).passed = s.passed ++ [e] ∧
        ∃ cc, s.changeTracker cc = .ok (s.applyEntry e).tracker := by
  have out := applyEntry_outcome s e
  generalize s.applyEntry e = t at out live' ⊢
  cases out with
  | refused kind dead =>
    rw [dead] at live'
    cases live'
  | changed at_ low kind alive =>
    exact .inr ⟨by rw [kind]; rfl, congrArg (· ++ [e]) (applyConfChange_same s _ _).2.2.2.2, _,
      changeTracker_applyConfChange alive⟩
  | _ => exact .inl rfl

theorem moves_applyEntry {back counted : Prop} {slot : Index} {e : Entry I} (live' : (s.applyEntry e).poisoned = false) :
    s.tracker.Moves True back counted slot (s.applyEntry e).tracker := by
  rcases tracker_applyEntry live' with same | ⟨-, -, cc, changed⟩
  · exact .of_progress (congrArg Tracker.progress same)
  · exact (replaces_changeTracker changed).moves s.changer.fresh_added

/-- Every effect takes the records along their transitions. -/
theorem Step.moves (st : Step mono now inp s s') (live' : s'.poisoned = false) :
    s.tracker.Moves True inp.Rewinds s.log.visible.Contiguous s.stable.visible.slot s'.tracker := by
  cases st.acts live' with
  | keeps commit pending applied fsm flow => exact flow.weaken (fun _ => trivial) id id le_rfl
  | commits _ _ _ _ tracker | installs _ _ _ _ tracker => exact .of_progress (congrArg Tracker.progress tracker)
  | applies running held eq =>
    rw [eq] at live' ⊢
    exact moves_applyEntry live'

/-- Every effect keeps the probes above the matches, unless it handles a rejection that does
not say what it rejects. -/
theorem Step.ahead (st : Step mono now inp s s') (live' : s'.poisoned = false) (h : s.tracker.Ahead) :
    s'.tracker.Ahead ∨ inp.Rewinds :=
  (st.moves live').ahead h

theorem Does.ahead {brings : Input I → Prop} (hd : Does mono now brings s s')
    (named : ∀ inp, brings inp → ¬ inp.Rewinds) (live' : s'.poisoned = false) (h : s.tracker.Ahead) :
    s'.tracker.Ahead := by
  induction hd with
  | refl => exact h
  | tail hd st ih =>
    obtain ⟨inp, hi, st⟩ := st
    exact (st.ahead live' (ih (st.live live'))).resolve_right (named inp hi)

omit [LinearOrder I] in
theorem quiet_names : ¬ (.quiet : Input I).Rewinds := by
  rintro ⟨sender, r, msg, -⟩
  cases msg

theorem Steps.ahead (st : Steps mono now inp s s') (named : ¬ inp.Rewinds) (live' : s'.poisoned = false)
    (h : s.tracker.Ahead) : s'.tracker.Ahead := by
  have hd : Does mono now (· = inp) s s' := Steps.does st rfl
  exact Does.ahead hd (fun _ same => same ▸ named) live' h

/-! ## A rejection -/

/-- The rejection moves the probe of its sender back below the match. -/
def Rewinds (s : Endpoint I M) (sender : I) (r : AppendResponse I) : Prop :=
  s.role = .leader ∧ r.rejectedIndex = 0 ∧ ∃ pr, s.tracker.progress sender = some pr ∧ pr.matchIndex ≠ 0 ∧
    ∀ pending acked total, pr.state ≠ .snapshot pending acked total

variable {sender : I} {r : AppendResponse I}

theorem steps_onAppendResponse_reject (reject : r.reject = true)
    (keeps : ¬ s.Rewinds sender r) : Steps mono now .quiet s (s.onAppendResponse now sender r) := by
  unfold onAppendResponse
  split
  · exact .refl
  next go =>
  simp only [not_or, Bool.not_eq_true, ne_eq, not_not] at go
  split
  · exact .refl
  next pr progress =>
  by_cases sending : ∃ pending acked total, pr.state = .snapshot pending acked total
  · obtain ⟨pending, acked, total, state⟩ := sending
    have ignored : s.onAppendReject now sender pr r = s := by
      unfold onAppendReject
      rw [state]
    rw [ignored]
  · have names : (Input.quiet : Input I).Rewinds ∨ r.rejectedIndex ≠ 0 ∨ pr.matchIndex = 0 := by
      right
      by_contra unnamed
      simp only [not_or, ne_eq, not_not] at unnamed
      refine keeps ⟨go.2, unnamed.1, pr, progress, unnamed.2, fun pending acked total state => ?_⟩
      exact sending ⟨pending, acked, total, state⟩
    exact (Sent.onAppendReject (.inl go.2) progress names).steps

theorem rewinds_heard (h : (s.heard sender).Rewinds sender r) : s.Rewinds sender r := by
  obtain ⟨role, unnamed, pr, progress, matched, sending⟩ := h
  unfold heard at role progress
  by_cases leads : s.role = .leader
  · rw [if_pos leads] at progress
    simp only [Tracker.modifyProgress, Function.update_self] at progress
    obtain ⟨p, held, rfl⟩ := Option.map_eq_some_iff.mp progress
    exact ⟨leads, unnamed, p, held, matched, sending⟩
  · rw [if_neg leads] at role
    exact absurd role leads

theorem steps_receive_reject (reject : r.reject = true)
    (keeps : ¬ s.Rewinds sender r) : Steps mono now .quiet s (s.receive now sender (.appendResponse r)) := by
  have heard : Sent mono now .quiet s (s.heard sender) := Sent.heard sender
  have handled : Steps mono now .quiet (s.heard sender) ((s.heard sender).dispatch now sender (.appendResponse r)) :=
    steps_onAppendResponse_reject reject fun h => keeps (rewinds_heard h)
  rw [receive_eq]
  exact (heard.steps.trans handled).trans steps_epilogue

/-- A call that brings a leader such a rejection for its own term. -/
def Rewound (s : Endpoint I M) : Move I M → Prop
  | .call (.message _ sender (.appendResponse r)) =>
    r.sender = sender ∧ r.term = s.term ∧ r.reject = true ∧ s.Rewinds sender r
  | _ => False

theorem ahead_handleMessage_reject (reject : r.reject = true)
    (keeps : ¬ (r.sender = sender ∧ r.term = s.term ∧ s.Rewinds sender r))
    (live' : (s.handleMessage now sender (.appendResponse r)).poisoned = false) (h : s.tracker.Ahead) :
    (s.handleMessage now sender (.appendResponse r)).tracker.Ahead := by
  unfold handleMessage at live' ⊢
  by_cases refused : s.poisoned ∨ (Message.appendResponse r).sender ≠ sender
  · rw [if_pos refused]
    exact h
  rw [if_neg refused] at live' ⊢
  simp only [not_or, ne_eq, not_not] at refused
  by_cases newer : s.term < (Message.appendResponse r).term ∧ (Message.appendResponse r).advertisedPrevote = false
  · -- the nudge does its work: the node follows the newer term
    rw [if_pos newer] at live' ⊢
    have follows : (s.adoptTerm r.term).role = .follower ∧ (s.adoptTerm r.term).tracker = s.tracker := by
      unfold adoptTerm
      rw [setLeader_eq]
      exact ⟨rfl, rfl⟩
    have steps : Steps False now .quiet (s.adoptTerm r.term)
        ((s.adoptTerm r.term).receive now sender (.appendResponse r)) :=
      steps_receive_reject reject fun rewinds => absurd (follows.1.symm.trans rewinds.1) (by decide)
    exact Steps.ahead steps quiet_names live' (follows.2 ▸ h)
  rw [if_neg newer] at live' ⊢
  split
  · unfold answerStale
    split <;> exact h
  next current =>
  rw [if_neg current] at live'
  have term : r.term = s.term := by
    have low : ¬ s.term < r.term := fun lt => newer ⟨lt, rfl⟩
    have high : ¬ r.term < s.term := fun lt => current ⟨lt, rfl⟩
    exact le_antisymm (not_lt.mp low) (not_lt.mp high)
  have steps : Steps False now .quiet s (s.receive now sender (.appendResponse r)) :=
    steps_receive_reject reject fun rewinds => keeps ⟨refused.2, term, rewinds⟩
  exact Steps.ahead steps quiet_names live' h

/-! ## Runs -/

omit [LinearOrder I] in
theorem install_names (sender : I) (is : InstallSnapshot I) :
    ¬ (.message sender (.installSnapshot is) : Input I).Rewinds := by
  rintro ⟨_, r, msg, -⟩
  cases msg

/-- A property of the tracker is kept by every move, if a fresh one has it and it is kept by
the calls of the driver and by every effect that does not handle an unnamed rejection. -/
theorem tracker_move {P : Tracker I → Prop} (fresh : ∀ t, t.Fresh → P t)
    (keeps : ∀ {now : Instant} {inp : Input I} {a b : Endpoint I M}, ¬ inp.Rewinds → Steps False now inp a b →
      NodeInv False a → b.poisoned = false → P a.tracker → P b.tracker)
    (h : s.Steadfast) {m : Move I M}
    (called : ∀ c, m = .call c → c.isPublic = true → s.poisoned = false → P s.tracker → P (s.exec c).tracker)
    (live' : (s.move m).poisoned = false) (before : s.poisoned = false → P s.tracker) : P (s.move m).tracker := by
  cases m with
  | call c =>
    by_cases stays : (Move.call c).crashes = false
    · have live := (onward_exec h stays live').live
      by_cases hp : c.isPublic = true
      · exact called c rfl hp live (before live)
      have same : (s.exec c).tracker = s.tracker := (exec_of_not_public hp stays).2.2.2.2.2.2.1
      have kept : P (s.exec c).tracker := same.symm ▸ before live
      exact kept
    cases c with
    | crash now rng bootEpoch prior =>
      simp only [Endpoint.move] at live' ⊢
      by_cases boots : s.nextOpId.epoch < bootEpoch ∧ bootEpoch ≤ u64Max
      · have crash : s.exec (.crash now rng bootEpoch prior) = s.crash now rng bootEpoch prior := if_pos boots
        rw [crash] at live' ⊢
        obtain ⟨r, s', inv, from_, steps, eq⟩ := exists_recovered now h.inv boots.1
        rw [eq] at live' ⊢
        have hd : Does False now (fun inp => inp = .quiet) r s' := Steps.does steps rfl
        have live₀ : s'.poisoned = false := live'
        have reached : P s'.tracker := keeps quiet_names steps inv live₀ (fresh _ (from_.tracker (Does.live hd live₀)))
        exact reached
      · have same : s.exec (.crash now rng bootEpoch prior) = s := if_neg boots
        rw [same] at live' ⊢
        exact before live'
    | _ => exact absurd rfl stays
  | freeze boundary freezeTerm =>
    have cases_ := freeze_cases (s := s) boundary freezeTerm
    simp only [Endpoint.move] at live' ⊢
    rcases cases_ with same | dead | ⟨live, held, -, same⟩
    · rw [same] at live' ⊢
      exact before live'
    · rw [dead] at live'
      exact absurd live' (by simp [poisoned_poison])
    rw [same] at live' ⊢
    obtain ⟨-, inv, steps⟩ := does_commitTo h live held
    exact keeps quiet_names steps inv live' (before live)
  | resolve fsm =>
    have onward := (onward_resolve h fsm live').1
    simp only [Endpoint.move, resolvePendingMerge]
    split
    · exact before onward.live
    · cases fsm <;> exact before onward.live
  | resolveAborted =>
    have onward := (onward_resolveAborted h live').1
    simp only [Endpoint.move, resolvePendingMergeAborted]
    split <;> exact before onward.live
  | adopt now sender is walked =>
    have unites := (unites_handleMessage now sender is (some walked) h.inv h.submitted h.parked).1
    have live := unites.live live'
    obtain steps | ⟨a, b, before', adopts, after⟩ := unites
    · exact keeps (install_names sender is) steps h.inv live' (before live)
    -- the members of the snapshot start from fresh records
    have does : Does False now (· = .message sender (.installSnapshot is)) s a := Steps.does before' rfl
    have parked := (Does.forward does h.inv (h.parked live) adopts.live).2
    refine keeps (install_names sender is) after (adopts.inv parked (Steps.inv before' h.inv)) live' ?_
    obtain ⟨fsm, news, farewells, rfl⟩ := adopts.eq
    exact fresh _ (Tracker.fresh_fromConfState _ _ _ _)

theorem ahead_exec (h : s.Steadfast) {c : Call I M} (keeps : ¬ s.Rewound (.call c)) (hp : c.isPublic = true)
    (live' : (s.exec c).poisoned = false) (ahead : s.tracker.Ahead) : (s.exec c).tracker.Ahead := by
  have hd := (does_exec hp h.inv h.submitted False.elim).1
  by_cases named : ∀ inp, c.Brings inp → ¬ inp.Rewinds
  · exact Does.ahead hd named live' ahead
  simp only [not_forall, not_not] at named
  obtain ⟨inp, brings, sender, r, msg, reject, unnamed⟩ := named
  subst msg
  cases c with
  | message =>
    obtain ⟨rfl, rfl⟩ := Input.message.inj (show Input.message _ _ = _ from brings)
    exact ahead_handleMessage_reject reject (fun k => keeps ⟨k.1, k.2.1, reject, k.2.2⟩) live' ahead
  | _ => exact absurd brings (by simp [Call.Brings])

theorem ahead_move (h : s.Steadfast) {m : Move I M} (keeps : ¬ s.Rewound m)
    (live' : (s.move m).poisoned = false) (ahead : s.poisoned = false → s.tracker.Ahead) :
    (s.move m).tracker.Ahead := by
  refine tracker_move (fun _ fresh => fresh.ahead) (fun named steps _ live'' => Steps.ahead steps named live'') h
    (fun c call hp _ => ?_) live' ahead
  subst call
  exact ahead_exec h keeps hp live'

/-- A run in which no call rewinds a probe. -/
def Unrewound (s : Endpoint I M) : List (Move I M) → Prop
  | [] => True
  | m :: ms => ¬ s.Rewound m ∧ Unrewound (s.move m) ms

theorem ahead_moves {ms : List (Move I M)} (h : s.Steadfast) (keeps : s.Unrewound ms)
    (ahead : s.poisoned = false → s.tracker.Ahead) (live' : (s.moves ms).poisoned = false) :
    (s.moves ms).tracker.Ahead := by
  induction ms generalizing s with
  | nil => exact ahead live'
  | cons m ms ih => exact ih (h.move m) keeps.2 (fun live => ahead_move h keeps.1 live ahead) live'

/-- In every run without such a call, a node that is not poisoned probes every peer above its match. -/
theorem next_above_match (config : Config I) (now : Instant) (rng : Nat → Nat) (ms : List (Move I M))
    (keeps : (new config now rng M.init : Endpoint I M).Unrewound ms)
    (live : ((new config now rng M.init : Endpoint I M).moves ms).poisoned = false) (id : I) (pr : Progress)
    (tracked : ((new config now rng M.init : Endpoint I M).moves ms).tracker.progress id = some pr)
    (room : pr.matchIndex < u64Max) : pr.matchIndex < pr.nextIndex := by
  have fresh : (new config now rng M.init : Endpoint I M).tracker.Ahead :=
    (Tracker.fresh_fromConfState _ _ _ _).ahead
  exact ahead_moves (steadfast_new config now rng) keeps (fun _ => fresh) live id pr tracked room

end Endpoint

namespace Tape

/-- Node 0 wins a term, and node 1 acknowledges its first entry. -/
def acknowledgedOnce : List (Move Nat tape) :=
  ([.timeout 10, .syncStable, .surfaceStable 0, .storage 10, .message 10 1 (.voteResponse ⟨1, 1, false, false⟩),
    .message 10 1 (.appendResponse ⟨1, 1, false, 0, 0, 1, 0⟩)] : List (Call Nat tape)).map .call

theorem acknowledgedOnce_next : ∃ s : Endpoint Nat tape, s = (node (config {0, 1, 2} 0)).moves acknowledgedOnce ∧
    s.role = .leader ∧ ∃ pr, s.tracker.progress 1 = some pr ∧ pr.matchIndex = 1 ∧ pr.matchIndex < pr.nextIndex := by
  have moved : (((node (config {0, 1, 2} 0)).moves acknowledgedOnce).tracker.progress 1).map (·.matchIndex) = some 1 := by
    decide +kernel
  obtain ⟨pr, tracked, matched⟩ := Option.map_eq_some_iff.mp moved
  have above := Endpoint.next_above_match (config {0, 1, 2} 0) 0 (fun _ => 0) acknowledgedOnce
    (by simp [acknowledgedOnce, Endpoint.Unrewound, Endpoint.Rewound]) (by decide +kernel) 1 pr tracked
    (by rw [matched]; decide)
  exact ⟨_, rfl, by decide +kernel, pr, tracked, matched, above⟩

/-- Three nodes that check the quorum. -/
def checked : Cluster Nat :=
  ⟨{0, 1, 2}, fun n => { config {0, 1, 2} n with checkQuorum := true }, fun _ => rfl, fun _ => rfl⟩

/-- Node 0 leads term 1, steps down and wins term 2. A heartbeat of term 1 reaches node 1
only then, and the nudge it is answered with reaches node 0 after node 1 acknowledged two
entries of term 2. -/
def lateNudge : List (Action Nat tape) :=
  [.call 0 (.timeout 10)] ++ on 0 (persist 10 1) ++ polls 0 1 ++ [.deliver 10 0] ++ on 1 (persist 10 1) ++
  polls 1 1 ++ polls 0 1 ++ [.deliver 10 1] ++
  polls 0 2 ++ [.call 0 (.timeout 20), .call 0 (.timeout 30)] ++ on 0 (persist 30 1) ++
  polls 0 5 ++ [.deliver 30 9] ++ on 1 (persist 30 1) ++ polls 1 1 ++ [.deliver 30 3] ++ polls 1 1 ++
  [.deliver 30 10] ++ polls 0 4 ++ [.deliver 30 15] ++ polls 1 1 ++
  [.deliver 30 16] ++ polls 0 2 ++ [.deliver 30 18] ++ on 1 (persist 30 2 ++ persistLog 30 2) ++ polls 1 1 ++
  [.deliver 30 19, .deliver 30 11]

theorem lateNudge_rewinds : ∃ s : Endpoint Nat tape,
    s = ((System.init checked fun _ _ => 0 : System Nat tape).run checked lateNudge).node 0 ∧
      s.poisoned = false ∧ s.role = .leader ∧
      ∃ pr, s.tracker.progress 1 = some pr ∧ pr.matchIndex = 2 ∧ pr.nextIndex = 1 := by
  have moved : ((((System.init checked fun _ _ => 0 : System Nat tape).run checked lateNudge).node 0).tracker.progress
      1).map (fun pr => (pr.matchIndex, pr.nextIndex)) = some (2, 1) := by
    decide +kernel
  obtain ⟨pr, tracked, pair⟩ := Option.map_eq_some_iff.mp moved
  obtain ⟨matched, next⟩ := Prod.mk.inj pair
  exact ⟨_, rfl, by decide +kernel, by decide +kernel, pr, tracked, matched, next⟩

end Tape

end Sailing
