import Sailing.Run.Pledge

/-!
# A supported lease survives a crash

The support a follower advertises is below what its durable hard state records
(`Promised`), and the record only grows, whatever configurations the node is
restarted under. A restart fences votes for as long as the record says, and
while the fence stands every vote granted was forced (`Fenced`).
-/

namespace Sailing

variable {I : Type} [LinearOrder I] {M : StateMachine}

/-- One more life of a node: how it is restarted, and what it goes through. -/
structure Life (I : Type) [LinearOrder I] (M : StateMachine) where
  config : Config I
  now : Instant
  rng : Nat → Nat
  bootEpoch : Nat
  assumePrior : Option Duration
  calls : List (Call I M)

/-- A forced request for this vote is among the calls. -/
def Forced (calls : List (Call I M)) (preVote : Bool) (dest : I) (t : Term) : Prop :=
  ∃ now sender rv, Call.message now sender (.requestVote rv) ∈ calls ∧ rv.leaderTransfer = true ∧
    rv.preVote = preVote ∧ rv.candidate = dest ∧ rv.term = t

omit [LinearOrder I] in
theorem Call.brings_requestVote {c : Call I M} {sender : I} {rv : RequestVote I}
    (h : c.Brings (.message sender (.requestVote rv))) :
    ∃ now, c = .message now sender (.requestVote rv) := by
  cases c with
  | message now =>
    obtain ⟨rfl, rfl⟩ := Input.message.inj h
    exact ⟨now, rfl⟩
  | _ => exact absurd h (by simp [Call.Brings])

namespace Endpoint

variable {mono : Prop} {now : Instant} {inp : Input I} {s s' : Endpoint I M}

/-- A crash, and a restart under whatever configuration. -/
def reboot (s : Endpoint I M) (l : Life I M) : Endpoint I M :=
  if s.nextOpId.epoch < l.bootEpoch ∧ l.bootEpoch ≤ u64Max then
    restart l.config l.now l.rng M.init l.bootEpoch l.assumePrior s.log.crash s.stable.crash
  else s

def lives (s : Endpoint I M) (ls : List (Life I M)) : Endpoint I M :=
  ls.foldl (fun s l => (s.reboot l).execs l.calls) s

/-- The states a node can be in that may be restarted under other
configurations. -/
def Lived (s : Endpoint I M) : Prop :=
  ∃ config now rng calls past, s = ((new config now rng M.init : Endpoint I M).execs calls).lives past

/-! ## The record of the lease -/

/-- A lease is supported only below what is durable. -/
def Promised (s : Endpoint I M) : Prop :=
  ∀ o ∈ s.outgoing, ∀ r, o.message = .heartbeatResponse r → 0 < r.leaseSupport →
    r.leaseSupport < s.stable.durable.lease

theorem Step.promised (st : Step mono now inp s s') (fl : FloorInv mono s) (h : s.Promised) : s'.Promised := by
  intro o ho r hr hpos
  rw [st.stableKept.durable]
  have hp : pledge o.message = true := by
    rw [hr]
    simpa [pledge] using hpos.ne'
  rcases st.pledges.out o ho hp with ho | ⟨live, ok⟩
  · exact h o ho r hr hpos
  rw [hr] at ok
  obtain ⟨-, -, -, -, -, -, hzero | ⟨he, hlt⟩⟩ := ok
  · exact absurd hzero hpos.ne'
  have hle : rank (some s.config.electionTimeout) ≤ rank s.durable.durableLeaseSupport := by
    rw [← not_lt, ← optLt_iff, hlt]
    simp
  have hdur := (fl.stamped live).durable _ (List.mem_cons_self : s.stable.durable ∈ s.stable.images)
  rw [he]
  exact Nat.lt_of_succ_le (hle.trans hdur)

theorem Does.promised {brings : Input I → Prop} (st : Does mono now brings s s')
    (inv : NodeInv mono s) (fl : FloorInv mono s) (h : s.Promised) : s'.Promised := by
  induction st with
  | refl => exact h
  | tail hd st ih =>
    obtain ⟨_, _, st⟩ := st
    exact st.promised (Does.floors hd inv fl) ih

/-- What holds in every life. -/
structure LifeInv (s : Endpoint I M) : Prop where
  inv : NodeInv False s
  submitted : s.Submitted
  floors : FloorInv False s
  promised : s.Promised

theorem LifeInv.booted (h : LifeInv s) {l : Life I M} (boots : s.nextOpId.epoch < l.bootEpoch ∧ l.bootEpoch ≤ u64Max) :
    ∃ r s' : Endpoint I M, NodeInv False r ∧ FloorInv False r ∧
      RecoveredFrom l.config l.now s r l.bootEpoch ∧ Steps False l.now .quiet r s' ∧
      s.reboot l = { s' with events := [] } := by
  obtain ⟨r, s', inv, from_, st, hb⟩ := exists_booted l.now h.inv l.config boots.1
  refine ⟨r, s', inv, from_.floors False.elim, from_, st, ?_⟩
  unfold reboot
  rw [if_pos boots, hb]

theorem LifeInv.reboot (h : LifeInv s) (l : Life I M) :
    LifeInv (s.reboot l) ∧ (s.reboot l).stable.durable = s.stable.durable := by
  by_cases boots : s.nextOpId.epoch < l.bootEpoch ∧ l.bootEpoch ≤ u64Max
  · obtain ⟨r, s', inv, fl, from_, st, he⟩ := h.booted boots
    have hd : Does False l.now (fun i => i = .quiet) r s' := Steps.does st rfl
    have none : r.Promised := fun o ho => absurd (from_.outgoing ▸ ho) List.not_mem_nil
    have hp : s'.Promised := Does.promised hd inv fl none
    rw [he]
    refine ⟨⟨(hd.inv inv).events [], (Steps.stableKept st).submitted id from_.submitted,
      (Does.floors hd inv fl).events [], hp⟩, ?_⟩
    show s'.stable.durable = _
    rw [(Steps.stableKept st).durable, from_.stable]
  · unfold Endpoint.reboot
    rw [if_neg boots]
    exact ⟨h, rfl⟩

/-- What one call preserves; the record is never lowered. -/
theorem LifeInv.exec (h : LifeInv s) (c : Call I M) :
    LifeInv (s.exec c) ∧ s.stable.durable.lease ≤ (s.exec c).stable.durable.lease := by
  obtain ⟨inv', sub'⟩ := h.inv.exec h.submitted c False.elim
  by_cases hc : c.isPublic = true
  · obtain ⟨hd, -⟩ := does_exec hc h.inv h.submitted False.elim
    refine ⟨⟨inv', sub', Does.floors hd h.inv h.floors, Does.promised hd h.inv h.floors h.promised⟩, ?_⟩
    rw [Does.durable hd]
  cases hcrash : c.isCrash with
  | false =>
    have k : StoreMove s (s.exec c) := exec_storeMove hc hcrash
    have hle : s.stable.durable.lease ≤ (s.exec c).stable.durable.lease := by
      have hmem := k.stable.subset (List.mem_cons_self : (s.exec c).stable.durable ∈ _)
      rcases List.mem_cons.mp hmem with he | hmem
      · rw [he]
      · exact (List.rel_of_pairwise_cons h.floors.ordered hmem).lease
    refine ⟨⟨inv', sub', h.floors.storeMove k, fun o ho r hr hpos => ?_⟩, hle⟩
    exact (h.promised o (k.outgoing.subset ho) r hr hpos).trans_le hle
  | true =>
    obtain ⟨now, rng, bootEpoch, prior, rfl⟩ := Call.eq_crash hcrash
    have he : s.exec (.crash now rng bootEpoch prior) = s.reboot ⟨s.config, now, rng, bootEpoch, prior, []⟩ := rfl
    obtain ⟨h', hd⟩ := h.reboot ⟨s.config, now, rng, bootEpoch, prior, []⟩
    rw [he, hd]
    exact ⟨h', le_rfl⟩

theorem LifeInv.execs (calls : List (Call I M)) (h : LifeInv s) :
    LifeInv (s.execs calls) ∧ s.stable.durable.lease ≤ (s.execs calls).stable.durable.lease := by
  induction calls generalizing s with
  | nil => exact ⟨h, le_rfl⟩
  | cons c cs ih =>
    obtain ⟨h₁, hle⟩ := h.exec c
    exact ⟨(ih h₁).1, hle.trans (ih h₁).2⟩

theorem LifeInv.lives (ls : List (Life I M)) (h : LifeInv s) :
    LifeInv (s.lives ls) ∧ s.stable.durable.lease ≤ (s.lives ls).stable.durable.lease := by
  induction ls generalizing s with
  | nil => exact ⟨h, le_rfl⟩
  | cons l ls ih =>
    obtain ⟨h₁, hd⟩ := h.reboot l
    obtain ⟨h₂, hle⟩ := h₁.execs l.calls
    rw [hd] at hle
    exact ⟨(ih h₂).1, hle.trans (ih h₂).2⟩

theorem Lived.of_execs (config : Config I) (now : Instant) (rng : Nat → Nat) (calls : List (Call I M)) :
    ((new config now rng M.init : Endpoint I M).execs calls).Lived :=
  ⟨config, now, rng, calls, [], rfl⟩

theorem Lived.inv (h : s.Lived) : LifeInv s := by
  obtain ⟨config, now, rng, calls, past, rfl⟩ := h
  have h₀ : LifeInv (new config now rng M.init : Endpoint I M) := by
    obtain ⟨inv, sub⟩ := new_inv (M := M) config now rng
    exact ⟨inv, sub, new_floors config now rng, fun o ho => absurd ho List.not_mem_nil⟩
  exact ((h₀.execs calls).1.lives past).1

/-! ## The fence -/

/-- Until `f` the fence stands, and every vote granted or waiting to be was
forced. -/
structure Fenced (F : Bool → I → Term → Prop) (f : Instant) (s : Endpoint I M) : Prop where
  fence : s.poisoned = false → ∃ u, s.durable.leaseVoteFenceUntil = some u ∧ f ≤ u
  cast : s.poisoned = false → ∀ id dest t, (id, .castVote dest t) ∈ s.pendingStable → F false dest t
  out : ∀ o ∈ s.outgoing, ∀ vr, o.message = .voteResponse vr → vr.reject = false →
    F vr.preVote o.dest vr.term

section

variable {F : Bool → I → Term → Prop} {f : Instant}

omit [LinearOrder I] in
theorem Fenced.asked (h : Fenced F f s) (live : s.poisoned = false) (early : now < f)
    (forced : ∀ sender rv, inp = .message sender (.requestVote rv) → rv.leaderTransfer = true →
      F rv.preVote rv.candidate rv.term) {preVote : Bool} {dest : I} {t : Term}
    (asked : Asked now inp s preVote dest t) : F preVote dest t := by
  obtain ⟨sender, rv, msg, rfl, rfl, rfl, unfenced⟩ := asked
  obtain ⟨u, hu, hf⟩ := h.fence live
  refine forced sender rv msg ?_
  unfold leaseVoteFenced at unfenced
  rw [hu] at unfenced
  simpa [early.trans_le hf] using unfenced

/-- What one effect before `f` preserves. -/
theorem Step.fenced (st : Step mono now inp s s') (h : Fenced F f s) (early : now < f)
    (forced : ∀ sender rv, inp = .message sender (.requestVote rv) → rv.leaderTransfer = true →
      F rv.preVote rv.candidate rv.term) : Fenced F f s' := by
  have k := st.pledges
  refine ⟨fun hl => ?_, fun hl id dest t hm => ?_, fun o ho vr hv hr => ?_⟩
  · rw [k.fence hl]
    exact h.fence (k.live hl)
  · rcases k.cast hl id dest t hm with hm | asked
    · exact h.cast (k.live hl) id dest t hm
    · exact h.asked (k.live hl) early forced asked
  · have hp : pledge o.message = true := by
      rw [hv]
      simp [pledge, hr]
    rcases k.out o ho hp with ho | ⟨live, ok⟩
    · exact h.out o ho vr hv hr
    rw [hv] at ok
    obtain ⟨-, real, pre⟩ := ok
    cases hpre : vr.preVote with
    | false =>
      obtain ⟨-, -, id, hm⟩ := (real hpre).2 hr
      exact h.cast live id _ _ hm
    | true => exact h.asked live early forced (pre hpre hr)

theorem Does.fenced {brings : Input I → Prop} (st : Does mono now brings s s') (h : Fenced F f s)
    (early : now < f) (forced : ∀ inp, brings inp → ∀ sender rv,
      inp = .message sender (.requestVote rv) → rv.leaderTransfer = true →
      F rv.preVote rv.candidate rv.term) : Fenced F f s' := by
  induction st with
  | refl => exact h
  | tail _ st ih =>
    obtain ⟨inp, hb, st⟩ := st
    exact st.fenced ih early (forced inp hb)

omit [LinearOrder I] in
theorem Fenced.storeMove (h : Fenced F f s) (k : StoreMove s s') : Fenced F f s' := by
  have live : s'.poisoned = false → s.poisoned = false := fun hl =>
    (congrArg Option.isSome k.reason).symm.trans hl
  refine ⟨fun hl => ?_, fun hl id dest t hm => ?_, fun o ho => h.out o (k.outgoing.subset ho)⟩
  · rw [k.durable]
    exact h.fence (live hl)
  · rw [k.pending] at hm
    exact h.cast (live hl) id dest t hm

theorem Fenced.execs (calls : List (Call I M)) (inv : LifeInv s)
    (h : Fenced F f s) (one : ∀ c ∈ calls, c.isCrash = false) (window : ∀ c ∈ calls, c.time < f)
    (forced : ∀ now sender rv, Call.message now sender (.requestVote rv) ∈ calls →
      rv.leaderTransfer = true → F rv.preVote rv.candidate rv.term) : Fenced F f (s.execs calls) := by
  induction calls generalizing s with
  | nil => exact h
  | cons c cs ih =>
    have h₁ : Fenced F f (s.exec c) := by
      by_cases hc : c.isPublic = true
      · obtain ⟨hd, -⟩ := does_exec hc inv.inv inv.submitted False.elim
        refine Does.fenced hd h (window c List.mem_cons_self) fun inp hb sender rv hi => ?_
        subst hi
        obtain ⟨now, rfl⟩ := Call.brings_requestVote hb
        exact forced now sender rv List.mem_cons_self
      · exact h.storeMove (exec_storeMove hc (one c List.mem_cons_self))
    exact ih (inv.exec c).1 h₁ (fun d hd => one d (List.mem_cons_of_mem _ hd))
      (fun d hd => window d (List.mem_cons_of_mem _ hd))
      fun now sender rv hm => forced now sender rv (List.mem_cons_of_mem _ hm)

theorem LifeInv.fenced (h : LifeInv s) {l : Life I M}
    (boots : s.nextOpId.epoch < l.bootEpoch ∧ l.bootEpoch ≤ u64Max) {d : Duration} (pos : 0 < d)
    (record : d < s.stable.durable.lease) : Fenced F (l.now + d) (s.reboot l) := by
  obtain ⟨r, s', inv, -, from_, st, he⟩ := h.booted boots
  have hr : Fenced F (l.now + d) r := by
    refine ⟨fun hl => from_.fence hl d pos record, fun _ id dest t hm => ?_, fun o ho => ?_⟩
    · rw [from_.pending] at hm
      exact absurd hm List.not_mem_nil
    · rw [from_.outgoing] at ho
      exact absurd ho List.not_mem_nil
  have hd : Does False l.now (fun i => i = .quiet) r s' := Steps.does st rfl
  have hs' : Fenced F (l.now + d) s' := Does.fenced hd hr (Nat.lt_add_of_pos_right pos)
    fun inp hi sender rv h => absurd (hi.symm.trans h) (by simp)
  rw [he]
  exact ⟨hs'.fence, hs'.cast, hs'.out⟩

end

/-- A node that has supported a lease of `d`, in whatever life, grants after any
later restart, under whatever configuration, no vote or pre-vote that was not
forced, and puts none aside, in the calls it handles before `d` has passed. -/
theorem lives_lease_kept {s : Endpoint I M} (lived : s.Lived) {o : Outgoing I}
    {r : HeartbeatResponse I} (sent : o ∈ s.outgoing) (msg : o.message = .heartbeatResponse r)
    (support : 0 < r.leaseSupport) (more : List (Call I M)) (later : List (Life I M)) (last : Life I M)
    (boots : ((s.execs more).lives later).nextOpId.epoch < last.bootEpoch ∧ last.bootEpoch ≤ u64Max)
    (one : ∀ c ∈ last.calls, c.isCrash = false)
    (window : ∀ c ∈ last.calls, c.time < last.now + r.leaseSupport) :
    let n := (((s.execs more).lives later).reboot last).execs last.calls
    (∀ o ∈ n.outgoing, ∀ vr, o.message = .voteResponse vr → vr.reject = false →
      Forced last.calls vr.preVote o.dest vr.term) ∧
    (n.poisoned = false → ∀ id dest t, (id, .castVote dest t) ∈ n.pendingStable →
      Forced last.calls false dest t) := by
  intro n
  have h := lived.inv
  obtain ⟨h₁, hle₁⟩ := h.execs more
  obtain ⟨h₂, hle₂⟩ := h₁.lives later
  have record := (h.promised o sent r msg support).trans_le (hle₁.trans hle₂)
  have fenced : Fenced (Forced last.calls) (last.now + r.leaseSupport) n :=
    (h₂.fenced boots support record).execs last.calls (h₂.reboot last).1 one window
      fun now sender rv hm hf => ⟨now, sender, rv, hm, hf, rfl, rfl, rfl⟩
  exact ⟨fenced.out, fenced.cast⟩

end Endpoint

namespace Tape

/-- A follower that supports leases. -/
def supporter : Endpoint Nat tape := node { config {0, 1, 2} 1 with checkQuorum := true }

/-- The first heartbeat finds no support recorded; once it is durable the
second is answered with a support of 10. -/
def supported : List (Call Nat tape) :=
  [.message 0 0 (.heartbeat ⟨1, 0, 0, [], 1⟩)] ++ persist 0 2 ++
  [.message 1 0 (.heartbeat ⟨1, 0, 0, [], 1⟩)]

/-- Restarted with a shorter timeout and without leases, the node is asked for
a vote and a pre-vote, and at last by the target of a transfer. -/
def relaxed : Life Nat tape where
  config := { config {0, 1, 2} 1 with electionTimeout := 3 }
  now := 100
  rng := fun _ => 0
  bootEpoch := 1
  assumePrior := none
  calls :=
    [.message 109 2 (.requestVote ⟨2, 2, 0, 0, false, false⟩),
      .message 109 2 (.requestVote ⟨2, 2, 0, 0, true, false⟩),
      .message 109 0 (.requestVote ⟨2, 0, 0, 0, false, true⟩)] ++ persist 109 2

theorem supported_kept :
    let n := (((supporter.execs supported).execs []).lives []).reboot relaxed
    (n.execs relaxed.calls).outgoing =
      [⟨2, .voteResponse ⟨2, 1, false, true⟩⟩, ⟨2, .voteResponse ⟨2, 1, true, true⟩⟩,
        ⟨0, .voteResponse ⟨2, 1, false, false⟩⟩] ∧
    ∀ o ∈ (n.execs relaxed.calls).outgoing, ∀ vr, o.message = .voteResponse vr → vr.reject = false →
      Forced relaxed.calls vr.preVote o.dest vr.term := by
  intro n
  have sent : ⟨0, .heartbeatResponse ⟨1, 1, [], 1, 10⟩⟩ ∈ (supporter.execs supported).outgoing := by
    decide +kernel
  exact ⟨by decide +kernel, (Endpoint.lives_lease_kept (.of_execs _ _ _ _) sent rfl (by decide) [] [] relaxed
    (by decide +kernel) (by decide +kernel) (by decide +kernel)).1⟩

end Tape

end Sailing
