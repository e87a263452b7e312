import Sailing.Model.Tape
import Sailing.Run.Elect

/-!
# One leader a term

`Represents` relates a group whose membership never changes to a state of
`Voting`. Every action of the group is a run of the voters, so the elections
that were ever won are elections of `Voting`, and a term has one leader.
-/

namespace Sailing

open List (mem_cons_self mem_singleton not_mem_nil)

variable {I : Type} [LinearOrder I] {M : StateMachine}

/-- A granting answer to `dest` is one of `G`. -/
def Counted (G : Set (I × Term × I)) (dest : I) (m : Message I) : Prop :=
  ∀ vr, m = .voteResponse vr → vr.preVote = false → vr.reject = false → (vr.sender, vr.term, dest) ∈ G

omit [LinearOrder I] in
theorem Counted.mono {G G' : Set (I × Term × I)} (hG : G ⊆ G') {dest : I} {m : Message I}
    (h : Counted G dest m) : Counted G' dest m := fun vr hm hp hr => hG (h vr hm hp hr)

/-- The term of a granting answer. -/
def grantOf : Message I → Option Term
  | .voteResponse vr => if vr.preVote || vr.reject then none else some vr.term
  | _ => none

omit [LinearOrder I] in
/-- A granting answer that is backed is the durable vote. -/
theorem Backed.of_grant {hs : HardState I} {dest : I} {m : Message I} {t : Term}
    (h : Backed hs dest m) (hg : grantOf m = some t) : (hs.term, hs.vote) = (t, some dest) := by
  cases m with
  | voteResponse =>
    unfold grantOf at hg
    simp only at hg
    split at hg
    · cases hg
    next hn =>
    simp only [Bool.or_eq_true, not_or, Bool.not_eq_true] at hn
    obtain ⟨h₁, h₂⟩ := h hn.1 hn.2
    rw [h₁, h₂, Option.some.inj hg]
  | _ => exact absurd hg (by simp [grantOf])

/-- Nobody proposes a change of the membership. -/
def Action.keepsMembership : Action I M → Bool
  | .call _ (.proposeConf _) => false
  | _ => true

namespace Endpoint

variable {cs : ConfState I} {s : Endpoint I M} {now : Instant}

/-! ## What the stores and the polls keep -/

omit [LinearOrder I] in
/-- The stores hold fewer images, or less waits to be polled. -/
theorem Steady.of_fewer {s' : Endpoint I M} (h : Steady cs s) (config : s'.config = s.config)
    (log : ∀ d ∈ s'.log.images, d ∈ s.log.images) (slot : ∀ d ∈ s'.stable.images, d ∈ s.stable.images)
    (out : ∀ o ∈ s'.outgoing, o ∈ s.outgoing) (live : s'.poisonReason = s.poisonReason)
    (conf : s'.tracker = s.tracker) (install : s'.snapshot = s.snapshot)
    (farewells : s'.pendingFarewells = s.pendingFarewells) : Steady cs s' := by
  have hl : s'.poisoned = s.poisoned := congrArg Option.isSome live
  exact ⟨fun d hd => h.log d (log d hd), fun d hd => h.slot d (slot d hd),
    fun o ho => config ▸ h.out o (out o ho), by rw [hl, conf]; exact h.conf,
    by rw [hl, install]; exact h.install, by rw [hl, farewells]; exact h.farewells⟩

theorem NodeInv.ballot_sync {mono : Prop} (inv : NodeInv mono s) :
    Voting.Le s.stable.durable.ballot s.stable.sync.durable.ballot := by
  have ho := inv.ballots.ordered
  rw [ballots_kept] at ho
  have hm : s.stable.sync.durable ∈ s.stable.images := mem_images_sync s.stable mem_cons_self
  rcases List.mem_cons.mp hm with he | hm
  · rw [he]
    exact Voting.Le.refl _
  · exact (List.pairwise_cons.mp ho).1 _ (List.mem_map_of_mem hm)

omit [LinearOrder I] in
theorem RecoveredFrom.steady {r : Endpoint I M} {bootEpoch : Nat} (h : RecoveredFrom s.config now s r bootEpoch)
    (hs : Steady (ConfState.fromVoters s.config.voters) s) :
    Steady (ConfState.fromVoters s.config.voters) r := by
  refine ⟨fun d hd e he => hs.log _ mem_cons_self e (h.entries d hd e he), fun im him => ?_,
    fun o ho => ?_, fun hl => ?_, fun _ _ _ _ _ hp => ?_, fun _ => h.farewells⟩
  · have : im ∈ s.stable.images := by
      rw [h.stable] at him
      simp only [StableStore.images, List.map_nil, mem_singleton] at him
      rw [him]
      exact mem_cons_self
    exact hs.slot im this
  · rw [h.outgoing] at ho
    exact absurd ho not_mem_nil
  · rw [h.conf hl]
    cases hd : s.stable.durable.snapshot with
    | none => rfl
    | some p => exact hs.slot _ mem_cons_self p hd
  · rw [h.install] at hp
    cases hp

end Endpoint

/-! ## A node moves -/

open Endpoint

/-- What an action does to its node, when the votes `G` have been granted. -/
structure Moves (voters : Finset I) (G : Set (I × Term × I)) (e e' : Endpoint I M) : Prop where
  config : e'.config = e.config
  inv : NodeInv False e'
  submitted : e'.Submitted
  steady : Steady (ConfState.fromVoters voters) e'
  saved : Voting.Le e.stable.durable.ballot e'.stable.durable.ballot
  enqueued : ∃ old new, e'.outgoing = old ++ new ∧ old.Sublist e.outgoing ∧
    ∀ o ∈ new, Backed e'.stable.durable.hardState o.dest o.message
  tally : Tallied G e'
  leads : e'.role = .leader → (e.role = .leader ∧ e'.term = e.term) ∨ Elected voters G e' e'.term

section Moves

variable {voters : Finset I} {G : Set (I × Term × I)} {e e' : Endpoint I M}

/-- Neither the votes nor the role nor what is sent changes. -/
theorem Moves.of_quiet (config : e'.config = e.config) (inv : NodeInv False e' ∧ e'.Submitted)
    (steady : Steady (ConfState.fromVoters voters) e')
    (saved : Voting.Le e.stable.durable.ballot e'.stable.durable.ballot)
    (out : e'.outgoing.Sublist e.outgoing) (role : e'.role = e.role) (term : e'.term = e.term)
    (votes : e'.votes = e.votes) (live : e'.poisonReason = e.poisonReason) (tally : Tallied G e) :
    Moves voters G e e' := by
  refine ⟨config, inv.1, inv.2, steady, saved, ⟨_, [], (List.append_nil _).symm, out, by simp⟩, ?_,
    fun h => .inl ⟨role.symm.trans h, term⟩⟩
  intro hl hr x hx
  rw [config, term]
  rw [votes] at hx
  exact tally ((congrArg Option.isSome live).symm.trans hl) (role.symm.trans hr) x hx

theorem Moves.of_does {now : Instant} {brings : Input I → Prop} (hv : voters.Nonempty)
    (steadyIn : ∀ inp, brings inp → SteadyInput (ConfState.fromVoters voters) inp)
    (counted : ∀ inp, brings inp → CountedInput G e.config.id inp)
    (st : Does False now brings e e') (sub : e'.Submitted) (inv : NodeInv False e)
    (steady : Steady (ConfState.fromVoters voters) e) (tally : Tallied G e) :
    Moves voters G e e' := by
  have hg := Does.guarded st inv
  obtain ⟨ht, hl⟩ := Does.elects hv steadyIn counted st inv steady tally
  refine ⟨hg.config, st.inv inv, sub, Does.steady rfl steadyIn st steady, ?_, ?_, ht, fun hr => ?_⟩
  · rw [hg.durable]
    exact Voting.Le.refl _
  · rw [hg.durable]
    exact hg.enqueued
  · rcases hl hr with h | h
    · exact .inl h
    · unfold Elected
      rw [hg.durable, hg.config]
      exact .inr h

variable {c : Call I M}

omit [LinearOrder I] in
theorem Call.brings_steady {cs : ConfState I} (hc : ∀ cc, c ≠ .proposeConf cc)
    (hm : ∀ now sender m, c = .message now sender m → SteadyMessage cs sender m) {inp : Input I}
    (h : c.Brings inp) : SteadyInput cs inp := by
  have quiet : ∀ {i : Input I}, i ≠ .change → (∀ a m, i ≠ .message a m) → SteadyInput cs i :=
    fun h₁ h₂ => ⟨h₁, fun a m he => absurd he (h₂ a m)⟩
  cases c with
  | message now sender m =>
    have h : inp = .message sender m := h
    subst h
    refine ⟨by simp, fun a m' he => ?_⟩
    simp only [Input.message.injEq] at he
    rw [← he.1, ← he.2]
    exact hm now sender m rfl
  | proposeConf cc => exact absurd rfl (hc cc)
  | storage =>
    rcases h with rfl | rfl
    · exact quiet (by simp) (by simp)
    · exact quiet (by simp) (by simp)
  | timeout =>
    have h : inp = .tick := h
    exact h ▸ quiet (by simp) (by simp)
  | _ =>
    have h : inp = .quiet := h
    exact h ▸ quiet (by simp) (by simp)

omit [LinearOrder I] in
theorem Call.brings_counted {me : I} (hm : ∀ now sender m, c = .message now sender m → Counted G me m) {inp : Input I}
    (h : c.Brings inp) : CountedInput G me inp := by
  intro sender vr hi hp hr
  cases c with
  | message now sender' m =>
    have h : inp = .message sender' m := h
    rw [hi] at h
    simp only [Input.message.injEq] at h
    exact hm now sender' m rfl vr h.2.symm hp hr
  | storage => rcases h with h | h <;> rw [hi] at h <;> exact absurd h (by simp)
  | _ =>
    rw [hi] at h
    exact absurd h (by simp [Call.Brings])

theorem Moves.crash (hv : e.config.voters.Nonempty) {now : Instant} {rng : Nat → Nat} {bootEpoch : Nat}
    {prior : Option Duration} (later : e.nextOpId.epoch < bootEpoch) (inv : NodeInv False e)
    (steady : Steady (ConfState.fromVoters e.config.voters) e) :
    Moves e.config.voters G e (e.crash now rng bootEpoch prior) := by
  obtain ⟨r, s', rinv, from_, st, hb⟩ := exists_recovered now inv later
  have tally : Tallied G r := fun _ hc => absurd (from_.role.symm.trans hc) (by simp)
  have hd : r.stable.durable = e.stable.durable := by rw [from_.stable]
  have hm : Moves e.config.voters G r s' := by
    have hdoes : Does False now (fun i => i = .quiet) r s' := Steps.does st rfl
    refine Moves.of_does hv (fun inp hi => ?_) (fun inp hi => ?_) hdoes
      ((Steps.stableKept st).submitted id from_.submitted) rinv (from_.steady steady) tally
    · exact hi ▸ ⟨by simp, by simp⟩
    · exact fun _ _ h => absurd (hi.symm.trans h) (by simp)
  rw [hb]
  obtain ⟨old, new, ho, hsub, hnew⟩ := hm.enqueued
  rw [from_.outgoing, List.sublist_nil] at hsub
  rw [hsub, List.nil_append] at ho
  refine ⟨hm.config.trans from_.config, hm.inv.events [], hm.submitted,
    hm.steady.of_frame rfl rfl rfl rfl rfl rfl rfl rfl, hd ▸ hm.saved,
    ⟨[], new, ho, List.nil_sublist _, hnew⟩, hm.tally, fun h => ?_⟩
  rcases hm.leads h with ⟨hl, -⟩ | hl
  · exact absurd (from_.role.symm.trans hl) (by simp)
  · exact .inr hl

/-- What any call of a node does, if what it brings is steady and counted. -/
theorem Moves.exec (hv : e.config.voters.Nonempty) (hc : ∀ cc, c ≠ .proposeConf cc)
    (hm : ∀ now sender m, c = .message now sender m →
      SteadyMessage (ConfState.fromVoters e.config.voters) sender m ∧ Counted G e.config.id m)
    (inv : NodeInv False e) (sub : e.Submitted)
    (steady : Steady (ConfState.fromVoters e.config.voters) e) (tally : Tallied G e) :
    Moves e.config.voters G e (e.exec c) := by
  by_cases hp : c.isPublic = true
  · obtain ⟨hd, hs⟩ := does_exec hp inv sub False.elim
    exact Moves.of_does hv (fun inp => Call.brings_steady hc fun now sender m h => (hm now sender m h).1)
      (fun inp => Call.brings_counted fun now sender m h => (hm now sender m h).2) hd hs inv steady tally
  have hinv := inv.exec sub c False.elim
  cases c with
  | pollMessage =>
    obtain ⟨out, he, hsuf⟩ := pollMessage_outgoing (s := e)
    have he : e.exec .pollMessage = { e with outgoing := out } := he
    rw [he] at hinv ⊢
    exact .of_quiet rfl hinv (steady.of_fewer rfl (fun _ h => h) (fun _ h => h)
      (fun o ho => hsuf.subset ho) rfl rfl rfl rfl) (Voting.Le.refl _) hsuf.sublist rfl rfl rfl rfl tally
  | pollEvent =>
    obtain ⟨events, he⟩ := pollEvent_events (s := e)
    have he : e.exec .pollEvent = { e with events := events } := he
    rw [he] at hinv ⊢
    exact .of_quiet rfl hinv (steady.of_frame rfl rfl rfl rfl rfl rfl rfl rfl) (Voting.Le.refl _)
      (List.Sublist.refl _) rfl rfl rfl rfl tally
  | syncLog =>
    exact .of_quiet rfl hinv (steady.of_fewer rfl (fun _ => mem_images_syncLog e.log) (fun _ h => h)
      (fun _ h => h) rfl rfl rfl rfl) (Voting.Le.refl _) (List.Sublist.refl _) rfl rfl rfl rfl tally
  | syncStable =>
    exact .of_quiet rfl hinv (steady.of_fewer rfl (fun _ h => h) (fun _ => mem_images_sync e.stable)
      (fun _ h => h) rfl rfl rfl rfl) inv.ballot_sync (List.Sublist.refl _) rfl rfl rfl rfl tally
  | surfaceLog i =>
    have himg : (e.log.surface i).images = e.log.images := by
      unfold LogStore.images
      rw [(surfaceLog_staged _ i).1, (surfaceLog_staged _ i).2]
    exact .of_quiet rfl hinv (steady.of_frame rfl himg rfl rfl rfl rfl rfl rfl) (Voting.Le.refl _)
      (List.Sublist.refl _) rfl rfl rfl rfl tally
  | surfaceStable i =>
    have himg : (e.stable.surface i).images = e.stable.images := by
      unfold StableStore.images
      rw [(surface_staged _ i).1, (surface_staged _ i).2]
    have hd : (e.stable.surface i).durable = e.stable.durable := (surface_staged _ i).1
    refine .of_quiet rfl hinv (steady.of_frame rfl rfl himg rfl rfl rfl rfl rfl) ?_
      (List.Sublist.refl _) rfl rfl rfl rfl tally
    show Voting.Le e.stable.durable.ballot (e.stable.surface i).durable.ballot
    rw [hd]
    exact Voting.Le.refl _
  | crash =>
    simp only [Endpoint.exec]
    split
    · next h => exact Moves.crash hv h.1 inv steady
    · exact .of_quiet rfl ⟨inv, sub⟩ steady (Voting.Le.refl _) (List.Sublist.refl _) rfl rfl rfl rfl tally
  | loseLog | loseStable | failLog | failStable | logReads | stableReads =>
    exact .of_quiet rfl hinv (steady.of_frame rfl rfl rfl rfl rfl rfl rfl rfl) (Voting.Le.refl _)
      (List.Sublist.refl _) rfl rfl rfl rfl tally
  | _ => exact absurd rfl hp

end Moves

/-! ## The group -/

namespace System

/-- The node `n` of a group behind which the voters `a` are. -/
structure Seat (C : Cluster I) (a : Voting.State I) (n : I) (e : Endpoint I M) : Prop where
  config : e.config = C.config n
  inv : NodeInv False e
  submitted : e.Submitted
  steady : Steady (ConfState.fromVoters C.voters) e
  saved : a.saved n = e.stable.durable.ballot
  tally : Tallied a.granted e
  leads : e.role = .leader → ∃ x ∈ a.elections, x.term = e.term ∧ x.leader = n
  out : ∀ o ∈ e.outgoing, Counted a.granted o.dest o.message

/-- The voters `a` behind a group. -/
structure Represents (C : Cluster I) (s : System I M) (a : Voting.State I) : Prop where
  node : ∀ n, Seat C a n (s.node n)
  net : ∀ p ∈ s.net, SteadyMessage (ConfState.fromVoters C.voters) p.src p.message ∧
    Counted a.granted p.dest p.message

variable {C : Cluster I} {s : System I M} {a a' : Voting.State I} {n : I} {e e' : Endpoint I M}

theorem Seat.id (h : Seat C a n e) : e.config.id = n := by rw [h.config, C.config_id]

theorem Seat.voters (h : Seat C a n e) : e.config.voters = C.voters := by
  rw [h.config, C.config_voters]

theorem represents_init (C : Cluster I) (rng : I → Nat → Nat) :
    Represents C (init C rng : System I M) Voting.State.initial := by
  refine ⟨fun n => ?_, fun p hp => absurd (show p ∈ [] from hp) not_mem_nil⟩
  have hn : NodeInv False ((init C rng : System I M).node n) ∧
      ((init C rng : System I M).node n).Submitted := new_inv (C.config n) 0 (rng n)
  refine ⟨rfl, hn.1, hn.2, ?_, rfl, fun _ hc => absurd (show Role.follower = .candidate from hc) (by simp),
    fun hl => absurd (show Role.follower = .leader from hl) (by simp),
    fun o ho => absurd (show o ∈ [] from ho) not_mem_nil⟩
  refine ⟨fun d hd e he => ?_, fun im him p hp => ?_, fun o ho => absurd (show o ∈ [] from ho) not_mem_nil, fun _ => ?_,
    fun _ _ _ _ _ hp => absurd (show none = some _ from hp) (by simp), fun _ => rfl⟩
  · have hd : d ∈ ([⟨0, 0, []⟩] : List (LogImage I)) := hd
    rw [mem_singleton.mp hd] at he
    exact absurd he not_mem_nil
  · have him : im ∈ ([⟨.initial, none⟩] : List (StableImage I)) := him
    rw [mem_singleton.mp him] at hp
    cases hp
  · show ConfState.fromVoters (C.config n).voters = _
    rw [C.config_voters]

theorem Seat.other (h : Seat C a n e) (st : Voting.Steps (Majority C.voters) a a')
    (saved : a'.saved n = a.saved n) : Seat C a' n e := by
  obtain ⟨hG, hE⟩ := Voting.Steps.mono st
  refine { h with saved := saved.trans h.saved, tally := ?_, leads := fun hl => ?_, out := ?_ }
  · exact fun hl hc x hx => (h.tally hl hc x hx).imp_right fun hg => hG hg
  · obtain ⟨x, hx, hn⟩ := h.leads hl
    exact ⟨x, hE hx, hn⟩
  · exact fun o ho => (h.out o ho).mono hG

omit [LinearOrder I] in
theorem mem_grants {l : List (Outgoing I)} {o : Outgoing I} {vr : VoteResponse I} (ho : o ∈ l)
    (hm : o.message = .voteResponse vr) (hp : vr.preVote = false) (hr : vr.reject = false) :
    (vr.term, o.dest) ∈ l.filterMap fun o => (grantOf o.message).map (·, o.dest) :=
  List.mem_filterMap.mpr ⟨o, ho, by simp [hm, grantOf, hp, hr]⟩

/-- The voters follow a node: its durable ballot is saved, what it enqueues is
granted, and if it has come to lead, it is elected. -/
theorem Seat.move (h : Seat C a n e) (m : Moves C.voters a.granted e e') :
    ∃ a', Voting.Steps (Majority C.voters) a a' ∧ (∀ k, k ≠ n → a'.saved k = a.saved k) ∧ Seat C a' n e' := by
  obtain ⟨old, new, ho, hsub, hback⟩ := m.enqueued
  have hsave : Voting.Step (Majority C.voters) a
      { a with saved := Function.update a.saved n e'.stable.durable.ballot } :=
    .save n _ (h.saved ▸ m.saved)
  obtain ⟨a₁, st₁, hsaved₁, helect₁, hgrant₁⟩ := Voting.Steps.grants (Q := Majority C.voters)
    (s := { a with saved := Function.update a.saved n e'.stable.durable.ballot }) n
    (new.filterMap fun o => (grantOf o.message).map (·, o.dest)) fun p hp => by
      obtain ⟨o, hm, hg⟩ := List.mem_filterMap.mp hp
      obtain ⟨t, ht, rfl⟩ := Option.map_eq_some_iff.mp hg
      show Function.update a.saved n _ n = (t, some o.dest)
      rw [Function.update_self]
      exact (hback o hm).of_grant ht
  have st₀ : Voting.Steps (Majority C.voters) a a₁ := .head hsave st₁
  obtain ⟨hG, hE⟩ := Voting.Steps.mono st₀
  have hid : e'.config.id = n := by rw [m.config, h.id]
  -- whatever follows, the node has its seat once its leadership is accounted for
  have seat : ∀ a', Voting.Steps (Majority C.voters) a₁ a' → a'.saved = a₁.saved →
      (e'.role = .leader → ∃ x ∈ a'.elections, x.term = e'.term ∧ x.leader = n) → Seat C a' n e' := by
    intro a' st hs hl
    obtain ⟨hG', -⟩ := Voting.Steps.mono st
    refine ⟨m.config.trans h.config, m.inv, m.submitted, m.steady, ?_, ?_, hl, fun o hm => ?_⟩
    · rw [hs, hsaved₁]
      simp
    · exact fun hl hc x hx => (m.tally hl hc x hx).imp_right fun hg => hG' (hG hg)
    · have hfit := m.steady.out o hm
      rw [ho] at hm
      rcases List.mem_append.mp hm with hm | hm
      · exact (h.out o (hsub.subset hm)).mono fun _ hg => hG' (hG hg)
      intro vr hv hp hr
      rw [hv] at hfit
      have hsender : vr.sender = n := hfit.trans hid
      rw [hsender]
      exact hG' (hgrant₁ _ (mem_grants hm hv hp hr))
  have others : ∀ k, k ≠ n → a₁.saved k = a.saved k := fun k hk => by
    rw [hsaved₁]
    exact Function.update_of_ne hk _ _
  by_cases hnew : e'.role = .leader ∧ Elected C.voters a.granted e' e'.term
  · obtain ⟨hrole, hdur, A, hA, hvotes⟩ := hnew
    obtain ⟨a₂, st₂, hsaved₂, -, hown⟩ := Voting.Steps.grants (Q := Majority C.voters) (s := a₁) n
      [(e'.term, n)] fun p hp => by
        rw [mem_singleton.mp hp, hsaved₁]
        simp [hdur, hid]
    have hown : (n, e'.term, n) ∈ a₂.granted := hown (e'.term, n) (List.mem_singleton_self _)
    have helect : Voting.Step (Majority C.voters) a₂ _ := .elect ⟨e'.term, n, A⟩ hA fun v hv => by
        rcases hvotes v hv with rfl | hg
        · rw [hid]
          exact hown
        · rw [hid] at hg
          exact (Voting.Steps.mono st₂).1 (hG hg)
    have st₃ : Voting.Steps (Majority C.voters) a₁ _ := st₂.tail helect
    refine ⟨_, st₀.trans st₃, fun k hk => (congrFun hsaved₂ k).trans (others k hk),
      seat _ st₃ hsaved₂ fun _ => ⟨⟨e'.term, n, A⟩, ?_, rfl, rfl⟩⟩
    exact List.mem_append_right _ (List.mem_singleton_self _)
  · refine ⟨a₁, st₀, others, seat a₁ .refl rfl fun hl => ?_⟩
    rcases m.leads hl with ⟨hr, ht⟩ | hel
    · obtain ⟨x, hx, hxt⟩ := h.leads hr
      exact ⟨x, hE hx, ht ▸ hxt⟩
    · exact absurd ⟨hl, hel⟩ hnew

theorem Represents.setNode (h : Represents C s a) (m : Moves C.voters a.granted (s.node n) e') :
    ∃ a', Voting.Steps (Majority C.voters) a a' ∧ Represents C (s.setNode n e') a' := by
  obtain ⟨a', st, others, hseat⟩ := (h.node n).move m
  refine ⟨a', st, fun k => ?_, fun p hp => ⟨(h.net p hp).1, (h.net p hp).2.mono (Voting.Steps.mono st).1⟩⟩
  rcases eq_or_ne k n with rfl | hk
  · simpa [System.setNode] using hseat
  · simpa [System.setNode, hk] using (h.node k).other st (others k hk)

theorem Represents.step (h : Represents C s a) (act : Action I M) (hact : act.keepsMembership = true) :
    ∃ a', Voting.Steps (Majority C.voters) a a' ∧ Represents C (s.step C act) a' := by
  have exec : ∀ {n : I} {c : Call I M}, n ∈ C.voters → (∀ cc, c ≠ .proposeConf cc) →
      (∀ now sender m, c = .message now sender m →
        SteadyMessage (ConfState.fromVoters C.voters) sender m ∧ Counted a.granted n m) →
      Moves C.voters a.granted (s.node n) ((s.node n).exec c) := fun {n c} hn hc hm => by
    have hs := h.node n
    have hv := hs.voters
    have := Moves.exec (G := a.granted) (e := s.node n) (c := c)
    rw [hv, hs.id] at this
    exact this ⟨n, hn⟩ hc hm hs.inv hs.submitted hs.steady hs.tally
  cases act with
  | deliver =>
    unfold System.step
    simp only
    split
    · next p hp =>
      split
      · next hd =>
        have hnet := h.net p (List.mem_of_getElem? hp)
        refine h.setNode (exec hd (by simp) fun now' sender m he => ?_)
        simp only [Call.message.injEq] at he
        rw [← he.2.1, ← he.2.2]
        exact hnet
      · exact ⟨a, .refl, h⟩
    · exact ⟨a, .refl, h⟩
  | poll n =>
    unfold System.step
    simp only
    split
    · next hn =>
      unfold System.poll
      split
      · next o e ho =>
        have he : (s.node n).exec .pollMessage = e := congrArg Prod.snd ho
        have hm : o ∈ (s.node n).outgoing := by
          unfold pollMessage at ho
          split at ho
          · cases ho
          split at ho
          · cases ho
          next hq =>
          simp only [Prod.mk.injEq, Option.some.injEq] at ho
          rw [hq, ho.1]
          exact mem_cons_self
        obtain ⟨a', st, hr⟩ := h.setNode (he ▸ exec hn (by simp) (by simp))
        refine ⟨a', st, hr.node, fun p hp => ?_⟩
        rcases List.mem_append.mp hp with hp | hp
        · exact hr.net p hp
        rw [mem_singleton.mp hp]
        have hfit := (h.node n).steady.out o hm
        rw [(h.node n).id] at hfit
        exact ⟨hfit, ((h.node n).out o hm).mono (Voting.Steps.mono st).1⟩
      · exact ⟨a, .refl, h⟩
    · exact ⟨a, .refl, h⟩
  | call =>
    unfold System.step
    simp only
    split
    · next hn =>
      refine h.setNode (exec hn.1 (fun cc hc => ?_) fun now sender m he => ?_)
      · subst hc
        exact absurd hact (by simp [Action.keepsMembership])
      · subst he
        exact absurd hn.2 (by simp [Local])
    · exact ⟨a, .refl, h⟩

theorem Represents.run (actions : List (Action I M))
    (h : Represents C s a) (hact : ∀ act ∈ actions, act.keepsMembership = true) :
    ∃ a', Voting.Steps (Majority C.voters) a a' ∧ Represents C (s.run C actions) a' := by
  induction actions generalizing s a with
  | nil => exact ⟨a, .refl, h⟩
  | cons act rest ih =>
    obtain ⟨a₁, st₁, h₁⟩ := h.step act (hact act mem_cons_self)
    obtain ⟨a₂, st₂, h₂⟩ := ih h₁ fun x hx => hact x (List.mem_cons_of_mem _ hx)
    exact ⟨a₂, st₁.trans st₂, h₂⟩

/-- **Election safety.** Nodes that lead the same term, at whatever two moments
of a run, are the same node. -/
theorem run_leader_unique (C : Cluster I) (rng : I → Nat → Nat) (before after : List (Action I M))
    (keeps : ∀ act ∈ before ++ after, act.keepsMembership = true) (n m : I)
    (first : (((init C rng : System I M).run C before).node n).role = .leader)
    (second : (((init C rng : System I M).run C (before ++ after)).node m).role = .leader)
    (term : (((init C rng : System I M).run C before).node n).term =
      (((init C rng : System I M).run C (before ++ after)).node m).term) : n = m := by
  obtain ⟨a₁, st₁, h₁⟩ := (represents_init C rng (M := M)).run before fun act ha =>
    keeps act (List.mem_append_left _ ha)
  obtain ⟨a₂, st₂, h₂⟩ := h₁.run after fun act ha => keeps act (List.mem_append_right _ ha)
  have hrun : ((init C rng : System I M).run C before).run C after =
      (init C rng : System I M).run C (before ++ after) := by
    simp [System.run, List.foldl_append]
  rw [hrun] at h₂
  obtain ⟨e, he, het, hen⟩ := (h₁.node n).leads first
  obtain ⟨e', he', het', hem⟩ := (h₂.node m).leads second
  have inv : Voting.Inv (Majority C.voters) a₂ := Voting.Inv.initial.steps (st₁.trans st₂)
  rw [← hen, ← hem]
  refine inv.leader_unique (fun A B hA hB => hA.meet hB) ((Voting.Steps.mono st₂).2 he) he' ?_
  rw [het, het', term]

/-- **A mandate is durable.** From when a node leads on, more than half of the voters hold, in what a
crash leaves them, a later term or the vote of this one for it. -/
theorem run_mandate_durable (C : Cluster I) (rng : I → Nat → Nat) (before after : List (Action I M))
    (keeps : ∀ act ∈ before ++ after, act.keepsMembership = true) (n : I)
    (leads : (((init C rng : System I M).run C before).node n).role = .leader) :
    ∃ A, Majority C.voters A ∧ ∀ v ∈ A, Voting.Le ((((init C rng : System I M).run C before).node n).term, some n)
      (((init C rng : System I M).run C (before ++ after)).node v).stable.durable.ballot := by
  obtain ⟨a₁, st₁, h₁⟩ := (represents_init C rng (M := M)).run before fun act ha => keeps act (List.mem_append_left _ ha)
  obtain ⟨a₂, st₂, h₂⟩ := h₁.run after fun act ha => keeps act (List.mem_append_right _ ha)
  obtain ⟨e, won, term, leader⟩ := (h₁.node n).leads leads
  have inv : Voting.Inv (Majority C.voters) a₂ := Voting.Inv.initial.steps (st₁.trans st₂)
  have kept := (Voting.Steps.mono st₂).2 won
  refine ⟨e.quorum, inv.quorum e kept, fun v hv => ?_⟩
  have whole : (init C rng : System I M).run C (before ++ after) = ((init C rng).run C before).run C after :=
    List.foldl_append
  rw [whole, ← (h₂.node v).saved, ← term, ← leader]
  exact inv.granted v _ _ (inv.votes e kept v hv)

end System

/-- Node 0 wins the votes of all three. -/
def Tape.election : List (Action Nat tape) :=
  [.call 0 (.timeout 10)] ++ Tape.on 0 (Tape.persist 10 1) ++ Tape.polls 0 2 ++
    [.deliver 10 0, .deliver 10 1] ++ Tape.on 1 (Tape.persist 10 1) ++ Tape.on 2 (Tape.persist 10 1) ++
    Tape.polls 1 1 ++ Tape.polls 2 1 ++ [.deliver 10 2]

theorem Tape.election_unique :
    (((Tape.start {0, 1, 2}).run (Tape.cluster {0, 1, 2}) Tape.election).node 0).role = .leader ∧
    (((Tape.start {0, 1, 2}).run (Tape.cluster {0, 1, 2}) Tape.election).node 0).term = 1 ∧
    ¬ ((((Tape.start {0, 1, 2}).run (Tape.cluster {0, 1, 2})
        (Tape.election ++ [.deliver 10 3])).node 1).role = .leader ∧
      (((Tape.start {0, 1, 2}).run (Tape.cluster {0, 1, 2})
        (Tape.election ++ [.deliver 10 3])).node 1).term = 1) := by
  have hr : (((Tape.start {0, 1, 2}).run (Tape.cluster {0, 1, 2}) Tape.election).node 0).role =
      .leader := by decide +kernel
  have ht : (((Tape.start {0, 1, 2}).run (Tape.cluster {0, 1, 2}) Tape.election).node 0).term = 1 := by
    decide +kernel
  refine ⟨hr, ht, fun ⟨hm, htm⟩ => absurd ?_ (by decide : ¬ (0 : Nat) = 1)⟩
  exact System.run_leader_unique (Tape.cluster {0, 1, 2}) (fun _ _ => 0)
    Tape.election [.deliver 10 3] (by decide +kernel) 0 1 hr hm (ht.trans htm.symm)

theorem Tape.election_mandate : ∃ A, Majority {0, 1, 2} A ∧ ∀ v ∈ A, Voting.Le (1, some 0)
    (((Tape.start {0, 1, 2}).run (Tape.cluster {0, 1, 2}) (Tape.election ++ [.deliver 10 3])).node v).stable.durable.ballot := by
  have term : (((Tape.start {0, 1, 2}).run (Tape.cluster {0, 1, 2}) Tape.election).node 0).term = 1 := by
    decide +kernel
  have mandate := System.run_mandate_durable (Tape.cluster {0, 1, 2}) (fun _ _ => 0) Tape.election [.deliver 10 3]
    (by decide +kernel) 0 (by decide +kernel)
  exact term ▸ mandate

end Sailing
