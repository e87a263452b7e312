import Sailing.Run.Steady

/-!
# Elections in a group

A group of nodes whose membership never changes is an instance of
`Voting`: the durable ballots of its nodes only move forward, a node
that sends a granting answer grants its durable vote, and a node that becomes
leader was elected by a majority of such grants. `Represents` is the relation
between the two, and no term of a run has two leaders.
-/

namespace Sailing

variable {I : Type} [LinearOrder I] {M : StateMachine}

/-! ## Majorities -/

def Majority (voters A : Finset I) : Prop := A ⊆ voters ∧ voters.card / 2 + 1 ≤ A.card

theorem Majority.meet {voters A B : Finset I} (hA : Majority voters A) (hB : Majority voters B) : (A ∩ B).Nonempty := by
  rw [← Finset.card_pos]
  have hsum := Finset.card_union_add_card_inter A B
  have hunion := Finset.card_le_card (Finset.union_subset hA.1 hB.1)
  have h₁ := hA.2
  have h₂ := hB.2
  omega

omit [LinearOrder I] in
theorem Tracker.majority_of_won {t : Tracker I} {voters : Finset I} {votes : I → Option Bool}
    (hc : t.confState = ConfState.fromVoters voters) (hv : voters.Nonempty)
    (won : t.voteResult votes = .won) : Majority voters (voters.filter fun id => votes id = some true) := by
  have hin : t.voters.incoming.ids = voters := congrArg ConfState.voters hc
  have hout : t.voters.outgoing.ids = ∅ := congrArg ConfState.votersOutgoing hc
  have hr : t.voters.outgoing.voteResult votes = .won := by
    simp [MajorityConfig.voteResult, hout]
  have h : t.voters.incoming.voteResult votes = .won := by
    unfold Tracker.voteResult JointConfig.voteResult at won
    simp only [hr] at won
    split at won
    · exact won
    · split at won <;> exact absurd won (by simp)
  unfold MajorityConfig.voteResult at h
  simp only [hin, hv.card_pos.ne', if_false] at h
  split at h
  · next hq => exact ⟨Finset.filter_subset _ _, hq⟩
  · split at h <;> exact absurd h (by simp)

namespace Endpoint

variable {mono : Prop} {now : Instant} {inp : Input I} {s s' : Endpoint I M}

/-! ## How a node gets to lead -/

/-- Where the votes of a candidate and the term of a leader come from, over one
effect. -/
structure Rises (inp : Input I) (s s' : Endpoint I M) : Prop where
  config : s'.config = s.config
  tally : s'.poisoned = false → s'.role = .candidate → ∀ x, s'.votes x = some true →
    x = s.config.id ∨
    (s.poisoned = false ∧ s.role = .candidate ∧ s'.term = s.term ∧ s.votes x = some true) ∨
    ∃ sender vr, inp = .message sender (.voteResponse vr) ∧ vr.preVote = false ∧
      vr.reject = false ∧ vr.term = s'.term ∧ vr.sender = x
  leads : s'.role = .leader → (s.role = .leader ∧ s'.term = s.term) ∨
    (s.poisoned = false ∧ s.role = .candidate ∧ s'.term = s.term ∧
      s.tracker.voteResult s.votes = .won ∧
      s.stable.durable.ballot = (s.term, some s.config.id))
  forward : s'.poisoned = false → s.term ≤ s'.term
  stands : s'.poisoned = false → s'.role = .candidate →
    (s.role = .candidate ∧ s'.term = s.term) ∨ s.term < s'.term

namespace Rises

omit [LinearOrder I] in
theorem of_frame (config : s'.config = s.config) (role : s'.role = s.role) (term : s'.term = s.term)
    (votes : s'.votes = s.votes) (live : s'.poisoned = false → s.poisoned = false) :
    Rises inp s s' :=
  ⟨config, fun hl hr _ hx => .inr (.inl ⟨live hl, role.symm.trans hr, term, votes ▸ hx⟩),
    fun hr => .inl ⟨role.symm.trans hr, term⟩, fun _ => term.ge,
    fun _ hr => .inl ⟨role.symm.trans hr, term⟩⟩

omit [LinearOrder I] in
/-- A node that neither leads nor stands has nothing to account for. -/
theorem of_idle {r : Role} (config : s'.config = s.config) (role : s'.role = r)
    (h₁ : r ≠ .candidate) (h₂ : r ≠ .leader) (forward : s.term ≤ s'.term) : Rises inp s s' :=
  ⟨config, fun _ hr => absurd (role.symm.trans hr) h₁, fun hr => absurd (role.symm.trans hr) h₂,
    fun _ => forward, fun _ hr => absurd (role.symm.trans hr) h₁⟩

omit [LinearOrder I] in
theorem of_keeps (h : Keeps s s') : Rises inp s s' := by
  rcases h.role with hr | hr
  · exact of_frame h.config hr h.term h.votes h.live
  · exact of_idle h.config hr (by simp) (by simp) h.term.ge

end Rises

omit [LinearOrder I] in
theorem Rises.of_acks (h : Acks s s') : Rises inp s s' := by
  obtain ⟨l, a, b, c, out, rfl⟩ := h.eq
  exact .of_frame rfl rfl rfl rfl id

theorem Step.rises (st : Step mono now inp s s') : Rises inp s s' := by
  cases st with
  | idle h => exact .of_keeps (Sends.of_core h).keeps
  | die reason => exact .of_keeps (Sends.of_poison s reason).keeps
  | junk dead config log stable id outgoing role =>
    exact ⟨config, fun hl => absurd hl (by simp [dead]), fun h => .inl (role h),
      fun hl => absurd hl (by simp [dead]), fun hl => absurd hl (by simp [dead])⟩
  | adopt live msg newer =>
    unfold adoptTerm
    rw [setLeader_eq]
    exact .of_idle (r := .follower) rfl rfl (by simp) (by simp) newer.le
  | follow | stepDown | retire =>
    simp only [followLeader, stepDownToFollower]
    rw [setLeader_eq]
    exact .of_idle (r := .follower) rfl rfl (by simp) (by simp) le_rfl
  | preCampaign =>
    unfold startPreCampaign
    rw [setLeader_eq]
    exact .of_idle (r := .preCandidate) rfl rfl (by simp) (by simp) le_rfl
  | campaign live mint voter term =>
    rw [startCampaign_eq live mint]
    have higher : s.term < next s.term := lt_of_le_of_ne (le_next s.term) (Ne.symm term)
    refine ⟨rfl, fun _ _ x hx => .inl ?_, fun h => absurd (show Role.candidate = .leader from h) (by simp),
      fun _ => higher.le, fun _ _ => .inr higher⟩
    by_contra hne
    have hx : Function.update (fun _ => none) s.config.id (some true) x = some true := hx
    simp [Function.update_of_ne hne] at hx
  | cast live mint | write live mint | appendOwn live mint | overwrite live mint | beginInstall live mint
  | capture live mint | rewrite live mint =>
    simp only [castVote_eq live mint, submitHardState_eq live mint, appendOwn_eq live mint, overwrite_eq live mint,
      submitSnapshot_eq live mint, mintWrite_eq live mint, Endpoint.capture]
    exact .of_frame rfl rfl rfl rfl id
  | @vote sender vr live msg role =>
    refine ⟨rfl, fun _ hr x hx => .inr ?_, fun h => .inl ⟨h, rfl⟩, fun _ => le_rfl, fun _ hr => .inl ⟨hr, rfl⟩⟩
    have hr : s.role = .candidate := hr
    have hx : Function.update s.votes vr.sender (some !vr.reject) x = some true := hx
    rcases eq_or_ne x vr.sender with rfl | hne
    · have hreal : vr.preVote = false := by
        by_contra hp
        rw [if_pos ((Bool.not_eq_false _).mp hp :), hr] at role
        cases role
      rw [if_neg (by simp [hreal])] at role
      simp only [Function.update_self, Option.some.injEq, Bool.not_eq_true'] at hx
      exact .inr ⟨sender, vr, msg, hreal, hx, role.2, rfl⟩
    · rw [Function.update_of_ne hne] at hx
      exact .inl ⟨live, hr, rfl, hx⟩
  | lead live role won durable =>
    have led : (s.resetLeader now).config = s.config ∧ (s.resetLeader now).role = .leader ∧
        (s.resetLeader now).term = s.term := by
      unfold resetLeader
      rw [setLeader_eq]
      simp only
      split <;> exact ⟨rfl, rfl, rfl⟩
    obtain ⟨config, leads, same⟩ := led
    exact ⟨config, fun _ h => absurd (leads.symm.trans h) (by simp),
      fun _ => .inr ⟨live, role, same, won, durable⟩, fun _ => same.ge,
      fun _ h => absurd (leads.symm.trans h) (by simp)⟩
  | send =>
    rw [send_eq]
    exact .of_frame rfl rfl rfl rfl id
  | ackAppend | releaseAck | ackSnapshot | ackShortcut | flushShortcut | flushSnapshotGate | flushAppendGate =>
    exact .of_acks (by simp)
  | appended =>
    unfold noteAppended
    split <;> exact .of_frame rfl rfl rfl rfl id
  | apply live running entry => exact .of_keeps (Keeps.of_applyEntry live entry)
  | receive live msg term chunk =>
    obtain ⟨n, stable, hc, hst⟩ := chunk
    have hl : s'.poisonReason = s.poisonReason := congrArg Core.poisonReason hst
    exact .of_frame (congrArg Core.config hst) (congrArg Core.role hst) (congrArg Core.term hst)
      (congrArg Core.votes hst) fun h => (congrArg Option.isSome hl).symm.trans h
  | farewell | confirm | leaseRead | forward | answered | renewLease => exact .of_keeps (Sends.keeps (by simp))
  | _ => exact .of_frame rfl rfl rfl rfl id

/-! ## Over a call -/

/-- The votes of a candidate are its own and granted ones. -/
def Tallied (G : Set (I × Term × I)) (s : Endpoint I M) : Prop :=
  s.poisoned = false → s.role = .candidate → ∀ x, s.votes x = some true →
    x = s.config.id ∨ (x, s.term, s.config.id) ∈ G

/-- A majority's votes of term `t` for a node that has its own durable. -/
def Elected (voters : Finset I) (G : Set (I × Term × I)) (s : Endpoint I M) (t : Term) : Prop :=
  s.stable.durable.ballot = (t, some s.config.id) ∧
    ∃ A, Majority voters A ∧ ∀ v ∈ A, v = s.config.id ∨ (v, t, s.config.id) ∈ G

/-- The granting answers for `me` that an input brings are of `G`. -/
def CountedInput (G : Set (I × Term × I)) (me : I) (inp : Input I) : Prop :=
  ∀ sender vr, inp = .message sender (.voteResponse vr) → vr.preVote = false → vr.reject = false →
    (vr.sender, vr.term, me) ∈ G

theorem Does.elects {voters : Finset I} {G : Set (I × Term × I)} {brings : Input I → Prop} (hv : voters.Nonempty)
    (steady : ∀ inp, brings inp → SteadyInput (ConfState.fromVoters voters) inp)
    (counted : ∀ inp, brings inp → CountedInput G s.config.id inp)
    (st : Does mono now brings s s') (inv : NodeInv mono s)
    (h : Steady (ConfState.fromVoters voters) s) (ht : Tallied G s) :
    Tallied G s' ∧ (s'.role = .leader → (s.role = .leader ∧ s'.term = s.term) ∨ Elected voters G s s'.term) := by
  induction st with
  | refl => exact ⟨ht, fun hr => .inl ⟨hr, rfl⟩⟩
  | @tail s₁ s₂ hd st ih =>
    obtain ⟨ht₁, hl₁⟩ := ih
    obtain ⟨inp, hin, st⟩ := st
    have hr := st.rises
    have hg := Does.guarded hd inv
    have hs₁ := Does.steady rfl steady hd h
    refine ⟨fun live role x hx => ?_, fun role => ?_⟩
    · rw [hr.config]
      rcases hr.tally live role x hx with hx | ⟨hl, hc, hterm, hx⟩ | ⟨sender, vr, hm, hp, hj, hterm, rfl⟩
      · exact .inl hx
      · rw [hterm]
        exact ht₁ hl hc x hx
      · rw [← hterm, hg.config]
        exact .inr (counted inp hin sender vr hm hp hj)
    · rcases hr.leads role with ⟨hrole, hterm⟩ | ⟨hl, hc, hterm, won, durable⟩
      · rw [hterm]
        exact hl₁ hrole
      · right
        rw [hterm]
        rw [hg.durable, hg.config] at durable
        refine ⟨durable, _, Tracker.majority_of_won (hs₁.conf hl) hv won, fun v hm => ?_⟩
        rw [← hg.config]
        exact ht₁ hl hc v (Finset.mem_filter.mp hm).2

end Endpoint

end Sailing
