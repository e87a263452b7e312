import Sailing.Run.Forward

/-!
# What a node may pledge

A granted vote, real or not, and a supported lease are the pledges of a node.
`Pledges` says of one effect where a new one can come from: it is one the code
may send, and a vote that waits for its write was asked for and not fenced.
-/

namespace Sailing

variable {I : Type} [LinearOrder I] {M : StateMachine}

/-- A vote is granted, or a lease supported. -/
def pledge : Message I → Bool
  | .voteResponse vr => !vr.reject
  | .heartbeatResponse r => r.leaseSupport != 0
  | _ => false

omit [LinearOrder I] in
theorem pledge_of_plain {m : Message I} (h : plain m = true) : pledge m = false := by
  cases m with
  | voteResponse vr =>
    have hr : vr.reject = true := h
    simp [pledge, hr]
  | heartbeatResponse r =>
    have hr : r.leaseSupport = 0 := by simpa [plain] using h
    simp [pledge, hr]
  | _ => rfl

namespace Endpoint

variable {mono : Prop} {now : Instant} {inp : Input I} {s s' : Endpoint I M}

/-- The vote for `dest` in term `t` was asked for outside the fence. -/
def Asked (now : Instant) (inp : Input I) (s : Endpoint I M) (preVote : Bool) (dest : I) (t : Term) :
    Prop :=
  ∃ sender rv, inp = .message sender (.requestVote rv) ∧ rv.preVote = preVote ∧ rv.term = t ∧
    rv.candidate = dest ∧ s.leaseVoteFenced now rv.leaderTransfer = false

/-- Where a pledge of `s'` that `s` does not have comes from. -/
structure Pledges (now : Instant) (inp : Input I) (s s' : Endpoint I M) : Prop where
  out : ∀ o ∈ s'.outgoing, pledge o.message = true → o ∈ s.outgoing ∨
    (s.poisoned = false ∧ Sendable now inp s o.dest o.message)
  live : s'.poisoned = false → s.poisoned = false
  fence : s'.poisoned = false → s'.durable.leaseVoteFenceUntil = s.durable.leaseVoteFenceUntil
  cast : s'.poisoned = false → ∀ id dest t, (id, .castVote dest t) ∈ s'.pendingStable →
    (id, .castVote dest t) ∈ s.pendingStable ∨ Asked now inp s false dest t

namespace Pledges

omit [LinearOrder I] in
theorem of_same (out : s'.outgoing = s.outgoing) (reason : s'.poisonReason = s.poisonReason)
    (fence : s'.durable.leaseVoteFenceUntil = s.durable.leaseVoteFenceUntil)
    (pending : s'.pendingStable = s.pendingStable) : Pledges now inp s s' :=
  ⟨fun _ ho _ => .inl (out ▸ ho), fun h => (congrArg Option.isSome reason).symm.trans h,
    fun _ => fence, fun _ _ _ _ h => .inl (pending ▸ h)⟩

omit [LinearOrder I] in
theorem of_send {t : Endpoint I M} {dest : I} {m : Message I} (h : Pledges now inp s t)
    (hm : pledge m = false) : Pledges now inp s (t.send dest m) := by
  rw [send_eq]
  refine ⟨fun o ho hp => ?_, h.live, h.fence, h.cast⟩
  rcases List.mem_append.mp ho with ho | ho
  · exact h.out o ho hp
  split at ho
  · exact absurd ho List.not_mem_nil
  · rw [List.mem_singleton.mp ho, hm] at hp
    cases hp

omit [LinearOrder I] in
theorem of_keeps (h : Keeps s s') : Pledges now inp s s' := by
  obtain ⟨new, ho, hplain⟩ := h.sent
  refine ⟨fun o hm hp => ?_, h.live, fun _ => by rw [h.durable], fun _ _ _ _ hq => .inl (h.pendingStable ▸ hq)⟩
  rw [ho] at hm
  rcases List.mem_append.mp hm with hm | hm
  · exact .inl hm
  · rw [pledge_of_plain (hplain o hm)] at hp
    cases hp

omit [LinearOrder I] in
theorem of_fewer (out : ∀ o ∈ s'.outgoing, o ∈ s.outgoing) (reason : s'.poisonReason = s.poisonReason)
    (fence : s'.durable.leaseVoteFenceUntil = s.durable.leaseVoteFenceUntil)
    (pending : ∀ p ∈ s'.pendingStable, p ∈ s.pendingStable) : Pledges now inp s s' :=
  ⟨fun o ho _ => .inl (out o ho), fun h => (congrArg Option.isSome reason).symm.trans h,
    fun _ => fence, fun _ _ _ _ h => .inl (pending _ h)⟩

end Pledges

/-! ## One effect -/

omit [LinearOrder I] in
theorem fence_noteWrote (d : Durability I) (id : OpId) :
    (noteWrote d id).leaseVoteFenceUntil = d.leaseVoteFenceUntil := by
  unfold noteWrote
  simp only
  split <;> split <;> split <;> rfl

omit [LinearOrder I] in
theorem Pledges.of_acks (h : Acks s s') : Pledges now inp s s' := by
  cases h with
  | hold => exact .of_same rfl rfl rfl rfl
  | append | snapshot => exact .of_send (.of_same rfl rfl rfl rfl) rfl

theorem Step.pledges (st : Step mono now inp s s') : Pledges now inp s s' := by
  cases st with
  | idle h => exact .of_keeps (Sends.of_core h).keeps
  | die reason => exact .of_keeps (Sends.of_poison s reason).keeps
  | junk dead config log stable id outgoing =>
    exact ⟨fun o ho _ => .inl (outgoing.subset ho), fun h => absurd h (by simp [dead]),
      fun h => absurd h (by simp [dead]), fun h => absurd h (by simp [dead])⟩
  | adopt =>
    unfold adoptTerm
    rw [setLeader_eq]
    exact .of_fewer (fun _ h => h) rfl rfl fun _ h => absurd h List.not_mem_nil
  | follow | preCampaign | stepDown | retire =>
    simp only [followLeader, startPreCampaign, stepDownToFollower]
    rw [setLeader_eq]
    exact .of_same rfl rfl rfl rfl
  | campaign live mint =>
    rw [startCampaign_eq live mint]
    refine ⟨fun o ho _ => .inl ho, fun h => h, fun _ => ?_, fun _ id dest t h => ?_⟩
    · simp only [notedHardState, noteSubmitted_eq]
      rfl
    · exact absurd (List.mem_singleton.mp h) (by simp)
  | @cast sender rv live mint msg term real free fresh unfenced =>
    rw [castVote_eq live mint]
    refine ⟨fun o ho _ => .inl ho, fun h => h, fun _ => ?_, fun _ id dest t h => ?_⟩
    · simp only [notedHardState, noteSubmitted_eq]
    · rcases List.mem_append.mp h with h | h
      · exact .inl h
      · obtain ⟨-, he⟩ := Prod.mk.inj (List.mem_singleton.mp h)
        obtain ⟨rfl, rfl⟩ := Pending.castVote.inj he
        exact .inr ⟨sender, rv, msg, real, term, rfl, unfenced⟩
  | lead =>
    unfold resetLeader
    rw [setLeader_eq]
    simp only
    split <;> exact .of_same rfl rfl rfl rfl
  | write live mint =>
    rw [submitHardState_eq live mint]
    exact .of_same rfl rfl (by simp only [notedHardState, noteSubmitted_eq]) rfl
  | rewrite live mint =>
    rw [mintWrite_eq live mint]
    exact .of_same rfl rfl (by simp only [noteSubmitted_eq]) rfl
  | wrote => exact .of_same rfl rfl (fence_noteWrote s.durable _) rfl
  | @settled pre post _ _ live pending proven =>
    refine .of_fewer (fun _ h => h) rfl rfl fun p hp => ?_
    rw [pending]
    rcases List.mem_append.mp hp with hp | hp
    · exact List.mem_append_left _ hp
    · exact List.mem_append_right _ (List.mem_cons_of_mem _ hp)
  | send live ok =>
    rw [send_live live]
    refine ⟨fun o ho _ => ?_, fun h => h, fun _ => rfl, fun _ _ _ _ h => .inl h⟩
    rcases List.mem_append.mp ho with ho | ho
    · exact .inl ho
    · rw [List.mem_singleton.mp ho]
      exact .inr ⟨live, ok⟩
  | appendOwn live mint | beginInstall live mint | capture live mint =>
    simp only [appendOwn_eq live mint, submitSnapshot_eq live mint, Endpoint.capture]
    exact .of_same rfl rfl rfl rfl
  | overwrite live mint =>
    rw [overwrite_eq live mint]
    exact .of_fewer (fun _ h => List.mem_of_mem_filter h) rfl rfl fun _ h => h
  | ackAppend | releaseAck | ackSnapshot | ackShortcut | flushShortcut | flushSnapshotGate | flushAppendGate =>
    exact .of_acks (by simp)
  | appended =>
    unfold noteAppended
    split <;> exact .of_same rfl rfl rfl rfl
  | apply live running entry => exact .of_keeps (Keeps.of_applyEntry live entry)
  | install =>
    exact .of_fewer (fun _ h => List.mem_of_mem_filter h) rfl rfl fun _ h => List.mem_of_mem_filter h
  | receive live msg term chunk =>
    obtain ⟨n, stable, hc, hst⟩ := chunk
    exact .of_same (congrArg Core.outgoing hst) (congrArg Core.poisonReason hst)
      (congrArg (·.durable.leaseVoteFenceUntil) hst) (congrArg Core.pendingStable hst)
  | farewell | confirm | leaseRead | forward | answered | renewLease => exact .of_keeps (Sends.keeps (by simp))
  | _ => exact .of_same rfl rfl rfl rfl

end Endpoint

end Sailing
