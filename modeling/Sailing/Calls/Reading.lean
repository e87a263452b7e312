import Sailing.Calls.Writing

/-!
# Reads, as steps

A leader registers a read, answers it when a quorum confirmed its round or the
lease is live, and takes on the reads it deferred one after the other.
-/

namespace Sailing.Endpoint

variable {I : Type} [LinearOrder I] {M : StateMachine}
variable {mono : Prop} {now : Instant} {inp : Input I} {s s' : Endpoint I M} {b : Bool}

/-! ## Frames -/

theorem Sends.of_doSafeRead (s : Endpoint I M) (context : Bytes) (reqFrom : Option I) :
    Sends s (s.doSafeRead context reqFrom) := by
  unfold doSafeRead
  split
  · exact Sends.of_poison s _
  simp only
  split
  · exact (Sends.of_reads s _).trans (Sends.of_confirmReads _ _)
  refine (Sends.of_reads s _).trans (Sends.of_sendAll _ _ fun o ho => ?_)
  obtain ⟨pr, -, hm⟩ := mem_heartbeats ho
  rw [hm]
  rfl

theorem Sends.of_doLeaderRead (s : Endpoint I M) (now : Instant) (context : Bytes)
    (reqFrom : Option I) : Sends s (s.doLeaderRead now context reqFrom) := by
  unfold doLeaderRead
  split
  · exact Sends.refl s
  split
  · exact Sends.of_doSafeRead s _ _
  split
  · exact Sends.of_emitOrReplyRead s _ _ _
  · exact Sends.of_doSafeRead s _ _

/-- The node with other deferred reads. -/
def withDeferred (s : Endpoint I M) (l : List (Bytes × Option I)) : Endpoint I M :=
  { s with reads := { s.reads with pendingReads := l } }

section

variable (l : List (Bytes × Option I))

include l

omit [LinearOrder I] in
theorem withDeferred_poisoned : (s.withDeferred l).poisoned = s.poisoned := rfl

omit [LinearOrder I] in
theorem withDeferred_emitOrReplyRead (index : Index) (context : Bytes)
    (reqFrom : Option I) : (s.withDeferred l).emitOrReplyRead index context reqFrom =
      (s.emitOrReplyRead index context reqFrom).withDeferred l := by
  unfold emitOrReplyRead
  split
  · unfold emitReadState
    rw [withDeferred_poisoned]
    split <;> rfl
  · rw [send_eq, send_eq]
    rfl

omit [LinearOrder I] in
theorem withDeferred_foldl (confirmed : List (ReadIndexStatus I)) (s : Endpoint I M) :
    confirmed.foldl (fun s st => s.emitOrReplyRead st.index st.context st.reqFrom) (s.withDeferred l) =
      (confirmed.foldl (fun s st => s.emitOrReplyRead st.index st.context st.reqFrom) s).withDeferred l := by
  induction confirmed generalizing s with
  | nil => rfl
  | cons st rest ih => rw [List.foldl_cons, List.foldl_cons, withDeferred_emitOrReplyRead, ih]

omit [LinearOrder I] in
theorem withDeferred_sendAll (ms : List (Outgoing I)) :
    (s.withDeferred l).sendAll ms = (s.sendAll ms).withDeferred l := by
  unfold sendAll
  rw [withDeferred_poisoned]
  split <;> rfl

theorem withDeferred_doSafeRead (context : Bytes) (reqFrom : Option I) : (s.withDeferred l).doSafeRead context reqFrom =
      (s.doSafeRead context reqFrom).withDeferred l := by
  unfold doSafeRead
  cases hadd : s.reads.readOnly.addRequest s.commit context reqFrom s.config.id with
  | none =>
    rw [show (s.withDeferred l).reads.readOnly.addRequest (s.withDeferred l).commit context reqFrom
      (s.withDeferred l).config.id = none from hadd]
    rfl
  | some p =>
    obtain ⟨token, ro⟩ := p
    rw [show (s.withDeferred l).reads.readOnly.addRequest (s.withDeferred l).commit context reqFrom
      (s.withDeferred l).config.id = some (token, ro) from hadd]
    simp only
    have hs : ({ s.withDeferred l with reads := { (s.withDeferred l).reads with readOnly := ro } } :
        Endpoint I M) = { s with reads := { s.reads with readOnly := ro } }.withDeferred l := rfl
    rw [hs]
    generalize ({ s with reads := { s.reads with readOnly := ro } } : Endpoint I M) = t
    have hq : (t.withDeferred l).readQuorumReached token = t.readQuorumReached token := rfl
    rw [hq]
    split
    · exact withDeferred_foldl l (t.reads.readOnly.advance token).1
        { t with reads := { t.reads with readOnly := (t.reads.readOnly.advance token).2 } }
    · exact withDeferred_sendAll l _

theorem withDeferred_doLeaderRead (context : Bytes)
    (reqFrom : Option I) : (s.withDeferred l).doLeaderRead now context reqFrom =
      (s.doLeaderRead now context reqFrom).withDeferred l := by
  unfold doLeaderRead
  rw [withDeferred_poisoned]
  split
  · rfl
  rw [show (s.withDeferred l).config.readOnly = s.config.readOnly from rfl,
    show (s.withDeferred l).leaseReadAvailable now = s.leaseReadAvailable now from rfl]
  split
  · exact withDeferred_doSafeRead l context reqFrom
  split
  · exact withDeferred_emitOrReplyRead l _ context reqFrom
  · exact withDeferred_doSafeRead l context reqFrom

end

/-! ## One read -/

/-- A read that was registered is answered or its round is sent out. -/
theorem steps_registered {token : Bytes} (role : s.role = .leader) (queued : token ∈ s.reads.readOnly.queue) :
    Steps mono now inp s (if s.readQuorumReached token then s.confirmReads token
      else s.broadcastHeartbeatWithCtx token) := by
  split
  · next hq =>
    exact (Sent.of_live (Sends.of_confirmReads s token) fun live =>
      .single (.confirm live role hq)).steps
  · exact (Sent.broadcastHeartbeatWithCtx (.inl role) (.inr queued)).steps

variable {context : Bytes} {reqFrom : Option I}

omit [LinearOrder I] in
theorem addRequest_queue {r ro : ReadOnly I} {index : Index} {token : Bytes} {leader : I}
    (h : r.addRequest index context reqFrom leader = some (token, ro)) : token ∈ ro.queue := by
  unfold ReadOnly.addRequest at h
  split at h
  · simp only [Option.some.injEq, Prod.mk.injEq] at h
    obtain ⟨rfl, rfl⟩ := h
    simp
  · cases h

/-- A read is taken on from `pre`, which differs from `s` only in what waits:
`register` is the step that moves it to the queue of rounds, `lease` the one
that answers it. -/
theorem steps_doLeaderRead {pre : Endpoint I M}
    (role : s.role = .leader) (dead : s.poisoned = true → Steps mono now inp pre s)
    (die : Steps mono now inp pre (s.poison .readRoundExhausted))
    (register : ∀ token ro, s.poisoned = false →
      s.reads.readOnly.addRequest s.commit context reqFrom s.config.id = some (token, ro) →
      Step mono now inp pre { s with reads := { s.reads with readOnly := ro } })
    (lease : s.poisoned = false → s.config.readOnly = .leaseBased →
      s.leaseReadAvailable now = true →
      Step mono now inp pre (s.emitOrReplyRead s.commit context reqFrom)) :
    Steps mono now inp pre (s.doLeaderRead now context reqFrom) := by
  have safe : s.poisoned = false → Steps mono now inp pre (s.doSafeRead context reqFrom) := by
    intro live
    unfold doSafeRead
    split
    · exact die
    next token ro hadd =>
    exact Relation.ReflTransGen.head (register token ro live hadd) (steps_registered role (addRequest_queue hadd))
  unfold doLeaderRead
  split
  · next hp => exact dead hp
  next hp =>
  have live : s.poisoned = false := by simpa using hp
  split
  · exact safe live
  next hmode =>
  split
  · next hav => exact .single (lease live hmode hav)
  · exact safe live

theorem Sent.doLeaderRead (role : s.role = .leader) (source : s.ReadSource inp context reqFrom) (own : s.CommittedOwn) :
    Sent mono now inp s (s.doLeaderRead now context reqFrom) := by
  refine ⟨steps_doLeaderRead role (fun _ => .refl) (.single (.die _)) ?_ ?_,
    Sends.of_doLeaderRead s now context reqFrom⟩
  · exact fun token ro live hadd => .register live role source own hadd
  · exact fun live mode available => .leaseRead live mode available (.inl rfl)

/-! ## The deferred reads -/

theorem withDeferred_doLeaderReads (l m : List (Bytes × Option I)) (s : Endpoint I M) :
    m.foldl (fun s p => s.doLeaderRead now p.1 p.2) (s.withDeferred l) =
      (m.foldl (fun s p => s.doLeaderRead now p.1 p.2) s).withDeferred l := by
  induction m generalizing s with
  | nil => rfl
  | cons p m ih => rw [List.foldl_cons, List.foldl_cons, withDeferred_doLeaderRead, ih]

theorem steps_deferred (l : List (Bytes × Option I)) (role : s.role = .leader)
    (own : s.CommittedOwn) : Steps mono now inp (s.withDeferred l)
      (l.foldl (fun s p => s.doLeaderRead now p.1 p.2) (s.withDeferred [])) := by
  rw [withDeferred_doLeaderReads]
  induction l generalizing s with
  | nil => exact .refl
  | cons p l ih =>
    have hs := Sends.of_doLeaderRead s now p.1 p.2
    have role' := hs.role.trans role
    have own' : (s.doLeaderRead now p.1 p.2).CommittedOwn := by
      unfold CommittedOwn
      rw [hs.log, hs.commit, hs.term]
      exact own
    refine Relation.ReflTransGen.trans ?_ (ih role' own')
    -- the read leaves the list as it is registered or answered
    rw [← withDeferred_doLeaderRead]
    refine steps_doLeaderRead role (fun hp => ?_) ?_ ?_ ?_
    · exact .single (.junk hp rfl rfl rfl rfl (List.Sublist.refl _) (fun hr => ⟨hr, rfl⟩) rfl fun _ => rfl)
    · exact .single (.junk (poisoned_poison _) rfl rfl rfl rfl (List.Sublist.refl _)
        (fun hr => ⟨hr, rfl⟩) rfl fun hp => poisonReason_poison hp _)
    · exact fun token ro live hadd => .registerDeferred (s := s.withDeferred (p :: l)) live role rfl own hadd
    · exact fun live mode available =>
        .leaseRead (s := s.withDeferred (p :: l)) live mode available (.inr ⟨p, rfl⟩)

omit [LinearOrder I] in
theorem hasCurrentTermCommit_cases (h : s.hasCurrentTermCommit = (b, s')) :
    (b = false ∧ s' = s.poison .logTerm) ∨ (s' = s ∧ (b = true → s.CommittedOwn)) := by
  unfold hasCurrentTermCommit at h
  split at h
  · next h' =>
    obtain ⟨rfl, ht⟩ := logTerm_some h'
    simp only [Prod.mk.injEq] at h
    refine .inr ⟨h.2.symm, fun hb => ?_⟩
    rw [hb] at h
    exact ht.trans (by simpa using h.1)
  · next h' =>
    simp only [Prod.mk.injEq] at h
    exact .inl ⟨h.1.symm, h.2.symm.trans (logTerm_none h')⟩

theorem Sent.maybeFlushDeferredReads : Sent mono now inp s (s.maybeFlushDeferredReads now) := by
  unfold Endpoint.maybeFlushDeferredReads
  split
  · exact Sent.refl s
  next hgo =>
  have role : s.role = .leader := by tauto
  split
  · next h =>
    rcases hasCurrentTermCommit_cases h with ⟨-, he⟩ | ⟨he, -⟩
    · rw [he]
      exact Sent.poison s _
    · rw [he]
      exact Sent.refl s
  · next h =>
    rcases hasCurrentTermCommit_cases h with ⟨hb, -⟩ | ⟨he, own⟩
    · cases hb
    rw [he]
    exact ⟨steps_deferred s.reads.pendingReads role (own rfl), (Sends.of_reads s _).trans
      (Sends.of_foldl (fun s (p : Bytes × Option I) => Sends.of_doLeaderRead s now p.1 p.2) _ _)⟩

/-! ## The calls -/

theorem Sent.deferRead (role : s.role = .leader) (source : s.ReadSource inp context reqFrom) :
    Sent mono now inp s (s.deferRead context reqFrom) :=
  Sent.of_live (Sends.of_reads s _) fun live => .single (.deferRead live role source)

theorem Sent.readIndexLeader (role : s.role = .leader) : Sent mono now inp s (s.readIndexLeader now context).2 := by
  unfold Endpoint.readIndexLeader
  split
  · exact Sent.refl s
  next hfree =>
  have source : s.ReadSource inp context none := Bool.eq_false_iff.mpr hfree
  split
  · exact Sent.refl s
  split
  · next h =>
    rcases hasCurrentTermCommit_cases h with ⟨-, he⟩ | ⟨he, -⟩
    · rw [he]
      simpa using Sent.poison s _
    rw [he]
    split
    · exact Sent.refl s
    · exact Sent.deferRead role source
  · next h =>
    rcases hasCurrentTermCommit_cases h with ⟨hb, -⟩ | ⟨he, own⟩
    · cases hb
    rw [he]
    have st : Sent mono now inp s (s.doLeaderRead now context none) := Sent.doLeaderRead role source (own rfl)
    unfold poisonedOrOk
    split <;> exact st

theorem Sent.readIndexFollower (role : s.role = .follower) : Sent mono now inp s (s.readIndexFollower context).2 := by
  unfold Endpoint.readIndexFollower
  split
  · exact Sent.refl s
  split
  · exact Sent.refl s
  next leader known =>
  split
  · exact Sent.refl s
  next new =>
  split
  · exact Sent.refl s
  split
  · exact Sent.poison s _
  next token fwd pushed =>
  exact Sent.of_live ((Sends.of_reads s _).trans (Sends.of_send _ _ rfl)) fun live =>
    .single (.forward live role known (by simpa using new) pushed)

theorem Sent.readIndex (context : Bytes) : Sent mono now inp s (s.readIndex now context).2 := by
  unfold Endpoint.readIndex
  split
  · exact Sent.refl s
  split
  · exact Sent.readIndexLeader ‹_›
  · exact Sent.readIndexFollower ‹_›
  · exact Sent.refl s
  · exact Sent.refl s

theorem Sent.onReadIndex {ri : ReadIndex I} (msg : inp = .message ri.sender (.readIndex ri))
    (term : ri.term = s.term) : Sent mono now inp s (s.onReadIndex now ri) := by
  unfold Endpoint.onReadIndex
  split
  · exact Sent.refl s
  next role =>
  have role : s.role = .leader := by simpa using role
  have source : s.ReadSource inp ri.context (some ri.sender) := ⟨ri, msg, term, rfl, rfl⟩
  split
  · exact Sent.send rfl fun _ => ⟨rfl, rfl, rfl⟩
  split
  · next h =>
    rcases hasCurrentTermCommit_cases h with ⟨-, he⟩ | ⟨he, -⟩
    · rw [he]
      simpa using Sent.poison s _
    rw [he]
    split
    · exact Sent.refl s
    · exact Sent.deferRead role source
  · next h =>
    rcases hasCurrentTermCommit_cases h with ⟨hb, -⟩ | ⟨he, own⟩
    · cases hb
    · rw [he]
      exact Sent.doLeaderRead role source (own rfl)

theorem Sent.ackRead {r : HeartbeatResponse I} {sender : I} (role : s.role = .leader)
    (msg : inp = .message sender (.heartbeatResponse r)) (term : r.term = s.term)
    (from_ : r.sender = sender) : Sent mono now inp s (s.ackRead sender r.context) := by
  unfold Endpoint.ackRead
  extract_lets ro s₁
  have h₁ : Sent mono now inp s s₁ :=
    Sent.of_live (Sends.of_reads s _) fun live => .single (.ackRead live role msg term from_)
  clear_value s₁
  split
  · next hq =>
    exact h₁.trans (Sent.of_live (Sends.of_confirmReads s₁ _) fun live =>
      .single (.confirm live (h₁.sends.role.trans role) hq))
  · exact h₁

end Sailing.Endpoint
