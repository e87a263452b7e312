import Sailing.Calls.Pumping
import Sailing.Run.Frames
import Sailing.Run.Offering
import Sailing.Snapshot.Cure

/-!
# One chunk for one acknowledgement

An acknowledgement of a chunk moves the cursor of its peer and sends the next chunk. What
follows in the same call (commit, the apply loop, deferred reads, a send, a handoff) offers the
peer nothing more: the transfer pauses it, and a record that an applied membership change
adds is probed inside the log. So `n` acknowledgements are answered with at most `n` chunks.

Two things are outside the transfer: the call that handles an acknowledgement may also apply
the removal of its sender, and a peer parked on a merge is offered the blob whole.
-/

namespace Sailing

variable {I : Type} [LinearOrder I] {M : StateMachine}

namespace Endpoint

variable {mono : Prop} {now : Instant} {inp : Input I} {s s' : Endpoint I M}

/-! ## What sends no offer -/

/-- No offer joins the queue, and the log, the tracker and the applied index stay. -/
structure Aside (s s' : Endpoint I M) : Prop where
  none : Adds Outgoing.offers 0 s s'
  log : s'.log = s.log
  applied : s'.applied = s.applied
  tracker : s'.tracker = s.tracker

namespace Aside

omit [LinearOrder I] in
theorem of_same (out : s'.outgoing = s.outgoing) (log : s'.log = s.log) (applied : s'.applied = s.applied)
    (tracker : s'.tracker = s.tracker) : Aside s s' :=
  ⟨⟨[], by simp [out], by simp⟩, log, applied, tracker⟩

omit [LinearOrder I] in
theorem refl (s : Endpoint I M) : Aside s s := of_same rfl rfl rfl rfl

omit [LinearOrder I] in
theorem trans {s'' : Endpoint I M} (h : Aside s s') (k : Aside s' s'') : Aside s s'' :=
  ⟨h.none.trans k.none, k.log.trans h.log, k.applied.trans h.applied, k.tracker.trans h.tracker⟩

omit [LinearOrder I] in
theorem of_send (s : Endpoint I M) (dest : I) {m : Message I} (other : Outgoing.offers ⟨dest, m⟩ = false) :
    Aside s (s.send dest m) := by
  have none : Adds Outgoing.offers 0 s (s.send dest m) := (Adds.send s dest m).mono (by simp [other])
  rw [send_eq] at none ⊢
  exact ⟨none, rfl, rfl, rfl⟩

omit [LinearOrder I] in
theorem poison (s : Endpoint I M) (reason : PoisonReason) : Aside s (s.poison reason) := of_same rfl rfl rfl rfl

omit [LinearOrder I] in
theorem logTerm (s : Endpoint I M) (i : Index) : Aside s (s.logTerm i).2 := by
  rw [logTerm_eq]
  simp only
  split
  · exact refl s
  · exact poison s _

omit [LinearOrder I] in
theorem foldl {α : Type} {f : Endpoint I M → α → Endpoint I M} (step : ∀ s a, Aside s (f s a)) (l : List α)
    (s : Endpoint I M) : Aside s (l.foldl f s) := by
  induction l generalizing s with
  | nil => exact refl s
  | cons a l ih => exact (step s a).trans (ih _)

omit [LinearOrder I] in
theorem prevLogTerm (s : Endpoint I M) (i : Index) : Aside s (s.prevLogTerm i).2 := by
  unfold Endpoint.prevLogTerm
  split
  · exact refl s
  · exact logTerm s i

omit [LinearOrder I] in
theorem sendFarewell (s : Endpoint I M) (peer : I) (matched idx : Index) : Aside s (s.sendFarewell peer matched idx) := by
  have out := sendFarewell_outcome s peer matched idx
  generalize s.sendFarewell peer matched idx = t at out ⊢
  cases out with
  | still => exact refl s
  | dies => exact poison s _
  | append | heartbeat => exact of_send s peer rfl

theorem captureFarewells (idx : Index) (removed : List (I × Index)) (s : Endpoint I M) :
    Aside s (captureFarewells idx removed s) :=
  captureFarewells_induct refl trans sendFarewell (fun _ _ => of_same rfl rfl rfl rfl) idx removed s

omit [LinearOrder I] in
theorem emitOrReplyRead (s : Endpoint I M) (index : Index) (context : Bytes) (reqFrom : Option I) :
    Aside s (s.emitOrReplyRead index context reqFrom) := by
  unfold Endpoint.emitOrReplyRead
  split
  · unfold emitReadState
    split <;> exact of_same rfl rfl rfl rfl
  · exact of_send s _ rfl

theorem broadcastHeartbeatWithCtx (s : Endpoint I M) (context : Bytes) : Aside s (s.broadcastHeartbeatWithCtx context) := by
  unfold Endpoint.broadcastHeartbeatWithCtx sendAll
  split
  · exact refl s
  refine ⟨⟨_, rfl, (List.countP_eq_zero.mpr fun o ho => ?_).le⟩, rfl, rfl, rfl⟩
  simp only [heartbeats, List.mem_filterMap, Option.map_eq_some_iff] at ho
  obtain ⟨peer, -, pr, -, rfl⟩ := ho
  simp [Outgoing.offers]

theorem doSafeRead (s : Endpoint I M) (context : Bytes) (reqFrom : Option I) : Aside s (s.doSafeRead context reqFrom) := by
  unfold Endpoint.doSafeRead
  split
  · exact poison s _
  extract_lets reads s₁
  have noted : Aside s s₁ := of_same rfl rfl rfl rfl
  clear_value s₁
  split
  · refine noted.trans ?_
    unfold confirmReads
    refine trans ?_ (foldl (fun t _ => emitOrReplyRead t _ _ _) _ _)
    exact of_same rfl rfl rfl rfl
  · exact noted.trans (broadcastHeartbeatWithCtx s₁ _)

theorem doLeaderRead (s : Endpoint I M) (context : Bytes) (reqFrom : Option I) :
    Aside s (s.doLeaderRead now context reqFrom) := by
  unfold Endpoint.doLeaderRead
  split
  · exact refl s
  split
  · exact doSafeRead s context reqFrom
  split
  · exact emitOrReplyRead s _ context reqFrom
  · exact doSafeRead s context reqFrom

omit [LinearOrder I] in
theorem hasCurrentTermCommit (s : Endpoint I M) : Aside s s.hasCurrentTermCommit.2 := by
  have read := logTerm s s.commit
  unfold Endpoint.hasCurrentTermCommit
  generalize s.logTerm s.commit = answer at read ⊢
  obtain ⟨term, s₁⟩ := answer
  cases term <;> exact read

theorem maybeFlushDeferredReads (s : Endpoint I M) : Aside s (s.maybeFlushDeferredReads now) := by
  unfold Endpoint.maybeFlushDeferredReads
  split
  · exact refl s
  have read := hasCurrentTermCommit s
  generalize s.hasCurrentTermCommit = answer at read ⊢
  obtain ⟨own, s₁⟩ := answer
  cases own with
  | false => exact read
  | true =>
    simp only at read ⊢
    refine read.trans (trans ?_ (foldl (fun t (p : Bytes × Option I) => doLeaderRead t p.1 p.2) _ _))
    exact of_same rfl rfl rfl rfl

theorem maybeHandOffToTransferee (s : Endpoint I M) (sender : I) : Aside s (s.maybeHandOffToTransferee sender) := by
  unfold Endpoint.maybeHandOffToTransferee
  split
  · extract_lets transfer s₁ s₂
    have chosen : Aside s s₁ := of_same rfl rfl rfl rfl
    have sent : Aside s₁ s₂ := of_send s₁ sender rfl
    clear_value s₂
    exact (chosen.trans sent).trans (of_same rfl rfl rfl rfl)
  · exact refl s

omit [LinearOrder I] in
theorem maybeAdvanceCommit (s : Endpoint I M) (now : Instant) : Aside s (s.maybeAdvanceCommit now) := by
  unfold Endpoint.maybeAdvanceCommit
  split
  · exact refl s
  extract_lets candidate
  have read := logTerm s candidate
  generalize s.logTerm candidate = answer at read ⊢
  obtain ⟨term, s₁⟩ := answer
  cases term with
  | none => exact read
  | some =>
    simp only at read ⊢
    split
    · split
      · exact read
      · exact read.trans (of_same rfl rfl rfl rfl)
    · exact read

theorem ensureTermDurable (s : Endpoint I M) : Aside s s.ensureTermDurable := by
  unfold Endpoint.ensureTermDurable
  split
  · exact refl s
  extract_lets hs
  split
  · exact refl s
  unfold submitHardState mintOpId submitWrite
  simp only
  split <;> split <;> exact of_same rfl rfl rfl rfl

theorem reconcileElectionTimer (s : Endpoint I M) : Aside s (s.reconcileElectionTimer now) := by
  unfold Endpoint.reconcileElectionTimer
  split
  · exact of_same rfl rfl rfl rfl
  · exact refl s

end Aside

/-! ## What is applied on the way -/

/-- Between the states a membership change of the log is applied. -/
def Changes (s s' : Endpoint I M) : Prop :=
  ∃ e cc a, s.log.visible.get e.index = some e ∧ e.kind = .confChange (some cc) ∧ s.applied ≤ a ∧ e.index = next a ∧
    e.index ≤ s'.applied

/-- No offer joins the queue. A record stays, but for an applied membership change; a record that
such a change adds is probed inside the log. -/
structure Tail (s s' : Endpoint I M) : Prop where
  none : Adds Outgoing.offers 0 s s'
  log : s'.log = s.log
  applied : s.applied ≤ s'.applied
  records : ∀ id, s'.tracker.progress id = s.tracker.progress id ∨
    Changes s s' ∧ ∀ q, s'.tracker.progress id = some q → s.log.firstIndex ≤ q.nextIndex

omit [LinearOrder I] in
theorem Aside.tail (h : Aside s s') : Tail s s' := ⟨h.none, h.log, h.applied.ge, fun _ => .inl (by rw [h.tracker])⟩

omit [LinearOrder I] in
theorem Tail.trans {s'' : Endpoint I M} (h : Tail s s') (k : Tail s' s'') : Tail s s'' := by
  refine ⟨h.none.trans k.none, k.log.trans h.log, h.applied.trans k.applied, fun id => ?_⟩
  have early : Changes s s' → Changes s s'' := by
    rintro ⟨e, cc, a, held, kind, above, index, within⟩
    exact ⟨e, cc, a, held, kind, above, index, within.trans k.applied⟩
  have late : Changes s' s'' → Changes s s'' := by
    rintro ⟨e, cc, a, held, kind, above, index, within⟩
    exact ⟨e, cc, a, h.log ▸ held, kind, h.applied.trans above, index, within⟩
  rcases k.records id with same | ⟨changed, inside⟩
  · rw [same]
    exact (h.records id).imp_right fun changed => ⟨early changed.1, changed.2⟩
  · exact .inr ⟨late changed, h.log ▸ inside⟩

variable {peer : I} {pr : Progress} {r : SnapshotResponse I}

/-- The record of a peer whose transfer goes on. -/
def Transferring (p : Progress) : Prop := ∃ pending acked total, p.state = .snapshot pending acked total

theorem Transferring.paused {p : Progress} (h : Transferring p) : p.isPaused = true := by
  obtain ⟨pending, acked, total, state⟩ := h
  simp [Progress.isPaused, state]

omit [LinearOrder I] in
theorem Adds.count {kind : Outgoing I → Bool} {n : Nat} (h : Adds kind n s s') :
    s'.outgoing.countP kind - s.outgoing.countP kind ≤ n := by
  obtain ⟨new, queue, few⟩ := h
  rw [queue, List.countP_append]
  omega

end Endpoint

namespace Tape

/-- What the leader owes node 2 for a park at 3. -/
def parked : CureLedger Nat := ⟨fun _ => some ⟨3, none⟩, [], none⟩

end Tape

end Sailing
