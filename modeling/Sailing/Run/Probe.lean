import Sailing.Model.Tape
import Sailing.Run.Restart

/-!
# A rejected probe converges

Both sides of a rejection walk their log down by term, within a budget. Where terms do
not decrease along a log, neither walk passes an index at which the two logs agree, so
the leader's next probe lands above the match point and below the one that was rejected.
-/

namespace Sailing

variable {I : Type} [LinearOrder I] {M : StateMachine}

namespace LogImage

variable {l f : LogImage I} {m p i : Index}

/-- Terms do not decrease from the boundary on. -/
def Sorted (l : LogImage I) : Prop :=
  ∀ i j, l.base ≤ i → i ≤ j → j ≤ l.lastIndex → l.term i ≤ l.term j

/-- Both logs hold the same term at `i`, as an entry or as the boundary. -/
def Agree (l f : LogImage I) (i : Index) : Prop :=
  (l.base ≤ i ∧ i ≤ l.lastIndex) ∧ (f.base ≤ i ∧ i ≤ f.lastIndex) ∧ l.term i = f.term i

instance (l f : LogImage I) (i : Index) : Decidable (Agree l f i) := by
  unfold Agree
  infer_instance

/-- Logs that agree somewhere agree below, as far as both reach. -/
def Matching (l f : LogImage I) : Prop :=
  ∀ i, Agree l f i → ∀ j ≤ i, l.base ≤ j → f.base ≤ j → Agree l f j

/-- The largest index at which the logs agree, or the larger boundary. -/
structure MatchPoint (l f : LogImage I) (m : Index) : Prop where
  above : max l.base f.base ≤ m
  at_ : Agree l f m ∨ m = max l.base f.base
  largest : ∀ i, m < i → ¬ Agree l f i

/-- The walk of `find_conflict_by_term`. -/
def walkDown (l : LogImage I) (t : Term) : Nat → Index → Index
  | 0, i => i
  | budget + 1, i =>
    if i < l.firstIndex then i else if l.term i ≤ t then i else l.walkDown t budget (i - 1)

omit [LinearOrder I] in
theorem walkDown_le (l : LogImage I) (t : Term) (budget : Nat) (i : Index) : l.walkDown t budget i ≤ i := by
  induction budget generalizing i with
  | zero => exact le_rfl
  | succ budget ih =>
    unfold walkDown
    split
    · exact le_rfl
    split
    · exact le_rfl
    · exact (ih (i - 1)).trans (Nat.sub_le i 1)

omit [LinearOrder I] in
/-- The walk does not pass an index it would stop at, whatever its budget. -/
theorem le_walkDown {t : Term} (stop : m < l.firstIndex ∨ l.term m ≤ t) (budget : Nat) (low : m ≤ i) :
    m ≤ l.walkDown t budget i := by
  induction budget generalizing i with
  | zero => exact low
  | succ budget ih =>
    unfold walkDown
    split
    · exact low
    next first =>
    split
    · exact low
    next term =>
    have ne : m ≠ i := by
      rintro rfl
      exact stop.elim first term
    exact ih (Nat.le_sub_one_of_lt (lt_of_le_of_ne low ne))

end LogImage

namespace Endpoint

variable {s s' : Endpoint I M} {now : Instant} {peer : I}

omit [LinearOrder I] in
theorem logTerm_ok {i : Index} (reads : s.log.termError i = false) :
    s.logTerm i = (some (s.log.visible.term i), s) := by
  simp [logTerm, LogStore.term, reads]

omit [LinearOrder I] in
theorem findConflictByTerm_eq (reads : ∀ i, s.log.termError i = false) (t : Term) (budget : Nat) (i : Index) :
    findConflictByTerm t budget s i = (some (s.log.visible.walkDown t budget i), s) := by
  induction budget generalizing i with
  | zero => rfl
  | succ budget ih =>
    unfold findConflictByTerm LogImage.walkDown
    change (if i < s.log.visible.firstIndex then _ else _) = _
    split
    · rfl
    simp only [logTerm_ok (reads i)]
    split
    · rfl
    · exact ih (i - 1)

/-! ## The follower -/

/-- The response to an append whose previous entry the log does not hold. -/
def rejection (s : Endpoint I M) (ae : AppendEntries I) : AppendResponse I :=
  let hint := s.log.visible.walkDown ae.prevLogTerm conflictWalkBudget (min ae.prevLogIndex s.log.lastIndex)
  ⟨s.term, s.config.id, true, hint, s.log.visible.term hint, 0, ae.prevLogIndex⟩

omit [LinearOrder I] in
theorem rejectAppend_eq (reads : ∀ i, s.log.termError i = false) (ae : AppendEntries I) :
    s.rejectAppend ae = s.send ae.leader (.appendResponse (s.rejection ae)) := by
  unfold rejectAppend
  simp only [findConflictByTerm_eq reads, logTerm_ok (reads _)]
  rfl

theorem rejects_onAppendEntries (live : s.poisoned = false) (reads : ∀ i, s.log.termError i = false)
    {ae : AppendEntries I} (held : s.log.visible.base < ae.prevLogIndex)
    (differs : ae.prevLogIndex ≤ s.log.lastIndex → s.log.visible.term ae.prevLogIndex ≠ ae.prevLogTerm) :
    (s.onAppendEntries now ae).outgoing = s.outgoing ++ [⟨ae.leader, .appendResponse (s.rejection ae)⟩] := by
  obtain ⟨t, ht, log, config, term, out, dead⟩ : ∃ t : Endpoint I M, s.followLeader now ae.leader = t ∧
      t.log = s.log ∧ t.config = s.config ∧ t.term = s.term ∧ t.outgoing = s.outgoing ∧ t.poisoned = false := by
    refine ⟨_, rfl, ?_⟩
    unfold followLeader
    rw [setLeader_eq]
    exact ⟨rfl, rfl, rfl, rfl, live⟩
  have zero : ae.prevLogIndex ≠ 0 := (Nat.zero_le _).trans_lt held |>.ne'
  have first : ¬ (ae.prevLogIndex = 0 ∨ ae.prevLogIndex < t.log.firstIndex) := by
    rw [log]
    exact not_or.mpr ⟨zero, not_lt.mpr held⟩
  have treads : ∀ i, t.log.termError i = false := by
    rw [log]
    exact reads
  have inconsistent : t.prevMatches ae = (false, t) := by
    unfold prevMatches
    rw [if_neg first]
    split
    · next le =>
      rw [log] at le
      simp only [logTerm_ok (treads _), log, Prod.mk.injEq, decide_eq_false_iff_not, and_true]
      exact differs le
    · rfl
  have rejection : t.rejection ae = s.rejection ae := by
    unfold Endpoint.rejection
    rw [log, config, term]
  unfold onAppendEntries
  rw [ht, inconsistent]
  simp only [dead, Bool.false_eq_true, if_false]
  rw [rejectAppend_eq treads, send_live dead, rejection]
  simp [out]

/-! ## The leader -/

/-- The probe position after a rejection. -/
def probeNext (s : Endpoint I M) (pr : Progress) (r : AppendResponse I) : Index :=
  max (min (pr.nextIndex - 1)
    (s.log.visible.walkDown r.rejectHintTerm conflictWalkBudget (min r.rejectHintIndex s.log.lastIndex) + 1))
    (if r.rejectedIndex ≠ 0 then pr.matchIndex + 1 else 1)

def probeAt (s : Endpoint I M) (peer : I) (q : Index) : Endpoint I M :=
  { s with tracker := s.tracker.modifyProgress peer fun p => p.becomeProbe.setNextIndex q }

variable {pr : Progress}

theorem onAppendResponse_reject (now : Instant) (live : s.poisoned = false) (role : s.role = .leader)
    (reads : ∀ i, s.log.termError i = false) (progress : s.tracker.progress peer = some pr)
    (sending : ∀ pending acked total, pr.state ≠ .snapshot pending acked total) {r : AppendResponse I}
    (reject : r.reject = true) (fresh : pr.matchIndex < r.rejectedIndex) :
    s.onAppendResponse now peer r = (s.probeAt peer (s.probeNext pr r)).maybeSendAppend now peer := by
  have go : ¬ (r.rejectedIndex ≠ 0 ∧ r.rejectedIndex ≤ pr.matchIndex) := fun h => not_le.mpr fresh h.2
  have handled : s.onAppendReject now peer pr r = (s.probeAt peer (s.probeNext pr r)).maybeSendAppend now peer := by
    unfold onAppendReject
    cases state : pr.state with
    | snapshot pending acked total => exact absurd state (sending pending acked total)
    | probe | replicate =>
      simp only [if_neg go, findConflictByTerm_eq reads]
      rfl
  unfold onAppendResponse
  simp only [live, role, progress, reject, handled, Bool.false_eq_true, false_or, ne_eq, not_true_eq_false,
    if_false, if_true]

theorem progress_probeAt (progress : s.tracker.progress peer = some pr) (q : Index) :
    (s.probeAt peer q).tracker.progress peer = some (pr.becomeProbe.setNextIndex q) := by
  simp [probeAt, Tracker.modifyProgress, progress]

/-- A probe below the first index is answered by the snapshot. -/
theorem maybeSendAppend_probeAt_of_lt (live : s.poisoned = false)
    (progress : s.tracker.progress peer = some pr) {q : Index} (low : q < s.log.firstIndex) :
    (s.probeAt peer q).maybeSendAppend now peer = (s.probeAt peer q).sendSnapshotPaced now peer 0 := by
  have dead : (s.probeAt peer q).poisoned = false := live
  unfold maybeSendAppend
  simp only [dead, Bool.false_eq_true, if_false, progress_probeAt progress]
  have paused : (pr.becomeProbe.setNextIndex q).isPaused = false := rfl
  rw [paused]
  simp only [Bool.false_eq_true, if_false]
  exact if_pos low

theorem nextIndex_sendAppend (progress : s.tracker.progress peer = some pr)
    (state : pr.state = .probe) (prev : Index) (prevTerm : Term) (entries : List (Entry I)) :
    ∃ pr', (s.sendAppend peer prev prevTerm entries).tracker.progress peer = some pr' ∧
      pr'.nextIndex = pr.nextIndex := by
  have sent : ∀ dest msg, (s.send dest msg).tracker = s.tracker := fun dest msg => by
    rw [send_eq]
  unfold sendAppend
  simp only [Tracker.modifyProgress, sent, progress, Function.update_self, Option.map_some]
  refine ⟨_, rfl, ?_⟩
  split
  · simp only [Progress.sentEntries, state]
  · rfl

omit [LinearOrder I] in
theorem tracker_prevLogTerm (s : Endpoint I M) (prev : Index) : (s.prevLogTerm prev).2.tracker = s.tracker := by
  unfold prevLogTerm
  split
  · rfl
  rw [logTerm_eq]
  simp only
  split <;> rfl

theorem nextIndex_maybeSendAppend_probeAt (now : Instant) (progress : s.tracker.progress peer = some pr)
    {q : Index} (held : s.log.firstIndex ≤ q) :
    ∃ pr', ((s.probeAt peer q).maybeSendAppend now peer).tracker.progress peer = some pr' ∧ pr'.nextIndex = q := by
  have at_ := progress_probeAt (s := s) progress q
  have same : ∀ t : Endpoint I M, t.tracker = (s.probeAt peer q).tracker →
      ∃ pr', t.tracker.progress peer = some pr' ∧ pr'.nextIndex = q := fun t ht => ⟨_, ht ▸ at_, rfl⟩
  unfold maybeSendAppend
  split
  · exact same _ rfl
  simp only [at_]
  split
  · exact same _ rfl
  split
  · next low => exact absurd low (not_lt.mpr held)
  have read := tracker_prevLogTerm (s.probeAt peer q) ((pr.becomeProbe.setNextIndex q).nextIndex - 1)
  generalize (s.probeAt peer q).prevLogTerm ((pr.becomeProbe.setNextIndex q).nextIndex - 1) = res at read
  obtain ⟨term, t⟩ := res
  have ht : t.tracker.progress peer = some (pr.becomeProbe.setNextIndex q) := by
    rw [← at_]
    exact congrArg (fun x => x.progress peer) read
  cases term with
  | none => exact same t read
  | some term =>
    simp only
    split
    · exact same t read
    · exact same _ read
    · obtain ⟨pr', h, hn⟩ := nextIndex_sendAppend ht rfl _ term _
      exact ⟨pr', h, hn⟩

theorem tracker_chunkStart (peer : I) (boundary : Index) (total fromOffset : Nat) :
    (s.chunkStart peer boundary total fromOffset).2.tracker = s.tracker ∨
      (s.chunkStart peer boundary total fromOffset).2.tracker =
        s.tracker.modifyProgress peer (·.becomeSnapshot boundary total) := by
  unfold chunkStart
  split
  · split
    · exact .inl rfl
    · exact .inr rfl
  · exact .inr rfl

theorem tracker_sendSnapshotChunk (peer : I) (fromOffset : Nat) :
    (s.sendSnapshotChunk peer fromOffset).2.tracker = s.tracker ∨
      ∃ boundary total, (s.sendSnapshotChunk peer fromOffset).2.tracker =
        s.tracker.modifyProgress peer (·.becomeSnapshot boundary total) := by
  unfold sendSnapshotChunk
  simp only
  split
  · exact .inl rfl
  · exact .inl rfl
  next snap total chunk read =>
  have started := tracker_chunkStart (s := s) peer snap.lastIndex total fromOffset
  generalize s.chunkStart peer snap.lastIndex total fromOffset = res at started
  obtain ⟨offset, t⟩ := res
  have done : ∀ u : Endpoint I M, u.tracker = t.tracker → u.tracker = s.tracker ∨
      ∃ boundary total, u.tracker = s.tracker.modifyProgress peer (·.becomeSnapshot boundary total) :=
    fun u hu => hu ▸ started.imp id fun h => ⟨_, _, h⟩
  split
  · exact done _ rfl
  generalize (if min offset total = fromOffset then _ else _ : Option _) = again
  split
  · exact done _ rfl
  · exact done _ rfl
  split
  · exact done _ rfl
  split
  · exact done _ rfl
  split
  · exact done _ rfl
  · refine done _ ?_
    rw [send_eq]

/-- Starting a transfer leaves the next index, or puts it behind the match. -/
theorem nextIndex_sendSnapshotPaced (now : Instant) (progress : s.tracker.progress peer = some pr)
    (fromOffset : Nat) : ∃ pr', (s.sendSnapshotPaced now peer fromOffset).tracker.progress peer = some pr' ∧
      (pr'.nextIndex = pr.nextIndex ∨ pr'.nextIndex = next pr.matchIndex) := by
  have moved := tracker_sendSnapshotChunk (s := s) peer fromOffset
  have paced : (s.sendSnapshotPaced now peer fromOffset).tracker = (s.sendSnapshotChunk peer fromOffset).2.tracker := by
    unfold sendSnapshotPaced
    cases s.sendSnapshotChunk peer fromOffset with
    | mk answer => cases answer <;> rfl
  rw [paced]
  rcases moved with h | ⟨boundary, total, h⟩ <;> rw [h]
  · exact ⟨pr, progress, .inl rfl⟩
  refine ⟨pr.becomeSnapshot boundary total, by simp [Tracker.modifyProgress, progress], ?_⟩
  unfold Progress.becomeSnapshot
  split
  · exact .inr rfl
  · exact .inl rfl

end Endpoint

open LogImage

/-- The leader `s` probes `peer`, the node `t`, at `p`, above the match point of their logs. -/
structure Probes (m p : Index) (peer : I) (s t : Endpoint I M) (ae : AppendEntries I) : Prop where
  leader : s.poisoned = false ∧ s.role = .leader
  follower : t.poisoned = false
  reads : ∀ i, s.log.termError i = false ∧ t.log.termError i = false
  sorted : s.log.visible.Sorted ∧ t.log.visible.Sorted
  matching : Matching s.log.visible t.log.visible
  point : MatchPoint s.log.visible t.log.visible m
  above : m < p
  held : p ≤ s.log.lastIndex
  sent : ae.prevLogIndex = p ∧ ae.prevLogTerm = s.log.visible.term p
  progress : ∃ pr, s.tracker.progress peer = some pr ∧ pr.nextIndex = p + 1 ∧ pr.matchIndex ≤ m ∧
    ∀ pending acked total, pr.state ≠ .snapshot pending acked total

/-- The leader holds what the follower compacted, unless it compacted it too. -/
def HoldsBoundary (l f : LogImage I) : Prop := l.base ≤ f.base → l.term f.base = f.term f.base

namespace Probes

variable {m p : Index} {peer : I} {s t : Endpoint I M} {ae : AppendEntries I} {now : Instant}

section

variable (h : Probes m p peer s t ae)

include h

theorem rejects : (t.onAppendEntries now ae).outgoing =
    t.outgoing ++ [⟨ae.leader, .appendResponse (t.rejection ae)⟩] := by
  have above := (le_max_right s.log.visible.base t.log.visible.base).trans h.point.above
  have left := (le_max_left s.log.visible.base t.log.visible.base).trans h.point.above
  refine t.rejects_onAppendEntries h.follower (fun i => (h.reads i).2) ?_ fun le same => ?_
  · rw [h.sent.1]
    exact above.trans_lt h.above
  · rw [h.sent.1] at le same
    rw [h.sent.2] at same
    exact h.point.largest p h.above ⟨⟨left.trans h.above.le, h.held⟩, ⟨above.trans h.above.le, le⟩, same.symm⟩

omit [LinearOrder I] in
/-- The follower's walk does not pass the match point, and neither does the leader's. -/
theorem le_conflict (agree : Agree s.log.visible t.log.visible m) :
    m ≤ s.log.visible.walkDown (t.rejection ae).rejectHintTerm conflictWalkBudget
      (min (t.rejection ae).rejectHintIndex s.log.lastIndex) := by
  obtain ⟨⟨sb, sl⟩, ⟨tb, tl⟩, same⟩ := agree
  have hint : m ≤ (t.rejection ae).rejectHintIndex := by
    refine le_walkDown (.inr ?_) _ (le_min ?_ tl)
    · rw [h.sent.2, ← same]
      exact h.sorted.1 m p sb h.above.le h.held
    · rw [h.sent.1]
      exact h.above.le
  have top : (t.rejection ae).rejectHintIndex ≤ t.log.lastIndex := (walkDown_le _ _ _ _).trans (min_le_right _ _)
  refine le_walkDown (.inr ?_) _ (le_min hint sl)
  rw [same]
  exact h.sorted.2 m _ tb hint top

omit [LinearOrder I] in
theorem next_le {pr : Progress} (next : pr.nextIndex = p + 1)
    (low : pr.matchIndex ≤ m) : s.probeNext pr (t.rejection ae) ≤ p := by
  have echoed : (t.rejection ae).rejectedIndex ≠ 0 := by
    show ae.prevLogIndex ≠ 0
    rw [h.sent.1]
    exact ((Nat.zero_le m).trans_lt h.above).ne'
  unfold Endpoint.probeNext
  rw [if_pos echoed, next]
  exact max_le (min_le_left _ _) (low.trans_lt h.above)

omit [LinearOrder I] in
/-- The next probe is above the match point, or in what the leader has compacted. -/
theorem lt_next (boundary : HoldsBoundary s.log.visible t.log.visible) {pr : Progress} (next : pr.nextIndex = p + 1) :
    m < s.probeNext pr (t.rejection ae) ∨ s.probeNext pr (t.rejection ae) < s.log.firstIndex := by
  by_cases agree : Agree s.log.visible t.log.visible m
  · left
    unfold Endpoint.probeNext
    rw [next]
    refine lt_max_of_lt_left (lt_min h.above ?_)
    exact Nat.lt_succ_of_le (h.le_conflict agree)
  · have low := h.point.above
    -- without agreement the match point is the leader's own boundary
    have base : m = s.log.visible.base := by
      have at_ := h.point.at_.resolve_left agree
      rcases le_total s.log.visible.base t.log.visible.base with le | le
      · rw [max_eq_right le] at at_ low
        refine absurd ⟨⟨le.trans low, h.above.le.trans h.held⟩, ⟨low, ?_⟩, ?_⟩ agree
        · rw [at_]
          exact Nat.le_add_right _ _
        · rw [at_]
          exact boundary le
      · rw [at_, max_eq_left le]
    rcases lt_or_ge m (s.probeNext pr (t.rejection ae)) with lt | ge
    · exact .inl lt
    · exact .inr (Nat.lt_succ_of_le (base ▸ ge))

end

end Probes

/-- The response the follower computes moves the probe down, but not below the match
point, or makes the leader send its snapshot. -/
structure Converges (m p : Index) (peer : I) (s : Endpoint I M) (r : AppendResponse I) (s' : Endpoint I M) :
    Prop where
  rejects : r.reject = true
  moves : (∃ pr, s'.tracker.progress peer = some pr ∧ m + 1 ≤ pr.nextIndex ∧ pr.nextIndex ≤ p) ∨
    ∃ q now, q < s.log.firstIndex ∧ s' = (s.probeAt peer q).sendSnapshotPaced now peer 0

namespace Probes

variable {m p : Index} {peer : I} {s t : Endpoint I M} {ae : AppendEntries I}

theorem converges (h : Probes m p peer s t ae) (boundary : HoldsBoundary s.log.visible t.log.visible) (now : Instant) :
    Converges m p peer s (t.rejection ae) (s.onAppendResponse now peer (t.rejection ae)) := by
  obtain ⟨pr, progress, next, low, sending⟩ := h.progress
  have fresh : pr.matchIndex < (t.rejection ae).rejectedIndex := by
    show pr.matchIndex < ae.prevLogIndex
    rw [h.sent.1]
    exact low.trans_lt h.above
  have handled := s.onAppendResponse_reject now h.leader.1 h.leader.2 (fun i => (h.reads i).1) progress sending
    (r := t.rejection ae) rfl fresh
  refine ⟨rfl, ?_⟩
  rw [handled]
  rcases lt_or_ge (s.probeNext pr (t.rejection ae)) s.log.firstIndex with lt | ge
  · refine .inr ⟨_, now, lt, ?_⟩
    exact Endpoint.maybeSendAppend_probeAt_of_lt h.leader.1 progress lt
  obtain ⟨pr', progress', next'⟩ := Endpoint.nextIndex_maybeSendAppend_probeAt now progress ge
  refine .inl ⟨pr', progress', ?_, ?_⟩
  · rw [next']
    exact (h.lt_next boundary next).resolve_right (not_lt.mpr ge)
  · rw [next']
    exact h.next_le next low

theorem lower {p' : Index} {s' t' : Endpoint I M} {ae' : AppendEntries I} (h : Probes m p peer s t ae)
    (h' : Probes m p' peer s' t' ae') (boundary : HoldsBoundary s.log.visible t.log.visible) {now : Instant}
    (handled : s' = s.onAppendResponse now peer (t.rejection ae)) : p' < p := by
  obtain ⟨pr', progress', next', -, -⟩ := h'.progress
  rcases (h.converges boundary now).moves with ⟨pr, progress, -, le⟩ | ⟨q, now, lt, snap⟩
  · rw [← handled, progress'] at progress
    rw [← Option.some.inj progress, next'] at le
    exact le
  -- a transfer leaves the probe at or below the match point
  exfalso
  obtain ⟨pr, progress, -, low, -⟩ := h.progress
  obtain ⟨pr'', progress'', moved⟩ := Endpoint.nextIndex_sendSnapshotPaced now
    (Endpoint.progress_probeAt (s := s) progress q) 0
  rw [← snap, ← handled, progress'] at progress''
  rw [← Option.some.inj progress'', next'] at moved
  have base := (le_max_left s.log.visible.base t.log.visible.base).trans h.point.above
  have first : q ≤ s.log.visible.base := Nat.le_of_lt_succ lt
  have above := h'.above
  rcases moved with moved | moved
  · have moved : p' + 1 = q := moved
    lia
  have moved : p' + 1 = next pr.matchIndex := moved
  have := Endpoint.next_le_succ pr.matchIndex
  lia

end Probes

/-- Each rejection of a probe above the match point moves it down towards that point, within
the budgets of both walks, or ends in a snapshot; so `p - m` of them are the most. -/
theorem probe_converges (m : Index) (peer : I) (n : Nat) (p : Nat → Index) (s t : Nat → Endpoint I M)
    (ae : Nat → AppendEntries I) (received handled : Nat → Instant)
    (probes : ∀ k ≤ n, Probes m (p k) peer (s k) (t k) (ae k))
    (boundary : ∀ k ≤ n, HoldsBoundary (s k).log.visible (t k).log.visible) :
    (∀ k ≤ n, ∃ r, ((t k).onAppendEntries (received k) (ae k)).outgoing =
        (t k).outgoing ++ [⟨(ae k).leader, .appendResponse r⟩] ∧
      Converges m (p k) peer (s k) r ((s k).onAppendResponse (handled k) peer r)) ∧
    ((∀ k < n, ∀ r, ((t k).onAppendEntries (received k) (ae k)).outgoing =
        (t k).outgoing ++ [⟨(ae k).leader, .appendResponse r⟩] →
        s (k + 1) = (s k).onAppendResponse (handled k) peer r) → n + 1 ≤ p 0 - m) := by
  refine ⟨fun k hk => ⟨_, (probes k hk).rejects, (probes k hk).converges (boundary k hk) _⟩, fun chain => ?_⟩
  have descends : ∀ k ≤ n, p k + k ≤ p 0 := by
    intro k
    induction k with
    | zero => exact fun _ => le_rfl
    | succ k ih =>
      intro hk
      have lower := (probes k (Nat.le_of_succ_le hk)).lower (probes (k + 1) hk)
        (boundary k (Nat.le_of_succ_le hk)) (chain k hk _ (probes k (Nat.le_of_succ_le hk)).rejects)
      have := ih (Nat.le_of_succ_le hk)
      lia
  have last := descends n le_rfl
  have above := (probes n le_rfl).above
  lia

namespace Tape

/-- An empty entry of each term, from index `n` on. -/
def emptyRun (n : Index) : List Term → List (Entry Nat)
  | [] => []
  | t :: ts => ⟨t, n, .empty⟩ :: emptyRun (n + 1) ts

/-- Node 1 with a log of these terms above the boundary. -/
def holding (base : Index) (baseTerm : Term) (terms : List Term) : Endpoint Nat tape :=
  { node (config {1, 2} 1) with
    term := 3
    log := { LogStore.empty with durable := ⟨base, baseTerm, emptyRun (base + 1) terms⟩ } }

/-- It leads, and probes node 2 at its last index. -/
def probing (base : Index) (baseTerm : Term) (terms : List Term) : Endpoint Nat tape :=
  { holding base baseTerm terms with
    role := .leader
    tracker := { (holding base baseTerm terms).tracker with
      progress := fun _ => some (Progress.new (base + terms.length + 1) 8 0) } }

/-- The probe of that leader. -/
def probe (p : Index) (t : Term) : AppendEntries Nat := ⟨3, 1, p, t, [], 0⟩

theorem matchPoint_of_differ {l f : LogImage Nat} {n m : Index} (small : l.lastIndex ≤ n ∨ f.lastIndex ≤ n)
    (above : max l.base f.base ≤ m) (at_ : LogImage.Agree l f m ∨ m = max l.base f.base)
    (differ : ∀ i ≤ n, m < i → l.term i ≠ f.term i) : LogImage.MatchPoint l f m := by
  refine ⟨above, at_, fun i hi agree => ?_⟩
  have le : i ≤ n := small.elim (fun h => agree.1.2.trans h) fun h => agree.2.1.2.trans h
  exact differ i le hi agree.2.2

theorem probing_probes {terms : List Term} {base : Index} {baseTerm : Term} {terms' : List Term} {m p : Index}
    {t : Term} (sorted : (probing 0 0 terms).log.visible.Sorted)
    (sorted' : (holding base baseTerm terms').log.visible.Sorted)
    (matching : LogImage.Matching (probing 0 0 terms).log.visible (holding base baseTerm terms').log.visible)
    (point : LogImage.MatchPoint (probing 0 0 terms).log.visible (holding base baseTerm terms').log.visible m)
    (above : m < p) (last : p = terms.length) (held : p ≤ (probing 0 0 terms).log.lastIndex)
    (term : t = (probing 0 0 terms).log.visible.term p) :
    Probes m p 2 (probing 0 0 terms) (holding base baseTerm terms') (probe p t) where
  leader := ⟨rfl, rfl⟩
  follower := rfl
  reads _ := ⟨rfl, rfl⟩
  sorted := ⟨sorted, sorted'⟩
  matching := matching
  point := point
  above := above
  held := held
  sent := ⟨rfl, term⟩
  progress := ⟨Progress.new (0 + terms.length + 1) 8 0, rfl, by rw [last]; simp [Progress.new],
    Nat.zero_le m, fun _ _ _ h => by simp [Progress.new] at h⟩

/-- The follower compacted up to an entry of term 2 that the leader does not have: the probe goes
below that boundary, and no snapshot is sent. -/
theorem probing_below_boundary :
    Probes 1 3 2 (probing 0 0 [3, 3, 3]) (holding 1 2 [2]) (probe 3 3) ∧
    ∃ r s', ((holding 1 2 [2]).onAppendEntries 0 (probe 3 3)).outgoing = [⟨1, .appendResponse r⟩] ∧
      s' = (probing 0 0 [3, 3, 3]).onAppendResponse 0 2 r ∧
      (s'.tracker.progress 2).map (·.nextIndex) = some 1 ∧ (probing 0 0 [3, 3, 3]).log.firstIndex = 1 ∧
      s'.outgoing = [⟨2, .appendEntries ⟨3, 1, 0, 0, emptyRun 1 [3, 3, 3], 0⟩⟩] := by
  have sorted : ∀ j ≤ 3, ∀ i ≤ j, (probing 0 0 [3, 3, 3]).log.visible.term i ≤
      (probing 0 0 [3, 3, 3]).log.visible.term j := by decide
  have sorted' : ∀ j ≤ 2, ∀ i ≤ j, 1 ≤ i → (holding 1 2 [2]).log.visible.term i ≤
      (holding 1 2 [2]).log.visible.term j := by decide
  have differ : ∀ i ≤ 2, 1 ≤ i → (probing 0 0 [3, 3, 3]).log.visible.term i ≠
      (holding 1 2 [2]).log.visible.term i := by decide
  have probes : Probes 1 3 2 (probing 0 0 [3, 3, 3]) (holding 1 2 [2]) (probe 3 3) := by
    refine probing_probes (fun i j _ hij hj => sorted j hj i hij) (fun i j hi hij hj => sorted' j hj i hij hi)
      (fun i agree => absurd agree.2.2 (differ i agree.2.1.2 agree.2.1.1)) ?_ (by decide) rfl (by decide) rfl
    exact matchPoint_of_differ (Or.inr le_rfl) (by decide) (Or.inr rfl) fun i hi above => differ i hi above.le
  exact ⟨probes, _, _, probes.rejects, rfl, by decide, rfl, by decide⟩

/-- Where the follower merely lags in an older term, one round reaches the match point. -/
theorem probe_converges_lagging : ∃ r, ((holding 0 0 [1, 1]).onAppendEntries 0 (probe 3 2)).outgoing =
      [⟨1, .appendResponse r⟩] ∧
    Converges 1 3 2 (probing 0 0 [1, 2, 2]) r ((probing 0 0 [1, 2, 2]).onAppendResponse 0 2 r) := by
  have sorted : ∀ j ≤ 3, ∀ i ≤ j, (probing 0 0 [1, 2, 2]).log.visible.term i ≤
      (probing 0 0 [1, 2, 2]).log.visible.term j := by decide
  have sorted' : ∀ j ≤ 2, ∀ i ≤ j, (holding 0 0 [1, 1]).log.visible.term i ≤
      (holding 0 0 [1, 1]).log.visible.term j := by decide
  have differ : ∀ i ≤ 2, 1 < i → (probing 0 0 [1, 2, 2]).log.visible.term i ≠
      (holding 0 0 [1, 1]).log.visible.term i := by decide
  have agree : ∀ j ≤ 1, LogImage.Agree (probing 0 0 [1, 2, 2]).log.visible (holding 0 0 [1, 1]).log.visible j := by
    decide
  have probes : Probes 1 3 2 (probing 0 0 [1, 2, 2]) (holding 0 0 [1, 1]) (probe 3 2) := by
    refine probing_probes (fun i j _ hij hj => sorted j hj i hij) (fun i j hi hij hj => sorted' j hj i hij)
      (fun i found j hij _ _ => ?_) ?_ (by decide) rfl (by decide) rfl
    · refine agree j (hij.trans (not_lt.mp fun above => ?_))
      exact differ i found.2.1.2 above found.2.2
    · exact matchPoint_of_differ (Or.inr le_rfl) (by decide) (Or.inl (agree 1 le_rfl)) differ
  exact (probe_converges 1 2 0 (fun _ => 3) (fun _ => probing 0 0 [1, 2, 2]) (fun _ => holding 0 0 [1, 1])
    (fun _ => probe 3 2) (fun _ => 0) (fun _ => 0) (fun _ _ => probes) fun _ _ _ => rfl).1 0 le_rfl

end Tape

end Sailing
