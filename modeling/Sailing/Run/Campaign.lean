import Sailing.Run.Reach
import Sailing.Model.Tape

/-!
# Campaigns on a superseded configuration

Membership is folded when a configuration change is applied, so a node that has
committed a change it has not applied counts votes against voters its own log
has replaced. `become_candidate` and `become_pre_candidate` refuse when a merge
parks the apply loop above such a change; a cold read or a spent budget holds
the loop back as well, and there they do not look.
-/

namespace Sailing

variable {I : Type} [LinearOrder I] {M : StateMachine}

namespace Endpoint

variable {mono : Prop} {now : Instant} {s t : Endpoint I M}

/-- A committed configuration change is not applied yet. No entry stands at the
last index. -/
def ConfPending (s : Endpoint I M) : Prop :=
  ∃ i e, s.applied < i ∧ i ≤ s.commit ∧ i < u64Max ∧ s.log.visible.get i = some e ∧
    e.kind.isConfChange = true

/-- The state of a live node at some moment of some call of some run. -/
def Moment (config : Config I) (t : Endpoint I M) : Prop :=
  t.poisoned = false ∧ ∃ (s : Endpoint I M) (now : Instant) (brings : Input I → Prop),
    Reachable config s ∧ Does False now brings s t

theorem Moment.inv {config : Config I} (h : Moment config t) : NodeInv False t := by
  obtain ⟨-, s, now, brings, hr, hd⟩ := h
  exact Does.inv hd hr.inv.1

/-! ## The walk over the unapplied entries -/

variable {cursor : Index}

omit [LinearOrder I] in
/-- A batch read from `cursor` ends at the index of its last entry. -/
theorem last_of_prefix {l : LogImage I} (hc : l.Contiguous) (hb : l.base < cursor)
    {batch : List (Entry I)} (hp : batch <+: l.entries.drop (cursor - l.base - 1)) {last : Entry I}
    (hl : batch.getLast? = some last) : last.index + 1 = cursor + batch.length := by
  have hne : batch ≠ [] := by
    rintro rfl
    cases hl
  have hpos : 0 < batch.length := List.length_pos_of_ne_nil hne
  have hget : batch[batch.length - 1]? = some last := by
    rw [← List.getLast?_eq_getElem?]
    exact hl
  obtain ⟨rest, hrest⟩ := hp
  have hdrop : (l.entries.drop (cursor - l.base - 1))[batch.length - 1]? = some last := by
    rw [← hrest, List.getElem?_append_left (by lia), hget]
  rw [List.getElem?_drop] at hdrop
  have hlast : l.get (cursor + batch.length - 1) = some last := by
    unfold LogImage.get
    rw [if_pos (by lia), ← hdrop]
    congr 1
    lia
  have := hc.index_of_get hlast
  lia

omit [LinearOrder I] in
theorem mem_of_prefix {l : LogImage I} {i : Index} (hb : l.base < cursor)
    {batch : List (Entry I)} (hp : batch <+: l.entries.drop (cursor - l.base - 1)) {e : Entry I}
    (he : l.get i = some e) (hi : cursor ≤ i) (hlt : i < cursor + batch.length) : e ∈ batch := by
  have hdrop : (l.entries.drop (cursor - l.base - 1))[i - cursor]? = some e := by
    unfold LogImage.get at he
    rw [if_pos (by lia)] at he
    rw [List.getElem?_drop, ← he]
    congr 1
    lia
  obtain ⟨rest, hrest⟩ := hp
  have hbatch : batch[i - cursor]? = some e := by
    rw [← hdrop, ← hrest, List.getElem?_append_left (by lia)]
  exact List.mem_of_getElem? hbatch

omit [LinearOrder I] in
theorem supersededFrom_of_conf {i : Index} {e : Entry I} (hc : s.log.visible.Contiguous)
    (hi : i ≤ s.commit) (hmax : i < u64Max) (he : s.log.visible.get i = some e)
    (hconf : e.kind.isConfChange = true) (fuel : Nat)
    (hb : s.log.visible.base < cursor) (hcur : cursor ≤ i) (hfuel : i < cursor + fuel) :
    s.supersededFrom fuel cursor = true := by
  induction fuel generalizing cursor with
  | zero => lia
  | succ fuel ih =>
    unfold supersededFrom
    have hlt : cursor < next s.commit := by
      unfold next
      split <;> lia
    rw [if_pos hlt]
    split
    · next batch hread =>
      have hp := entries_ready hread
      split
      · rfl
      next last hl =>
      have hlast := last_of_prefix hc hb hp hl
      by_cases hin : i < cursor + batch.length
      · have hm := mem_of_prefix hb hp he hcur hin
        rw [List.any_eq_true.mpr ⟨e, hm, hconf⟩]
        rfl
      have hnext : next last.index = cursor + batch.length := by
        unfold next
        rw [if_pos (by lia)]
        lia
      have hpos : 0 < batch.length := List.length_pos_of_mem (List.mem_of_getLast? hl)
      rw [hnext, ih (by lia) (by lia) (by lia), Bool.or_true]
    · rfl

theorem ConfPending.superseded (inv : NodeInv mono s) (live : s.poisoned = false)
    (h : s.ConfPending) (parked : s.pendingApply.isSome = true) :
    s.mergeParkMembershipSuperseded = true := by
  obtain ⟨i, e, happ, hcom, hmax, hget, hconf⟩ := h
  have hbase : s.log.visible.base ≤ s.applied := (inv.shape live).base_applied
  have hnext : next s.applied = s.applied + 1 := by
    unfold next
    rw [if_pos (by lia)]
  unfold mergeParkMembershipSuperseded
  rw [parked, hnext, supersededFrom_of_conf inv.contiguous hcom hmax hget hconf _ (by lia) (by lia) (by lia)]
  rfl

/-! ## The two campaigns -/

/-- The vote requests that wait to be polled. -/
def voteRequests (s : Endpoint I M) : List (Outgoing I) := s.outgoing.filter fun o => o.message.isRequestVote

/-- Neither campaign moves the node out of its role or asks for a vote. -/
def RefusesCampaign (s : Endpoint I M) : Prop := ∀ (now : Instant) (transfer : Bool),
  (s.becomeCandidate now transfer).role = s.role ∧
    (s.becomeCandidate now transfer).voteRequests = s.voteRequests ∧
    (s.becomePreCandidate now).2.role = s.role ∧
    (s.becomePreCandidate now).2.voteRequests = s.voteRequests

/-- The node is barred from campaigning for another reason. -/
def Barred (s : Endpoint I M) : Prop :=
  s.tracker.isVoter s.config.id = false ∨ next s.term = s.term ∨
    (s.lastLog.1 = none ∧ s.role = .preCandidate)

omit [LinearOrder I] in
theorem role_sendAll (ms : List (Outgoing I)) : (s.sendAll ms).role = s.role := by
  unfold sendAll
  split <;> rfl

theorem startPreCampaign_role (now : Instant) : (s.startPreCampaign now).role = .preCandidate := by
  unfold startPreCampaign
  rw [setLeader_eq]
  rfl

theorem lastLog_startPreCampaign (now : Instant) : (s.startPreCampaign now).lastLog.1 = s.lastLog.1 := by
  have hl : (s.startPreCampaign now).log = s.log := by
    unfold startPreCampaign
    rw [setLeader_eq]
    rfl
  unfold lastLog
  rw [hl]
  split
  · rfl
  rw [logTerm_eq, logTerm_eq, hl]
  cases s.log.term s.log.lastIndex with
  | none => rfl
  | some => simp [hl]

section

variable (voter : s.tracker.isVoter s.config.id = true) (current : s.mergeParkMembershipSuperseded = false) (term : next s.term ≠ s.term)

include voter current term

/-- A campaign behind the guards takes the role of a candidate. -/
theorem becomeCandidate_role {last : Index × Term} (hl : s.lastLog.1 = some last) (transfer : Bool) :
    (s.becomeCandidate now transfer).role = .candidate := by
  unfold becomeCandidate
  rw [if_neg (by simp [voter, current, term])]
  split
  · next h =>
    rw [h] at hl
    cases hl
  next s₁ h =>
  simp only [role_sendAll]
  unfold startCampaign
  rw [setLeader_eq]
  unfold submitHardState mintOpId submitWrite pushPending armElectionTimer
  simp only
  split <;> split <;> rfl

theorem becomePreCandidate_role : (s.becomePreCandidate now).2.role = .preCandidate := by
  unfold becomePreCandidate
  rw [if_neg (by simp [voter, current, term])]
  split
  · next h =>
    rw [lastLog_none h]
    exact startPreCampaign_role now
  next h =>
  obtain ⟨rfl, -⟩ := lastLog_some h
  exact (role_sendAll _).trans (startPreCampaign_role now)

end

/-- Guarded, both campaigns leave the node as it is. -/
theorem refusesCampaign_of_guard (h : s.tracker.isVoter s.config.id = false ∨
    s.mergeParkMembershipSuperseded = true ∨ next s.term = s.term) : s.RefusesCampaign := by
  intro now transfer
  unfold becomeCandidate becomePreCandidate
  rw [if_pos h, if_pos h]
  exact ⟨rfl, rfl, rfl, rfl⟩

/-- Without a readable last term the candidate gives up before it starts, and
the pre-candidate stays one. -/
theorem refusesCampaign_of_unreadable (hl : s.lastLog.1 = none) (role : s.role = .preCandidate) :
    s.RefusesCampaign := by
  intro now transfer
  have h₁ : (s.becomeCandidate now transfer).role = s.role ∧
      (s.becomeCandidate now transfer).voteRequests = s.voteRequests := by
    unfold becomeCandidate
    split
    · exact ⟨rfl, rfl⟩
    split
    · next h =>
      rw [lastLog_none h]
      exact ⟨rfl, rfl⟩
    next h =>
    rw [h] at hl
    cases hl
  have h₂ : (s.becomePreCandidate now).2.role = s.role ∧
      (s.becomePreCandidate now).2.voteRequests = s.voteRequests := by
    unfold becomePreCandidate
    split
    · exact ⟨rfl, rfl⟩
    split
    · next h =>
      rw [lastLog_none h]
      refine ⟨(startPreCampaign_role now).trans role.symm, ?_⟩
      unfold startPreCampaign
      rw [setLeader_eq]
      rfl
    · next h =>
      rw [← lastLog_startPreCampaign now, h] at hl
      cases hl
  exact ⟨h₁.1, h₁.2, h₂.1, h₂.2⟩

/-- With a committed change unapplied, the campaigns are refused exactly when
a merge holds the apply loop, or the node could not campaign anyway. -/
theorem refusesCampaign_iff {config : Config I} (h : Moment config s) (pending : s.ConfPending) :
    s.RefusesCampaign ↔ s.pendingApply.isSome = true ∨ s.Barred := by
  constructor
  · intro refuses
    by_contra hn
    simp only [Barred, not_or, Bool.not_eq_true, Bool.not_eq_false] at hn
    obtain ⟨unparked, voter, term, readable⟩ := hn
    have current : s.mergeParkMembershipSuperseded = false := by
      unfold mergeParkMembershipSuperseded
      rw [unparked]
      rfl
    obtain ⟨hc, -, hp, -⟩ := refuses 0 false
    rw [becomePreCandidate_role voter current term] at hp
    cases hl : s.lastLog.1 with
    | none => exact readable ⟨hl, hp.symm⟩
    | some =>
      rw [becomeCandidate_role voter current term hl, ← hp] at hc
      cases hc
  · rintro (parked | voter | term | ⟨hl, role⟩)
    · exact refusesCampaign_of_guard (Or.inr (Or.inl (pending.superseded h.inv h.1 parked)))
    · exact refusesCampaign_of_guard (Or.inl voter)
    · exact refusesCampaign_of_guard (Or.inr (Or.inr term))
    · exact refusesCampaign_of_unreadable hl role

end Endpoint

namespace Tape

/-- An append of a normal entry, a merge commit and a configuration change, all
committed. -/
def mergeParked : List (Call Nat tape) :=
  [.message 0 0 (.appendEntries ⟨1, 0, 0, 0,
    [⟨1, 1, .normal [1]⟩, ⟨1, 2, .commitMerge⟩, ⟨1, 3, .confChange (some ⟨.auto, [⟨.removeNode, 2⟩]⟩)⟩], 3⟩)]

theorem mergeParked_refuses : ((node (config {0, 1, 2} 1)).execs mergeParked).RefusesCampaign :=
  (Endpoint.refusesCampaign_iff
    ⟨by decide +kernel, _, 0, fun _ => True, ⟨0, fun _ => 0, mergeParked, rfl⟩, .refl⟩
    ⟨3, ⟨1, 3, .confChange (some ⟨.auto, [⟨.removeNode, 2⟩]⟩)⟩, by decide +kernel⟩).mpr
    (Or.inl (by decide +kernel))

/-- An append of a normal entry and a configuration change, both committed; the
change is cold. -/
def coldChange : List (Call Nat tape) :=
  [reads (· == 2), .message 0 0 (.appendEntries ⟨1, 0, 0, 0,
    [⟨1, 1, .normal [1]⟩, ⟨1, 2, .confChange (some ⟨.auto, [⟨.removeNode, 2⟩]⟩)⟩], 2⟩)]

/-- The follower has committed the removal of node 2, and its election timer
makes it a candidate that asks node 2 for a vote. -/
theorem coldChange_campaigns :
    ((node (config {0, 1, 2} 1)).execs coldChange).applied = 1 ∧
    ((node (config {0, 1, 2} 1)).execs coldChange).commit = 2 ∧
    (((node (config {0, 1, 2} 1)).execs coldChange).log.visible.get 2).map (·.kind) =
      some (.confChange (some ⟨.auto, [⟨.removeNode, 2⟩]⟩)) ∧
    ((node (config {0, 1, 2} 1)).execs coldChange).role = .follower ∧
    ((node (config {0, 1, 2} 1)).execs (coldChange ++ [.timeout 30])).role = .candidate ∧
    ⟨2, .requestVote ⟨2, 1, 2, 1, false, false⟩⟩ ∈
      ((node (config {0, 1, 2} 1)).execs (coldChange ++ [.timeout 30])).outgoing := by
  decide +kernel

end Tape

end Sailing
