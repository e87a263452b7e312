import Sailing.Node.Ids
import Sailing.Step.Keeps
import Sailing.Lib.Voting

/-!
# Votes and their durability

`Ballots` is what the votes of a node depend on: its term, vote and role, the
ballots of the stable store's images, and the bookkeeping that says which of
them is durable. `VoteInv` is the invariant behind the gates on vote responses,
on leadership and on acknowledgements: whatever is released was durable.
-/

namespace Sailing

open List (mem_map mem_singleton mem_append)

open Voting (Ballot Le)

variable {I : Type} [LinearOrder I] {M : StateMachine}

structure Ballots (I : Type) where
  me : I
  role : Role
  term : Term
  votedFor : Option I
  pending : List (OpId × Pending I)
  durableTerm : Term
  lastSubmittedTerm : Term
  termPersistOpid : OpId
  nextOpId : OpId
  saved : Ballot I
  staged : List (Ballot I × StableDone)
  done : List OpId

namespace Ballots

/-- The durable ballot, then the staged ones. -/
def kept (b : Ballots I) : List (Ballot I) := Fifo.images b.saved b.staged

def newest (b : Ballots I) : Ballot I := Fifo.newest b.saved b.staged

/-- The ballots a crash can leave once the write `id` is durable. -/
def since (b : Ballots I) (id : OpId) : List (Ballot I) := Fifo.since b.saved b.staged (.wrote id)

def current (b : Ballots I) : Ballot I := (b.term, b.votedFor)

/-- The write a pending vote waits for makes exactly this vote durable. -/
def Owed (b : Ballots I) (id : OpId) : Pending I → Prop
  | .castVote c t => t = b.term ∧ b.votedFor = some c ∧ ∀ x ∈ b.since id, x = (t, some c)
  | .campaign t => t = b.term ∧ b.votedFor = some b.me ∧ ∀ x ∈ b.since id, x = (t, some b.me)
  | _ => False

/-- No self-vote of this term waits for its write. -/
def selfVoteDurable (b : Ballots I) : Bool := !b.pending.any fun p => p.2 == .campaign b.term

/-- What holds of the store whether the node is alive or not. -/
structure Stored (b : Ballots I) : Prop where
  ids : Ids (b.staged.map (·.2.id)) b.done b.nextOpId
  ordered : b.kept.Pairwise Le

end Ballots

/-- The invariant of a live node's votes. -/
structure VoteInv (b : Ballots I) : Prop where
  current : ∀ x ∈ b.kept, Le x b.current
  owed : ∀ p ∈ b.pending, b.Owed p.1 p.2
  candidate : b.role = .candidate → 0 < b.term ∧ b.votedFor = some b.me ∧
    (b.selfVoteDurable = true → ∀ x ∈ b.kept, x = (b.term, some b.me))
  leader : b.role = .leader → 0 < b.term ∧ b.votedFor = some b.me ∧
    ∀ x ∈ b.kept, x = (b.term, some b.me)
  durable : ∀ x ∈ b.kept, b.durableTerm ≤ x.1
  submitted : ∀ x ∈ b.since b.termPersistOpid, b.lastSubmittedTerm ≤ x.1

namespace Ballots

/-- A write submitted under the next id. -/
def push (b : Ballots I) (x : Ballot I) (done : OpId → StableDone) : Ballots I :=
  { b with staged := b.staged ++ [(x, done b.nextOpId)], nextOpId := b.nextOpId.next }

/-- A write of a hard state, noted in the bookkeeping. -/
def submit (b : Ballots I) (x : Ballot I) : Ballots I :=
  { b.push x .wrote with
    lastSubmittedTerm := if b.lastSubmittedTerm < x.1 then x.1 else b.lastSubmittedTerm
    termPersistOpid := if b.lastSubmittedTerm < x.1 then b.nextOpId else b.termPersistOpid }

variable {b : Ballots I}

omit [LinearOrder I] in
theorem newest_mem_kept : b.newest ∈ b.kept := Fifo.newest_mem_images

omit [LinearOrder I] in
theorem newest_mem_since (id : OpId) : b.newest ∈ b.since id := Fifo.newest_mem_since

omit [LinearOrder I] in
theorem kept_push (x : Ballot I) (w : OpId → StableDone) : (b.push x w).kept = b.kept ++ [x] := by
  simp [kept, push, Fifo.images_append]

variable {x : Ballot I}

omit [LinearOrder I] in
theorem mem_since_push {y : Ballot I} {w : OpId → StableDone} {id : OpId}
    (h : y ∈ (b.push x w).since id) : y ∈ b.since id ∨ y = x := by
  have := Fifo.mem_since_append h
  simpa [since, push] using this

omit [LinearOrder I] in
/-- What surfaced as done is no longer staged, and neither is what came
before. -/
theorem Stored.since_of_done (h : b.Stored) {a id : OpId} (ha : a ∈ b.done) (hid : id.le a = true) :
    b.since id = b.kept := by
  refine Fifo.since_of_notMem fun ht => ?_
  refine h.ids.notMem_staged ha hid ?_
  obtain ⟨p, hp, hpe⟩ := mem_map.mp ht
  exact mem_map.mpr ⟨p, hp, by rw [hpe]; rfl⟩

omit [LinearOrder I] in
theorem Stored.fresh_notMem (h : b.Stored) : StableDone.wrote b.nextOpId ∉ Fifo.tags b.staged := by
  intro ht
  refine h.ids.bound_notMem (List.mem_append_right _ ?_)
  obtain ⟨p, hp, hpe⟩ := mem_map.mp ht
  exact mem_map.mpr ⟨p, hp, by rw [hpe]; rfl⟩

omit [LinearOrder I] in
theorem Stored.since_fresh (h : b.Stored) (x : Ballot I) : (b.push x .wrote).since b.nextOpId = [x] :=
  Fifo.since_fresh (r := []) h.fresh_notMem (by simp [Fifo.tags])

omit [LinearOrder I] in
theorem Stored.le_newest (h : b.Stored) (hx : x ∈ b.kept) : Le x b.newest := by
  unfold kept newest at *
  rcases List.eq_nil_or_concat b.staged with hs | ⟨l, ⟨y, d⟩, hs⟩
  · rw [hs] at hx ⊢
    simp only [Fifo.images, List.map_nil, mem_singleton] at hx
    simp [Fifo.newest, hx, Le.refl]
  have ho := h.ordered
  unfold kept at ho
  rw [hs, List.concat_eq_append] at hx ho ⊢
  rw [Fifo.images_append] at hx ho
  rcases mem_append.mp hx with hx | hx
  · simpa using (List.pairwise_append.mp ho).2.2 x hx y (by simp)
  · simp only [List.map_cons, List.map_nil, mem_singleton] at hx
    simp [Fifo.newest, hx, Le.refl]

omit [LinearOrder I] in
theorem Stored.saved_le (h : b.Stored) (hx : x ∈ b.kept) : Le b.saved x := by
  rcases List.mem_cons.mp hx with rfl | hx
  · exact Le.refl _
  · exact (List.pairwise_cons.mp h.ordered).1 x hx

omit [LinearOrder I] in
theorem Stored.vote (h : b.Stored) (c : Option I) : Stored { b with votedFor := c } := ⟨h.ids, h.ordered⟩

omit [LinearOrder I] in
theorem Stored.push (h : b.Stored) (mint : b.nextOpId.next ≠ b.nextOpId)
    {w : OpId → StableDone} (hd : ∀ id, (w id).id = id) (hx : Le b.newest x) :
    (b.push x w).Stored where
  ids := by
    have := h.ids.submit mint
    simpa [Ballots.push, hd] using this
  ordered := by
    rw [kept_push, List.pairwise_append]
    refine ⟨h.ordered, List.pairwise_singleton _ _, fun a ha c hc => ?_⟩
    rw [mem_singleton.mp hc]
    exact (h.le_newest ha).trans hx

end Ballots

namespace VoteInv

variable {b : Ballots I}

theorem newest_le (h : VoteInv b) : Le b.newest b.current := h.current _ Ballots.newest_mem_kept

variable {x : Ballot I}

section

variable (h : VoteInv b)

include h

theorem push {w : OpId → StableDone} (hx : x = b.newest ∨ x = b.current) : VoteInv (b.push x w) := by
  have hle : b.newest.1 ≤ x.1 := by
    rcases hx with rfl | rfl
    · exact le_rfl
    · exact h.newest_le.term_le
  have mem : ∀ y ∈ (b.push x w).kept, y ∈ b.kept ∨ y = x := fun y hy => by
    rw [Ballots.kept_push] at hy
    simpa using hy
  -- a ballot all of the newer writes agree on is also the new one's
  have same : ∀ id c, b.votedFor = some c → (∀ y ∈ b.since id, y = (b.term, some c)) →
      ∀ y ∈ (b.push x w).since id, y = (b.term, some c) := by
    intro id c hc hs y hy
    rcases Ballots.mem_since_push hy with hy | rfl
    · exact hs y hy
    rcases hx with rfl | rfl
    · exact hs _ (Ballots.newest_mem_since id)
    · exact Prod.ext rfl hc
  have all : ∀ c, b.votedFor = some c → (∀ y ∈ b.kept, y = (b.term, some c)) →
      ∀ y ∈ (b.push x w).kept, y = (b.term, some c) := by
    intro c hc hs y hy
    rcases mem y hy with hy | rfl
    · exact hs y hy
    rcases hx with rfl | rfl
    · exact hs _ Ballots.newest_mem_kept
    · exact Prod.ext rfl hc
  refine ⟨fun y hy => ?_, fun p hp => ?_, fun hr => ?_, fun hr => ?_, fun y hy => ?_, fun y hy => ?_⟩
  · rcases mem y hy with hy | rfl
    · exact h.current y hy
    · rcases hx with rfl | rfl
      · exact h.newest_le
      · exact Le.refl _
  · have ho := h.owed p hp
    revert ho
    cases p.2 with
    | castVote c => exact fun ⟨ht, hv, hs⟩ => ⟨ht, hv, ht ▸ same p.1 c hv (ht ▸ hs)⟩
    | campaign => exact fun ⟨ht, hv, hs⟩ => ⟨ht, hv, ht ▸ same p.1 b.me hv (ht ▸ hs)⟩
    | followerAck => exact id
    | leaderAppend => exact id
  · obtain ⟨h0, hv, hs⟩ := h.candidate hr
    exact ⟨h0, hv, fun hd => all b.me hv (hs hd)⟩
  · obtain ⟨h0, hv, hs⟩ := h.leader hr
    exact ⟨h0, hv, all b.me hv hs⟩
  · rcases mem y hy with hy | rfl
    · exact h.durable y hy
    · exact (h.durable _ Ballots.newest_mem_kept).trans hle
  · rcases Ballots.mem_since_push hy with hy | rfl
    · exact h.submitted y hy
    · exact (h.submitted _ (Ballots.newest_mem_since _)).trans hle

theorem submit (hs : b.Stored) (hx : x = b.newest ∨ x = b.current) : VoteInv (b.submit x) := by
  have hp := h.push (w := .wrote) hx
  refine ⟨hp.current, hp.owed, hp.candidate, hp.leader, hp.durable, fun y hy => ?_⟩
  by_cases hlt : b.lastSubmittedTerm < x.1
  · have hy' : y ∈ (b.push x .wrote).since b.nextOpId := by
      simpa [Ballots.submit, Ballots.since, hlt] using hy
    rw [hs.since_fresh, mem_singleton] at hy'
    simp [Ballots.submit, hlt, hy']
  · have hy' : y ∈ (b.push x .wrote).since b.termPersistOpid := by
      simpa [Ballots.submit, Ballots.since, hlt] using hy
    simpa [Ballots.submit, Ballots.push, hlt] using hp.submitted y hy'

theorem vote {c : I} (free : b.votedFor = none ∨ b.votedFor = some c) : VoteInv { b with votedFor := some c } := by
  -- whoever has voted has voted for `c`
  have hc : ∀ c', b.votedFor = some c' → some c = some c' := fun c' hc' => by
    rcases free with hf | hf
    · rw [hf] at hc'
      cases hc'
    · exact hf.symm.trans hc'
  refine ⟨fun x hx => (h.current x hx).trans (.inr ⟨rfl, free⟩), fun p hp => ?_, fun hr => ?_,
    fun hr => ?_, h.durable, h.submitted⟩
  · have ho := h.owed p hp
    revert ho
    cases p.2 with
    | castVote c' => exact fun ⟨ht, hv, hs⟩ => ⟨ht, hc c' hv, hs⟩
    | campaign => exact fun ⟨ht, hv, hs⟩ => ⟨ht, hc b.me hv, hs⟩
    | followerAck => exact id
    | leaderAppend => exact id
  · obtain ⟨h0, hv, hs⟩ := h.candidate hr
    exact ⟨h0, hc b.me hv, hs⟩
  · obtain ⟨h0, hv, hs⟩ := h.leader hr
    exact ⟨h0, hc b.me hv, hs⟩

theorem cast (hs : b.Stored) {c : I} (hc : b.votedFor = some c) : VoteInv { b.submit (b.term, some c) with
      pending := b.pending ++ [(b.nextOpId, .castVote c b.term)] } := by
  have h' := h.submit hs (x := (b.term, some c)) (.inr (Prod.ext rfl hc.symm))
  refine ⟨h'.current, fun p hp => ?_, fun hr => ?_, h'.leader, h'.durable, h'.submitted⟩
  · rcases mem_append.mp hp with hp | hp
    · exact h'.owed p hp
    · rw [mem_singleton.mp hp]
      refine ⟨rfl, hc, fun x hx => ?_⟩
      have hx' : x ∈ (b.push (b.term, some c) .wrote).since b.nextOpId := hx
      rw [hs.since_fresh] at hx'
      exact mem_singleton.mp hx'
  · obtain ⟨h0, hv, hall⟩ := h'.candidate hr
    refine ⟨h0, hv, fun hd => hall ?_⟩
    simpa [Ballots.selfVoteDurable, Ballots.submit, Ballots.push] using hd

theorem campaign (hs : b.Stored) {t : Term} (newer : b.term < t) : VoteInv { { b with
        role := .candidate, term := t, votedFor := some b.me, pending := [] }.submit
          (t, some b.me) with
      pending := [(b.nextOpId, .campaign t)] } := by
  -- as a follower the node could have moved to the new term and voted there
  have h₁ : VoteInv { b with role := .follower, term := t, votedFor := some b.me, pending := [] } :=
    ⟨fun x hx => .inl ((h.current x hx).term_le.trans_lt newer), by simp, by simp, by simp, h.durable, h.submitted⟩
  have h' := h₁.submit ⟨hs.ids, hs.ordered⟩ (x := (t, some b.me)) (.inr rfl)
  refine ⟨h'.current, fun p hp => ?_, fun _ => ⟨Nat.zero_lt_of_lt newer, rfl, fun hd => ?_⟩,
    fun hr => absurd hr (by simp [Ballots.submit, Ballots.push]), h'.durable, h'.submitted⟩
  · rw [mem_singleton.mp hp]
    refine ⟨rfl, rfl, fun x hx => ?_⟩
    have hx' : x ∈ (b.push (t, some b.me) .wrote).since b.nextOpId := hx
    rw [hs.since_fresh] at hx'
    exact mem_singleton.mp hx'
  · simp [Ballots.selfVoteDurable, Ballots.submit, Ballots.push] at hd

theorem eq_of_saved (hs : b.Stored) {v : I} (saved : b.saved = (b.term, some v))
    (hx : x ∈ b.kept) : x = (b.term, some v) := by
  have hle : Le (b.term, some v) x := saved ▸ hs.saved_le hx
  have ht : x.1 = b.term := le_antisymm (h.current x hx).term_le hle.term_le
  exact Prod.ext ht (hle.vote_eq ht)

/-- A pending vote whose write is proven durable is released. -/
theorem settled (hs : b.Stored) {pre post : List (OpId × Pending I)} {id : OpId}
    {p : Pending I} (pending : b.pending = pre ++ (id, p) :: post)
    (proven : ∀ t, p = .campaign t → b.saved = (t, some b.me)) :
    VoteInv { b with pending := pre ++ post } := by
  have hsub : pre ++ post ⊆ b.pending := by
    rw [pending]
    intro q hq
    simp only [mem_append, List.mem_cons] at hq ⊢
    tauto
  refine ⟨h.current, fun q hq => h.owed q (hsub hq), fun hr => ?_, h.leader, h.durable, h.submitted⟩
  obtain ⟨h0, hv, hall⟩ := h.candidate hr
  refine ⟨h0, hv, fun hd x hx => ?_⟩
  by_cases hp : p = .campaign b.term
  · exact h.eq_of_saved hs (proven b.term hp) hx
  refine hall ?_ x hx
  simp only [Ballots.selfVoteDurable, pending, List.any_append, List.any_cons] at hd ⊢
  simpa [hp] using hd

end

end VoteInv

/-! ## What a step does to the votes -/

/-- The steps, as far as the votes are concerned. -/
inductive BallotStep (b : Ballots I) : Ballots I → Prop where
  | keep : BallotStep b b
  | poll {done : List OpId} (fewer : done ⊆ b.done) : BallotStep b { b with done := done }
  | adopt {t : Term} (newer : b.term < t) :
      BallotStep b { b with role := .follower, term := t, votedFor := none, pending := [] }
  | demote {r : Role} (candidate : r ≠ .candidate) (leader : r ≠ .leader) :
      BallotStep b { b with role := r }
  | cast {c : I} (mint : b.nextOpId.next ≠ b.nextOpId)
      (free : b.votedFor = none ∨ b.votedFor = some c) :
      BallotStep b { { b with votedFor := some c }.submit (b.term, some c) with
        pending := b.pending ++ [(b.nextOpId, .castVote c b.term)] }
  | campaign {t : Term} (mint : b.nextOpId.next ≠ b.nextOpId) (newer : b.term < t) :
      BallotStep b { { b with
          role := .candidate, term := t, votedFor := some b.me, pending := [] }.submit
            (t, some b.me) with
        pending := [(b.nextOpId, .campaign t)] }
  | lead (role : b.role = .candidate) (durable : b.saved = (b.term, some b.me)) :
      BallotStep b { b with role := .leader }
  | submit {x : Ballot I} (mint : b.nextOpId.next ≠ b.nextOpId)
      (ballot : x = b.newest ∨ x = b.current) : BallotStep b (b.submit x)
  | snapshot (mint : b.nextOpId.next ≠ b.nextOpId) :
      BallotStep b (b.push b.newest .snapshotWritten)
  | append (mint : b.nextOpId.next ≠ b.nextOpId) :
      BallotStep b { b with nextOpId := b.nextOpId.next }
  | wrote {id : OpId} {done : List OpId} (durable : id ∈ b.done) (fewer : done ⊆ b.done) :
      BallotStep b { b with
        done := done
        durableTerm := if b.durableTerm < b.lastSubmittedTerm ∧ b.termPersistOpid.le id then
          b.lastSubmittedTerm else b.durableTerm }
  | raise : BallotStep b { b with durableTerm := max b.durableTerm b.saved.1 }
  | settled {pre post : List (OpId × Pending I)} {id : OpId} {p : Pending I}
      (pending : b.pending = pre ++ (id, p) :: post)
      (proven : ∀ t, p = .campaign t → b.saved = (t, some b.me)) :
      BallotStep b { b with pending := pre ++ post }
  | forget {pending : List (OpId × Pending I)} (role : b.role = .follower)
      (fewer : pending ⊆ b.pending) : BallotStep b { b with pending := pending }

namespace BallotStep

variable {b b' : Ballots I}

omit [LinearOrder I] in
theorem of_eq (h : b' = b) : BallotStep b b' := h ▸ .keep

theorem stored (st : BallotStep b b') (h : b.Stored) (hv : VoteInv b) : b'.Stored := by
  cases st with
  | keep => exact h
  | poll fewer => exact ⟨h.ids.done_subset fewer, h.ordered⟩
  | adopt | demote | lead | raise | settled | forget => exact ⟨h.ids, h.ordered⟩
  | @cast c mint free =>
    have h' := h.push mint (x := (b.term, some c)) (w := .wrote) (fun _ => rfl) (hv.newest_le.trans (.inr ⟨rfl, free⟩))
    exact ⟨h'.ids, h'.ordered⟩
  | campaign mint newer =>
    have h' := h.push mint (w := .wrote) (fun _ => rfl)
      (x := (_, some b.me)) (.inl (hv.newest_le.term_le.trans_lt newer))
    exact ⟨h'.ids, h'.ordered⟩
  | @submit x mint ballot =>
    have h' := h.push mint (x := x) (w := .wrote) (fun _ => rfl) (by
      rcases ballot with rfl | rfl
      · exact Le.refl _
      · exact hv.newest_le)
    exact ⟨h'.ids, h'.ordered⟩
  | snapshot mint => exact h.push mint (fun _ => rfl) (Le.refl _)
  | append mint => exact ⟨h.ids.mono (.inr (OpId.lt_next mint)), h.ordered⟩
  | wrote _ fewer => exact ⟨h.ids.done_subset fewer, h.ordered⟩

theorem inv (st : BallotStep b b') (h : b.Stored) (hv : VoteInv b) : VoteInv b' := by
  cases st with
  | keep => exact hv
  | poll | append => exact ⟨hv.current, hv.owed, hv.candidate, hv.leader, hv.durable, hv.submitted⟩
  | adopt newer =>
    exact ⟨fun x hx => .inl ((hv.current x hx).term_le.trans_lt newer), by simp, by simp, by simp,
      hv.durable, hv.submitted⟩
  | demote hc hl =>
    exact ⟨hv.current, hv.owed, fun hr => absurd hr hc, fun hr => absurd hr hl, hv.durable, hv.submitted⟩
  | cast mint free => exact (hv.vote free).cast (h.vote _) rfl
  | campaign mint newer => exact hv.campaign h newer
  | lead role durable =>
    obtain ⟨h0, hvote, -⟩ := hv.candidate role
    exact ⟨hv.current, hv.owed, by simp, fun _ => ⟨h0, hvote, fun x => hv.eq_of_saved h durable⟩,
      hv.durable, hv.submitted⟩
  | submit mint ballot => exact hv.submit h ballot
  | snapshot => exact hv.push (.inl rfl)
  | wrote durable =>
    refine ⟨hv.current, hv.owed, hv.candidate, hv.leader, fun x hx => ?_, hv.submitted⟩
    simp only
    split
    · next hle => exact hv.submitted x (h.since_of_done durable hle.2 ▸ hx)
    · exact hv.durable x hx
  | raise =>
    refine ⟨hv.current, hv.owed, hv.candidate, hv.leader, fun x hx => ?_, hv.submitted⟩
    exact max_le (hv.durable x hx) (h.saved_le hx).term_le
  | settled pending proven => exact hv.settled h pending proven
  | forget role fewer =>
    exact ⟨hv.current, fun p hp => hv.owed p (fewer hp), fun hr => absurd (role.symm.trans hr) (by simp),
      fun hr => absurd (role.symm.trans hr) (by simp), hv.durable, hv.submitted⟩

end BallotStep

omit [LinearOrder I] in
theorem StableStore.visible_mem (st : StableStore I) : st.visible ∈ st.images := Fifo.newest_mem_images

/-! ## The votes of an endpoint -/

def Core.ballots (s : Core I M) : Ballots I where
  me := s.config.id
  role := s.role
  term := s.term
  votedFor := s.votedFor
  pending := s.pendingStable
  durableTerm := s.durable.durableTerm
  lastSubmittedTerm := s.durable.lastSubmittedTerm
  termPersistOpid := s.durable.termPersistOpid
  nextOpId := s.nextOpId
  saved := s.stable.durable.ballot
  staged := s.stable.staged.map fun p => (p.1.ballot, p.2)
  done := s.stable.doneIds

namespace Endpoint

def ballots (s : Endpoint I M) : Ballots I := s.core.ballots

variable {s s' : Endpoint I M} {now : Instant}

omit [LinearOrder I] in
theorem ballots_newest : s.ballots.newest = s.stable.visible.ballot := by
  rcases List.eq_nil_or_concat s.stable.staged with h | ⟨l, p, h⟩ <;>
    simp [Ballots.newest, Fifo.newest, ballots, Core.ballots, core, StableStore.visible, h]

omit [LinearOrder I] in
theorem ballots_kept : s.ballots.kept = s.stable.images.map StableImage.ballot := by
  simp [Ballots.kept, Fifo.images, ballots, Core.ballots, core, StableStore.images, Function.comp_def]

omit [LinearOrder I] in
theorem ballots_submitWrite (s : StableStore I) (id : OpId) (hs : HardState I) :
    (s.submitWrite id hs).staged.map (fun p => (p.1.ballot, p.2)) =
      s.staged.map (fun p => (p.1.ballot, p.2)) ++ [((hs.term, hs.vote), .wrote id)] := by
  simp [StableStore.submitWrite, StableImage.ballot]

omit [LinearOrder I] in
theorem ballots_submitSnapshot (s : StableStore I) (id : OpId) (m : SnapshotMeta I) (blob : Bytes) :
    (s.submitSnapshot id m blob).staged.map (fun p => (p.1.ballot, p.2)) =
      s.staged.map (fun p => (p.1.ballot, p.2)) ++ [(s.visible.ballot, .snapshotWritten id)] := by
  simp [StableStore.submitSnapshot, StableImage.ballot]

omit [LinearOrder I] in
theorem Keeps.ballotStep (h : Keeps s s') : BallotStep s.ballots s'.ballots := by
  have he : s'.ballots = { s.ballots with role := s'.role } := by
    simp [ballots, Core.ballots, core, h.config, h.term, h.votedFor, h.pendingStable, h.durable, h.nextOpId, h.stable]
  rw [he]
  rcases h.role with hr | hr
  · rw [hr]
    exact .keep
  · rw [hr]
    exact .demote (by simp) (by simp)

omit [LinearOrder I] in
theorem Acks.ballots (h : Acks s s') : s'.ballots = s.ballots := by
  obtain ⟨l, a, b, c, out, rfl⟩ := h.eq
  rfl

omit [LinearOrder I] in
theorem ballots_noteAppended (id : OpId) : (s.noteAppended id).ballots = s.ballots := by
  unfold noteAppended
  split <;> rfl

omit [LinearOrder I] in
theorem ballots_submitHardState (live : s.poisoned = false) (mint : s.Mintable) :
    s.submitHardState.2.ballots = s.ballots.submit s.ballots.current := by
  rw [submitHardState_eq live mint]
  simp only [ballots, Core.ballots, core, notedHardState, noteSubmitted_eq, ballots_submitWrite,
    Ballots.submit, Ballots.push, Ballots.current]
  rfl

theorem lt_next_of_ne {n : Nat} (h : next n ≠ n) : n < next n := by
  unfold next at h ⊢
  split at h
  · next hn => rw [if_pos hn]; exact Nat.lt_succ_self n
  · exact absurd rfl h

theorem ballots_startCampaign (live : s.poisoned = false) (mint : s.Mintable) :
    (s.startCampaign now).ballots = { { s.ballots with
        role := .candidate, term := next s.term, votedFor := some s.config.id
        pending := [] }.submit (next s.term, some s.config.id) with
      pending := [(s.nextOpId, .campaign (next s.term))] } := by
  rw [startCampaign_eq live mint]
  simp only [ballots, Core.ballots, core, notedHardState, noteSubmitted_eq, ballots_submitWrite,
    Ballots.submit, Ballots.push]
  rfl

omit [LinearOrder I] in
theorem ballots_castVote (live : s.poisoned = false) (mint : s.Mintable) {c : I} :
    (s.castVote now c).ballots = { { s.ballots with votedFor := some c }.submit
        (s.term, some c) with
      pending := s.pendingStable ++ [(s.nextOpId, .castVote c s.term)] } := by
  rw [castVote_eq live mint]
  simp only [ballots, Core.ballots, core, notedHardState, noteSubmitted_eq, ballots_submitWrite,
    Ballots.submit, Ballots.push]
  rfl

theorem ballots_resetLeader : (s.resetLeader now).ballots = { s.ballots with role := .leader } := by
  unfold resetLeader
  rw [setLeader_eq]
  simp only
  split <;> rfl

omit [LinearOrder I] in
theorem ballots_rewrite (live : s.poisoned = false) (mint : s.Mintable)
    (same : s.stable.hardState = s.stable.visible.hardState) :
    (s.mintOpId.2.submitWrite s.nextOpId s.stable.hardState).ballots = s.ballots.submit s.ballots.newest := by
  rw [mintWrite_eq live mint, ballots_newest, same]
  simp only [ballots, Core.ballots, core, noteSubmitted_eq, ballots_submitWrite, Ballots.submit, Ballots.push]
  rfl

omit [LinearOrder I] in
theorem ballots_snapshot (mint : s.Mintable) (m : SnapshotMeta I) (blob : Bytes)
    {sn : SnapshotState I M} : BallotStep s.ballots { s with
      nextOpId := s.nextOpId.next
      stable := s.stable.submitSnapshot s.nextOpId m blob
      snapshot := sn }.ballots := by
  have h := BallotStep.snapshot (b := s.ballots) mint
  simp only [ballots, Core.ballots, core, ballots_submitSnapshot] at h ⊢
  rw [← ballots_newest]
  exact h

omit [LinearOrder I] in
theorem mem_doneIds {id : OpId} {rest : List (Option StableDone)}
    (ready : s.stable.ready = some (.wrote id) :: rest) : id ∈ s.stable.doneIds := by
  simp [StableStore.doneIds, ready, StableDone.id]

omit [LinearOrder I] in
theorem doneIds_subset {d : Option StableDone} {rest : List (Option StableDone)} (ready : s.stable.ready = d :: rest) :
    StableStore.doneIds { s.stable with ready := rest } ⊆ s.stable.doneIds := by
  intro id h
  simp only [StableStore.doneIds, ready, mem_append, List.filterMap_cons] at h ⊢
  rcases h with h | h
  · exact .inl h
  right
  split
  · exact h
  · exact List.mem_cons_of_mem _ h

theorem acceptSnapshotChunk_stable {st st' : StableStore I} {m : SnapshotMeta I}
    {total offset : Nat} {data : Bytes} {n : Option Nat}
    (h : st.acceptSnapshotChunk m total offset data = (n, st')) :
    ∃ staging, st' = { st with staging := staging } := by
  unfold StableStore.acceptSnapshotChunk at h
  split at h
  · exact ⟨st.staging, by cases h; rfl⟩
  simp only at h
  split at h
  · exact ⟨st.staging, by cases h; rfl⟩
  · cases h
    exact ⟨_, rfl⟩

/-- What a dead node's stable store still satisfies. -/
def SameStable (s s' : Endpoint I M) : Prop := s'.stable = s.stable ∧ s'.nextOpId = s.nextOpId

variable {mono : Prop} {inp : Input I}

/-- Every effect is one on the votes, unless it leaves the node dead. -/
theorem Step.ballotStep (st : Step mono now inp s s') :
    BallotStep s.ballots s'.ballots ∨ (s'.poisoned = true ∧ SameStable s s') := by
  cases st with
  | idle h => exact .inl (.of_eq (congrArg Core.ballots h))
  | die => exact .inr ⟨by simp, rfl, rfl⟩
  | junk dead _ _ stable id => exact .inr ⟨dead, stable, id⟩
  | adopt live msg newer =>
    left
    unfold adoptTerm
    rw [setLeader_eq]
    exact .adopt newer
  | follow | stepDown | retire =>
    simp only [followLeader, stepDownToFollower]
    rw [setLeader_eq]
    exact .inl (.demote (r := .follower) (by simp) (by simp))
  | preCampaign =>
    left
    unfold startPreCampaign
    rw [setLeader_eq]
    exact .demote (r := .preCandidate) (by simp) (by simp)
  | campaign live mint voter term =>
    left
    rw [ballots_startCampaign live mint]
    exact .campaign mint (lt_next_of_ne term)
  | cast live mint msg term real free =>
    left
    rw [ballots_castVote live mint]
    exact .cast mint free
  | lead live role won durable =>
    left
    rw [ballots_resetLeader]
    exact .lead role durable
  | write live mint =>
    left
    rw [ballots_submitHardState live mint]
    exact .submit mint (.inr rfl)
  | rewrite live mint same =>
    left
    rw [ballots_rewrite live mint same]
    exact .submit mint (.inl rfl)
  | wrote live ready =>
    left
    rw [noteWrote_eq]
    exact .wrote (mem_doneIds ready) (doneIds_subset ready)
  | raiseHard live durable =>
    subst durable
    exact .inl .raise
  | settled live pending proven =>
    refine .inl (.settled pending fun t ht => ?_)
    subst ht
    simp only [provenBy, Bool.and_eq_true, decide_eq_true_eq] at proven
    exact Prod.ext proven.1.symm proven.2
  | pollStable live ready => exact .inl (.poll (doneIds_subset ready))
  | send =>
    left
    rw [send_eq]
    exact .keep
  | appendOwn live mint | overwrite live mint =>
    simp only [appendOwn_eq live mint, overwrite_eq live mint]
    exact .inl (.append mint)
  | ackAppend | releaseAck | ackSnapshot | ackShortcut | flushShortcut | flushSnapshotGate | flushAppendGate =>
    exact .inl (.of_eq (Acks.ballots (by simp)))
  | appended => exact .inl (.of_eq (ballots_noteAppended _))
  | apply live running entry => exact .inl (Keeps.of_applyEntry live entry).ballotStep
  | capture live mint | beginInstall live mint =>
    simp only [Endpoint.capture, submitSnapshot_eq live mint]
    exact .inl (ballots_snapshot mint _ _)
  | install live role => exact .inl (.forget role (List.filter_subset_self _))
  | receive live msg term chunk =>
    obtain ⟨n, stable, hc, hs⟩ := chunk
    obtain ⟨st, rfl⟩ := acceptSnapshotChunk_stable hc
    exact .inl (.of_eq ((congrArg Core.ballots hs).trans rfl))
  | farewell | confirm | leaseRead | forward | answered | renewLease =>
    exact .inl (Keeps.ballotStep (Sends.keeps (by simp)))
  | _ => exact .inl .keep

end Endpoint

end Sailing
