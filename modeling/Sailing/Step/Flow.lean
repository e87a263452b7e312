import Sailing.Model.Tracker
import Mathlib.Logic.Relation

/-!
# The transitions of a peer's progress

`Turn` lists what the endpoint does to the progress of a peer, with what it knows when it
does it; a `Path` is a sequence of turns. Every change of the tracker takes each record
along a path, from the record the peer had or from a fresh one (`Tracker.Moves`).

The next index to send a peer lies above its proven match, and every turn but a probe that
goes back keeps it there. At the last index there is, the next one saturates.
-/

namespace Sailing

theorem self_lt_next {i : Index} (h : i < u64Max) : i < next i := by
  rw [next, if_pos h]
  exact Nat.lt_succ_self i

theorem le_next (i : Index) : i ≤ next i := by
  unfold next
  split
  · exact Nat.le_succ i
  · exact le_rfl

theorem next_pos (i : Index) : 0 < next i := by
  unfold next
  split
  · exact Nat.succ_pos i
  · next h => exact lt_of_lt_of_le (by decide) (not_lt.mp h)

namespace Progress

/-- One transition, as the endpoint makes it. A batch is sent from the next index on, to a
peer that is not paused, when the log is `counted`: every entry stands at its index. Where
`back` holds, a probe may go back below the match. A peer is handed a snapshot that reaches
no further than the `slot` does. -/
inductive Turn (back counted : Prop) (slot : Index) : Progress → Progress → Prop where
  | mark {p : Progress} (paused active : Bool) :
      Turn back counted slot p { p with msgAppFlowPaused := paused, recentActive := active }
  | sent {p : Progress} (last : Index) (bytes : Nat) (free : p.isPaused = false)
      (run : counted → p.nextIndex ≤ last + 1 ∧ (p.nextIndex ≤ last → last < u64Max)) : Turn back counted slot p (p.sentEntries last bytes)
  | probe (p : Progress) : Turn back counted slot p p.becomeProbe
  | replicate (p : Progress) : Turn back counted slot p p.becomeReplicate
  | snapshot (p : Progress) {pending : Index} (total : Nat) (known : pending ≤ slot) : Turn back counted slot p (p.becomeSnapshot pending total)
  | acked (p : Progress) (offset : Nat) : Turn back counted slot p (p.snapshotAcked offset)
  | update (p : Progress) (n : Index) : Turn back counted slot p (p.maybeUpdate n).1
  | freed (p : Progress) : Turn back counted slot p p.freeInflightOnHeartbeat
  | reprobe {p : Progress} (n : Index) (above : back ∨ p.matchIndex < n) :
      Turn back counted slot p (p.becomeProbe.setNextIndex n)

/-- A sequence of transitions. -/
def Path (back counted : Prop) (slot : Index) : Progress → Progress → Prop := Relation.ReflTransGen (Turn back counted slot)

/-- The record of a peer that was just added. -/
def Fresh (p : Progress) : Prop := ∃ n maxMsgs maxBytes, 0 < n ∧ p = new n maxMsgs maxBytes

variable {p q : Progress} {back counted : Prop} {slot : Index}

theorem Turn.path (h : Turn back counted slot p q) : Path back counted slot p q := Relation.ReflTransGen.single h

theorem Path.refl (p : Progress) : Path back counted slot p p := Relation.ReflTransGen.refl

theorem Turn.weaken {back' counted' : Prop} {slot' : Index} (h : Turn back counted slot p q) (hb : back → back')
    (hc : counted' → counted) (hs : slot ≤ slot') : Turn back' counted' slot' p q := by
  cases h with
  | mark paused active => exact .mark paused active
  | sent last bytes free run => exact .sent last bytes free fun c => run (hc c)
  | probe => exact .probe p
  | replicate => exact .replicate p
  | snapshot total known => exact .snapshot p total (known.trans hs)
  | acked offset => exact .acked p offset
  | update n => exact .update p n
  | freed => exact .freed p
  | reprobe n above => exact .reprobe n (above.imp_left hb)

theorem Path.weaken {back' counted' : Prop} {slot' : Index} (h : Path back counted slot p q) (hb : back → back')
    (hc : counted' → counted) (hs : slot ≤ slot') : Path back' counted' slot' p q := by
  induction h with
  | refl => exact .refl p
  | tail _ turn ih => exact Relation.ReflTransGen.tail ih (turn.weaken hb hc hs)

theorem Path.trans {r : Progress} (h : Path back counted slot p q) (k : Path back counted slot q r) : Path back counted slot p r :=
  Relation.ReflTransGen.trans h k

/-- The peer is probed above its match. -/
def Ahead (p : Progress) : Prop := p.matchIndex < u64Max → p.matchIndex < p.nextIndex

theorem ahead_new {n : Index} (h : 0 < n) (maxMsgs maxBytes : Nat) : (new n maxMsgs maxBytes).Ahead := fun _ => h

theorem ahead_becomeProbe (p : Progress) : p.becomeProbe.Ahead := fun h => self_lt_next h

theorem ahead_becomeReplicate (p : Progress) : p.becomeReplicate.Ahead := fun h => self_lt_next h

theorem ahead_becomeSnapshot (h : p.Ahead) (pending : Index) (total : Nat) : (p.becomeSnapshot pending total).Ahead := by
  unfold becomeSnapshot
  split
  · exact ahead_becomeProbe p
  · exact h

theorem ahead_snapshotAcked (h : p.Ahead) (offset : Nat) : (p.snapshotAcked offset).Ahead := by
  unfold snapshotAcked
  split <;> exact h

theorem ahead_freeInflightOnHeartbeat (h : p.Ahead) : p.freeInflightOnHeartbeat.Ahead := by
  unfold freeInflightOnHeartbeat
  split <;> exact h

theorem ahead_sentEntries (h : p.Ahead) (last : Index) (bytes : Nat) : (p.sentEntries last bytes).Ahead := by
  unfold sentEntries
  split
  · exact h
  · intro low
    have above := h low
    simp only
    split
    · next sent => exact above.trans_le (sent.trans (le_next last))
    · exact above
  · exact h

theorem ahead_maybeUpdate (h : p.Ahead) (n : Index) : (p.maybeUpdate n).1.Ahead := by
  have moved : { p with
      matchIndex := max p.matchIndex n
      nextIndex := if p.nextIndex ≤ n then next n else p.nextIndex
      inflight := p.inflight.freeLe n
      msgAppFlowPaused := false }.Ahead := by
    intro low
    obtain ⟨own, acked⟩ := max_lt_iff.mp low
    have above := h own
    simp only
    split
    · next behind => exact max_lt (above.trans_le (behind.trans (le_next n))) (self_lt_next acked)
    · next past => exact max_lt above (not_le.mp past)
  unfold maybeUpdate
  simp only
  split
  · split
    · exact ahead_becomeProbe _
    · exact moved
  · exact moved

theorem Turn.ahead (h : Turn back counted slot p q) (named : ¬ back) (ahead : p.Ahead) : q.Ahead := by
  cases h with
  | mark => exact ahead
  | sent last bytes => exact ahead_sentEntries ahead last bytes
  | probe => exact ahead_becomeProbe p
  | replicate => exact ahead_becomeReplicate p
  | snapshot total => exact ahead_becomeSnapshot ahead _ total
  | acked offset => exact ahead_snapshotAcked ahead offset
  | update n => exact ahead_maybeUpdate ahead n
  | freed => exact ahead_freeInflightOnHeartbeat ahead
  | reprobe n above => exact fun _ => above.resolve_left named

theorem Path.ahead (h : Path back counted slot p q) (named : ¬ back) (ahead : p.Ahead) : q.Ahead := by
  induction h with
  | refl => exact ahead
  | tail _ turn ih => exact turn.ahead named ih

theorem Fresh.ahead (h : p.Fresh) : p.Ahead := by
  obtain ⟨n, maxMsgs, maxBytes, pos, rfl⟩ := h
  exact ahead_new pos maxMsgs maxBytes

end Progress

variable {I : Type} [LinearOrder I]

namespace Tracker

variable {adds back counted : Prop} {slot : Index} {t t' t'' : Tracker I}

/-- Every member is probed above its match. -/
def Ahead (t : Tracker I) : Prop := ∀ id p, t.progress id = some p → p.Ahead

/-- Every record was just added. -/
def Fresh (t : Tracker I) : Prop := ∀ id p, t.progress id = some p → p.Fresh

/-- Every record comes, by its transitions, from the record the peer had or, where `adds` holds, from a fresh one. -/
def Moves (adds back counted : Prop) (slot : Index) (t t' : Tracker I) : Prop :=
  ∀ id q, t'.progress id = some q →
    ∃ p, (t.progress id = some p ∨ adds ∧ p.Fresh) ∧ Progress.Path back counted slot p q

omit [LinearOrder I] in
theorem Fresh.ahead (h : t.Fresh) : t.Ahead := fun id p hp => (h id p hp).ahead

omit [LinearOrder I] in
theorem Moves.ahead (h : t.Moves adds back counted slot t') (ahead : t.Ahead) : t'.Ahead ∨ back := by
  by_cases named : back
  · exact .inr named
  refine .inl fun id q hq => ?_
  obtain ⟨p, from_, path⟩ := h id q hq
  exact path.ahead named (from_.elim (ahead id p) fun fresh => fresh.2.ahead)

omit [LinearOrder I] in
theorem Moves.of_progress (h : t'.progress = t.progress) : t.Moves adds back counted slot t' := by
  intro id q hq
  rw [h] at hq
  exact ⟨q, .inl hq, .refl q⟩

omit [LinearOrder I] in
theorem Moves.refl (t : Tracker I) : t.Moves adds back counted slot t := Moves.of_progress rfl

omit [LinearOrder I] in
theorem Moves.trans (h : t.Moves adds back counted slot t') (k : t'.Moves adds back counted slot t'') : t.Moves adds back counted slot t'' := by
  intro id r hr
  obtain ⟨q, from_, later⟩ := k id r hr
  rcases from_ with held | fresh
  · obtain ⟨p, from_, path⟩ := h id q held
    exact ⟨p, from_, path.trans later⟩
  · exact ⟨q, .inr fresh, later⟩

omit [LinearOrder I] in
theorem Moves.of_fresh (allowed : adds) (h : t'.Fresh) : t.Moves adds back counted slot t' :=
  fun id q hq => ⟨q, .inr ⟨allowed, h id q hq⟩, .refl q⟩

omit [LinearOrder I] in
theorem Moves.weaken {adds' back' counted' : Prop} {slot' : Index} (h : t.Moves adds back counted slot t') (ha : adds → adds')
    (hb : back → back') (hc : counted' → counted) (hs : slot ≤ slot') : t.Moves adds' back' counted' slot' t' := by
  intro id q hq
  obtain ⟨p, from_, path⟩ := h id q hq
  exact ⟨p, from_.imp_right fun fresh => ⟨ha fresh.1, fresh.2⟩, path.weaken hb hc hs⟩

theorem Moves.modifyProgress {id : I} {f : Progress → Progress}
    (hf : ∀ p, t.progress id = some p → Progress.Path back counted slot p (f p)) :
    t.Moves adds back counted slot (t.modifyProgress id f) := by
  intro v q hq
  simp only [Tracker.modifyProgress, Function.update_apply] at hq
  split at hq
  · next same =>
    obtain ⟨p, hp, rfl⟩ := Option.map_eq_some_iff.mp hq
    exact ⟨p, .inl (same ▸ hp), hf p hp⟩
  · exact ⟨q, .inl hq, .refl q⟩

theorem Moves.resetRecentActive (t : Tracker I) (leader : I) : t.Moves adds back counted slot (t.resetRecentActive leader) := by
  intro v q hq
  obtain ⟨p, hp, rfl⟩ := Option.map_eq_some_iff.mp hq
  exact ⟨p, .inl hp, (Progress.Turn.mark p.msgAppFlowPaused _).path⟩

/-- Every record is the one the peer had, or the given new one. -/
def Replaces (new : Progress) (t t' : Tracker I) : Prop :=
  ∀ id q, t'.progress id = some q → t.progress id = some q ∨ q = new

variable {new : Progress}

omit [LinearOrder I] in
theorem Replaces.of_progress (h : t'.progress = t.progress) : t.Replaces new t' := fun _ _ hq => .inl (h ▸ hq)

omit [LinearOrder I] in
theorem Replaces.refl (t : Tracker I) : t.Replaces new t := .of_progress rfl

omit [LinearOrder I] in
theorem Replaces.trans (h : t.Replaces new t') (k : t'.Replaces new t'') : t.Replaces new t'' := by
  intro id q hq
  rcases k id q hq with held | fresh
  · exact h id q held
  · exact .inr fresh

omit [LinearOrder I] in
theorem Replaces.moves (h : t.Replaces new t') (fresh : new.Fresh) : t.Moves True back counted slot t' := by
  intro id q hq
  rcases h id q hq with held | rfl
  · exact ⟨q, .inl held, .refl q⟩
  · exact ⟨q, .inr ⟨trivial, fresh⟩, .refl q⟩

theorem Replaces.update {id : I} {x : Option Progress} (progress : t'.progress = Function.update t.progress id x)
    (hx : ∀ q, x = some q → t.progress id = some q ∨ q = new) : t.Replaces new t' := by
  intro v q hq
  rw [progress, Function.update_apply] at hq
  split at hq
  · next same => exact same ▸ hx q hq
  · exact .inl hq

theorem fresh_fromConfState (cs : ConfState I) (last : Index) (maxMsgs maxBytes : Nat) :
    (fromConfState cs last maxMsgs maxBytes).Fresh := by
  intro v q hq
  simp only [fromConfState] at hq
  split at hq
  · exact ⟨_, _, _, next_pos last, (Option.some.inj hq).symm⟩
  · cases hq

theorem fresh_resetProgress (t : Tracker I) (last : Index) (maxMsgs maxBytes : Nat) :
    (t.resetProgress (next last) maxMsgs maxBytes).Fresh := by
  intro v q hq
  simp only [resetProgress] at hq
  split at hq
  · exact ⟨_, _, _, next_pos last, (Option.some.inj hq).symm⟩
  · cases hq

end Tracker

namespace Changer

open Tracker

variable {c : Changer} {t t' : Tracker I}

/-- The record of a peer that a change adds. -/
def added (c : Changer) : Progress := Progress.new (max c.lastIndex 1) c.maxInflightMsgs c.maxInflightBytes

theorem fresh_added (c : Changer) : c.added.Fresh := ⟨_, _, _, lt_of_lt_of_le Nat.one_pos (le_max_right _ _), rfl⟩

theorem replaces_initProgress (t : Tracker I) (id : I) (isLearner : Bool) :
    t.Replaces c.added (c.initProgress t id isLearner) := by
  have new : ∀ q, some c.added = some q → t.progress id = some q ∨ q = c.added :=
    fun q hq => .inr (Option.some.inj hq).symm
  unfold initProgress
  cases isLearner
  · exact Replaces.update rfl new
  · exact Replaces.update rfl new

theorem replaces_makeVoter (t : Tracker I) (id : I) : t.Replaces c.added (c.makeVoter t id) := by
  unfold makeVoter
  split
  · exact replaces_initProgress t id false
  · exact Replaces.of_progress rfl

theorem replaces_remove (t : Tracker I) (id : I) : t.Replaces c.added (c.remove t id) := by
  unfold remove
  split
  · exact Replaces.refl t
  by_cases out : id ∈ t.voters.outgoing.ids
  · exact Replaces.of_progress (if_pos out)
  · exact Replaces.update (if_neg out) (by simp)

/-- The record that a removal may have dropped is put back. -/
theorem replaces_makeLearner (t : Tracker I) (id : I) : t.Replaces c.added (c.makeLearner t id) := by
  unfold makeLearner
  cases old : t.progress id with
  | none => exact replaces_initProgress t id true
  | some =>
    dsimp -zeta only
    split
    · exact Replaces.refl t
    extract_lets removed restored
    have hr : t.Replaces c.added removed := replaces_remove t id
    have ht : t.Replaces c.added restored := by
      unfold restored
      split
      · intro v q hq
        simp only [Function.update_apply] at hq
        split at hq
        · next same =>
          obtain rfl := Option.some.inj hq
          exact .inl (same ▸ old)
        · exact hr v q hq
      · exact hr
    clear_value restored
    split <;> exact ht.trans (Replaces.of_progress rfl)

theorem replaces_foldl (changes : List (ConfChangeSingle I)) (t : Tracker I) :
    t.Replaces c.added (changes.foldl c.applyOne t) := by
  induction changes generalizing t with
  | nil => exact Replaces.refl t
  | cons cc rest ih =>
    refine Replaces.trans ?_ (ih _)
    unfold applyOne
    cases cc.ty
    · exact replaces_makeVoter t cc.node
    · exact replaces_remove t cc.node
    · exact replaces_makeLearner t cc.node

variable {changes : List (ConfChangeSingle I)}

theorem replaces_apply (ok : c.apply t changes = .ok t') : t.Replaces c.added t' := by
  unfold apply at ok
  simp only at ok
  split at ok
  · contradiction
  · obtain rfl := Except.ok.inj ok
    exact replaces_foldl changes t

theorem replaces_checkInvariants (ok : c.checkInvariants t = .ok t') : t.Replaces c.added t' := by
  unfold checkInvariants at ok
  split at ok
  · obtain rfl := Except.ok.inj ok
    exact Replaces.refl t
  · contradiction

theorem replaces_simple (ok : c.simple t changes = .ok t') : t.Replaces c.added t' := by
  unfold simple at ok
  split at ok
  · contradiction
  split at ok
  · contradiction
  next applied =>
  split at ok
  · contradiction
  split at ok
  · contradiction
  · exact (replaces_apply applied).trans (replaces_checkInvariants ok)

theorem replaces_enterJoint {autoLeave : Bool}
    (ok : c.enterJoint t autoLeave changes = .ok t') : t.Replaces c.added t' := by
  unfold enterJoint at ok
  split at ok
  · contradiction
  split at ok
  · contradiction
  split at ok
  · contradiction
  next t₁ applied =>
  have entered : t.Replaces c.added { t with voters := ⟨t.voters.incoming, ⟨t.voters.incoming.ids⟩⟩ } :=
    Replaces.of_progress rfl
  have left : t₁.Replaces c.added { t₁ with autoLeave := autoLeave } := Replaces.of_progress rfl
  exact ((entered.trans (replaces_apply applied)).trans left).trans (replaces_checkInvariants ok)

theorem replaces_leaveJoint (ok : c.leaveJoint t = .ok t') : t.Replaces c.added t' := by
  unfold leaveJoint at ok
  split at ok
  · refine Replaces.trans (fun v q hq => ?_) (replaces_checkInvariants ok)
    simp only at hq
    split at hq
    · contradiction
    · exact .inl hq
  · contradiction

end Changer

end Sailing
