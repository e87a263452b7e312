import Sailing.Calls.Sending
import Sailing.Node.Invariant

/-!
# Committing and applying, as steps

The apply loop reads runs of the visible log, so every entry it applies is the
one the log holds at its index. Whoever raises the commit index justifies that
once; what follows is the loop.
-/

namespace Sailing.Endpoint

variable {I : Type} [LinearOrder I] {M : StateMachine}
variable {mono : Prop} {now : Instant} {inp : Input I} {s s' : Endpoint I M}

theorem NodeInv.contiguous (h : NodeInv mono s) : s.log.visible.Contiguous := h.log.contiguous _ Cover.visible_mem

theorem Ran.applyBatch (batch : List (Entry I)) (live : s.poisoned = false) (running : s.pendingApply = none)
    (held : ∀ e ∈ batch, s.log.visible.get e.index = some e) :
    Ran mono now inp s (s.applyBatch batch) := by
  induction batch generalizing s with
  | nil => exact Ran.refl s
  | cons e es ih =>
    have he := held e List.mem_cons_self
    unfold Endpoint.applyBatch
    extract_lets s₁
    have h₁ : Ran mono now inp s s₁ := ⟨.single (.apply live running he), Keeps.of_applyEntry live he⟩
    clear_value s₁
    split
    · exact h₁
    next hgo =>
    simp only [not_or, Bool.not_eq_true, Option.isSome_eq_false_iff, Option.isNone_iff_eq_none] at hgo
    refine h₁.trans (ih hgo.1 hgo.2 fun e he => ?_)
    rw [h₁.keeps.log]
    exact held e (List.mem_cons_of_mem _ he)

theorem Ran.applyLoop (start : Index) (fuel : Nat) (running : s.pendingApply = none) (hc : s.log.visible.Contiguous) :
    Ran mono now inp s (Endpoint.applyLoop start fuel s).2 := by
  induction fuel generalizing s with
  | zero => exact Ran.refl s
  | succ fuel ih =>
    unfold Endpoint.applyLoop
    split
    · next hgo =>
      split
      · exact (Sent.poison s _).ran
      · exact Ran.refl s
      · exact Ran.refl s
      next batch _ hread =>
      extract_lets s₁
      have h₁ : Ran mono now inp s s₁ := by
        refine Ran.applyBatch _ hgo.2 running fun e he => ?_
        have hm := List.mem_of_mem_drop ((entries_ready hread).subset he)
        exact (hc.index_of_mem hm).2.2
      clear_value s₁
      split
      · exact h₁
      next hpark =>
      split
      · exact h₁
      refine h₁.trans (ih (by simpa using hpark) ?_)
      rw [h₁.keeps.log]
      exact hc
    · exact Ran.refl s

theorem Ran.applyCommitted (hc : s.log.visible.Contiguous) : Ran mono now inp s s.applyCommitted.2 := by
  unfold Endpoint.applyCommitted
  split
  · exact Ran.refl s
  split
  · exact Ran.refl s
  · next hpark => exact Ran.applyLoop _ _ (by simpa using hpark) hc

theorem Ran.commit {commit : Index} (higher : s.commit ≤ commit)
    (step : s.poisoned = false → Step mono now inp s { s with commit := commit }) :
    Ran mono now inp s { s with commit := commit } :=
  Ran.of_live { Keeps.refl s with commit := higher } fun live => .single (step live)

theorem commitTo_of_lt {n : Index} (h : s.commit < n) : s.commitTo n = { s with commit := n }.commitTo n := by
  unfold Endpoint.commitTo
  rw [if_pos h, if_neg (lt_irrefl _)]

theorem Ran.commitTo {commit : Index} (hc : s.log.visible.Contiguous)
    (step : s.poisoned = false → s.commit < commit → Step mono now inp s { s with commit := commit }) :
    Ran mono now inp s (s.commitTo commit) := by
  unfold Endpoint.commitTo
  extract_lets s₁
  have h₁ : Ran mono now inp s s₁ := by
    unfold s₁
    split
    · next hlt => exact Ran.commit hlt.le fun live => step live hlt
    · exact Ran.refl s
  clear_value s₁
  split
  · exact h₁.trans (Ran.applyCommitted (by rwa [h₁.keeps.log]))
  · exact h₁

theorem Ran.maybeAdvanceCommit (role : s.role = .leader) : Ran mono now inp s (s.maybeAdvanceCommit now) := by
  unfold Endpoint.maybeAdvanceCommit
  split
  · exact Ran.refl s
  simp only
  split
  · next h =>
    rw [logTerm_none h]
    exact (Sent.poison s _).ran
  next h =>
  obtain ⟨rfl, hterm⟩ := logTerm_some h
  split
  · next hgo =>
    split
    · exact Ran.refl _
    · exact Ran.commit hgo.1.le fun live => .commitQuorum live role hgo.1 (hterm.trans hgo.2)
  · exact Ran.refl _

theorem Ran.onProgress (role : s.role = .leader) (hc : s.log.visible.Contiguous) : Ran mono now inp s (s.onProgress now) := by
  have h₁ : Ran mono now inp s (s.maybeAdvanceCommit now) := Ran.maybeAdvanceCommit role
  exact h₁.trans (Ran.applyCommitted (by rwa [h₁.keeps.log]))

end Sailing.Endpoint
