import Sailing.Freeze.Queue

/-!
# Pending freezes over a history

The freeze queue is patched by five paths and never recomputed while an endpoint runs. Over
every history it lists the `PrepareMerge` entries of the log above `applied`, and the endpoint
reports a freeze for as long as one of them is there or an applied one has not been undone. A
restart starts over from its snapshot; the capture fence keeps an applied freeze above it, so the
restarted endpoint finds the entry again.
-/

namespace Sailing.Freeze

open Wire (GeneratedCode)

open State (Exact Emptied Next Freezes Refuses Thaws)

/-! ## Since -/

section

variable {α : Type} {starts ends : List α → α → Prop} {l : List α} {a : α}

/-- Something that started has not ended; both are told from what came before. -/
def Since (starts ends : List α → α → Prop) (l : List α) : Prop :=
  ∃ before a after, l = before ++ a :: after ∧ starts before a ∧
    ∀ now b later, after = now ++ b :: later → ¬ ends (before ++ a :: now) b

theorem since_nil : ¬ Since starts ends [] := by
  rintro ⟨before, a, after, same, -⟩
  cases before <;> cases same

theorem since_concat : Since starts ends (l ++ [a]) ↔ starts l a ∨ Since starts ends l ∧ ¬ ends l a := by
  constructor
  · rintro ⟨before, x, after, same, start, open_⟩
    obtain rfl | ⟨rest, last, rfl⟩ := List.eq_nil_or_concat after
    · obtain ⟨rfl, last⟩ := List.append_inj' same rfl
      cases last
      exact .inl start
    rw [List.concat_eq_append, ← List.cons_append, ← List.append_assoc] at same
    obtain ⟨rfl, one⟩ := List.append_inj' same rfl
    cases one
    refine .inr ⟨⟨before, x, rest, rfl, start, fun now b later split => open_ now b (later ++ [a]) ?_⟩, open_ rest a [] ?_⟩
    · rw [split]
      simp
    · simp
  · rintro (start | ⟨⟨before, x, after, rfl, start, open_⟩, still⟩)
    · refine ⟨l, a, [], rfl, start, fun now b later split => ?_⟩
      cases now <;> cases split
    · refine ⟨before, x, after ++ [a], by simp, start, fun now b later split => ?_⟩
      obtain rfl | ⟨rest, last, rfl⟩ := List.eq_nil_or_concat later
      · obtain ⟨rfl, same⟩ := List.append_inj' split rfl
        cases same
        exact still
      rw [List.concat_eq_append, ← List.cons_append, ← List.append_assoc] at split
      obtain ⟨rfl, -⟩ := List.append_inj' split rfl
      exact open_ now b rest rfl

end

/-! ## One step -/

section

variable {code : GeneratedCode} {s : State}

theorem run_concat (code : GeneratedCode) (s : State) (moves : List Move) (m : Move) :
    run code s (moves ++ [m]) = step code (run code s moves) m := by
  unfold run
  rw [List.foldl_append]
  rfl

def Move.isRestart : Move → Bool
  | .restart _ _ => true
  | _ => false

variable {m : Move} {s' : State}

/-- A poisoned endpoint does nothing more; a scan may still read. -/
theorem dead_step (dead : s.poison.isSome) (running : m.isRestart = false) :
    ∃ cache poison, poison.isSome ∧ step code s m = { s with claimCache := cache, poison := poison } := by
  have idle : ∃ cache poison, poison.isSome ∧ s = { s with claimCache := cache, poison := poison } :=
    ⟨s.claimCache, s.poison, dead, rfl⟩
  cases m with
  | restart => cases running
  | scanFreezeClaims readable =>
    obtain ⟨cache, same⟩ := State.scan_state code s readable
    exact ⟨cache, s.poison, dead, same⟩
  | fault => exact ⟨s.claimCache, (s.fail .elsewhere).poison, State.fail_poison _ _, rfl⟩
  | propose => simpa only [step, State.propose, dead, if_true] using idle
  | onAppendEntries =>
    simpa only [step, State.onAppendEntries, dead, true_or, if_true] using idle
  | commitTo => simpa only [step, State.commitTo, dead, if_true] using idle
  | applyNext => simpa only [step, State.applyNext, dead, true_or, if_true] using idle
  | install => simpa only [step, State.install, dead, if_true] using idle
  | adoptParkedUnion => simpa only [step, State.adoptParkedUnion, dead, true_or, if_true] using idle
  | maybeSnapshot => simpa only [step, State.maybeSnapshot, dead, true_or, if_true] using idle
  | compact => simpa only [step, State.compact, dead, true_or, if_true] using idle

/-- A call keeps the queue exact, unless it applies a freeze and refuses it. -/
theorem exact_step (h : s.Exact) (running : m.isRestart = false) :
    (step code s m).Exact ∨ ((∃ other, m = .applyNext other) ∧ ∃ e, s.Next e ∧ Refuses code e) ∧ (step code s m).Emptied := by
  cases m with
  | restart => cases running
  | scanFreezeClaims readable =>
    obtain ⟨cache, same⟩ := State.scan_state code s readable
    rw [step, same]
    exact .inl ⟨h.whole, h.above, h.within, h.committed, h.captured, h.queue⟩
  | fault => exact .inl (h.fail _)
  | propose entry =>
    refine .inl ?_
    obtain same | ⟨e, cache, a, same⟩ := State.propose_cases h entry
    · rwa [step, same]
    · rw [step, same]
      exact a.exact h
  | onAppendEntries prev entries leaderCommit =>
    refine .inl ?_
    obtain same | ⟨reason, same⟩ | ⟨commit, rise, same⟩ | ⟨e, suffix, cut, commit, cache, -, -, a, same⟩ :=
      State.onAppendEntries_cases h prev entries leaderCommit
    · rwa [step, same]
    · rw [step, same]
      exact h.fail reason
    · rw [step, same]
      exact ⟨h.whole, h.above, h.within, h.committed.trans rise, h.captured, h.queue⟩
    · rw [step, same]
      exact a.exact h
  | commitTo index => exact .inl (State.exact_commitTo h index)
  | applyNext other =>
    obtain exact | ⟨refused, emptied⟩ := State.exact_applyNext h other
    · exact .inl exact
    · exact .inr ⟨⟨⟨other, rfl⟩, refused⟩, emptied⟩
  | install boundary shapeGen => exact .inl (State.exact_install h boundary shapeGen)
  | adoptParkedUnion boundary shapeGen => exact .inl (State.exact_adoptParkedUnion h boundary shapeGen)
  | maybeSnapshot => exact .inl (State.exact_maybeSnapshot h)
  | compact upto => exact .inl (State.exact_compact h upto)

theorem emptied_step (h : s.Emptied) (running : m.isRestart = false) : (step code s m).Emptied := by
  obtain ⟨cache, poison, dead, same⟩ := dead_step h.1 running
  rw [same]
  exact ⟨dead, h.2⟩

theorem listed_step (h : s.Exact ∨ s.Emptied) (m : Move) : (step code s m).Exact ∨ (step code s m).Emptied := by
  cases running : m.isRestart with
  | true =>
    cases m with
    | restart kept chunk => exact State.restart_cases kept chunk
    | _ => cases running
  | false =>
    obtain exact | emptied := h
    · exact (exact_step exact running).imp_right And.right
    · exact .inr (emptied_step emptied running)

theorem listed_run (code : GeneratedCode) (moves : List Move) :
    (run code .new moves).Exact ∨ (run code .new moves).Emptied := by
  induction moves using List.reverseRecOn with
  | nil => exact .inl ⟨rfl, le_rfl, le_rfl, le_rfl, le_rfl, rfl⟩
  | append_singleton moves m ih =>
    rw [run_concat]
    exact listed_step ih m

/-! ## Freezes that stand -/

variable (code) in
/-- The step applies a freeze. -/
inductive AppliesFreeze (s : State) : Move → Prop where
  | mk {e : Wire.Entry} (other : Option Nat) : s.Next e → Freezes code e → AppliesFreeze s (.applyNext other)

variable (code) in
/-- The step undoes the applied freeze: its rollback applies, or the endpoint goes on from a
state that has none. -/
inductive Undoes (s : State) : Move → Prop where
  | thaw {e : Wire.Entry} (other : Option Nat) : s.Next e → Thaws code s.shapeGen e → Undoes s (.applyNext other)
  | install (boundary : Index) (shapeGen : Nat) : s.poison = none → Undoes s (.install boundary shapeGen)
  | adopt {boundary : Index} (shapeGen : Nat) : s.poison = none → s.applied < boundary → boundary ≤ s.lastIndex →
      boundary ≤ s.commit → Undoes s (.adoptParkedUnion boundary shapeGen)
  | restart (kept : Kept) (chunk : Index → Option Nat) : Undoes s (.restart kept chunk)

variable (code) in
/-- A freeze was applied and has not been undone since. -/
def Stands (moves : List Move) : Prop :=
  Since (fun before m => AppliesFreeze code (run code .new before) m) (fun before m => Undoes code (run code .new before) m) moves

variable (code) in
/-- The step neither applies a freeze nor undoes one. -/
def Calm (s : State) (m : Move) : Prop := ¬ AppliesFreeze code s m ∧ ¬ Undoes code s m

variable (code) in
/-- What a step does to an endpoint whose queue is exact. -/
inductive Change (s : State) : Move → State → Prop where
  | idle {m : Move} : Calm code s m → Change s m s
  | fail {m : Move} (reason : PoisonReason) : Calm code s m → Change s m (s.fail reason)
  | commit {m : Move} {commit : Index} : Calm code s m → s.commit ≤ commit → Change s m { s with commit := commit }
  | propose {e : Wire.Entry} {cache : Index → Option ClaimRead} (entry : Index → Wire.Entry) :
      s.Appends s.lastIndex s.commit [e] cache → Change s (.propose entry) (s.appended s.lastIndex s.commit [e] cache)
  | accept {prev cut commit : Index} {entries suffix : List Wire.Entry} {e : Wire.Entry} {cache : Index → Option ClaimRead}
      (leaderCommit : Index) : s.Accepts prev entries e suffix → e.index = cut + 1 → s.Appends cut commit (e :: suffix) cache →
      Change s (.onAppendEntries prev entries leaderCommit) (s.appended cut commit (e :: suffix) cache)
  | scan (readable : Index → Bool) : Change s (.scanFreezeClaims readable) (s.scanFreezeClaims code readable).2
  | freeze {e : Wire.Entry} (other : Option Nat) (shapeGen : Nat) : s.Next e → Freezes code e → Change s (.applyNext other)
      { s.popAppliedFreeze e.index with frozen := true, shapeGen := shapeGen, applied := e.index }
  | refuse (other : Option Nat) (reason : PoisonReason) : Calm code s (.applyNext other) →
      Change s (.applyNext other) (s.clearFreezeQueue.fail reason)
  | advance {e : Wire.Entry} {frozen : Bool} (other : Option Nat) (shapeGen : Nat) : s.Next e → e.kind ≠ .prepareMerge →
      (frozen = true ↔ s.frozen = true ∧ ¬ Thaws code s.shapeGen e) →
      Change s (.applyNext other) { s with frozen := frozen, shapeGen := shapeGen, applied := e.index }
  | install (boundary : Index) (shapeGen : Nat) : s.poison = none → Change s (.install boundary shapeGen)
      { s.noteFreezeRebaselined with
        boundary := boundary, log := [], commit := boundary, applied := boundary, captured := boundary, frozen := false
        shapeGen := max s.shapeGen shapeGen }
  | adopt {boundary : Index} (shapeGen : Nat) : s.poison = none → s.applied < boundary → boundary ≤ s.lastIndex →
      boundary ≤ s.commit → Change s (.adoptParkedUnion boundary shapeGen)
      { s with
        applied := boundary, frozen := false, shapeGen := max s.shapeGen shapeGen
        freezeQueue := s.freezeQueue.filter (boundary < ·)
        claimCache := fun i => if boundary < i then s.claimCache i else none }
  | capture : s.frozen = false → Change s .maybeSnapshot { s with captured := s.applied }
  | compact {upto : Index} : upto ≤ s.captured → Change s (.compact upto)
      { s with boundary := upto, log := s.log.drop (upto - s.boundary) }
  | restart (kept : Kept) (chunk : Index → Option Nat) : Change s (.restart kept chunk) (State.restart kept chunk)

theorem change_applyNext (h : s.Exact) (other : Option Nat) :
    Change code s (.applyNext other) (s.applyNext code other) := by
  -- the step decides by the one entry it applies
  have calm {e : Wire.Entry} (next : s.Next e) (apply : ¬ Freezes code e) (undo : ¬ Thaws code s.shapeGen e) :
      Calm code s (.applyNext other) := by
    refine ⟨?_, ?_⟩
    · rintro ⟨_, next', freezes⟩
      rw [next'.unique next] at freezes
      exact apply freezes
    · rintro (⟨_, next', thaws⟩ | _)
      rw [next'.unique next] at thaws
      exact undo thaws
  obtain ⟨none_next, same⟩ | ⟨e, next, ⟨shapeGen, freezes, same⟩ | ⟨reason, ⟨kind, fault, refused⟩, same⟩ | ⟨kind, kept⟩⟩ :=
    State.applyNext_cases code h other
  · rw [same]
    refine .idle ⟨?_, ?_⟩
    · rintro ⟨_, next, -⟩
      exact none_next _ next
    · rintro (⟨_, next, -⟩ | _)
      exact none_next _ next
  · rw [same]
    exact .freeze other shapeGen next freezes
  · rw [same]
    refine .refuse other reason (calm next ?_ ?_)
    · rintro ⟨-, generation, valid⟩
      cases refused.symm.trans valid
    · rintro ⟨rollback, -⟩
      cases kind.symm.trans rollback
  · obtain ⟨reason, still, same⟩ | ⟨frozen, shapeGen, held, same⟩ := kept
    · rw [same]
      exact .fail reason (calm next (fun freezes => kind freezes.1) still)
    · rw [same]
      exact .advance other shapeGen next kind held

theorem change_step (h : s.Exact) (m : Move) : Change code s m (step code s m) := by
  cases m with
  | restart kept chunk => exact .restart kept chunk
  | scanFreezeClaims readable => exact .scan readable
  | fault => exact .fail _ ⟨nofun, nofun⟩
  | applyNext other => exact change_applyNext h other
  | propose entry =>
    obtain same | ⟨e, cache, a, same⟩ := State.propose_cases h entry
    · rw [step, same]
      exact .idle ⟨nofun, nofun⟩
    · rw [step, same]
      exact .propose entry a
  | onAppendEntries prev entries leaderCommit =>
    obtain same | ⟨reason, same⟩ | ⟨commit, rise, same⟩ | ⟨e, suffix, cut, commit, cache, accepts, place, a, same⟩ :=
      State.onAppendEntries_cases h prev entries leaderCommit
    · rw [step, same]
      exact .idle ⟨nofun, nofun⟩
    · rw [step, same]
      exact .fail reason ⟨nofun, nofun⟩
    · rw [step, same]
      exact .commit ⟨nofun, nofun⟩ rise
    · rw [step, same]
      exact .accept leaderCommit accepts place a
  | commitTo index =>
    show Change code s _ (s.commitTo index)
    unfold State.commitTo
    split
    · exact .idle ⟨nofun, nofun⟩
    · exact .commit ⟨nofun, nofun⟩ (le_max_left _ _)
  | install boundary shapeGen =>
    cases alive : s.poison with
    | none =>
      rw [step, State.install, alive]
      exact .install boundary shapeGen alive
    | some =>
      rw [step, State.install, alive]
      refine .idle ⟨nofun, ?_⟩
      rintro (_ | ⟨_, _, now⟩)
      cases alive.symm.trans now
  | adoptParkedUnion boundary shapeGen =>
    by_cases closed : s.poison.isSome ∨ boundary ≤ s.applied ∨ s.lastIndex < boundary ∨ s.commit < boundary
    · rw [step, State.adoptParkedUnion, if_pos closed]
      refine .idle ⟨nofun, ?_⟩
      rintro (_ | _ | ⟨_, alive, ahead, inside, committed⟩)
      obtain dead | low | high | open_ := closed
      · rw [alive] at dead
        cases dead
      · exact absurd ahead (not_lt.mpr low)
      · exact absurd inside (not_le.mpr high)
      · exact absurd committed (not_le.mpr open_)
    · rw [step, State.adoptParkedUnion, if_neg closed]
      simp only [not_or, not_le, not_lt] at closed
      exact .adopt shapeGen (Option.not_isSome_iff_eq_none.mp closed.1) closed.2.1 closed.2.2.1 closed.2.2.2
  | maybeSnapshot =>
    show Change code s _ s.maybeSnapshot
    unfold State.maybeSnapshot
    split
    · exact .idle ⟨nofun, nofun⟩
    next open_ =>
    simp only [State.captureBlockedAt, not_or, Bool.or_eq_true] at open_
    exact .capture (Bool.eq_false_of_not_eq_true open_.2.1)
  | compact upto =>
    show Change code s _ (s.compact upto)
    unfold State.compact
    split
    · exact .idle ⟨nofun, nofun⟩
    · next open_ => exact .compact (not_lt.mp (not_or.mp (not_or.mp open_).2).1)

theorem Calm.frozen (calm : Calm code s m) (keeps : s'.frozen = s.frozen) :
    s'.frozen = true ↔ AppliesFreeze code s m ∨ s.frozen = true ∧ ¬ Undoes code s m := by
  rw [keeps]
  exact ⟨fun held => .inr ⟨held, calm.2⟩, fun either => either.elim (fun now => absurd now calm.1) And.left⟩

theorem Undoes.frozen (undo : Undoes code s m) (apply : ¬ AppliesFreeze code s m) (thawed : s'.frozen = false) :
    s'.frozen = true ↔ AppliesFreeze code s m ∨ s.frozen = true ∧ ¬ Undoes code s m := by
  rw [thawed]
  exact ⟨fun held => absurd held Bool.false_ne_true, fun either => either.elim (fun now => absurd now apply) (fun old => absurd undo old.2)⟩

/-- A restart takes up the stores; only the queue, or a poison, is its own. -/
theorem restart_eq (kept : Kept) (chunk : Index → Option Nat) : ∃ queue poison, State.restart kept chunk =
      ⟨kept.boundary, kept.log, kept.commit, kept.applied, kept.applied, queue, fun _ => none, false, kept.shapeGen, poison⟩ := by
  unfold State.restart
  simp only []
  split <;> exact ⟨_, _, rfl⟩

theorem frozen_restart (kept : Kept) (chunk : Index → Option Nat) : (State.restart kept chunk).frozen = false := by
  obtain ⟨queue, poison, same⟩ := restart_eq kept chunk
  rw [same]

theorem frozen_dead (dead : s.poison.isSome) (running : m.isRestart = false) :
    (step code s m).frozen = true ↔ AppliesFreeze code s m ∨ s.frozen = true ∧ ¬ Undoes code s m := by
  obtain ⟨reason, poisoned⟩ := Option.isSome_iff_exists.mp dead
  have alive : s.poison ≠ none := by
    rw [poisoned]
    exact nofun
  refine Calm.frozen ⟨?_, ?_⟩ ?_
  · rintro ⟨_, next, -⟩
    exact alive next.1
  · rintro (⟨_, next, -⟩ | ⟨_, _, now⟩ | ⟨_, now, -⟩ | _)
    · exact alive next.1
    · exact alive now
    · exact alive now
    · cases running
  · obtain ⟨cache, poison, -, same⟩ : ∃ cache poison, poison.isSome ∧ step code s m = { s with claimCache := cache, poison := poison } :=
      dead_step dead running
    rw [same]

/-- A freeze stands after a step if the step applied one, or one stood and was not undone. -/
theorem Change.frozen (change : Change code s m s') :
    s'.frozen = true ↔ AppliesFreeze code s m ∨ s.frozen = true ∧ ¬ Undoes code s m := by
  cases change with
  | idle calm | fail reason calm | commit calm | refuse other reason calm => exact calm.frozen rfl
  | propose | accept | capture | compact => exact Calm.frozen ⟨nofun, nofun⟩ rfl
  | scan readable =>
    obtain ⟨cache, same⟩ := State.scan_state code s readable
    exact Calm.frozen ⟨nofun, nofun⟩ (by rw [same])
  | freeze other shapeGen next freezes => exact ⟨fun _ => .inl ⟨other, next, freezes⟩, fun _ => rfl⟩
  | @advance e frozen other shapeGen next kind held =>
    have undoes : Undoes code s (.applyNext other) ↔ Thaws code s.shapeGen e := by
      constructor
      · rintro (⟨_, next', thaws⟩ | _)
        rwa [next'.unique next] at thaws
      · exact Undoes.thaw other next
    have applies : ¬ AppliesFreeze code s (.applyNext other) := by
      rintro ⟨_, next', freeze, -⟩
      rw [next'.unique next] at freeze
      exact kind freeze
    rw [undoes]
    exact held.trans ⟨Or.inr, fun either => either.elim (fun now => absurd now applies) id⟩
  | install boundary shapeGen alive => exact (Undoes.install boundary shapeGen alive).frozen nofun rfl
  | adopt shapeGen alive ahead inside committed => exact (Undoes.adopt shapeGen alive ahead inside committed).frozen nofun rfl
  | restart kept chunk => exact (Undoes.restart kept chunk).frozen nofun (frozen_restart kept chunk)

theorem frozen_step (h : s.Exact ∨ s.Emptied) (m : Move) :
    (step code s m).frozen = true ↔ AppliesFreeze code s m ∨ s.frozen = true ∧ ¬ Undoes code s m := by
  obtain exact | emptied := h
  · exact (change_step exact m).frozen
  cases running : m.isRestart with
  | false => exact frozen_dead emptied.1 running
  | true =>
    cases m with
    | restart kept chunk => exact (Undoes.restart kept chunk).frozen nofun (frozen_restart kept chunk)
    | _ => cases running

theorem frozen_run (code : GeneratedCode) (moves : List Move) : (run code .new moves).frozen = true ↔ Stands code moves := by
  induction moves using List.reverseRecOn with
  | nil => exact ⟨fun held => absurd held Bool.false_ne_true, fun stands => absurd stands since_nil⟩
  | append_singleton moves m ih =>
    rw [run_concat, frozen_step (listed_run code moves), ih]
    unfold Stands
    rw [since_concat]

/-! ## The capture fence -/

/-- An applied freeze that stands is in the log, above every snapshot. -/
def Fenced (s : State) : Prop :=
  s.frozen = true → ∃ e ∈ s.log, e.kind = .prepareMerge ∧ s.captured < e.index ∧ e.index ≤ s.applied

theorem Fenced.of_log (h : Fenced s) (frozen : s'.frozen = s.frozen) (captured : s'.captured = s.captured)
    (applied : s.applied ≤ s'.applied)
    (log : ∀ e ∈ s.log, s.captured < e.index → e.index ≤ s.applied → e ∈ s'.log) : Fenced s' := by
  intro held
  rw [frozen] at held
  obtain ⟨e, mem, kind, above, low⟩ := h held
  exact ⟨e, log e mem above low, kind, by rwa [captured], low.trans applied⟩

theorem Change.fenced (change : Change code s m s') (exact : s.Exact) (h : Fenced s) : Fenced s' := by
  cases change with
  | idle | fail | commit | refuse => exact h
  | propose entry a => exact h.of_log rfl rfl le_rfl fun x mem _ low => exact.mem_appended mem (low.trans a.low)
  | accept leaderCommit accepts place a =>
    exact h.of_log rfl rfl le_rfl fun x mem _ low => exact.mem_appended mem (low.trans a.low)
  | scan readable =>
    obtain ⟨cache, same⟩ := State.scan_state code s readable
    rw [same]
    exact h
  | @freeze e other shapeGen next freezes =>
    obtain ⟨-, mem, place⟩ := State.entryAt_some exact.whole next.2.2
    intro _
    refine ⟨e, mem, freezes.1, ?_, le_rfl⟩
    have := exact.captured
    show s.captured < e.index
    lia
  | @advance e frozen other shapeGen next kind held =>
    obtain ⟨-, -, place⟩ := State.entryAt_some exact.whole next.2.2
    intro now
    obtain ⟨x, mem, kind, above, low⟩ := h (held.mp now).1
    refine ⟨x, mem, kind, above, ?_⟩
    show x.index ≤ e.index
    lia
  | install | adopt => exact nofun
  | capture thawed => exact fun held => absurd (held.symm.trans thawed) nofun
  | compact covered => exact h.of_log rfl rfl le_rfl fun e mem above _ => exact.mem_compacted mem (covered.trans_lt above)
  | restart kept chunk => exact fun held => absurd (held.symm.trans (frozen_restart kept chunk)) nofun

theorem fenced_run (code : GeneratedCode) (moves : List Move) : Fenced (run code .new moves) := by
  induction moves using List.reverseRecOn with
  | nil => exact nofun
  | append_singleton moves m ih =>
    rw [run_concat]
    obtain exact | emptied := listed_run code moves
    · exact (change_step exact m).fenced exact ih
    cases running : m.isRestart with
    | false =>
      obtain ⟨cache, poison, -, same⟩ : ∃ cache poison, poison.isSome ∧ step code (run code .new moves) m =
          { run code .new moves with claimCache := cache, poison := poison } := dead_step emptied.1 running
      rw [same]
      exact ih
    | true =>
      cases m with
      | restart kept chunk => exact fun held => absurd (held.symm.trans (frozen_restart kept chunk)) nofun
      | _ => cases running

/-! ## Results -/

/-- The queue lists the freezes of the log above `applied`, in order, and the endpoint reports a
freeze while there is one or an applied one stands. -/
structure Lists (stands : Prop) (s : State) : Prop where
  mem : ∀ i, i ∈ s.freezeQueue ↔ ∃ e ∈ s.log, e.kind = .prepareMerge ∧ s.applied < e.index ∧ e.index = i
  sorted : s.freezeQueue.Pairwise (· < ·)
  active : s.mergeFreezeActive = true ↔ (∃ e ∈ s.log, e.kind = .prepareMerge ∧ s.applied < e.index) ∨ stands

theorem Lists.of_exact {stands : Prop} (h : s.Exact) (frozen : s.frozen = true ↔ stands) : Lists stands s := by
  refine ⟨fun i => h.mem_queue, h.sorted, ?_⟩
  rw [← frozen, State.mergeFreezeActive, Bool.or_eq_true, Bool.not_eq_true', List.isEmpty_eq_false_iff_exists_mem]
  refine or_congr_left ?_
  constructor
  · rintro ⟨i, mem⟩
    obtain ⟨e, mem, kind, above, -⟩ := h.mem_queue.mp mem
    exact ⟨e, mem, kind, above⟩
  · rintro ⟨e, mem, kind, above⟩
    exact ⟨e.index, h.mem_queue.mpr ⟨e, mem, kind, above, rfl⟩⟩

/-- The pending-freeze queue is exact on every endpoint that is not poisoned, and after every
call on one: the one exception is the call that applies a `PrepareMerge` and refuses it. A
restart from stores that still hold the entry of a freeze that stands reports it. -/
theorem freeze_queue_exact (code : GeneratedCode) (moves : List Move) :
    let s := run code .new moves
    (s.poison = none → Lists (Stands code moves) s) ∧
      (∀ m, s.poison = none → m.isRestart = false →
        Lists (Stands code (moves ++ [m])) (step code s m) ∨
          ((∃ other, m = .applyNext other) ∧ ∃ e, s.Next e ∧ Refuses code e) ∧ (step code s m).Emptied) ∧
      ∀ kept chunk, Stands code moves → kept.applied ≤ s.captured →
        (∀ e ∈ s.log, s.captured < e.index → e.index ≤ s.applied → e ∈ kept.log) →
        (State.restart kept chunk).poison = none → (State.restart kept chunk).mergeFreezeActive = true := by
  refine ⟨fun alive => ?_, fun m alive running => ?_, fun kept chunk stands low held alive => ?_⟩
  · have exact := (listed_run code moves).resolve_right (State.not_emptied alive)
    exact Lists.of_exact exact (frozen_run code moves)
  · have exact := (listed_run code moves).resolve_right (State.not_emptied alive)
    obtain now | refused := exact_step exact running
    · have frozen := frozen_run code (moves ++ [m])
      rw [run_concat] at frozen
      exact Or.inl (Lists.of_exact now frozen)
    · exact Or.inr refused
  · obtain ⟨e, mem, kind, above, applied⟩ := fenced_run code moves ((frozen_run code moves).mpr stands)
    have exact := (State.restart_cases kept chunk).resolve_right (State.not_emptied alive)
    refine (Lists.of_exact exact Iff.rfl).active.mpr (Or.inl ⟨e, ?_, kind, ?_⟩)
    all_goals
      obtain ⟨queue, poison, same⟩ := restart_eq kept chunk
      rw [same]
    · exact held e mem above applied
    · exact low.trans_lt above

end

end Sailing.Freeze
