import Sailing.Calls.Pumping
import Sailing.Run.Ahead
import Sailing.Run.Elect

/-!
# The window of a peer

What the endpoint keeps about a peer stays well formed (`Progress.Windowed`): every turn
keeps it, so every path from a fresh record does, and so every record of a node in any run.
The match of a record only rises. While a node leads one term it replaces a record only
when it applies a membership change.
-/

namespace Sailing

namespace Inflights

/-- What is popped was acknowledged, and the byte total is that of the rest. -/
theorem popLe_spec (upto : Index) {ms : List (Index × Nat)} {bytes : Nat} (total : bytes = (ms.map (·.2)).sum) :
    (popLe upto ms bytes).1 <:+ ms ∧ (popLe upto ms bytes).2 = ((popLe upto ms bytes).1.map (·.2)).sum := by
  induction ms generalizing bytes with
  | nil => exact ⟨List.suffix_rfl, total⟩
  | cons m ms ih =>
    unfold popLe
    split
    · exact ⟨List.suffix_rfl, total⟩
    have rest : bytes - m.2 = (ms.map (·.2)).sum := by
      rw [total, List.map_cons, List.sum_cons]
      exact Nat.add_sub_cancel_left _ _
    obtain ⟨kept, sum⟩ := ih rest
    exact ⟨kept.trans (List.suffix_cons m ms), sum⟩

theorem length_lt_of_not_full {w : Inflights} (h : w.full = false) : w.inflight.length < w.maxMsgs := by
  unfold full at h
  simp only [Bool.or_eq_false_iff, decide_eq_false_iff_not, not_le] at h
  exact h.1

end Inflights

namespace Progress

variable {p q : Progress} {back counted : Prop} {slot : Index}

/-- The record is well formed. -/
structure Windowed (p : Progress) : Prop where
  capacity : p.inflight.inflight.length ≤ p.inflight.maxMsgs
  order : p.inflight.inflight.Pairwise fun m m' => m.1 ≤ m'.1
  below : ∀ m ∈ p.inflight.inflight, m.1 < p.nextIndex
  bytes : p.inflight.bytes = (p.inflight.inflight.map (·.2)).sum
  idle : p.state ≠ .replicate → p.inflight.inflight = []
  transfer : ∀ pending acked total, p.state = .snapshot pending acked total →
    p.matchIndex < pending ∧ acked ≤ total

namespace Windowed

theorem of_empty (empty : p.inflight.inflight = []) (bytes : p.inflight.bytes = 0)
    (transfer : ∀ pending acked total, p.state = .snapshot pending acked total →
      p.matchIndex < pending ∧ acked ≤ total) : p.Windowed where
  capacity := by simp [empty]
  order := by simp [empty]
  below := by simp [empty]
  bytes := by simp [empty, bytes]
  idle := fun _ => empty
  transfer := transfer

theorem of_suffix (h : p.Windowed) (max : q.inflight.maxMsgs = p.inflight.maxMsgs)
    (fewer : q.inflight.inflight <:+ p.inflight.inflight) (next : p.nextIndex ≤ q.nextIndex)
    (bytes : q.inflight.bytes = (q.inflight.inflight.map (·.2)).sum) (state : q.state = p.state)
    (transfer : ∀ pending acked total, q.state = .snapshot pending acked total →
      q.matchIndex < pending ∧ acked ≤ total) : q.Windowed where
  capacity := by
    rw [max]
    exact fewer.length_le.trans h.capacity
  order := h.order.sublist fewer.sublist
  below := fun m hm => (h.below m (fewer.subset hm)).trans_le next
  bytes := bytes
  idle := fun other => by
    rw [state] at other
    rw [h.idle other] at fewer
    exact List.suffix_nil.mp fewer
  transfer := transfer

end Windowed

theorem Fresh.windowed (h : p.Fresh) : p.Windowed := by
  obtain ⟨n, maxMsgs, maxBytes, -, rfl⟩ := h
  exact .of_empty rfl rfl fun _ _ _ state => absurd state (by simp [new])

theorem windowed_becomeProbe (p : Progress) : p.becomeProbe.Windowed :=
  .of_empty rfl rfl fun _ _ _ state => absurd state (by simp [becomeProbe])

theorem windowed_becomeReplicate (p : Progress) : p.becomeReplicate.Windowed :=
  .of_empty rfl rfl fun _ _ _ state => absurd state (by simp [becomeReplicate])

theorem windowed_becomeSnapshot (p : Progress) (pending : Index) (total : Nat) :
    (p.becomeSnapshot pending total).Windowed := by
  unfold becomeSnapshot
  split
  · exact windowed_becomeProbe p
  next ahead =>
  refine .of_empty rfl rfl fun pending' acked' total' state => ?_
  obtain ⟨rfl, rfl, rfl⟩ := ProgressState.snapshot.inj state
  exact ⟨not_le.mp ahead, Nat.zero_le _⟩

theorem windowed_snapshotAcked (h : p.Windowed) (offset : Nat) : (p.snapshotAcked offset).Windowed := by
  unfold snapshotAcked
  split
  · next pending acked total state =>
    have empty : p.inflight.inflight = [] := h.idle (by simp [state])
    obtain ⟨ahead, within⟩ := h.transfer pending acked total state
    refine .of_empty empty (by rw [h.bytes, empty]; rfl) fun pending' acked' total' state' => ?_
    obtain ⟨rfl, rfl, rfl⟩ := ProgressState.snapshot.inj state'
    refine ⟨ahead, ?_⟩
    split
    · assumption
    · exact within
  · exact h

theorem windowed_freeInflightOnHeartbeat (h : p.Windowed) : p.freeInflightOnHeartbeat.Windowed := by
  unfold freeInflightOnHeartbeat
  split
  · unfold Inflights.freeFirstOne
    split
    · exact h
    next m ms queue =>
    refine h.of_suffix rfl (by rw [queue]; exact List.suffix_cons m ms) le_rfl ?_ rfl h.transfer
    rw [h.bytes, queue, List.map_cons, List.sum_cons]
    exact Nat.add_sub_cancel_left _ _
  · exact h

/-- A batch sent from the next index on, to a peer that is not paused, finds a free slot. -/
theorem windowed_sentEntries (h : p.Windowed) {last : Index} (bytes : Nat) (free : p.isPaused = false)
    (run : p.nextIndex ≤ last + 1) (room : p.nextIndex ≤ last → last < u64Max) :
    (p.sentEntries last bytes).Windowed := by
  unfold sentEntries
  split
  · exact ⟨h.capacity, h.order, h.below, h.bytes, h.idle, h.transfer⟩
  · next state =>
    have slot : p.inflight.inflight.length < p.inflight.maxMsgs := by
      unfold isPaused at free
      rw [state] at free
      exact Inflights.length_lt_of_not_full free
    have rises : p.nextIndex ≤ (if p.nextIndex ≤ last then next last else p.nextIndex) ∧
        last < (if p.nextIndex ≤ last then next last else p.nextIndex) := by
      split
      · next sent => exact ⟨sent.trans (le_next last), self_lt_next (room sent)⟩
      · next none => exact ⟨le_rfl, not_le.mp none⟩
    refine ⟨?_, ?_, fun m hm => ?_, ?_, fun other => absurd state other, fun _ _ _ other => ?_⟩
    · simp only [Inflights.add, List.length_append, List.length_singleton]
      exact slot
    · refine List.pairwise_append.mpr ⟨h.order, List.pairwise_singleton _ _, fun m hm m' hm' => ?_⟩
      obtain rfl := List.mem_singleton.mp hm'
      exact Nat.le_of_lt_succ ((h.below m hm).trans_le run)
    · rcases List.mem_append.mp hm with hm | hm
      · exact (h.below m hm).trans_le rises.1
      · obtain rfl := List.mem_singleton.mp hm
        exact rises.2
    · simp [Inflights.add, h.bytes]
    · exact absurd (state.symm.trans other) (by simp)
  · exact h

theorem windowed_maybeUpdate (h : p.Windowed) (n : Index) : (p.maybeUpdate n).1.Windowed := by
  obtain ⟨fewer, sum⟩ := Inflights.popLe_spec n h.bytes
  have rises : p.nextIndex ≤ (if p.nextIndex ≤ n then next n else p.nextIndex) := by
    split
    · next behind => exact behind.trans (le_next n)
    · exact le_rfl
  unfold maybeUpdate
  simp only
  split
  · next pending acked total state =>
    split
    · exact windowed_becomeProbe _
    next short =>
    refine h.of_suffix rfl fewer rises sum rfl fun pending' acked' total' state' => ?_
    obtain ⟨rfl, rfl, rfl⟩ := ProgressState.snapshot.inj (state.symm.trans state')
    obtain ⟨ahead, within⟩ := h.transfer pending acked total state
    exact ⟨max_lt ahead (not_le.mp short), within⟩
  · next other =>
    exact h.of_suffix rfl fewer rises sum rfl fun pending acked total state =>
      absurd state (other pending acked total)

/-! ## Turns and paths -/

/-- Every turn keeps the record well formed, over a log whose entries stand at their indexes. -/
theorem Turn.windowed (h : Turn back True slot p q) (w : p.Windowed) : q.Windowed := by
  cases h with
  | mark => exact ⟨w.capacity, w.order, w.below, w.bytes, w.idle, w.transfer⟩
  | sent last bytes free run => exact windowed_sentEntries w bytes free (run trivial).1 (run trivial).2
  | probe => exact windowed_becomeProbe p
  | replicate => exact windowed_becomeReplicate p
  | snapshot total => exact windowed_becomeSnapshot p _ total
  | acked offset => exact windowed_snapshotAcked w offset
  | update n => exact windowed_maybeUpdate w n
  | freed => exact windowed_freeInflightOnHeartbeat w
  | reprobe => exact .of_empty rfl rfl (windowed_becomeProbe p).transfer

theorem Path.windowed (h : Path back True slot p q) (w : p.Windowed) : q.Windowed := by
  induction h with
  | refl => exact w
  | tail _ turn ih => exact turn.windowed ih

theorem match_le_maybeUpdate (p : Progress) (n : Index) : p.matchIndex ≤ (p.maybeUpdate n).1.matchIndex := by
  unfold maybeUpdate
  simp only
  split
  · split <;> exact le_max_left _ _
  · exact le_max_left _ _

theorem Turn.match_le (h : Turn back counted slot p q) : p.matchIndex ≤ q.matchIndex := by
  cases h with
  | mark | probe | replicate | reprobe => exact le_rfl
  | sent =>
    unfold sentEntries
    split <;> exact le_rfl
  | snapshot =>
    unfold becomeSnapshot
    split <;> exact le_rfl
  | acked =>
    unfold snapshotAcked
    split <;> exact le_rfl
  | update n => exact match_le_maybeUpdate p n
  | freed =>
    unfold freeInflightOnHeartbeat
    split <;> exact le_rfl

theorem Path.match_le (h : Path back counted slot p q) : p.matchIndex ≤ q.matchIndex := by
  induction h with
  | refl => exact le_rfl
  | tail _ turn ih => exact ih.trans turn.match_le

end Progress

variable {I : Type} [LinearOrder I] {M : StateMachine}

namespace Tracker

variable {adds back : Prop} {slot : Index} {t t' : Tracker I}

/-- Every record is well formed. -/
def Windowed (t : Tracker I) : Prop := ∀ id p, t.progress id = some p → p.Windowed

omit [LinearOrder I] in
theorem Fresh.windowed (h : t.Fresh) : t.Windowed := fun id p hp => (h id p hp).windowed

omit [LinearOrder I] in
theorem Moves.windowed (h : t.Moves adds back True slot t') (w : t.Windowed) : t'.Windowed := by
  intro id q hq
  obtain ⟨p, from_, path⟩ := h id q hq
  exact path.windowed (from_.elim (w id p) fun fresh => fresh.2.windowed)

end Tracker

namespace Endpoint

variable {mono : Prop} {now : Instant} {inp : Input I} {s s' : Endpoint I M}

theorem Does.windowed {brings : Input I → Prop} (hd : Does mono now brings s s') (inv : NodeInv mono s)
    (live' : s'.poisoned = false) (h : s.tracker.Windowed) : s'.tracker.Windowed := by
  induction hd with
  | refl => exact h
  | tail hd st ih =>
    obtain ⟨inp, -, st⟩ := st
    have counted := (Does.inv hd inv).contiguous
    exact ((st.moves live').weaken id id (fun _ => counted) le_rfl).windowed (ih (st.live live'))

theorem windowed_move (h : s.Steadfast) {m : Move I M} (live' : (s.move m).poisoned = false)
    (before : s.poisoned = false → s.tracker.Windowed) : (s.move m).tracker.Windowed := by
  refine tracker_move (fun _ fresh => fresh.windowed) (fun {now inp a b} _ steps inv live'' => ?_) h
    (fun c call hp _ => ?_) live' before
  · have hd : Does False now (· = inp) a b := Steps.does steps rfl
    exact Does.windowed hd inv live''
  · subst call
    exact Does.windowed (does_exec hp h.inv h.submitted False.elim).1 h.inv live'

variable {ms : List (Move I M)} {u u' : Endpoint I M}

theorem windowed_moves (h : s.Steadfast) (before : s.poisoned = false → s.tracker.Windowed)
    (live' : (s.moves ms).poisoned = false) : (s.moves ms).tracker.Windowed := by
  induction ms generalizing s with
  | nil => exact before live'
  | cons m ms ih => exact ih (h.move m) (fun live => windowed_move h live before) live'

/-! ## While a node leads -/

/-- A configuration change was applied on the way. -/
def Reconfigured (s s' : Endpoint I M) : Prop :=
  ∃ l, s'.passed = s.passed ++ l ∧ ∃ e ∈ l, e.kind.isConfChange = true

/-- What the tracker of a leader becomes while it leads its term: no match of a peer goes back,
unless a configuration change is applied. -/
structure Tended (s u : Endpoint I M) : Prop where
  passed : s.passed <+: u.passed
  rises : s.Reconfigured u ∨ ∀ id p q, s.tracker.progress id = some p → u.tracker.progress id = some q →
    p.matchIndex ≤ q.matchIndex

omit [LinearOrder I] in
theorem Tended.refl (s : Endpoint I M) : s.Tended s :=
  ⟨List.prefix_rfl, .inr fun _ p q hp hq => by
    rw [hp] at hq
    exact (congrArg Progress.matchIndex (Option.some.inj hq)).le⟩

omit [LinearOrder I] in
/-- The record of a peer comes from one with a lower match. -/
theorem Tended.grow (h : s.Tended u) {l : List (Entry I)} (passed : u'.passed = u.passed ++ l)
    (kept : (∃ e ∈ l, e.kind.isConfChange = true) ∨ ∀ id q, u'.tracker.progress id = some q →
      ∃ p, u.tracker.progress id = some p ∧ p.matchIndex ≤ q.matchIndex) : s.Tended u' := by
  obtain ⟨⟨before, eq⟩, rises⟩ := h
  have all : u'.passed = s.passed ++ (before ++ l) := by rw [passed, ← eq, List.append_assoc]
  refine ⟨⟨before ++ l, all.symm⟩, ?_⟩
  rcases kept with ⟨e, mem, kind⟩ | kept
  · exact .inl ⟨before ++ l, all, e, List.mem_append_right _ mem, kind⟩
  rcases rises with ⟨l', eq', e, mem, kind⟩ | rises
  · obtain rfl : before = l' := List.append_cancel_left (eq.trans eq')
    exact .inl ⟨before ++ l, all, e, List.mem_append_left _ mem, kind⟩
  · refine .inr fun id p r hp hr => ?_
    obtain ⟨q, hq, le⟩ := kept id r hr
    exact (rises id p q hp hq).trans le

omit [LinearOrder I] in
theorem Tended.of_same (h : s.Tended u) (passed : u'.passed = u.passed)
    (tracker : u'.tracker = u.tracker) : s.Tended u' :=
  h.grow (passed.trans (List.append_nil _).symm) (.inr fun _ q hq => ⟨q, tracker ▸ hq, le_rfl⟩)

theorem Step.tended (st : Step mono now inp u u') (live' : u'.poisoned = false)
    (leads : u.role = .leader) (h : s.Tended u) : s.Tended u' := by
  cases st.acts live' with
  | keeps commit pending applied fsm flow passed =>
    refine h.grow (passed.trans (List.append_nil _).symm) (.inr fun id q hq => ?_)
    obtain ⟨p, from_, path⟩ := flow id q hq
    exact ⟨p, from_.resolve_right fun fresh => fresh.1 leads, path.match_le⟩
  | commits _ _ _ _ tracker passed | installs _ _ _ _ tracker passed => exact h.of_same passed tracker
  | @applies e running held eq =>
    subst eq
    rcases tracker_applyEntry live' with same | ⟨kind, passed, -⟩
    · obtain ⟨l, passed⟩ : ∃ l, (u.applyEntry e).passed = u.passed ++ l := by
        rcases applyEntry_passed u e with passed | passed
        · exact ⟨[], passed.trans (List.append_nil _).symm⟩
        · exact ⟨[e], passed⟩
      exact h.grow passed (.inr fun _ q hq => ⟨q, same ▸ hq, le_rfl⟩)
    · exact h.grow passed (.inl ⟨e, List.mem_singleton_self e, kind⟩)

/-- The node has left the term that `s` leads, or does not stand in it again. -/
def Tenure (s u : Endpoint I M) : Prop :=
  s.term < u.term ∨ (u.term = s.term ∧ u.role ≠ .candidate ∧ (u.role = .leader → s.Tended u))

theorem Step.tenure (st : Step mono now inp u u') (live' : u'.poisoned = false) (h : s.Tenure u) : s.Tenure u' := by
  have rises := st.rises
  have forward := rises.forward live'
  rcases h with left | ⟨same, idle, tended⟩
  · exact .inl (left.trans_le forward)
  rcases forward.lt_or_eq with later | still
  · exact .inl (same ▸ later)
  refine .inr ⟨still.symm.trans same, fun stands => ?_, fun leads => ?_⟩
  · rcases rises.stands live' stands with ⟨stood, -⟩ | later
    · exact idle stood
    · exact later.ne still
  · rcases rises.leads leads with ⟨led, -⟩ | ⟨-, stood, -⟩
    · exact st.tended live' led (tended led)
    · exact absurd stood idle

theorem Does.tenure {brings : Input I → Prop} (hd : Does mono now brings u u')
    (live' : u'.poisoned = false) (h : s.Tenure u) : s.Tenure u' := by
  induction hd with
  | refl => exact h
  | tail _ st ih =>
    obtain ⟨inp, -, st⟩ := st
    exact st.tenure live' (ih (st.live live'))

omit [LinearOrder I] in
theorem Tenure.of_same (h : s.Tenure u) (role : u'.role = u.role) (term : u'.term = u.term)
    (passed : u'.passed = u.passed) (tracker : u'.tracker = u.tracker) : s.Tenure u' := by
  unfold Tenure at h ⊢
  rw [role, term]
  exact h.imp_right fun ⟨same, idle, tended⟩ => ⟨same, idle, fun leads => (tended leads).of_same passed tracker⟩

omit [LinearOrder I] in
theorem Tenure.of_follower (h : s.Tenure u) (role : u'.role = .follower) (term : u'.term = u.term) : s.Tenure u' := by
  unfold Tenure at h ⊢
  rw [role, term]
  exact h.imp_right fun ⟨same, _, _⟩ => ⟨same, nofun, nofun⟩

theorem Tenure.move (steady : u.Steadfast) {m : Move I M} (stays : m.crashes = false)
    (live' : (u.move m).poisoned = false) (h : u.poisoned = false → s.Tenure u) : s.Tenure (u.move m) := by
  cases m with
  | call c =>
    have live := (onward_exec steady stays live').live
    by_cases hp : c.isPublic = true
    · exact Does.tenure (does_exec hp steady.inv steady.submitted False.elim).1 live' (h live)
    · obtain ⟨-, -, -, -, -, -, tracker, role, term, passed⟩ := exec_of_not_public (s := u) hp stays
      exact (h live).of_same role term passed tracker
  | freeze boundary freezeTerm =>
    have cases_ := freeze_cases (s := u) boundary freezeTerm
    simp only [Endpoint.move] at live' ⊢
    rcases cases_ with same | dead | ⟨live, held, -, same⟩
    · rw [same] at live' ⊢
      exact h live'
    · rw [dead] at live'
      exact absurd live' (by simp [poisoned_poison])
    rw [same] at live' ⊢
    obtain ⟨-, -, steps⟩ := does_commitTo steady live held
    have hd : Does False 0 (fun inp => inp = .quiet) { u with commit := max u.commit boundary } (u.commitTo boundary) :=
      Steps.does steps rfl
    exact Does.tenure hd live' ((h live).of_same rfl rfl rfl rfl)
  | resolve fsm =>
    have onward := (onward_resolve steady fsm live').1
    simp only [Endpoint.move, resolvePendingMerge]
    split
    · exact h onward.live
    · cases fsm <;> exact (h onward.live).of_same rfl rfl rfl rfl
  | resolveAborted =>
    have onward := (onward_resolveAborted steady live').1
    simp only [Endpoint.move, resolvePendingMergeAborted]
    split
    · exact h onward.live
    · exact (h onward.live).of_same rfl rfl rfl rfl
  | adopt now sender is walked =>
    have unites := (unites_handleMessage now sender is (some walked) steady.inv steady.submitted steady.parked).1
    have live := unites.live live'
    obtain steps | ⟨a, b, before, adopts, after⟩ := unites
    · have hd : Does False now (· = .message sender (.installSnapshot is)) u _ := Steps.does steps rfl
      exact Does.tenure hd live' (h live)
    have hd : Does False now (· = .message sender (.installSnapshot is)) u a := Steps.does before rfl
    have hd' : Does False now (· = .message sender (.installSnapshot is)) b _ := Steps.does after rfl
    refine Does.tenure hd' live' ((Does.tenure hd adopts.live (h live)).of_follower ?_ ?_)
    · obtain ⟨fsm, news, farewells, rfl⟩ := adopts.eq
      exact adopts.role
    · obtain ⟨fsm, news, farewells, rfl⟩ := adopts.eq
      rfl

theorem Tenure.moves (steady : u.Steadfast)
    (stays : ∀ m ∈ ms, m.crashes = false) (live' : (u.moves ms).poisoned = false)
    (h : u.poisoned = false → s.Tenure u) : s.Tenure (u.moves ms) := by
  induction ms generalizing u with
  | nil => exact h live'
  | cons m ms ih =>
    have first := stays m List.mem_cons_self
    exact ih (steady.move m) (fun m' hm => stays m' (List.mem_cons_of_mem m hm)) live'
      fun live => Tenure.move steady first live h

theorem tended_moves (h : s.Steadfast) (leads : s.role = .leader)
    (stays : ∀ m ∈ ms, m.crashes = false) (live' : (s.moves ms).poisoned = false)
    (still : (s.moves ms).role = .leader ∧ (s.moves ms).term = s.term) : s.Tended (s.moves ms) := by
  have begins : s.Tenure s := .inr ⟨rfl, by simp [leads], fun _ => .refl s⟩
  rcases Tenure.moves h stays live' fun _ => begins with left | ⟨-, -, tended⟩
  · exact absurd still.2 left.ne'
  · exact tended still.1

/-- Flow control stays well formed. Every record that its transitions make from a fresh one is
well formed, and so is every record of a node that is not poisoned, in any run. No transition
takes the match back, and while a node leads its term no peer that it tracks goes back either,
unless a configuration change is applied in between.
The pump of a peer ends whatever the log store answers, and of what it enqueues no more are
appends with entries than there were free slots, plus one. -/
theorem flow_control (config : Config I) (now : Instant) (rng : Nat → Nat) (ms : List (Move I M)) :
    (∀ (p q : Progress) (slot : Index), p.Fresh → Progress.Path True True slot p q → q.Windowed) ∧
    (∀ (p q : Progress) (slot : Index), Progress.Path True True slot p q → p.matchIndex ≤ q.matchIndex) ∧
    ∀ s : Endpoint I M, s = (new config now rng M.init : Endpoint I M).moves ms → s.poisoned = false →
      (∀ id p, s.tracker.progress id = some p → p.Windowed) ∧
      (s.role = .leader → ∀ ms' : List (Move I M), (∀ m ∈ ms', m.crashes = false) →
        (s.moves ms').poisoned = false → (s.moves ms').role = .leader → (s.moves ms').term = s.term →
        s.Reconfigured (s.moves ms') ∨ ∀ id p q, s.tracker.progress id = some p →
          (s.moves ms').tracker.progress id = some q → p.matchIndex ≤ q.matchIndex) ∧
      ∀ (now : Instant) (peer : I),
        (∀ fuel, s.log.lastIndex + 3 ≤ fuel → s.pumpAppends now peer = pumpLoop now peer fuel s) ∧
        ∀ answer : Endpoint I M → EntriesRead I,
          (∃ enough, ∀ fuel, enough ≤ fuel →
            pumpOn answer now peer fuel s = pumpOn answer now peer enough s) ∧
          ∀ p fuel, s.tracker.progress peer = some p →
            ∃ new, (pumpOn answer now peer fuel s).outgoing = s.outgoing ++ new ∧
              new.countP Outgoing.carries ≤ p.inflight.maxMsgs - p.inflight.inflight.length + 1 := by
  refine ⟨fun p q slot fresh path => path.windowed fresh.windowed, fun p q slot path => path.match_le, ?_⟩
  intro s reached live
  have steady : s.Steadfast := reached ▸ (steadfast_new config now rng).moves ms
  refine ⟨?_, fun leads ms' stays live' role term => ?_, fun now peer => ⟨fun fuel covered => ?_, fun answer => ⟨?_, ?_⟩⟩⟩
  · have fresh : (new config now rng M.init : Endpoint I M).tracker.Windowed :=
      (Tracker.fresh_fromConfState _ _ _ _).windowed
    rw [reached] at live ⊢
    exact windowed_moves (steadfast_new config now rng) (fun _ => fresh) live
  · exact (tended_moves steady leads stays live' ⟨role, term⟩).rises
  · exact pumpAppends_fuel steady.inv.contiguous live covered
  · exact pumpOn_ends answer now peer s
  · intro p fuel held
    exact (carries_pumpOn fuel held).mono p.slots_le

end Endpoint

namespace Tape

/-- After the acknowledgement the pump has sent what there is and stops. A timeout of the leader
later the match of the peer is what it was. -/
theorem flow_control_acknowledged : ∃ s : Endpoint Nat tape, s = (node (config {0, 1, 2} 0)).moves acknowledgedOnce ∧
    s.role = .leader ∧ ∃ p, s.tracker.progress 1 = some p ∧ p.matchIndex = 1 ∧ p.Windowed ∧
      s.pumpAppends 11 1 = Endpoint.pumpLoop 11 1 9 s ∧
      ∃ q, (s.moves [.call (.timeout 11)]).tracker.progress 1 = some q ∧ p.matchIndex ≤ q.matchIndex := by
  have moved : (((node (config {0, 1, 2} 0)).moves acknowledgedOnce).tracker.progress 1).map (·.matchIndex) = some 1 := by
    decide +kernel
  obtain ⟨p, tracked, matched⟩ := Option.map_eq_some_iff.mp moved
  obtain ⟨-, -, run⟩ := Endpoint.flow_control (config {0, 1, 2} 0) 0 (fun _ => 0) acknowledgedOnce
  obtain ⟨windowed, tended, pumps⟩ := run _ rfl (by decide +kernel)
  refine ⟨_, rfl, by decide +kernel, p, tracked, matched, windowed 1 p tracked, (pumps 11 1).1 9 (by decide +kernel), ?_⟩
  have still : ((((node (config {0, 1, 2} 0)).moves acknowledgedOnce).moves
      [.call (.timeout 11)]).tracker.progress 1).isSome = true := by decide +kernel
  obtain ⟨q, tracked'⟩ := Option.isSome_iff_exists.mp still
  refine ⟨q, tracked', ?_⟩
  have quiet : (((node (config {0, 1, 2} 0)).moves acknowledgedOnce).moves [.call (.timeout 11)]).passed.length =
      ((node (config {0, 1, 2} 0)).moves acknowledgedOnce).passed.length := by decide +kernel
  rcases tended (by decide +kernel) [.call (.timeout 11)] (by simp [Move.crashes]) (by decide +kernel)
    (by decide +kernel) (by decide +kernel) with ⟨l, eq, e, mem, -⟩ | rises
  · have longer := (List.length_append.symm.trans (congrArg List.length eq).symm).trans quiet
    rw [List.length_eq_zero_iff.mp (Nat.add_eq_left.mp longer)] at mem
    cases mem
  · exact rises 1 p q tracked tracked'

end Tape

end Sailing
