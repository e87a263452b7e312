import Sailing.Calls.Sending

/-!
# The pump of a peer

`pumpAppends` sends to a peer until it is paused or its next index stands still. Whatever
the log store answers to its reads, it ends, after about as many rounds as the peer has free
slots, and what it enqueues has no more appends with entries than that. Over a log whose
entries stand at their indexes the number of rounds is also bounded by the log, which is
the fuel of `pumpAppends`.
-/

namespace Sailing

variable {I : Type} [LinearOrder I] {M : StateMachine}

/-- An append that carries entries. -/
def Outgoing.carries (o : Outgoing I) : Bool :=
  match o.message with
  | .appendEntries ae => !ae.entries.isEmpty
  | _ => false

/-- An offer of the snapshot or of a chunk of it. -/
def Outgoing.offers (o : Outgoing I) : Bool :=
  match o.message with
  | .installSnapshot _ => true
  | _ => false

omit [LinearOrder I] in
theorem Outgoing.carries_of_offers {o : Outgoing I} (h : o.offers = true) : ¬ o.carries = true := by
  obtain ⟨dest, m⟩ := o
  cases m with
  | installSnapshot => simp [Outgoing.carries]
  | _ => exact absurd h (by simp [Outgoing.offers])

namespace Progress

/-- How many appends with entries may be sent before the peer is paused. -/
def slots (p : Progress) : Nat :=
  match p.state with
  | .probe => 1
  | .replicate => p.inflight.maxMsgs - p.inflight.inflight.length
  | .snapshot .. => 0

/-- How many rounds of the pump there can be. -/
def rounds (p : Progress) : Nat :=
  match p.state with
  | .probe => if p.nextIndex = next p.matchIndex then 1 else 2
  | .replicate => p.slots + 1
  | .snapshot .. => 0

/-- How many there can be when the log ends at `top`. -/
def roundsTo (top : Index) (p : Progress) : Nat :=
  match p.state with
  | .probe => if p.nextIndex = next p.matchIndex then 1 else 2
  | .replicate => top + 1 - p.nextIndex + 2
  | .snapshot .. => 0

variable {p : Progress}

theorem slots_le (p : Progress) : p.slots ≤ p.inflight.maxMsgs - p.inflight.inflight.length + 1 := by
  unfold slots
  split <;> omega

theorem slots_pos (free : p.isPaused = false) : 0 < p.slots := by
  cases state : p.state with
  | probe => simp [slots, state]
  | replicate =>
    simp only [isPaused, state, Inflights.full, Bool.or_eq_false_iff, decide_eq_false_iff_not, not_le] at free
    simp only [slots, state]
    omega
  | snapshot => simp [isPaused, state] at free

theorem rounds_pos (free : p.isPaused = false) : 0 < p.rounds := by
  cases state : p.state with
  | probe =>
    simp only [rounds, state]
    split <;> omega
  | replicate => simp [rounds, state]
  | snapshot => simp [isPaused, state] at free

theorem roundsTo_pos (top : Index) (free : p.isPaused = false) : 0 < p.roundsTo top := by
  cases state : p.state with
  | probe =>
    simp only [roundsTo, state]
    split <;> omega
  | replicate => simp [roundsTo, state]
  | snapshot => simp [isPaused, state] at free

theorem roundsTo_le (top : Index) (p : Progress) : p.roundsTo top ≤ top + 3 := by
  unfold roundsTo
  split
  · split <;> omega
  · exact Nat.add_le_add_right (Nat.sub_le _ _) 2
  · exact Nat.zero_le _

/-- A peer that is handed the snapshot is paused, unless it covers the boundary already: then it is probed. -/
theorem becomeSnapshot_moves {boundary : Index} {total : Nat}
    (moved : (p.becomeSnapshot boundary total).nextIndex ≠ p.nextIndex) :
    p.becomeSnapshot boundary total = p.becomeProbe := by
  unfold becomeSnapshot at moved ⊢
  split
  · rfl
  next ahead =>
  rw [if_neg ahead] at moved
  exact absurd rfl moved

/-- Only a peer that is replicated to moves on when a batch is sent. -/
theorem sentEntries_moves {last : Index} {bytes : Nat}
    (moved : (p.sentEntries last bytes).nextIndex ≠ p.nextIndex) : p.state = .replicate ∧ p.nextIndex ≤ last := by
  unfold sentEntries at moved
  split at moved
  · exact absurd rfl moved
  · next state =>
    refine ⟨state, ?_⟩
    by_contra behind
    simp only [if_neg behind] at moved
    exact moved rfl
  · exact absurd rfl moved

end Progress

namespace Endpoint

variable {now : Instant} {s s' : Endpoint I M} {peer : I} {pr : Progress} {kind : Outgoing I → Bool}

/-- At most `n` of the messages that join the queue are of a kind. -/
def Adds (kind : Outgoing I → Bool) (n : Nat) (s s' : Endpoint I M) : Prop :=
  ∃ new, s'.outgoing = s.outgoing ++ new ∧ new.countP kind ≤ n

omit [LinearOrder I] in
theorem Adds.refl (s : Endpoint I M) : Adds kind 0 s s := ⟨[], by simp, by simp⟩

omit [LinearOrder I] in
theorem Adds.mono {n m : Nat} (h : Adds kind n s s') (le : n ≤ m) : Adds kind m s s' := by
  obtain ⟨new, sent, few⟩ := h
  exact ⟨new, sent, few.trans le⟩

omit [LinearOrder I] in
theorem Adds.trans {n m : Nat} {s'' : Endpoint I M} (h : Adds kind n s s') (k : Adds kind m s' s'') :
    Adds kind (n + m) s s'' := by
  obtain ⟨new, sent, few⟩ := h
  obtain ⟨new', sent', few'⟩ := k
  refine ⟨new ++ new', by rw [sent', sent, List.append_assoc], ?_⟩
  rw [List.countP_append]
  exact Nat.add_le_add few few'

omit [LinearOrder I] in
theorem Adds.send (s : Endpoint I M) (dest : I) (m : Message I) :
    Adds kind (if kind ⟨dest, m⟩ then 1 else 0) s (s.send dest m) := by
  rw [send_eq]
  refine ⟨_, rfl, ?_⟩
  split
  · simp
  · rw [List.countP_singleton]

/-! ## One round -/

/-- What one send does to the record of its peer: nothing, or it hands the snapshot over, or it
books a batch that ends at `last`. -/
inductive Round (peer : I) (pr : Progress) (within : Index → Prop) (s s' : Endpoint I M) : Prop where
  | stays (log : s'.log = s.log) (few : Adds Outgoing.carries 1 s s') (held : s'.tracker.progress peer = some pr)
  | hands {boundary : Index} {total : Nat} (log : s'.log = s.log) (none : Adds Outgoing.carries 0 s s')
      (held : s'.tracker.progress peer = some (pr.becomeSnapshot boundary total))
  | books {last : Index} {bytes : Nat} (log : s'.log = s.log) (few : Adds Outgoing.carries 1 s s')
      (held : s'.tracker.progress peer = some (pr.sentEntries last bytes)) (bound : pr.nextIndex ≤ last → within last)

namespace Round

variable {within : Index → Prop}

omit [LinearOrder I] in
theorem log (h : Round peer pr within s s') : s'.log = s.log := by
  cases h with
  | stays log => exact log
  | hands log => exact log
  | books log => exact log

omit [LinearOrder I] in
theorem few (h : Round peer pr within s s') : Adds Outgoing.carries 1 s s' := by
  cases h with
  | stays _ few => exact few
  | hands _ none => exact none.mono (Nat.zero_le 1)
  | books _ few => exact few

/-- A round after which the pump goes on. -/
inductive Onward (pr : Progress) (within : Index → Prop) (s s' : Endpoint I M) : Progress → Prop where
  | probes (none : Adds Outgoing.carries 0 s s') : Onward pr within s s' pr.becomeProbe
  | books {last : Index} {bytes : Nat} (few : Adds Outgoing.carries 1 s s') (state : pr.state = .replicate) (past : pr.nextIndex ≤ last)
      (bound : within last) : Onward pr within s s' (pr.sentEntries last bytes)

omit [LinearOrder I] in
theorem onward (h : Round peer pr within s s') {pr' : Progress} (held' : s'.tracker.progress peer = some pr')
    (moved : pr'.nextIndex ≠ pr.nextIndex) : Onward pr within s s' pr' := by
  cases h with
  | stays _ few held =>
    obtain rfl := Option.some.inj (held.symm.trans held')
    exact absurd rfl moved
  | hands _ none held =>
    obtain rfl := Option.some.inj (held.symm.trans held')
    rw [Progress.becomeSnapshot_moves moved]
    exact .probes none
  | books _ few held bound =>
    obtain rfl := Option.some.inj (held.symm.trans held')
    obtain ⟨state, past⟩ := Progress.sentEntries_moves moved
    exact .books few state past (bound past)

end Round

theorem slots_sentEntries (last : Index) (bytes : Nat) (state : pr.state = .replicate) :
    (pr.sentEntries last bytes).slots = pr.slots - 1 := by
  unfold Progress.sentEntries
  simp only [state, Progress.slots, Inflights.add, List.length_append, List.length_singleton]
  omega

variable {within : Index → Prop} {pr' : Progress}

omit [LinearOrder I] in
/-- What is left of the slots pays for what was sent. -/
theorem Round.Onward.slots (h : Round.Onward pr within s s' pr')
    (free : pr.isPaused = false) : ∃ n, Adds Outgoing.carries n s s' ∧ n + pr'.slots ≤ pr.slots := by
  have room := Progress.slots_pos free
  cases h with
  | probes none =>
    have one : pr.becomeProbe.slots = 1 := rfl
    refine ⟨0, none, ?_⟩
    omega
  | books few state =>
    refine ⟨1, few, ?_⟩
    rw [slots_sentEntries _ _ state]
    omega

omit [LinearOrder I] in
theorem Round.Onward.rounds (h : Round.Onward pr within s s' pr')
    (free : pr.isPaused = false) (moved : pr'.nextIndex ≠ pr.nextIndex) : pr'.rounds < pr.rounds := by
  have room := Progress.slots_pos free
  cases h with
  | probes =>
    have one : pr.becomeProbe.rounds = 1 := by simp [Progress.rounds, Progress.becomeProbe]
    have apart : pr.nextIndex ≠ next pr.matchIndex := fun same => moved same.symm
    rw [one]
    unfold Progress.rounds
    split
    · rw [if_neg apart]
      exact Nat.one_lt_two
    · omega
    · next state => simp [Progress.isPaused, state] at free
  | @books last bytes few state past bound =>
    have state' : (pr.sentEntries last bytes).state = .replicate := by simp [Progress.sentEntries, state]
    have left := slots_sentEntries last bytes state
    unfold Progress.rounds
    rw [state, state']
    simp only [left]
    omega

omit [LinearOrder I] in
theorem Round.Onward.roundsTo {top : Index} (h : Round.Onward pr (· ≤ top) s s' pr')
    (free : pr.isPaused = false) (moved : pr'.nextIndex ≠ pr.nextIndex) : pr'.roundsTo top < pr.roundsTo top := by
  cases h with
  | probes =>
    have one : pr.becomeProbe.roundsTo top = 1 := by simp [Progress.roundsTo, Progress.becomeProbe]
    have apart : pr.nextIndex ≠ next pr.matchIndex := fun same => moved same.symm
    rw [one]
    unfold Progress.roundsTo
    split
    · rw [if_neg apart]
      exact Nat.one_lt_two
    · omega
    · next state => simp [Progress.isPaused, state] at free
  | @books last bytes few state past bound =>
    have state' : (pr.sentEntries last bytes).state = .replicate := by simp [Progress.sentEntries, state]
    have next' : (pr.sentEntries last bytes).nextIndex = next last := by simp [Progress.sentEntries, state, past]
    have above : pr.nextIndex < next last :=
      lt_of_le_of_ne (past.trans (le_next last)) fun same => moved (next'.trans same.symm)
    have reach : next last ≤ last + 1 := by
      unfold next
      split
      · exact le_rfl
      · exact Nat.le_succ last
    unfold Progress.roundsTo
    rw [state, state']
    simp only [next']
    lia

/-! ## What a send is -/

/-- What the send of a chunk does: at most one offer joins the queue, and the record of the peer
stays or is handed the boundary of the slot. -/
structure Chunked (peer : I) (pr : Progress) (s s' : Endpoint I M) : Prop where
  log : s'.log = s.log
  stable : s'.stable = s.stable
  applied : s'.applied = s.applied
  queue : ∃ new, s'.outgoing = s.outgoing ++ new ∧ new.length ≤ 1 ∧ ∀ o ∈ new, o.offers = true
  record : s'.tracker.progress peer = some pr ∨
    ∃ total, s'.tracker.progress peer = some (pr.becomeSnapshot s.stable.visible.slot total)

omit [LinearOrder I] in
theorem Chunked.refl (held : s.tracker.progress peer = some pr) : Chunked peer pr s s :=
  ⟨rfl, rfl, rfl, ⟨[], by simp, by simp, by simp⟩, .inl held⟩

omit [LinearOrder I] in
theorem Chunked.of_same {t : Endpoint I M} (h : Chunked peer pr s s') (log : t.log = s'.log) (stable : t.stable = s'.stable)
    (applied : t.applied = s'.applied) (out : t.outgoing = s'.outgoing) (tracker : t.tracker = s'.tracker) :
    Chunked peer pr s t :=
  ⟨log.trans h.log, stable.trans h.stable, applied.trans h.applied, out ▸ h.queue, tracker ▸ h.record⟩

theorem chunked_chunkStart (held : s.tracker.progress peer = some pr) {boundary : Index}
    (slot : s.stable.visible.slot = boundary) (total fromOffset : Nat) :
    Chunked peer pr s (s.chunkStart peer boundary total fromOffset).2 ∧
      (s.chunkStart peer boundary total fromOffset).2.outgoing = s.outgoing := by
  have handed : ({ s with tracker := s.tracker.modifyProgress peer (·.becomeSnapshot boundary total) } :
      Endpoint I M).tracker.progress peer = some (pr.becomeSnapshot s.stable.visible.slot total) := by
    simp [Tracker.modifyProgress, held, slot]
  have started : Chunked peer pr s
      { s with tracker := s.tracker.modifyProgress peer (·.becomeSnapshot boundary total) } :=
    ⟨rfl, rfl, rfl, (Chunked.refl held).queue, .inr ⟨total, handed⟩⟩
  unfold chunkStart
  split
  · split
    · exact ⟨.refl held, rfl⟩
    · exact ⟨started, rfl⟩
  · exact ⟨started, rfl⟩

theorem chunked_sendSnapshotChunk (held : s.tracker.progress peer = some pr) (fromOffset : Nat) :
    Chunked peer pr s (s.sendSnapshotChunk peer fromOffset).2 := by
  unfold sendSnapshotChunk
  extract_lets configChunk
  split
  · exact .refl held
  · exact (Chunked.refl held).of_same rfl rfl rfl rfl rfl
  next m total chunkAtFrom read =>
  obtain ⟨blob, slot, -, -⟩ := snapshotChunk_ok read
  obtain ⟨started, out⟩ := chunked_chunkStart held (slot_of_snapshot slot) total fromOffset
  generalize s.chunkStart peer m.lastIndex total fromOffset = start at started out ⊢
  obtain ⟨offset, s₁⟩ := start
  simp only at started out ⊢
  have dead : ∀ reason, Chunked peer pr s (s₁.poison reason) := fun _ => started.of_same rfl rfl rfl rfl rfl
  split
  · exact started
  split
  · exact started
  · exact dead _
  split
  · exact dead _
  split
  · exact started
  split
  · exact dead _
  rw [send_eq]
  refine ⟨started.log, started.stable, started.applied, ⟨_, congrArg (· ++ _) out, ?_, fun o ho => ?_⟩, started.record⟩
  · split <;> simp
  · split at ho
    · exact absurd ho List.not_mem_nil
    · obtain rfl := List.mem_singleton.mp ho
      rfl

theorem chunked_sendSnapshotPaced (held : s.tracker.progress peer = some pr) (fromOffset : Nat) :
    Chunked peer pr s (s.sendSnapshotPaced now peer fromOffset) := by
  have chunk := chunked_sendSnapshotChunk held fromOffset
  unfold sendSnapshotPaced
  generalize s.sendSnapshotChunk peer fromOffset = sent at chunk ⊢
  obtain ⟨outcome, s₁⟩ := sent
  cases outcome with
  | sent | deferred | unsendable => exact chunk.of_same rfl rfl rfl rfl rfl
  | poisoned => exact chunk

omit [LinearOrder I] in
theorem Chunked.offers (h : Chunked peer pr s s') : Adds Outgoing.offers 1 s s' := by
  obtain ⟨new, queue, few, -⟩ := h.queue
  exact ⟨new, queue, List.countP_le_length.trans few⟩

/-- Handing the snapshot over sends no append. -/
theorem round_sendSnapshotPaced (held : s.tracker.progress peer = some pr) (fromOffset : Nat) :
    Round peer pr within s (s.sendSnapshotPaced now peer fromOffset) := by
  have chunk : Chunked peer pr s (s.sendSnapshotPaced now peer fromOffset) := chunked_sendSnapshotPaced held fromOffset
  have none : Adds Outgoing.carries 0 s (s.sendSnapshotPaced now peer fromOffset) := by
    obtain ⟨new, queue, -, offers⟩ := chunk.queue
    refine ⟨new, queue, (List.countP_eq_zero.mpr fun o ho => ?_).le⟩
    exact Outgoing.carries_of_offers (offers o ho)
  rcases chunk.record with same | ⟨total, handed⟩
  · exact .stays chunk.log (none.mono (Nat.zero_le 1)) same
  · exact .hands chunk.log none handed

theorem round_sendAppend (held : s.tracker.progress peer = some pr) {prev : Index}
    (prevTerm : Term) {es : List (Entry I)} (bound : pr.nextIndex ≤ lastSentIndex prev es → within (lastSentIndex prev es)) :
    Round peer pr within s (s.sendAppend peer prev prevTerm es) := by
  unfold sendAppend
  extract_lets lastSent bytes s₁
  have few : Adds Outgoing.carries 1 s s₁ := (Adds.send s peer _).mono (by split <;> simp)
  have same : s₁.tracker = s.tracker ∧ s₁.log = s.log := by
    unfold s₁
    rw [send_eq]
    exact ⟨rfl, rfl⟩
  clear_value s₁
  have progress : ∀ f : Progress → Progress, (s₁.tracker.modifyProgress peer f).progress peer = some (f pr) := by
    intro f
    simp [Tracker.modifyProgress, same.1, held]
  by_cases booked : (es ≠ [] ∧ pr.state = .replicate) ∨ lastSent < s₁.log.lastIndex
  · exact .books same.2 few ((progress _).trans (congrArg some (if_pos booked))) bound
  · exact .stays same.2 few ((progress _).trans (congrArg some (if_neg booked)))

/-- One send to a peer, when the log store answers the read of the entries with `answer`. -/
def sendAnswered (s : Endpoint I M) (now : Instant) (peer : I) (answer : EntriesRead I) : Endpoint I M :=
  if s.poisoned then s
  else
    match s.tracker.progress peer with
    | none => s
    | some pr =>
      if pr.isPaused then s
      else if pr.nextIndex < s.log.firstIndex then s.sendSnapshotPaced now peer 0
      else
        match s.prevLogTerm (pr.nextIndex - 1) with
        | (none, s) => s
        | (some prevTerm, s) =>
          match if pr.nextIndex < next s.log.lastIndex then answer else .ready [] with
          | .pending => s
          | .error => s.poison .logRead
          | .ready read => s.sendAppend peer (pr.nextIndex - 1) prevTerm (s.capEntries read)

/-- What the log of the node answers. -/
def ownAnswer (s : Endpoint I M) (peer : I) : EntriesRead I :=
  match s.tracker.progress peer with
  | none => .ready []
  | some pr => s.log.entries pr.nextIndex
      (min (next s.log.lastIndex) (min (pr.nextIndex + maxReadBatchEntries) u64Max))

theorem sendAnswered_own (s : Endpoint I M) (now : Instant) (peer : I) :
    s.sendAnswered now peer (s.ownAnswer peer) = s.maybeSendAppend now peer := by
  cases held : s.tracker.progress peer with
  | none => simp only [sendAnswered, maybeSendAppend, held]
  | some pr =>
    cases read : s.prevLogTerm (pr.nextIndex - 1) with
    | mk term =>
      cases term with
      | none => simp only [sendAnswered, maybeSendAppend, held, read]
      | some =>
        obtain ⟨rfl, -⟩ := prevLogTerm_some read
        simp only [sendAnswered, maybeSendAppend, held, read, readAppend, ownAnswer] <;> rfl

omit [LinearOrder I] in
theorem lastSentIndex_mem (prev : Index) (es : List (Entry I)) :
    lastSentIndex prev es = prev ∨ ∃ e ∈ es, lastSentIndex prev es = e.index := by
  unfold lastSentIndex
  cases last : es.getLast? with
  | none => exact .inl rfl
  | some e => exact .inr ⟨e, List.mem_of_getLast? last, rfl⟩

theorem round_sendAnswered {answer : EntriesRead I} (held : s.tracker.progress peer = some pr)
    (answers : ∀ es, answer = .ready es → ∀ e ∈ es, within e.index) :
    Round peer pr within s (s.sendAnswered now peer answer) := by
  have still : Round peer pr within s s := .stays rfl ((Adds.refl s).mono (Nat.zero_le 1)) held
  unfold sendAnswered
  split
  · exact still
  rw [held]
  simp only
  split
  · exact still
  split
  · exact round_sendSnapshotPaced held 0
  next above =>
  cases read : s.prevLogTerm (pr.nextIndex - 1) with
  | mk term s₁ =>
    cases term with
    | none =>
      have dead : s₁ = s ∨ ∃ reason, s₁ = s.poison reason := by
        unfold prevLogTerm at read
        split at read
        · simp at read
        unfold logTerm at read
        split at read
        · simp at read
        · exact .inr ⟨_, (Prod.mk.inj read).2.symm⟩
      rcases dead with rfl | ⟨reason, rfl⟩
      · exact still
      · exact .stays rfl ((Adds.refl s).mono (Nat.zero_le 1)) held
    | some prevTerm =>
      obtain ⟨rfl, -⟩ := prevLogTerm_some read
      simp only
      split
      · exact still
      · exact .stays rfl ((Adds.refl s₁).mono (Nat.zero_le 1)) held
      next es ready =>
      refine round_sendAppend held prevTerm fun past => ?_
      rcases lastSentIndex_mem (pr.nextIndex - 1) (s₁.capEntries es) with empty | ⟨e, he, last⟩
      · -- nothing is sent from the first index of a log on
        have pos : 0 < pr.nextIndex := lt_of_lt_of_le (Nat.succ_pos _) (not_lt.mp above)
        rw [empty] at past
        lia
      · have he : e ∈ es := (capEntries_initial es).subset he
        rw [last]
        split at ready
        · exact answers es ready e he
        · rw [← EntriesRead.ready.inj ready] at he
          exact absurd he List.not_mem_nil

/-! ## The pump -/

/-- The pump over a log store that answers as it likes. -/
def pumpOn (answer : Endpoint I M → EntriesRead I) (now : Instant) (peer : I) : Nat → Endpoint I M → Endpoint I M
  | 0, s => s
  | fuel + 1, s =>
    match s.tracker.progress peer with
    | none => s
    | some pr =>
      if pr.isPaused then s
      else
        let s' := s.sendAnswered now peer (answer s)
        if s'.poisoned then s'
        else
          match s'.tracker.progress peer with
          | none => s'
          | some pr' => if pr'.nextIndex = pr.nextIndex then s' else pumpOn answer now peer fuel s'

theorem pumpOn_own (now : Instant) (peer : I) (fuel : Nat) (s : Endpoint I M) :
    pumpOn (fun s => s.ownAnswer peer) now peer fuel s = pumpLoop now peer fuel s := by
  induction fuel generalizing s with
  | zero => rfl
  | succ fuel ih =>
    simp only [pumpOn, pumpLoop, sendAnswered_own, ih] <;> rfl

variable {answer : Endpoint I M → EntriesRead I}

/-- One unfolding of the pump: it stops after the round, or the round has moved the peer on. -/
theorem pumpOn_succ (now : Instant) (within : Index → Prop) (held : s.tracker.progress peer = some pr) (free : pr.isPaused = false)
    (answers : ∀ es, answer s = .ready es → ∀ e ∈ es, within e.index) :
    ∃ s', Round peer pr within s s' ∧ ((∀ fuel, pumpOn answer now peer (fuel + 1) s = s') ∨
      ∃ pr', s'.tracker.progress peer = some pr' ∧ pr'.nextIndex ≠ pr.nextIndex ∧
        ∀ fuel, pumpOn answer now peer (fuel + 1) s = pumpOn answer now peer fuel s') := by
  have round : Round peer pr within s (s.sendAnswered now peer (answer s)) := round_sendAnswered held answers
  refine ⟨_, round, ?_⟩
  simp only [pumpOn, held, free, Bool.false_eq_true, if_false]
  by_cases dead : (s.sendAnswered now peer (answer s)).poisoned = true
  · exact .inl fun fuel => if_pos dead
  simp only [if_neg dead]
  cases held' : (s.sendAnswered now peer (answer s)).tracker.progress peer with
  | none => exact .inl fun fuel => rfl
  | some pr' =>
    by_cases same : pr'.nextIndex = pr.nextIndex
    · exact .inl fun fuel => if_pos same
    · exact .inr ⟨pr', rfl, same, fun fuel => if_neg same⟩

theorem pumpOn_stop {fuel : Nat} (stop : s.tracker.progress peer = none ∨
    ∃ pr, s.tracker.progress peer = some pr ∧ pr.isPaused = true) : pumpOn answer now peer fuel s = s := by
  cases fuel with
  | zero => rfl
  | succ =>
    rcases stop with none | ⟨pr, held, paused⟩
    · simp only [pumpOn, none]
    · simp only [pumpOn, held, paused, if_true]

/-- The pump sends no more appends with entries than the peer has slots. -/
theorem carries_pumpOn (fuel : Nat) (held : s.tracker.progress peer = some pr) :
    Adds Outgoing.carries pr.slots s (pumpOn answer now peer fuel s) := by
  induction fuel generalizing s pr with
  | zero => exact (Adds.refl s).mono (Nat.zero_le _)
  | succ fuel ih =>
    cases free : pr.isPaused with
    | true =>
      rw [pumpOn_stop (.inr ⟨pr, held, free⟩)]
      exact (Adds.refl s).mono (Nat.zero_le _)
    | false =>
      have anything : ∀ es, answer s = .ready es → ∀ e ∈ es, True := fun _ _ _ _ => trivial
      obtain ⟨s', round, stops | ⟨pr', held', moved, goes⟩⟩ := pumpOn_succ now (fun _ => True) held free anything
      · rw [stops fuel]
        exact round.few.mono (Progress.slots_pos free)
      rw [goes fuel]
      obtain ⟨n, few, paid⟩ := (round.onward held' moved).slots free
      exact (few.trans (ih held')).mono paid

/-- The fuel does not matter once it covers a measure that every further round lowers. -/
theorem pumpOn_fuel (measure : Progress → Nat) (within : Index → Prop) (keeps : Endpoint I M → Prop)
    (answers : ∀ s, keeps s → ∀ es, answer s = .ready es → ∀ e ∈ es, within e.index)
    (kept : ∀ {s s' : Endpoint I M}, keeps s → s'.log = s.log → keeps s')
    (pos : ∀ pr : Progress, pr.isPaused = false → 0 < measure pr)
    (lower : ∀ {s s' : Endpoint I M} {pr pr' : Progress}, Round.Onward pr within s s' pr' → pr.isPaused = false →
      pr'.nextIndex ≠ pr.nextIndex → measure pr' < measure pr)
    {fuel fuel' : Nat} (h : keeps s) (held : s.tracker.progress peer = some pr)
    (enough : measure pr ≤ fuel) (enough' : measure pr ≤ fuel') :
    pumpOn answer now peer fuel s = pumpOn answer now peer fuel' s := by
  induction fuel generalizing fuel' s pr with
  | zero =>
    cases free : pr.isPaused with
    | true => exact (pumpOn_stop (.inr ⟨pr, held, free⟩)).symm
    | false => exact absurd enough (Nat.not_le.mpr (pos pr free))
  | succ fuel ih =>
    cases free : pr.isPaused with
    | true =>
      have stop : s.tracker.progress peer = none ∨ ∃ pr, s.tracker.progress peer = some pr ∧ pr.isPaused = true :=
        .inr ⟨pr, held, free⟩
      rw [pumpOn_stop stop, pumpOn_stop stop]
    | false =>
      cases fuel' with
      | zero => exact absurd enough' (Nat.not_le.mpr (pos pr free))
      | succ fuel' =>
        obtain ⟨s', round, stops | ⟨pr', held', moved, goes⟩⟩ := pumpOn_succ now within held free (answers s h)
        · rw [stops fuel, stops fuel']
        have less := lower (round.onward held' moved) free moved
        rw [goes fuel, goes fuel']
        exact ih (kept h round.log) held' (by omega) (by omega)

/-- Whatever the log store answers, the pump ends. -/
theorem pumpOn_ends (answer : Endpoint I M → EntriesRead I) (now : Instant) (peer : I) (s : Endpoint I M) :
    ∃ enough, ∀ fuel, enough ≤ fuel → pumpOn answer now peer fuel s = pumpOn answer now peer enough s := by
  cases held : s.tracker.progress peer with
  | none =>
    refine ⟨0, fun fuel _ => ?_⟩
    rw [pumpOn_stop (.inl held), pumpOn_stop (.inl held)]
  | some pr =>
    refine ⟨pr.rounds, fun fuel covered => ?_⟩
    exact pumpOn_fuel Progress.rounds (fun _ => True) (fun _ => True) (fun _ _ _ _ _ _ => trivial)
      (fun _ _ => trivial) (fun pr => Progress.rounds_pos) (fun h => h.rounds) trivial held covered le_rfl

omit [LinearOrder I] in
theorem ownAnswer_within {l : LogStore I} (hc : l.visible.Contiguous) (log : s.log = l) {es : List (Entry I)}
    (h : s.ownAnswer peer = .ready es) : ∀ e ∈ es, e.index ≤ l.lastIndex := by
  intro e he
  have inside : e ∈ l.visible.entries := by
    unfold ownAnswer at h
    split at h
    · rw [← EntriesRead.ready.inj h] at he
      exact absurd he List.not_mem_nil
    · rw [log] at h
      exact List.mem_of_mem_drop ((entries_ready h).subset he)
  obtain ⟨i, hi, rfl⟩ := List.mem_iff_getElem.mp inside
  have index := hc i l.visible.entries[i] (List.getElem?_eq_getElem hi)
  simp only [LogStore.lastIndex, LogImage.lastIndex]
  lia

theorem pumpAppends_fuel (hc : s.log.visible.Contiguous) (live : s.poisoned = false) {fuel : Nat}
    (covered : s.log.lastIndex + 3 ≤ fuel) : s.pumpAppends now peer = pumpLoop now peer fuel s := by
  unfold pumpAppends
  rw [if_neg (by simp [live]), ← pumpOn_own, ← pumpOn_own]
  cases held : s.tracker.progress peer with
  | none => rw [pumpOn_stop (.inl held), pumpOn_stop (.inl held)]
  | some pr =>
    have enough := Progress.roundsTo_le s.log.lastIndex pr
    exact pumpOn_fuel (Progress.roundsTo s.log.lastIndex) (· ≤ s.log.lastIndex) (fun t => t.log = s.log) (fun t log es => ownAnswer_within hc log)
      (fun log same => same.trans log) (fun pr => Progress.roundsTo_pos _) (fun h => h.roundsTo) rfl held enough
      (enough.trans covered)

end Endpoint

end Sailing
