import Sailing.Freeze.History

/-!
# The claim scan

`scan_freeze_claims` caches the verdict of each queued entry it could read, while the log, the
queue and the commit move between scans. Over every history a scan reports an unreadable entry
or answers like a walk that caches nothing; and an entry whose verdict is cached for good can
become unreadable without a scan noticing.
-/

namespace Sailing.Freeze

open Wire (GeneratedCode)

open State (Exact Emptied)

variable (code : GeneratedCode)

/-- The target the apply arm of a `PrepareMerge` freezes for; none where it refuses the entry. -/
def admits (e : Wire.Entry) : Option Bytes :=
  match Wire.decodePrepareMergePayload code.prepareMergePayload e.data with
  | .ok payload => if generationIsWorking payload.sourceGenAfter then some payload.targetBytes else none
  | .error _ => none

/-- What a scan is to answer: the claims in order up to the first committed entry that the apply
arm would refuse, an error if such an entry is met above the commit. -/
def walk (commit : Index) : List Wire.Entry → List Bytes → Except PoisonReason (List Bytes)
  | [], claims => .ok claims
  | e :: entries, claims =>
    match admits code e with
    | some target => walk commit entries (claims ++ [target])
    | none => if e.index ≤ commit then .ok claims else .error .mergeDecode

/-- The entries of the queue, in log order. -/
def queued (s : State) : List Wire.Entry := s.log.filter (·.index ∈ s.freezeQueue)

variable {code} {s : State} {e : Wire.Entry} {idx : Index} {readable : Index → Bool}

theorem admits_eq_none_iff (alive : s.poison = none) :
    admits code e = none ↔ (s.applyPrepareMerge code e).poison.isSome := by
  unfold admits State.applyPrepareMerge
  cases decoded : Wire.decodePrepareMergePayload code.prepareMergePayload e.data with
  | error => simp [State.fail_poison]
  | ok payload =>
    cases working : generationIsWorking payload.sourceGenAfter with
    | false => simp [working, State.fail_poison]
    | true => simp [working, State.popAppliedFreeze, alive]

/-! ## Verdicts -/

variable (code) in
/-- A verdict on an entry that was judged no later than now. -/
def Judged (commit : Index) (e : Wire.Entry) : ClaimRead → Prop
  | .claim target => admits code e = some target
  | .refusedCommitted => admits code e = none ∧ e.index ≤ commit
  | .refusedAbove judgedAt => admits code e = none ∧ judgedAt < e.index

variable {commit : Index} {v : ClaimRead} {s' : State} {m : Move}

theorem Judged.mono {commit' : Index} (h : Judged code commit e v) (rise : commit ≤ commit') :
    Judged code commit' e v := by
  cases v with
  | claim => exact h
  | refusedCommitted => exact ⟨h.1, h.2.trans rise⟩
  | refusedAbove => exact h

variable (code) in
/-- A verdict that holds at this commit. -/
def Current (commit : Index) (e : Wire.Entry) (v : ClaimRead) : Prop :=
  Judged code commit e v ∧ ∀ judgedAt, v = .refusedAbove judgedAt → commit < e.index

theorem readClaim_ok (here : s.entryAt e.index = some e) (kind : e.kind = .prepareMerge)
    (read : readable e.index = true) : ∃ v, s.readClaim code readable e.index commit = .ok v ∧ Current code commit e v := by
  have refuses (fault) (refused : shapeEntryMove code e = .invalid fault) (none_here : admits code e = none) :
      ∃ v, s.readClaim code readable e.index commit = .ok v ∧ Current code commit e v := by
    by_cases low : e.index ≤ commit
    · refine ⟨.refusedCommitted, by simp [State.readClaim, read, here, kind, refused, low], ⟨none_here, low⟩, ?_⟩
      rintro _ ⟨⟩
    · refine ⟨.refusedAbove commit, by simp [State.readClaim, read, here, kind, refused, low], ⟨none_here, not_le.mp low⟩, ?_⟩
      exact fun _ _ => not_le.mp low
  cases decoded : Wire.decodePrepareMergePayload code.prepareMergePayload e.data with
  | error => exact refuses .decode (by simp only [shapeEntryMove, kind, decoded]) (by simp only [admits, decoded])
  | ok payload =>
    cases working : generationIsWorking payload.sourceGenAfter with
    | true =>
      have valid : shapeEntryMove code e = .valid payload.sourceGenAfter := by simp [shapeEntryMove, kind, decoded, judged, working]
      have target : admits code e = some payload.targetBytes := by simp [admits, decoded, working]
      refine ⟨.claim payload.targetBytes, by simp [State.readClaim, read, here, kind, valid, decoded], target, ?_⟩
      rintro _ ⟨⟩
    | false =>
      exact refuses .reservedGeneration (by simp [shapeEntryMove, kind, decoded, judged, working]) (by simp [admits, decoded, working])

theorem readClaim_unreadable (unread : readable idx = false) :
    s.readClaim code readable idx commit = .error .logRead := by
  simp [State.readClaim, unread]

/-- The cache answers with what it holds, or not at all for a refusal that is committed by now. -/
theorem cachedClaim_some (h : s.cachedClaim idx = some v) :
    s.claimCache idx = some v ∧ ∀ judgedAt, v = .refusedAbove judgedAt → s.commit < idx := by
  unfold State.cachedClaim at h
  cases cached : s.claimCache idx with
  | none => simp only [cached, reduceCtorEq] at h
  | some w =>
    cases w with
    | claim | refusedCommitted =>
      simp only [cached, Option.some.injEq] at h
      subst h
      exact ⟨rfl, nofun⟩
    | refusedAbove =>
      simp only [cached] at h
      split at h
      · cases h
      next above =>
      cases h
      exact ⟨rfl, fun _ _ => not_le.mp above⟩

theorem cachedClaim_of_cache (cached : s.claimCache idx = some v)
    (fresh : ∀ judgedAt, v = .refusedAbove judgedAt → s.commit < idx) : s.cachedClaim idx = some v := by
  cases v with
  | claim | refusedCommitted => simp only [State.cachedClaim, cached]
  | refusedAbove judgedAt =>
    simp only [State.cachedClaim, cached]
    exact if_neg (not_le.mpr (fresh judgedAt rfl))

/-- The verdict on a queued entry holds now; without one the entry is unreadable. -/
theorem claimVerdict_cases (here : s.entryAt e.index = some e) (kind : e.kind = .prepareMerge)
    (sound : ∀ v, s.claimCache e.index = some v → Judged code s.commit e v) :
    (s.cachedClaim e.index = none ∧ readable e.index = false ∧ s.claimVerdict code readable e.index = .error .logRead) ∨
      ∃ v cache, Current code s.commit e v ∧ (∀ i, cache i = if i = e.index then some v else s.claimCache i) ∧
        s.claimVerdict code readable e.index = .ok (v, { s with claimCache := cache }) := by
  unfold State.claimVerdict
  cases cached : s.cachedClaim e.index with
  | some v =>
    obtain ⟨held, fresh⟩ := cachedClaim_some cached
    refine .inr ⟨v, s.claimCache, ⟨sound v held, fresh⟩, fun i => ?_, rfl⟩
    split
    · next same => rw [same, held]
    · rfl
  | none =>
    cases read : readable e.index with
    | false =>
      rw [readClaim_unreadable read]
      exact .inl ⟨rfl, rfl, rfl⟩
    | true =>
      obtain ⟨v, answer, current⟩ : ∃ v, s.readClaim code readable e.index s.commit = .ok v ∧ Current code s.commit e v :=
        readClaim_ok here kind read
      rw [answer]
      exact .inr ⟨v, _, current, fun _ => rfl, rfl⟩

/-! ## One scan -/

section

variable {claims : List Bytes} {rest : List Index} {s' : State} {entries : List Wire.Entry} {commit : Index}

theorem scanLoop_error {reason : PoisonReason} (h : s.claimVerdict code readable idx = .error reason) :
    State.scanLoop code readable s claims (idx :: rest) = (.error reason, s) := by
  simp only [State.scanLoop, h]

theorem scanLoop_claim {target : Bytes} (h : s.claimVerdict code readable idx = .ok (.claim target, s')) :
    State.scanLoop code readable s claims (idx :: rest) = State.scanLoop code readable s' (claims ++ [target]) rest := by
  simp only [State.scanLoop, h]

theorem scanLoop_refusedCommitted (h : s.claimVerdict code readable idx = .ok (.refusedCommitted, s')) :
    State.scanLoop code readable s claims (idx :: rest) = (.ok claims, s') := by
  simp only [State.scanLoop, h]

theorem scanLoop_refusedAbove {judgedAt : Index} (h : s.claimVerdict code readable idx = .ok (.refusedAbove judgedAt, s')) :
    State.scanLoop code readable s claims (idx :: rest) = (.error .mergeDecode, s') := by
  simp only [State.scanLoop, h]

theorem walk_admitted {target : Bytes} (h : admits code e = some target) :
    walk code commit (e :: entries) claims = walk code commit entries (claims ++ [target]) := by
  simp only [walk, h]

theorem walk_refused (h : admits code e = none) :
    walk code commit (e :: entries) claims = if e.index ≤ commit then .ok claims else .error .mergeDecode := by
  simp only [walk, h]

end

variable (code) in
/-- The entries are in the log, and the verdicts cached for them hold. -/
def Answers (s : State) (entries : List Wire.Entry) : Prop :=
  ∀ e ∈ entries, s.entryAt e.index = some e ∧ e.kind = .prepareMerge ∧ ∀ v, s.claimCache e.index = some v → Judged code s.commit e v

theorem Answers.cached {entries : List Wire.Entry} {cache : Index → Option ClaimRead}
    (h : Answers code s (e :: entries)) (current : Current code s.commit e v)
    (cached : ∀ i, cache i = if i = e.index then some v else s.claimCache i) :
    Answers code { s with claimCache := cache } entries := by
  intro x mem
  obtain ⟨here, kind, sound⟩ := h x (List.mem_cons_of_mem e mem)
  refine ⟨here, kind, fun w held => ?_⟩
  change cache x.index = some w at held
  rw [cached] at held
  split at held
  · next same =>
    cases held
    have there := (h e List.mem_cons_self).1
    rw [← same, here] at there
    cases there
    exact current.1
  · exact sound w held

/-- A scan answers like the walk, or reports an unreadable entry; what it caches holds. -/
theorem scanLoop_spec (readable : Index → Bool) (entries : List Wire.Entry) (s : State) (claims : List Bytes)
    (h : Answers code s entries) :
    ((State.scanLoop code readable s claims (entries.map (·.index))).1 = walk code s.commit entries claims ∨
        (State.scanLoop code readable s claims (entries.map (·.index))).1 = .error .logRead ∧
          ∃ e ∈ entries, readable e.index = false) ∧
      ∀ i v, (State.scanLoop code readable s claims (entries.map (·.index))).2.claimCache i = some v →
        s.claimCache i = some v ∨ ∃ e ∈ entries, e.index = i ∧ Judged code s.commit e v := by
  induction entries generalizing s claims with
  | nil => exact ⟨.inl rfl, fun i v held => .inl held⟩
  | cons e entries ih =>
    obtain ⟨here, kind, sound⟩ := h e List.mem_cons_self
    have old {cache : Index → Option ClaimRead} {v : ClaimRead} (current : Current code s.commit e v)
        (cached : ∀ i, cache i = if i = e.index then some v else s.claimCache i) (i : Index) (w : ClaimRead)
        (held : cache i = some w) : s.claimCache i = some w ∨ ∃ x ∈ e :: entries, x.index = i ∧ Judged code s.commit x w := by
      rw [cached] at held
      split at held
      · next same =>
        cases held
        exact .inr ⟨e, List.mem_cons_self, same.symm, current.1⟩
      · exact .inl held
    obtain ⟨-, unread, verdict⟩ | ⟨v, cache, current, cached, verdict⟩ :
        (s.cachedClaim e.index = none ∧ readable e.index = false ∧ s.claimVerdict code readable e.index = .error .logRead) ∨ _ :=
      claimVerdict_cases here kind sound
    · rw [List.map_cons, scanLoop_error verdict]
      exact ⟨.inr ⟨rfl, e, List.mem_cons_self, unread⟩, fun i v held => .inl held⟩
    cases v with
    | claim target =>
      have admitted : admits code e = some target := current.1
      rw [List.map_cons, scanLoop_claim verdict, walk_admitted admitted]
      obtain ⟨answer, caches⟩ := ih { s with claimCache := cache } (claims ++ [target]) (h.cached current cached)
      refine ⟨answer.imp_right fun ⟨failed, x, mem, unread⟩ => ⟨failed, x, List.mem_cons_of_mem e mem, unread⟩, ?_⟩
      intro i v held
      obtain before | ⟨x, mem, place, judged⟩ := caches i v held
      · exact old current cached i v before
      · exact .inr ⟨x, List.mem_cons_of_mem e mem, place, judged⟩
    | refusedCommitted =>
      rw [List.map_cons, scanLoop_refusedCommitted verdict, walk_refused current.1.1, if_pos current.1.2]
      exact ⟨.inl rfl, old current cached⟩
    | refusedAbove judgedAt =>
      rw [List.map_cons, scanLoop_refusedAbove verdict, walk_refused current.1.1,
        if_neg (not_le.mpr (current.2 judgedAt rfl))]
      exact ⟨.inl rfl, old current cached⟩

/-! ## The cache over a history -/

theorem mem_queue_iff (h : s.Exact) (mem : e ∈ s.log) :
    e.index ∈ s.freezeQueue ↔ e.kind = .prepareMerge ∧ s.applied < e.index := by
  rw [h.mem_queue]
  constructor
  · rintro ⟨x, listed, kind, above, same⟩
    rw [eq_of_index h.whole mem listed same.symm]
    exact ⟨kind, above⟩
  · exact fun pending => ⟨e, mem, pending.1, pending.2, rfl⟩

theorem queue_eq_queued (h : s.Exact) : s.freezeQueue = (queued s).map (·.index) := by
  have same : queued s = s.log.filter fun e => e.kind = .prepareMerge ∧ s.applied < e.index :=
    List.filter_congr fun e mem => decide_eq_decide.mpr (mem_queue_iff h mem)
  rw [same]
  exact h.queue

variable (code) in
/-- Every cached verdict is on a queued entry, and holds. -/
def Sound (s : State) : Prop :=
  ∀ i v, s.claimCache i = some v → ∃ e ∈ s.log, e.index = i ∧ e.kind = .prepareMerge ∧ s.applied < i ∧ Judged code s.commit e v

theorem sound_of_empty (empty : ∀ i, s.claimCache i = none) : Sound code s := by
  intro i v held
  rw [empty] at held
  cases held

theorem Sound.answers (sound : Sound code s) (h : s.Exact) : Answers code s (queued s) := by
  intro e mem
  obtain ⟨mem, listed⟩ := List.mem_filter.mp mem
  refine ⟨State.entryAt_of_mem h.whole mem, ((mem_queue_iff h mem).mp (of_decide_eq_true listed)).1, fun v held => ?_⟩
  obtain ⟨x, listed, same, -, -, judged⟩ := sound _ v held
  rwa [eq_of_index h.whole mem listed same.symm]

/-- The verdicts that stay are on entries that stay unapplied. -/
theorem Sound.of_kept (sound : Sound code s) (rise : s.commit ≤ s'.commit)
    (kept : ∀ i v, s'.claimCache i = some v → s.claimCache i = some v)
    (stays : ∀ e ∈ s.log, e.kind = .prepareMerge → s.applied < e.index → s'.claimCache e.index ≠ none →
      e ∈ s'.log ∧ s'.applied < e.index) : Sound code s' := by
  intro i v held
  obtain ⟨e, mem, rfl, kind, above, judged⟩ := sound i v (kept i v held)
  obtain ⟨mem', above'⟩ := stays e mem kind above (by rw [held]; exact nofun)
  exact ⟨e, mem', rfl, kind, above', judged.mono rise⟩

theorem Sound.appended {cut : Index} {entries : List Wire.Entry} {cache : Index → Option ClaimRead} (sound : Sound code s)
    (h : s.Exact) (a : s.Appends cut commit entries cache) : Sound code (s.appended cut commit entries cache) := by
  refine sound.of_kept a.rise a.sub fun e mem _ above cached => ⟨?_, above⟩
  refine h.mem_appended mem ?_
  obtain whole | cleared := a.cleared
  · rw [whole]
    exact (index_of_mem h.whole mem).2
  · exact not_lt.mp fun high => cached (cleared _ high)

theorem sound_scan (h : s.Exact) (sound : Sound code s) (readable : Index → Bool) :
    Sound code (s.scanFreezeClaims code readable).2 := by
  obtain ⟨-, caches⟩ := scanLoop_spec readable (queued s) s [] (sound.answers h)
  rw [← queue_eq_queued h] at caches
  intro i v held
  have judged := caches i v held
  obtain ⟨cache, same⟩ := State.scan_state code s readable
  rw [same]
  obtain before | ⟨e, mem, rfl, judged⟩ := judged
  · exact sound i v before
  obtain ⟨mem, listed⟩ := List.mem_filter.mp mem
  obtain ⟨kind, above⟩ := (mem_queue_iff h mem).mp (of_decide_eq_true listed)
  exact ⟨e, mem, rfl, kind, above, judged⟩

theorem Change.sound (change : Change code s m s') (h : s.Exact) (sound : Sound code s) :
    Sound code s' ∨ s'.Emptied := by
  cases change with
  | idle | fail | capture => exact .inl sound
  | commit calm rise => exact .inl (sound.of_kept rise (fun i v held => held) fun x mem _ above _ => ⟨mem, above⟩)
  | propose entry a => exact .inl (sound.appended h a)
  | accept leaderCommit accepts place a => exact .inl (sound.appended h a)
  | scan readable => exact .inl (sound_scan h sound readable)
  | freeze =>
    refine .inl (sound.of_kept le_rfl (fun i v held => ?_) fun x mem kind above cached => ⟨mem, ?_⟩)
    · change (if _ then none else s.claimCache i) = some v at held
      split at held
      · cases held
      · exact held
    · refine not_le.mp fun low => cached (if_pos ?_)
      exact (mem_takeWhile_iff h.sorted).mpr ⟨(mem_queue_iff h mem).mpr ⟨kind, above⟩, low⟩
  | refuse => exact .inr ⟨State.fail_poison _ _, rfl⟩
  | @advance e frozen other shapeGen next kind held =>
    obtain ⟨-, there, place⟩ := State.entryAt_some h.whole next.2.2
    refine .inl (sound.of_kept le_rfl (fun i v held => held) fun x mem freeze above _ => ⟨mem, ?_⟩)
    have other_entry : x.index ≠ e.index := by
      intro at_e
      rw [← eq_of_index h.whole mem there at_e] at kind
      exact kind freeze
    show e.index < x.index
    lia
  | install => exact .inl (sound_of_empty fun _ => rfl)
  | @adopt boundary shapeGen alive ahead inside committed =>
    refine .inl (sound.of_kept le_rfl (fun i v held => ?_) fun x mem _ _ cached =>
      ⟨mem, not_le.mp fun low => cached (if_neg (not_lt.mpr low))⟩)
    change (if boundary < i then s.claimCache i else none) = some v at held
    split at held
    · exact held
    · cases held
  | compact covered =>
    refine .inl (sound.of_kept le_rfl (fun i v held => held) fun x mem _ above _ => ⟨?_, above⟩)
    exact h.mem_compacted mem ((covered.trans h.captured).trans_lt above)
  | restart kept chunk =>
    obtain ⟨queue, poison, same⟩ := restart_eq kept chunk
    exact .inl (sound_of_empty fun i => by rw [same])

theorem sound_run (code : GeneratedCode) (moves : List Move) :
    (run code .new moves).Exact ∧ Sound code (run code .new moves) ∨ (run code .new moves).Emptied := by
  induction moves using List.reverseRecOn with
  | nil => exact .inl ⟨⟨rfl, le_rfl, le_rfl, le_rfl, le_rfl, rfl⟩, sound_of_empty fun _ => rfl⟩
  | append_singleton moves m ih =>
    rw [run_concat]
    obtain ⟨h, sound⟩ | emptied := ih
    · obtain exact | emptied : (step code (run code .new moves) m).Exact ∨ _ := listed_step (.inl h) m
      · obtain sound | emptied := (change_step h m).sound h sound
        · exact .inl ⟨exact, sound⟩
        · exact .inr emptied
      · exact .inr emptied
    · cases running : m.isRestart with
      | false => exact .inr (emptied_step emptied running)
      | true =>
        cases m with
        | restart kept chunk =>
          obtain exact | emptied := State.restart_cases kept chunk
          · refine .inl ⟨exact, sound_of_empty fun i => ?_⟩
            obtain ⟨queue, poison, same⟩ := restart_eq kept chunk
            rw [step, same]
          · exact .inr emptied
        | _ => cases running

/-! ## Verdicts that stay -/

/-- After a verdict the cache holds one for every index it held one for; only a refusal judged
above the commit is judged again. -/
theorem claimVerdict_keeps {i : Index} {w : ClaimRead} (h : s.claimVerdict code readable i = .ok (w, s'))
    (cached : s.claimCache idx = some v) : ∃ v', s'.claimCache idx = some v' ∧ (v' = v ∨ ∃ judgedAt, v = .refusedAbove judgedAt) := by
  obtain ⟨rfl, -⟩ | ⟨uncached, rfl⟩ := State.claimVerdict_cache h
  · exact ⟨v, cached, .inl rfl⟩
  by_cases same : idx = i
  · refine ⟨w, if_pos same, .inr ?_⟩
    subst same
    cases v with
    | refusedAbove judgedAt => exact ⟨judgedAt, rfl⟩
    | _ => simp only [State.cachedClaim, cached, reduceCtorEq] at uncached
  · exact ⟨v, (if_neg same).trans cached, .inl rfl⟩

theorem scanLoop_keeps (rest : List Index) (s : State) (claims : List Bytes) (cached : s.claimCache idx = some v) :
    ∃ v', (State.scanLoop code readable s claims rest).2.claimCache idx = some v' ∧
      (v' = v ∨ ∃ judgedAt, v = .refusedAbove judgedAt) := by
  induction rest generalizing s claims v with
  | nil => exact ⟨v, cached, .inl rfl⟩
  | cons i rest ih =>
    cases verdict : s.claimVerdict code readable i with
    | error =>
      rw [scanLoop_error verdict]
      exact ⟨v, cached, .inl rfl⟩
    | ok answer =>
      obtain ⟨w, s'⟩ := answer
      obtain ⟨v', held, from_v⟩ := claimVerdict_keeps verdict cached
      cases w with
      | claim target =>
        rw [scanLoop_claim verdict]
        obtain ⟨v'', held', from_v'⟩ := ih s' (claims ++ [target]) held
        refine ⟨v'', held', ?_⟩
        obtain rfl | above := from_v
        · exact from_v'
        · exact .inr above
      | refusedCommitted =>
        rw [scanLoop_refusedCommitted verdict]
        exact ⟨v', held, from_v⟩
      | refusedAbove =>
        rw [scanLoop_refusedAbove verdict]
        exact ⟨v', held, from_v⟩

theorem scanLoop_update (rest : List Index) (s : State) (claims : List Bytes) (cached : s.cachedClaim idx = some v) :
    State.scanLoop code readable s claims rest = State.scanLoop code (Function.update readable idx true) s claims rest := by
  induction rest generalizing s claims with
  | nil => rfl
  | cons i rest ih =>
    have same : s.claimVerdict code readable i = s.claimVerdict code (Function.update readable idx true) i := by
      by_cases here : i = idx
      · subst here
        simp only [State.claimVerdict, cached]
      · simp only [State.claimVerdict, State.readClaim, Function.update_of_ne here]
    cases verdict : s.claimVerdict code readable i with
    | error => rw [scanLoop_error verdict, scanLoop_error (same.symm.trans verdict)]
    | ok answer =>
      obtain ⟨w, s'⟩ := answer
      have verdict' := same.symm.trans verdict
      cases w with
      | claim target =>
        rw [scanLoop_claim verdict, scanLoop_claim verdict']
        refine ih s' (claims ++ [target]) ?_
        obtain ⟨rfl, -⟩ | ⟨uncached, rfl⟩ := State.claimVerdict_cache verdict
        · exact cached
        have other : idx ≠ i := by
          rintro rfl
          rw [cached] at uncached
          cases uncached
        obtain ⟨held, fresh⟩ := cachedClaim_some cached
        exact cachedClaim_of_cache ((if_neg other).trans held) fresh
      | refusedCommitted => rw [scanLoop_refusedCommitted verdict, scanLoop_refusedCommitted verdict']
      | refusedAbove => rw [scanLoop_refusedAbove verdict, scanLoop_refusedAbove verdict']

theorem scanLoop_append (before rest : List Index) (s : State) (claims found : List Bytes)
    (ok : (State.scanLoop code readable s claims before).1 = .ok found) (all : found.length = claims.length + before.length) :
    State.scanLoop code readable s claims (before ++ rest) =
      State.scanLoop code readable (State.scanLoop code readable s claims before).2 found rest := by
  induction before generalizing s claims with
  | nil =>
    cases ok
    rfl
  | cons i before ih =>
    cases verdict : s.claimVerdict code readable i with
    | error =>
      rw [scanLoop_error verdict] at ok
      cases ok
    | ok answer =>
      obtain ⟨w, s'⟩ := answer
      cases w with
      | claim =>
        rw [List.cons_append, scanLoop_claim verdict, scanLoop_claim verdict]
        rw [scanLoop_claim verdict] at ok
        refine ih s' _ ok ?_
        rw [all, List.length_append, List.length_cons, List.length_singleton]
        omega
      | refusedCommitted =>
        rw [scanLoop_refusedCommitted verdict] at ok
        cases ok
        rw [List.length_cons] at all
        omega
      | refusedAbove =>
        rw [scanLoop_refusedAbove verdict] at ok
        cases ok

variable (code) in
/-- The scan gets as far as `idx`, taking every index before it as a claim, and can read it. -/
def Reads (s : State) (readable : Index → Bool) (idx : Index) : Prop :=
  ∃ before after found, s.freezeQueue = before ++ idx :: after ∧ (State.scanLoop code readable s [] before).1 = .ok found ∧
    found.length = before.length ∧ readable idx = true

theorem claimVerdict_readable (here : s.entryAt e.index = some e) (kind : e.kind = .prepareMerge) (read : readable e.index = true) :
    ∃ v s', s.claimVerdict code readable e.index = .ok (v, s') ∧ s'.claimCache e.index = some v ∧
      ∀ judgedAt, v = .refusedAbove judgedAt → s.commit < e.index := by
  unfold State.claimVerdict
  cases cached : s.cachedClaim e.index with
  | some v =>
    obtain ⟨held, fresh⟩ := cachedClaim_some cached
    exact ⟨v, s, rfl, held, fresh⟩
  | none =>
    obtain ⟨v, answer, current⟩ : ∃ v, s.readClaim code readable e.index s.commit = .ok v ∧ Current code s.commit e v :=
      readClaim_ok here kind read
    rw [answer]
    exact ⟨v, _, rfl, if_pos rfl, current.2⟩

theorem Reads.cached (reads : Reads code s readable idx) (h : s.Exact) :
    ∃ v, (s.scanFreezeClaims code readable).2.claimCache idx = some v ∧
      ∀ judgedAt, v = .refusedAbove judgedAt → s.commit < idx := by
  obtain ⟨before, after, found, queue, ok, all, read⟩ := reads
  obtain ⟨e, mem, kind, -, rfl⟩ : ∃ e ∈ s.log, e.kind = .prepareMerge ∧ s.applied < e.index ∧ e.index = idx :=
    h.mem_queue.mp (by rw [queue]; exact List.mem_append_right _ List.mem_cons_self)
  obtain ⟨cache, same⟩ : ∃ cache, (State.scanLoop code readable s [] before).2 = { s with claimCache := cache } :=
    State.scanLoop_state readable before s []
  have here : ({ s with claimCache := cache } : State).entryAt e.index = some e := State.entryAt_of_mem h.whole mem
  obtain ⟨v, s', verdict, held, fresh⟩ :
      ∃ v s', ({ s with claimCache := cache } : State).claimVerdict code readable e.index = .ok (v, s') ∧ s'.claimCache e.index = some v ∧
        ∀ judgedAt, v = .refusedAbove judgedAt → s.commit < e.index := claimVerdict_readable here kind read
  rw [State.scanFreezeClaims, queue, scanLoop_append before _ s [] found ok (by simpa using all), same]
  cases v with
  | claim target =>
    rw [scanLoop_claim verdict]
    obtain ⟨v', held', rfl | ⟨judgedAt, same⟩⟩ := scanLoop_keeps after s' (found ++ [target]) held
    · exact ⟨.claim target, held', nofun⟩
    · cases same
  | refusedCommitted =>
    rw [scanLoop_refusedCommitted verdict]
    exact ⟨_, held, fresh⟩
  | refusedAbove =>
    rw [scanLoop_refusedAbove verdict]
    exact ⟨_, held, fresh⟩

/-- The entry at an index leaves the log, or the endpoint forgets what it read. -/
inductive Leaves (s : State) (idx : Index) : Move → Prop where
  | overwritten {prev : Index} {entries : List Wire.Entry} {e : Wire.Entry} {suffix : List Wire.Entry} (leaderCommit : Index) :
      s.Accepts prev entries e suffix → e.index ≤ idx → Leaves s idx (.onAppendEntries prev entries leaderCommit)
  | install (boundary : Index) (shapeGen : Nat) : s.poison = none → Leaves s idx (.install boundary shapeGen)
  | restart (kept : Kept) (chunk : Index → Option Nat) : Leaves s idx (.restart kept chunk)

theorem running_of_stays (stays : ¬ Leaves s idx m) : m.isRestart = false := by
  cases m with
  | restart kept chunk => exact absurd (.restart kept chunk) stays
  | _ => rfl

/-- The verdict is kept, or judged anew, or its entry is no longer pending. -/
def Keeps (s' : State) (idx : Index) (v : ClaimRead) : Prop :=
  idx ≤ s'.applied ∨ s'.Emptied ∨ ∃ v', s'.claimCache idx = some v' ∧ (v' = v ∨ ∃ judgedAt, v = .refusedAbove judgedAt)

theorem Keeps.of_cache (cached : s'.claimCache idx = some v) : Keeps s' idx v := .inr (.inr ⟨v, cached, .inl rfl⟩)

theorem Change.keeps (change : Change code s m s') (h : s.Exact) (sound : Sound code s)
    (cached : s.claimCache idx = some v) (stays : ¬ Leaves s idx m) : Keeps s' idx v := by
  cases change with
  | idle | fail | commit | advance | capture | compact => exact .of_cache cached
  | propose entry a =>
    obtain ⟨x, mem, rfl, -⟩ := sound idx v cached
    exact .of_cache ((a.kept _ (index_of_mem h.whole mem).2).trans cached)
  | @accept prev cut commit entries suffix e cache leaderCommit accepts place a =>
    have below : idx ≤ cut := by
      by_contra high
      exact stays (.overwritten leaderCommit accepts (by lia))
    exact .of_cache ((a.kept idx below).trans cached)
  | scan => exact .inr (.inr (scanLoop_keeps s.freezeQueue s [] cached))
  | @freeze e other shapeGen next freezes =>
    by_cases low : idx ≤ e.index
    · exact .inl low
    · refine .of_cache ((if_neg fun popped => ?_).trans cached)
      exact low ((mem_takeWhile_iff h.sorted).mp popped).2
  | refuse => exact .inr (.inl ⟨State.fail_poison _ _, rfl⟩)
  | install boundary shapeGen alive => exact absurd (.install boundary shapeGen alive) stays
  | @adopt boundary shapeGen alive ahead inside committed =>
    by_cases low : boundary < idx
    · exact .of_cache ((if_pos low).trans cached)
    · exact .inl (not_lt.mp low)
  | restart kept chunk => exact absurd (.restart kept chunk) stays

/-- Nothing but an install or a restart takes an apply back. -/
theorem Change.applied (change : Change code s m s') (h : s.Exact) (stays : ¬ Leaves s idx m) :
    s.applied ≤ s'.applied := by
  have ahead {e : Wire.Entry} (next : s.Next e) : s.applied ≤ e.index := by
    have := (State.entryAt_some h.whole next.2.2).2.2
    lia
  cases change with
  | idle | fail | commit | propose | accept | refuse | capture | compact => exact le_rfl
  | scan readable =>
    obtain ⟨cache, same⟩ := State.scan_state code s readable
    rw [same]
  | freeze other shapeGen next => exact ahead next
  | advance other shapeGen next => exact ahead next
  | install boundary shapeGen alive => exact absurd (.install boundary shapeGen alive) stays
  | adopt shapeGen alive above => exact above.le
  | restart kept chunk => exact absurd (.restart kept chunk) stays

variable (code) in
/-- The entry at `idx` was read by a scan and has stayed in the log since; if it was refused while
uncommitted, then `above`. -/
def ReadSince (idx : Index) (above : Prop) (moves : List Move) : Prop :=
  Since
    (fun before m => ∃ readable, m = .scanFreezeClaims readable ∧ Reads code (run code .new before) readable idx ∧
      ((∃ e, (run code .new before).entryAt idx = some e ∧ admits code e = none) → (run code .new before).commit < idx → above))
    (fun before m => Leaves (run code .new before) idx m) moves

/-- The verdict of a read is there for as long as its entry is pending. -/
theorem cached_of_readSince {above : Prop} {moves : List Move} (read : ReadSince code idx above moves) :
    idx ≤ (run code .new moves).applied ∨ (run code .new moves).Emptied ∨
      ∃ v, (run code .new moves).claimCache idx = some v ∧ ∀ judgedAt, v = .refusedAbove judgedAt → above := by
  induction moves using List.reverseRecOn with
  | nil => exact absurd read since_nil
  | append_singleton moves m ih =>
    unfold ReadSince at read
    rw [since_concat] at read
    rw [run_concat]
    obtain ⟨h, sound⟩ | emptied := sound_run code moves
    · obtain ⟨readable, rfl, reads, refused⟩ | ⟨earlier, stays⟩ := read
      · obtain ⟨v, held, fresh⟩ := reads.cached h
        refine .inr (.inr ⟨v, held, fun judgedAt same => refused ?_ (fresh judgedAt same)⟩)
        obtain ⟨e, mem, rfl, -, -, judged⟩ := sound_scan h sound readable idx v held
        subst same
        obtain ⟨cache, same⟩ := State.scan_state code (run code .new moves) readable
        rw [same] at mem
        exact ⟨e, State.entryAt_of_mem h.whole mem, judged.1⟩
      · obtain applied | emptied | ⟨v, held, late⟩ := ih earlier
        · exact .inl (applied.trans ((change_step h m).applied h stays))
        · exact .inr (.inl (emptied_step emptied (running_of_stays stays)))
        · obtain applied | emptied | ⟨v', held', rfl | ⟨judgedAt, same⟩⟩ := (change_step h m).keeps h sound held stays
          · exact .inl applied
          · exact .inr (.inl emptied)
          · exact .inr (.inr ⟨v', held', late⟩)
          · exact .inr (.inr ⟨v', held', fun _ _ => late judgedAt same⟩)
    · obtain ⟨readable, rfl, ⟨before, after, found, queue, -⟩, -⟩ | ⟨-, stays⟩ := read
      · rw [emptied.2] at queue
        cases before <;> cases queue
      · exact .inr (.inl (emptied_step emptied (running_of_stays stays)))

/-! ## Results -/

theorem fresh_eq_walk (h : s.Exact) :
    (State.scanFreezeClaims code { s with claimCache := fun _ => none } fun _ => true).1 = walk code s.commit (queued s) [] := by
  have whole : Exact { s with claimCache := fun _ => none } := ⟨h.whole, h.above, h.within, h.committed, h.captured, h.queue⟩
  have empty : Sound code { s with claimCache := fun _ => none } := sound_of_empty fun _ => rfl
  obtain ⟨answer, -⟩ := scanLoop_spec (fun _ => true) _ _ [] (empty.answers whole)
  rw [← queue_eq_queued whole] at answer
  obtain same | ⟨-, e, -, unread⟩ := answer
  · exact same
  · cases unread

/-- Over every history, a scan reports an unreadable entry or answers like a fresh walk of the
queue over a readable log: the claims up to the first committed entry that the apply arm would
refuse, or an error if one is met above the commit. An entry that was read and stays in the log
need not be readable again, unless it was refused while uncommitted and is committed now. -/
theorem claim_scan_fresh (code : GeneratedCode) (moves : List Move) (readable : Index → Bool) :
    let s := run code .new moves
    let fresh := (State.scanFreezeClaims code { s with claimCache := fun _ => none } fun _ => true).1
    (((s.scanFreezeClaims code readable).1 = .error .logRead ∧ ∃ i ∈ s.freezeQueue, readable i = false) ∨
        (s.scanFreezeClaims code readable).1 = fresh) ∧
      fresh = walk code s.commit (queued s) [] ∧
      (s.poison = none → ∀ e, admits code e = none ↔ (s.applyPrepareMerge code e).poison.isSome) ∧
      ∀ idx ∈ s.freezeQueue, ReadSince code idx (s.commit < idx) moves →
        s.scanFreezeClaims code readable = s.scanFreezeClaims code (Function.update readable idx true) := by
  intro s fresh
  obtain ⟨h, sound⟩ | emptied : s.Exact ∧ Sound code s ∨ s.Emptied := sound_run code moves
  · have walked : fresh = walk code s.commit (queued s) [] := fresh_eq_walk h
    refine ⟨?_, walked, fun alive e => admits_eq_none_iff alive, fun idx mem read => ?_⟩
    · obtain ⟨answer, -⟩ := scanLoop_spec readable (queued s) s [] (sound.answers h)
      rw [← queue_eq_queued h, ← walked] at answer
      obtain same | ⟨failed, e, listed, unread⟩ := answer
      · exact Or.inr same
      · exact Or.inl ⟨failed, e.index, of_decide_eq_true (List.mem_filter.mp listed).2, unread⟩
    · obtain ⟨e, -, -, pending, rfl⟩ := h.mem_queue.mp mem
      obtain applied | emptied | ⟨v, held, late⟩ := cached_of_readSince read
      · exact absurd pending (not_lt.mpr applied)
      · rw [show s.freezeQueue = [] from emptied.2] at mem
        cases mem
      · exact scanLoop_update s.freezeQueue s [] (cachedClaim_of_cache held late)
  · have queue : s.freezeQueue = [] := emptied.2
    have nothing (s' : State) (r : Index → Bool) (same : s'.freezeQueue = []) : s'.scanFreezeClaims code r = (.ok [], s') := by
      rw [State.scanFreezeClaims, same]
      rfl
    have empty : fresh = .ok [] := congrArg Prod.fst (nothing { s with claimCache := fun _ => none } (fun _ => true) queue)
    refine ⟨Or.inr ?_, ?_, fun alive => absurd emptied (State.not_emptied alive), fun idx mem => ?_⟩
    · rw [nothing s readable queue, empty]
    · have none_queued : queued s = [] := by
        unfold queued
        rw [queue]
        simp
      rw [none_queued, empty]
      rfl
    · rw [queue] at mem
      cases mem

end Sailing.Freeze
