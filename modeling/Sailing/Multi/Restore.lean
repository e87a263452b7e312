import Sailing.Multi.Host

/-!
# Restoring the groups of a host

A group is refused with `AbsorbPending` when a hosted replica speaks for its id: by
a debt, by a pin, or by a park whose window was seen closed. After a crash nobody
does, and a crank makes a replica speak only for the source of its park and for
what its source spoke for. So a run in which no crank finds a park whose source is
still to be restored refuses no restore (`restore_not_absorbPending`); a crank that
does may close the door on that source (`restore_target_first`).
-/

namespace Sailing.Multi

open GroupId

variable {G I : Type} [GroupId G] [DecidableEq I]

theorem encode_injective {g g' : G} (h : encode g = encode g') : g = g' :=
  Option.some.inj ((decode_encode g).symm.trans ((congrArg decode h).trans (decode_encode g')))

/-! ## What a replica speaks for -/

namespace Replica

variable {r : Replica}

/-- The ids nobody else may be admitted under. -/
def speaksFor (r : Replica) : List Bytes :=
  r.debts ++ r.recoveryPins ++ ((r.park.filter (·.windowClosed)).map (·.source)).toList

theorem speaksFor_applyEntry (free : r.park = none) (i : Index) (term : Term) (kind : ShapeKind) :
    (r.applyEntry i term kind).speaksFor = r.speaksFor := by
  cases kind with
  | other => rfl
  | split =>
    simp only [applyEntry]
    split <;> [skip; split] <;> rfl
  | prepareMerge | thawDischarged =>
    simp only [applyEntry]
    split <;> rfl
  | commitMerge =>
    simp only [applyEntry]
    split
    · rfl
    split
    · rfl
    split
    · rfl
    · simp [speaksFor, debts, free]
  | rollbackMerge =>
    simp only [applyEntry]
    split
    · rfl
    split
    · split <;> rfl
    · split <;> rfl

theorem speaksFor_drain (fuel : Nat) (r : Replica) : (drain fuel r).speaksFor = r.speaksFor := by
  induction fuel generalizing r with
  | zero => rfl
  | succ fuel ih =>
    unfold drain
    split
    · rfl
    next stopped =>
    split
    · rfl
    split
    · rfl
    · rw [ih]
      exact speaksFor_applyEntry (by simp_all) _ _ _

theorem drain_parked (parked : r.park.isSome = true) (fuel : Nat) : drain fuel r = r := by
  cases fuel with
  | zero => rfl
  | succ => simp [drain, parked]

theorem speaksFor_restart (store : Store) : (restart store).speaksFor = [] := speaksFor_drain _ _

theorem speaksFor_advance (boundary : Index) (freezeTerm : Term) :
    (r.advanceCommitOnFreezeIdentity boundary freezeTerm).speaksFor = r.speaksFor := by
  unfold advanceCommitOnFreezeIdentity
  split
  · rfl
  split
  · rfl
  · exact speaksFor_drain _ _

theorem park_advance {p : Park} (h : r.park = some p) (boundary : Index) (freezeTerm : Term) :
    (r.advanceCommitOnFreezeIdentity boundary freezeTerm).park = some p := by
  unfold advanceCommitOnFreezeIdentity
  split
  · exact h
  split
  · exact h
  unfold applyCommitted
  rw [drain_parked (by simp [h])]
  exact h

variable {key : Bytes}

theorem mem_speaksFor : key ∈ r.speaksFor ↔ key ∈ r.debts ∨ key ∈ r.recoveryPins ∨
    ∃ p, r.park = some p ∧ p.windowClosed = true ∧ p.source = key := by
  simp [speaksFor, and_assoc, Option.filter_eq_some_iff]

theorem mem_speaksFor_latch (h : key ∈ r.latchMergeWindowClosed.speaksFor) :
    key ∈ r.speaksFor ∨ ∃ p, r.park = some p ∧ p.source = key := by
  rcases mem_speaksFor.mp h with h | h | ⟨p, hp, -, rfl⟩
  · exact .inl (mem_speaksFor.mpr (.inl h))
  · exact .inl (mem_speaksFor.mpr (.inr (.inl h)))
  · obtain ⟨q, hq, rfl⟩ := Option.map_eq_some_iff.mp hp
    exact .inr ⟨q, hq, rfl⟩

theorem mem_speaksFor_of_unparked {r' : Replica} (h : key ∈ r'.speaksFor)
    (debts : r'.debts = r.debts) (pins : r'.recoveryPins = r.recoveryPins) (park : r'.park = none) :
    key ∈ r.speaksFor := by
  rcases mem_speaksFor.mp h with h | h | ⟨p, hp, -⟩
  · exact mem_speaksFor.mpr (.inl (debts ▸ h))
  · exact mem_speaksFor.mpr (.inr (.inl (pins ▸ h)))
  · exact absurd (park.symm.trans hp) (by simp)

theorem mem_speaksFor_aborted (h : key ∈ r.resolvePendingMergeAborted.speaksFor) : key ∈ r.speaksFor := by
  unfold resolvePendingMergeAborted at h
  split at h
  · exact h
  · exact mem_speaksFor_of_unparked h rfl rfl rfl

theorem mem_speaksFor_resolved (absorbs : Bool)
    (h : key ∈ (r.resolvePendingMerge absorbs).speaksFor) : key ∈ r.speaksFor := by
  unfold resolvePendingMerge at h
  split at h
  · exact h
  · split at h <;> exact mem_speaksFor_of_unparked h rfl rfl rfl

theorem mem_speaksFor_pinned {keys : List Bytes}
    (h : key ∈ (r.pinFailedCapture keys).speaksFor) : key ∈ r.speaksFor ∨ key ∈ keys := by
  rcases mem_speaksFor.mp h with h | h | h
  · exact .inl (mem_speaksFor.mpr (.inl h))
  · rcases List.mem_append.mp h with h | h
    · exact .inl (mem_speaksFor.mpr (.inr (.inl h)))
    · exact .inr h
  · exact .inl (mem_speaksFor.mpr (.inr (.inr h)))

theorem mem_speaksFor_deferred {source : Bytes} {chain : List Bytes} {absorbs : Bool}
    (h : key ∈ ({ r.resolvePendingMerge absorbs with
      captureDebt := some source, inheritedDebts := r.inheritedDebts ++ chain } : Replica).speaksFor) :
    key ∈ r.speaksFor ∨ key = source ∨ key ∈ chain := by
  have inherited : key ∈ r.inheritedDebts → key ∈ r.speaksFor := fun h =>
    mem_speaksFor.mpr (.inl (List.mem_append_right _ h))
  rcases mem_speaksFor.mp h with h | h | h
  · rcases List.mem_append.mp h with h | h
    · exact .inr (.inl (by simpa using h))
    · exact (List.mem_append.mp h).imp inherited Or.inr
  · exact .inl (mem_speaksFor_resolved absorbs (mem_speaksFor.mpr (.inr (.inl h))))
  · exact .inl (mem_speaksFor_resolved absorbs (mem_speaksFor.mpr (.inr (.inr h))))

end Replica

/-! ## Runs -/

def HostCall.restores? : HostCall G I → Option G
  | .restore gid _ _ => some gid
  | _ => none

/-- The ids a run is to restore. -/
def HostCall.restored (calls : List (HostCall G I)) : List G := calls.filterMap restores?

namespace Host

variable {h : Host G I} {todo rest : List G}

/-- None of the keys is an id that is to be restored. -/
def Unspoken (todo : List G) (keys : List Bytes) : Prop := ∀ key ∈ keys, ∀ g ∈ todo, key ≠ encode g

/-- No park names an id that is to be restored. -/
def Ready (todo : List G) (h : Host G I) : Prop :=
  ∀ x ∈ h.groups, ∀ p ∈ x.2.park, ∀ g ∈ todo, p.source ≠ encode g

/-- No crank of the run finds a park whose source is still to be restored. -/
def Orderly : Host G I → List (HostCall G I) → Prop
  | _, [] => True
  | h, .service floor fate :: cs =>
    Ready (HostCall.restored cs) h ∧ (h.exec (.service floor fate)).2.Orderly cs
  | h, c :: cs => (h.exec c).2.Orderly cs

/-- Nobody stands in the way of what is to be restored. -/
structure Free (todo : List G) (h : Host G I) : Prop where
  distinct : (h.groups.map (·.1)).Nodup
  fresh : ∀ x ∈ h.groups, x.1 ∉ todo
  silent : ∀ x ∈ h.groups, Unspoken todo x.2.speaksFor

/-- The targets that a crank has not reached yet are parked, on other sources. -/
def Waits (todo rest : List G) (h : Host G I) : Prop :=
  ∀ x ∈ h.groups, x.1 ∈ rest → ∃ p, x.2.park = some p ∧ ∀ g ∈ todo, p.source ≠ encode g

variable {gid : G} {f : Replica → Replica}

omit [DecidableEq I] in
theorem mem_of_get {r : Replica} (hr : h.get gid = some r) : (gid, r) ∈ h.groups := by
  obtain ⟨⟨g, r'⟩, hf, rfl⟩ := Option.map_eq_some_iff.mp hr
  obtain rfl : g = gid := by simpa using List.find?_some hf
  exact List.mem_of_find?_eq_some hf

omit [DecidableEq I] in
theorem mem_modify {x : G × Replica} (hx : x ∈ (h.modify gid f).groups) :
    ∃ y ∈ h.groups, x.1 = y.1 ∧ (y.1 = gid ∧ x.2 = f y.2 ∨ y.1 ≠ gid ∧ x.2 = y.2) := by
  obtain ⟨y, hy, rfl⟩ := List.mem_map.mp hx
  refine ⟨y, hy, ?_⟩
  by_cases hg : y.1 = gid
  · rw [if_pos hg]
    exact ⟨rfl, .inl ⟨hg, rfl⟩⟩
  · rw [if_neg hg]
    exact ⟨rfl, .inr ⟨hg, rfl⟩⟩

omit [DecidableEq I] in
theorem keys_modify (gid : G) (f : Replica → Replica) : (h.modify gid f).groups.map (·.1) = h.groups.map (·.1) := by
  simp only [modify, List.map_map]
  refine List.map_congr_left fun x _ => ?_
  simp only [Function.comp_apply]
  split <;> rfl

omit [DecidableEq I] in
theorem Free.modify (free : Free todo h)
    (hf : ∀ r, (gid, r) ∈ h.groups → Unspoken todo (f r).speaksFor) : Free todo (h.modify gid f) := by
  refine ⟨by rw [keys_modify]; exact free.distinct, fun x hx => ?_, fun x hx => ?_⟩
  · obtain ⟨y, hy, he, -⟩ := mem_modify hx
    rw [he]
    exact free.fresh y hy
  · obtain ⟨⟨g, r⟩, hy, -, ⟨rfl, he⟩ | ⟨-, he⟩⟩ := mem_modify hx
    · rw [he]
      exact hf r hy
    · rw [he]
      exact free.silent _ hy

omit [DecidableEq I] in
theorem Free.remove (free : Free todo h) (gid : G) : Free todo (h.remove gid) :=
  ⟨free.distinct.sublist (List.filter_sublist.map _), fun x hx => free.fresh x (List.mem_of_mem_filter hx),
    fun x hx => free.silent x (List.mem_of_mem_filter hx)⟩

omit [DecidableEq I] in
theorem Waits.modify (waits : Waits todo rest h)
    (hf : gid ∈ rest → ∀ r p, r.park = some p → ∃ p', (f r).park = some p' ∧ p'.source = p.source) :
    Waits todo rest (h.modify gid f) := by
  intro x hx hr
  obtain ⟨y, hy, he, ⟨hg, hv⟩ | ⟨-, hv⟩⟩ := mem_modify hx
  · obtain ⟨p, hp, ho⟩ := waits y hy (he ▸ hr)
    obtain ⟨p', hp', hs⟩ := hf (hg ▸ he ▸ hr) y.2 p hp
    exact ⟨p', hv ▸ hp', hs ▸ ho⟩
  · rw [hv]
    exact waits y hy (he ▸ hr)

omit [DecidableEq I] in
theorem Waits.remove (waits : Waits todo rest h) (gid : G) : Waits todo rest (h.remove gid) :=
  fun x hx => waits x (List.mem_of_mem_filter hx)

omit [DecidableEq I] in
theorem Waits.of_cons {t : G} (waits : Waits todo (t :: rest) h) : Waits todo rest h :=
  fun x hx hr => waits x hx (List.mem_cons_of_mem _ hr)

/-! ## A crank -/

omit [DecidableEq I] in
theorem Free.poison (free : Free todo h) (gid : G) : Free todo (h.modify gid Replica.poison) :=
  free.modify fun _ hr => free.silent _ hr

omit [DecidableEq I] in
theorem Free.aborted (free : Free todo h) (gid : G) : Free todo (h.modify gid Replica.resolvePendingMergeAborted) :=
  free.modify fun _ hr key hk => free.silent _ hr key (Replica.mem_speaksFor_aborted hk)

omit [DecidableEq I] in
theorem Waits.poison (waits : Waits todo rest h) (gid : G) : Waits todo rest (h.modify gid Replica.poison) :=
  waits.modify fun _ _ p hp => ⟨p, hp, rfl⟩

omit [DecidableEq I] in
theorem Waits.other (waits : Waits todo rest h) (out : gid ∉ rest) (f : Replica → Replica) :
    Waits todo rest (h.modify gid f) :=
  waits.modify fun hin => absurd hin out

omit [DecidableEq I] in
/-- Absorbing a hosted source makes the target speak for it and for what it spoke
for. -/
theorem Free.absorb (free : Free todo h) {tgid source : G} {p : Park} {t s : Replica} (fate : Fate)
    (hs : (source, s) ∈ h.groups) (hp : ∀ g ∈ todo, p.source ≠ encode g) :
    Free todo (h.absorb tgid source p t s fate) := by
  have chain : Unspoken todo s.debts := fun key hk =>
    free.silent _ hs key (Replica.mem_speaksFor.mpr (.inl hk))
  have pins : Unspoken todo (encode source :: s.debts) := by
    intro key hk g hg
    rcases List.mem_cons.mp hk with rfl | hk
    · exact fun he => free.fresh _ hs (encode_injective he ▸ hg)
    · exact chain key hk g hg
  have free' := free.remove source
  unfold Host.absorb
  split
  · exact free
  split
  · exact free.poison source
  simp only
  split
  · refine free'.modify fun r hr key hk => ?_
    rcases Replica.mem_speaksFor_pinned hk with hk | hk
    · exact free'.silent _ hr key (Replica.mem_speaksFor_resolved _ hk)
    · exact pins key hk
  split
  · refine free'.modify fun r hr key hk => ?_
    rcases Replica.mem_speaksFor_deferred hk with hk | rfl | hk
    · exact free'.silent _ hr key hk
    · exact hp
    · exact chain key hk
  split
  · exact free'.modify fun r hr key hk => free'.silent _ hr key (Replica.mem_speaksFor_resolved _ hk)
  refine free'.modify fun r hr key hk => ?_
  rcases Replica.mem_speaksFor_pinned hk with hk | hk
  · exact free'.silent _ hr key (Replica.mem_speaksFor_resolved true hk)
  · exact pins key hk

omit [DecidableEq I] in
theorem Waits.absorb (waits : Waits todo rest h) {tgid : G} (out : tgid ∉ rest) {source : G} {p : Park}
    {t s : Replica} (fate : Fate) : Waits todo rest (h.absorb tgid source p t s fate) := by
  unfold Host.absorb
  split
  · exact waits
  split
  · exact waits.poison source
  simp only
  split
  · exact (waits.remove source).other out _
  split
  · exact (waits.remove source).other out _
  split <;> exact (waits.remove source).other out _

theorem serviceOne_free {floor : G → Nat} {fate : G → Fate} {t : G} (free : Free todo h)
    (waits : Waits todo (t :: rest) h) (out : t ∉ rest) :
    Free todo (h.serviceOne floor fate t) ∧ Waits todo rest (h.serviceOne floor fate t) := by
  have waits' := waits.of_cons
  unfold serviceOne
  split
  · exact ⟨free, waits'⟩
  next r hr =>
  split
  · exact ⟨free, waits'⟩
  next p hp =>
  -- the source of the park is not one that is to be restored
  have source : ∀ r, (t, r) ∈ h.groups → ∀ q, r.park = some q → ∀ g ∈ todo, q.source ≠ encode g := by
    intro r hr q hq
    obtain ⟨q', hq', ho⟩ := waits (t, r) hr List.mem_cons_self
    exact Option.some.inj (hq.symm.trans hq') ▸ ho
  split
  · exact ⟨free.poison t, waits'.poison t⟩
  next sid _ =>
  split
  · exact ⟨free, waits'⟩
  split
  · exact ⟨free.aborted t, waits'.other out _⟩
  · exact ⟨free, waits'⟩
  · exact ⟨free, waits'⟩
  simp only
  have latched : Free todo (h.modify t Replica.latchMergeWindowClosed) := by
    refine free.modify fun r hr key hk => ?_
    rcases Replica.mem_speaksFor_latch hk with hk | ⟨q, hq, rfl⟩
    · exact free.silent _ hr key hk
    · exact source r hr q hq
  have waits₁ : Waits todo rest (h.modify t Replica.latchMergeWindowClosed) := waits'.other out _
  split
  · split
    · exact ⟨latched.aborted t, waits₁.other out _⟩
    split
    · exact ⟨latched.poison t, waits₁.poison t⟩
    · exact ⟨latched, waits₁⟩
  next s hs =>
  split
  · split
    · exact ⟨latched.aborted t, waits₁.other out _⟩
    · exact ⟨latched.absorb _ (mem_of_get hs) (source r (mem_of_get hr) p hp), waits₁.absorb out _⟩
  refine ⟨latched.modify fun r hr => ?_, waits₁.modify fun _ r q hq => ⟨q, Replica.park_advance hq _ _, rfl⟩⟩
  rw [Replica.speaksFor_advance]
  exact latched.silent _ hr

theorem foldl_serviceOne_free {floor : G → Nat} {fate : G → Fate} (targets : List G)
    (free : Free todo h) (waits : Waits todo targets h) (distinct : targets.Nodup) :
    Free todo (targets.foldl (serviceOne floor fate) h) := by
  induction targets generalizing h with
  | nil => exact free
  | cons t ts ih =>
    obtain ⟨out, distinct⟩ := List.nodup_cons.mp distinct
    have one : Free todo (h.serviceOne floor fate t) ∧ _ := serviceOne_free free waits out
    exact ih one.1 one.2 distinct

omit [DecidableEq I] in
theorem waits_parked (free : Free todo h) (ready : Ready todo h) : Waits todo h.parked h := by
  intro x hx hp
  obtain ⟨y, hy, he⟩ := List.mem_map.mp hp
  obtain ⟨hy, hs⟩ := List.mem_filter.mp hy
  obtain rfl : y = x := List.inj_on_of_nodup_map free.distinct hy hx he
  obtain ⟨p, hp⟩ := Option.isSome_iff_exists.mp hs
  exact ⟨p, hp, ready y hy p hp⟩

theorem mem_speaksFor_settleDebt {fate : Fate} {r : Replica} {key : Bytes}
    (hk : key ∈ (settleDebt fate r).speaksFor) : key ∈ r.speaksFor := by
  unfold settleDebt at hk
  split at hk
  · exact hk
  split at hk
  · exact hk
  · rcases Replica.mem_speaksFor.mp hk with hk | hk | hk
    · exact absurd hk (by simp [Replica.debts])
    · exact Replica.mem_speaksFor.mpr (.inr (.inl hk))
    · exact Replica.mem_speaksFor.mpr (.inr (.inr hk))
  · exact hk

/-- A crank that finds no park on what is to be restored. -/
theorem Free.service (free : Free todo h) (ready : Ready todo h) (floor : G → Nat) (fate : G → Fate) :
    Free todo (h.serviceMergeApplies floor fate) := by
  have folded : Free todo (h.parked.foldl (serviceOne floor fate) h) :=
    foldl_serviceOne_free h.parked free (waits_parked free ready) (free.distinct.sublist (List.filter_sublist.map _))
  refine ⟨?_, fun x hx => ?_, fun x hx => ?_⟩
  · refine List.Nodup.sublist (List.filter_sublist.map _) ?_
    simpa [List.map_map, Function.comp_def] using folded.distinct
  · obtain ⟨y, hy, rfl⟩ := List.mem_map.mp (List.mem_of_mem_filter hx)
    exact folded.fresh y hy
  · obtain ⟨y, hy, rfl⟩ := List.mem_map.mp (List.mem_of_mem_filter hx)
    exact fun key hk => folded.silent y hy key (mem_speaksFor_settleDebt hk)

omit [DecidableEq I] in
theorem Free.storage (free : Free todo h) (gid : G) (commit : Index) (cold : Index → Bool) :
    Free todo (h.handleStorage gid commit cold) := by
  refine free.modify fun r hr => ?_
  unfold Replica.applyCommitted
  rw [Replica.speaksFor_drain]
  exact free.silent _ hr

/-! ## A restore -/

omit [DecidableEq I] in
theorem Free.of_cons {g : G} (free : Free (g :: todo) h) : Free todo h :=
  ⟨free.distinct, fun x hx hm => free.fresh x hx (List.mem_cons_of_mem _ hm),
    fun x hx key hk g' hg => free.silent x hx key hk g' (List.mem_cons_of_mem _ hg)⟩

theorem Free.validate (free : Free (gid :: todo) h) (id : I) : h.validateNewGroup gid id ≠ .error .absorbPending := by
  have silent : ∀ x ∈ h.groups, encode gid ∉ x.2.speaksFor := fun x hx hk =>
    free.silent x hx _ hk gid List.mem_cons_self rfl
  have debts : h.groups.any (·.2.debtNamesSource (encode gid)) = false := by
    refine List.any_eq_false.mpr fun x hx hd => silent x hx (Replica.mem_speaksFor.mpr ?_)
    simp only [Replica.debtNamesSource, Bool.or_eq_true, List.any_eq_true, decide_eq_true_eq, exists_eq_right] at hd
    exact hd.imp_right Or.inl
  have parks : h.groups.any (·.2.park.any fun p => p.windowClosed && p.source = encode gid) = false := by
    refine List.any_eq_false.mpr fun x hx hd => silent x hx (Replica.mem_speaksFor.mpr ?_)
    obtain ⟨p, hp, hw⟩ := (Option.any_eq_true _ _).mp hd
    simp only [Bool.and_eq_true, decide_eq_true_eq] at hw
    exact .inr (.inr ⟨p, hp, hw⟩)
  unfold validateNewGroup
  rw [debts, parks]
  split
  · simp
  split
  · simp
  split <;> simp

theorem Free.restore (free : Free (gid :: todo) h) (out : gid ∉ todo) (id : I) (store : Store) :
    (h.restoreGroupUnchecked gid id store).1 ≠ .error .absorbPending ∧
      Free todo (h.restoreGroupUnchecked gid id store).2 := by
  unfold restoreGroupUnchecked
  split
  · next e he =>
    refine ⟨fun hp => free.validate id (he.trans ?_), free.of_cons⟩
    exact congrArg Except.error (Except.error.inj hp)
  refine ⟨by simp, ?_, fun x hx => ?_, fun x hx => ?_⟩
  · refine ((List.perm_orderedInsert _ _ _).map _).nodup_iff.mpr (List.nodup_cons.mpr ⟨fun hm => ?_, free.distinct⟩)
    obtain ⟨x, hx, he⟩ := List.mem_map.mp hm
    exact free.fresh x hx (he ▸ List.mem_cons_self)
  · rcases List.mem_orderedInsert _ |>.mp hx with rfl | hx
    · exact out
    · exact free.of_cons.fresh x hx
  · rcases List.mem_orderedInsert _ |>.mp hx with rfl | hx
    · exact fun key hk => absurd hk (by simp [Replica.speaksFor_restart])
    · exact free.of_cons.silent x hx

/-! ## Any order of restores -/

theorem refusals_free (calls : List (HostCall G I))
    (once : (HostCall.restored calls).Nodup) (free : Free (HostCall.restored calls) h)
    (orderly : h.Orderly calls) : .absorbPending ∉ h.refusals calls := by
  induction calls generalizing h with
  | nil => simp [refusals]
  | cons c cs ih =>
    -- a call that refuses nothing
    have accepted : ∀ {h' : Host G I}, h.exec c = (.ok (), h') → .absorbPending ∉ h'.refusals cs →
        .absorbPending ∉ h.refusals (c :: cs) := fun he hr => by
      rw [refusals, he]
      exact hr
    cases c with
    | restore gid id store =>
      obtain ⟨out, once⟩ := List.nodup_cons.mp once
      obtain ⟨ok, free⟩ := Free.restore free out id store
      have rest := ih once free orderly
      unfold refusals
      split
      · next e h' he =>
        have he : h.restoreGroupUnchecked gid id store = (.error e, h') := he
        rw [he] at ok rest
        exact fun hm => (List.mem_cons.mp hm).elim (fun hp => ok (by rw [hp])) rest
      · next h' he =>
        have he : h.restoreGroupUnchecked gid id store = (.ok (), h') := he
        rw [he] at rest
        exact rest
    | storage gid commit cold => exact accepted rfl (ih once (free.storage gid commit cold) orderly)
    | service floor fate => exact accepted rfl (ih once (free.service orderly.1 floor fate) orderly.2)

/-- After a crash the groups whose stores survive can be restored in any order, each
once and with any cranks between, and none is refused with `AbsorbPending`, if no
crank finds a park whose source is still to be restored. -/
theorem restore_not_absorbPending (calls : List (HostCall G I)) (once : (HostCall.restored calls).Nodup)
    (orderly : (new : Host G I).Orderly calls) : .absorbPending ∉ (new : Host G I).refusals calls :=
  refusals_free calls once ⟨by simp [new], by simp [new], by simp [new]⟩ orderly

/-! ## A merge on one host -/

/-- Group ids in unary. -/
instance : GroupId Nat where
  encode n := List.replicate (n + 1) 0
  decode bytes := some (bytes.length - 1)
  decode_encode n := by simp

namespace Pair

/-- The source, group 0, is frozen for group 1. -/
def source : Store where
  log := ⟨0, [(1, .prepareMerge (encode 1) 1)]⟩
  shapeGen := 0
  foundingGen := 0
  commit := 1
  unusable := false
  faulty := fun _ => false

/-- The target, group 1, committed the merge and the entry after it. -/
def target : Store where
  log := ⟨0, [(1, .commitMerge ⟨encode 0, 1, 1, 1, 1⟩), (1, .other)]⟩
  shapeGen := 0
  foundingGen := 0
  commit := 2
  unusable := false
  faulty := fun _ => false

def crank : HostCall Nat Nat :=
  .service (fun _ => 0) fun _ => ⟨true, false, false, true, true, .kept, false, false⟩

def sourceFirst : List (HostCall Nat Nat) := [.restore 0 7 source, crank, .restore 1 7 target, crank]

def targetFirst : List (HostCall Nat Nat) := [.restore 1 7 target, crank, .restore 0 7 source]

end Pair

theorem restore_source_first : (HostCall.restored Pair.sourceFirst).Nodup ∧
    (new : Host Nat Nat).Orderly Pair.sourceFirst ∧
    .absorbPending ∉ (new : Host Nat Nat).refusals Pair.sourceFirst := by
  have once : (HostCall.restored Pair.sourceFirst).Nodup := by decide +kernel
  have orderly : (new : Host Nat Nat).Orderly Pair.sourceFirst := by
    refine ⟨?_, ?_, trivial⟩
    · unfold Ready
      decide +kernel
    · unfold Ready
      decide +kernel
  exact ⟨once, orderly, restore_not_absorbPending _ once orderly⟩

/-- The target is restored and cranked: the park on its own source refuses the
source. -/
theorem restore_target_first : (HostCall.restored Pair.targetFirst).Nodup ∧
    (new : Host Nat Nat).refusals Pair.targetFirst = [.absorbPending] := by
  decide +kernel

end Host

end Sailing.Multi
