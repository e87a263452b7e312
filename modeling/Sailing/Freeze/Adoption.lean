import Sailing.Freeze.Parked

/-!
# Adopting a union is draining through it

A parked target that adopts a covering snapshot skips the entries up to its boundary. What they
would have done comes from three places: the blob, its metadata, and the plan of the crossing
walk. The result is that of a copy of the endpoint that absorbed the source and drained through
the boundary.
-/

namespace Sailing.Freeze

open Wire (GeneratedCode)

open State (Exact)

namespace Target

variable {σ γ : Type} {M : Machine σ γ} {code : GeneratedCode} {absorbs : Index → Bool}
variable {t t' : Target σ γ} {e : Wire.Entry}

/-! ## One entry -/

variable (code) in
/-- The entry is the witness that the obligation is discharged. -/
def Witness (e : Wire.Entry) (source : Bytes) (generation : Nat) : Prop :=
  e.kind = .thawDischarged ∧
    Wire.decodeThawDischargedPayload code.thawDischargedPayload e.data = .ok ⟨source, generation⟩

variable (code) in
/-- The entry is an abort of a merge into this group. -/
def TargetAbort (e : Wire.Entry) : Prop :=
  e.kind = .rollbackMerge ∧
    ∃ payload, Wire.decodeRollbackMergePayload code.rollbackMergePayload e.data = .ok payload ∧ payload.sourceBytes ≠ []

variable (M code) in
/-- What applying one entry can change; the defaults are for an entry that leaves a part alone. -/
structure Effect (t : Target σ γ) (e : Wire.Entry) (t' : Target σ γ) : Prop where
  core : (e.kind ≠ .prepareMerge ∧ ∃ frozen shapeGen, t'.core =
      { t.core with frozen := frozen, shapeGen := shapeGen, applied := e.index }) ∨
    ∃ shapeGen, t'.core = { t.core.popAppliedFreeze e.index with frozen := true, shapeGen := shapeGen, applied := e.index }
  rise : t.core.shapeGen ≤ t'.core.shapeGen := by exact le_max_left _ _
  working : generationIsWorking t.core.shapeGen = true → generationIsWorking t'.core.shapeGen = true
  coherent : t.core.frozen = t.freeze.isSome → t'.core.frozen = t'.freeze.isSome := by exact id
  valid : M.isValid t.conf = true → M.isValid t'.conf = true := by exact id
  mode : t'.readModeMigrated = false → t.readModeMigrated = false ∧ t'.readMode = t.readMode := by exact fun m => ⟨m, rfl⟩
  absorb : t'.absorbIndex = t.absorbIndex ∨ e.kind = .commitMerge ∧ t'.absorbIndex = some e.index := by exact Or.inl rfl
  obligations : ¬ TargetAbort code e → ∀ source generation,
    t'.abandoned source = some generation ↔ t.abandoned source = some generation ∧ ¬ Witness code e source generation

theorem not_witness (kind : e.kind ≠ .thawDischarged) (source : Bytes) (generation : Nat) : ¬ Witness code e source generation :=
  fun witness => kind witness.1

theorem unwitnessed (kind : e.kind ≠ .thawDischarged) (source : Bytes) (generation : Nat) :
    t.abandoned source = some generation ↔ t.abandoned source = some generation ∧ ¬ Witness code e source generation :=
  ⟨fun held => ⟨held, not_witness kind source generation⟩, And.left⟩

theorem working_max {g h : Nat} (hg : generationIsWorking g = true) (hh : generationIsWorking h = true) :
    generationIsWorking (max g h) = true := by
  unfold generationIsWorking at *
  rw [decide_eq_true_eq] at *
  exact max_lt hg hh

/-- An entry that only moves the generation, the state machine or the configuration. -/
theorem Effect.of_shape {shapeGen : Nat} {fsm : σ} {conf : γ} (prepare : e.kind ≠ .prepareMerge) (witness : e.kind ≠ .thawDischarged)
    (rise : t.core.shapeGen ≤ shapeGen)
    (working : generationIsWorking t.core.shapeGen = true → generationIsWorking shapeGen = true)
    (valid : M.isValid t.conf = true → M.isValid conf = true) :
    Effect M code t e { t with core := { t.core with shapeGen := shapeGen, applied := e.index }, fsm := fsm, conf := conf } where
  core := .inl ⟨prepare, t.core.frozen, shapeGen, rfl⟩
  rise := rise
  working := working
  valid := valid
  obligations := fun _ => unwitnessed witness

theorem Effect.advance (prepare : e.kind ≠ .prepareMerge) (witness : e.kind ≠ .thawDischarged) : Effect M code t e (t.advance e) :=
  Effect.of_shape prepare witness le_rfl id id

theorem effect_split (kind : e.kind = .split) (h : t.applySplit M code e = some t') : Effect M code t e t' := by
  unfold applySplit at h
  cases decoded : Wire.decodeSplitPayload code.splitPayload e.data with
  | error => simp only [decoded, reduceCtorEq] at h
  | ok =>
    simp only [decoded] at h
    split at h
    · cases h
    next working =>
    simp only [Bool.not_eq_true', Bool.not_eq_false, Bool.and_eq_true] at working
    split at h
    · cases h
      exact .advance (by rw [kind]; decide) (by rw [kind]; decide)
    · obtain ⟨fsm, -, rfl⟩ := Option.map_eq_some_iff.mp h
      exact .of_shape (by rw [kind]; decide) (by rw [kind]; decide) (le_max_left _ _) (fun own => working_max own working.1) id

theorem effect_prepareMerge (kind : e.kind = .prepareMerge) (h : t.applyPrepareMerge code e = some t') : Effect M code t e t' := by
  unfold applyPrepareMerge at h
  cases decoded : Wire.decodePrepareMergePayload code.prepareMergePayload e.data with
  | error => simp only [decoded, reduceCtorEq] at h
  | ok =>
    simp only [decoded] at h
    split at h
    · cases h
    next working =>
    simp only [Bool.not_eq_true', Bool.not_eq_false] at working
    cases h
    exact
      { core := .inr ⟨_, rfl⟩
        working := fun own => working_max own working
        coherent := fun _ => rfl
        obligations := fun _ => unwitnessed (by rw [kind]; decide) }

theorem effect_resolve {park : PendingMergeApply} (kind : e.kind = .commitMerge) (index : park.index = e.index)
    (working : generationIsWorking park.targetGenAfter = true) (h : t.resolvePendingMerge M park = some t') : Effect M code t e t' := by
  obtain ⟨fsm, -, rfl⟩ := Option.map_eq_some_iff.mp h
  exact
    { core := .inl ⟨by rw [kind]; decide, t.core.frozen, _, by rw [← index]⟩
      working := fun own => working_max own working
      absorb := .inr ⟨kind, by rw [← index]⟩
      obligations := fun _ => unwitnessed (by rw [kind]; decide) }

theorem effect_commitMerge (kind : e.kind = .commitMerge) (h : t.applyCommitMerge M code absorbs e = some t') :
    Effect M code t e t' := by
  have stays : Effect M code t e (t.advance e) := .advance (by rw [kind]; decide) (by rw [kind]; decide)
  unfold applyCommitMerge at h
  cases decoded : Wire.decodeCommitMergePayload code.commitMergePayload e.data with
  | error => simp only [decoded, reduceCtorEq] at h
  | ok =>
    simp only [decoded] at h
    split at h
    · cases h
    next working =>
    simp only [Bool.not_eq_true', Bool.not_eq_false, Bool.and_eq_true] at working
    split at h
    · cases h
      exact stays
    split at h
    · cases h
      exact stays
    split at h
    · exact effect_resolve kind rfl working.2 h
    · cases h
      exact stays

theorem effect_rollbackMerge (kind : e.kind = .rollbackMerge) (h : t.applyRollbackMerge code e = some t') : Effect M code t e t' := by
  have stays : Effect M code t e (t.advance e) := .advance (by rw [kind]; decide) (by rw [kind]; decide)
  unfold applyRollbackMerge at h
  cases decoded : Wire.decodeRollbackMergePayload code.rollbackMergePayload e.data with
  | error => simp only [decoded, reduceCtorEq] at h
  | ok p =>
    simp only [decoded] at h
    split at h
    · cases h
    next working =>
    simp only [Bool.not_eq_true', Bool.not_eq_false, Bool.and_eq_true] at working
    split at h
    · split at h
      · cases h
        exact
          { core := .inl ⟨by rw [kind]; decide, false, _, rfl⟩
            working := fun own => working_max own working.1
            coherent := fun _ => rfl
            obligations := fun _ => unwitnessed (by rw [kind]; decide) }
      · cases h
        exact stays
    · next role =>
      split at h
      · cases h
        exact
          { core := .inl ⟨by rw [kind]; decide, t.core.frozen, _, rfl⟩
            working := fun own => working_max own working.2
            obligations := fun none_here => absurd ⟨kind, p, decoded, role⟩ none_here }
      · cases h
        exact stays

theorem clearAbandoned_some {source key : Bytes} {generation : Nat} :
    (t.clearAbandoned key).abandoned source = some generation ↔ t.abandoned source = some generation ∧ source ≠ key := by
  unfold clearAbandoned
  by_cases same : source = key
  · subst same
    simp
  · simp [same]

/-- A matching obligation is cleared: what is left are the others. -/
theorem clear_matching {source key : Bytes} {generation held : Nat} :
    (if t.abandonedMatches key generation then t.clearAbandoned key else t).abandoned source = some held ↔
      t.abandoned source = some held ∧ ¬ (source = key ∧ held = generation) := by
  unfold abandonedMatches
  by_cases owed : t.abandoned key = some generation
  · rw [if_pos (decide_eq_true owed), clearAbandoned_some]
    refine and_congr_right fun here => not_congr ⟨fun same => ⟨same, ?_⟩, And.left⟩
    rw [same, owed] at here
    exact (Option.some.inj here).symm
  · rw [if_neg fun matched => owed (of_decide_eq_true matched)]
    refine ⟨fun here => ⟨here, ?_⟩, And.left⟩
    rintro ⟨rfl, rfl⟩
    exact owed here

theorem effect_thawDischarged (kind : e.kind = .thawDischarged) (h : t.applyThawDischarged code e = some t') :
    Effect M code t e t' := by
  unfold applyThawDischarged at h
  cases decoded : Wire.decodeThawDischargedPayload code.thawDischargedPayload e.data with
  | error => simp only [decoded, reduceCtorEq] at h
  | ok p =>
    simp only [decoded] at h
    cases h
    have same : (if t.abandonedMatches p.sourceBytes p.generation then t.clearAbandoned p.sourceBytes else t) =
        { t with abandoned := (if t.abandonedMatches p.sourceBytes p.generation then t.clearAbandoned p.sourceBytes else t).abandoned } := by
      split <;> rfl
    rw [same]
    exact
      { core := .inl ⟨by rw [kind]; decide, t.core.frozen, t.core.shapeGen, rfl⟩
        rise := le_rfl
        working := id
        obligations := fun _ source generation => by
          refine clear_matching.trans (and_congr_right fun _ => not_congr ?_)
          unfold Witness
          rw [decoded]
          constructor
          · rintro ⟨rfl, gen⟩
            exact ⟨kind, by rw [gen]⟩
          · rintro ⟨-, same⟩
            cases same
            exact ⟨rfl, rfl⟩ }

theorem effect_setReadMode (kind : e.kind = .setReadMode) (h : t.applySetReadMode e = some t') : Effect M code t e t' := by
  unfold applySetReadMode at h
  split at h
  · obtain ⟨mode, -, rfl⟩ := Option.map_eq_some_iff.mp h
    exact
      { core := .inl ⟨by rw [kind]; decide, t.core.frozen, t.core.shapeGen, rfl⟩
        rise := le_rfl
        working := id
        mode := fun migrated => by cases migrated
        obligations := fun _ => unwitnessed (by rw [kind]; decide) }
  · cases h

theorem effect_applyEntry (h : t.applyEntry M code absorbs e = some t') : Effect M code t e t' := by
  unfold applyEntry at h
  cases kind : e.kind
  all_goals simp only [kind] at h
  case normal =>
    obtain ⟨fsm, -, rfl⟩ := Option.map_eq_some_iff.mp h
    exact .of_shape (by rw [kind]; decide) (by rw [kind]; decide) le_rfl id id
  case empty =>
    cases h
    exact .advance (by rw [kind]; decide) (by rw [kind]; decide)
  case split => exact effect_split kind h
  case prepareMerge => exact effect_prepareMerge kind h
  case commitMerge => exact effect_commitMerge kind h
  case rollbackMerge => exact effect_rollbackMerge kind h
  case thawDischarged => exact effect_thawDischarged kind h
  case setReadMode => exact effect_setReadMode kind h
  case confChange =>
    obtain ⟨conf, changed, rfl⟩ := Option.map_eq_some_iff.mp h
    exact .of_shape (by rw [kind]; decide) (by rw [kind]; decide) le_rfl id fun _ => M.isValid_confChange _ _ _ changed

/-! ## A whole drain -/

variable (M code) in
/-- What a drain can change. -/
structure Drained (t : Target σ γ) (entries : List Wire.Entry) (t' : Target σ γ) : Prop where
  exact : t.core.Exact → contiguous t.core.applied entries = true → (∀ e ∈ entries, e ∈ t.core.log) → t.core.poison = none →
    t.core.applied + entries.length ≤ t.core.commit →
    t'.core.Exact ∧ t'.core.log = t.core.log ∧ t'.core.applied = t.core.applied + entries.length
  rise : t.core.shapeGen ≤ t'.core.shapeGen
  working : generationIsWorking t.core.shapeGen = true → generationIsWorking t'.core.shapeGen = true
  coherent : t.core.frozen = t.freeze.isSome → t'.core.frozen = t'.freeze.isSome
  valid : M.isValid t.conf = true → M.isValid t'.conf = true
  mode : t'.readModeMigrated = false → t.readModeMigrated = false ∧ t'.readMode = t.readMode
  absorb : t'.absorbIndex = t.absorbIndex ∨ ∃ e ∈ entries, e.kind = .commitMerge ∧ t'.absorbIndex = some e.index
  obligations : (∀ e ∈ entries, ¬ TargetAbort code e) → ∀ source generation,
    t'.abandoned source = some generation ↔
      t.abandoned source = some generation ∧ ∀ e ∈ entries, ¬ Witness code e source generation

theorem Effect.exact (h : Effect M code t e t') (exact : t.core.Exact) (next : e.index = t.core.applied + 1) (mem : e ∈ t.core.log)
    (ready : t.core.applied < t.core.commit) :
    t'.core.Exact ∧ t'.core.log = t.core.log ∧ t'.core.applied = e.index ∧ t'.core.commit = t.core.commit ∧
      t'.core.poison = t.core.poison := by
  have here : t.core.entryAt (t.core.applied + 1) = some e := by
    rw [← next]
    exact State.entryAt_of_mem exact.whole mem
  obtain ⟨kind, frozen, shapeGen, same⟩ | ⟨shapeGen, same⟩ := h.core
  · rw [same]
    exact ⟨exact.advance here kind ready frozen shapeGen, rfl, rfl, rfl, rfl⟩
  · rw [same]
    exact ⟨exact.freeze here ready shapeGen, rfl, rfl, rfl, rfl⟩

theorem Drained.cons {u : Target σ γ} {entries : List Wire.Entry} (first : Effect M code t e u) (later : Drained M code u entries t') :
    Drained M code t (e :: entries) t' where
  exact := by
    intro exact follow mem alive ready
    obtain ⟨next, follow⟩ := contiguous_cons.mp follow
    rw [List.length_cons] at ready
    obtain ⟨exact', log, at_e, commit, poison⟩ := first.exact exact next (mem e List.mem_cons_self) (by lia)
    have more := later.exact exact' (by rwa [at_e, next]) (fun x listed => by rw [log]; exact mem x (List.mem_cons_of_mem e listed))
      (poison.trans alive) (by rw [at_e, commit]; lia)
    refine ⟨more.1, more.2.1.trans log, more.2.2.trans ?_⟩
    rw [at_e, List.length_cons]
    lia
  rise := first.rise.trans later.rise
  working := fun own => later.working (first.working own)
  coherent := fun own => later.coherent (first.coherent own)
  valid := fun own => later.valid (first.valid own)
  mode := fun migrated => by
    obtain ⟨before, same⟩ := later.mode migrated
    obtain ⟨before', same'⟩ := first.mode before
    exact ⟨before', same.trans same'⟩
  absorb := by
    obtain same | ⟨x, mem, kind, here⟩ := later.absorb
    · obtain same' | ⟨kind, here⟩ := first.absorb
      · exact .inl (same.trans same')
      · exact .inr ⟨e, List.mem_cons_self, kind, same.trans here⟩
    · exact .inr ⟨x, List.mem_cons_of_mem e mem, kind, here⟩
  obligations := by
    intro clean source m
    rw [later.obligations fun x mem => clean x (List.mem_cons_of_mem e mem), first.obligations (clean e List.mem_cons_self),
      and_assoc, List.forall_mem_cons]

theorem drained_drain (entries : List Wire.Entry) (t : Target σ γ) (h : t.drain M code absorbs entries = some t') :
    Drained M code t entries t' := by
  induction entries generalizing t with
  | nil =>
    cases h
    exact
      { exact := fun exact _ _ _ _ => ⟨exact, rfl, rfl⟩
        rise := le_rfl
        working := id
        coherent := id
        valid := id
        mode := fun migrated => ⟨migrated, rfl⟩
        absorb := .inl rfl
        obligations := fun _ source m => ⟨fun held => ⟨held, nofun⟩, And.left⟩ }
  | cons e entries ih =>
    obtain ⟨u, applied, rest⟩ := Option.bind_eq_some_iff.mp h
    exact .cons (effect_applyEntry applied) (ih u rest)

/-! ## The entries of an interval -/

section

variable {s : State} {park boundary : Index}

theorem mem_between (whole : contiguous s.boundary s.log = true) (low : s.boundary ≤ park) :
    e ∈ between s park boundary ↔ e ∈ s.log ∧ park < e.index ∧ e.index ≤ boundary := by
  unfold between
  constructor
  · intro mem
    obtain ⟨i, here⟩ := List.mem_iff_getElem?.mp mem
    rw [List.getElem?_take] at here
    split at here
    · next short =>
      rw [List.getElem?_drop] at here
      have := index_of_getElem? whole here
      refine ⟨List.mem_of_getElem? here, ?_, ?_⟩ <;> lia
    · cases here
  · rintro ⟨mem, above, below⟩
    obtain ⟨i, here⟩ := List.mem_iff_getElem?.mp mem
    have place := index_of_getElem? whole here
    refine List.mem_iff_getElem?.mpr ⟨i - (park - s.boundary), ?_⟩
    rw [List.getElem?_take_of_lt (by lia), List.getElem?_drop, ← here]
    congr 1
    lia

theorem contiguous_between (whole : contiguous s.boundary s.log = true) (low : s.boundary ≤ park) (inside : park ≤ s.lastIndex) :
    contiguous park (between s park boundary) = true := by
  have high : park ≤ s.boundary + s.log.length := inside
  have := contiguous_drop whole (k := park - s.boundary) (by lia)
  rw [show s.boundary + (park - s.boundary) = park by lia] at this
  exact contiguous_take this _

theorem length_between (low : s.boundary ≤ park) (inside : boundary ≤ s.lastIndex) :
    (between s park boundary).length = boundary - park := by
  have high : boundary ≤ s.boundary + s.log.length := inside
  unfold between
  rw [List.length_take, List.length_drop]
  lia

theorem between_add (low : s.boundary ≤ park) (up : park ≤ boundary) (k : Nat) :
    between s park (boundary + k) = between s park boundary ++ (s.log.drop (boundary - s.boundary)).take k := by
  unfold between
  rw [show boundary + k - park = boundary - park + k by lia, List.take_add, List.drop_drop]
  congr 3
  lia

theorem between_appended {cut commit : Index} {entries : List Wire.Entry} {cache : Index → Option ClaimRead}
    (a : s.Appends cut commit entries cache) (low : s.boundary ≤ park) (up : park ≤ boundary) (below : boundary ≤ cut) :
    between (s.appended cut commit entries cache) park boundary = between s park boundary := by
  show ((s.log.take (cut - s.boundary) ++ entries).drop (park - s.boundary)).take (boundary - park) = _
  have length := a.length_take
  rw [List.drop_append_of_le_length (by lia), List.take_append_of_le_length (by rw [List.length_drop]; lia), List.drop_take,
    List.take_take, min_eq_left (by lia)]
  rfl

end

/-! ## The crossing walk -/

variable (code) in
/-- What the walk records of some entries. -/
structure Recorded (t : Target σ γ) (entries : List Wire.Entry) (crossings : List (Bytes × Index))
    (witnesses : List ((Bytes × Nat) × Index)) : Prop where
  crossings : crossings.map (·.2) = t.crossings.map (·.2) ++ (entries.filter (·.kind = .commitMerge)).map (·.index)
  kept : ∀ w ∈ t.crossingWitnesses, w ∈ witnesses := by exact fun _ mem => mem
  sound : ∀ w ∈ witnesses, w ∈ t.crossingWitnesses ∨ ∃ e ∈ entries, e.index = w.2 ∧ Witness code e w.1.1 w.1.2 := by
    exact fun _ mem => Or.inl mem
  complete : ∀ e ∈ entries, ∀ source generation, t.abandoned source = some generation → Witness code e source generation →
    ∃ w ∈ witnesses, w.1 = (source, generation) ∧ w.2 ≤ e.index

theorem examine_recorded (h : t.examine code e = some t') (old : ∀ w ∈ t.crossingWitnesses, w.2 ≤ e.index) :
    ∃ crossings witnesses, t' = { t with crossings := crossings, crossingWitnesses := witnesses } ∧
      Recorded code t [e] crossings witnesses := by
  have nothing (commit : e.kind ≠ .commitMerge) (thaw : e.kind ≠ .thawDischarged) :
      Recorded code t [e] t.crossings t.crossingWitnesses :=
    { crossings := by rw [List.filter_cons_of_neg (by simpa using commit)]; simp
      complete := fun x mem source m _ witness => by
        rw [List.mem_singleton.mp mem] at witness
        exact absurd witness.1 thaw }
  unfold examine at h
  cases kind : e.kind with
  | commitMerge =>
    simp only [kind] at h
    cases decoded : Wire.decodeCommitMergePayload code.commitMergePayload e.data with
    | error => simp only [decoded, reduceCtorEq] at h
    | ok =>
      simp only [decoded] at h
      cases h
      refine ⟨_, t.crossingWitnesses, rfl, ?_⟩
      exact
        { crossings := by rw [List.filter_cons_of_pos (by simpa using kind)]; simp
          complete := fun x mem source m _ witness => by
            rw [List.mem_singleton.mp mem] at witness
            exact absurd (witness.1.symm.trans kind) (by decide) }
  | thawDischarged =>
    simp only [kind] at h
    have crossings : t.crossings.map (·.2) = t.crossings.map (·.2) ++ ([e].filter (·.kind = .commitMerge)).map (·.index) := by
      rw [List.filter_cons_of_neg (by rw [kind]; decide)]
      simp
    cases decoded : Wire.decodeThawDischargedPayload code.thawDischargedPayload e.data with
    | error => simp only [decoded, reduceCtorEq] at h
    | ok p =>
      simp only [decoded] at h
      have names {source : Bytes} {generation : Nat} (witness : Witness code e source generation) : p = ⟨source, generation⟩ := by
        have := witness.2
        rw [decoded] at this
        cases this
        rfl
      split at h
      · cases h
        refine ⟨t.crossings, _, rfl, ?_⟩
        exact
          { crossings := crossings
            kept := fun w mem => List.mem_append_left _ mem
            sound := fun w mem => by
              obtain old | new := List.mem_append.mp mem
              · exact .inl old
              · rw [List.mem_singleton.mp new]
                exact .inr ⟨e, List.mem_singleton_self e, rfl, kind, decoded⟩
            complete := fun x mem source m _ witness => by
              rw [List.mem_singleton.mp mem] at witness ⊢
              exact ⟨_, List.mem_append_right _ (List.mem_singleton_self _), by rw [names witness], le_rfl⟩ }
      · next known =>
        cases h
        refine ⟨t.crossings, t.crossingWitnesses, rfl, ?_⟩
        exact
          { crossings := crossings
            complete := fun x mem source m held witness => by
              rw [List.mem_singleton.mp mem] at witness ⊢
              rw [names witness] at known
              have matched : t.abandonedMatches source m = true := decide_eq_true held
              rw [not_and, Bool.not_eq_true, List.all_eq_false] at known
              obtain ⟨w, listed, same⟩ := known matched
              simp only [ne_eq, decide_not, Bool.not_eq_true', decide_eq_false_iff_not, Decidable.not_not] at same
              exact ⟨w, listed, same, old w listed⟩ }
  | _ =>
    simp only [kind] at h
    cases h
    exact ⟨t.crossings, t.crossingWitnesses, rfl, nothing (by rw [kind]; decide) (by rw [kind]; decide)⟩

theorem examineAll_recorded (entries : List Wire.Entry) {prev : Index} (t : Target σ γ) (follow : contiguous prev entries = true)
    (old : ∀ w ∈ t.crossingWitnesses, w.2 ≤ prev) (h : t.examineAll code entries = (t', true)) :
    ∃ crossings witnesses, t' = { t with crossings := crossings, crossingWitnesses := witnesses } ∧
      Recorded code t entries crossings witnesses := by
  induction entries generalizing t prev with
  | nil =>
    cases h
    exact ⟨t'.crossings, t'.crossingWitnesses, rfl, by simp, fun w mem => mem, fun w mem => .inl mem, nofun⟩
  | cons e entries ih =>
    obtain ⟨next, follow⟩ := contiguous_cons.mp follow
    cases examined : t.examine code e with
    | none => simp only [examineAll, examined, Prod.mk.injEq, Bool.false_eq_true, and_false] at h
    | some =>
      simp only [examineAll, examined] at h
      obtain ⟨crossings, witnesses, rfl, first⟩ := examine_recorded examined fun w mem => by
        have := old w mem
        lia
      obtain ⟨crossings', witnesses', rfl, later⟩ := ih _ follow (fun w mem => by
        obtain before | ⟨x, listed, place, -⟩ := first.sound w mem
        · have := old w before
          lia
        · rw [List.mem_singleton.mp listed] at place
          lia) h
      refine ⟨crossings', witnesses', rfl, ?_⟩
      exact
        { crossings := by
            have split : (e :: entries).filter (·.kind = .commitMerge) =
                [e].filter (·.kind = .commitMerge) ++ entries.filter (·.kind = .commitMerge) := by
              rw [← List.filter_append]
              rfl
            rw [later.crossings, first.crossings, split, List.map_append, List.append_assoc]
          kept := fun w mem => later.kept w (first.kept w mem)
          sound := fun w mem => by
            obtain before | ⟨x, listed, place, witness⟩ := later.sound w mem
            · obtain before | ⟨x, listed, place, witness⟩ := first.sound w before
              · exact .inl before
              · rw [List.mem_singleton.mp listed] at place witness
                exact .inr ⟨e, List.mem_cons_self, place, witness⟩
            · exact .inr ⟨x, List.mem_cons_of_mem e listed, place, witness⟩
          complete := fun x mem source m held witness => by
            obtain rfl | mem := List.mem_cons.mp mem
            · obtain ⟨w, listed, same, below⟩ := first.complete x (List.mem_singleton_self x) source m held witness
              exact ⟨w, later.kept w listed, same, below⟩
            · exact later.complete x mem source m held witness }

/-- How far the walk has come. -/
def frontier (t : Target σ γ) (park : PendingMergeApply) : Index := max t.crossingScanUpto park.index

variable (M code) in
/-- A parked target whose walk has recorded the entries up to its frontier. -/
structure Walk (park : PendingMergeApply) (t : Target σ γ) : Prop where
  exact : t.core.Exact
  parked : t.pendingApply = some park
  next : park.index = t.core.applied + 1
  commit : ∃ e ∈ t.core.log, e.index = park.index ∧ e.kind = .commitMerge
  committed : t.frontier park ≤ t.core.commit
  inside : t.frontier park ≤ t.core.lastIndex
  crossings : t.crossings.map (·.2) = ((between t.core park.index (t.frontier park)).filter (·.kind = .commitMerge)).map (·.index)
  sound : ∀ w ∈ t.crossingWitnesses, ∃ e ∈ between t.core park.index (t.frontier park), e.index = w.2 ∧ Witness code e w.1.1 w.1.2
  complete : ∀ e ∈ between t.core park.index (t.frontier park), ∀ source generation,
    t.abandoned source = some generation → Witness code e source generation →
    ∃ w ∈ t.crossingWitnesses, w.1 = (source, generation) ∧ w.2 ≤ e.index
  working : generationIsWorking t.core.shapeGen = true ∧ generationIsWorking park.targetGenAfter = true
  coherent : t.core.frozen = t.freeze.isSome
  valid : M.isValid t.conf = true

section

variable {park : PendingMergeApply}

theorem Walk.low (h : Walk M code park t) : t.core.boundary ≤ park.index := by
  have := h.exact.above
  have := h.next
  lia

/-- One chunk: the frontier moves on by its entries. -/
theorem Walk.chunk (h : Walk M code park t) {width : Nat} (within : t.frontier park + width ≤ min t.core.lastIndex t.core.commit)
    {u : Target σ γ} (some_read : 0 < width)
    (read : t.examineAll code ((t.core.log.drop (t.frontier park + 1 - t.core.boundary - 1)).take width) = (u, true)) :
    Walk M code park { u with crossingScanUpto := t.frontier park + width } := by
  have low := h.low
  have up : park.index ≤ t.frontier park := le_max_right _ _
  have shift : t.frontier park + 1 - t.core.boundary - 1 = t.frontier park - t.core.boundary := by lia
  have inside : t.frontier park ≤ t.core.boundary + t.core.log.length := h.inside
  rw [shift] at read
  have follow : contiguous (t.frontier park) ((t.core.log.drop (t.frontier park - t.core.boundary)).take width) = true := by
    have := contiguous_drop h.exact.whole (k := t.frontier park - t.core.boundary) (by lia)
    rw [show t.core.boundary + (t.frontier park - t.core.boundary) = t.frontier park by lia] at this
    exact contiguous_take this _
  have old : ∀ w ∈ t.crossingWitnesses, w.2 ≤ t.frontier park := by
    intro w mem
    obtain ⟨e, listed, place, -⟩ := h.sound w mem
    rw [← place]
    exact ((mem_between h.exact.whole low).mp listed).2.2
  obtain ⟨crossings, witnesses, rfl, recorded⟩ := examineAll_recorded _ t follow old read
  have frontier : max (t.frontier park + width) park.index = t.frontier park + width := by lia
  have more : between t.core park.index (t.frontier park + width) =
      between t.core park.index (t.frontier park) ++ (t.core.log.drop (t.frontier park - t.core.boundary)).take width :=
    between_add low up width
  exact
    { exact := h.exact
      parked := h.parked
      next := h.next
      commit := h.commit
      committed := by
        show max (t.frontier park + width) park.index ≤ t.core.commit
        rw [frontier]
        exact within.trans (min_le_right _ _)
      inside := by
        show max (t.frontier park + width) park.index ≤ t.core.lastIndex
        rw [frontier]
        exact within.trans (min_le_left _ _)
      crossings := by
        show crossings.map (·.2) = ((between t.core park.index (max (t.frontier park + width) park.index)).filter _).map _
        rw [frontier, more, recorded.crossings, h.crossings, List.filter_append, List.map_append]
      sound := by
        intro w mem
        show ∃ e ∈ between t.core park.index (max (t.frontier park + width) park.index), _
        rw [frontier, more]
        obtain before | ⟨e, listed, rest⟩ := recorded.sound w mem
        · obtain ⟨e, listed, rest⟩ := h.sound w before
          exact ⟨e, List.mem_append_left _ listed, rest⟩
        · exact ⟨e, List.mem_append_right _ listed, rest⟩
      complete := by
        intro e mem source m held witness
        change e ∈ between t.core park.index (max (t.frontier park + width) park.index) at mem
        rw [frontier, more] at mem
        obtain before | new := List.mem_append.mp mem
        · obtain ⟨w, listed, rest⟩ := h.complete e before source m held witness
          exact ⟨w, recorded.kept w listed, rest⟩
        · exact recorded.complete e new source m held witness
      working := h.working
      coherent := h.coherent
      valid := h.valid }

theorem Walk.current (h : Walk M code park t) (current : Bool) : Walk M code park { t with crossingScanCurrent := current } := by
  obtain ⟨exact, parked, next, commit, committed, inside, crossings, sound, complete, working, coherent, valid⟩ := h
  exact ⟨exact, parked, next, commit, committed, inside, crossings, sound, complete, working, coherent, valid⟩

theorem walk_advanceFrom (read : Index → Read) (chunks : Nat) (t : Target σ γ) (h : Walk M code park t)
    (alive : (advanceFrom code read chunks t (t.frontier park + 1)).core.poison = none) :
    Walk M code park (advanceFrom code read chunks t (t.frontier park + 1)) := by
  induction chunks generalizing t with
  | zero =>
    unfold advanceFrom
    simp only []
    split
    · exact h.current true
    · exact h.current false
  | succ chunks ih =>
    unfold advanceFrom at alive ⊢
    simp only [] at alive ⊢
    by_cases done : min t.core.lastIndex t.core.commit < t.frontier park + 1
    · rw [if_pos done]
      exact h.current true
    rw [if_neg done] at alive ⊢
    cases answer : read (t.frontier park + 1) with
    | cold => exact h.current false
    | fault =>
      simp only [answer] at alive
      have := State.fail_poison t.core .logRead
      rw [show (t.core.fail .logRead).poison = none from alive] at this
      cases this
    | ready more =>
      simp only [answer] at alive ⊢
      generalize size : min (more + 1) (min Endpoint.maxReadBatchEntries
        (min t.core.lastIndex t.core.commit + 1 - (t.frontier park + 1))) = width
        at alive ⊢
      have batch : 0 < Endpoint.maxReadBatchEntries := by decide
      have some_read : 0 < width := by lia
      have within : t.frontier park + width ≤ min t.core.lastIndex t.core.commit := by lia
      have length : ((t.core.log.drop (t.frontier park + 1 - t.core.boundary - 1)).take width).length = width := by
        have inside : min t.core.lastIndex t.core.commit ≤ t.core.boundary + t.core.log.length := min_le_left _ _
        have := h.low
        have up : park.index ≤ t.frontier park := le_max_right _ _
        rw [List.length_take, List.length_drop]
        lia
      cases examined : t.examineAll code ((t.core.log.drop (t.frontier park + 1 - t.core.boundary - 1)).take width) with
      | mk u ok =>
        cases ok with
        | false =>
          simp only [examined] at alive
          have := State.fail_poison u.core .mergeDecode
          rw [show (u.core.fail .mergeDecode).poison = none from alive] at this
          cases this
        | true =>
          simp only [examined, length] at alive ⊢
          have next := h.chunk within some_read examined
          have place : t.frontier park + 1 + width - 1 = t.frontier park + width := by lia
          have up : park.index ≤ t.frontier park := le_max_right _ _
          have start : ({ u with crossingScanUpto := t.frontier park + width } : Target σ γ).frontier park + 1 =
              t.frontier park + 1 + width := by
            show max (t.frontier park + width) park.index + 1 = _
            lia
          rw [place, ← start] at alive ⊢
          exact ih _ next alive

end

/-! ## While parked -/

section

variable {park : PendingMergeApply}

theorem examineAll_core {entries : List Wire.Entry} {u : Target σ γ} {ok : Bool} (h : t.examineAll code entries = (u, ok)) :
    u.core = t.core := by
  induction entries generalizing t with
  | nil =>
    cases h
    rfl
  | cons e entries ih =>
    cases examined : t.examine code e with
    | none =>
      simp only [examineAll, examined] at h
      cases h
      rfl
    | some =>
      simp only [examineAll, examined] at h
      rw [ih h]
      unfold examine at examined
      split at examined
      · split at examined
        · cases examined
          rfl
        · cases examined
      · split at examined
        · split at examined
          · cases examined
            rfl
          · cases examined
            rfl
        · cases examined
      · cases examined
        rfl

theorem advanceFrom_dead (read : Index → Read) (chunks : Nat) (t : Target σ γ) (idx : Index) (dead : t.core.poison.isSome = true) :
    (advanceFrom code read chunks t idx).core.poison.isSome = true := by
  induction chunks generalizing t idx with
  | zero =>
    unfold advanceFrom
    simp only []
    split <;> exact dead
  | succ chunks ih =>
    unfold advanceFrom
    simp only []
    split
    · exact dead
    split
    · exact State.fail_poison _ _
    · exact dead
    split
    · exact State.fail_poison _ _
    next examined =>
    refine ih _ _ ?_
    show (Target.core _).poison.isSome = true
    rw [examineAll_core examined]
    exact dead

theorem alive_of_crank {c : Crank} (alive : (t.crank code c).core.poison = none) : t.core.poison = none := by
  cases state : t.core.poison with
  | none => rfl
  | some =>
    have dead : t.core.poison.isSome = true := by rw [state]; rfl
    have still : (t.crank code c).core.poison.isSome = true := by
      cases c with
      | advanceCrossingScan read =>
        show (t.advanceCrossingScan code read).core.poison.isSome = true
        unfold advanceCrossingScan
        split
        · exact dead
        · exact advanceFrom_dead read _ t _ dead
      | commitTo => simp [crank, State.commitTo, state]
      | onAppendEntries => simp [crank, State.onAppendEntries, state]
      | noteMergeParkUnresolvable => exact dead
      | clearAbandoned => exact dead
    rw [alive] at still
    cases still

theorem Walk.core {core : State} (h : Walk M code park t) (exact : core.Exact) (applied : core.applied = t.core.applied)
    (commit : t.core.commit ≤ core.commit) (inside : t.frontier park ≤ core.lastIndex) (shapeGen : core.shapeGen = t.core.shapeGen)
    (frozen : core.frozen = t.core.frozen) (log : ∀ e ∈ t.core.log, e.index ≤ t.frontier park → e ∈ core.log)
    (same : between core park.index (t.frontier park) = between t.core park.index (t.frontier park)) :
    Walk M code park { t with core := core } := by
  obtain ⟨e, mem, place, kind⟩ := h.commit
  exact
    { exact := exact
      parked := h.parked
      next := h.next.trans (by rw [applied])
      commit := ⟨e, log e mem (place.le.trans (le_max_right _ _)), place, kind⟩
      committed := h.committed.trans commit
      inside := inside
      crossings := h.crossings.trans (by rw [← same]; rfl)
      sound := fun w mem => by
        obtain ⟨e, listed, rest⟩ := h.sound w mem
        rw [← same] at listed
        exact ⟨e, listed, rest⟩
      complete := fun e mem source m held witness => by
        change e ∈ between core park.index (t.frontier park) at mem
        rw [same] at mem
        exact h.complete e mem source m held witness
      working := ⟨by rw [shapeGen]; exact h.working.1, h.working.2⟩
      coherent := frozen.trans h.coherent
      valid := h.valid }

theorem walk_crank (h : Walk M code park t) {c : Crank} (alive : (t.crank code c).core.poison = none) :
    Walk M code park (t.crank code c) := by
  cases c with
  | advanceCrossingScan read =>
    have same : t.crank code (.advanceCrossingScan read) = advanceFrom code read crossingScanChunksPerCrank t (t.frontier park + 1) := by
      show t.advanceCrossingScan code read = _
      simp only [advanceCrossingScan, h.parked]
      rfl
    rw [same] at alive ⊢
    exact walk_advanceFrom read _ t h alive
  | commitTo index =>
    show Walk M code park { t with core := t.core.commitTo index }
    have exact := State.exact_commitTo h.exact index
    unfold State.commitTo at exact ⊢
    split at exact
    · next dead => rwa [if_pos dead]
    next open_ =>
    rw [if_neg open_]
    exact h.core exact rfl (le_max_left _ _) h.inside rfl rfl (fun e mem _ => mem) rfl
  | onAppendEntries prev entries leaderCommit =>
    change (t.core.onAppendEntries prev entries leaderCommit).poison = none at alive
    show Walk M code park { t with core := t.core.onAppendEntries prev entries leaderCommit }
    obtain same | ⟨reason, same⟩ | ⟨commit, rise, same⟩ | ⟨e, suffix, cut, commit, cache, accepts, place, a, same⟩ :=
      State.onAppendEntries_cases h.exact prev entries leaderCommit
    · rwa [same]
    · rw [same] at alive
      have := State.fail_poison t.core reason
      rw [alive] at this
      cases this
    · rw [same]
      have exact := h.exact
      exact h.core ⟨exact.whole, exact.above, exact.within, exact.committed.trans rise, exact.captured, exact.queue⟩ rfl rise h.inside rfl rfl
        (fun e mem _ => mem) rfl
    · rw [same]
      have below : t.frontier park ≤ cut := by
        have := accepts.above
        have := h.committed
        lia
      refine h.core (a.exact h.exact) rfl a.rise ?_ rfl rfl (fun x mem low => h.exact.mem_appended mem (low.trans below))
        (between_appended a h.low (le_max_right _ _) below)
      show t.frontier park ≤ t.core.boundary + (t.core.log.take (cut - t.core.boundary) ++ (e :: suffix)).length
      rw [List.length_append, a.length_take]
      lia
  | noteMergeParkUnresolvable =>
    obtain ⟨exact, parked, next, commit, committed, inside, crossings, sound, complete, working, coherent, valid⟩ := h
    exact ⟨exact, parked, next, commit, committed, inside, crossings, sound, complete, working, coherent, valid⟩
  | clearAbandoned =>
    obtain ⟨exact, parked, next, commit, committed, inside, crossings, sound, complete, working, coherent, valid⟩ := h
    exact ⟨exact, parked, next, commit, committed, inside, crossings, sound,
      fun e mem key m held witness => complete e mem key m (clearAbandoned_some.mp held).1 witness, working, coherent, valid⟩

variable (M) in
/-- A target that has just parked. -/
structure Parks (park : PendingMergeApply) (t : Target σ γ) : Prop where
  exact : t.core.Exact
  parked : t.pendingApply = some park
  next : park.index = t.core.applied + 1
  commit : ∃ e ∈ t.core.log, e.index = park.index ∧ e.kind = .commitMerge
  committed : park.index ≤ t.core.commit
  crossings : t.crossings = []
  witnesses : t.crossingWitnesses = []
  upto : t.crossingScanUpto = 0
  working : generationIsWorking t.core.shapeGen = true ∧ generationIsWorking park.targetGenAfter = true
  coherent : t.core.frozen = t.freeze.isSome
  valid : M.isValid t.conf = true

theorem Parks.walk (h : Parks M park t) : Walk M code park t := by
  have frontier : t.frontier park = park.index := by
    show max t.crossingScanUpto park.index = park.index
    rw [h.upto]
    exact Nat.zero_max _
  obtain ⟨e, mem, place, -⟩ := h.commit
  have nothing : between t.core park.index park.index = [] := by
    unfold between
    rw [Nat.sub_self, List.take_zero]
  exact
    { exact := h.exact
      parked := h.parked
      next := h.next
      commit := h.commit
      committed := frontier.le.trans h.committed
      inside := by
        rw [frontier, ← place]
        exact (index_of_mem h.exact.whole mem).2
      crossings := by
        rw [frontier, nothing, h.crossings]
        rfl
      sound := by
        rw [h.witnesses]
        exact nofun
      complete := by
        rw [frontier, nothing]
        exact nofun
      working := h.working
      coherent := h.coherent
      valid := h.valid }

theorem walk_cranks (cs : List Crank) (h : Parks M park t) (alive : (t.cranks code cs).core.poison = none) :
    Walk M code park (t.cranks code cs) := by
  induction cs using List.reverseRecOn with
  | nil => exact h.walk
  | append_singleton cs c ih =>
    have same : t.cranks code (cs ++ [c]) = (t.cranks code cs).crank code c := by
      unfold cranks
      rw [List.foldl_append]
      rfl
    rw [same] at alive ⊢
    exact walk_crank (ih (alive_of_crank alive)) alive

end

/-! ## The adoption -/

section

variable {park : PendingMergeApply} {boundary : Index}

theorem foldl_witnesses (plan : List ((Bytes × Nat) × Index)) (t : Target σ γ) :
    ∃ abandoned, plan.foldl (fun t w => if t.abandonedMatches w.1.1 w.1.2 then t.clearAbandoned w.1.1 else t) t =
        { t with abandoned := abandoned } ∧
      ∀ source m, abandoned source = some m ↔ t.abandoned source = some m ∧ ∀ w ∈ plan, w.1 ≠ (source, m) := by
  induction plan generalizing t with
  | nil => exact ⟨t.abandoned, rfl, fun source m => ⟨fun held => ⟨held, nofun⟩, And.left⟩⟩
  | cons w plan ih =>
    obtain ⟨abandoned, same, left⟩ := ih (if t.abandonedMatches w.1.1 w.1.2 then t.clearAbandoned w.1.1 else t)
    refine ⟨abandoned, ?_, fun source m => ?_⟩
    · rw [List.foldl_cons, same]
      split <;> rfl
    · rw [left, clear_matching, and_assoc, List.forall_mem_cons]
      refine and_congr_right fun _ => and_congr_left fun _ => not_congr ?_
      rw [Prod.ext_iff]
      exact and_congr eq_comm eq_comm

/-- The highest crossing of an ascending list is above every other. -/
theorem le_getLast {l : List Index} (sorted : l.Pairwise (· < ·)) {i : Index} (mem : i ∈ l) : ∃ j, l.getLast? = some j ∧ i ≤ j := by
  obtain rfl | ⟨init, last, rfl⟩ := List.eq_nil_or_concat l
  · cases mem
  rw [List.concat_eq_append] at mem sorted ⊢
  refine ⟨last, List.getLast?_concat .., ?_⟩
  obtain before | here := List.mem_append.mp mem
  · exact ((List.pairwise_append.mp sorted).2.2 i before last (List.mem_singleton_self last)).le
  · exact (List.mem_singleton.mp here).le

theorem crossingAbsorbAt_eq (covers : t.crossingWalkCovers boundary = true) :
    t.crossingAbsorbAt boundary = ((t.crossings.map (·.2)).takeWhile (· ≤ boundary)).getLast? := by
  unfold crossingAbsorbAt
  rw [covers, List.takeWhile_map, List.getLast?_map]
  rfl

section

variable (h : Walk M code park t) (covers : t.crossingWalkCovers boundary = true)

include h covers

/-- The fence of the adoption is at or above every absorb point of the interval. -/
theorem Walk.absorbHigh : park.index ≤ (t.crossingAbsorbAt boundary).getD park.index ∧
      ∀ e ∈ between t.core park.index boundary, e.kind = .commitMerge → e.index ≤ (t.crossingAbsorbAt boundary).getD park.index := by
  have low := h.low
  have up : park.index ≤ t.frontier park := le_max_right _ _
  have inside : boundary ≤ t.frontier park := by
    unfold crossingWalkCovers at covers
    rw [h.parked, Bool.and_eq_true, decide_eq_true_eq] at covers
    exact covers.2
  have sorted : (t.crossings.map (·.2)).Pairwise (· < ·) := by
    rw [h.crossings]
    have follow : contiguous park.index (between t.core park.index (t.frontier park)) = true :=
      contiguous_between h.exact.whole low (up.trans h.inside)
    have := sorted_index follow
    exact List.pairwise_map.mpr (this.sublist List.filter_sublist)
  have listed {i : Index} : i ∈ (t.crossings.map (·.2)).takeWhile (· ≤ boundary) ↔
      ∃ e ∈ between t.core park.index boundary, e.kind = .commitMerge ∧ e.index = i := by
    rw [mem_takeWhile_iff sorted, h.crossings]
    constructor
    · rintro ⟨mem, below⟩
      obtain ⟨e, filtered, rfl⟩ := List.mem_map.mp mem
      obtain ⟨mem, kind⟩ := List.mem_filter.mp filtered
      obtain ⟨mem, above, -⟩ := (mem_between h.exact.whole low).mp mem
      exact ⟨e, (mem_between h.exact.whole low).mpr ⟨mem, above, below⟩, of_decide_eq_true kind, rfl⟩
    · rintro ⟨e, mem, kind, rfl⟩
      obtain ⟨mem, above, below⟩ := (mem_between h.exact.whole low).mp mem
      have mem' := (mem_between h.exact.whole low).mpr ⟨mem, above, below.trans inside⟩
      exact ⟨List.mem_map_of_mem (List.mem_filter.mpr ⟨mem', decide_eq_true kind⟩), below⟩
  have cut := sorted.sublist (List.takeWhile_sublist (fun i : Index => decide (i ≤ boundary)))
  rw [crossingAbsorbAt_eq covers]
  constructor
  · cases last : ((t.crossings.map (·.2)).takeWhile (· ≤ boundary)).getLast? with
    | none => exact le_rfl
    | some =>
      obtain ⟨e, mem, -, rfl⟩ := listed.mp (List.mem_of_getLast? last)
      exact ((mem_between h.exact.whole low).mp mem).2.1.le
  · intro e mem kind
    obtain ⟨j, last, below⟩ := le_getLast cut (listed.mpr ⟨e, mem, kind, rfl⟩)
    rw [last]
    exact below

theorem Walk.covered : boundary ≤ t.frontier park := by
  unfold crossingWalkCovers at covers
  rw [h.parked, Bool.and_eq_true, decide_eq_true_eq] at covers
  exact covers.2

/-- The plan of the walk has the witnesses of the interval, for the obligations that are held. -/
theorem Walk.planned {source : Bytes} {generation : Nat} (held : t.abandoned source = some generation) :
    (∀ w ∈ t.crossingWitnesses.filter (·.2 ≤ boundary), w.1 ≠ (source, generation)) ↔
      ∀ e ∈ between t.core park.index boundary, ¬ Witness code e source generation := by
  have low := h.low
  have inside := h.covered covers
  constructor
  · intro clear e mem witness
    obtain ⟨mem, above, below⟩ := (mem_between h.exact.whole low).mp mem
    obtain ⟨w, listed, same, early⟩ :=
      h.complete e ((mem_between h.exact.whole low).mpr ⟨mem, above, below.trans inside⟩) source generation held witness
    exact clear w (List.mem_filter.mpr ⟨listed, decide_eq_true (early.trans below)⟩) same
  · intro clear w mem same
    obtain ⟨listed, below⟩ := List.mem_filter.mp mem
    obtain ⟨e, there, place, witness⟩ := h.sound w listed
    rw [same] at witness
    obtain ⟨there, above, -⟩ := (mem_between h.exact.whole low).mp there
    exact clear e ((mem_between h.exact.whole low).mpr ⟨there, above, place.le.trans (of_decide_eq_true below)⟩) witness

end

/-- The states agree in what the group's log decides. -/
structure SameState (a c : Target σ γ) : Prop where
  applied : a.core.applied = c.core.applied
  fsm : a.fsm = c.fsm
  conf : a.conf = c.conf
  readMode : a.readMode = c.readMode
  readModeMigrated : a.readModeMigrated = c.readModeMigrated
  shapeGen : a.core.shapeGen = c.core.shapeGen
  frozen : a.core.frozen = c.core.frozen
  freeze : a.freeze = c.freeze
  freezeQueue : a.core.freezeQueue = c.core.freezeQueue
  obligations : a.abandoned = c.abandoned

/-- A replica whose state of the group is the fold that the copy is. -/
structure Folds (r c : Target σ γ) : Prop where
  fsm : r.fsm = c.fsm
  conf : r.conf = c.conf
  readMode : r.readMode = c.readMode
  readModeMigrated : r.readModeMigrated = c.readModeMigrated
  shapeGen : r.core.shapeGen = c.core.shapeGen
  frozen : r.core.frozen = c.core.frozen

theorem capture_eq {r : Target σ γ} {snapshot : Meta γ} {data : Bytes} (h : r.capture M = some (snapshot, data)) :
    r.core.frozen = false ∧ data = M.snapshot r.fsm ∧
      snapshot = ⟨r.core.applied, r.conf, if r.readModeMigrated then some r.readMode else none, r.core.shapeGen⟩ := by
  unfold capture at h
  split at h
  · cases h
  next open_ =>
  cases h
  simp only [State.captureBlockedAt, not_or, Bool.or_eq_true] at open_
  exact ⟨Bool.not_eq_true _ ▸ open_.2.1, rfl, rfl⟩

theorem mayAdopt_iff : t.mayAdopt boundary = true ↔
    ((t.core.poison.isNone = true ∧ t.parkUnresolvable = true) ∧ t.pendingApply.any (·.index ≤ boundary) = true) ∧
      t.crossingWalkCovers boundary = true := by
  unfold mayAdopt
  rw [Bool.and_eq_true, Bool.and_eq_true, Bool.and_eq_true]

theorem Walk.adopted (h : Walk M code park t) {snapshot : Meta γ} {data : Bytes} {fsm : σ}
    (may : t.mayAdopt snapshot.lastIndex = true) (restored : M.restore data = some fsm) (valid : M.isValid snapshot.conf = true)
    (working : generationIsWorking snapshot.shapeGen = true) :
    ∃ abandoned : Bytes → Option Nat,
      (∀ source generation, abandoned source = some generation ↔ t.abandoned source = some generation ∧
        ∀ w ∈ t.crossingWitnesses.filter (·.2 ≤ snapshot.lastIndex), w.1 ≠ (source, generation)) ∧
      t.onCoveringSnapshot M snapshot data =
        { t with
          abandoned := abandoned
          core := t.core.adoptParkedUnion snapshot.lastIndex snapshot.shapeGen
          freeze := none
          fsm := fsm
          conf := snapshot.conf
          readMode := snapshot.readOnly.getD t.readMode
          readModeMigrated := snapshot.readOnly.isSome || t.readModeMigrated
          pendingApply := none, parkUnresolvable := false
          crossings := [], crossingWitnesses := [], crossingScanUpto := 0, crossingScanCurrent := false
          absorbIndex := some (t.absorbIndex.elim ((t.crossingAbsorbAt snapshot.lastIndex).getD park.index)
            (max ((t.crossingAbsorbAt snapshot.lastIndex).getD park.index))) } := by
  obtain ⟨abandoned, folded, left⟩ := foldl_witnesses (t.crossingWitnesses.filter (·.2 ≤ snapshot.lastIndex)) t
  have covers := (mayAdopt_iff.mp may).2
  have reserved : ¬ highestWorkingGeneration ≤ snapshot.shapeGen := not_le.mpr (of_decide_eq_true working)
  have plan : t.foldWitnesses snapshot.lastIndex = { t with abandoned := abandoned } := folded
  refine ⟨abandoned, left, ?_⟩
  unfold onCoveringSnapshot adoptParkedUnion
  simp only [may, if_true, h.parked, covers, Bool.not_true, Bool.false_eq_true, if_false, restored, valid, reserved, plan]

theorem Walk.copy (h : Walk M code park t) {c₁ c : Target σ γ} {entries : List Wire.Entry} (absorbed : t.resolvePendingMerge M park = some c₁)
    (drained : c₁.drain M code absorbs entries = some c) : ∃ e ∈ t.core.log, e.index = park.index ∧ e.kind = .commitMerge ∧
      Drained M code t (e :: entries) c := by
  obtain ⟨e, mem, place, kind⟩ := h.commit
  exact ⟨e, mem, place, kind, .cons (effect_resolve kind place.symm h.working.2 absorbed) (drained_drain entries c₁ drained)⟩

section

variable (h : Walk M code park t) (alive : t.core.poison = none) (reached : park.index ≤ boundary)
  (covers : t.crossingWalkCovers boundary = true)

include h alive reached covers

theorem Walk.copy_exact (mem : e ∈ t.core.log) (place : e.index = park.index) {c : Target σ γ}
    (copy : Drained M code t (e :: between t.core park.index boundary) c) :
    c.core.Exact ∧ c.core.log = t.core.log ∧ c.core.applied = boundary := by
  have low := h.low
  have inside := h.covered covers
  have up : park.index ≤ t.frontier park := le_max_right _ _
  have next := h.next
  have length := length_between low (inside.trans h.inside)
  have committed := inside.trans h.committed
  have result := copy.exact h.exact
    (contiguous_cons.mpr ⟨place.trans next, by rw [← next]; exact contiguous_between h.exact.whole low (up.trans h.inside)⟩)
    (List.forall_mem_cons.mpr ⟨mem, fun x listed => ((mem_between h.exact.whole low).mp listed).1⟩) alive
    (by rw [List.length_cons, length]; lia)
  refine ⟨result.1, result.2.1, result.2.2.trans ?_⟩
  rw [List.length_cons, length]
  lia

/-- The adoption stands at the boundary, over the same log. -/
theorem Walk.core_adopted (shapeGen : Nat) :
    (t.core.adoptParkedUnion boundary shapeGen).Exact ∧ (t.core.adoptParkedUnion boundary shapeGen).log = t.core.log ∧
      (t.core.adoptParkedUnion boundary shapeGen).applied = boundary ∧
      (t.core.adoptParkedUnion boundary shapeGen).frozen = false ∧
      (t.core.adoptParkedUnion boundary shapeGen).shapeGen = max t.core.shapeGen shapeGen := by
  have inside := h.covered covers
  have next := h.next
  refine ⟨State.exact_adoptParkedUnion h.exact boundary shapeGen, ?_⟩
  have open_ : ¬ (t.core.poison.isSome ∨ boundary ≤ t.core.applied ∨ t.core.lastIndex < boundary ∨ t.core.commit < boundary) := by
    rw [alive]
    refine not_or.mpr ⟨Bool.false_ne_true, not_or.mpr ⟨by lia, not_or.mpr ⟨?_, ?_⟩⟩⟩
    · exact not_lt.mpr (inside.trans h.inside)
    · exact not_lt.mpr (inside.trans h.committed)
  unfold State.adoptParkedUnion
  rw [if_neg open_]
  exact ⟨rfl, rfl, rfl, rfl⟩

end

/-- A parked target that may adopt a snapshot ends as a copy of it that absorbs the source and
drains through the snapshot's boundary; one that may not stays as it is. The walk may have been
cut short, met cold pages or seen the commit move, any number of times; the snapshot is that of
any replica whose state of the group is the fold of the log through the boundary. -/
theorem adoption_eq_drain (M : Machine σ γ) (code : GeneratedCode) (absorbs : Index → Bool) (park : PendingMergeApply)
    (t₀ c₁ c r : Target σ γ) (cs : List Crank) (snapshot : Meta γ) (data : Bytes) (parks : Parks M park t₀)
    (absorbed : (t₀.cranks code cs).resolvePendingMerge M park = some c₁)
    (drained : c₁.drain M code absorbs (between (t₀.cranks code cs).core park.index snapshot.lastIndex) = some c)
    (folds : Folds r c) (captured : r.capture M = some (snapshot, data))
    (clean : ∀ e ∈ between (t₀.cranks code cs).core park.index snapshot.lastIndex, ¬ TargetAbort code e) :
    let t := t₀.cranks code cs
    let a := t.onCoveringSnapshot M snapshot data
    (t.mayAdopt snapshot.lastIndex = true →
      a.core.applied = snapshot.lastIndex ∧ SameState a c ∧
        (∃ i j, a.absorbIndex = some i ∧ c.absorbIndex = some j ∧ j ≤ i) ∧ a.core.log = t.core.log) ∧
      (t.mayAdopt snapshot.lastIndex = false → a = t) := by
  intro t a
  refine ⟨fun may => ?_, fun may => if_neg (by rw [may]; exact Bool.false_ne_true)⟩
  obtain ⟨⟨⟨alive, -⟩, reached⟩, covers⟩ := mayAdopt_iff.mp may
  have alive : t.core.poison = none := Option.isNone_iff_eq_none.mp alive
  have h : Walk M code park t := walk_cranks cs parks alive
  have reached : park.index ≤ snapshot.lastIndex := by
    rw [h.parked] at reached
    exact of_decide_eq_true reached
  obtain ⟨e, mem, place, kind, copy⟩ := h.copy absorbed drained
  obtain ⟨exact, log, applied⟩ := h.copy_exact alive reached covers mem place copy
  -- what the snapshot carries is the copy's
  obtain ⟨frozen, blob, carried⟩ := capture_eq captured
  have conf : snapshot.conf = c.conf := by rw [carried, ← folds.conf]
  have shapeGen : snapshot.shapeGen = c.core.shapeGen := by rw [carried, ← folds.shapeGen]
  have restored : M.restore data = some c.fsm := by rw [blob, M.restore_snapshot, folds.fsm]
  have thawed : c.core.frozen = false := folds.frozen.symm.trans frozen
  obtain ⟨abandoned, left, adopted⟩ := h.adopted may restored (by rw [conf]; exact copy.valid h.valid)
    (by rw [shapeGen]; exact copy.working h.working.1)
  obtain ⟨exact', log', applied', frozen', shapeGen'⟩ := h.core_adopted alive reached covers snapshot.shapeGen
  have fields : a = _ := adopted
  refine ⟨by rw [fields]; exact applied', ?_, ?_, by rw [fields]; exact log'⟩
  · exact
      { applied := by rw [fields, applied]; exact applied'
        fsm := by rw [fields]
        conf := by rw [fields]; exact conf
        readMode := by
          rw [fields, carried]
          show (if r.readModeMigrated then some r.readMode else none).getD t.readMode = c.readMode
          cases migrated : r.readModeMigrated with
          | true => exact folds.readMode
          | false => exact (copy.mode (folds.readModeMigrated.symm.trans migrated)).2.symm
        readModeMigrated := by
          rw [fields, carried]
          show ((if r.readModeMigrated then some r.readMode else none).isSome || t.readModeMigrated) = c.readModeMigrated
          rw [← folds.readModeMigrated]
          cases migrated : r.readModeMigrated with
          | true => rfl
          | false => exact (copy.mode (folds.readModeMigrated.symm.trans migrated)).1
        shapeGen := by
          rw [fields]
          show (t.core.adoptParkedUnion snapshot.lastIndex snapshot.shapeGen).shapeGen = c.core.shapeGen
          rw [shapeGen', shapeGen]
          exact max_eq_right copy.rise
        frozen := by
          rw [fields, thawed]
          exact frozen'
        freeze := by
          rw [fields]
          have := copy.coherent h.coherent
          rw [thawed] at this
          exact (Option.isNone_iff_eq_none.mp (Option.isSome_eq_false_iff.mp this.symm)).symm
        freezeQueue := by
          rw [fields]
          show (t.core.adoptParkedUnion snapshot.lastIndex snapshot.shapeGen).freezeQueue = c.core.freezeQueue
          rw [exact'.queue, exact.queue, applied', applied, log', log]
        obligations := by
          rw [fields]
          funext source
          refine Option.ext fun generation => ?_
          show abandoned source = some generation ↔ c.abandoned source = some generation
          have undone : ∀ x ∈ e :: between t.core park.index snapshot.lastIndex, ¬ TargetAbort code x := by
            refine List.forall_mem_cons.mpr ⟨fun abort => ?_, clean⟩
            exact absurd (abort.1.symm.trans kind) (by decide)
          rw [left, copy.obligations undone, List.forall_mem_cons]
          refine and_congr_right fun held => ?_
          rw [h.planned covers held]
          exact ⟨fun rest => ⟨not_witness (by rw [kind]; decide) _ _, rest⟩, And.right⟩ }
  · obtain ⟨at_park, above⟩ := h.absorbHigh covers
    have fence : ∃ i, a.absorbIndex = some i ∧ (t.crossingAbsorbAt snapshot.lastIndex).getD park.index ≤ i := by
      rw [fields]
      refine ⟨_, rfl, ?_⟩
      cases t.absorbIndex with
      | none => exact le_rfl
      | some => exact le_max_left _ _
    obtain ⟨i, here, high⟩ := fence
    obtain ⟨fsm, -, made⟩ := Option.map_eq_some_iff.mp absorbed
    have parked : c₁.absorbIndex = some park.index := by rw [← made]
    obtain same | ⟨x, listed, commit, there⟩ := (drained_drain _ c₁ drained).absorb
    · exact ⟨i, park.index, here, same.trans parked, at_park.trans high⟩
    · exact ⟨i, x.index, here, there, (above x listed commit).trans high⟩

end

end Target

namespace Crossing

open Target

/-- A machine that writes down what reaches it. -/
def ledger : Machine Bytes Bytes where
  apply := fun _ data fsm => some (fsm ++ data)
  split := fun _ => some
  absorb := fun park fsm => some (fsm ++ park.sourceBytes)
  confChange := fun data conf => some (conf ++ data)
  isValid := fun _ => true
  snapshot := id
  restore := some
  isValid_confChange := fun _ _ _ _ => rfl
  restore_snapshot := fun _ => rfl

/-- The generated code writes the payloads of the log below as the real one does. -/
noncomputable def code : GeneratedCode :=
  { GeneratedCode.ofCountable with
    commitMergePayload := .ofSamples [(⟨[3], 7, 4, 2, 3⟩, [10, 1, 3, 16, 7, 24, 4, 32, 2, 40, 3])] (by decide) (by decide)
    thawDischargedPayload := .ofSamples [(⟨[2], 9⟩, [10, 1, 2, 16, 9])] (by decide) (by decide)
    prepareMergePayload := .ofSamples [(⟨[4], 3⟩, [10, 1, 4, 16, 3])] (by decide) (by decide) }

def park : PendingMergeApply := ⟨[1], 7, 3, 4, 1, 1⟩

/-- Above the parked merge: a command, a read mode, the witness of a discharged obligation, another
merge and a freeze. -/
def log : List Wire.Entry :=
  [⟨1, 1, .commitMerge, [10, 1, 1, 16, 7, 24, 4, 32, 1, 40, 3], 0, 0, 0⟩, ⟨1, 2, .normal, [5], 0, 0, 0⟩,
    ⟨1, 3, .setReadMode, [1], 0, 0, 0⟩, ⟨1, 4, .thawDischarged, [10, 1, 2, 16, 9], 0, 0, 0⟩,
    ⟨1, 5, .commitMerge, [10, 1, 3, 16, 7, 24, 4, 32, 2, 40, 3], 0, 0, 0⟩,
    ⟨1, 6, .prepareMerge, [10, 1, 4, 16, 3], 0, 0, 0⟩]

/-- A target parked at its first entry that owes a source a thaw. -/
def parked : Target Bytes Bytes where
  core := ⟨0, log, 5, 0, 0, [6], fun _ => none, false, 0, none⟩
  freeze := none
  fsm := []
  conf := [8]
  readMode := .safe
  readModeMigrated := false
  pendingApply := some park
  parkUnresolvable := false
  abandoned := Function.update (fun _ => none) [2] (some 9)
  absorbIndex := none
  crossings := []
  crossingWitnesses := []
  crossingScanUpto := 0
  crossingScanCurrent := false

theorem parks : Parks ledger park parked where
  exact := ⟨by decide, by decide, by decide, by decide, by decide, by decide⟩
  parked := rfl
  next := rfl
  commit := ⟨_, List.mem_cons_self, rfl, rfl⟩
  committed := by decide
  crossings := rfl
  witnesses := rfl
  upto := rfl
  working := by decide
  coherent := rfl
  valid := rfl

/-- The walk meets a cold page, goes on, and the commit moves over the freeze. -/
def cranks : List Crank :=
  [.advanceCrossingScan fun i => if i = 4 then .cold else .ready 0, .advanceCrossingScan fun _ => .ready 0, .commitTo 6,
    .noteMergeParkUnresolvable true, .advanceCrossingScan fun _ => .ready 0]

/-- What the walk has seen: the other merge, and the witness. -/
def walked : Target Bytes Bytes :=
  { parked with
    core := { parked.core with commit := 6 }
    parkUnresolvable := true
    crossings := [([3], 5)]
    crossingWitnesses := [(([2], 9), 4)]
    crossingScanUpto := 6
    crossingScanCurrent := true }

/-- The copy that absorbs the parked merge's source. -/
def copied : Target Bytes Bytes :=
  { walked with
    core := { walked.core with applied := 1, shapeGen := 1 }
    fsm := [1]
    pendingApply := none
    absorbIndex := some 1
    crossings := [], crossingWitnesses := [], crossingScanUpto := 0, crossingScanCurrent := false }

/-- The copy once it drained through the other merge. -/
def drained : Target Bytes Bytes :=
  { copied with
    core := { copied.core with applied := 5, shapeGen := 2 }
    fsm := [1, 5, 3]
    readMode := .leaseBased, readModeMigrated := true
    abandoned := Function.update parked.abandoned [2] none
    absorbIndex := some 5 }

/-- The adoption at the other merge is the drain through it: the command, the read mode and both
sources are there, the obligation is discharged, and the freeze above is still pending. -/
theorem adoption_eq_drain_crossing :
    let t := parked.cranks code cranks
    let a := t.onCoveringSnapshot ledger ⟨5, [8], some .leaseBased, 2⟩ [1, 5, 3]
    t.mayAdopt 5 = true ∧ t.resolvePendingMerge ledger park = some copied ∧
      copied.drain ledger code (fun _ => true) (between t.core 1 5) = some drained ∧ a.core.applied = 5 ∧
      SameState a drained ∧ a.fsm = [1, 5, 3] ∧ a.abandoned [2] = none ∧ a.core.freezeQueue = [6] ∧ a.core.log = log := by
  intro t a
  have may : t.mayAdopt 5 = true := rfl
  have copy : t.resolvePendingMerge ledger park = some copied := rfl
  have drains : copied.drain ledger code (fun _ => true) (between t.core 1 5) = some drained := rfl
  have clean : ∀ e ∈ between t.core 1 5, ¬ TargetAbort code e := by
    have kinds : ∀ e ∈ between walked.core 1 5, e.kind ≠ .rollbackMerge := by decide
    exact fun e mem abort => kinds e mem abort.1
  obtain ⟨adopts, -⟩ := adoption_eq_drain ledger code (fun _ => true) park parked copied drained drained cranks
    ⟨5, [8], some .leaseBased, 2⟩ [1, 5, 3] parks copy drains ⟨rfl, rfl, rfl, rfl, rfl, rfl⟩ rfl clean
  obtain ⟨applied, same, -, kept⟩ := adopts may
  exact ⟨may, copy, drains, applied, same, same.fsm, congrFun same.obligations [2], same.freezeQueue, kept⟩

end Crossing

end Sailing.Freeze
