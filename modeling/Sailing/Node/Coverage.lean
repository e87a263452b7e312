import Sailing.Node.LogImage
import Sailing.Step.Keeps

/-!
# What a crash cannot take away

`Cover` is what the acknowledgements of a node depend on: the images of its log
and of its snapshot slot, the watermarks, the appends in flight, and the
acknowledgements queued or held back. `Shape` bounds the watermarks and the
queues by each other; `Covered` says what the watermarks mean: up to them, a
crash leaves the entry the node now sees, or a snapshot that reaches it.

`Covered` needs that no snapshot replaces one with a higher boundary, `mono`.
-/

namespace Sailing

open List (map_append mem_map mem_append pairwise_append mem_singleton map_nil map_cons not_mem_nil mem_cons)
open Fifo (newest newest_concat images_append tags)

variable {I : Type} [LinearOrder I] {M : StateMachine}

structure Cover (I : Type) where
  role : Role
  commit : Index
  applied : Index
  durable : LogImage I
  staged : List (LogImage I × Option LogDone)
  done : List OpId
  slot : Option (SnapshotMeta I × Bytes)
  slots : List (Option (SnapshotMeta I × Bytes) × StableDone)
  nextOpId : OpId
  dur : Index
  dsi : Index
  inflight : List (OpId × Index)
  pendingLog : List (OpId × Pending I)
  acks : List (Index × Bool)
  /-- The boundaries snapshot acknowledgements are held back for. -/
  gates : List Index
  pendingCompact : Option (OpId × SnapshotMeta I)
  pendingInstall : Option (OpId × SnapshotMeta I)

/-- The boundary of a slot. -/
def boundary (slot : Option (SnapshotMeta I × Bytes)) : Index := (slot.map (·.1.lastIndex)).getD 0

namespace Cover

def logs (c : Cover I) : List (LogImage I) := Fifo.images c.durable c.staged

def visible (c : Cover I) : LogImage I := newest c.durable c.staged

def logsSince (c : Cover I) (id : OpId) : List (LogImage I) :=
  Fifo.since c.durable c.staged (some (.appended id))

def slotImages (c : Cover I) : List (Option (SnapshotMeta I × Bytes)) := Fifo.images c.slot c.slots

def newestSlot (c : Cover I) : Option (SnapshotMeta I × Bytes) := newest c.slot c.slots

def slotsSince (c : Cover I) (id : OpId) : List (Option (SnapshotMeta I × Bytes)) :=
  Fifo.since c.slot c.slots (.snapshotWritten id)

def watermark (c : Cover I) : Index := max c.dur c.dsi

/-- Whatever a crash leaves, the slot reaches `n`. -/
def SlotCovers (c : Cover I) (n : Index) : Prop := ∀ s ∈ c.slotImages, n ≤ boundary s

/-- A snapshot of the committed log reaches `i`, whatever a crash leaves. -/
def Folded (c : Cover I) (i : Index) : Prop := c.SlotCovers i ∧ i ≤ c.commit

/-- A crash does not lose the entry at `i`. -/
def Kept (c : Cover I) (i : Index) : Prop :=
  c.Folded i ∨ ∀ d ∈ c.logs, d.get i = c.visible.get i

/-- Once the append `id` is durable a crash does not lose the entry at `i`. -/
def KeptSince (c : Cover I) (id : OpId) (i : Index) : Prop :=
  c.Folded i ∨ ∀ d ∈ c.logsSince id, d.get i = c.visible.get i

def stagedIds (c : Cover I) : List OpId := c.staged.filterMap (·.2.bind LogDone.id?)

/-- What holds of the log store whether the node is alive or not. -/
structure Stored (c : Cover I) : Prop where
  ids : Ids c.stagedIds c.done c.nextOpId
  contiguous : ∀ d ∈ c.logs, d.Contiguous

end Cover

/-- How the watermarks and the queues bound each other. -/
structure Shape (c : Cover I) : Prop where
  base_applied : c.visible.base ≤ c.applied
  applied_commit : c.applied ≤ c.commit
  commit_last : c.commit ≤ c.visible.lastIndex
  dur_last : c.dur ≤ c.visible.lastIndex
  dsi_commit : c.dsi ≤ c.commit
  base_watermark : c.visible.base ≤ c.watermark
  inflight_last : ∀ p ∈ c.inflight, p.2 ≤ c.visible.lastIndex
  inflight_minted : ∀ p ∈ c.inflight, p.1 < c.nextOpId
  inflight_ordered : c.inflight.Pairwise fun p q => p.1 < q.1 ∧ p.2 < q.2
  own : c.role = .candidate ∨ c.role = .leader → ∀ id upto, (id, .leaderAppend upto) ∈ c.pendingLog →
    (id, upto) ∈ c.inflight ∨ upto ≤ c.dur
  acks : ∀ a ∈ c.acks, a.1 ≤ c.watermark ∧ (a.2 = true → a.1 ≤ c.commit)
  gates : ∀ g ∈ c.gates, g ≤ c.commit
  compacting : ∀ id m, c.pendingCompact = some (id, m) → m.lastIndex ≤ c.applied
  installing : ∀ id m, c.pendingInstall = some (id, m) →
    id < c.nextOpId ∧ ∀ s ∈ c.slotsSince id, ∃ blob, s = some (m, blob)

/-- What the watermarks mean. -/
structure Covered (c : Cover I) : Prop where
  slots : (c.slotImages.map boundary).Pairwise (· ≤ ·)
  base : c.SlotCovers c.visible.base
  dsi : c.SlotCovers c.dsi
  kept : ∀ i ≤ c.dur, c.Kept i
  inflight : ∀ p ∈ c.inflight, ∀ i ≤ p.2, c.KeptSince p.1 i
  compacting : ∀ id m, c.pendingCompact = some (id, m) → ∀ s ∈ c.slotsSince id, m.lastIndex ≤ boundary s

namespace Cover

variable {c : Cover I}

omit [LinearOrder I] in
theorem visible_mem : c.visible ∈ c.logs := Fifo.newest_mem_images

omit [LinearOrder I] in
theorem newestSlot_mem : c.newestSlot ∈ c.slotImages := Fifo.newest_mem_images

/-- A write of the hard state, or of a snapshot, under the next id. -/
def pushSlot (c : Cover I) (s : Option (SnapshotMeta I × Bytes)) (done : OpId → StableDone) :
    Cover I :=
  { c with slots := c.slots ++ [(s, done c.nextOpId)], nextOpId := c.nextOpId.next }

def write (c : Cover I) : Cover I := c.pushSlot c.newestSlot .wrote

/-- An append of `es`, the last of them at `upto`. -/
def append (c : Cover I) (e : Entry I) (es : List (Entry I)) (pre : List (LogImage I × Option LogDone)) :
    Cover I :=
  { c with
    staged := c.staged ++ (pre ++ [(c.visible.putAll (e :: es), some (.appended c.nextOpId))])
    nextOpId := c.nextOpId.next
    inflight := c.inflight ++ [(c.nextOpId, ((e :: es).getLast (by simp)).index)] }

/-- Nothing from `first` on is durable, in flight or acknowledged any more. -/
def cut (c : Cover I) (first : Index) : Cover I :=
  { c with
    dur := min c.dur (first - 1)
    inflight := c.inflight.rdropWhile fun p => first ≤ p.2 }

/-- The log without what the slot folds. -/
def compactTo (c : Cover I) (n : Index) : Cover I :=
  { c with
    staged := c.staged ++ [(c.visible.compact n, some (.compacted n))]
    dsi := max c.dsi n
    pendingCompact := none }

/-- Everything stands at the boundary of an installed snapshot. -/
def installAt (c : Cover I) (n : Index) (t : Term) (acks : List (Index × Bool))
    (gates : List Index) : Cover I :=
  { c with
    commit := n, applied := n
    staged := c.staged ++ [(⟨n, t, []⟩, none)]
    dur := n, dsi := max c.dsi n, inflight := [], pendingLog := [], acks := acks, gates := gates
    pendingCompact := none, pendingInstall := none }

omit [LinearOrder I] in
theorem visible_compactTo (n : Index) : (c.compactTo n).visible = c.visible.compact n := newest_concat

omit [LinearOrder I] in
theorem visible_installAt (n : Index) (t : Term) (acks : List (Index × Bool)) (gates : List Index) :
    (c.installAt n t acks gates).visible = ⟨n, t, []⟩ :=
  newest_concat

omit [LinearOrder I] in
theorem logs_append (e : Entry I) (es : List (Entry I)) (pre : List (LogImage I × Option LogDone))
    (hp : pre.map Prod.fst ++ [c.visible.putAll (e :: es)] = c.visible.puts (e :: es)) :
    (c.append e es pre).logs = c.logs ++ c.visible.puts (e :: es) := by
  simp only [logs, append, images_append, map_append, List.map_singleton, hp]

omit [LinearOrder I] in
theorem visible_append (e : Entry I) (es : List (Entry I)) (pre : List (LogImage I × Option LogDone)) :
    (c.append e es pre).visible = c.visible.putAll (e :: es) := by
  simp only [visible, append]
  rw [← List.append_assoc, newest_concat]

variable {e : Entry I} {es : List (Entry I)} {pre : List (LogImage I × Option LogDone)}

omit [LinearOrder I] in
theorem mem_logsSince_append
    (hp : pre.map Prod.fst ++ [c.visible.putAll (e :: es)] = c.visible.puts (e :: es)) {id : OpId}
    {d : LogImage I} (h : d ∈ (c.append e es pre).logsSince id) :
    d ∈ c.logsSince id ∨ d ∈ c.visible.puts (e :: es) := by
  rcases Fifo.mem_since_append h with h | h
  · exact .inl h
  · rw [map_append, List.map_singleton, hp] at h
    exact .inr h

omit [LinearOrder I] in
/-- Once the fresh append is durable nothing but its own result is left. -/
theorem Stored.logsSince_fresh (hs : c.Stored) (hn : ∀ p ∈ pre, p.2 = none) :
    (c.append e es pre).logsSince c.nextOpId = [c.visible.putAll (e :: es)] := by
  refine Fifo.since_fresh (fun ht => ?_) (fun ht => ?_)
  · refine hs.ids.bound_notMem (List.mem_append_right _ ?_)
    obtain ⟨p, hp, hpe⟩ := mem_map.mp ht
    exact List.mem_filterMap.mpr ⟨p, hp, by rw [hpe]; rfl⟩
  · obtain ⟨p, hp, hpe⟩ := mem_map.mp ht
    rw [hn p hp] at hpe
    cases hpe

omit [LinearOrder I] in
theorem Stored.append (hs : c.Stored) (mint : c.nextOpId.next ≠ c.nextOpId)
    (fits : c.visible.Fits e.index)
    (run : LogImage.Run e.index (e :: es)) (hn : ∀ p ∈ pre, p.2 = none)
    (hp : pre.map Prod.fst ++ [c.visible.putAll (e :: es)] = c.visible.puts (e :: es)) :
    (c.append e es pre).Stored where
  ids := by
    have hpre : pre.filterMap (fun p => p.2.bind LogDone.id?) = [] := by
      rw [List.filterMap_eq_nil_iff]
      intro p hm
      rw [hn p hm]
      rfl
    have := hs.ids.submit mint
    simpa [stagedIds, Cover.append, List.filterMap_append, hpre, LogDone.id?] using this
  contiguous := by
    rw [logs_append e es pre hp]
    intro d hd
    rcases mem_append.mp hd with hd | hd
    · exact hs.contiguous d hd
    · exact (LogImage.puts_spec (hs.contiguous _ visible_mem) fits run d hd).1

end Cover

namespace Shape

variable {c : Cover I}

omit [LinearOrder I] in
theorem base_last (h : Shape c) : c.visible.base ≤ c.visible.lastIndex :=
  h.base_applied.trans (h.applied_commit.trans h.commit_last)

omit [LinearOrder I] in
theorem append (h : Shape c) (hs : c.Stored) {e : Entry I} {es : List (Entry I)}
    {r : List (LogImage I × Option LogDone)} (mint : c.nextOpId.next ≠ c.nextOpId)
    (fits : c.visible.Fits e.index) (run : LogImage.Run e.index (e :: es))
    (uncommitted : c.commit < e.index) (undurable : c.dur < e.index)
    (unsent : ∀ p ∈ c.inflight, p.2 < e.index) : Shape (c.append e es r) := by
  obtain ⟨-, hb, -, hl, -⟩ := LogImage.puts_spec (hs.contiguous _ Cover.visible_mem) fits run _
    (LogImage.putAll_mem_puts c.visible e es)
  have hv := Cover.visible_append (c := c) e es r
  have hlast := LogImage.putAll_lastIndex fits run
  have hnew : ∀ p ∈ (c.append e es r).inflight,
      p ∈ c.inflight ∨ p = (c.nextOpId, ((e :: es).getLast (by simp)).index) := fun p hp => by
    simpa [Cover.append] using hp
  refine ⟨?_, h.applied_commit, ?_, ?_, h.dsi_commit, ?_, ?_, ?_, ?_, ?_, h.acks, h.gates, h.compacting, ?_⟩
  · rw [hv, hb]
    exact h.base_applied
  · rw [hv]
    exact (uncommitted.trans_le hl).le
  · rw [hv]
    exact (undurable.trans_le hl).le
  · rw [hv, hb]
    exact h.base_watermark
  · intro p hp
    rw [hv]
    rcases hnew p hp with hp | rfl
    · exact ((unsent p hp).trans_le hl).le
    · exact hlast.ge
  · intro p hp
    rcases hnew p hp with hp | rfl
    · exact OpId.lt_trans (h.inflight_minted p hp) (OpId.lt_next mint)
    · exact OpId.lt_next mint
  · simp only [Cover.append]
    rw [pairwise_append]
    refine ⟨h.inflight_ordered, List.pairwise_singleton _ _, fun p hp q hq => ?_⟩
    rw [mem_singleton.mp hq]
    exact ⟨h.inflight_minted p hp, (unsent p hp).trans_le (hlast ▸ hl)⟩
  · intro hr id upto hm
    rcases h.own hr id upto hm with hi | hi
    · exact .inl (List.mem_append_left _ hi)
    · exact .inr hi
  · intro id m hm
    obtain ⟨hlt, hall⟩ := h.installing id m hm
    exact ⟨OpId.lt_trans hlt (OpId.lt_next mint), hall⟩

omit [LinearOrder I] in
theorem raise {dur dsi : Index} (h : Shape c) (higher : c.dur ≤ dur) (held : dur ≤ c.visible.lastIndex)
    (above : c.dsi ≤ dsi) (known : dsi ≤ c.commit) : Shape { c with dur := dur, dsi := dsi } :=
  have up : c.watermark ≤ max dur dsi := max_le_max higher above
  { h with
    dur_last := held
    dsi_commit := known
    base_watermark := h.base_watermark.trans up
    own := fun hr id upto hm => (h.own hr id upto hm).imp_right fun hi => hi.trans higher
    acks := fun a ha => ⟨(h.acks a ha).1.trans up, (h.acks a ha).2⟩ }

end Shape

namespace Covered

variable {c : Cover I}

omit [LinearOrder I] in
theorem append (h : Covered c) (hs : c.Stored) {e : Entry I} {es : List (Entry I)}
    {pre : List (LogImage I × Option LogDone)} (fits : c.visible.Fits e.index)
    (run : LogImage.Run e.index (e :: es)) (hn : ∀ p ∈ pre, p.2 = none)
    (hp : pre.map Prod.fst ++ [c.visible.putAll (e :: es)] = c.visible.puts (e :: es))
    (undurable : c.dur < e.index) (unsent : ∀ p ∈ c.inflight, p.2 < e.index) :
    Covered (c.append e es pre) := by
  have hspec := LogImage.puts_spec (hs.contiguous _ Cover.visible_mem) fits run
  obtain ⟨-, hb, -, -, hget⟩ := hspec _ (LogImage.putAll_mem_puts c.visible e es)
  have hv := Cover.visible_append (c := c) e es pre
  -- below the append every new image agrees with the old visible one
  have agree : ∀ i < e.index, ∀ d, d ∈ c.visible.puts (e :: es) →
      d.get i = (c.append e es pre).visible.get i := fun i hi d hd => by
    rw [hv, hget i hi]
    exact (hspec d hd).2.2.2.2 i hi
  refine ⟨h.slots, ?_, h.dsi, ?_, ?_, h.compacting⟩
  · rw [hv, hb]
    exact h.base
  · intro i hi
    have hlt := lt_of_le_of_lt hi undurable
    rcases h.kept i hi with hf | hall
    · exact .inl hf
    refine .inr fun d hd => ?_
    rw [Cover.logs_append e es pre hp] at hd
    rcases mem_append.mp hd with hd | hd
    · rw [hall d hd, hv, hget i hlt]
    · exact agree i hlt d hd
  · intro p hpm i hi
    rcases mem_append.mp hpm with hpm | hpm
    · have hlt := lt_of_le_of_lt hi (unsent p hpm)
      rcases h.inflight p hpm i hi with hf | hall
      · exact .inl hf
      refine .inr fun d hd => ?_
      rcases Cover.mem_logsSince_append hp hd with hd | hd
      · rw [hall d hd, hv, hget i hlt]
      · exact agree i hlt d hd
    · rw [mem_singleton.mp hpm]
      refine .inr fun d hd => ?_
      rw [hs.logsSince_fresh hn] at hd
      rw [mem_singleton.mp hd, hv]

end Covered

/-! ## Cutting -/

/-- What survives a cut at `first` ends below it. -/
theorem lt_of_mem_rdropWhile {l : List (OpId × Index)}
    (ho : l.Pairwise fun p q => p.1 < q.1 ∧ p.2 < q.2) {first : Index} {p : OpId × Index}
    (hp : p ∈ l.rdropWhile fun p => decide (first ≤ p.2)) : p.2 < first := by
  induction l using List.reverseRecOn with
  | nil => simp at hp
  | append_singleton l x ih =>
    obtain ⟨hl, -, hx⟩ := pairwise_append.mp ho
    rw [List.rdropWhile_concat] at hp
    split at hp
    · exact ih hl hp
    next hlt =>
    have hx' : x.2 < first := by simpa using hlt
    rcases mem_append.mp hp with hp | hp
    · exact (hx p hp x (by simp)).2.trans hx'
    · rw [mem_singleton.mp hp]
      exact hx'

theorem mem_of_mem_rdropWhile {α : Type} {f : α → Bool} {l : List α} {x : α}
    (h : x ∈ l.rdropWhile f) : x ∈ l := (List.rdropWhile_prefix _ _).subset h

variable {c : Cover I}

omit [LinearOrder I] in
theorem Shape.cut (h : Shape c) {first : Index} (role : c.role = .follower)
    (hb : c.visible.base < first) (hc : c.commit < first) {acks : List (Index × Bool)}
    (ha : ∀ a ∈ acks, a ∈ c.acks ∧ (a.2 = true ∨ a.1 < first)) {gates : List Index}
    (hg : ∀ g ∈ gates, ∃ g' ∈ c.gates, g ≤ g') {l : List (OpId × Pending I)} :
    Shape { c.cut first with acks := acks, gates := gates, pendingLog := l } := by
  have hsub : ∀ p ∈ (c.cut first).inflight, p ∈ c.inflight := fun p hp => mem_of_mem_rdropWhile hp
  have hw : ∀ n, n < first → n ≤ c.watermark → n ≤ max (min c.dur (first - 1)) c.dsi := by
    intro n h₁ h₂
    unfold Cover.watermark at h₂
    lia
  refine ⟨h.base_applied, h.applied_commit, h.commit_last, ?_, h.dsi_commit, hw _ hb h.base_watermark,
    fun p hp => h.inflight_last p (hsub p hp), fun p hp => h.inflight_minted p (hsub p hp), ?_, ?_, ?_,
    ?_, h.compacting, h.installing⟩
  · exact (min_le_left _ _).trans h.dur_last
  · exact h.inflight_ordered.sublist (List.rdropWhile_prefix _ _).sublist
  · intro (hr : c.role = .candidate ∨ c.role = .leader)
    simp [role] at hr
  · intro a hm
    obtain ⟨hm, hlt⟩ := ha a hm
    obtain ⟨h₁, h₂⟩ := h.acks a hm
    refine ⟨hw _ ?_ h₁, h₂⟩
    rcases hlt with hs | hlt
    · exact (h₂ hs).trans_lt hc
    · exact hlt
  · intro g hm
    obtain ⟨g', hm', hle⟩ := hg g hm
    exact hle.trans (h.gates g' hm')

omit [LinearOrder I] in
theorem Covered.cut (h : Covered c) (first : Index) : Covered (c.cut first) :=
  ⟨h.slots, h.base, h.dsi, fun i hi => h.kept i (hi.trans (min_le_left _ _)),
    fun p hp => h.inflight p (mem_of_mem_rdropWhile hp), h.compacting⟩

/-! ## Writes to the slot -/

namespace Cover

variable {c : Cover I} {s : Option (SnapshotMeta I × Bytes)} {w : OpId → StableDone}

omit [LinearOrder I] in
theorem slotImages_pushSlot : (c.pushSlot s w).slotImages = c.slotImages ++ [s] := by
  simp [slotImages, pushSlot, images_append]

omit [LinearOrder I] in
theorem mem_slotsSince_pushSlot {id : OpId} {x : Option (SnapshotMeta I × Bytes)}
    (h : x ∈ (c.pushSlot s w).slotsSince id) : x ∈ c.slotsSince id ∨ x = s := by
  have := Fifo.mem_since_append h
  simpa [slotsSince, pushSlot] using this

omit [LinearOrder I] in
theorem newestSlot_mem_since (id : OpId) : c.newestSlot ∈ c.slotsSince id := Fifo.newest_mem_since

omit [LinearOrder I] in
theorem slotsSince_fresh (fresh : StableDone.snapshotWritten c.nextOpId ∉ tags c.slots) :
    (c.pushSlot s .snapshotWritten).slotsSince c.nextOpId = [s] :=
  Fifo.since_fresh (r := []) fresh (by simp [tags])

omit [LinearOrder I] in
theorem boundary_le_newest (h : (c.slotImages.map boundary).Pairwise (· ≤ ·))
    {x : Option (SnapshotMeta I × Bytes)} (hx : x ∈ c.slotImages) :
    boundary x ≤ boundary c.newestSlot := by
  unfold slotImages newestSlot at *
  rcases List.eq_nil_or_concat c.slots with hs | ⟨l, ⟨y, d⟩, hs⟩
  · rw [hs] at hx ⊢
    simp only [Fifo.images, map_nil, mem_singleton] at hx
    simp [newest, hx]
  rw [hs, List.concat_eq_append] at hx h ⊢
  rw [images_append, map_append] at h
  rw [images_append] at hx
  rw [newest_concat]
  rcases mem_append.mp hx with hx | hx
  · exact (pairwise_append.mp h).2.2 _ (List.mem_map_of_mem hx) _ (by simp)
  · simp only [map_cons, map_nil, mem_singleton] at hx
    rw [hx]

omit [LinearOrder I] in
theorem Stored.pushSlot (hs : c.Stored) (mint : c.nextOpId.next ≠ c.nextOpId) :
    (c.pushSlot s w).Stored :=
  ⟨hs.ids.mono (.inr (OpId.lt_next mint)), hs.contiguous⟩

end Cover

omit [LinearOrder I] in
/-- A slot write keeps the shape if a pending install still finds its
snapshot there. -/
theorem Shape.pushSlot (h : Shape c) (mint : c.nextOpId.next ≠ c.nextOpId)
    {s : Option (SnapshotMeta I × Bytes)} {w : OpId → StableDone}
    (hi : s = c.newestSlot ∨ c.pendingInstall = none) : Shape (c.pushSlot s w) := by
  refine ⟨h.base_applied, h.applied_commit, h.commit_last, h.dur_last, h.dsi_commit, h.base_watermark,
    h.inflight_last, fun p hp => OpId.lt_trans (h.inflight_minted p hp) (OpId.lt_next mint),
    h.inflight_ordered, h.own, h.acks, h.gates, h.compacting, fun id m hm => ?_⟩
  rcases hi with rfl | hi
  · obtain ⟨hlt, hall⟩ := h.installing id m hm
    refine ⟨OpId.lt_trans hlt (OpId.lt_next mint), fun x hx => ?_⟩
    rcases Cover.mem_slotsSince_pushSlot hx with hx | rfl
    · exact hall x hx
    · exact hall _ (Cover.newestSlot_mem_since id)
  · exact absurd (hi.symm.trans hm) (by simp)

omit [LinearOrder I] in
theorem Covered.pushSlot (h : Covered c) {s : Option (SnapshotMeta I × Bytes)}
    {w : OpId → StableDone} (higher : boundary c.newestSlot ≤ boundary s) :
    Covered (c.pushSlot s w) := by
  have hcov : ∀ n, c.SlotCovers n → (c.pushSlot s w).SlotCovers n := by
    intro n hn x hx
    rw [Cover.slotImages_pushSlot] at hx
    rcases mem_append.mp hx with hx | hx
    · exact hn x hx
    · rw [mem_singleton.mp hx]
      exact (hn _ Cover.newestSlot_mem).trans higher
  refine ⟨?_, hcov _ h.base, hcov _ h.dsi, fun i hi => ?_, fun p hp i hi => ?_, fun id m hm x hx => ?_⟩
  · rw [Cover.slotImages_pushSlot, map_append, pairwise_append]
    refine ⟨h.slots, List.pairwise_singleton _ _, fun a ha b hb => ?_⟩
    obtain ⟨x, hx, rfl⟩ := mem_map.mp ha
    obtain ⟨y, hy, rfl⟩ := mem_map.mp hb
    rw [mem_singleton.mp hy]
    exact (Cover.boundary_le_newest h.slots hx).trans higher
  · exact (h.kept i hi).imp (fun hf => ⟨hcov _ hf.1, hf.2⟩) fun hl => hl
  · exact (h.inflight p hp i hi).imp (fun hf => ⟨hcov _ hf.1, hf.2⟩) fun hl => hl
  · rcases Cover.mem_slotsSince_pushSlot hx with hx | rfl
    · exact h.compacting id m hm x hx
    · exact (h.compacting id m hm _ (Cover.newestSlot_mem_since id)).trans higher

omit [LinearOrder I] in
theorem Shape.install (h : Shape c) {n : Index} {t : Term} (ahead : c.commit < n)
    {acks : List (Index × Bool)} (scrubbed : ∀ a ∈ acks, a ∈ c.acks ∧ (a.2 = true ∨ a.1 ≤ n))
    {gates : List Index} (capped : ∀ g ∈ gates, ∃ g' ∈ c.gates, g ≤ g') :
    Shape (c.installAt n t acks gates) := by
  have hv := c.visible_installAt n t acks gates
  refine ⟨?_, le_rfl, ?_, ?_, max_le (h.dsi_commit.trans ahead.le) le_rfl, ?_,
    fun _ hp => absurd hp not_mem_nil, fun _ hp => absurd hp not_mem_nil,
    List.Pairwise.nil, fun _ _ _ hp => absurd hp not_mem_nil, fun a ha => ?_, fun g hg => ?_,
    by simp [Cover.installAt], by simp [Cover.installAt]⟩
  · rw [hv]
    exact le_rfl
  · rw [hv]
    exact Nat.le_add_right _ _
  · rw [hv]
    exact Nat.le_add_right _ _
  · rw [hv]
    exact le_max_left _ _
  · obtain ⟨hm, hle⟩ := scrubbed a ha
    have hn : a.1 ≤ n := by
      rcases hle with hle | hle
      · exact ((h.acks a hm).2 hle).trans ahead.le
      · exact hle
    exact ⟨hn.trans (le_max_left _ _), fun _ => hn⟩
  · obtain ⟨g', hm, hle⟩ := capped g hg
    exact (hle.trans (h.gates g' hm)).trans ahead.le

omit [LinearOrder I] in
theorem Covered.compacted (h : Covered c) (hs : Shape c) {n : Index}
    (applied : n ≤ c.applied) (covers : c.SlotCovers n) (above : c.visible.base < n) :
    Covered (c.compactTo n) := by
  have hv := c.visible_compactTo n
  have hget : ∀ i, n < i → (c.visible.compact n).get i = c.visible.get i := fun i hi =>
    LogImage.get_compact above.le hi
  have fold : ∀ i ≤ n, c.Folded i := fun i hi =>
    ⟨fun x hx => hi.trans (covers x hx), hi.trans (applied.trans hs.applied_commit)⟩
  refine ⟨h.slots, ?_, fun x hx => max_le (h.dsi x hx) (covers x hx), fun i hi => ?_,
    fun p hp i hi => ?_, by simp [Cover.compactTo]⟩
  · rw [hv]
    exact covers
  · rcases Nat.lt_or_ge n i with hlt | hle
    · refine (h.kept i hi).imp_right fun hall d hd => ?_
      rw [hv, hget i hlt]
      simp only [Cover.logs, Cover.compactTo, images_append, map_cons, map_nil, mem_append, mem_singleton] at hd
      rcases hd with hd | rfl
      · exact hall d hd
      · exact hget i hlt
    · exact .inl (fold i hle)
  · rcases Nat.lt_or_ge n i with hlt | hle
    · refine (h.inflight p hp i hi).imp_right fun hall d hd => ?_
      rw [hv, hget i hlt]
      rcases Fifo.mem_since_append hd with hd | hd
      · exact hall d hd
      rw [List.map_singleton, mem_singleton] at hd
      rw [hd]
      exact hget i hlt
    · exact .inl (fold i hle)

omit [LinearOrder I] in
theorem Shape.inflight_eq (h : Shape c) {p q : OpId × Index} (hp : p ∈ c.inflight)
    (hq : q ∈ c.inflight) (hid : p.1 = q.1) : p = q := by
  have ho := h.inflight_ordered
  generalize c.inflight = l at hp hq ho
  induction l with
  | nil => exact absurd hp not_mem_nil
  | cons a l ih =>
    obtain ⟨ha, hl⟩ := List.pairwise_cons.mp ho
    rcases mem_cons.mp hp with hpa | hpl <;> rcases mem_cons.mp hq with hqa | hql
    · rw [hpa, hqa]
    · subst hpa
      exact absurd (hid ▸ (ha q hql).1) (OpId.lt_irrefl _)
    · subst hqa
      exact absurd (hid ▸ (ha p hpl).1) (OpId.lt_irrefl _)
    · exact ih hpl hql hl

/-! ## What a step does to the coverage -/

/-- The steps, as far as acknowledgements are concerned. -/
inductive CoverStep (mono : Prop) (c : Cover I) : Cover I → Prop where
  | keep : CoverStep mono c c
  | poll {done : List OpId} (fewer : done ⊆ c.done) : CoverStep mono c { c with done := done }
  | demote {r : Role} {pendingLog : List (OpId × Pending I)} (candidate : r ≠ .candidate)
      (leader : r ≠ .leader) : CoverStep mono c { c with role := r, pendingLog := pendingLog }
  | lead (role : c.role = .candidate) : CoverStep mono c { c with role := .leader }
  | write (mint : c.nextOpId.next ≠ c.nextOpId) : CoverStep mono c c.write
  | campaign (mint : c.nextOpId.next ≠ c.nextOpId) :
      CoverStep mono c { c.write with role := .candidate, pendingLog := [] }
  | capture {m : SnapshotMeta I} {b : Bytes} (mint : c.nextOpId.next ≠ c.nextOpId)
      (fresh : StableDone.snapshotWritten c.nextOpId ∉ tags c.slots)
      (free : c.pendingInstall = none) (applied : m.lastIndex ≤ c.applied)
      (higher : mono → boundary c.newestSlot ≤ m.lastIndex) :
      CoverStep mono c { c.pushSlot (some (m, b)) .snapshotWritten with
        pendingCompact := some (c.nextOpId, m) }
  | beginInstall {m : SnapshotMeta I} {b : Bytes} (mint : c.nextOpId.next ≠ c.nextOpId)
      (fresh : StableDone.snapshotWritten c.nextOpId ∉ tags c.slots)
      (higher : mono → boundary c.newestSlot ≤ m.lastIndex) :
      CoverStep mono c { c.pushSlot (some (m, b)) .snapshotWritten with
        pendingInstall := some (c.nextOpId, m) }
  | dropInstall : CoverStep mono c { c with pendingInstall := none }
  | commit {k : Index} (higher : c.commit ≤ k) (held : k ≤ c.visible.lastIndex) :
      CoverStep mono c { c with commit := k }
  | apply {a : Index} {r : Role} (higher : c.applied ≤ a) (committed : a ≤ c.commit)
      (role : r = c.role ∨ r = .follower) : CoverStep mono c { c with applied := a, role := r }
  | ack {a : Index × Bool} (low : a.1 ≤ c.watermark) (snap : a.2 = true → a.1 ≤ c.commit)
      {gates : List Index} (fewer : gates ⊆ c.gates) {pendingLog : List (OpId × Pending I)}
      (released : pendingLog ⊆ c.pendingLog) :
      CoverStep mono c { c with acks := c.acks ++ [a], gates := gates, pendingLog := pendingLog }
  | gate {gates : List Index} (low : ∀ g ∈ gates, g ≤ c.commit) :
      CoverStep mono c { c with gates := gates }
  | pend {pendingLog : List (OpId × Pending I)}
      (fewer : ∀ id upto, (id, .leaderAppend upto) ∈ pendingLog →
        (id, .leaderAppend upto) ∈ c.pendingLog) :
      CoverStep mono c { c with pendingLog := pendingLog }
  | own {e : Entry I} {pre : List (LogImage I × Option LogDone)}
      (mint : c.nextOpId.next ≠ c.nextOpId) (index : e.index = c.visible.lastIndex + 1)
      (untagged : ∀ p ∈ pre, p.2 = none)
      (images : pre.map Prod.fst ++ [c.visible.putAll [e]] = c.visible.puts [e]) :
      CoverStep mono c { c.append e [] pre with
        pendingLog := c.pendingLog ++ [(c.nextOpId, .leaderAppend e.index)] }
  | overwrite {e : Entry I} {es : List (Entry I)} {pre : List (LogImage I × Option LogDone)}
      {a : List (Index × Bool)} {g : List Index} {l : List (OpId × Pending I)}
      (mint : c.nextOpId.next ≠ c.nextOpId) (role : c.role = .follower)
      (fits : c.visible.Fits e.index) (run : LogImage.Run e.index (e :: es))
      (uncommitted : c.commit < e.index) (untagged : ∀ p ∈ pre, p.2 = none)
      (images : pre.map Prod.fst ++ [c.visible.putAll (e :: es)] = c.visible.puts (e :: es))
      (scrubbed : ∀ x ∈ a, x ∈ c.acks ∧ (x.2 = true ∨ x.1 < e.index))
      (capped : ∀ x ∈ g, ∃ y ∈ c.gates, x ≤ y) :
      CoverStep mono c (Cover.append
        { c.cut e.index with acks := a, gates := g, pendingLog := l } e es pre)
  | appended {id : OpId} {upto : Index} {done : List OpId} (durable : id ∈ c.done)
      (fewer : done ⊆ c.done) (flying : (id, upto) ∈ c.inflight) :
      CoverStep mono c { c with
        done := done
        dur := max c.dur upto
        inflight := c.inflight.eraseP (·.1 == id) }
  | raiseIndex {d : Index} (low : d ≤ c.visible.lastIndex)
      (durable : ∀ i ≤ d, i ≤ c.visible.base ∨ ∀ l ∈ c.logs, l.get i = c.visible.get i) :
      CoverStep mono c { c with dur := max c.dur d }
  | popInflight {id : OpId} {upto : Index} {rest : List (OpId × Index)}
      (front : c.inflight = (id, upto) :: rest) (covered : upto ≤ c.dur) :
      CoverStep mono c { c with inflight := rest }
  | raiseSlot {n : Index} (covers : mono → c.SlotCovers n) (known : n ≤ c.commit) :
      CoverStep mono c { c with dsi := max c.dsi n }
  | compacted {n : Index} (applied : n ≤ c.applied) (covers : mono → c.SlotCovers n)
      (above : c.visible.base < n) :
      CoverStep mono c (c.compactTo n)
  | uncompacted {n : Index} (applied : n ≤ c.applied) (covers : mono → c.SlotCovers n) :
      CoverStep mono c { c with dsi := max c.dsi n, pendingCompact := none }
  | install {n : Index} {t : Term} {acks : List (Index × Bool)} {gates : List Index}
      (covers : mono → c.SlotCovers n) (ahead : c.commit < n)
      (scrubbed : ∀ a ∈ acks, a ∈ c.acks ∧ (a.2 = true ∨ a.1 ≤ n))
      (capped : ∀ g ∈ gates, ∃ g' ∈ c.gates, g ≤ g') :
      CoverStep mono c (c.installAt n t acks gates)

namespace CoverStep

variable {mono : Prop} {c c' : Cover I}

omit [LinearOrder I] in
theorem of_eq (h : c' = c) : CoverStep mono c c' := h ▸ .keep

theorem stored (st : CoverStep mono c c') (hs : c.Stored) (h : Shape c) : c'.Stored := by
  cases st with
  | keep => exact hs
  | poll fewer => exact ⟨hs.ids.done_subset fewer, hs.contiguous⟩
  | write mint => exact hs.pushSlot mint
  | campaign mint => exact ⟨(hs.pushSlot mint (s := c.newestSlot) (w := .wrote)).ids, hs.contiguous⟩
  | capture mint | beginInstall mint => exact ⟨hs.ids.mono (.inr (OpId.lt_next mint)), hs.contiguous⟩
  | @own e _ mint index untagged images =>
    have hf : c.visible.Fits _ := ⟨by rw [index]; exact Nat.lt_succ_of_le h.base_last, index.le⟩
    have h' := hs.append mint hf (show LogImage.Run e.index [e] from ⟨rfl, trivial⟩) untagged images
    exact ⟨h'.ids, h'.contiguous⟩
  | @overwrite e _ _ acks gates pendingLog mint _ fits run _ untagged images _ _ =>
    have h₁ : Cover.Stored { c.cut e.index with acks := acks, gates := gates, pendingLog := pendingLog } :=
      ⟨hs.ids, hs.contiguous⟩
    exact h₁.append mint fits run untagged images
  | appended _ fewer => exact ⟨hs.ids.done_subset fewer, hs.contiguous⟩
  | compacted applied _ above =>
    refine ⟨?_, fun d hd => ?_⟩
    · simpa [Cover.stagedIds, Cover.compactTo, List.filterMap_append, List.filterMap_cons, LogDone.id?] using hs.ids
    · simp only [Cover.logs, Cover.compactTo, images_append, map_cons, map_nil, mem_append, mem_singleton] at hd
      rcases hd with hd | rfl
      · exact hs.contiguous d hd
      · exact (hs.contiguous _ Cover.visible_mem).compact above.le
  | install =>
    refine ⟨?_, fun d hd => ?_⟩
    · simpa [Cover.stagedIds, Cover.installAt, List.filterMap_append] using hs.ids
    · simp only [Cover.logs, Cover.installAt, images_append, map_cons, map_nil, mem_append, mem_singleton] at hd
      rcases hd with hd | rfl
      · exact hs.contiguous d hd
      · exact LogImage.contiguous_nil _ _
  | _ => exact ⟨hs.ids, hs.contiguous⟩

theorem shape (st : CoverStep mono c c') (hs : c.Stored) (h : Shape c) : Shape c' := by
  cases st with
  | keep => exact h
  | poll => exact { h with }
  | demote =>
    exact { h with own := fun hr => by rcases hr with hr | hr <;> contradiction }
  | lead role => exact { h with own := fun _ => h.own (.inl role) }
  | write mint => exact h.pushSlot mint (.inl rfl)
  | campaign mint =>
    have h' := h.pushSlot mint (w := .wrote) (.inl rfl)
    exact { h' with own := fun _ _ _ hm => absurd hm not_mem_nil }
  | @capture m blob mint fresh free applied higher =>
    have h' := h.pushSlot mint (s := some (m, blob)) (w := .snapshotWritten) (.inr free)
    exact { h' with compacting := fun id m hm => by cases hm; exact applied }
  | @beginInstall m blob mint fresh higher =>
    have h₀ : Shape { c with pendingInstall := none } := { h with installing := by simp }
    have h' := h₀.pushSlot mint (s := some (m, blob)) (w := .snapshotWritten) (.inr rfl)
    refine { h' with installing := fun id m' hm => ?_ }
    cases hm
    refine ⟨OpId.lt_next mint, fun x hx => ⟨blob, ?_⟩⟩
    have hx' : x ∈ (c.pushSlot (some (m, blob)) .snapshotWritten).slotsSince c.nextOpId := hx
    rw [Cover.slotsSince_fresh fresh] at hx'
    exact mem_singleton.mp hx'
  | dropInstall => exact { h with installing := by simp }
  | commit higher held =>
    exact { h with
      applied_commit := h.applied_commit.trans higher
      commit_last := held
      dsi_commit := h.dsi_commit.trans higher
      acks := fun a ha => ⟨(h.acks a ha).1, fun hb => ((h.acks a ha).2 hb).trans higher⟩
      gates := fun g hg => (h.gates g hg).trans higher }
  | apply higher committed role =>
    exact { h with
      own := fun hr => by
        rcases role with rfl | rfl
        · exact h.own hr
        · simp at hr
      base_applied := h.base_applied.trans higher
      applied_commit := committed
      compacting := fun id m hm => (h.compacting id m hm).trans higher }
  | ack low snap fewer released =>
    refine { h with
      own := fun hr id upto hm => h.own hr id upto (released hm)
      acks := fun a ha => ?_
      gates := fun g hg => h.gates g (fewer hg) }
    rcases mem_append.mp ha with ha | ha
    · exact h.acks a ha
    · rw [mem_singleton.mp ha]
      exact ⟨low, snap⟩
  | gate low => exact { h with gates := low }
  | pend fewer => exact { h with own := fun hr id upto hm => h.own hr id upto (fewer id upto hm) }
  | @own e pre mint index untagged images =>
    have hf : c.visible.Fits e.index := ⟨by rw [index]; exact Nat.lt_succ_of_le h.base_last, index.le⟩
    have hlt : ∀ n, n ≤ c.visible.lastIndex → n < e.index := fun n hn => by
      rw [index]
      exact Nat.lt_succ_of_le hn
    have h' := h.append (r := pre) hs mint hf (show LogImage.Run e.index [e] from ⟨rfl, trivial⟩) (hlt _ h.commit_last)
      (hlt _ h.dur_last) fun p hp => hlt _ (h.inflight_last p hp)
    refine { h' with own := fun hr id upto hm => ?_ }
    rcases mem_append.mp hm with hm | hm
    · exact h'.own hr id upto hm
    simp only [mem_singleton, Prod.mk.injEq, Pending.leaderAppend.injEq] at hm
    obtain ⟨rfl, rfl⟩ := hm
    exact .inl (List.mem_append_right _ (List.mem_singleton_self _))
  | @overwrite e _ _ acks gates pendingLog mint role fits run uncommitted untagged images scrubbed
      capped =>
    have h' := h.cut role fits.1 uncommitted scrubbed capped (l := pendingLog)
    refine h'.append ⟨hs.ids, hs.contiguous⟩ mint fits run uncommitted ?_ fun p hp => ?_
    · exact lt_of_le_of_lt (min_le_right _ _) (Nat.sub_lt (Nat.zero_lt_of_lt fits.1) Nat.one_pos)
    · exact lt_of_mem_rdropWhile h.inflight_ordered hp
  | @appended id upto done durable fewer flying =>
    have hsub : ∀ p ∈ c.inflight.eraseP (·.1 == id), p ∈ c.inflight := fun p hp =>
      List.eraseP_subset hp
    have h' := h.raise (le_max_left c.dur upto) (max_le h.dur_last (h.inflight_last _ flying)) le_rfl h.dsi_commit
    refine { h' with
      inflight_last := fun p hp => h.inflight_last p (hsub p hp)
      inflight_minted := fun p hp => h.inflight_minted p (hsub p hp)
      inflight_ordered := h.inflight_ordered.sublist List.eraseP_sublist
      own := fun hr id' upto' hm => ?_ }
    rcases h.own hr id' upto' hm with hi | hi
    · by_cases hid : id' = id
      · -- ids are unique, so this is the append that completed
        subst hid
        have : (id', upto') = (id', upto) := h.inflight_eq hi flying rfl
        cases this
        exact .inr (le_max_right _ _)
      · exact .inl (List.mem_eraseP_of_neg (by simpa using hid) |>.mpr hi)
    · exact .inr (hi.trans (le_max_left _ _))
  | raiseIndex low => exact h.raise (le_max_left _ _) (max_le h.dur_last low) le_rfl h.dsi_commit
  | popInflight front covered =>
    have hsub : ∀ p ∈ _, p ∈ c.inflight := fun p hp => by
      rw [front]
      exact List.mem_cons_of_mem _ hp
    refine { h with
      inflight_last := fun p hp => h.inflight_last p (hsub p hp)
      inflight_minted := fun p hp => h.inflight_minted p (hsub p hp)
      inflight_ordered := ?_
      own := fun hr id upto hm => ?_ }
    · have := h.inflight_ordered
      rw [front] at this
      exact (List.pairwise_cons.mp this).2
    · rcases h.own hr id upto hm with hi | hi
      · rw [front] at hi
        rcases mem_cons.mp hi with hi | hi
        · cases hi
          exact .inr covered
        · exact .inl hi
      · exact .inr hi
  | raiseSlot covers known => exact h.raise le_rfl h.dur_last (le_max_left _ _) (max_le h.dsi_commit known)
  | @compacted n applied covers above =>
    have hlast : n ≤ c.visible.lastIndex := applied.trans (h.applied_commit.trans h.commit_last)
    have hcl := LogImage.compact_lastIndex above.le hlast
    have hv := c.visible_compactTo n
    have h' := h.raise le_rfl h.dur_last (le_max_left _ n) (max_le h.dsi_commit (applied.trans h.applied_commit))
    exact { h' with
      base_applied := by rw [hv]; exact applied
      commit_last := by rw [hv, hcl]; exact h.commit_last
      dur_last := by rw [hv, hcl]; exact h.dur_last
      base_watermark := by rw [hv]; exact (le_max_right _ _).trans (le_max_right _ _)
      inflight_last := by rw [hv, hcl]; exact h.inflight_last
      compacting := by simp [Cover.compactTo] }
  | @uncompacted n applied covers =>
    have h' := h.raise le_rfl h.dur_last (le_max_left _ n) (max_le h.dsi_commit (applied.trans h.applied_commit))
    exact { h' with compacting := by simp }
  | install covers ahead scrubbed capped => exact h.install ahead scrubbed capped

theorem covered (st : CoverStep mono c c') (hm : mono) (hs : c.Stored) (hsh : Shape c)
    (h : Covered c) : Covered c' := by
  cases st with
  | keep => exact h
  | write => exact h.pushSlot le_rfl
  | campaign =>
    have h' := h.pushSlot (s := c.newestSlot) (w := .wrote) le_rfl
    exact { h' with }
  | @capture m blob mint fresh free applied higher =>
    have h' := h.pushSlot (s := some (m, blob)) (w := .snapshotWritten) (higher hm)
    refine { h' with compacting := fun id m' he x hx => ?_ }
    cases he
    have hx' : x ∈ (c.pushSlot (some (m, blob)) .snapshotWritten).slotsSince c.nextOpId := hx
    rw [Cover.slotsSince_fresh fresh] at hx'
    rw [mem_singleton.mp hx']
    rfl
  | @beginInstall m blob mint fresh higher =>
    have h' := h.pushSlot (s := some (m, blob)) (w := .snapshotWritten) (higher hm)
    exact { h' with }
  | commit higher =>
    exact { h with
      kept := fun i hi => (h.kept i hi).imp_left fun hf => ⟨hf.1, hf.2.trans higher⟩
      inflight := fun p hp i hi =>
        (h.inflight p hp i hi).imp_left fun hf => ⟨hf.1, hf.2.trans higher⟩ }
  | @own e pre mint index untagged images =>
    have hf : c.visible.Fits e.index := ⟨by rw [index]; exact Nat.lt_succ_of_le hsh.base_last, index.le⟩
    have hlt : ∀ n, n ≤ c.visible.lastIndex → n < e.index := fun n hn => by
      rw [index]
      exact Nat.lt_succ_of_le hn
    have h' := h.append hs hf (show LogImage.Run e.index [e] from ⟨rfl, trivial⟩) untagged images (hlt _ hsh.dur_last)
      fun p hp => hlt _ (hsh.inflight_last p hp)
    exact { h' with }
  | @overwrite e _ _ acks gates pendingLog mint role fits run _ untagged images _ _ =>
    have h₁ : Covered { c.cut e.index with acks := acks, gates := gates, pendingLog := pendingLog } :=
      { h.cut e.index with }
    refine h₁.append ⟨hs.ids, hs.contiguous⟩ fits run untagged images ?_ fun p hp => ?_
    · exact lt_of_le_of_lt (min_le_right _ _) (Nat.sub_lt (Nat.zero_lt_of_lt fits.1) Nat.one_pos)
    · exact lt_of_mem_rdropWhile hsh.inflight_ordered hp
  | @appended id upto done durable fewer flying =>
    -- the completed append is no longer staged, so what was kept since is kept
    have hlogs : c.logsSince id = c.logs := by
      refine Fifo.since_of_notMem fun ht => ?_
      refine hs.ids.notMem_staged durable (OpId.le_iff.mpr (.inl rfl)) ?_
      obtain ⟨p, hp, hpe⟩ := mem_map.mp ht
      exact List.mem_filterMap.mpr ⟨p, hp, by rw [hpe]; rfl⟩
    refine { h with
      kept := fun i hi => ?_
      inflight := fun p hp => h.inflight p (List.eraseP_subset hp) }
    rcases le_max_iff.mp hi with hi | hi
    · exact h.kept i hi
    have := h.inflight _ flying i hi
    unfold Cover.KeptSince at this
    rw [hlogs] at this
    exact this
  | raiseIndex low durable =>
    refine { h with kept := fun i hi => ?_ }
    rcases le_max_iff.mp hi with hi | hi
    · exact h.kept i hi
    rcases durable i hi with hb | hall
    · exact .inl ⟨fun x hx => hb.trans (h.base x hx), hb.trans (hsh.base_applied.trans hsh.applied_commit)⟩
    · exact .inr hall
  | popInflight front =>
    exact { h with inflight := fun p hp => h.inflight p (by
      rw [front]
      exact List.mem_cons_of_mem _ hp) }
  | raiseSlot covers => exact { h with dsi := fun x hx => max_le (h.dsi x hx) (covers hm x hx) }
  | @compacted n applied covers above => exact h.compacted hsh applied (covers hm) above
  | uncompacted applied covers =>
    exact { h with
      dsi := fun x hx => max_le (h.dsi x hx) (covers hm x hx)
      compacting := by simp }
  | install covers =>
    have hc := covers hm
    refine ⟨h.slots, ?_, fun x hx => max_le (h.dsi x hx) (hc x hx), fun i hi => .inl ⟨?_, hi⟩,
      fun _ hp => absurd hp not_mem_nil, by simp [Cover.installAt]⟩
    · rw [Cover.visible_installAt]
      exact hc
    · exact fun x hx => hi.trans (hc x hx)
  | _ => exact { h with }

end CoverStep

end Sailing
