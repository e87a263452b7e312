import Sailing.Node.Invariant

/-!
# The moves of the stores

Between two calls a write may become durable, a completion may surface or get
lost, and messages and events are polled. None of this breaks the invariant of
the node: what was bound to survive a crash still is.
-/

namespace Sailing

open StableStore (doneIds)
open LogStore (doneIds)

variable {I : Type} [LinearOrder I] {M : StateMachine}

/-! ## Fewer completions, fewer acknowledgements -/

namespace Cover

/-- The coverage with other completions and acknowledgements waiting. -/
def waiting (c : Cover I) (done : List OpId) (acks : List (Index × Bool)) : Cover I :=
  { c with done := done, acks := acks }

variable {c : Cover I} {done : List OpId} {acks : List (Index × Bool)}

omit [LinearOrder I] in
theorem Stored.waiting (h : c.Stored) (hd : done ⊆ c.done) : (c.waiting done acks).Stored :=
  ⟨h.ids.done_subset hd, h.contiguous⟩

end Cover

variable {c : Cover I} {done : List OpId} {d : StableDone}

omit [LinearOrder I] in
theorem Shape.waiting {acks : List (Index × Bool)} (h : Shape c) (ha : acks ⊆ c.acks) : Shape (c.waiting done acks) :=
  { h with acks := fun a hm => h.acks a (ha hm) }

omit [LinearOrder I] in
theorem Covered.waiting {acks : List (Index × Bool)} (h : Covered c) : Covered (c.waiting done acks) :=
  ⟨h.slots, h.base, h.dsi, h.kept, h.inflight, h.compacting⟩

/-! ## The oldest write of the log becomes durable -/

namespace Cover

/-- The coverage when `l`, the oldest staged image, is durable. -/
def syncLog (c : Cover I) (l : LogImage I) (rest : List (LogImage I × Option LogDone))
    (done : List OpId) : Cover I :=
  { c with durable := l, staged := rest, done := done }

variable {c : Cover I} {l : LogImage I} {d : Option LogDone}
  {rest : List (LogImage I × Option LogDone)} {done : List OpId}

omit [LinearOrder I] in
theorem visible_syncLog (hs : c.staged = (l, d) :: rest) : (c.syncLog l rest done).visible = c.visible := by
  unfold visible
  rw [hs, Fifo.newest_cons]
  rfl

omit [LinearOrder I] in
theorem mem_logs_syncLog (hs : c.staged = (l, d) :: rest) {x : LogImage I}
    (hx : x ∈ (c.syncLog l rest done).logs) : x ∈ c.logs := by
  unfold logs
  rw [hs]
  exact Fifo.mem_images_sync hx

omit [LinearOrder I] in
theorem mem_logsSince_syncLog (hs : c.staged = (l, d) :: rest) {id : OpId} {x : LogImage I}
    (hx : x ∈ (c.syncLog l rest done).logsSince id) : x ∈ c.logsSince id := by
  unfold logsSince
  rw [hs]
  exact Fifo.mem_since_sync hx

omit [LinearOrder I] in
theorem Stored.syncLog (h : c.Stored) (hs : c.staged = (l, d) :: rest)
    (hd : done ⊆ c.done ++ (d.bind LogDone.id?).toList) : (c.syncLog l rest done).Stored := by
  refine ⟨?_, fun x hx => h.contiguous x (mem_logs_syncLog hs hx)⟩
  have ids := h.ids
  unfold stagedIds at ids
  rw [hs, List.filterMap_cons] at ids
  cases hid : d.bind LogDone.id? with
  | none =>
    simp only [hid] at ids
    simp only [hid, Option.toList_none, List.append_nil] at hd
    exact ids.done_subset hd
  | some =>
    simp only [hid] at ids
    simp only [hid, Option.toList_some] at hd
    exact ids.sync.done_subset hd

end Cover

omit [LinearOrder I] in
theorem Shape.syncLog {l : LogImage I} {d : Option LogDone} {rest : List (LogImage I × Option LogDone)} (h : Shape c)
    (hs : c.staged = (l, d) :: rest) : Shape (c.syncLog l rest done) := by
  have hv : (c.syncLog l rest done).visible = c.visible := Cover.visible_syncLog hs
  exact {
    base_applied := hv ▸ h.base_applied
    applied_commit := h.applied_commit
    commit_last := hv ▸ h.commit_last
    dur_last := hv ▸ h.dur_last
    dsi_commit := h.dsi_commit
    base_watermark := hv ▸ h.base_watermark
    inflight_last := hv ▸ h.inflight_last
    inflight_minted := h.inflight_minted
    inflight_ordered := h.inflight_ordered
    own := h.own
    acks := h.acks
    gates := h.gates
    compacting := h.compacting
    installing := h.installing }

omit [LinearOrder I] in
theorem Covered.syncLog {l : LogImage I} {d : Option LogDone}
    {rest : List (LogImage I × Option LogDone)} (h : Covered c)
    (hs : c.staged = (l, d) :: rest) : Covered (c.syncLog l rest done) := by
  have hv : (c.syncLog l rest done).visible = c.visible := Cover.visible_syncLog hs
  refine ⟨h.slots, hv ▸ h.base, h.dsi, fun i hi => ?_, fun p hp i hi => ?_, h.compacting⟩
  · rcases h.kept i hi with hf | hall
    · exact .inl hf
    · exact .inr fun x hx => hv ▸ hall x (Cover.mem_logs_syncLog hs hx)
  · rcases h.inflight p hp i hi with hf | hall
    · exact .inl hf
    · exact .inr fun x hx => hv ▸ hall x (Cover.mem_logsSince_syncLog hs hx)

/-! ## The oldest write of the stable store becomes durable -/

namespace Cover

def syncSlot (c : Cover I) (x : Option (SnapshotMeta I × Bytes))
    (rest : List (Option (SnapshotMeta I × Bytes) × StableDone)) : Cover I :=
  { c with slot := x, slots := rest }

variable {c : Cover I} {x y : Option (SnapshotMeta I × Bytes)} {d : StableDone}
  {rest : List (Option (SnapshotMeta I × Bytes) × StableDone)}

omit [LinearOrder I] in
theorem mem_slotImages_syncSlot (hs : c.slots = (x, d) :: rest)
    (hy : y ∈ (c.syncSlot x rest).slotImages) : y ∈ c.slotImages := by
  unfold slotImages
  rw [hs]
  exact Fifo.mem_images_sync hy

omit [LinearOrder I] in
theorem mem_slotsSince_syncSlot (hs : c.slots = (x, d) :: rest) {id : OpId}
    (hy : y ∈ (c.syncSlot x rest).slotsSince id) : y ∈ c.slotsSince id := by
  unfold slotsSince
  rw [hs]
  exact Fifo.mem_since_sync hy

omit [LinearOrder I] in
theorem SlotCovers.syncSlot {n : Index} (h : c.SlotCovers n) (hs : c.slots = (x, d) :: rest) :
    (c.syncSlot x rest).SlotCovers n := fun y hy => h y (mem_slotImages_syncSlot hs hy)

omit [LinearOrder I] in
theorem Folded.syncSlot {i : Index} (h : c.Folded i) (hs : c.slots = (x, d) :: rest) :
    (c.syncSlot x rest).Folded i := ⟨h.1.syncSlot hs, h.2⟩

end Cover

omit [LinearOrder I] in
theorem Shape.syncSlot {x : Option (SnapshotMeta I × Bytes)}
    {rest : List (Option (SnapshotMeta I × Bytes) × StableDone)} (h : Shape c)
    (hs : c.slots = (x, d) :: rest) : Shape (c.syncSlot x rest) := by
  refine { h with installing := fun id m hm => ?_ }
  obtain ⟨hid, hall⟩ := h.installing id m hm
  exact ⟨hid, fun y hy => hall y (Cover.mem_slotsSince_syncSlot hs hy)⟩

omit [LinearOrder I] in
theorem Covered.syncSlot {x : Option (SnapshotMeta I × Bytes)}
    {rest : List (Option (SnapshotMeta I × Bytes) × StableDone)} (h : Covered c)
    (hs : c.slots = (x, d) :: rest) : Covered (c.syncSlot x rest) where
  slots := by
    have := h.slots
    unfold Cover.slotImages at this
    rw [hs] at this
    exact (List.pairwise_cons.mp this).2
  base := h.base.syncSlot hs
  dsi := h.dsi.syncSlot hs
  kept i hi := (h.kept i hi).imp_left (·.syncSlot hs)
  inflight p hp i hi := (h.inflight p hp i hi).imp_left (·.syncSlot hs)
  compacting id m hm y hy := h.compacting id m hm y (Cover.mem_slotsSince_syncSlot hs hy)

namespace Ballots

variable {b : Ballots I} {x : Voting.Ballot I} {d : StableDone}
  {rest : List (Voting.Ballot I × StableDone)} {done : List OpId}

def sync (b : Ballots I) (x : Voting.Ballot I) (rest : List (Voting.Ballot I × StableDone))
    (done : List OpId) : Ballots I :=
  { b with saved := x, staged := rest, done := done }

omit [LinearOrder I] in
theorem mem_kept_sync (hs : b.staged = (x, d) :: rest) {y : Voting.Ballot I}
    (hy : y ∈ (b.sync x rest done).kept) : y ∈ b.kept := by
  unfold kept
  rw [hs]
  exact Fifo.mem_images_sync hy

omit [LinearOrder I] in
theorem mem_since_sync (hs : b.staged = (x, d) :: rest) {id : OpId} {y : Voting.Ballot I}
    (hy : y ∈ (b.sync x rest done).since id) : y ∈ b.since id := by
  unfold since
  rw [hs]
  exact Fifo.mem_since_sync hy

omit [LinearOrder I] in
theorem Stored.sync (h : b.Stored) (hs : b.staged = (x, d) :: rest) (hd : done ⊆ b.done ++ [d.id]) :
    (b.sync x rest done).Stored := by
  refine ⟨?_, ?_⟩
  · have := h.ids
    rw [hs] at this
    exact this.sync.done_subset hd
  · have := h.ordered
    unfold kept at this
    rw [hs] at this
    exact (List.pairwise_cons.mp this).2

end Ballots

theorem VoteInv.sync {b : Ballots I} {x : Voting.Ballot I} {rest : List (Voting.Ballot I × StableDone)} (h : VoteInv b)
    (hs : b.staged = (x, d) :: rest) : VoteInv (b.sync x rest done) where
  current y hy := h.current y (Ballots.mem_kept_sync hs hy)
  owed p hp := by
    have := h.owed p hp
    revert this
    cases p.2 with
    | castVote | campaign => exact fun ⟨ht, hv, hall⟩ =>
        ⟨ht, hv, fun y hy => hall y (Ballots.mem_since_sync hs hy)⟩
    | followerAck => exact id
    | leaderAppend => exact id
  candidate hr := by
    obtain ⟨h0, hv, hall⟩ := h.candidate hr
    exact ⟨h0, hv, fun hd y hy => hall hd y (Ballots.mem_kept_sync hs hy)⟩
  leader hr := by
    obtain ⟨h0, hv, hall⟩ := h.leader hr
    exact ⟨h0, hv, fun y hy => hall y (Ballots.mem_kept_sync hs hy)⟩
  durable y hy := h.durable y (Ballots.mem_kept_sync hs hy)
  submitted y hy := h.submitted y (Ballots.mem_since_sync hs hy)

/-! ## The node between its calls -/

namespace Endpoint

variable {mono : Prop} {s s' : Endpoint I M}

omit [LinearOrder I] in
theorem doneIds_surface (st : StableStore I) (i : Nat) : (st.surface i).doneIds ⊆ st.doneIds := by
  unfold StableStore.surface
  split
  · exact fun _ h => h
  next d hd =>
  intro a ha
  simp only [StableStore.doneIds, List.mem_append, List.mem_map, List.filterMap_append,
    List.filterMap_cons, List.filterMap_nil, Option.map_some] at ha ⊢
  rcases ha with ⟨x, hx, rfl⟩ | ha | ha
  · exact .inl ⟨x, List.mem_of_mem_eraseIdx hx, rfl⟩
  · exact .inr ha
  · rw [List.mem_singleton.mp ha]
    exact .inl ⟨d, List.mem_of_getElem? hd, rfl⟩

omit [LinearOrder I] in
theorem doneIds_lose (st : StableStore I) (i : Nat) :
    ({ st with done := st.done.eraseIdx i } : StableStore I).doneIds ⊆ st.doneIds := by
  intro a ha
  simp only [StableStore.doneIds, List.mem_append, List.mem_map] at ha ⊢
  rcases ha with ⟨x, hx, rfl⟩ | ha
  · exact .inl ⟨x, List.mem_of_mem_eraseIdx hx, rfl⟩
  · exact .inr ha

omit [LinearOrder I] in
theorem doneIds_surfaceLog (st : LogStore I) (i : Nat) : (st.surface i).doneIds ⊆ st.doneIds := by
  unfold LogStore.surface
  split
  · exact fun _ h => h
  next d hd =>
  intro a ha
  simp only [LogStore.doneIds, List.mem_append, List.mem_filterMap] at ha ⊢
  rcases ha with ⟨x, hx, hxa⟩ | ⟨x, hx | hx, hxa⟩
  · exact .inl ⟨x, List.mem_of_mem_eraseIdx hx, hxa⟩
  · exact .inr ⟨x, hx, hxa⟩
  · rw [List.mem_singleton.mp hx] at hxa
    exact .inl ⟨d, List.mem_of_getElem? hd, hxa⟩

omit [LinearOrder I] in
theorem doneIds_loseLog (st : LogStore I) (i : Nat) :
    ({ st with done := st.done.eraseIdx i } : LogStore I).doneIds ⊆ st.doneIds := by
  intro a ha
  simp only [LogStore.doneIds, List.mem_append, List.mem_filterMap] at ha ⊢
  rcases ha with ⟨x, hx, hxa⟩ | ha
  · exact .inl ⟨x, List.mem_of_mem_eraseIdx hx, hxa⟩
  · exact .inr ha

/-- The node when only completions and polled messages changed. -/
theorem NodeInv.waiting (h : NodeInv mono s) {log : LogStore I} {stable : StableStore I}
    {outgoing : List (Outgoing I)} {events : List (Event I M.Response)}
    (hd : log.durable = s.log.durable) (hst : log.staged = s.log.staged)
    (hdone : log.doneIds ⊆ s.log.doneIds) (sd : stable.durable = s.stable.durable)
    (sst : stable.staged = s.stable.staged) (sdone : stable.doneIds ⊆ s.stable.doneIds)
    (hout : ∀ o ∈ outgoing, o ∈ s.outgoing) :
    NodeInv mono { s with log := log, stable := stable, outgoing := outgoing, events := events } := by
  have hb : ({ s with log := log, stable := stable, outgoing := outgoing, events := events } :
      Endpoint I M).ballots = { s.ballots with done := stable.doneIds } := by
    simp only [Endpoint.ballots, Core.ballots, core, sd, sst]
  have hc : ({ s with log := log, stable := stable, outgoing := outgoing, events := events } :
      Endpoint I M).cover = s.cover.waiting log.doneIds (outgoing.filterMap fun o => ackOf o.message) := by
    simp only [cover, Core.cover, core, Cover.waiting, sd, sst, hd, hst]
  have ha : (outgoing.filterMap fun o => ackOf o.message) ⊆ s.cover.acks := by
    intro a ha
    obtain ⟨o, ho, hoa⟩ := List.mem_filterMap.mp ha
    exact List.mem_filterMap.mpr ⟨o, hout o ho, hoa⟩
  have hbs : BallotStep s.ballots { s.ballots with done := stable.doneIds } := .poll sdone
  refine ⟨?_, ?_, fun live => ?_, fun live => ?_, fun hm live => ?_⟩
  · rw [hb]
    exact ⟨h.ballots.ids.done_subset sdone, h.ballots.ordered⟩
  · rw [hc]
    exact h.log.waiting hdone
  · rw [hb]
    exact hbs.inv h.ballots (h.votes live)
  · rw [hc]
    exact (h.shape live).waiting ha
  · rw [hc]
    exact (h.covered hm live).waiting

theorem NodeInv.syncLog (h : NodeInv mono s) : NodeInv mono { s with log := s.log.sync } := by
  unfold LogStore.sync
  split
  · exact h
  next l d rest hs =>
  have hc : ({ s with log := { s.log with
      durable := l, staged := rest, done := s.log.done ++ d.toList } } : Endpoint I M).cover =
        s.cover.syncLog l rest (doneIds { s.log with
          durable := l, staged := rest, done := s.log.done ++ d.toList }) := rfl
  have hd : doneIds { s.log with
      durable := l, staged := rest, done := s.log.done ++ d.toList } ⊆ s.cover.done ++ (d.bind LogDone.id?).toList := by
    intro a ha
    show a ∈ s.log.doneIds ++ _
    simp only [LogStore.doneIds, List.filterMap_append, List.mem_append] at ha ⊢
    rcases ha with (ha | ha) | ha
    · exact Or.inl (Or.inl ha)
    · refine .inr ?_
      cases d with
      | none => simp at ha
      | some => simpa using ha
    · exact .inl (.inr ha)
  refine ⟨h.ballots, ?_, h.votes, fun live => ?_, fun hm live => ?_⟩
  · rw [hc]
    exact h.log.syncLog hs hd
  · rw [hc]
    exact (h.shape live).syncLog hs
  · rw [hc]
    exact (h.covered hm live).syncLog hs

theorem NodeInv.syncStable (h : NodeInv mono s) : NodeInv mono { s with stable := s.stable.sync } := by
  unfold StableStore.sync
  split
  · exact h
  next im d rest hs =>
  have hb : ({ s with stable := { s.stable with
      durable := im, staged := rest, done := s.stable.done ++ [d] } } : Endpoint I M).ballots =
        s.ballots.sync im.ballot (rest.map fun p => (p.1.ballot, p.2)) (doneIds { s.stable with
          durable := im, staged := rest, done := s.stable.done ++ [d] }) := rfl
  have hc : ({ s with stable := { s.stable with
      durable := im, staged := rest, done := s.stable.done ++ [d] } } : Endpoint I M).cover =
        s.cover.syncSlot im.snapshot (rest.map fun p => (p.1.snapshot, p.2)) := rfl
  have hbs : s.ballots.staged = (im.ballot, d) :: rest.map fun p => (p.1.ballot, p.2) := by
    simp only [Endpoint.ballots, Core.ballots, core, hs, List.map_cons]
  have hcs : s.cover.slots = (im.snapshot, d) :: rest.map fun p => (p.1.snapshot, p.2) := by
    simp only [cover, Core.cover, core, hs, List.map_cons]
  have hd : doneIds { s.stable with
      durable := im, staged := rest, done := s.stable.done ++ [d] } ⊆ s.ballots.done ++ [d.id] := by
    intro a ha
    show a ∈ s.stable.doneIds ++ [d.id]
    simp only [StableStore.doneIds, List.map_append, List.mem_append, List.map_cons, List.map_nil] at ha ⊢
    rcases ha with (ha | ha) | ha
    · exact Or.inl (Or.inl ha)
    · exact .inr ha
    · exact .inl (.inr ha)
  refine ⟨?_, ⟨h.log.ids, h.log.contiguous⟩, fun live => ?_, fun live => ?_, fun hm live => ?_⟩
  · rw [hb]
    exact h.ballots.sync hbs hd
  · rw [hb]
    exact (h.votes live).sync hbs
  · rw [hc]
    exact (h.shape live).syncSlot hcs
  · rw [hc]
    exact (h.covered hm live).syncSlot hcs

end Endpoint

end Sailing
