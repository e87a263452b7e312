import Sailing.Driver.Routing

/-!
# The channels of a driver

What routing one event does, what a pump is made of, and that every reply channel
is used at most once.
-/

namespace Sailing

variable {I : Type} [LinearOrder I] {M : StateMachine}

namespace Driver

variable {d d' d'' : Driver I M} {req : Request I M}

/-! ## Routing one event -/

omit [LinearOrder I] in
theorem routeEvent_applied (d : Driver I M) (i : Index) (r : M.Response) :
    (∃ t, d.pending.find? (·.1 = i) = some (i, .submit t) ∧
      (d.routeEvent (.applied i r)).2 = (((d.remove i).2.answer t (.response r)).advance i).2) ∨
    (∀ t, d.pending.find? (·.1 = i) ≠ some (i, .submit t)) ∧
      (d.routeEvent (.applied i r)).2 = ((d.remove i).2.advance i).2 := by
  cases hf : d.pending.find? (·.1 = i) with
  | none => exact .inr ⟨by simp, by simp [routeEvent, remove, hf]⟩
  | some p =>
    obtain ⟨j, p⟩ := p
    obtain rfl : j = i := by simpa using List.find?_some hf
    cases p with
    | submit t => exact .inl ⟨t, rfl, by simp [routeEvent, remove, hf]⟩
    | conf => exact .inr ⟨by simp, by simp [routeEvent, remove, hf]⟩

omit [LinearOrder I] in
theorem routeEvent_confChanged (d : Driver I M) (i : Index) (c : ConfState I) :
    (∃ t, d.pending.find? (·.1 = i) = some (i, .conf t) ∧
      (d.routeEvent (.confChanged i c)).2 = (((d.remove i).2.answer t (.index i)).advance i).2) ∨
    (∀ t, d.pending.find? (·.1 = i) ≠ some (i, .conf t)) ∧
      (d.routeEvent (.confChanged i c)).2 = ((d.remove i).2.advance i).2 := by
  cases hf : d.pending.find? (·.1 = i) with
  | none => exact .inr ⟨by simp, by simp [routeEvent, remove, hf]⟩
  | some p =>
    obtain ⟨j, p⟩ := p
    obtain rfl : j = i := by simpa using List.find?_some hf
    cases p with
    | submit => exact .inr ⟨by simp, by simp [routeEvent, remove, hf]⟩
    | conf t => exact .inl ⟨t, rfl, by simp [routeEvent, remove, hf]⟩

omit [LinearOrder I] in
theorem routeEvent_readState (d : Driver I M) (i : Index) (context : Bytes) :
    (d.routeEvent (.readState i context)).2 = d ∨ ∃ ctx, (d.routeEvent (.readState i context)).2 =
        { d with queries := d.queries.map (·.confirm ctx i) } := by
  simp only [routeEvent]
  split
  · exact .inr ⟨_, rfl⟩
  · exact .inl rfl

omit [LinearOrder I] in
theorem reply_park (t : Nat) : (req.park t).reply = t := by cases req <;> rfl

theorem reply_confirm (q : ParkedQuery) (ctx : Nat) (i : Index) : (q.confirm ctx i).reply = q.reply := by
  unfold ParkedQuery.confirm
  split <;> rfl

/-! ## Every channel is used once -/

/-- The channels that are in use or were. -/
def channels (d : Driver I M) : List Nat :=
  d.replies.map (·.1) ++ (d.pending.map (·.2.reply) ++ d.queries.map (·.reply))

structure Numbered (d : Driver I M) : Prop where
  below : ∀ t ∈ d.channels, t < d.nextReply
  once : d.channels.Nodup

/-- Nothing new on a channel that is in use. -/
structure Reuses (d d' : Driver I M) : Prop where
  next : d'.nextReply = d.nextReply
  channels : d'.channels.Subperm d.channels

omit [LinearOrder I] in
theorem Reuses.refl (d : Driver I M) : Reuses d d := ⟨rfl, .refl _⟩

omit [LinearOrder I] in
theorem Reuses.trans (h : Reuses d d') (k : Reuses d' d'') : Reuses d d'' :=
  ⟨k.next.trans h.next, k.channels.trans h.channels⟩

omit [LinearOrder I] in
theorem Numbered.reuses (h : Numbered d) (k : Reuses d d') : Numbered d' := by
  refine ⟨fun t ht => (h.below t (k.channels.subset ht)).trans_eq k.next.symm, ?_⟩
  obtain ⟨l, perm, hl⟩ := k.channels
  exact perm.nodup_iff.mp (h.once.sublist hl)

omit [LinearOrder I] in
theorem Numbered.of_new (h : Numbered d) (next : d'.nextReply = d.nextReply + 1)
    (sub : d'.channels.Subperm (d.nextReply :: d.channels)) : Numbered d' := by
  refine ⟨fun t ht => ?_, ?_⟩
  · rw [next]
    rcases List.mem_cons.mp (sub.subset ht) with rfl | ht
    · exact Nat.lt_succ_self _
    · exact (h.below t ht).trans (Nat.lt_succ_self _)
  · have fresh : (d.nextReply :: d.channels).Nodup := List.nodup_cons.mpr ⟨fun hm => (h.below _ hm).false, h.once⟩
    obtain ⟨l, perm, hl⟩ := sub
    exact perm.nodup_iff.mp (fresh.sublist hl)

omit [LinearOrder I] in
theorem reuses_node (node : Endpoint I M) : Reuses d { d with node := node } := ⟨rfl, .refl _⟩

omit [LinearOrder I] in
theorem reuses_failAll (e : DriverError I) : Reuses d (d.failAll e) :=
  ⟨rfl, List.Perm.subperm (.of_eq (by simp [channels, failAll, Function.comp_def]))⟩

omit [LinearOrder I] in
theorem reuses_advance (i : Index) : Reuses d (d.advance i).2 := by
  unfold advance
  split <;> exact ⟨rfl, .refl _⟩

omit [LinearOrder I] in
theorem subperm_filter_pending (i : Index) :
    ((d.pending.filter (·.1 ≠ i)).map (·.2.reply)).Subperm (d.pending.map (·.2.reply)) :=
  (List.filter_sublist.map _).subperm

omit [LinearOrder I] in
theorem reuses_remove (i : Index) : Reuses d (d.remove i).2 :=
  ⟨rfl, (List.Subperm.refl _).append ((subperm_filter_pending i).append (List.Subperm.refl _))⟩

omit [LinearOrder I] in
theorem reuses_answer {i : Index} {p : Parked} {r : Reply I M}
    (h : d.pending.find? (·.1 = i) = some (i, p)) : Reuses d ((d.remove i).2.answer p.reply r) := by
  refine ⟨rfl, ?_⟩
  have taken : ((i, p) :: d.pending.filter (·.1 ≠ i)).Sublist
      (d.pending.filter (·.1 = i) ++ d.pending.filter fun x => !decide (x.1 = i)) := by
    have mem : (i, p) ∈ d.pending.filter (·.1 = i) := List.mem_filter.mpr ⟨List.mem_of_find?_eq_some h, by simp⟩
    exact (List.singleton_sublist.mpr mem).append (by simp)
  have cons : (p.reply :: (d.pending.filter (·.1 ≠ i)).map (·.2.reply)).Subperm (d.pending.map (·.2.reply)) :=
    (taken.map fun x : Index × Parked => x.2.reply).subperm.trans ((List.filter_append_perm _ _).map _).subperm
  have split : ((d.remove i).2.answer p.reply r).channels = d.replies.map (·.1) ++
      ((p.reply :: (d.pending.filter (·.1 ≠ i)).map (·.2.reply)) ++ d.queries.map (·.reply)) := by
    simp [channels, remove, answer]
  rw [split]
  exact (List.Subperm.refl _).append (cons.append (List.Subperm.refl _))

omit [LinearOrder I] in
theorem reuses_routeEvent (e : Event I M.Response) : Reuses d (d.routeEvent e).2 := by
  cases e with
  | applied i r =>
    rcases routeEvent_applied d i r with ⟨t, hf, he⟩ | ⟨-, he⟩
    · exact he ▸ (reuses_answer hf).trans (reuses_advance i)
    · exact he ▸ (reuses_remove i).trans (reuses_advance i)
  | confChanged i conf =>
    rcases routeEvent_confChanged d i conf with ⟨t, hf, he⟩ | ⟨-, he⟩
    · exact he ▸ (reuses_answer hf).trans (reuses_advance i)
    · exact he ▸ (reuses_remove i).trans (reuses_advance i)
  | leaderChanged => exact reuses_failAll _
  | snapshotRestored m => exact reuses_advance m.lastIndex
  | readState i context =>
    rcases routeEvent_readState d i context with he | ⟨ctx, he⟩
    · rw [he]
      exact .refl d
    rw [he]
    refine ⟨rfl, List.Perm.subperm (.of_eq ?_)⟩
    simp [channels, Function.comp_def, reply_confirm]

omit [LinearOrder I] in
theorem reuses_serveQueries : Reuses d d.serveQueries := by
  refine ⟨rfl, List.Perm.subperm ?_⟩
  have queries : (d.queries.filter d.runnable ++ d.queries.filter fun q => !d.runnable q).Perm d.queries :=
    List.filter_append_perm _ _
  have split : d.serveQueries.channels = d.replies.map (·.1) ++ ((d.queries.filter d.runnable).map (·.reply) ++
        (d.pending.map (·.2.reply) ++ (d.queries.filter fun q => !d.runnable q).map (·.reply))) := by
    simp [channels, serveQueries, Function.comp_def]
  rw [split]
  refine List.Perm.append_left _ ?_
  rw [← List.append_assoc]
  refine (List.perm_append_comm.append_right _).trans ?_
  rw [List.append_assoc]
  exact List.Perm.append_left _ (by rw [← List.map_append]; exact queries.map _)

/-! ## What a pump is made of -/

section Pump

variable {P : Driver I M → Prop}

omit [LinearOrder I] in
theorem routeEvents_induct (fuel : Nat)
    (route : ∀ {d : Driver I M} {e : Event I M.Response} {rest : List (Event I M.Response)}, P d →
      d.node.poisoned = false → d.node.events = e :: rest →
      P ({ d with node := { d.node with events := rest } }.routeEvent e).2)
    (h : P d) : P (d.routeEvents fuel).2 := by
  induction fuel generalizing d with
  | zero => exact h
  | succ fuel ih =>
    unfold routeEvents
    split
    · exact h
    next e node he =>
    obtain ⟨live, rest, hev, rfl⟩ : d.node.poisoned = false ∧ ∃ rest, d.node.events = e :: rest ∧
        node = { d.node with events := rest } := by
      unfold Endpoint.pollEvent at he
      split at he
      · cases he
      next live =>
      split at he
      · cases he
      next x rest hev =>
      simp only [Prod.mk.injEq, Option.some.injEq] at he
      exact ⟨(Bool.not_eq_true _).mp live, rest, he.1 ▸ hev, he.2.symm⟩
    exact ih (route h live hev)

theorem pump_induct (now : Instant) (flush : P d → P { d with node := d.node.flushAppends now })
    (route : ∀ {d : Driver I M} {e : Event I M.Response} {rest : List (Event I M.Response)}, P d →
      d.node.poisoned = false → d.node.events = e :: rest →
      P ({ d with node := { d.node with events := rest } }.routeEvent e).2)
    (advance : ∀ {d : Driver I M} (i : Index), P d → P (d.advance i).2)
    (fail : ∀ {d : Driver I M} (e : DriverError I), P d → P (d.failAll e))
    (leads : ∀ {d : Driver I M} (b : Bool), P d → P { d with wasLeader := b })
    (serve : ∀ {d : Driver I M}, d.node.poisoned = false → P d → P d.serveQueries)
    (h : P d) : P (d.pump now) := by
  have flushed := routeEvents_induct ({ d with node := d.node.flushAppends now } : Driver I M).node.events.length
    route (flush h)
  have reconciled : ∀ {d : Driver I M}, P d → P d.reconcile.2 := fun h => by
    unfold reconcile
    split
    · exact h
    · exact advance _ h
  have swept : ∀ {d : Driver I M}, P d → P d.sweep := fun h => by
    unfold sweep
    simp only
    split
    · exact leads _ (fail _ h)
    · exact leads _ h
  have served : ∀ {d : Driver I M} (run : Bool), P d → P (d.serve run) := fun run h => by
    unfold Driver.serve
    split
    · next hs => exact serve (by simp_all) h
    · exact h
  have stopped : ∀ {d : Driver I M}, P d → P d.failStop := fun h => by
    unfold failStop
    split
    · exact fail _ h
    · exact h
  exact stopped (served _ (swept (reconciled flushed)))

end Pump

theorem Numbered.exec (h : Numbered d) (a : DriverAction I M) : Numbered (d.exec a) := by
  have last : ∀ l₁ l₂ : List Nat, (l₁ ++ [d.nextReply] ++ l₂).Subperm (d.nextReply :: (l₁ ++ l₂)) :=
    fun l₁ l₂ => (by simp : (l₁ ++ [d.nextReply] ++ l₂).Perm _).subperm
  cases a with
  | ask req =>
    simp only [Driver.exec]
    split
    · next i node _ =>
      refine h.of_new rfl ?_
      have parked : (((i, req.park d.nextReply) :: d.pending.filter (·.1 ≠ i)).map (·.2.reply)).Subperm
          (d.nextReply :: d.pending.map (·.2.reply)) := by
        simp only [List.map_cons, reply_park]
        exact (List.subperm_cons _).mpr (subperm_filter_pending i)
      exact ((List.Subperm.refl _).append (parked.append (.refl _))).trans List.perm_middle.subperm
    · exact h.of_new rfl (by simpa [channels, answer] using last _ _)
  | query =>
    simp only [Driver.exec]
    split
    · refine h.of_new rfl ?_
      have := last (d.replies.map (·.1) ++ (d.pending.map (·.2.reply) ++ d.queries.map (·.reply))) []
      simpa [channels] using this
    · exact h.of_new rfl (by simpa [channels, answer] using last _ _)
  | call =>
    simp only [Driver.exec]
    split
    · exact h.reuses (reuses_node _)
    · exact h
  | pump now =>
    exact pump_induct now (fun h => h.reuses (reuses_node _))
      (fun h _ _ => (h.reuses (reuses_node _)).reuses (reuses_routeEvent _))
      (fun i h => h.reuses (reuses_advance i)) (fun e h => h.reuses (reuses_failAll e))
      (fun _ h => h.reuses ⟨rfl, .refl _⟩) (fun _ h => h.reuses reuses_serveQueries) h

omit [LinearOrder I] in
theorem start_numbered (node : Endpoint I M) : Numbered (start node) :=
  ⟨by simp [start, channels], by simp [start, channels]⟩

theorem Numbered.execs (actions : List (DriverAction I M)) (h : Numbered d) : Numbered (d.execs actions) := by
  induction actions generalizing d with
  | nil => exact h
  | cons a as ih => exact ih (h.exec a)

end Driver

end Sailing
