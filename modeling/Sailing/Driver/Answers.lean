import Sailing.Driver.Asking
import Sailing.Driver.Channels
import Sailing.Model.Tape

/-!
# A client's reply is about its own entry

Waiters are kept by index alone. What makes this right is that the endpoint queues
a change of leader before anything else can be reported at an index that was
reused, and that the driver sweeps on it: the waiter of a request is open as long
as its own entry may still be applied, or its answer is decided (`Alive`); once it
is swept, or is going to be, no success can reach it (`Over`).
-/

namespace Sailing

open List (mem_append mem_map mem_of_mem_filter mem_singleton mem_cons)

variable {I : Type} [LinearOrder I] {M : StateMachine}

namespace Driver

open Endpoint

variable {d d' d'' : Driver I M} {history : History M} {req : Request I M} {own : Entry I} {t : Nat}

/-! ## The phases of a waiter -/

/-- The channel `t` is given out, for an entry at this index. -/
structure Shy (own : Entry I) (t : Nat) (d : Driver I M) : Prop where
  issued : t < d.nextReply
  pending : ∀ p ∈ d.pending, p.2.reply = t → p.1 = own.index
  queries : ∀ q ∈ d.queries, q.reply ≠ t

/-- Nothing happened to the channel. -/
structure Apart (t : Nat) (d d' : Driver I M) : Prop where
  issued : d.nextReply ≤ d'.nextReply
  pending : ∀ p ∈ d'.pending, p.2.reply = t → p ∈ d.pending
  queries : ∀ q ∈ d'.queries, q.reply = t → ∃ q' ∈ d.queries, q'.reply = t
  replies : ∀ x, (t, x) ∈ d'.replies → (t, x) ∈ d.replies

omit [LinearOrder I] in
theorem Apart.of_same (issued : d.nextReply ≤ d'.nextReply) (pending : d'.pending = d.pending)
    (queries : d'.queries = d.queries) (replies : d'.replies = d.replies) : Apart t d d' :=
  ⟨issued, fun _ hp _ => pending ▸ hp, fun q hq ht => ⟨q, queries ▸ hq, ht⟩, fun _ hx => replies ▸ hx⟩

omit [LinearOrder I] in
theorem Apart.trans (h : Apart t d d') (k : Apart t d' d'') : Apart t d d'' := by
  refine ⟨h.issued.trans k.issued, fun p hp ht => h.pending p (k.pending p hp ht) ht, fun q hq ht => ?_,
    fun x hx => h.replies x (k.replies x hx)⟩
  obtain ⟨q', hq', ht'⟩ := k.queries q hq ht
  exact h.queries q' hq' ht'

omit [LinearOrder I] in
theorem Shy.apart (h : Shy own t d) (a : Apart t d d') : Shy own t d' := by
  refine ⟨h.issued.trans_le a.issued, fun p hp ht => h.pending p (a.pending p hp ht) ht, fun q hq ht => ?_⟩
  obtain ⟨q', hq', ht'⟩ := a.queries q hq ht
  exact h.queries q' hq' ht'

def waiter (own : Entry I) (d : Driver I M) : Option (Index × Parked) :=
  d.pending.find? (·.1 = own.index)

structure Held (req : Request I M) (own : Entry I) (t : Nat) (d : Driver I M) : Prop where
  shy : Shy own t d
  parked : d.waiter own = some (own.index, req.park t)
  unanswered : ∀ x, (t, x) ∉ d.replies

structure Gone (own : Entry I) (t : Nat) (d : Driver I M) : Prop where
  shy : Shy own t d
  left : ∀ p ∈ d.pending, p.2.reply ≠ t

omit [LinearOrder I] in
theorem Held.apart (h : Held req own t d) (a : Apart t d d') (w : d'.waiter own = d.waiter own) : Held req own t d' :=
  ⟨h.shy.apart a, w.trans h.parked, fun x hx => h.unanswered x (a.replies x hx)⟩

omit [LinearOrder I] in
theorem Gone.apart (h : Gone own t d) (a : Apart t d d') : Gone own t d' :=
  ⟨h.shy.apart a, fun p hp ht => h.left p (a.pending p hp ht) ht⟩

omit [LinearOrder I] in
theorem Gone.not_held (h : Gone own t d) : ¬ Held req own t d := fun hh =>
  h.left _ (List.mem_of_find?_eq_some hh.parked) (reply_park t)

/-- The reply is an error, or the answer that the entry was applied. -/
def Answered (history : History M) (req : Request I M) (own : Entry I) (s : Endpoint I M) :
    Reply I M → Prop
  | .error _ => True
  | .response r => (∃ cmd, req = .submit cmd) ∧ Once history own s r
  | .index i => (∃ cc, req = .conf cc) ∧ i = own.index
  | .served => False

/-- The entry may still be applied, or it is. -/
def Alive (history : History M) (req : Request I M) (own : Entry I) (t : Nat) (d : Driver I M) : Prop :=
  Held req own t d ∧ (d.node.poisoned = false → Waiting own d.node ∨ Settled history own d.node) ∨
  Gone own t d ∧ (d.node.poisoned = false →
    Kept own d.node ∧ ∀ x, (t, x) ∈ d.replies → Answered history req own d.node x)

/-- No success can reach the channel. -/
def Over (req : Request I M) (own : Entry I) (t : Nat) (d : Driver I M) : Prop :=
  Held req own t d ∧ (d.node.poisoned = false → Doomed own d.node) ∨
  Gone own t d ∧ ∀ x, (t, x) ∈ d.replies → ∃ e, x = .error e

structure Next (history : History M) (req : Request I M) (own : Entry I) (t : Nat) (d d' : Driver I M) :
    Prop where
  alive : Alive history req own t d → Alive history req own t d' ∨ Over req own t d'
  ended : Over req own t d → Over req own t d'
  live : d'.node.poisoned = false → d.node.poisoned = false

omit [LinearOrder I] in
theorem Next.refl (d : Driver I M) : Next history req own t d d := ⟨Or.inl, id, id⟩

omit [LinearOrder I] in
theorem Next.trans (h : Next history req own t d d') (k : Next history req own t d' d'') :
    Next history req own t d d'' := by
  refine ⟨fun a => ?_, fun o => k.ended (h.ended o), fun l => h.live (k.live l)⟩
  rcases h.alive a with a | o
  · exact k.alive a
  · exact .inr (k.ended o)

variable {s : Endpoint I M} {x : Reply I M} {i : Index} {e : Event I M.Response}

omit [LinearOrder I] in
theorem Answered.kept {s' : Endpoint I M} (h : ∀ r, Once history own s r → Once history own s' r)
    (a : Answered history req own s x) : Answered history req own s' x := by
  cases x with
  | response r => exact ⟨a.1, h r a.2⟩
  | _ => exact a

omit [LinearOrder I] in
theorem next_of_gone (h : Gone own t d) (a : Apart t d d') (f : Retains history own d.node d'.node) :
    Next history req own t d d' := by
  refine ⟨fun ha => .inl (.inr ⟨h.apart a, fun live' => ?_⟩), fun ho => .inr ⟨h.apart a, fun x hx => ?_⟩,
    fun live => (f live).1⟩
  · obtain ⟨live, hf⟩ := f live'
    rcases ha with ⟨hh, -⟩ | ⟨-, hk⟩
    · exact absurd hh h.not_held
    · obtain ⟨hk, ha⟩ := hk live
      exact ⟨(hf hk).1, fun x hx => (ha x (a.replies x hx)).kept (hf hk).2⟩
  · rcases ho with ⟨hh, -⟩ | ⟨-, ho⟩
    · exact absurd (a.replies x hx) (hh.unanswered x)
    · exact ho x (a.replies x hx)

omit [LinearOrder I] in
theorem next_of_apart (a : Shy own t d → Apart t d d') (w : d'.waiter own = d.waiter own)
    (f : Follows history own d.node d'.node) : Next history req own t d d' := by
  refine ⟨fun ha => ?_, fun ho => ?_, fun live => (f live).1⟩
  · rcases id ha with ⟨hh, hp⟩ | ⟨hg, -⟩
    · have hh' := hh.apart (a hh.shy) w
      by_cases live' : d'.node.poisoned = false
      · obtain ⟨live, ht⟩ := f live'
        rcases ht.waiting (hp live) with h | h
        · exact .inl (.inl ⟨hh', fun _ => h⟩)
        · exact .inr (.inl ⟨hh', fun _ => h⟩)
      · exact .inl (.inl ⟨hh', fun live => absurd live live'⟩)
    · exact (next_of_gone hg (a hg.shy) f.retains).alive ha
  · rcases id ho with ⟨hh, hp⟩ | ⟨hg, -⟩
    · refine .inl ⟨hh.apart (a hh.shy) w, fun live' => ?_⟩
      obtain ⟨live, ht⟩ := f live'
      exact ht.doomed (hp live)
    · exact (next_of_gone hg (a hg.shy) f.retains).ended ho

omit [LinearOrder I] in
/-- A sweep answers the channel with an error, if it was not answered. -/
theorem next_failAll {n : Endpoint I M} (e : DriverError I) (f : Retains history own d.node n) :
    Next history req own t d ({ d with node := n }.failAll e) := by
  have mem : ∀ x, (t, x) ∈ ({ d with node := n }.failAll e).replies →
      (t, x) ∈ d.replies ∨ x = .error e := fun x hx => by
    simp only [failAll, mem_append, mem_map, Prod.mk.injEq] at hx
    rcases hx with (hx | ⟨_, _, _, hx⟩) | ⟨_, _, _, hx⟩
    · exact .inl hx
    · exact .inr hx.symm
    · exact .inr hx.symm
  have gone : Shy own t d → Gone own t ({ d with node := n }.failAll e) := fun h =>
    ⟨⟨h.issued, fun p hp => absurd hp (by simp [failAll]), fun q hq => absurd hq (by simp [failAll])⟩,
      fun p hp => absurd hp (by simp [failAll])⟩
  have held : Held req own t d → Over req own t ({ d with node := n }.failAll e) := fun h =>
    .inr ⟨gone h.shy, fun x hx => ⟨e, (mem x hx).resolve_left (h.unanswered x)⟩⟩
  refine ⟨fun ha => ?_, fun ho => ?_, fun live => (f live).1⟩
  · rcases ha with ⟨hh, -⟩ | ⟨hg, hk⟩
    · exact .inr (held hh)
    · refine .inl (.inr ⟨gone hg.shy, fun live' => ?_⟩)
      obtain ⟨live, hf⟩ := f live'
      obtain ⟨hk, ha⟩ := hk live
      refine ⟨(hf hk).1, fun x hx => ?_⟩
      rcases mem x hx with hx | rfl
      · exact (ha x hx).kept (hf hk).2
      · trivial
  · rcases ho with ⟨hh, -⟩ | ⟨hg, ho⟩
    · exact held hh
    · refine .inr ⟨gone hg.shy, fun x hx => ?_⟩
      rcases mem x hx with hx | rfl
      · exact ho x hx
      · exact ⟨e, rfl⟩

/-! ## Routing -/

omit [LinearOrder I] in
theorem waiter_remove (h : i ≠ own.index) : (d.remove i).2.waiter own = d.waiter own := by
  unfold waiter remove
  simp only
  rw [List.find?_filter]
  congr 1
  funext p
  by_cases hp : p.1 = own.index <;> simp [hp, h.symm]

omit [LinearOrder I] in
theorem waiter_advance (i : Index) : (d.advance i).2.waiter own = d.waiter own := by
  unfold advance
  split <;> rfl

omit [LinearOrder I] in
theorem node_advance (i : Index) : (d.advance i).2.node = d.node := by
  unfold advance
  split <;> rfl

omit [LinearOrder I] in
theorem apart_advance (i : Index) : Apart t d (d.advance i).2 := by
  unfold advance
  split <;> exact .of_same le_rfl rfl rfl rfl

omit [LinearOrder I] in
theorem apart_remove (i : Index) : Apart t d (d.remove i).2 :=
  ⟨le_rfl, fun _ hp _ => mem_of_mem_filter hp, fun q hq ht => ⟨q, hq, ht⟩, fun _ => id⟩

omit [LinearOrder I] in
theorem apart_answer {k : Nat} {r : Reply I M} (h : k ≠ t) : Apart t d (d.answer k r) := by
  refine ⟨le_rfl, fun _ hp _ => hp, fun q hq ht => ⟨q, hq, ht⟩, fun x hx => ?_⟩
  rcases mem_append.mp hx with hx | hx
  · exact hx
  · exact absurd (congrArg Prod.fst (mem_singleton.mp hx)) h.symm

omit [LinearOrder I] in
theorem apart_serveQueries (h : ∀ q ∈ d.queries, q.reply ≠ t) : Apart t d d.serveQueries := by
  refine ⟨le_rfl, fun _ hp _ => hp, fun q hq ht => ⟨q, mem_of_mem_filter hq, ht⟩, fun x hx => ?_⟩
  rcases mem_append.mp hx with hx | hx
  · exact hx
  · obtain ⟨q, hq, he⟩ := mem_map.mp hx
    exact absurd (congrArg Prod.fst he) (h q (mem_of_mem_filter hq))

omit [LinearOrder I] in
theorem waiter_routeEvent (he : e.decides own.index = false) : (d.routeEvent e).2.waiter own = d.waiter own := by
  cases e with
  | applied i r =>
    have hi : i ≠ own.index := by simpa [Event.decides] using he
    rcases routeEvent_applied d i r with ⟨k, -, h⟩ | ⟨-, h⟩ <;> rw [h, waiter_advance] <;> exact waiter_remove hi
  | confChanged i c =>
    have hi : i ≠ own.index := by simpa [Event.decides] using he
    rcases routeEvent_confChanged d i c with ⟨k, -, h⟩ | ⟨-, h⟩ <;> rw [h, waiter_advance] <;> exact waiter_remove hi
  | leaderChanged => exact absurd he (by simp [Event.decides])
  | snapshotRestored => exact waiter_advance _
  | readState i context =>
    rcases routeEvent_readState d i context with h | ⟨ctx, h⟩
    · rw [h]
    · rw [h]
      rfl

omit [LinearOrder I] in
theorem node_routeEvent (e : Event I M.Response) : (d.routeEvent e).2.node = d.node := by
  cases e with
  | applied i r => rcases routeEvent_applied d i r with ⟨k, -, h⟩ | ⟨-, h⟩ <;> rw [h, node_advance] <;> rfl
  | confChanged i c =>
    rcases routeEvent_confChanged d i c with ⟨k, -, h⟩ | ⟨-, h⟩ <;> rw [h, node_advance] <;> rfl
  | leaderChanged => rfl
  | snapshotRestored => exact node_advance _
  | readState i context => rcases routeEvent_readState d i context with h | ⟨ctx, h⟩ <;> rw [h]

omit [LinearOrder I] in
theorem apart_routeEvent (he : ∀ i l, e ≠ .leaderChanged i l)
    (h : ∀ i, e.about = some i → ∀ p, (i, p) ∈ d.pending → p.reply ≠ t) :
    Apart t d (d.routeEvent e).2 := by
  cases e with
  | applied i r =>
    rcases routeEvent_applied d i r with ⟨k, hf, he⟩ | ⟨-, he⟩ <;> rw [he]
    · exact ((apart_remove i).trans (apart_answer (h i rfl _ (List.mem_of_find?_eq_some hf)))).trans (apart_advance i)
    · exact (apart_remove i).trans (apart_advance i)
  | confChanged i c =>
    rcases routeEvent_confChanged d i c with ⟨k, hf, he⟩ | ⟨-, he⟩ <;> rw [he]
    · exact ((apart_remove i).trans (apart_answer (h i rfl _ (List.mem_of_find?_eq_some hf)))).trans (apart_advance i)
    · exact (apart_remove i).trans (apart_advance i)
  | leaderChanged i l => exact absurd rfl (he i l)
  | snapshotRestored => exact apart_advance _
  | readState i context =>
    rcases routeEvent_readState d i context with he | ⟨ctx, he⟩ <;> rw [he]
    · exact .of_same le_rfl rfl rfl rfl
    refine ⟨le_rfl, fun _ hp _ => hp, fun q hq ht => ?_, fun _ => id⟩
    obtain ⟨q', hq', rfl⟩ := mem_map.mp hq
    exact ⟨q', hq', (reply_confirm q' ctx i).symm.trans ht⟩

omit [LinearOrder I] in
theorem alive_answer {r : Reply I M} {n : Endpoint I M} (h : Held req own t d)
    (hi : i = own.index) (kept : Kept own n) (answered : Answered history req own n r) :
    Alive history req own t (((({ d with node := n } : Driver I M).remove i).2.answer t r).advance i).2 := by
  subst hi
  refine .inr ⟨Gone.apart (d := ((({ d with node := n } : Driver I M).remove own.index).2.answer t r))
    ⟨⟨h.shy.issued, fun p hp => h.shy.pending p (mem_of_mem_filter hp), h.shy.queries⟩, fun p hp ht => ?_⟩
    (apart_advance _), fun _ => ?_⟩
  · have := h.shy.pending p (mem_of_mem_filter hp) ht
    have hne := List.of_mem_filter hp
    simp [this] at hne
  · rw [node_advance]
    refine ⟨kept, fun x hx => ?_⟩
    rcases mem_append.mp ((apart_advance _).replies x hx) with hx | hx
    · exact absurd hx (h.unanswered x)
    · rw [(Prod.mk.inj (mem_singleton.mp hx)).2]
      exact answered

omit [LinearOrder I] in
theorem Held.found {p : Parked} (h : Held req own t d)
    (hp : d.pending.find? (·.1 = own.index) = some (own.index, p)) : p = req.park t :=
  (Prod.mk.inj (Option.some.inj (hp.symm.trans h.parked))).2

theorem next_routeEvent {rest : List (Event I M.Response)}
    (kind : own.kind = req.kind) (live : d.node.poisoned = false) (he : d.node.events = e :: rest) :
    Next history req own t d ({ d with node := { d.node with events := rest } }.routeEvent e).2 := by
  set d₁ : Driver I M := { d with node := { d.node with events := rest } } with hd₁
  have pop : Apart t d d₁ := .of_same le_rfl rfl rfl rfl
  -- a waiter that is gone is not found again
  have gone : (∀ i l, e ≠ .leaderChanged i l) → Gone own t d →
      Next history req own t d (d₁.routeEvent e).2 := fun hl hg => by
    refine next_of_gone hg (pop.trans (apart_routeEvent hl fun i _ p hp => hg.left (i, p) hp)) ?_
    rw [node_routeEvent]
    exact retains_pop rest
  cases hd : e.decides own.index with
  | false =>
    have hl : ∀ i l, e ≠ .leaderChanged i l := fun i l h => absurd hd (by simp [h, Event.decides])
    have about : ∀ i, e.about = some i → i ≠ own.index := fun i hi h => by
      cases e <;> simp_all [Event.about, Event.decides]
    have popped : Next history req own t d d₁ := next_of_apart (fun _ => pop) rfl (follows_pop he hd)
    refine popped.trans (next_of_apart (fun shy => apart_routeEvent hl fun i hi p hp ht =>
      about i hi (shy.pending (i, p) hp ht)) (waiter_routeEvent hd) ?_)
    rw [node_routeEvent]
    exact .refl _
  | true =>
    have head := find?_head he hd
    have doomed : (∀ i l, e ≠ .leaderChanged i l) → ¬ Doomed own d.node := by
      rintro hl ⟨i, l, h⟩
      exact hl i l (Option.some.inj (head.symm.trans h))
    have settled : Waiting own d.node ∨ Settled history own d.node →
        Kept own d₁.node ∧ Outcome history own d.node e := fun h => by
      rcases h with w | ⟨hk, ev, hev, ho⟩
      · exact absurd (head.symm.trans w.undecided) (by simp)
      · exact ⟨⟨hk.reached, hk.held, hk.passed⟩, Option.some.inj (hev.symm.trans head) ▸ ho⟩
    -- all but the waiter that is answered now
    have decided : (∀ i l, e ≠ .leaderChanged i l) → (Held req own t d → Kept own d₁.node →
        Outcome history own d.node e → Alive history req own t (d₁.routeEvent e).2) →
        Next history req own t d (d₁.routeEvent e).2 := fun hl answer => by
      refine ⟨fun ha => ?_, fun ho => ?_, fun _ => live⟩
      · rcases id ha with ⟨hh, hp⟩ | ⟨hg, -⟩
        · obtain ⟨hk, ho⟩ := settled (hp live)
          exact .inl (answer hh hk ho)
        · exact (gone hl hg).alive ha
      · rcases id ho with ⟨hh, hp⟩ | ⟨hg, -⟩
        · exact absurd (hp live) (doomed hl)
        · exact (gone hl hg).ended ho
    cases e with
    | leaderChanged => exact next_failAll _ (retains_pop rest)
    | applied i r =>
      refine decided (by simp) fun hh hk ho => ?_
      obtain ⟨rfl, once⟩ := ho
      obtain ⟨cmd, rfl⟩ : ∃ cmd, req = .submit cmd := by
        obtain ⟨data, -, hn, -⟩ := id once
        cases req with
        | submit cmd => exact ⟨cmd, rfl⟩
        | conf => exact absurd (kind.symm.trans hn) (by simp [Request.kind])
      rcases routeEvent_applied d₁ own.index r with ⟨k, hf, hr⟩ | ⟨hn, -⟩
      · obtain rfl : k = t := Parked.submit.inj (hh.found hf)
        rw [hr]
        exact alive_answer hh rfl hk ⟨⟨cmd, rfl⟩, once⟩
      · exact absurd hh.parked (hn t)
    | confChanged i c =>
      refine decided (by simp) fun hh hk ho => ?_
      obtain ⟨rfl, changes⟩ := ho
      obtain ⟨cc, rfl⟩ : ∃ cc, req = .conf cc := by
        cases req with
        | submit => exact absurd (kind ▸ changes) (by simp [Request.kind, EntryKind.isConfChange])
        | conf cc => exact ⟨cc, rfl⟩
      rcases routeEvent_confChanged d₁ own.index c with ⟨k, hf, hr⟩ | ⟨hn, -⟩
      · obtain rfl : k = t := Parked.conf.inj (hh.found hf)
        rw [hr]
        exact alive_answer hh rfl hk ⟨⟨cc, rfl⟩, rfl⟩
      · exact absurd hh.parked (hn t)
    | _ => exact absurd hd (by simp [Event.decides])

/-! ## Commands -/

theorem exec_ask_ok (h : (d.node.ask req).1 = .ok i) : d.exec (.ask req) = { d with
    node := (d.node.ask req).2
    pending := (i, req.park d.nextReply) :: d.pending.filter (·.1 ≠ i)
    nextReply := d.nextReply + 1 } := by
  simp only [exec]
  rw [show d.node.ask req = (.ok i, (d.node.ask req).2) from Prod.ext h rfl]

theorem exec_ask_error {e : ProposeError I} (h : (d.node.ask req).1 = .error e) : d.exec (.ask req) =
    ({ d with node := (d.node.ask req).2, nextReply := d.nextReply + 1 } : Driver I M).answer d.nextReply
      (.error (.propose e)) := by
  simp only [exec]
  rw [show d.node.ask req = (.error e, (d.node.ask req).2) from Prod.ext h rfl]

/-- An index is taken again only once its entry is not in the log. -/
theorem index_ne_of_held (inv : NodeInv False s)
    (h : (s.ask req).1 = .ok i) (w : Waiting own s ∨ Settled history own s) : i ≠ own.index := by
  obtain ⟨live, -, rfl, -⟩ := ask_ok h
  have shape := inv.shape live
  have last : own.index ≤ s.log.visible.lastIndex := by
    rcases w with w | ⟨hk, -⟩
    · exact (LogImage.isSome_get.mp (by rw [w.held]; rfl)).2
    · exact hk.reached.trans (shape.applied_commit.trans shape.commit_last)
  exact (Nat.lt_succ_of_le last).ne'

theorem next_ask (h : d.node.Driven history) (small : own.index < u64Max) (other : Request I M) :
    Next history req own t d (d.exec (.ask other)) := by
  have f : Follows history own d.node (d.node.ask other).2 := by
    rw [ask_eq]
    exact h.follows (.ask other) small
  cases ho : (d.node.ask other).1 with
  | error =>
    rw [exec_ask_error ho]
    refine next_of_apart (fun shy => Apart.trans ?_ (apart_answer shy.issued.ne')) rfl f
    exact .of_same (Nat.le_succ _) rfl rfl rfl
  | ok i =>
    rw [exec_ask_ok ho]
    have park : Shy own t d → Apart t d { d with
        node := (d.node.ask other).2
        pending := (i, other.park d.nextReply) :: d.pending.filter (·.1 ≠ i)
        nextReply := d.nextReply + 1 } := fun shy => by
      refine ⟨Nat.le_succ _, fun p hp ht => ?_, fun q hq ht => ⟨q, hq, ht⟩, fun _ => id⟩
      rcases mem_cons.mp hp with rfl | hp
      · exact absurd (ht.symm.trans (reply_park _)) shy.issued.ne
      · exact mem_of_mem_filter hp
    by_cases hi : i = own.index
    · obtain ⟨live, -⟩ := ask_ok ho
      refine ⟨fun ha => ?_, fun hv => ?_, fun _ => live⟩
      · rcases id ha with ⟨hh, hp⟩ | ⟨hg, -⟩
        · exact absurd hi (index_ne_of_held h.inv ho (hp live))
        · exact (next_of_gone hg (park hg.shy) f.retains).alive ha
      · rcases id hv with ⟨hh, -⟩ | ⟨hg, -⟩
        · -- the index is reused before the sweep: the waiter is dropped
          refine .inr ⟨⟨hh.shy.apart (park hh.shy), fun p hp ht => ?_⟩, fun x hx => absurd hx (hh.unanswered x)⟩
          rcases mem_cons.mp hp with rfl | hp
          · exact absurd (ht.symm.trans (reply_park _)) hh.shy.issued.ne
          · have hne := List.of_mem_filter hp
            simp [hi, hh.shy.pending p (mem_of_mem_filter hp) ht] at hne
        · exact (next_of_gone hg (park hg.shy) f.retains).ended hv
    · refine next_of_apart park ?_ f
      unfold waiter
      simp only
      rw [List.find?_cons_of_neg (by simpa using hi)]
      exact waiter_remove (d := d) hi

theorem next_query (h : d.node.Driven history) (small : own.index < u64Max) (now : Instant) :
    Next history req own t d (d.exec (.query now)) := by
  have f : Follows history own d.node (d.node.readIndex now (toBeBytes d.nextQueryCtx)).2 :=
    h.follows (c := .readIndex now (toBeBytes d.nextQueryCtx)) ⟨by simp, by simp, by simp⟩ small
  simp only [exec]
  split
  · next node hr =>
    rw [hr] at f
    refine next_of_apart (fun shy => ⟨Nat.le_succ _, fun _ hp _ => hp, fun q hq ht => ?_, fun _ => id⟩) rfl f
    rcases mem_append.mp hq with hq | hq
    · exact ⟨q, hq, ht⟩
    · rw [mem_singleton.mp hq] at ht
      exact absurd ht shy.issued.ne'
  · next e node hr =>
    rw [hr] at f
    refine next_of_apart (fun shy => Apart.trans ?_ (apart_answer shy.issued.ne')) rfl f
    exact .of_same (Nat.le_succ _) rfl rfl rfl

/-! ## Runs -/

theorem next_pump (h : d.node.Driven history) (kind : own.kind = req.kind) (small : own.index < u64Max)
    (now : Instant) : (d.pump now).node.Driven history ∧ Next history req own t d (d.pump now) := by
  have flush : Routine (M := M) d.node.config.id (.flush now) := ⟨by simp, by simp, by simp⟩
  refine pump_induct (P := fun x => x.node.Driven history ∧ Next history req own t d x) now ?_ ?_ ?_ ?_ ?_ ?_
    ⟨h, .refl d⟩
  · exact fun _ => ⟨h.exec flush, next_of_apart (fun _ => .of_same le_rfl rfl rfl rfl) rfl (h.follows flush small)⟩
  · rintro d₁ e rest ⟨h₁, n⟩ live he
    exact ⟨by rw [node_routeEvent]; exact h₁.pop live he, n.trans (next_routeEvent kind live he)⟩
  · rintro d₁ i ⟨h₁, n⟩
    refine ⟨by rwa [node_advance], n.trans (next_of_apart (fun _ => apart_advance i) (waiter_advance i) ?_)⟩
    rw [node_advance]
    exact .refl _
  · rintro d₁ e ⟨h₁, n⟩
    exact ⟨h₁, n.trans (next_failAll e (Follows.refl d₁.node).retains)⟩
  · rintro d₁ b ⟨h₁, n⟩
    exact ⟨h₁, n.trans (next_of_apart (fun _ => .of_same le_rfl rfl rfl rfl) rfl (.refl _))⟩
  · rintro d₁ - ⟨h₁, n⟩
    exact ⟨h₁, n.trans (next_of_apart (fun shy => apart_serveQueries shy.queries) rfl (.refl _))⟩

theorem next_exec (h : d.node.Driven history) (kind : own.kind = req.kind) (small : own.index < u64Max)
    (a : DriverAction I M) : (d.exec a).node.Driven history ∧ Next history req own t d (d.exec a) := by
  cases a with
  | ask other =>
    refine ⟨?_, next_ask h small other⟩
    have driven := h.exec (c := other.call) (.ask other)
    rw [← ask_eq] at driven
    cases ho : (d.node.ask other).1 with
    | error =>
      rw [exec_ask_error ho]
      exact driven
    | ok =>
      rw [exec_ask_ok ho]
      exact driven
  | query now =>
    refine ⟨?_, next_query h small now⟩
    have driven : (d.node.readIndex now (toBeBytes d.nextQueryCtx)).2.Driven history :=
      h.exec (c := .readIndex now (toBeBytes d.nextQueryCtx)) ⟨by simp, by simp, by simp⟩
    simp only [exec]
    split
    · next hr =>
      rw [hr] at driven
      exact driven
    next hr =>
    rw [hr] at driven
    exact driven
  | call =>
    simp only [exec]
    split
    · next hb =>
      exact ⟨h.exec (.of_between hb), next_of_apart (fun _ => .of_same le_rfl rfl rfl rfl) rfl
        (h.follows (.of_between hb) small)⟩
    · exact ⟨h, .refl d⟩
  | pump now => exact next_pump h kind small now

theorem next_execs (actions : List (DriverAction I M)) (h : d.node.Driven history)
    (kind : own.kind = req.kind) (small : own.index < u64Max) :
    (d.execs actions).node.Driven history ∧ Next history req own t d (d.execs actions) := by
  induction actions generalizing d with
  | nil => exact ⟨h, .refl d⟩
  | cons a as ih =>
    obtain ⟨h₁, n₁⟩ := next_exec (t := t) h kind small a
    obtain ⟨h₂, n₂⟩ := ih h₁
    exact ⟨h₂, n₁.trans n₂⟩

theorem Driven.execs (actions : List (DriverAction I M)) (h : d.node.Driven history) :
    (d.execs actions).node.Driven history := by
  -- whichever entry is followed
  have followed : _ ∧ Next history (.conf ⟨.auto, []⟩) ⟨0, 0, .confChange (some ⟨.auto, []⟩)⟩ 0 d
      (d.execs actions) := next_execs actions h rfl (by simp [u64Max])
  exact followed.1

theorem asked_phase (h : d.node.Driven history) (numbered : Numbered d) (ok : (d.node.ask req).1 = .ok i) :
    Alive history req ⟨d.node.term, i, req.kind⟩ d.nextReply (d.exec (.ask req)) ∨
      Over req ⟨d.node.term, i, req.kind⟩ d.nextReply (d.exec (.ask req)) := by
  have fresh : ∀ k ∈ d.channels, k ≠ d.nextReply := fun k hk => (numbered.below k hk).ne
  rw [exec_ask_ok ok]
  have held : Held req ⟨d.node.term, i, req.kind⟩ d.nextReply ({ d with
      node := (d.node.ask req).2
      pending := (i, req.park d.nextReply) :: d.pending.filter (·.1 ≠ i)
      nextReply := d.nextReply + 1 } : Driver I M) := by
    refine ⟨⟨Nat.lt_succ_self _, fun p hp ht => ?_, fun q hq ht => ?_⟩, by simp [waiter], fun x hx => ?_⟩
    · rcases mem_cons.mp hp with rfl | hp
      · rfl
      · refine absurd ht (fresh _ ?_)
        simp only [channels, mem_append, mem_map]
        exact .inr (.inl ⟨p, mem_of_mem_filter hp, rfl⟩)
    · refine fresh _ ?_ ht
      simp only [channels, mem_append, mem_map]
      exact .inr (.inr ⟨q, hq, rfl⟩)
    · refine fresh d.nextReply ?_ rfl
      simp only [channels, mem_append, mem_map]
      exact .inl ⟨_, hx, rfl⟩
  obtain ⟨live, -⟩ := ask_ok ok
  by_cases live' : (d.node.ask req).2.poisoned = false
  · rcases ask_phase h.inv (h.sound live) ok live' with w | w
    · exact .inl (.inl ⟨held, fun _ => .inl w⟩)
    · exact .inr (.inl ⟨held, fun _ => w⟩)
  · exact .inl (.inl ⟨held, fun hl => absurd hl live'⟩)

theorem live_of_success {a : DriverAction I M} (hx : (t, x) ∈ (d.exec a).replies) :
    (t, x) ∈ d.replies ∨ (∃ e, x = .error e) ∨ (d.exec a).node.poisoned = false := by
  have answered : ∀ {l : List (Nat × Reply I M)} {k : Nat} {e : DriverError I},
      (t, x) ∈ l ++ [(k, .error e)] → (t, x) ∈ l ∨ ∃ e, x = .error e := fun {l k e} h => by
    rcases mem_append.mp h with h | h
    · exact .inl h
    · exact .inr ⟨e, (Prod.mk.inj (mem_singleton.mp h)).2⟩
  cases a with
  | ask req =>
    cases ho : (d.node.ask req).1 with
    | error =>
      rw [exec_ask_error ho] at hx
      exact (answered hx).imp_right Or.inl
    | ok =>
      rw [exec_ask_ok ho] at hx
      exact .inl hx
  | query =>
    simp only [exec] at hx
    split at hx
    · exact .inl hx
    · exact (answered hx).imp_right Or.inl
  | call =>
    simp only [exec] at hx
    split at hx <;> exact .inl hx
  | pump now =>
    refine pump_induct (P := fun z => (t, x) ∈ z.replies →
      (t, x) ∈ d.replies ∨ (∃ e, x = .error e) ∨ z.node.poisoned = false) now ?_ ?_ ?_ ?_ ?_ ?_ .inl hx
    · exact fun _ => Or.inl
    · intro d₁ e rest _ live he _
      rw [node_routeEvent]
      exact .inr (.inr live)
    · intro d₁ i h hx
      rw [node_advance]
      exact h ((apart_advance i).replies x hx)
    · intro d₁ e h hx
      simp only [failAll, mem_append, mem_map, Prod.mk.injEq] at hx
      rcases hx with (hx | ⟨_, _, _, rfl⟩) | ⟨_, _, _, rfl⟩
      · exact h hx
      · exact .inr (.inl ⟨e, rfl⟩)
      · exact .inr (.inl ⟨e, rfl⟩)
    · exact fun _ h => h
    · exact fun live _ _ => .inr (.inr live)

/-! ## Whose entry a success is about -/

/-- The entry is in the log, or this very entry was applied, and compacted since. -/
def Holds (own : Entry I) (s : Endpoint I M) : Prop :=
  s.log.visible.get own.index = some own ∨ own ∈ s.passed ∧ own.index ≤ s.log.visible.base

/-- The reply a request is to have once it is applied at `i`. -/
def Reports (history : History M) (i : Index) (s : Endpoint I M) : Request I M → Reply I M → Prop
  | .submit cmd, .response r => (history.of s.fsm).filter (fun x => x.1 = i) = [(i, cmd, r)]
  | .conf _, .index j => j = i
  | _, _ => False

omit [LinearOrder I] in
theorem Alive.holds (h : Alive history req own t d) (live : d.node.poisoned = false) : Holds own d.node := by
  have kept : Kept own d.node → Holds own d.node := fun h => h.held.imp_right fun hb => ⟨h.passed, hb⟩
  rcases h with ⟨-, hp⟩ | ⟨-, hp⟩
  · rcases hp live with w | ⟨hk, -⟩
    · exact .inl w.held
    · exact kept hk
  · exact kept (hp live).1

omit [LinearOrder I] in
theorem Answered.reports (lawful : ∀ c, M.decodeCommand (M.encodeCommand c) = some c)
    (kind : own.kind = req.kind) (success : ∀ e, x ≠ .error e)
    (h : Answered history req own s x) : Reports history own.index s req x := by
  cases x with
  | response =>
    obtain ⟨⟨cmd, rfl⟩, data, cmd', hn, hdec, hh⟩ := h
    have hdata : M.encodeCommand cmd = data := EntryKind.normal.inj (kind.symm.trans hn)
    obtain rfl : cmd = cmd' := Option.some.inj ((lawful cmd).symm.trans (hdata ▸ hdec))
    exact hh
  | index =>
    obtain ⟨⟨cc, rfl⟩, rfl⟩ := h
    rfl
  | served => exact h.elim
  | error e => exact absurd rfl (success e)

omit [LinearOrder I] in
theorem Over.error (h : Over req own t d) (hx : (t, x) ∈ d.replies) : ∃ e, x = .error e := by
  rcases h with ⟨hh, -⟩ | ⟨-, ho⟩
  · exact absurd hx (hh.unanswered x)
  · exact ho x hx

omit [LinearOrder I] in
theorem Alive.answered (h : Alive history req own t d) (hx : (t, x) ∈ d.replies)
    (live : d.node.poisoned = false) : Kept own d.node ∧ Answered history req own d.node x := by
  rcases h with ⟨hh, -⟩ | ⟨-, hp⟩
  · exact absurd hx (hh.unanswered x)
  · exact ⟨(hp live).1, (hp live).2 x hx⟩

theorem execs_take_succ {actions : List (DriverAction I M)} {a : DriverAction I M} {k : Nat}
    (h : actions[k]? = some a) : d.execs (actions.take (k + 1)) = (d.execs (actions.take k)).exec a := by
  unfold execs
  rw [List.take_add_one, h, List.foldl_append]
  rfl

/-- A success was first there at some moment, in a live node. -/
theorem exists_success {actions : List (DriverAction I M)} (success : ∀ e, x ≠ .error e)
    (before : (t, x) ∉ d.replies) (hx : (t, x) ∈ (d.execs actions).replies) :
    ∃ k ≤ actions.length, (d.execs (actions.take k)).node.poisoned = false ∧
      (t, x) ∈ (d.execs (actions.take k)).replies := by
  have all : ∀ n ≤ actions.length, (t, x) ∈ (d.execs (actions.take n)).replies →
      ∃ k ≤ actions.length, (d.execs (actions.take k)).node.poisoned = false ∧
        (t, x) ∈ (d.execs (actions.take k)).replies := by
    intro n hn
    induction n with
    | zero => exact fun h => absurd h before
    | succ n ih =>
      intro h
      obtain ⟨a, ha⟩ : ∃ a, actions[n]? = some a := ⟨_, List.getElem?_eq_getElem hn⟩
      have h' := h
      rw [execs_take_succ ha] at h'
      rcases live_of_success h' with h' | ⟨e, he⟩ | live
      · exact ih (Nat.le_of_succ_le hn) h'
      · exact absurd he (success e)
      · rw [← execs_take_succ ha] at live
        exact ⟨n + 1, hn, live, h⟩
  exact all actions.length le_rfl (by rwa [List.take_length])

/-- Every channel is answered at most once. A success on the channel of a request
that was taken at the index `i` is given by a live node that applied the own entry of
the request at `i`: it was there from the moment it was taken, and a command was
applied once and answered by its own response. -/
theorem success_about_own_entry (history : History M)
    (lawful : ∀ c, M.decodeCommand (M.encodeCommand c) = some c) {config : Config I} {node : Endpoint I M}
    (boots : Boots config node) (before after : List (DriverAction I M)) (req : Request I M) {i : Index}
    (taken : (((start node).execs before).node.ask req).1 = .ok i) :
    let asked := (start node).execs before
    let run := fun k => (asked.exec (.ask req)).execs (after.take k)
    ((run after.length).replies.map (·.1)).Nodup ∧
    ∀ x, (asked.nextReply, x) ∈ (run after.length).replies → (∃ e, x = .error e) ∨
      ∃ k ≤ after.length, (run k).node.poisoned = false ∧ (asked.nextReply, x) ∈ (run k).replies ∧
        Reports history i (run k).node req x ∧ ⟨asked.node.term, i, req.kind⟩ ∈ (run k).node.passed ∧
        i ≤ (run k).node.applied ∧ (run k).node.applied ≤ (run k).node.commit ∧
        ∀ j ≤ k, Holds ⟨asked.node.term, i, req.kind⟩ (run j).node := by
  intro asked run
  set own : Entry I := ⟨asked.node.term, i, req.kind⟩ with hown
  have driven : asked.node.Driven history := Driven.execs before (boots.driven history)
  have numbered : Numbered asked := Numbered.execs before (start_numbered node)
  obtain ⟨-, -, -, small, -⟩ := ask_ok taken
  have driven₁ : (asked.exec (.ask req)).node.Driven history := Driven.execs [.ask req] driven
  have next : ∀ (d : Driver I M), d.node.Driven history → ∀ actions,
      Next history req own asked.nextReply d (d.execs actions) := fun d hd actions =>
    (next_execs actions hd rfl small).2
  refine ⟨((numbered.exec (.ask req)).execs _).once.of_append_left, fun x hx => ?_⟩
  by_cases failed : ∃ e, x = .error e
  · exact Or.inl failed
  have success : ∀ e, x ≠ .error e := fun e he => failed ⟨e, he⟩
  have unanswered : (asked.nextReply, x) ∉ (asked.exec (.ask req)).replies := fun h => by
    rw [exec_ask_ok taken] at h
    exact (numbered.below _ (List.mem_append_left _ (List.mem_map.mpr ⟨_, h, rfl⟩))).false
  obtain ⟨k, hk, live, hxk⟩ := exists_success success unanswered (by simpa [run] using hx)
  -- were it over by then, there would be no success
  have alive : ∀ j ≤ k, Alive history req own asked.nextReply (run j) ∧ (run j).node.poisoned = false := by
    intro j hj
    have split : run k = (run j).execs ((after.drop j).take (k - j)) := by
      simp only [run, execs]
      rw [← List.foldl_append, ← List.take_add, Nat.add_sub_cancel' hj]
    have n := next (run j) (Driven.execs _ driven₁) ((after.drop j).take (k - j))
    rw [← split] at n
    refine ⟨?_, n.live live⟩
    have ended : ¬ Over req own asked.nextReply (run j) := fun ho => failed ((n.ended ho).error hxk)
    have from_ := next (asked.exec (.ask req)) driven₁ (after.take j)
    rcases asked_phase driven numbered taken with ha | ho
    · exact (from_.alive ha).resolve_right ended
    · exact absurd (from_.ended ho) ended
  obtain ⟨kept, answered⟩ := (alive k le_rfl).1.answered hxk live
  have driven₂ : (run k).node.Driven history := Driven.execs _ driven₁
  exact Or.inr ⟨k, hk, live, hxk, answered.reports lawful rfl success, kept.passed, kept.reached,
    (driven₂.inv.shape live).applied_commit, fun j hj => (alive j hj).1.holds (alive j hj).2⟩

namespace Solo

def node : Endpoint Nat tape.recorded := Endpoint.new (Tape.config {1} 1) 0 (fun _ => 0) tape.recorded.init

/-- The log's write becomes durable, and the node is told. -/
def persistLog (now : Instant) : List (DriverAction Nat tape.recorded) :=
  [.call .syncLog, .call (.surfaceLog 0), .call (.storage now)]

/-- The only voter is elected and commits its first entry. -/
def elected : List (DriverAction Nat tape.recorded) :=
  [.call (.timeout 10), .call .syncStable, .call (.surfaceStable 0), .call (.storage 10)] ++
    persistLog 10 ++ [.pump 10]

def served : List (DriverAction Nat tape.recorded) := persistLog 11 ++ [.pump 12]

def asked : Driver Nat tape.recorded := (start node).execs elected

def run (k : Nat) : Driver Nat tape.recorded :=
  (asked.exec (.ask (.submit [7]))).execs (served.take k)

def responses (d : Driver Nat tape.recorded) : List (Nat × Option Unit) :=
  d.replies.map fun p => (p.1, p.2.response?)

end Solo

/-- The command of a group of one is answered once it is applied. -/
theorem solo_success : (Solo.asked.node.ask (.submit [7])).1 = .ok 2 ∧
    Solo.responses (Solo.run 4) = [(0, some ())] ∧
    ∃ k ≤ 4, (0, .response ()) ∈ (Solo.run k).replies ∧
      Reports (History.recorded tape) 2 (Solo.run k).node (.submit [7]) (.response ()) ∧
      ∀ j ≤ k, Holds ⟨1, 2, .normal [7]⟩ (Solo.run j).node := by
  have taken : (Solo.asked.node.ask (.submit [7])).1 = .ok 2 := by decide +kernel
  have answered : Solo.responses (Solo.run 4) = [(0, some ())] := by decide +kernel
  have mem : (0, .response ()) ∈ (Solo.run 4).replies := by
    obtain ⟨p, hp, he⟩ := List.map_eq_singleton_iff.mp answered
    obtain ⟨h₁, h₂⟩ := Prod.mk.inj he
    rw [hp]
    refine List.mem_singleton.mpr (Prod.ext h₁.symm ?_)
    exact (Reply.response?_eq h₂).symm
  have term : Solo.asked.node.term = 1 := by decide +kernel
  have fresh : Solo.asked.nextReply = 0 := by decide +kernel
  have boots : Boots (Tape.config {1} 1) Solo.node := .new 0 fun _ => 0
  obtain ⟨-, own⟩ := success_about_own_entry (History.recorded tape) (fun _ => rfl) boots Solo.elected
    Solo.served (.submit [7]) taken
  rcases own (.response ()) (fresh.symm ▸ mem) with ⟨e, he⟩ | ⟨k, hk, -, hx, hr, -, -, -, hh⟩
  · cases he
  refine ⟨taken, answered, k, hk, ?_, hr, fun j hj => ?_⟩
  · have hx : (Solo.asked.nextReply, .response ()) ∈ (Solo.run k).replies := hx
    rwa [fresh] at hx
  · have hh : Holds ⟨Solo.asked.node.term, 2, .normal [7]⟩ (Solo.run j).node := hh j hj
    rwa [term] at hh

end Driver

end Sailing
