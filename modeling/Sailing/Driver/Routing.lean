import Sailing.Model.Node
import Sailing.Lib.Octets

/-!
# The driver of one group

`Routing` of `sailing-driver/src/shared.rs` and the commands and the pump of
`sailing-reactor/src/driver/stream.rs`, over one endpoint. A client's reply
channel is a number, given out in order; `replies` is what was sent on them. The
links, the parked failover reads and the panics of queries are left out, and what
the pump transmits is polled by a call of its own.
-/

namespace Sailing

/-- What a client can ask to be put into the log; `conf_change` is converted to the
second form before it is proposed. -/
inductive Request (I : Type) (M : StateMachine) where
  | submit (cmd : M.Command)
  | conf (cc : ConfChangeV2 I)

inductive DriverError (I : Type) where
  | superseded
  | poisoned
  | propose (e : ProposeError I)
  | read (e : ReadIndexError)

inductive Reply (I : Type) (M : StateMachine) where
  | response (r : M.Response)
  | index (i : Index)
  | served
  | error (e : DriverError I)

def Reply.response? {I : Type} {M : StateMachine} : Reply I M → Option M.Response
  | .response r => some r
  | _ => none

theorem Reply.response?_eq {x : Reply I M} {r : M.Response} (h : x.response? = some r) : x = .response r := by
  cases x with
  | response => exact congrArg Reply.response (Option.some.inj h)
  | _ => exact absurd h (by simp [response?])

/-- A waiter for an index, with its reply channel. -/
inductive Parked where
  | submit (reply : Nat)
  | conf (reply : Nat)
deriving DecidableEq, Repr

def Parked.reply : Parked → Nat
  | .submit reply | .conf reply => reply

structure ParkedQuery where
  ctx : Nat
  readyAt : Option Index
  reply : Nat
deriving DecidableEq, Repr

/-- A read that is confirmed may be served from `i` on. -/
def ParkedQuery.confirm (q : ParkedQuery) (ctx : Nat) (i : Index) : ParkedQuery :=
  if q.ctx = ctx then { q with readyAt := some i } else q

structure Driver (I : Type) (M : StateMachine) where
  node : Endpoint I M
  pending : List (Index × Parked)
  queries : List ParkedQuery
  nextQueryCtx : Nat
  applied : Index
  wasLeader : Bool
  nextReply : Nat
  replies : List (Nat × Reply I M)

inductive DriverAction (I : Type) (M : StateMachine) where
  | ask (req : Request I M)
  | query (now : Instant)
  | call (c : Call I M)
  | pump (now : Instant)

namespace Request

variable {I : Type} {M : StateMachine}

def kind : Request I M → EntryKind I
  | .submit cmd => .normal (M.encodeCommand cmd)
  | .conf cc => .confChange (some cc)

def park : Request I M → Nat → Parked
  | .submit _ => .submit
  | .conf _ => .conf

/-- The call the command makes. -/
def call : Request I M → Call I M
  | .submit cmd => .propose cmd
  | .conf cc => .proposeConf cc

end Request

variable {I : Type} [LinearOrder I] {M : StateMachine}

def Endpoint.ask (s : Endpoint I M) : Request I M → Except (ProposeError I) Index × Endpoint I M
  | .submit cmd => s.propose cmd
  | .conf cc => s.proposeConfChange cc

namespace Driver

def start (node : Endpoint I M) : Driver I M := ⟨node, [], [], 1, 0, false, 0, []⟩

def answer (d : Driver I M) (reply : Nat) (r : Reply I M) : Driver I M :=
  { d with replies := d.replies ++ [(reply, r)] }

/-- Answers everything parked with the error. -/
def failAll (d : Driver I M) (e : DriverError I) : Driver I M :=
  { d with
    pending := [], queries := []
    replies := d.replies ++ d.pending.map (fun p => (p.2.reply, .error e)) ++
      d.queries.map fun q => (q.reply, .error e) }

/-- `pending.remove`. -/
def remove (d : Driver I M) (i : Index) : Option Parked × Driver I M :=
  ((d.pending.find? (·.1 = i)).map (·.2), { d with pending := d.pending.filter (·.1 ≠ i) })

def advance (d : Driver I M) (i : Index) : Bool × Driver I M :=
  if d.applied < i then (true, { d with applied := i }) else (false, d)

/-- The flag says that queries may have become runnable. -/
def routeEvent (d : Driver I M) : Event I M.Response → Bool × Driver I M
  | .applied i r =>
    match d.remove i with
    | (some (.submit reply), d) => (d.answer reply (.response r)).advance i
    | (_, d) => d.advance i
  | .confChanged i _ =>
    match d.remove i with
    | (some (.conf reply), d) => (d.answer reply (.index i)).advance i
    | (_, d) => d.advance i
  | .leaderChanged _ _ => (false, d.failAll .superseded)
  | .snapshotRestored m => d.advance m.lastIndex
  | .readState i context =>
    if context.length = 8 then
      let ctx := Octets.ofBe context
      (d.queries.any (·.ctx = ctx), { d with queries := d.queries.map (·.confirm ctx i) })
    else (false, d)

/-- `while let Some(ev) = poll_event()`; routing queues no event. -/
def routeEvents : Nat → Driver I M → Bool × Driver I M
  | 0, d => (false, d)
  | fuel + 1, d =>
    match d.node.pollEvent with
    | (none, _) => (false, d)
    | (some e, node) =>
      let (run, d) := { d with node := node }.routeEvent e
      let (more, d) := routeEvents fuel d
      (run || more, d)

def runnable (d : Driver I M) (q : ParkedQuery) : Bool := q.readyAt.any (· ≤ d.applied)

/-- Runs the queries whose index is applied. -/
def serveQueries (d : Driver I M) : Driver I M :=
  { d with
    queries := d.queries.filter fun q => !d.runnable q
    replies := d.replies ++ (d.queries.filter d.runnable).map fun q => (q.reply, .served) }

/-- `sync_applied`: an apply without an event still advances the watermark. -/
def reconcile (d : Driver I M) : Bool × Driver I M :=
  if d.node.poisoned then (false, d) else d.advance d.node.applied

/-- The loss of leadership since the last pump. -/
def sweep (d : Driver I M) : Driver I M :=
  let leads : Bool := d.node.role = .leader
  let d := if d.wasLeader && !leads then d.failAll .superseded else d
  { d with wasLeader := leads }

def serve (d : Driver I M) (run : Bool) : Driver I M :=
  if !d.node.poisoned && run then d.serveQueries else d

def failStop (d : Driver I M) : Driver I M := if d.node.poisoned then d.failAll .poisoned else d

def pump (d : Driver I M) (now : Instant) : Driver I M :=
  let d := { d with node := d.node.flushAppends now }
  let (run, d) := d.routeEvents d.node.events.length
  let (more, d) := d.reconcile
  (d.sweep.serve (run || more)).failStop

/-- What reaches the endpoint besides commands and the pump. -/
def Between (me : I) : Call I M → Bool
  | .message _ sender _ => sender ≠ me
  | .propose _ | .proposeConf _ | .pollEvent | .crash .. => false
  | _ => true

def exec (d : Driver I M) : DriverAction I M → Driver I M
  | .ask req =>
    match d.node.ask req with
    | (.ok i, node) => { d with
        node := node
        pending := (i, req.park d.nextReply) :: d.pending.filter (·.1 ≠ i)
        nextReply := d.nextReply + 1 }
    | (.error e, node) =>
      { d with node := node, nextReply := d.nextReply + 1 }.answer d.nextReply (.error (.propose e))
  | .query now =>
    match d.node.readIndex now (toBeBytes d.nextQueryCtx) with
    | (.ok (), node) => { d with
        node := node
        queries := d.queries ++ [⟨d.nextQueryCtx, none, d.nextReply⟩]
        nextQueryCtx := d.nextQueryCtx + 1
        nextReply := d.nextReply + 1 }
    | (.error e, node) =>
      { d with
        node := node, nextQueryCtx := d.nextQueryCtx + 1
        nextReply := d.nextReply + 1 }.answer d.nextReply (.error (.read e))
  | .call c => if Between d.node.config.id c then { d with node := d.node.exec c } else d
  | .pump now => d.pump now

def execs (d : Driver I M) (actions : List (DriverAction I M)) : Driver I M := actions.foldl exec d

end Driver

end Sailing
