import Sailing.Model.Node

/-!
# A group of nodes

The network holds every message that was ever polled: a delivery may pick any
of them, any number of times and in any order, so messages are lost,
duplicated, delayed and reordered at will. Each node keeps the time its driver
tells it.
-/

namespace Sailing

/-- One initial configuration for all: the same voters, each node under its own
id. -/
structure Cluster (I : Type) where
  voters : Finset I
  config : I → Config I
  config_id : ∀ n, (config n).id = n
  config_voters : ∀ n, (config n).voters = voters

structure Packet (I : Type) where
  src : I
  dest : I
  message : Message I
deriving DecidableEq

structure System (I : Type) (M : StateMachine) where
  node : I → Endpoint I M
  net : List (Packet I)

inductive Action (I : Type) (M : StateMachine) where
  /-- The packet at a position of the network reaches its destination. -/
  | deliver (now : Instant) (i : Nat)
  /-- A node polls its next message into the network. -/
  | poll (n : I)
  | call (n : I) (c : Call I M)

namespace System

variable {I : Type} [LinearOrder I] {M : StateMachine}

def init (C : Cluster I) (rng : I → Nat → Nat) : System I M :=
  ⟨fun n => Endpoint.new (C.config n) 0 (rng n) M.init, []⟩

def setNode (s : System I M) (n : I) (e : Endpoint I M) : System I M :=
  { s with node := Function.update s.node n e }

def poll (s : System I M) (n : I) : System I M :=
  match (s.node n).pollMessage with
  | (some o, e) => { s.setNode n e with net := s.net ++ [⟨n, o.dest, o.message⟩] }
  | (none, _) => s

/-- A call a node's own driver makes: anything but a message, which only the
network brings, and a poll, which feeds it. -/
def Local : Call I M → Bool
  | .message .. | .pollMessage => false
  | _ => true

def step (C : Cluster I) (s : System I M) : Action I M → System I M
  | .deliver now i =>
    match s.net[i]? with
    | some p =>
      if p.dest ∈ C.voters then
        s.setNode p.dest ((s.node p.dest).exec (.message now p.src p.message))
      else s
    | none => s
  | .poll n => if n ∈ C.voters then s.poll n else s
  | .call n c => if n ∈ C.voters ∧ Local c then s.setNode n ((s.node n).exec c) else s

def run (C : Cluster I) (s : System I M) (actions : List (Action I M)) : System I M :=
  actions.foldl (step C) s

end System

end Sailing
