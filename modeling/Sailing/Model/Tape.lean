import Sailing.Model.System

/-!
# A small group to run

`tape` is the state machine that records its commands, and its snapshot is the
record itself. `Tape.config` is a configuration every run of the development
starts from; a run that needs another value changes that field.
-/

namespace Sailing

/-- Applying a command appends it. -/
abbrev tape : StateMachine where
  State := Bytes
  Command := Bytes
  Response := Unit
  Snapshot := Bytes
  init := []
  encodeCommand := id
  decodeCommand := some
  apply := fun s _ c => some (s ++ c, ())
  snapshot := some
  encodeSnapshot := id
  decodeSnapshot := some
  restore := fun _ s => some s

namespace Tape

def config (voters : Finset Nat) (n : Nat) : Config Nat where
  id := n
  voters := voters
  electionTimeout := 10
  heartbeatInterval := 1
  maxSizePerMsg := u64Max
  maxInflightMsgs := 8
  maxInflightBytes := 0
  snapshotThreshold := 100
  snapshotChunkBytes := 1000
  stepDownOnRemoval := true
  preVote := false
  checkQuorum := false
  disableProposalForwarding := false
  readOnly := .safe
  wire := ⟨fun _ => 1, fun _ _ _ _ => 10⟩

/-- A new node, with election timeouts at their minimum. -/
def node (config : Config Nat) : Endpoint Nat tape := Endpoint.new config 0 (fun _ => 0) tape.init

/-- The oldest `k` writes of the stable store become durable, and the node is
told. -/
def persist (now : Instant) (k : Nat) : List (Call Nat tape) :=
  List.replicate k .syncStable ++ List.replicate k (.surfaceStable 0) ++ [.storage now]

/-- The same for the log. -/
def persistLog (now : Instant) (k : Nat) : List (Call Nat tape) :=
  List.replicate k .syncLog ++ List.replicate k (.surfaceLog 0) ++ [.storage now]

/-- Reads that find the entries of `cold` not yet in memory. -/
def reads (cold : Index → Bool) : Call Nat tape :=
  .logReads cold (fun _ => false) (fun _ => false) u64Max true

/-- Consecutive normal entries of one term, one byte each. -/
def run (term : Term) (first : Index) : List UInt8 → List (Entry Nat)
  | [] => []
  | b :: bs => ⟨term, first, .normal [b]⟩ :: run term (first + 1) bs

/-! ## Groups -/

def cluster (voters : Finset Nat) : Cluster Nat :=
  ⟨voters, config voters, fun _ => rfl, fun _ => rfl⟩

def start (voters : Finset Nat) : System Nat tape := System.init (cluster voters) fun _ _ => 0

/-- Calls of one node's driver. -/
def on (n : Nat) (calls : List (Call Nat tape)) : List (Action Nat tape) := calls.map (.call n)

def polls (n k : Nat) : List (Action Nat tape) := List.replicate k (.poll n)

end Tape

end Sailing
