import Sailing.Model.Restart

/-!
# One node and everything that can happen to it

A `Call` is one event in the life of a node: a public call of its driver, a
move of its stores (a write becomes durable, a completion surfaces or is lost,
a read turns cold or fails), or a crash followed by a restart. `exec` is the
effect, so a run of a node is a list of calls.
-/

namespace Sailing

inductive Call (I : Type) (M : StateMachine) where
  | message (now : Instant) (sender : I) (m : Message I)
  | timeout (now : Instant)
  | storage (now : Instant)
  | transfer (now : Instant) (dest : I)
  | propose (cmd : M.Command)
  | proposeConf (cc : ConfChangeV2 I)
  | readIndex (now : Instant) (context : Bytes)
  | flush (now : Instant)
  /-- A query of the application panicked. -/
  | failStopQueryPanicked
  | pollMessage
  | pollEvent
  /-- The oldest staged write of the log, or of the stable store, is durable. -/
  | syncLog
  | syncStable
  /-- The completion at a position surfaces, or is lost. -/
  | surfaceLog (i : Nat)
  | surfaceStable (i : Nat)
  | loseLog (i : Nat)
  | loseStable (i : Nat)
  /-- The next poll reports a failed write. -/
  | failLog
  | failStable
  /-- How reads answer from now on. -/
  | logReads (cold readError termError : Index → Bool) (readCap : Nat) (probe : Bool)
  | stableReads (eager probe chunkCold chunkError : Bool) (stagingCap : Nat)
  /-- A crash and a restart under a later boot epoch. -/
  | crash (now : Instant) (rng : Nat → Nat) (bootEpoch : Nat) (assumePrior : Option Duration)

namespace Endpoint

variable {I : Type} [LinearOrder I] {M : StateMachine}

def crash (s : Endpoint I M) (now : Instant) (rng : Nat → Nat) (bootEpoch : Nat)
    (assumePrior : Option Duration) : Endpoint I M :=
  restart s.config now rng M.init bootEpoch assumePrior s.log.crash s.stable.crash

/-- A boot epoch is a later `u64` than the last. -/
def exec (s : Endpoint I M) : Call I M → Endpoint I M
  | .message now sender m => s.handleMessage now sender m
  | .timeout now => s.handleTimeout now
  | .storage now => (s.handleStorage now).2
  | .transfer now dest => (s.transferLeader now dest).2
  | .propose cmd => (s.propose cmd).2
  | .proposeConf cc => (s.proposeConfChange cc).2
  | .readIndex now context => (s.readIndex now context).2
  | .flush now => s.flushAppends now
  | .failStopQueryPanicked => s.poison .queryPanicked
  | .pollMessage => s.pollMessage.2
  | .pollEvent => s.pollEvent.2
  | .syncLog => { s with log := s.log.sync }
  | .syncStable => { s with stable := s.stable.sync }
  | .surfaceLog i => { s with log := s.log.surface i }
  | .surfaceStable i => { s with stable := s.stable.surface i }
  | .loseLog i => { s with log := { s.log with done := s.log.done.eraseIdx i } }
  | .loseStable i => { s with stable := { s.stable with done := s.stable.done.eraseIdx i } }
  | .failLog => { s with log := { s.log with ready := s.log.ready ++ [none] } }
  | .failStable => { s with stable := { s.stable with ready := s.stable.ready ++ [none] } }
  | .logReads cold readError termError readCap probe =>
    { s with log := { s.log with
        cold := cold, readError := readError, termError := termError, readCap := readCap
        probe := probe } }
  | .stableReads eager probe chunkCold chunkError stagingCap =>
    { s with stable := { s.stable with
        eager := eager, probe := probe, chunkCold := chunkCold, chunkError := chunkError
        stagingCap := stagingCap } }
  | .crash now rng bootEpoch assumePrior =>
    if s.nextOpId.epoch < bootEpoch ∧ bootEpoch ≤ u64Max then s.crash now rng bootEpoch assumePrior else s

def execs (s : Endpoint I M) (calls : List (Call I M)) : Endpoint I M := calls.foldl exec s

/-- The states a node with this configuration can be in, whatever it is sent. -/
def Reachable (config : Config I) (s : Endpoint I M) : Prop :=
  ∃ now rng calls, s = (new config now rng M.init : Endpoint I M).execs calls

end Endpoint

end Sailing
