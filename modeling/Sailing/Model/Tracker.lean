import Sailing.Model.Progress
import Sailing.Model.Quorum
import Mathlib.Logic.Function.Basic

/-!
# Runtime membership

`Tracker` of `tracker/mod.rs`: the joint voter configuration, the learner sets
and the progress of every member; and the `Changer` that computes the next
configuration from a committed change.
-/

namespace Sailing

variable {I : Type} [LinearOrder I]

structure Tracker (I : Type) where
  voters : JointConfig I
  learners : Finset I
  learnersNext : Finset I
  autoLeave : Bool
  progress : I → Option Progress

namespace Tracker

def ids (t : Tracker I) : Finset I := t.voters.ids ∪ t.learners ∪ t.learnersNext

def isJoint (t : Tracker I) : Bool := t.voters.outgoing.ids ≠ ∅

def isVoter (t : Tracker I) (id : I) : Bool :=
  id ∈ t.voters.incoming.ids || id ∈ t.voters.outgoing.ids

def matchIndex (t : Tracker I) (id : I) : Index := ((t.progress id).map (·.matchIndex)).getD 0

/-- Changes the progress of `id`, if it has one. -/
def modifyProgress (t : Tracker I) (id : I) (f : Progress → Progress) : Tracker I :=
  { t with progress := Function.update t.progress id ((t.progress id).map f) }

def resetRecentActive (t : Tracker I) (leader : I) : Tracker I :=
  { t with progress := fun id => (t.progress id).map (·.setRecentActive (id = leader)) }

def fromConfState (cs : ConfState I) (lastIndex : Index) (maxInflightMsgs maxInflightBytes : Nat) :
    Tracker I :=
  { voters := ⟨⟨cs.voters⟩, ⟨cs.votersOutgoing⟩⟩
    learners := cs.learners
    learnersNext := cs.learnersNext
    autoLeave := cs.autoLeave
    progress := fun id =>
      if id ∈ cs.voters ∪ cs.votersOutgoing ∪ cs.learners ∪ cs.learnersNext then
        some (Progress.new (next lastIndex) maxInflightMsgs maxInflightBytes)
      else none }

def quorumCommitted (t : Tracker I) : Index := t.voters.committedIndex t.matchIndex

def voteResult (t : Tracker I) (votes : I → Option Bool) : VoteResult := t.voters.voteResult votes

def voteResultBy (t : Tracker I) (granted : I → Bool) : VoteResult :=
  t.voters.voteResult fun id => some (granted id)

def quorumActive (t : Tracker I) : Bool :=
  t.voters.voteResult (fun id => some (((t.progress id).map (·.recentActive)).getD false)) = .won

def confState (t : Tracker I) : ConfState I :=
  ⟨t.voters.incoming.ids, t.learners, t.voters.outgoing.ids, t.learnersNext, t.autoLeave⟩

/-- Fresh progress for every member, from `nextIndex`. -/
def resetProgress (t : Tracker I) (nextIndex : Index) (maxInflightMsgs maxInflightBytes : Nat) :
    Tracker I :=
  { t with
    progress := fun id =>
      if id ∈ t.ids then some (Progress.new nextIndex maxInflightMsgs maxInflightBytes) else none }

end Tracker

/-! ## Configuration changes -/

inductive ConfChangeError where
  | alreadyJoint
  | notJoint
  | simpleInJoint
  | multipleVoterChanges
  | emptyVoterSet
  | learnersNextInSimple
  | emptyIncomingForJoint
  | invariantViolation
deriving DecidableEq, Repr

structure Changer where
  lastIndex : Index
  maxInflightMsgs : Nat
  maxInflightBytes : Nat

namespace Changer

/-- A new member probes from the last index, floored at 1. -/
def initProgress (c : Changer) (t : Tracker I) (id : I) (isLearner : Bool) : Tracker I :=
  let pr := Progress.new (max c.lastIndex 1) c.maxInflightMsgs c.maxInflightBytes
  let t := { t with progress := Function.update t.progress id (some pr) }
  if isLearner then { t with learners := insert id t.learners }
  else { t with voters := ⟨⟨insert id t.voters.incoming.ids⟩, t.voters.outgoing⟩ }

def makeVoter (c : Changer) (t : Tracker I) (id : I) : Tracker I :=
  if (t.progress id).isNone then c.initProgress t id false
  else
    { t with
      learners := t.learners.erase id
      learnersNext := t.learnersNext.erase id
      voters := ⟨⟨insert id t.voters.incoming.ids⟩, t.voters.outgoing⟩ }

/-- The progress stays while the outgoing half still counts the member. -/
def remove (_c : Changer) (t : Tracker I) (id : I) : Tracker I :=
  if (t.progress id).isNone then t
  else
    { t with
      voters := ⟨⟨t.voters.incoming.ids.erase id⟩, t.voters.outgoing⟩
      learners := t.learners.erase id
      learnersNext := t.learnersNext.erase id
      progress :=
        if id ∈ t.voters.outgoing.ids then t.progress else Function.update t.progress id none }

/-- A member of the outgoing half is only staged for demotion. -/
def makeLearner (c : Changer) (t : Tracker I) (id : I) : Tracker I :=
  match t.progress id with
  | none => c.initProgress t id true
  | some saved =>
    if id ∈ t.learners ∧ id ∉ t.voters.incoming.ids then t
    else
      let t := c.remove t id
      let t := if (t.progress id).isNone then
        { t with progress := Function.update t.progress id (some saved) } else t
      if id ∈ t.voters.outgoing.ids then { t with learnersNext := insert id t.learnersNext }
      else { t with learners := insert id t.learners }

def applyOne (c : Changer) (t : Tracker I) (cc : ConfChangeSingle I) : Tracker I :=
  match cc.ty with
  | .addNode => c.makeVoter t cc.node
  | .addLearnerNode => c.makeLearner t cc.node
  | .removeNode => c.remove t cc.node

def apply (c : Changer) (t : Tracker I) (changes : List (ConfChangeSingle I)) :
    Except ConfChangeError (Tracker I) :=
  let t := changes.foldl c.applyOne t
  if t.voters.incoming.ids = ∅ then .error .emptyVoterSet else .ok t

def checkInvariants (_c : Changer) (t : Tracker I) : Except ConfChangeError (Tracker I) :=
  if (∀ id ∈ t.ids, (t.progress id).isSome) ∧
      (∀ id ∈ t.learnersNext, id ∈ t.voters.outgoing.ids) ∧
      (∀ id ∈ t.learners, id ∉ t.voters.outgoing.ids ∧ id ∉ t.voters.incoming.ids) ∧
      (t.isJoint = true ∨ (t.learnersNext = ∅ ∧ t.autoLeave = false)) then .ok t
  else .error .invariantViolation

/-- `|(a - b) ∪ (b - a)|`. -/
def symDiff (a b : Finset I) : Nat := (a \ b).card + (b \ a).card

def simple (c : Changer) (t : Tracker I) (changes : List (ConfChangeSingle I)) :
    Except ConfChangeError (Tracker I) :=
  if t.isJoint then .error .simpleInJoint
  else
    match c.apply t changes with
    | .error e => .error e
    | .ok t' =>
      if 1 < symDiff t.voters.incoming.ids t'.voters.incoming.ids then .error .multipleVoterChanges
      else if t'.learnersNext ≠ ∅ then .error .learnersNextInSimple
      else c.checkInvariants t'

def enterJoint (c : Changer) (t : Tracker I) (autoLeave : Bool)
    (changes : List (ConfChangeSingle I)) : Except ConfChangeError (Tracker I) :=
  if t.isJoint then .error .alreadyJoint
  else if t.voters.incoming.ids = ∅ then .error .emptyIncomingForJoint
  else
    match c.apply { t with voters := ⟨t.voters.incoming, ⟨t.voters.incoming.ids⟩⟩ } changes with
    | .error e => .error e
    | .ok t' => c.checkInvariants { t' with autoLeave := autoLeave }

def leaveJoint (c : Changer) (t : Tracker I) : Except ConfChangeError (Tracker I) :=
  if t.isJoint then
    let t' := { t with
      learners := t.learners ∪ t.learnersNext
      learnersNext := ∅
      voters := ⟨t.voters.incoming, ⟨∅⟩⟩
      autoLeave := false }
    c.checkInvariants
      { t' with progress := fun id =>
          if id ∈ t.voters.outgoing.ids ∧ id ∉ t'.ids then none else t.progress id }
  else .error .notJoint

end Changer

end Sailing
