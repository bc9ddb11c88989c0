import MRNet.HostSearch
import MRNet.Interleavings

/-!
# The relay of the topology

One process is started on each host, and it waits until the topology and its rank are sent to it.
It starts the other processes of its host. Every process that is not a back-end connects to its
parent and then sends the topology on, to the first of its children on another host if no process
of that host is closer to the root. Translation of `PropagateTopologyOffNode` and of the
constructor of a process in `XTNetwork.C`. The wait may time out at any time, and of the attempts
to connect that are refused any one may be the last.
-/
namespace MRNet.XTNetwork
open SerialGraph (Graph Text Port)
open WaitForAll (Rank)

/-- The graph of `ConnectProcesses`. Arguments for back-ends are given if there is an executable. -/
structure Topology where
  graph : Graph
  distinct : graph.DistinctRanks
  leafBackEnds : LeafBackEnds graph
  root_internal : graph.isBackEnd = false
  beArgs : Bool

inductive HostPhase where
  | absent
  | launched
  | listening
  /-- A connection has been accepted, and the topology socket is closed. -/
  | closed
  /-- The start-up time is over, and the process has exited. -/
  | timedOut

/-- The process that is started on a host, before it knows its rank. A rank is in the list for each
connection over which the topology was sent. -/
structure HostState where
  phase : HostPhase
  connections : List Rank

inductive Kind where
  | commNode
  | backEnd

inductive Phase where
  | absent
  /-- The first process of its host, which has others to start. -/
  | spawning (pos : TopologyPosition) (todo : List TopologyPosition)
  /-- In front of the connection to the parent. -/
  | connecting (kind : Kind) (pos : TopologyPosition)
  | propagating (hostsSeen : List Text) (todo : List Graph)
  | started (kind : Kind)
  /-- A child could not be sent the topology. The others have not been come to. -/
  | exited (todo : List Graph)
  | failed

namespace Phase

/-- A connection of a child is answered. -/
def accepts : Phase → Bool
  | .propagating _ _ | .started .commNode => true
  | _ => false

/-- The ranks of the processes that are still to be started. -/
def unspawned : Phase → List Rank
  | .spawning _ todo => todo.map TopologyPosition.myRank
  | _ => []

/-- The children of a process that it has not come to. -/
def ahead (x : Graph) : Phase → List Graph
  | .absent | .spawning _ _ | .connecting _ _ => x.children
  | .propagating _ todo | .exited todo => todo
  | .started _ | .failed => []

end Phase

structure State where
  hosts : Text → HostState
  procs : Rank → Phase
  /-- The parent that a process is connected to. -/
  parents : Rank → Option Rank
  /-- The ranks of the processes that have been started. -/
  spawned : List Rank
  /-- The ranks of the processes that were refused a connection for the last time. -/
  gaveUp : List Rank

inductive Action where
  | listen (host : Text)
  | accept (host : Text)
  | timeOut (host : Text)
  | spawn (rank : Rank)
  | spawnedAll (rank : Rank)
  | connect (rank : Rank)
  | propagate (rank : Rank)
  | propagated (rank : Rank)
  | giveUp (rank : Rank)

variable (t : Topology)

namespace Topology

/-- A position at which the executable of the back-ends is started. -/
def kindOf (x : Graph) : Kind := if x.isBackEnd ∧ t.beArgs then .backEnd else .commNode

/-- The hosts that `DetermineProcessTypesAux` collects. -/
def processHosts : List Text := (positions t.graph).map TopologyPosition.myHostname

end Topology

namespace State

def setHost (s : State) (host : Text) (x : HostState) : State :=
  { s with hosts := Function.update s.hosts host x }

def setProc (s : State) (rank : Rank) (phase : Phase) : State :=
  { s with procs := Function.update s.procs rank phase }

/-- The front-end is in `PropagateTopologyOffNode`. -/
def initial : State where
  hosts := fun host => ⟨if t.processHosts.any (· = host) then .launched else .absent, []⟩
  procs := fun rank =>
    if rank = t.graph.rank then .propagating [t.graph.hostName] t.graph.children else .absent
  parents := fun _ => none
  spawned := []
  gaveUp := []

end State

def listen (s : State) (host : Text) : Option State :=
  match (s.hosts host).phase with
  | .launched => some (s.setHost host { s.hosts host with phase := .listening })
  | _ => none

/-- A process that has got the topology over the socket. -/
def firstProcess (host : Text) (rank : Rank) : Phase :=
  match findPositionInTopology host rank none t.graph with
  | none => .failed
  | some pos => .spawning pos (findColocatedProcesses host rank t.graph)

def accept (s : State) (host : Text) : Option State :=
  match (s.hosts host).phase, (s.hosts host).connections with
  | .listening, rank :: rest => some
      { (s.setHost host ⟨.closed, rest⟩).setProc rank (firstProcess t host rank) with
        spawned := rank :: s.spawned }
  | _, _ => none

/-- `getSocketConnection` returns without a connection. -/
def timeOut (s : State) (host : Text) : Option State :=
  match (s.hosts host).phase, (s.hosts host).connections with
  | .listening, [] => some (s.setHost host ⟨.timedOut, []⟩)
  | _, _ => none

/-- `SpawnBE`, or `SpawnCP` and what the new process does with the topology from the pipe. -/
def spawnedProcess (tpos : TopologyPosition) : Phase :=
  match t.kindOf tpos.subtree with
  | .backEnd => .connecting .backEnd tpos
  | .commNode =>
      match findPositionInTopology tpos.myHostname tpos.myRank none t.graph with
      | none => .failed
      | some pos => .connecting .commNode pos

def spawn (s : State) (rank : Rank) : Option State :=
  match s.procs rank with
  | .spawning pos (tpos :: todo) => some
      { (s.setProc rank (.spawning pos todo)).setProc tpos.myRank (spawnedProcess t tpos) with
        spawned := tpos.myRank :: s.spawned }
  | _ => none

/-- The process goes on at its own position, or starts the back-end there. -/
def spawnedAll (s : State) (rank : Rank) : Option State :=
  match s.procs rank with
  | .spawning pos [] => some (s.setProc rank (.connecting (t.kindOf pos.subtree) pos))
  | _ => none

/-- After the connection to the parent. -/
def afterConnect (kind : Kind) (subtree : Graph) : Phase :=
  match kind with
  | .backEnd => .started .backEnd
  | .commNode =>
      if subtree.isBackEnd then .started .commNode
      else .propagating [subtree.hostName] subtree.children

def connect (s : State) (rank : Rank) : Option State :=
  match s.procs rank with
  | .connecting kind pos =>
      if (s.procs pos.parentRank).accepts then some
        { s.setProc rank (afterConnect kind pos.subtree) with
          parents := Function.update s.parents rank (some pos.parentRank) }
      else none
  | _ => none

/-- Only a host that listens is connected to. -/
def sendTopology (s : State) (rank : Rank) (c : Graph) (next : Phase) : Option State :=
  match (s.hosts c.hostName).phase with
  | .listening => some ((s.setHost c.hostName
      ⟨.listening, (s.hosts c.hostName).connections ++ [c.rank]⟩).setProc rank next)
  | _ => none

/-- One child of the loop of `PropagateTopologyOffNode`. -/
def propagate (s : State) (rank : Rank) : Option State :=
  match s.procs rank with
  | .propagating hostsSeen (c :: todo) =>
      if hostsSeen.any (· = c.hostName) then some (s.setProc rank (.propagating hostsSeen todo))
      else if closestToRoot t.graph c.hostName c.rank then
        sendTopology s rank c (.propagating (c.hostName :: hostsSeen) todo)
      else some (s.setProc rank (.propagating (c.hostName :: hostsSeen) todo))
  | _ => none

def propagated (s : State) (rank : Rank) : Option State :=
  match s.procs rank with
  | .propagating _ [] => some (s.setProc rank (.started .commNode))
  | _ => none

/-- The last attempt to connect is refused. Without its parent a process goes on, but one that
cannot send the topology exits. -/
def giveUp (s : State) (rank : Rank) : Option State :=
  match s.procs rank with
  | .connecting kind pos =>
      if (s.procs pos.parentRank).accepts then none
      else some { s.setProc rank (afterConnect kind pos.subtree) with gaveUp := rank :: s.gaveUp }
  | .propagating hostsSeen (c :: todo) =>
      if hostsSeen.any (· = c.hostName) then none
      else if closestToRoot t.graph c.hostName c.rank then
        match (s.hosts c.hostName).phase with
        | .listening => none
        | _ => some { s.setProc rank (.exited (c :: todo)) with gaveUp := rank :: s.gaveUp }
      else none
  | _ => none

def step (s : State) : Action → Option State
  | .listen host => listen s host
  | .accept host => accept t s host
  | .timeOut host => timeOut s host
  | .spawn rank => spawn t s rank
  | .spawnedAll rank => spawnedAll t s rank
  | .connect rank => connect s rank
  | .propagate rank => propagate t s rank
  | .propagated rank => propagated s rank
  | .giveUp rank => giveUp t s rank

variable {t} {s s' : State}

lemma any_host_iff {hosts : List Text} {host : Text} :
    hosts.any (· = host) = true ↔ host ∈ hosts := by
  simp

/-- What a step does, and when it can be taken. -/
inductive Step (t : Topology) (s : State) : Action → State → Prop
  | listen {host : Text} (h : (s.hosts host).phase = .launched) :
      Step t s (.listen host) (s.setHost host { s.hosts host with phase := .listening })
  | accept {host : Text} {rank : Rank} {rest : List Rank}
      (h : s.hosts host = ⟨.listening, rank :: rest⟩) : Step t s (.accept host)
        { (s.setHost host ⟨.closed, rest⟩).setProc rank (firstProcess t host rank) with
          spawned := rank :: s.spawned }
  | timeOut {host : Text} (h : s.hosts host = ⟨.listening, []⟩) :
      Step t s (.timeOut host) (s.setHost host ⟨.timedOut, []⟩)
  | spawn {rank : Rank} {pos tpos : TopologyPosition} {todo : List TopologyPosition}
      (h : s.procs rank = .spawning pos (tpos :: todo)) : Step t s (.spawn rank)
        { (s.setProc rank (.spawning pos todo)).setProc tpos.myRank (spawnedProcess t tpos) with
          spawned := tpos.myRank :: s.spawned }
  | spawnedAll {rank : Rank} {pos : TopologyPosition} (h : s.procs rank = .spawning pos []) :
      Step t s (.spawnedAll rank) (s.setProc rank (.connecting (t.kindOf pos.subtree) pos))
  | connect {rank : Rank} {kind : Kind} {pos : TopologyPosition}
      (h : s.procs rank = .connecting kind pos) (hparent : (s.procs pos.parentRank).accepts = true) :
      Step t s (.connect rank)
        { s.setProc rank (afterConnect kind pos.subtree) with
          parents := Function.update s.parents rank (some pos.parentRank) }
  | skip {rank : Rank} {hostsSeen : List Text} {c : Graph} {todo : List Graph}
      (h : s.procs rank = .propagating hostsSeen (c :: todo)) (hseen : c.hostName ∈ hostsSeen) :
      Step t s (.propagate rank) (s.setProc rank (.propagating hostsSeen todo))
  | leave {rank : Rank} {hostsSeen : List Text} {c : Graph} {todo : List Graph}
      (h : s.procs rank = .propagating hostsSeen (c :: todo)) (hseen : c.hostName ∉ hostsSeen)
      (hclosest : closestToRoot t.graph c.hostName c.rank = false) :
      Step t s (.propagate rank) (s.setProc rank (.propagating (c.hostName :: hostsSeen) todo))
  | send {rank : Rank} {hostsSeen : List Text} {c : Graph} {todo : List Graph} {s' : State}
      (h : s.procs rank = .propagating hostsSeen (c :: todo)) (hseen : c.hostName ∉ hostsSeen)
      (hclosest : closestToRoot t.graph c.hostName c.rank = true)
      (hsend : sendTopology s rank c (.propagating (c.hostName :: hostsSeen) todo) = some s') :
      Step t s (.propagate rank) s'
  | propagated {rank : Rank} {hostsSeen : List Text} (h : s.procs rank = .propagating hostsSeen []) :
      Step t s (.propagated rank) (s.setProc rank (.started .commNode))
  | goOn {rank : Rank} {kind : Kind} {pos : TopologyPosition}
      (h : s.procs rank = .connecting kind pos)
      (hparent : (s.procs pos.parentRank).accepts = false) : Step t s (.giveUp rank)
        { s.setProc rank (afterConnect kind pos.subtree) with gaveUp := rank :: s.gaveUp }
  | exit {rank : Rank} {hostsSeen : List Text} {c : Graph} {todo : List Graph}
      (h : s.procs rank = .propagating hostsSeen (c :: todo)) (hseen : c.hostName ∉ hostsSeen)
      (hclosest : closestToRoot t.graph c.hostName c.rank = true)
      (hclosed : (s.hosts c.hostName).phase ≠ .listening) : Step t s (.giveUp rank)
        { s.setProc rank (.exited (c :: todo)) with gaveUp := rank :: s.gaveUp }

lemma step_of_eq_some {act : Action} (h : step t s act = some s') : Step t s act s' := by
  cases act with
  | listen host =>
      rw [step, XTNetwork.listen] at h
      cases hphase : (s.hosts host).phase <;> rw [hphase] at h <;> cases h
      exact .listen hphase
  | accept host =>
      rw [step, XTNetwork.accept] at h
      cases hhost : s.hosts host with
      | mk phase connections =>
          rw [hhost] at h
          cases phase <;> cases connections <;> cases h
          exact .accept hhost
  | timeOut host =>
      rw [step, XTNetwork.timeOut] at h
      cases hhost : s.hosts host with
      | mk phase connections =>
          rw [hhost] at h
          cases phase <;> cases connections <;> cases h
          exact .timeOut hhost
  | spawn rank =>
      rw [step, XTNetwork.spawn] at h
      cases hphase : s.procs rank with
      | spawning pos todo =>
          rw [hphase] at h
          cases todo <;> cases h
          exact .spawn hphase
      | _ =>
          rw [hphase] at h
          cases h
  | spawnedAll rank =>
      rw [step, XTNetwork.spawnedAll] at h
      cases hphase : s.procs rank with
      | spawning pos todo =>
          rw [hphase] at h
          cases todo <;> cases h
          exact .spawnedAll hphase
      | _ =>
          rw [hphase] at h
          cases h
  | connect rank =>
      rw [step, XTNetwork.connect] at h
      cases hphase : s.procs rank with
      | connecting kind pos =>
          rw [hphase] at h
          by_cases hparent : (s.procs pos.parentRank).accepts = true
          · cases (if_pos hparent).symm.trans h
            exact .connect hphase hparent
          · cases (if_neg hparent).symm.trans h
      | _ =>
          rw [hphase] at h
          cases h
  | propagate rank =>
      rw [step, XTNetwork.propagate] at h
      cases hphase : s.procs rank with
      | propagating hostsSeen todo =>
          rw [hphase] at h
          cases todo with
          | nil => cases h
          | cons c todo =>
              by_cases hseen : c.hostName ∈ hostsSeen
              · cases (if_pos (any_host_iff.mpr hseen)).symm.trans h
                exact .skip hphase hseen
              · replace h := (if_neg (mt any_host_iff.mp hseen)).symm.trans h
                by_cases hclosest : closestToRoot t.graph c.hostName c.rank = true
                · exact .send hphase hseen hclosest ((if_pos hclosest).symm.trans h)
                · cases (if_neg hclosest).symm.trans h
                  exact .leave hphase hseen (Bool.not_eq_true _ ▸ hclosest)
      | _ =>
          rw [hphase] at h
          cases h
  | propagated rank =>
      rw [step, XTNetwork.propagated] at h
      cases hphase : s.procs rank with
      | propagating hostsSeen todo =>
          rw [hphase] at h
          cases todo <;> cases h
          exact .propagated hphase
      | _ =>
          rw [hphase] at h
          cases h
  | giveUp rank =>
      rw [step, XTNetwork.giveUp] at h
      cases hphase : s.procs rank with
      | connecting kind pos =>
          rw [hphase] at h
          by_cases hparent : (s.procs pos.parentRank).accepts = true
          · cases (if_pos hparent).symm.trans h
          · cases (if_neg hparent).symm.trans h
            exact .goOn hphase (Bool.not_eq_true _ ▸ hparent)
      | propagating hostsSeen todo =>
          rw [hphase] at h
          cases todo with
          | nil => cases h
          | cons c todo =>
              by_cases hseen : c.hostName ∈ hostsSeen
              · cases (if_pos (any_host_iff.mpr hseen)).symm.trans h
              · replace h := (if_neg (mt any_host_iff.mp hseen)).symm.trans h
                by_cases hclosest : closestToRoot t.graph c.hostName c.rank = true
                · replace h := (if_pos hclosest).symm.trans h
                  cases hhost : (s.hosts c.hostName).phase <;> rw [hhost] at h <;> cases h <;>
                    exact .exit hphase hseen hclosest (by rw [hhost]; rintro ⟨⟩)
                · cases (if_neg hclosest).symm.trans h
      | _ =>
          rw [hphase] at h
          cases h

end MRNet.XTNetwork
