import MRNet.Forest
import MRNet.Interleavings
import MRNet.WaitForAll

/-!
# Packets on their way up a tree

The upstream half of a stream in all nodes of a tree. A node has a receive thread for each child,
which takes the next packet of the child, runs the synchronization filter and then the
transformation filter, and hands the packets that come out to the parent. A filter is entered by
one thread at a time, but between the filters and before the hand-over other threads of the node
may go ahead.
-/
namespace MRNet.Upstream
open Codec Wire WaitForAll Interleavings
open Forest (Link Below Rooted)

/-- The nodes that a stream runs through, by their ranks. -/
structure Tree where
  nodes : Finset Rank
  parent : Rank → Option Rank
  root : Rank
  root_mem : root ∈ nodes
  root_top : parent root = none
  link_mem : ∀ {c v}, Link parent c v → c ∈ nodes ∧ v ∈ nodes
  connected : ∀ v ∈ nodes, Below parent v root
  known : unknownRank ∉ nodes

namespace Tree

def children (tree : Tree) (v : Rank) : Finset Rank :=
  tree.nodes.filter fun c => tree.parent c = some v

/-- Nodes without children other than the root. -/
def endPoints (tree : Tree) : Finset Rank :=
  tree.nodes.filter fun r => tree.children r = ∅ ∧ r ≠ tree.root

/-- What a filter of the stream sees of a node: the children are the peers, and none has
failed. -/
def network (tree : Tree) (streamId : BitVec 32) (v : Rank) : Network where
  getStream := fun id => if id = streamId then some ⟨(tree.children v).sort⟩ else none
  nodeFailed := fun _ => false

end Tree

/-- What a receive thread has in hand. -/
inductive Stage where
  | idle
  | synced (wave : List Packet)
  | made (packets : List Packet)

/-- The states of the synchronization filters, what the receive threads for the children have in
hand, the packets that the nodes have sent so far, and how many of them were taken by the parent.
What the root sends are the incoming packets of the stream. -/
structure State where
  storage : Rank → Option WfaState
  hand : Rank → Stage
  sent : Rank → List Packet
  taken : Rank → ℕ

def State.start : State where
  storage := fun _ => none
  hand := fun _ => .idle
  sent := fun _ => []
  taken := fun _ => 0

/-- The thread that reads from a peer marks its packets. -/
def comesFrom (c : Rank) (packet : Packet) : Packet := { packet with inletRank := c }

/-- Packets of one kind on a stream, such as those of one format. It does not matter which child
they came from. -/
structure PacketKind (streamId : BitVec 32) where
  Accepts : Packet → Prop
  onStream : ∀ p, Accepts p → p.streamId = streamId
  marked : ∀ c p, Accepts p → Accepts (comesFrom c p)

inductive Action where
  | send (r : Rank) (packet : Packet)
  | receive (c : Rank)
  | transform (c : Rank)
  | handOver (c : Rank)

section Model
variable (tree : Tree) (streamId : BitVec 32) (filter : List Packet → Outcome (List Packet))

/-- The synchronization filter of a node, with one packet. -/
def sync (s : State) (v : Rank) (packet : Packet) : Option (Option WfaState × List Packet) :=
  (sfilterWaitForAll (tree.network streamId v) (s.storage v) [packet]).toOption

/-- The transformation filter, which is not run on no packets. -/
def transform (wave : List Packet) : Option (List Packet) :=
  if wave = [] then some [] else (filter wave).toOption

/-- The steps of the threads. An end-point sends by one thread, and its packet has no inlet. -/
def step (s : State) : Action → Option State
  | .send r packet => do
      guard (r ∈ tree.endPoints ∧ packet.streamId = streamId)
      let (storage, wave) ← sync tree streamId s r (comesFrom unknownRank packet)
      let packets ← transform filter wave
      return { s with
        storage := Function.update s.storage r storage
        sent := Function.update s.sent r (s.sent r ++ packets) }
  | .receive c =>
      match s.hand c with
      | .idle => do
          let v ← tree.parent c
          let packet ← (s.sent c)[s.taken c]?
          let (storage, wave) ← sync tree streamId s v (comesFrom c packet)
          return { s with
            storage := Function.update s.storage v storage
            hand := Function.update s.hand c (if wave = [] then .idle else .synced wave)
            taken := Function.update s.taken c (s.taken c + 1) }
      | _ => none
  | .transform c =>
      match s.hand c with
      | .synced wave => do
          let packets ← transform filter wave
          return { s with hand := Function.update s.hand c (.made packets) }
      | _ => none
  | .handOver c =>
      match s.hand c with
      | .made [] => some { s with hand := Function.update s.hand c .idle }
      | .made (packet :: packets) => do
          let v ← tree.parent c
          return { s with
            hand := Function.update s.hand c (.made packets)
            sent := Function.update s.sent v (s.sent v ++ [packet]) }
      | _ => none

/-- A node handles one packet at a time: a thread starts when the others of the node are idle. -/
def Alone (s : State) : Action → Prop
  | .receive c => ∀ c', tree.parent c' = tree.parent c → s.hand c' = .idle
  | _ => True

section Kind
variable {streamId} (kind : PacketKind streamId)

/-- The filter makes one packet of the kind of a wave of such packets, if it returns. -/
def MakesOne : Prop := ∀ wave packets, wave ≠ [] → (∀ p ∈ wave, kind.Accepts p) →
  filter wave = .ok packets → ∃ p, packets = [p] ∧ kind.Accepts p

/-- The filter does not fail on packets of the kind. -/
def Returns : Prop := ∀ wave, wave ≠ [] → (∀ p ∈ wave, kind.Accepts p) →
  ∃ packets, filter wave = .ok packets

/-- The end-points send packets of the kind. -/
def Sends : State → Action → Prop
  | _, .send _ packet => kind.Accepts packet
  | _, _ => True

end Kind

/-- The packet was made of one packet of each end-point below the node, of which `pick` gives the
number. -/
inductive MadeOf (s : State) (pick : Rank → ℕ) : Rank → Packet → Prop
  | endPoint {r : Rank} {p : Packet} (hr : r ∈ tree.endPoints)
      (hp : (s.sent r)[pick r]? = some p) : MadeOf s pick r p
  | node {v : Rank} {p : Packet} (packets : Rank → Packet) (hv : (tree.children v).Nonempty)
      (h : ∀ c ∈ tree.children v, MadeOf s pick c (packets c))
      (hfilter : filter ((tree.children v).sort.map fun c => comesFrom c (packets c)) = .ok [p]) :
      MadeOf s pick v p

/-- Nothing is in hand and nothing is on a link. -/
structure Quiet (s : State) : Prop where
  idle : ∀ c ∈ tree.nodes, s.hand c = .idle
  drained : ∀ c v, Link tree.parent c v → s.taken c = (s.sent c).length

end Model

end MRNet.Upstream
