import MRNet.WaitForAll

/-!
# The peers of a stream

A stream caches the connections over which its end-points are reached. Translation
of the members of `Stream` that change this cache. A `std::set` is a list in the
order of its iteration.
-/
namespace MRNet.StreamPeers
open WaitForAll (Rank)

-- The ids below the control stream are those of the back-ends.
def ctlStrmId : BitVec 32 := 2 ^ 30
def topolStrmId : BitVec 32 := ctlStrmId + 1
def portStrmId : BitVec 32 := ctlStrmId + 2
def userStrmBaseId : BitVec 32 := ctlStrmId + 10

/-- A packet on the first stream of the user. -/
def userPacket (rank : Rank) (tag : BitVec 32) : Wire.Packet :=
  (WaitForAll.arrival rank tag).setStreamId userStrmBaseId

/-- A connection to a neighbour. Two connections to one rank differ in their handle. -/
structure PeerNode where
  rank : Rank
  handle : ℕ
deriving DecidableEq

structure Stream where
  id : BitVec 32
  endPoints : List Rank
  peers : List PeerNode
  closed : Bool

namespace Stream

def close (stream : Stream) : Stream := { stream with closed := true }

def addStreamEndPoint (irank : Rank) (stream : Stream) : Stream :=
  { stream with endPoints := stream.endPoints.insert irank }

def getChildRanks (stream : Stream) : Finset Rank := (stream.peers.map PeerNode.rank).toFinset

/-- At a front-end that does not recover from failures the loss of a peer closes the
stream. -/
def removeNode (frontEnd recoverFromFailures : Bool) (irank : Rank) (stream : Stream) : Stream :=
  if stream.closed then stream
  else
    match stream.peers.find? fun peer => peer.rank = irank with
    | none => stream
    | some peer =>
        if frontEnd && !recoverFromFailures then { stream with peers := [] }.close
        else { stream with peers := stream.peers.erase peer }

section Routed
variable (getOutletNode : Rank → Option PeerNode)

def addStreamPeer (irank : Rank) (stream : Stream) : Stream :=
  match getOutletNode irank with
  | none => stream
  | some outlet => { stream with peers := stream.peers.insert outlet }

/-- The loop over the end-points. -/
def outlets (endPoints : List Rank) : List PeerNode :=
  endPoints.foldl (fun peers rank =>
    match getOutletNode rank with
    | none => peers
    | some outlet => peers.insert outlet) []

def recomputeChildrenNodes (stream : Stream) : Stream :=
  if stream.closed then stream
  else { stream with peers := outlets getOutletNode stream.endPoints }

end Routed

lemma mem_outlets (f : Rank → Option PeerNode) (endPoints : List Rank) (peer : PeerNode) :
    peer ∈ outlets f endPoints ↔ ∃ e ∈ endPoints, f e = some peer := by
  have hloop : ∀ peers : List PeerNode,
      peer ∈ endPoints.foldl (fun peers rank =>
        match f rank with
        | none => peers
        | some outlet => peers.insert outlet) peers ↔
      peer ∈ peers ∨ ∃ e ∈ endPoints, f e = some peer := by
    induction endPoints with
    | nil => simp
    | cons e es ih =>
        intro peers
        rw [List.foldl_cons, ih, List.exists_mem_cons_iff]
        cases he : f e with
        | none => simp
        | some outlet =>
            simp only [List.mem_insert_iff, Option.some.injEq]
            tauto
  exact (hloop []).trans (by simp)

/-- Every outlet is found once. -/
lemma nodup_outlets (f : Rank → Option PeerNode) (endPoints : List Rank) :
    (outlets f endPoints).Nodup := by
  have hloop : ∀ peers : List PeerNode, peers.Nodup →
      (endPoints.foldl (fun peers rank =>
        match f rank with
        | none => peers
        | some outlet => peers.insert outlet) peers).Nodup := by
    induction endPoints with
    | nil => exact fun peers hpeers => hpeers
    | cons e es ih =>
        intro peers hpeers
        rw [List.foldl_cons]
        apply ih
        cases f e with
        | none => exact hpeers
        | some outlet => exact hpeers.insert
  exact hloop [] List.nodup_nil

end Stream
end MRNet.StreamPeers
