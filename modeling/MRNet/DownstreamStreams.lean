import MRNet.FifoTree
import MRNet.FilterAssignments
import MRNet.Forwarding

/-!
# Streams on their way down

The calls of the front-end that concern its streams, and what the other nodes do with the packets
that these send down. Translation of the members of `Network` and `Stream` that are called, and
of `proc_newStream`, `proc_FilterParams`, `proc_deleteStream` and `proc_DataFromParent`. A node
handles the packets from its parent by one thread, in their order. The outlets are those of the
tree.
-/
namespace MRNet.Downstream
open Forest FifoTree StreamPeers
open Wire (Packet)
open SerialGraph (Text)
open WaitForAll (Rank)
open FilterAssignments (findFilterAssignment)

inductive FilterType where
  | downstreamTrans
  | upstreamTrans
  | upstreamSync
  deriving DecidableEq

structure FilterIds where
  us : ℤ
  sync : ℤ
  ds : ℤ

/-- The filters of a new stream: the same ids at all nodes, or assignments by rank. -/
inductive Filters where
  | ids (ids : FilterIds)
  | assignments (us sync ds : Text)

/-- Calls of the user at the front-end. A stream is given by its id. -/
inductive Call where
  | newStream (backends : List Rank) (filters : Filters)
  | setFilterParameters (type : FilterType) (id : BitVec 32) (params : Packet)
  | send (id : BitVec 32) (packet : Packet)
  | delete (id : BitVec 32)

/-- Packets from the parent. -/
inductive Message where
  | newStream (id : BitVec 32) (backends : List Rank) (filters : Filters)
  | filterParams (type : FilterType) (packet : Packet)
  | deleteStream (id : BitVec 32)
  | data (packet : Packet)

inductive Item where
  | call (call : Call)
  | message (message : Message)

variable {N S : Type}

/-- A stream at a node, with the storage of its downstream filter. -/
structure Stream (N S : Type) where
  endPoints : List Rank
  peers : Finset N
  usFilterId : ℕ
  syncFilterId : ℕ
  dsFilterId : ℕ
  params : FilterType → Option Packet
  storage : S
  wasClosed : Bool
  incomingPacketBuffer : List Packet

structure NodeState (N S : Type) where
  streams : BitVec 32 → Option (Stream N S)
  nextUserStreamId : BitVec 32

/-- A filter function: the storage after it and the packets for the direction of travel. -/
abbrev FilterFunc (S : Type) := List Packet → S → Option Packet → S × List Packet

/-- The tree, which nodes are back-ends, the routing tables, and the filters that are loaded. -/
structure Network (N S : Type) where
  tree : ParentTree N
  backEnd : N → Bool
  backEnd_leaf : ∀ n c, backEnd n → tree.parent c ≠ some n
  root_frontEnd : backEnd tree.root = false
  rank : N → Rank
  rank_injective : Function.Injective rank
  getOutletNode : N → Rank → Option N
  outlet_iff : ∀ n r c, getOutletNode n r = some c ↔
    tree.parent c = some n ∧ ∃ d, rank d = r ∧ Below tree.parent d c
  filterFunc : N → ℕ → Option (FilterFunc S)
  initialStorage : S
  tfilterNull : ℤ
  sfilterWaitForAll : ℤ

def uint16Max : ℤ := 65535

/-- The ids fit into an `unsigned short`. -/
def FilterIds.InRange (ids : FilterIds) : Prop :=
  (0 ≤ ids.us ∧ ids.us ≤ uint16Max) ∧ (0 ≤ ids.sync ∧ ids.sync ≤ uint16Max) ∧
    0 ≤ ids.ds ∧ ids.ds ≤ uint16Max

instance (ids : FilterIds) : Decidable ids.InRange :=
  inferInstanceAs (Decidable (_ ∧ _))

namespace NodeState

def initial : NodeState N S := ⟨fun _ => none, userStrmBaseId⟩

/-- The entry of a stream is set or erased. -/
def set (s : NodeState N S) (id : BitVec 32) (stream : Option (Stream N S)) : NodeState N S :=
  { s with streams := Function.update s.streams id stream }

end NodeState

namespace Network
variable [Fintype N] [DecidableEq N] (net : Network N S)

def isLocalNodeInternal (n : N) : Bool := n ≠ net.tree.root && !net.backEnd n

def filterIds (n : N) : Filters → FilterIds
  | .ids ids => ids
  | .assignments us sync ds =>
      { us := (findFilterAssignment us (net.rank n)).getD net.tfilterNull
        sync := (findFilterAssignment sync (net.rank n)).getD net.sfilterWaitForAll
        ds := (findFilterAssignment ds (net.rank n)).getD net.tfilterNull }

/-- Without back-ends all children are peers. -/
def peers (n : N) : List Rank → Finset N
  | [] => net.tree.children n
  | r :: rs => ((r :: rs).filterMap (net.getOutletNode n)).toFinset

/-- `Network::new_Stream` with the constructor of `Stream`. Only a parent has end-points and
peers. -/
def newStream (n : N) (s : NodeState N S) (id : BitVec 32) (backends : List Rank)
    (ids : FilterIds) : NodeState N S :=
  s.set id <| some
    { endPoints := if net.backEnd n then [] else backends
      peers := if net.backEnd n then ∅ else net.peers n backends
      usFilterId := ids.us.toNat
      syncFilterId := ids.sync.toNat
      dsFilterId := ids.ds.toNat
      params := fun _ => none
      storage := net.initialStorage
      wasClosed := false
      incomingPacketBuffer := [] }

/-- The downstream half of `Stream::push_Packet`. A stream without a filter function hands the
packet on. -/
def pushPacket (n : N) (stream : Stream N S) (packet : Packet) : Stream N S × List Packet :=
  match net.filterFunc n stream.dsFilterId with
  | none => (stream, [packet])
  | some filter =>
      let (storage, opackets) := filter [packet] stream.storage (stream.params .downstreamTrans)
      ({ stream with storage := storage }, opackets)

/-- How often a packet of a stream goes to a child. A packet with destinations goes once for
each. -/
def copies (n : N) (s : NodeState N S) (packet : Packet) (c : N) : ℕ :=
  match Routing.getDestinations packet with
  | some dests => (dests.filter fun d => net.getOutletNode n d = some c).length
  | none =>
      match s.streams packet.streamId with
      | none => 0
      | some stream => if c ∈ stream.peers then 1 else 0

/-- `send_PacketsToChildren` with packets of streams. -/
def sendPacketsToChildren (n : N) (s : NodeState N S) (packets : List Packet) (c : N) : List Item :=
  packets.flatMap fun packet => List.replicate (net.copies n s packet c) (.message (.data packet))

/-- `ParentNode::proc_newStream`, but for internal streams. -/
def procNewStream (n : N) (s : NodeState N S) (id : BitVec 32) (backends : List Rank)
    (filters : Filters) : NodeState N S × (N → List Item) :=
  if (net.filterIds n filters).InRange then
    if id = topolStrmId then
      (if net.isLocalNodeInternal n then s
        else net.newStream n s id backends (net.filterIds n filters), fun _ => [])
    else
      (net.newStream n s id backends (net.filterIds n filters),
        fun _ => [.message (.newStream id backends filters)])
  else (s, fun _ => [])

/-- `ParentNode::proc_FilterParams`: the packet goes on before the parameters are set. -/
def procFilterParams (s : NodeState N S) (type : FilterType) (packet : Packet) :
    NodeState N S × (N → List Item) :=
  match s.streams packet.streamId with
  | none => (s, fun _ => [])
  | some stream =>
      (s.set packet.streamId <| some
          { stream with params := Function.update stream.params type (some packet) },
        fun c => if c ∈ stream.peers then [.message (.filterParams type packet)] else [])

/-- `ParentNode::proc_deleteStream` with the destructor: the packet goes on in any case. -/
def procDeleteStream (s : NodeState N S) (id : BitVec 32) : NodeState N S × (N → List Item) :=
  (s.set id none, fun _ => [.message (.deleteStream id)])

/-- A packet is pushed on a stream that is found, and what comes out goes to the children. -/
def pushDown (n : N) (s : NodeState N S) (packet : Packet) : NodeState N S × (N → List Item) :=
  match s.streams packet.streamId with
  | none => (s, fun _ => [])
  | some stream =>
      let (stream, packets) := net.pushPacket n stream packet
      let s := s.set packet.streamId (some stream)
      (s, net.sendPacketsToChildren n s packets)

/-- The constructor of a packet with a stream id, which has no destinations. -/
def newPacket (id : BitVec 32) (packet : Packet) : Packet :=
  { packet with streamId := id, destArr := Wire.CArray.empty }

/-- The front-end. A call for a stream that does not exist cannot be made. -/
def frontEnd (n : N) (s : NodeState N S) : Call → NodeState N S × (N → List Item)
  | .newStream backends filters =>
      net.procNewStream n { s with nextUserStreamId := s.nextUserStreamId + 1 } s.nextUserStreamId
        backends filters
  | .setFilterParameters type id params =>
      match s.streams id with
      | none => (s, fun _ => [])
      | some _ => procFilterParams s type (newPacket id params)
  | .send id packet =>
      match s.streams id with
      | none => (s, fun _ => [])
      | some stream =>
          if stream.wasClosed then (s, fun _ => [])
          else net.pushDown n s (packet.setStreamId id)
  | .delete id =>
      match s.streams id with
      | none => (s, fun _ => [])
      | some _ => procDeleteStream s id

/-- An internal node. -/
def internal (n : N) (s : NodeState N S) : Message → NodeState N S × (N → List Item)
  | .newStream id backends filters => net.procNewStream n s id backends filters
  | .filterParams type packet => procFilterParams s type packet
  | .deleteStream id => procDeleteStream s id
  | .data packet => net.pushDown n s packet

/-- `Network::is_UserStreamId` -/
def isUserStreamId (id : BitVec 32) : Bool := userStrmBaseId ≤ id || id < ctlStrmId

/-- A back-end. The streams of the user are closed, not deleted. -/
def backEndNode (n : N) (s : NodeState N S) : Message → NodeState N S
  | .newStream id backends filters =>
      if (net.filterIds n filters).InRange then
        net.newStream n s id backends (net.filterIds n filters)
      else s
  | .filterParams type packet =>
      match s.streams packet.streamId with
      | none => s
      | some stream =>
          s.set packet.streamId <| some
            { stream with params := Function.update stream.params type (some packet) }
  | .deleteStream id =>
      match s.streams id with
      | none => s
      | some stream =>
          if isUserStreamId id then s.set id (some { stream with wasClosed := true })
          else s.set id none
  | .data packet =>
      match s.streams packet.streamId with
      | none => s
      | some stream =>
          let (stream, opackets) := net.pushPacket n stream packet
          s.set packet.streamId <| some
            { stream with incomingPacketBuffer := stream.incomingPacketBuffer ++ opackets }

/-- The front-end takes calls, the other nodes take packets. -/
def handle (n : N) (s : NodeState N S) : Item → NodeState N S × (N → List Item)
  | .call call => if n = net.tree.root then net.frontEnd n s call else (s, fun _ => [])
  | .message message =>
      if n = net.tree.root then (s, fun _ => [])
      else if net.backEnd n then (net.backEndNode n s message, fun _ => [])
      else net.internal n s message

/-- The whole network. -/
def relay : Relay N Item (NodeState N S) where
  tree := net.tree
  initial := fun _ => .initial
  handle := net.handle

end Network

end MRNet.Downstream
