import MRNet.StreamPeers
import MRNet.Subtrees

/-!
# Routing at a node

Translation of `Router`, of the members of `Network` that change the topology or send to the
children, and of the routine that applies a list of topology updates. The routing table gives
for a rank the connection to the child that leads to it.
-/
namespace MRNet.Routing
open Codec StreamPeers MRNet.Topology
open SerialGraph (Text Port unknownPort)
open WaitForAll (Rank)
open Wire (Packet)

inductive Role where
  | frontEnd
  | internal
  | backEnd
  deriving DecidableEq

namespace Role

def isLocalNodeParent : Role → Bool
  | .frontEnd | .internal => true
  | .backEnd => false

def isLocalNodeChild : Role → Bool
  | .backEnd | .internal => true
  | .frontEnd => false

end Role

inductive UpdateType where
  | newBE
  | removeRank
  | changeParent
  | changePort
  | newCP
  /-- A type that is none of the enumeration. -/
  | invalid
  deriving DecidableEq

/-- One record of a topology update packet. -/
structure Update where
  type : UpdateType
  parRank : Rank
  chldRank : Rank
  chldHost : Text
  chldPort : Port

/-- Whether the table is rebuilt at the end of the list. -/
def Update.isNew (u : Update) : Bool := decide (u.type = .newBE) || decide (u.type = .newCP)

inductive EventType where
  | addBE
  | addCP
  | removeNode
  | changeParent
  deriving DecidableEq

structure TopologyEvent where
  type : EventType
  rank : Rank
  parentRank : Rank

/-- The state of one process. -/
structure Network where
  localRank : Rank
  role : Role
  recoverFromFailures : Bool
  shuttingDown : Bool
  parent : Option PeerNode
  children : List PeerNode
  topology : NetworkTopology
  table : Finmap fun _ : Rank => PeerNode
  streams : List Stream
  internalStreams : List Stream
  updatesBuffer : List Update
  events : List TopologyEvent

/-- The number of the destinations is cut to the width of an `unsigned int`. -/
def getDestinations (p : Packet) : Option (List Rank) :=
  if p.destArr.arrayLen = 0 then none
  else some (p.destArr.data.take (p.destArr.arrayLen.setWidth 32).toNat)

/-- The peers that are sent the packet. -/
def Stream.sendToChildren (stream : Stream) (ipacket : Packet) : List PeerNode :=
  stream.peers.filter fun curNode => curNode.rank ≠ ipacket.inletRank

namespace Network

/-- The parent is not tested before its rank is read. -/
def getPeerNode (net : Network) (irank : Rank) : Outcome (Option PeerNode) :=
  let child := net.children.find? fun peer => peer.rank = irank
  if net.role.isLocalNodeChild then
    match net.parent with
    | none => .error (.fault .nullPointer)
    | some parent => return if parent.rank = irank then some parent else child
  else return child

def deletePeerNode (net : Network) (irank : Rank) : Network :=
  let isParent := net.role.isLocalNodeChild && net.parent.any fun peer => peer.rank = irank
  if isParent then { net with parent := none }
  else
    match net.children.find? fun peer => peer.rank = irank with
    | none => net
    | some peer => { net with children := net.children.erase peer }

/-- A child and everything below it is reached through the connection to the child. -/
def routeChild (net : Network) (table : Finmap fun _ : Rank => PeerNode) (child : Ptr) :
    Outcome (Finmap fun _ : Rank => PeerNode) := do
  let node ← net.topology.deref child
  let curOutlet ← net.getPeerNode node.rank
  match curOutlet with
  | none => return table
  | some outlet => do
      let descendants ← net.topology.getDescendants net.topology.levels child
      let nodes ← descendants.mapM net.topology.deref
      return (node :: nodes).foldl (fun table node => table.insert node.rank outlet) table

def updateTable (net : Network) : Outcome Network :=
  match net.topology.findNode net.localRank with
  | none => return { net with table := ∅ }
  | some localNode => do
      let node ← net.topology.deref localNode
      let table ← node.children.foldlM net.routeChild ∅
      return { net with table := table }

/-- `if( iupdate ) update_Router_Table()`. -/
def updateRouterTable (net : Network) (iupdate : Bool) : Outcome Network :=
  if iupdate then net.updateTable else return net

def getOutletNode (net : Network) (irank : Rank) : Option PeerNode := net.table.lookup irank

def isUserStreamId (id : BitVec 32) : Bool := decide (id ≥ userStrmBaseId) || decide (id < ctlStrmId)

/-- A stream to a single back-end that a front-end does not have yet would be made here. -/
def getStream (net : Network) (iid : BitVec 32) : Option Stream :=
  if iid = ctlStrmId then none
  else if isUserStreamId iid then net.streams.find? fun stream => stream.id = iid
  else net.internalStreams.find? fun stream => stream.id = iid

/-- The connections that the packet is sent over, one copy for each, or `none` for -1. A packet
for all children or all peers is not sent back to its inlet. -/
def sendPacketToChildren (net : Network) (ipacket : Packet) : Option (List PeerNode) :=
  if ipacket.streamId = ctlStrmId then
    return net.children.filter fun curNode => curNode.rank ≠ ipacket.inletRank
  else if ipacket.streamId < ctlStrmId then return (net.getOutletNode ipacket.streamId).toList
  else
    match getDestinations ipacket with
    | some dests => return dests.filterMap net.getOutletNode
    | none => do
        let strm ← net.getStream ipacket.streamId
        return Routing.Stream.sendToChildren strm ipacket

/-- Only the streams of the user are updated. -/
def updateStreams (net : Network) : Network :=
  { net with streams := net.streams.map (Stream.recomputeChildrenNodes net.getOutletNode) }

/-- The constructor of `Stream`. Only a node with children sets up peers; without end-points
these are all the children. -/
def makeStream (net : Network) (iid : BitVec 32) (ibackends : Option (List Rank)) : Stream :=
  let stream : Stream := { id := iid, endPoints := [], peers := [], closed := false }
  if net.role.isLocalNodeParent then
    match ibackends with
    | some backends =>
        { stream with endPoints := backends.dedup }.recomputeChildrenNodes net.getOutletNode
    | none => { stream with peers := net.children }
  else stream

/-- A stream takes the place of another one of its id. -/
def newStream (net : Network) (iid : BitVec 32) (ibackends : Option (List Rank)) : Network :=
  let stream := net.makeStream iid ibackends
  if isUserStreamId iid then
    { net with streams := net.streams.filter (·.id ≠ iid) ++ [stream] }
  else
    { net with internalStreams := net.internalStreams.filter (·.id ≠ iid) ++ [stream] }

def addSubGraph (net : Network) (irootRank : Rank) (isg : Text) (iupdate : Bool) :
    Outcome Network := do
  let (topology, found) ← net.topology.addSubGraph irootRank isg
  if found then do
    let net ← { net with topology := topology }.updateRouterTable iupdate
    return net.updateStreams
  else return { net with topology := topology }

def removeNode (net : Network) (ifailedRank : Rank) (iupdate : Bool) : Outcome Network := do
  let net := net.deletePeerNode ifailedRank
  let (topology, found) ← net.topology.removeNode ifailedRank
  let net ← { net with topology := topology }.updateRouterTable (found && iupdate)
  let frontEnd := decide (net.role = .frontEnd)
  let net := { net with
    streams := net.streams.map (Stream.removeNode frontEnd net.recoverFromFailures ifailedRank) }
  return if iupdate then net.updateStreams else net

/-- The streams are updated if the local node is the new parent. -/
def changeParent (net : Network) (ichildRank inewParentRank : Rank) : Outcome Network := do
  let (topology, result) ← net.topology.setParent ichildRank inewParentRank
  let net ← { net with topology := topology }.updateRouterTable
    (decide (result = NetworkTopology.Reparented.moved))
  return if result ≠ .notFound ∧ inewParentRank = net.localRank then net.updateStreams else net

/-- A front-end keeps the updates that it is sent, and runs callbacks for most of them. -/
def report (net : Network) (upstream : Bool) (update : Update) (event : Option EventType) :
    Network :=
  if upstream && decide (net.role = .frontEnd) then
    { net with
      updatesBuffer := net.updatesBuffer ++ [update]
      events := net.events ++
        event.toList.map fun type => ⟨type, update.chldRank, update.parRank⟩ }
  else net

/-- A node that is not known is made and linked to its parent, if that is known. -/
def addNode (t : NetworkTopology) (parRank chldRank : Rank) (chldHost : Text) (chldPort : Port)
    (isBackEnd : Bool) : Outcome NetworkTopology :=
  match t.findNode chldRank with
  | some _ => return t
  | none => do
      let (t, _) ← (t.newNode chldHost chldPort chldRank isBackEnd).setParent chldRank parRank
      return t

/-- What is done with the stream that carries the topology updates. -/
def mapTopolStream (net : Network) (f : Stream → Stream) : Network :=
  { net with
    internalStreams := net.internalStreams.map fun strm =>
      if strm.id = topolStrmId then f strm else strm }

def updateAddBackEnd (net : Network) (parRank chldRank : Rank) (chldHost : Text)
    (chldPort : Port) (upstream : Bool) : Outcome Network :=
  if net.shuttingDown then return net
  else do
    let topology ← addNode net.topology parRank chldRank chldHost chldPort true
    let net := { net with topology := topology }.mapTopolStream (·.addStreamEndPoint chldRank)
    return net.report upstream ⟨.newBE, parRank, chldRank, chldHost, chldPort⟩ (some .addBE)

def updateAddInternalNode (net : Network) (parRank chldRank : Rank) (chldHost : Text)
    (chldPort : Port) (upstream : Bool) : Outcome Network :=
  if net.shuttingDown then return net
  else do
    let topology ← addNode net.topology parRank chldRank chldHost chldPort false
    let net := { net with topology := topology }
    return net.report upstream ⟨.newCP, parRank, chldRank, chldHost, chldPort⟩ (some .addCP)

/-- The table is rebuilt only if the local node was the parent. -/
def updateRemoveNode (net : Network) (parRank failedChldRank : Rank) (upstream : Bool) :
    Outcome Network :=
  let update : Update := ⟨.removeRank, parRank, failedChldRank, [], unknownPort⟩
  if net.shuttingDown then return net
  else if parRank = net.localRank then do
    let net ← net.removeNode failedChldRank true
    return net.report upstream update (some .removeNode)
  else do
    let (topology, _) ← net.topology.removeNode failedChldRank
    return { net with topology := topology }.report upstream update (some .removeNode)

def updateChangeParent (net : Network) (parRank chldRank : Rank) (upstream : Bool) :
    Outcome Network :=
  if net.shuttingDown then return net
  else do
    let net ← net.changeParent chldRank parRank
    return net.report upstream ⟨.changeParent, parRank, chldRank, [], unknownPort⟩
      (some .changeParent)

/-- The node is not tested before its port is read. -/
def updateChangePort (net : Network) (rank : Rank) (port : Port) (upstream : Bool) :
    Outcome Network :=
  if net.shuttingDown then return net
  else if port = unknownPort then return net
  else
    match net.topology.findNode rank with
    | none => .error (.fault .nullPointer)
    | some updateNode => do
        let topology ← net.topology.modify updateNode (·.setPort port)
        return { net with topology := topology }.report upstream
          ⟨.changePort, Wire.unknownRank, rank, [], port⟩ none

def applyUpdate (upstream : Bool) (net : Network) (u : Update) : Outcome Network :=
  match u.type with
  | .newBE => net.updateAddBackEnd u.parRank u.chldRank u.chldHost u.chldPort upstream
  | .removeRank => net.updateRemoveNode u.parRank u.chldRank upstream
  | .changeParent => net.updateChangeParent u.parRank u.chldRank upstream
  | .changePort => net.updateChangePort u.chldRank u.chldPort upstream
  | .newCP => net.updateAddInternalNode u.parRank u.chldRank u.chldHost u.chldPort upstream
  | .invalid => return net

def updateTopoStreamPeers (net : Network) (newNodes : List Rank) : Network :=
  net.mapTopolStream fun strm =>
    newNodes.foldl (fun strm rank =>
      match net.getOutletNode rank with
      | none => strm
      | some outlet => strm.addStreamPeer net.getOutletNode outlet.rank) strm

/-- The part of `tfilter_TopoUpdate_common` that applies the records. -/
def tfilterTopoUpdateCommon (net : Network) (upstream : Bool) (us : List Update) :
    Outcome Network := do
  let net ← us.foldlM (applyUpdate upstream) net
  let net ← net.updateRouterTable (us.any Update.isNew)
  let newNodes := (us.filter (·.type = .newBE)).map Update.chldRank
  let update := upstream && !newNodes.isEmpty && decide (net.role ≠ .backEnd)
  return if update then net.updateTopoStreamPeers newNodes else net

end Network
end MRNet.Routing
