import MRNet.ParentChoice
import MRNet.RecursiveLock
import MRNet.Routing
import MRNet.TopologyText

/-!
# The operations of the topology with their lock

Translation of the members of `NetworkTopology` with the calls of `_sync.Lock` and
`_sync.Unlock`, and of the members of `Router` and `Network` that they call and that call them
again. The work on the data between these calls is that of the topology without a lock.
-/
namespace MRNet.LockedTopology
open Codec RecursiveLock Routing StreamPeers MRNet.Topology
open SerialGraph (Text Port unknownPort)
open WaitForAll (Rank)

/-- The node, what the topology keeps beside its nodes, and the topology updates that were
sent. At a debug level of five or more the text of the topology is printed. -/
structure Process where
  network : Network
  localHost : Text
  localPort : Port
  serialGraph : Text
  potentialAdopters : List Ptr
  statistics : TreeStatistics
  sent : List (List Update)
  debugging : Bool

abbrev Op := Locking Stop Process

def Process.setTopology (s : Process) (t : NetworkTopology) : Process :=
  { s with network := { s.network with topology := t } }

def topology : Op NetworkTopology := look fun s => s.network.topology

def update (f : NetworkTopology → Outcome NetworkTopology) : Op Unit := change fun s => do
  let t ← f s.network.topology
  return s.setTopology t

def updateNetwork (f : Network → Network) : Op Unit := change fun s =>
  .ok { s with network := f s.network }

def deref (p : Ptr) : Op Node := consult fun s => s.network.topology.deref p

def extend (f : Text → Text) : Op Unit := change fun s => .ok { s with serialGraph := f s.serialGraph }

def findNodeHoldingLock (irank : Rank) : Op (Option Ptr) :=
  look fun s => s.network.topology.findNode irank

def findNode (irank : Rank) : Op (Option Ptr) := guarded (findNodeHoldingLock irank)

def getRoot : Op (Option Ptr) := look fun s => s.network.topology.root

def getNumNodes : Op ℕ := guarded (look fun s => s.network.topology.nodes.keys.card)

def getBackEndNodes : Op (List Ptr) := guarded (look fun s => s.network.topology.backEndNodes)

def getParentNodes : Op (List Ptr) := guarded (look fun s => s.network.topology.parentNodes)

def getOrphanNodes : Op (List Ptr) := guarded (look fun s => s.network.topology.orphans)

def numBackEndNodes : Op ℕ := guarded (look fun s => s.network.topology.backEndNodes.length)

/-- The difference of two `size_t`. -/
def numInternalNodes : Op (BitVec 64) := guarded (look fun s =>
  BitVec.ofNat 64 s.network.topology.nodes.keys.card -
    (BitVec.ofNat 64 s.network.topology.backEndNodes.length + 1))

/-- A node that is not found is assumed to have failed. -/
def nodeFailed (irank : Rank) : Op Bool := do
  match ← findNode irank with
  | none => return true
  | some p => do
      let node ← deref p
      return node.failed

def inTopology (ihostName : Text) (iport : Port) (irank : Rank) : Op Bool := guarded do
  match ← findNodeHoldingLock irank with
  | none => return false
  | some p => do
      let node ← deref p
      return decide (ihostName = node.hostName) &&
        (decide (iport = unknownPort) || decide (node.port = unknownPort) ||
          decide (iport = node.port))

def getDescendants : ℕ → Ptr → Op (List Ptr)
  | 0, _ => stop (.fault .storePast)
  | levels + 1, inode => guarded do
      let node ← deref inode
      let parts ← node.children.mapM fun child => do
        let descendants ← getDescendants levels child
        return child :: descendants
      return parts.flatten

def getLeafDescendants : ℕ → Ptr → Op (List Ptr)
  | 0, _ => stop (.fault .storePast)
  | levels + 1, inode => guarded do
      let node ← deref inode
      let parts ← node.children.mapM fun child => do
        let childNode ← deref child
        if childNode.children ≠ [] then getLeafDescendants levels child else return [child]
      return parts.flatten

/-- The root is not tested before its children are counted. -/
def getLeaves : Op (List Ptr) := do
  match ← getRoot with
  | none => stop (.fault .nullPointer)
  | some root => do
      let node ← deref root
      if node.children = [] then return [root]
      else do
        let t ← topology
        getLeafDescendants t.levels root

/-- The host and the rank of a node. -/
def label (node : Node) : Text := node.hostName ++ [':'] ++ Nat.toDigits 10 node.rank.toNat

def quoted (text : Text) : Text := ['"'] ++ text ++ ['"']

/-- `print_DOTSubTree`. -/
def dotSubTree (t : NetworkTopology) : ℕ → Ptr → Outcome Text
  | 0, _ => .error (.fault .storePast)
  | levels + 1, inode => do
      let node ← t.deref inode
      if node.children = [] then return quoted (label node) ++ [';', '\n']
      else do
        let parts ← node.children.mapM fun child => do
          let childNode ← t.deref child
          let below ← dotSubTree t levels child
          return quoted (label node) ++ [' ', '-', '>', ' '] ++ quoted (label childNode) ++
            [';', '\n'] ++ below
        return parts.flatten

/-- The lines of `print_TopologyFile` for one node. -/
def fileEntry (t : NetworkTopology) (p : Ptr) : Outcome Text := do
  let node ← t.deref p
  let children ← node.children.mapM t.deref
  if node.children = [] then return []
  else return label node ++ [' ', '=', '>', ' ', '\n'] ++
    (children.map fun child => ['\t'] ++ label child ++ ['\n']).flatten ++ ['\t', ';', '\n', '\n']

/-- The lines of `print` for one node; the root has some if it has no children. -/
def debugEntry (t : NetworkTopology) (p : Ptr) : Outcome Text := do
  let node ← t.deref p
  let children ← node.children.mapM t.deref
  if t.root ≠ some p ∧ node.children = [] then return []
  else return label node ++ [' ', '=', '>', '\n'] ++
    (children.map fun child => ['\t'] ++ label child ++ ['\n']).flatten ++ ['\n']

/-- What a function makes of the nodes in the order of their ranks. -/
def eachNode (f : NetworkTopology → Ptr → Outcome Text) (t : NetworkTopology) : Outcome Text := do
  let parts ← t.nodes.keys.sort.mapM fun r =>
    match t.findNode r with
    | none => return []
    | some p => f t p
  return parts.flatten

/-- The file, if it can be opened. -/
def printTopologyFile (opens : Bool) : Op (Option Text) :=
  if opens then do
    let text ← guarded (consult fun s => eachNode fileEntry s.network.topology)
    return some text
  else return none

def printDOTGraph (opens : Bool) : Op (Option Text) :=
  if opens then do
    let text ← guarded (consult fun s => do
      let t := s.network.topology
      match t.root with
      | none => .error (.fault .nullPointer)
      | some root => do
          let parts ← (root :: t.orphans).mapM (dotSubTree t t.levels)
          return parts.flatten)
    return some ("digraph G\x7b\n".toList ++ text ++ ['}', '\n'])
  else return none

def print : Op Text := guarded (consult fun s => eachNode debugEntry s.network.topology)

def serialize : ℕ → Ptr → Op Unit
  | 0, _ => stop (.fault .storePast)
  | levels + 1, inode => do
      lock
      let node ← deref inode
      if node.isBackEnd then do
        extend fun graph => SerialGraph.addLeaf graph node.hostName node.port node.rank
        unlock
      else do
        extend fun graph => SerialGraph.addSubTreeRoot graph node.hostName node.port node.rank
        node.children.forM (serialize levels)
        extend SerialGraph.endSubTree
        unlock

/-- A new graph is written from the root. -/
def serializeRoot : Op Unit := do
  extend fun _ => []
  let t ← topology
  match t.root with
  | none => stop (.fault .nullPointer)
  | some root => serialize t.levels root

def getTopologyString : Op Text := guarded do
  serializeRoot
  look (·.serialGraph)

/-- Without a subtree of its own the text is empty. -/
def getLocalSubTreeString : Op Text := do
  let mySubgraph ← guarded do
    serializeRoot
    consult fun s =>
      SerialGraph.getMySubTree s.serialGraph s.localHost s.localPort s.network.localRank
  return mySubgraph.getD []

lemma balanced_topology : Balanced topology := balanced_look _

lemma balanced_update (f : NetworkTopology → Outcome NetworkTopology) : Balanced (update f) :=
  balanced_change _

lemma balanced_updateNetwork (f : Network → Network) : Balanced (updateNetwork f) :=
  balanced_change _

lemma balanced_deref (p : Ptr) : Balanced (deref p) := balanced_consult _

lemma balanced_extend (f : Text → Text) : Balanced (extend f) := balanced_change _

lemma balanced_findNode (irank : Rank) : Balanced (findNode irank) := (balanced_look _).guarded

lemma balanced_nodeFailed (irank : Rank) : Balanced (nodeFailed irank) := by
  refine (balanced_findNode irank).bind fun p => ?_
  cases p with
  | none => exact balanced_pure _
  | some p => exact (balanced_deref p).bind fun node => balanced_pure _

lemma balanced_inTopology (ihostName : Text) (iport : Port) (irank : Rank) :
    Balanced (inTopology ihostName iport irank) := by
  apply Balanced.guarded
  refine (balanced_look _).bind fun p => ?_
  cases p with
  | none => exact balanced_pure _
  | some p => exact (balanced_deref p).bind fun node => balanced_pure _

lemma balanced_getDescendants (levels : ℕ) (inode : Ptr) :
    Balanced (getDescendants levels inode) := by
  induction levels generalizing inode with
  | zero => exact balanced_stop _
  | succ levels ih =>
      apply Balanced.guarded
      refine (balanced_deref inode).bind fun node => ?_
      refine Balanced.bind (balanced_mapM fun child _ => ?_) fun parts => balanced_pure _
      exact (ih child).bind fun descendants => balanced_pure _

lemma balanced_getLeafDescendants (levels : ℕ) (inode : Ptr) :
    Balanced (getLeafDescendants levels inode) := by
  induction levels generalizing inode with
  | zero => exact balanced_stop _
  | succ levels ih =>
      apply Balanced.guarded
      refine (balanced_deref inode).bind fun node => ?_
      refine Balanced.bind (balanced_mapM fun child _ => ?_) fun parts => balanced_pure _
      exact (balanced_deref child).bind fun childNode => (ih child).ite (balanced_pure _)

lemma balanced_getLeaves : Balanced getLeaves := by
  refine (balanced_look _).bind fun root => ?_
  cases root with
  | none => exact balanced_stop _
  | some root =>
      refine (balanced_deref root).bind fun node => (balanced_pure _).ite ?_
      exact balanced_topology.bind fun t => balanced_getLeafDescendants t.levels root

lemma balanced_printTopologyFile (opens : Bool) : Balanced (printTopologyFile opens) :=
  ((balanced_consult _).guarded.bind fun _ => balanced_pure _).ite (balanced_pure _)

lemma balanced_printDOTGraph (opens : Bool) : Balanced (printDOTGraph opens) :=
  ((balanced_consult _).guarded.bind fun _ => balanced_pure _).ite (balanced_pure _)

lemma balanced_serialize (levels : ℕ) (inode : Ptr) : Balanced (serialize levels inode) := by
  induction levels generalizing inode with
  | zero => exact balanced_stop _
  | succ levels ih =>
      refine balanced_lock fun a => (balanced_deref inode).then_ fun node => Moves.ite ?_ ?_
      · exact (balanced_extend _).then_ fun _ => moves_unlock
      · refine (balanced_extend _).then_ fun _ => ?_
        refine (balanced_forM fun child _ => ih child).then_ fun _ => ?_
        exact (balanced_extend _).then_ fun _ => moves_unlock

lemma balanced_serializeRoot : Balanced serializeRoot := by
  refine (balanced_extend _).bind fun _ => balanced_topology.bind fun t => ?_
  cases t.root with
  | none => exact balanced_stop _
  | some root => exact balanced_serialize t.levels root

lemma balanced_getTopologyString : Balanced getTopologyString :=
  (balanced_serializeRoot.bind fun _ => balanced_look _).guarded

lemma balanced_getLocalSubTreeString : Balanced getLocalSubTreeString :=
  (balanced_serializeRoot.bind fun _ => balanced_consult _).guarded.bind fun _ =>
    balanced_pure _

end MRNet.LockedTopology
