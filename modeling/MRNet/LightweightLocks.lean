import MRNet.LightweightGraph
import MRNet.LightweightMap
import MRNet.LockedUpdates
import MRNet.VectorErasure

/-!
# The operations of the lightweight topology with their lock

Translation of the functions of the lightweight `NetworkTopology.c` with the calls of
`NetworkTopology_lock` and `NetworkTopology_unlock`, as they are compiled for threads. All of
them give the lock back as often as they take it but one: for a rank that is not found,
`NetworkTopology_remove_Node` returns while it holds the lock.
-/
namespace MRNet.LockedTopology.Lightweight
open Codec RecursiveLock MRNet.Topology
open LightweightMap (MrnMap)
open LightweightVector (skimmed)
open SerialGraph (Text Port unknownPort)
open Wire (Run)
open WaitForAll (Rank)

/-- The nodes are found by a map of their ranks, and of the topology only the objects, the root
and the vectors are used. At a debug level of five or more its text is printed. -/
structure Process where
  topology : NetworkTopology
  nodes : MrnMap Ptr
  serialGraph : Text
  statistics : TreeStatistics
  localHost : Text
  localPort : Port
  localRank : Rank
  debugging : Bool

abbrev Op := Locking Stop Process

/-- A rank is cast to an `int`. -/
def key (irank : Rank) : LightweightMap.Key := ⟨irank.toInt, by
  have hle := irank.le_toInt
  have hlt := irank.toInt_lt
  exact ⟨hle, hlt⟩⟩

/-- A loop that did not end is no run that returns. -/
def ended {α : Type} (r : Run α) : Outcome α :=
  match r.run with
  | none => .error .refused
  | some result => result

def topology : Op NetworkTopology := look (·.topology)

def update (f : NetworkTopology → Outcome NetworkTopology) : Op Unit := change fun s => do
  let t ← f s.topology
  return { s with topology := t }

def deref (p : Ptr) : Op Node := consult (·.topology.deref p)

def extend (f : Text → Text) : Op Unit := change fun s =>
  .ok { s with serialGraph := f s.serialGraph }

/-- An element is pushed to a vector that does not have it. -/
def pushNew (l : List Ptr) (p : Ptr) : List Ptr := if p ∈ l then l else l ++ [p]

section Fuel
variable (fuel : ℕ)

/-- `get_val` for a rank. -/
def Process.getVal (s : Process) (irank : Rank) : Outcome (Option Ptr) :=
  ended (LightweightMap.getVal fuel s.nodes (key irank))

def findNode (irank : Rank) : Op (Option Ptr) := guarded (consult (·.getVal fuel irank))

def getNumNodes : Op ℕ := guarded (look (·.nodes.size))

def getRoot : Op (Option Ptr) := guarded (look (·.topology.root))

def isInTopology (ihostname : Text) (iport : Port) (irank : Rank) : Op Bool := do
  match ← findNode fuel irank with
  | none => return false
  | some tmp => do
      let node ← deref tmp
      return decide (ihostname = node.hostName) &&
        (decide (iport = unknownPort) || decide (node.port = unknownPort) ||
          decide (iport = node.port))

def newNode (hostName : Text) (port : Port) (rank : Rank) (isBackEnd : Bool) : Op Ptr :=
  guarded (act fun s => do
    let node := s.topology.nextPtr
    let t := s.topology.newObject (Node.create hostName port rank isBackEnd)
    let nodes ← ended (LightweightMap.insert fuel s.nodes (key rank) (some node))
    let backEndNodes := if isBackEnd then pushNew t.backEndNodes node else t.backEndNodes
    return (node, { s with topology := { t with backEndNodes }, nodes }))

/-- `NetworkTopology_Node_add_Child`. -/
def addChild (node : Node) (child : Ptr) : Node :=
  { node with isBackEnd := false, children := node.children ++ [child] }

/-- `NetworkTopology_Node_remove_Child`. -/
def removeChild (node : Node) (child : Ptr) : Node :=
  { node with children := skimmed child node.children }

/-- A node that has a parent leaves its children. -/
def leaveParent (t : NetworkTopology) (inode : Ptr) : Outcome NetworkTopology := do
  let node ← t.deref inode
  match node.parent with
  | none => return t
  | some parent => t.modify parent (removeChild · inode)

def removeOrphan (r : Rank) : Op Bool := do
  lock
  match ← consult (·.getVal fuel r) with
  | none => do
      unlock
      return false
  | some node => do
      update fun t => .ok { t with orphans := skimmed node t.orphans }
      unlock
      return true

/-- The ascendants of the parent are copied one by one. -/
def copyAscendants (t : NetworkTopology) (child newParent : Ptr) : Outcome NetworkTopology := do
  let t ← t.modify child fun node => { node with ascendants := [] }
  let newParentNode ← t.deref newParent
  t.modify child fun node =>
    { node with ascendants := pushNew newParentNode.ascendants newParent }

/-- The lock is taken by the calls only. -/
def setParent (ichildRank inewParentRank : Rank) : Op Bool := do
  match ← findNode fuel ichildRank with
  | none => return false
  | some child => do
      match ← findNode fuel inewParentRank with
      | none => return false
      | some newParent => do
          update (leaveParent · child)
          update (·.modify child (·.setParent (some newParent)))
          update (·.modify newParent (addChild · child))
          let childNode ← deref child
          drop (removeOrphan fuel childNode.rank)
          update (copyAscendants · child newParent)
          return true

/-- The first of the parents with a rank. -/
def parentWith (t : NetworkTopology) (rank : Rank) : List Ptr → Outcome (Option Ptr)
  | [] => return none
  | p :: parentNodes => do
      let node ← t.deref p
      if node.rank = rank then return some p else parentWith t rank parentNodes

/-- The children of a node that is removed are pushed to the orphans. -/
def orphanChildren (inode : Ptr) (t : NetworkTopology) (child : Ptr) : Outcome NetworkTopology := do
  let childNode ← t.deref child
  if childNode.parent = some inode then do
    let t ← t.modify child (·.setParent none)
    return { t with orphans := t.orphans ++ [child] }
  else return t

/-- What `NetworkTopology_remove_Node_2` does while it holds the lock. -/
def Process.removeObject (s : Process) (inode : Ptr) : Outcome Process := do
  let node ← s.topology.deref inode
  let root := if s.topology.root = some inode then none else s.topology.root
  let nodes ← ended (LightweightMap.erase fuel s.nodes (key node.rank))
  let t := { s.topology with root, orphans := skimmed inode s.topology.orphans }
  let t ←
    if node.isBackEnd then pure { t with backEndNodes := skimmed inode t.backEndNodes }
    else do
      let found ← parentWith t node.rank t.parentNodes
      pure { t with
        parentNodes := found.elim t.parentNodes fun p => skimmed p t.parentNodes }
  let t ← node.children.foldlM (orphanChildren inode) t
  return { s with topology := t.delete inode, nodes }

/-- `NetworkTopology_remove_Node_2`. -/
def removeObject (inode : Ptr) : Op Bool := do
  guarded (change (·.removeObject fuel inode))
  return true

/-- For a rank that is not found the lock is not released. -/
def removeNode (irank : Rank) : Op Bool := do
  lock
  match ← findNode fuel irank with
  | none => return false
  | some nodeToRemove => do
      update (·.modify nodeToRemove fun node => { node with failed := true })
      update (leaveParent · nodeToRemove)
      let retval ← removeObject fuel nodeToRemove
      unlock
      return retval

/-- The lock is taken by the calls only. -/
def removeSubGraph : ℕ → Ptr → Op Unit
  | 0, _ => stop (.fault .storePast)
  | levels + 1, inode => do
      let node ← deref inode
      node.children.forM fun curNode => do
        if curNode = inode then stop (.fault .assertion)
        else do
          removeSubGraph levels curNode
          drop (removeObject fuel curNode)
      update (·.modify inode fun node => { node with children := [] })

def serialize : ℕ → Ptr → Op Unit
  | 0, _ => stop (.fault .storePast)
  | levels + 1, inode => do
      lock
      let node ← deref inode
      if node.isBackEnd then do
        extend fun graph => SerialGraph.addLeaf graph node.hostName node.port node.rank
        unlock
      else do
        extend fun graph => SerialGraph.addSubTreeRoot graph node.hostName node.port node.rank
        node.children.forM fun child =>
          if child = inode then stop (.fault .assertion) else serialize levels child
        extend SerialGraph.endSubTree
        unlock

/-- A new graph is written from the root. -/
def serializeRoot : Op Unit := do
  extend fun _ => []
  let t ← topology
  match t.root with
  | none => stop (.fault .nullPointer)
  | some root => serialize fuel root

def getTopologyStringPtr : Op Text := guarded do
  serializeRoot fuel
  look (·.serialGraph)

/-- A subtree that is not found is not tested. -/
def getLocalSubTreeStringPtr : Op Text := guarded do
  serializeRoot fuel
  let mySubgraph ← consult fun s =>
    SerialGraph.Lightweight.getMySubTree s.serialGraph s.localHost s.localPort s.localRank
  match mySubgraph with
  | none => stop (.fault .nullPointer)
  | some text => return text

/-- The node of the root of a graph, which is created if it is not known. -/
def graphRoot (isg : Text) : Op Ptr := do
  let rank ← consult fun _ => SerialGraph.Lightweight.getRootRank isg
  match ← findNode fuel rank with
  | some node => return node
  | none => do
      let host ← consult fun _ => SerialGraph.Lightweight.getRootHostName isg
      let port ← consult fun _ => SerialGraph.Lightweight.getRootPort isg
      let isBackEnd ← consult fun _ => SerialGraph.Lightweight.isRootBackEnd isg
      newNode fuel host port rank isBackEnd

def addSubGraph : ℕ → Ptr → Text → Op Bool
  | 0, _, _ => stop (.fault .storePast)
  | levels + 1, inode, isg => guarded do
      update fun t => .ok { t with parentNodes := pushNew t.parentNodes inode }
      let node ← graphRoot fuel isg
      let curNode ← deref node
      let inodeNode ← deref inode
      drop (setParent fuel curNode.rank inodeNode.rank)
      let kids ← consult fun _ => SerialGraph.Lightweight.getChildren isg
      kids.forM fun kid => drop (addSubGraph levels node kid)
      return true

/-- The loop of `reset` over the children of the root. -/
def addSubGraphs (root : Ptr) : List Text → Op Bool
  | [] => return true
  | curSg :: rest => do
      let added ← addSubGraph fuel fuel root curSg
      if added then addSubGraphs root rest else return false

/-- Every node that is listed is deleted. -/
def Process.deleteNodes (s : Process) : Outcome Process := do
  let t ← s.nodes.listed.foldlM
    (fun t k => do
      let node ← ended (LightweightMap.getVal fuel s.nodes k)
      return node.elim t t.delete) s.topology
  return { s with topology := t, nodes := LightweightMap.newMapT Ptr }

def reset (isg : Text) : Op Bool := do
  lock
  extend fun _ => isg
  change (·.deleteNodes fuel)
  update fun t => .ok { t with root := none, orphans := [], backEndNodes := [] }
  if isg = [] then do
    unlock
    return true
  else do
    let host ← consult fun _ => SerialGraph.Lightweight.getRootHostName isg
    let port ← consult fun _ => SerialGraph.Lightweight.getRootPort isg
    let rank ← consult fun _ => SerialGraph.Lightweight.getRootRank isg
    let isBackEnd ← consult fun _ => SerialGraph.Lightweight.isRootBackEnd isg
    let root ← newNode fuel host port rank isBackEnd
    update fun t => .ok { t with root := some root }
    let kids ← consult fun _ => SerialGraph.Lightweight.getChildren isg
    let added ← addSubGraphs fuel root kids
    unlock
    return added

/-- `new_NetworkTopology_t`. -/
def create (ihostname : Text) (iport : Port) (irank : Rank) (isBackEnd : Bool) : Op Unit := do
  change fun s => .ok { s with
    topology := .empty, nodes := LightweightMap.newMapT Ptr, serialGraph := [] }
  let root ← newNode fuel ihostname iport irank isBackEnd
  update fun t => .ok { t with root := some root }

/-- `delete_NetworkTopology_t`. -/
def delete : Op Unit := guarded do
  change (·.deleteNodes fuel)
  update fun t => .ok { t with orphans := [], backEndNodes := [], parentNodes := [] }
  extend fun _ => []

/-- `new_TopologyLocalInfo_t`: the local node. -/
def newTopologyLocalInfo (node : Option Ptr) : Op (Option Ptr) := guarded (return node)

/-- The name of a node is copied to a buffer of 256 characters. -/
def bufferedLabel (node : Node) : Outcome Text :=
  if (label node).length + 1 > 256 then .error (.fault .storePast) else return label node

/-- The lines of `NetworkTopology_print` for one node; the root has some if it has no
children. -/
def debugEntry (t : NetworkTopology) (p : Ptr) : Outcome Text := do
  let node ← t.deref p
  if t.root ≠ some p ∧ node.children = [] then return []
  else do
    let parentStr ← bufferedLabel node
    let childStrs ← node.children.mapM fun child => do
      let childNode ← t.deref child
      bufferedLabel childNode
    return parentStr ++ [' ', '=', '>', '\n'] ++
      (childStrs.map fun childStr => ['\t'] ++ childStr ++ ['\n']).flatten ++ ['\n']

def print : Op Text := guarded (consult fun s => do
  let parts ← s.nodes.listed.mapM fun k => do
    match ← ended (LightweightMap.getVal fuel s.nodes k) with
    | none => .error (.fault .nullPointer)
    | some p => debugEntry s.topology p
  return parts.flatten)

/-- The lock is not taken. -/
def computeTreeStatistics : Op Unit := change fun s => do
  let (t, statistics) ← s.topology.computeTreeStatistics
  return { s with topology := t, statistics }

def computeAdoptionScores (iadopters : List Ptr) (orphan : Ptr) : Op (List ScoreTerms) :=
  guarded do
    computeTreeStatistics
    iadopters.mapM fun iadopter => consult fun s => s.topology.scoreTerms orphan iadopter

/-- The search from a node. -/
def findPotentialAdopters (iorphan : Ptr) (ipotentialAdopter : Option Ptr) : Op (List Ptr) :=
  consult fun s => { s.topology with root := ipotentialAdopter }.adoptersOf iorphan

section Choosing
variable (keeps : TreeStatistics → List ScoreTerms → Ptr → Ptr → Bool)
variable (ichildRank : Rank) (ialgorithm : Algorithm)

/-- The first attempt. Without an adopter the process exits. -/
def findAdopter : Op (Option Ptr) := do
  match ← findNode fuel ichildRank with
  | none => stop (.fault .assertion)
  | some orphan => do
      let t ← topology
      match ← findPotentialAdopters orphan t.root with
      | [] => do
          unlock
          stop .refused
      | adopter :: adopters =>
          match ialgorithm with
          | .random => stop (.fault .assertion)
          | .sortedRR => stop (.fault .assertion)
          | .wrs => do
              let terms ← computeAdoptionScores (adopter :: adopters) orphan
              let statistics ← look (·.statistics)
              unlock
              return some (adopters.foldl
                (fun best cur => if keeps statistics terms best cur then best else cur) adopter)

/-- The adopters are kept in a local vector. -/
def findNewParent (inumAttempts : ℕ) : Op (Option Ptr) := do
  let potentialAdopters : List Ptr := []
  lock
  if inumAttempts > 0 then
    if inumAttempts ≥ potentialAdopters.length then do
      unlock
      return none
    else do
      unlock
      return potentialAdopters[inumAttempts]?
  else findAdopter fuel keeps ichildRank ialgorithm

end Choosing

def debugTopology : Op Unit := do
  let debugging ← look (·.debugging)
  whenever debugging (drop (getTopologyStringPtr fuel))

def addNode (rprank rcrank : Rank) (rchost : Text) (rcport : Port) (isBackEnd : Bool) :
    Op Unit := do
  match ← findNode fuel rcrank with
  | some _ => return ()
  | none => do
      drop (newNode fuel rchost rcport rcrank isBackEnd)
      drop (setParent fuel rcrank rprank)
      debugTopology fuel

def addBackEnd (rprank rcrank : Rank) (rchost : Text) (rcport : Port) : Op Unit :=
  addNode fuel rprank rcrank rchost rcport true

def addInternalNode (rprank rcrank : Rank) (rchost : Text) (rcport : Port) : Op Unit :=
  addNode fuel rprank rcrank rchost rcport false

/-- The node is not tested before its port is stored. -/
def changePort (rcrank : Rank) (rcport : Port) : Op Unit :=
  if rcport = unknownPort then return ()
  else do
    match ← findNode fuel rcrank with
    | none => stop (.fault .nullPointer)
    | some updateNode => update (·.modify updateNode (·.setPort rcport))

end Fuel

/-- The functions of a topology. The fuel is that of all loops and recursions. -/
inductive Call where
  | create (ihostname : Text) (iport : Port) (irank : Rank) (isBackEnd : Bool)
  | delete
  | getNumNodes
  | getRoot
  | findNode (irank : Rank)
  | isInTopology (ihostname : Text) (iport : Port) (irank : Rank)
  | getTopologyStringPtr
  | getLocalSubTreeStringPtr
  | serialize (inode : Ptr)
  | reset (isg : Text)
  | removeObject (inode : Ptr)
  | removeNode (irank : Rank)
  | setParent (ichildRank inewParentRank : Rank)
  | removeOrphan (r : Rank)
  | addSubGraph (inode : Ptr) (isg : Text)
  | removeSubGraph (inode : Ptr)
  | print
  | findNewParent (ichildRank : Rank) (inumAttempts : ℕ) (ialgorithm : Algorithm)
  | computeAdoptionScores (iadopters : List Ptr) (orphan : Ptr)
  | computeTreeStatistics
  | findPotentialAdopters (iorphan : Ptr) (ipotentialAdopter : Option Ptr)
  | addBackEnd (rprank rcrank : Rank) (rchost : Text) (rcport : Port)
  | addInternalNode (rprank rcrank : Rank) (rchost : Text) (rcport : Port)
  | changePort (rcrank : Rank) (rcport : Port)
  | newNode (hostName : Text) (port : Port) (rank : Rank) (isBackEnd : Bool)
  | newTopologyLocalInfo (node : Option Ptr)

section Calls
variable (fuel : ℕ) (keeps : TreeStatistics → List ScoreTerms → Ptr → Ptr → Bool)

def perform : Call → Op Unit
  | .create ihostname iport irank isBackEnd => create fuel ihostname iport irank isBackEnd
  | .delete => delete fuel
  | .getNumNodes => drop getNumNodes
  | .getRoot => drop getRoot
  | .findNode irank => drop (findNode fuel irank)
  | .isInTopology ihostname iport irank => drop (isInTopology fuel ihostname iport irank)
  | .getTopologyStringPtr => drop (getTopologyStringPtr fuel)
  | .getLocalSubTreeStringPtr => drop (getLocalSubTreeStringPtr fuel)
  | .serialize inode => serialize fuel inode
  | .reset isg => drop (reset fuel isg)
  | .removeObject inode => drop (removeObject fuel inode)
  | .removeNode irank => drop (removeNode fuel irank)
  | .setParent ichildRank inewParentRank => drop (setParent fuel ichildRank inewParentRank)
  | .removeOrphan r => drop (removeOrphan fuel r)
  | .addSubGraph inode isg => drop (addSubGraph fuel fuel inode isg)
  | .removeSubGraph inode => removeSubGraph fuel fuel inode
  | .print => drop (print fuel)
  | .findNewParent ichildRank inumAttempts ialgorithm =>
      drop (findNewParent fuel keeps ichildRank ialgorithm inumAttempts)
  | .computeAdoptionScores iadopters orphan => drop (computeAdoptionScores iadopters orphan)
  | .computeTreeStatistics => computeTreeStatistics
  | .findPotentialAdopters iorphan ipotentialAdopter =>
      drop (findPotentialAdopters iorphan ipotentialAdopter)
  | .addBackEnd rprank rcrank rchost rcport => addBackEnd fuel rprank rcrank rchost rcport
  | .addInternalNode rprank rcrank rchost rcport =>
      addInternalNode fuel rprank rcrank rchost rcport
  | .changePort rcrank rcport => changePort fuel rcrank rcport
  | .newNode hostName port rank isBackEnd => drop (newNode fuel hostName port rank isBackEnd)
  | .newTopologyLocalInfo node => drop (newTopologyLocalInfo node)

/-- The removal of a rank for which no node is found. -/
def Call.forgets (c : Call) (s : Process) : Bool :=
  match c with
  | .removeNode irank =>
      match s.getVal fuel irank with
      | .ok none => true
      | _ => false
  | _ => false

end Calls

lemma balanced_update (f : NetworkTopology → Outcome NetworkTopology) : Balanced (update f) :=
  balanced_change _

lemma balanced_deref (p : Ptr) : Balanced (deref p) := balanced_consult _

lemma balanced_extend (f : Text → Text) : Balanced (extend f) := balanced_change _

section Balances
variable (fuel : ℕ)

lemma balanced_findNode (irank : Rank) : Balanced (findNode fuel irank) :=
  (balanced_consult _).guarded

lemma balanced_isInTopology (ihostname : Text) (iport : Port) (irank : Rank) :
    Balanced (isInTopology fuel ihostname iport irank) := by
  refine (balanced_findNode fuel irank).bind fun tmp => ?_
  cases tmp with
  | none => exact balanced_pure _
  | some tmp => exact (balanced_deref tmp).bind fun node => balanced_pure _

lemma balanced_newNode (hostName : Text) (port : Port) (rank : Rank) (isBackEnd : Bool) :
    Balanced (newNode fuel hostName port rank isBackEnd) := (balanced_act _).guarded

lemma balanced_removeOrphan (r : Rank) : Balanced (removeOrphan fuel r) := by
  refine balanced_lock fun a => (balanced_consult _).then_ fun node => ?_
  cases node with
  | none => exact moves_leave (balanced_pure _)
  | some node => exact (balanced_update _).then_ fun _ => moves_leave (balanced_pure _)

lemma balanced_setParent (ichildRank inewParentRank : Rank) :
    Balanced (setParent fuel ichildRank inewParentRank) := by
  refine (balanced_findNode fuel ichildRank).bind fun child => ?_
  cases child with
  | none => exact balanced_pure _
  | some child =>
      refine (balanced_findNode fuel inewParentRank).bind fun newParent => ?_
      cases newParent with
      | none => exact balanced_pure _
      | some newParent =>
          refine (balanced_update _).bind fun _ => (balanced_update _).bind fun _ => ?_
          refine (balanced_update _).bind fun _ => (balanced_deref child).bind fun childNode => ?_
          refine (balanced_removeOrphan fuel childNode.rank).drop.bind fun _ => ?_
          exact (balanced_update _).bind fun _ => balanced_pure _

lemma balanced_removeObject (inode : Ptr) : Balanced (removeObject fuel inode) :=
  (balanced_change _).guarded.bind fun _ => balanced_pure _

lemma balanced_removeSubGraph (levels : ℕ) (inode : Ptr) :
    Balanced (removeSubGraph fuel levels inode) := by
  induction levels generalizing inode with
  | zero => exact balanced_stop _
  | succ levels ih =>
      refine (balanced_deref inode).bind fun node => ?_
      refine Balanced.bind (balanced_forM fun curNode _ => ?_) fun _ => balanced_update _
      refine (balanced_stop _).ite ?_
      exact (ih curNode).bind fun _ => (balanced_removeObject fuel curNode).drop

lemma balanced_serialize (levels : ℕ) (inode : Ptr) : Balanced (serialize levels inode) := by
  induction levels generalizing inode with
  | zero => exact balanced_stop _
  | succ levels ih =>
      refine balanced_lock fun a => (balanced_deref inode).then_ fun node => Moves.ite ?_ ?_
      · exact (balanced_extend _).then_ fun _ => moves_unlock
      · have hchildren : ∀ child ∈ node.children,
            Balanced (if child = inode then stop (.fault .assertion) else serialize levels child) :=
          fun child _ => (balanced_stop _).ite (ih child)
        refine (balanced_extend _).then_ fun _ => (balanced_forM hchildren).then_ fun _ => ?_
        exact (balanced_extend _).then_ fun _ => moves_unlock

lemma balanced_serializeRoot : Balanced (serializeRoot fuel) := by
  refine (balanced_extend _).bind fun _ => (balanced_look _).bind fun t => ?_
  cases t.root with
  | none => exact balanced_stop _
  | some root => exact balanced_serialize fuel root

lemma balanced_getTopologyStringPtr : Balanced (getTopologyStringPtr fuel) :=
  ((balanced_serializeRoot fuel).bind fun _ => balanced_look _).guarded

lemma balanced_getLocalSubTreeStringPtr : Balanced (getLocalSubTreeStringPtr fuel) := by
  apply Balanced.guarded
  refine (balanced_serializeRoot fuel).bind fun _ => (balanced_consult _).bind fun mySubgraph => ?_
  cases mySubgraph with
  | none => exact balanced_stop _
  | some text => exact balanced_pure _

lemma balanced_graphRoot (isg : Text) : Balanced (graphRoot fuel isg) := by
  refine (balanced_consult _).bind fun rank => (balanced_findNode fuel rank).bind fun node => ?_
  cases node with
  | some node => exact balanced_pure _
  | none =>
      refine (balanced_consult _).bind fun host => (balanced_consult _).bind fun port => ?_
      exact (balanced_consult _).bind fun isBackEnd => balanced_newNode fuel host port rank isBackEnd

lemma balanced_addSubGraph (levels : ℕ) (inode : Ptr) (isg : Text) :
    Balanced (addSubGraph fuel levels inode isg) := by
  induction levels generalizing inode isg with
  | zero => exact balanced_stop _
  | succ levels ih =>
      apply Balanced.guarded
      refine (balanced_update _).bind fun _ => (balanced_graphRoot fuel isg).bind fun node => ?_
      refine (balanced_deref node).bind fun curNode => (balanced_deref inode).bind fun inodeNode => ?_
      refine (balanced_setParent fuel _ _).drop.bind fun _ => (balanced_consult _).bind fun kids => ?_
      exact (balanced_forM fun kid _ => (ih node kid).drop).bind fun _ => balanced_pure _

lemma balanced_addSubGraphs (root : Ptr) (kids : List Text) :
    Balanced (addSubGraphs fuel root kids) := by
  induction kids with
  | nil => exact balanced_pure _
  | cons kid kids ih =>
      exact (balanced_addSubGraph fuel fuel root kid).bind fun added => ih.ite (balanced_pure _)

lemma balanced_reset (isg : Text) : Balanced (reset fuel isg) := by
  refine balanced_lock fun a => (balanced_extend _).then_ fun _ => ?_
  refine (balanced_change _).then_ fun _ => (balanced_update _).then_ fun _ => ?_
  refine Moves.ite (moves_leave (balanced_pure _)) ?_
  refine (balanced_consult _).then_ fun host => (balanced_consult _).then_ fun port => ?_
  refine (balanced_consult _).then_ fun rank => (balanced_consult _).then_ fun isBackEnd => ?_
  refine (balanced_newNode fuel host port rank isBackEnd).then_ fun root => ?_
  refine (balanced_update _).then_ fun _ => (balanced_consult _).then_ fun kids => ?_
  exact (balanced_addSubGraphs fuel root kids).then_ fun added => moves_leave (balanced_pure _)

lemma balanced_create (ihostname : Text) (iport : Port) (irank : Rank) (isBackEnd : Bool) :
    Balanced (create fuel ihostname iport irank isBackEnd) := by
  refine (balanced_change _).bind fun _ => ?_
  exact (balanced_newNode fuel ihostname iport irank isBackEnd).bind fun _ => balanced_update _

lemma balanced_delete : Balanced (delete fuel) :=
  ((balanced_change _).bind fun _ => (balanced_update _).bind fun _ => balanced_extend _).guarded

lemma balanced_computeTreeStatistics : Balanced computeTreeStatistics := balanced_change _

lemma balanced_computeAdoptionScores (iadopters : List Ptr) (orphan : Ptr) :
    Balanced (computeAdoptionScores iadopters orphan) :=
  ((balanced_change _).bind fun _ => balanced_mapM fun _ _ => balanced_consult _).guarded

section Choosing
variable (keeps : TreeStatistics → List ScoreTerms → Ptr → Ptr → Bool)
variable (ichildRank : Rank) (ialgorithm : Algorithm)

lemma moves_findAdopter (a : ℕ) :
    Moves (a + 1) a (findAdopter fuel keeps ichildRank ialgorithm) := by
  refine (balanced_findNode fuel ichildRank).then_ fun orphan => ?_
  cases orphan with
  | none => exact moves_stop _
  | some orphan =>
      refine (balanced_look _).then_ fun t => (balanced_consult _).then_ fun adopters => ?_
      cases adopters with
      | nil => exact moves_leave (balanced_stop _)
      | cons adopter adopters =>
          cases ialgorithm with
          | random => exact moves_stop _
          | sortedRR => exact moves_stop _
          | wrs =>
              refine (balanced_computeAdoptionScores _ orphan).then_ fun terms => ?_
              exact (balanced_look _).then_ fun statistics => moves_leave (balanced_pure _)

lemma balanced_findNewParent (inumAttempts : ℕ) :
    Balanced (findNewParent fuel keeps ichildRank ialgorithm inumAttempts) := by
  refine balanced_lock fun a => Moves.ite (Moves.ite ?_ ?_) ?_
  · exact moves_leave (balanced_pure _)
  · exact moves_leave (balanced_pure _)
  · exact moves_findAdopter fuel keeps ichildRank ialgorithm a

end Choosing

lemma balanced_addNode (rprank rcrank : Rank) (rchost : Text) (rcport : Port) (isBackEnd : Bool) :
    Balanced (addNode fuel rprank rcrank rchost rcport isBackEnd) := by
  have hdebug : Balanced (debugTopology fuel) := (balanced_look _).bind fun debugging =>
    (balanced_getTopologyStringPtr fuel).drop.whenever debugging
  refine (balanced_findNode fuel rcrank).bind fun n => ?_
  cases n with
  | some n => exact balanced_pure _
  | none =>
      refine (balanced_newNode fuel _ _ _ _).drop.bind fun _ => ?_
      exact (balanced_setParent fuel _ _).drop.bind fun _ => hdebug

lemma balanced_changePort (rcrank : Rank) (rcport : Port) :
    Balanced (changePort fuel rcrank rcport) := by
  refine (balanced_pure _).ite ((balanced_findNode fuel rcrank).bind fun updateNode => ?_)
  cases updateNode with
  | none => exact balanced_stop _
  | some updateNode => exact balanced_update _

/-- A rank that is looked up in vain costs the lock. -/
lemma removeNode_of_none {irank : Rank} {s : Process × ℕ}
    (hnone : s.1.getVal fuel irank = .ok none) :
    removeNode fuel irank s = .ok (false, (s.1, s.2 + 1)) := by
  have hfind : findNode fuel irank (s.1, s.2 + 1) = .ok (none, (s.1, s.2 + 1)) :=
    guarded_consult_ok_iff.mpr ⟨hnone, rfl⟩
  rw [removeNode, lock_bind]
  exact RecursiveLock.bind_ok_iff.mpr ⟨_, _, hfind, rfl⟩

lemma removeNode_keeps_of_ne {irank : Rank} {s : Process × ℕ}
    (hne : s.1.getVal fuel irank ≠ .ok none) : Keeps 0 (removeNode fuel irank) s := by
  intro x s' hx
  rw [removeNode, lock_bind] at hx
  obtain ⟨node, t, hfind, hrest⟩ := RecursiveLock.bind_ok_iff.mp hx
  obtain ⟨hval, rfl⟩ := guarded_consult_ok_iff.mp hfind
  cases node with
  | none => exact absurd hval hne
  | some node =>
      refine Balanced.then_ (a := 1) (b := 0) (balanced_update _) (fun _ => ?_) s.1 s.2 x s' hrest
      refine (balanced_update _).then_ fun _ => ?_
      exact (balanced_removeObject fuel node).then_ fun retval => moves_leave (balanced_pure _)

lemma removeNode_keeps (irank : Rank) (s : Process × ℕ) :
    Keeps ((Call.removeNode irank).forgets fuel s.1).toNat (removeNode fuel irank) s := by
  cases hval : s.1.getVal fuel irank with
  | error e =>
      have hforgets : (Call.removeNode irank).forgets fuel s.1 = false := by simp [Call.forgets, hval]
      rw [hforgets]
      exact removeNode_keeps_of_ne fuel (by simp [hval])
  | ok node =>
      cases node with
      | none =>
          have hforgets : (Call.removeNode irank).forgets fuel s.1 = true := by
            simp [Call.forgets, hval]
          rw [hforgets]
          exact keeps_of_run (removeNode_of_none fuel hval)
      | some node =>
          have hforgets : (Call.removeNode irank).forgets fuel s.1 = false := by
            simp [Call.forgets, hval]
          rw [hforgets]
          exact removeNode_keeps_of_ne fuel (by simp [hval])

/-- The functions that give the lock back in every run. -/
lemma balanced_perform (keeps : TreeStatistics → List ScoreTerms → Ptr → Ptr → Bool) (c : Call)
    (hc : ∀ irank, c ≠ .removeNode irank) : Balanced (perform fuel keeps c) := by
  cases c with
  | create ihostname iport irank isBackEnd =>
      exact balanced_create fuel ihostname iport irank isBackEnd
  | delete => exact balanced_delete fuel
  | getNumNodes => exact (balanced_look _).guarded.drop
  | getRoot => exact (balanced_look _).guarded.drop
  | findNode irank => exact (balanced_findNode fuel irank).drop
  | isInTopology ihostname iport irank =>
      exact (balanced_isInTopology fuel ihostname iport irank).drop
  | getTopologyStringPtr => exact (balanced_getTopologyStringPtr fuel).drop
  | getLocalSubTreeStringPtr => exact (balanced_getLocalSubTreeStringPtr fuel).drop
  | serialize inode => exact balanced_serialize fuel inode
  | reset isg => exact (balanced_reset fuel isg).drop
  | removeObject inode => exact (balanced_removeObject fuel inode).drop
  | removeNode irank => exact absurd rfl (hc irank)
  | setParent ichildRank inewParentRank =>
      exact (balanced_setParent fuel ichildRank inewParentRank).drop
  | removeOrphan r => exact (balanced_removeOrphan fuel r).drop
  | addSubGraph inode isg => exact (balanced_addSubGraph fuel fuel inode isg).drop
  | removeSubGraph inode => exact balanced_removeSubGraph fuel fuel inode
  | print => exact (balanced_consult _).guarded.drop
  | findNewParent ichildRank inumAttempts ialgorithm =>
      exact (balanced_findNewParent fuel keeps ichildRank ialgorithm inumAttempts).drop
  | computeAdoptionScores iadopters orphan =>
      exact (balanced_computeAdoptionScores iadopters orphan).drop
  | computeTreeStatistics => exact balanced_computeTreeStatistics
  | findPotentialAdopters iorphan ipotentialAdopter => exact (balanced_consult _).drop
  | addBackEnd rprank rcrank rchost rcport => exact balanced_addNode fuel rprank rcrank rchost rcport _
  | addInternalNode rprank rcrank rchost rcport =>
      exact balanced_addNode fuel rprank rcrank rchost rcport _
  | changePort rcrank rcport => exact balanced_changePort fuel rcrank rcport
  | newNode hostName port rank isBackEnd =>
      exact (balanced_newNode fuel hostName port rank isBackEnd).drop
  | newTopologyLocalInfo node => exact (balanced_pure _).guarded.drop

/-- A function gives the lock back but in one case. -/
lemma perform_keeps (keeps : TreeStatistics → List ScoreTerms → Ptr → Ptr → Bool) (c : Call)
    (s : Process × ℕ) : Keeps (c.forgets fuel s.1).toNat (perform fuel keeps c) s := by
  by_cases hc : ∃ irank, c = .removeNode irank
  · obtain ⟨irank, rfl⟩ := hc
    exact (removeNode_keeps fuel irank s).drop
  · have hother : ∀ irank, c ≠ .removeNode irank := fun irank heq => hc ⟨irank, heq⟩
    have hbalanced := (balanced_perform fuel keeps c hother).keeps s
    cases c with
    | removeNode irank => exact absurd rfl (hother irank)
    | _ => exact hbalanced

lemma perform_of_forgets {keeps : TreeStatistics → List ScoreTerms → Ptr → Ptr → Bool} {c : Call}
    {s : Process × ℕ} (hc : c.forgets fuel s.1 = true) :
    ∃ x s', perform fuel keeps c s = .ok (x, s') := by
  cases c with
  | removeNode irank =>
      have hnone : s.1.getVal fuel irank = .ok none := by
        rw [Call.forgets] at hc
        split at hc
        · assumption
        · cases hc
      exact ⟨(), _, RecursiveLock.bind_ok_iff.mpr ⟨_, _, removeNode_of_none fuel hnone, rfl⟩⟩
  | _ => cases hc

lemma perform_keeps_zero_iff (keeps : TreeStatistics → List ScoreTerms → Ptr → Ptr → Bool) (c : Call)
    (s : Process × ℕ) : Keeps 0 (perform fuel keeps c) s ↔ c.forgets fuel s.1 = false :=
  keeps_zero_iff (perform_keeps fuel keeps c s) (perform_of_forgets fuel)

/-- After any calls of one thread the lock is held once more for each removal of a rank that is
not found, and else as often as before. -/
theorem functions_keep_lock (keeps : TreeStatistics → List ScoreTerms → Ptr → Ptr → Bool)
    (calls : List Call) (s : Process × ℕ) :
    Keeps (forgotten (perform fuel keeps) (Call.forgets fuel) calls s)
      (calls.forM (perform fuel keeps)) s := forM_keeps (perform_keeps fuel keeps) calls s

end Balances

/-- Of all calls only two return with a lock that they took: an attempt to find a parent past
the last of the potential adopters, and the removal of a rank that is not found. -/
theorem lock_given_back_iff (sorts : Sorts) (member : LockedTopology.Call)
    (s : LockedTopology.Process × ℕ) (fuel : ℕ)
    (keeps : TreeStatistics → List ScoreTerms → Ptr → Ptr → Bool) (function : Call)
    (s' : Process × ℕ) :
    (Keeps 0 (LockedTopology.perform sorts member) s ↔ member.forgets s.1 = false) ∧
    (Keeps 0 (perform fuel keeps function) s' ↔ function.forgets fuel s'.1 = false) :=
  ⟨LockedTopology.perform_keeps_zero_iff sorts member s,
    perform_keeps_zero_iff fuel keeps function s'⟩

/-- A process that knows the front-end only. -/
def lostParent : LockedTopology.Process where
  network := {
    localRank := 1
    role := .internal
    recoverFromFailures := true
    shuttingDown := false
    parent := none
    children := []
    topology := .create ['a'] 1 0 false
    table := ∅
    streams := []
    internalStreams := []
    updatesBuffer := []
    events := [] }
  localHost := ['b']
  localPort := 2
  serialGraph := []
  potentialAdopters := []
  statistics := ⟨0, 0, 0⟩
  sent := []
  debugging := false

/-- A process without a topology. -/
def blank : Process where
  topology := .empty
  nodes := LightweightMap.newMapT Ptr
  serialGraph := []
  statistics := ⟨0, 0, 0⟩
  localHost := ['a']
  localPort := 1
  localRank := 0
  debugging := false

/-- The adopters in the order in which they were found. -/
def unsorted : Sorts where
  byRandKey := id
  byWrsKey := fun _ _ => id
  byScore := fun _ _ => id

/-- The front-end is the only adopter of node 1, which asks for another; and rank 7 is removed
from a topology of one node. -/
theorem lock_still_held :
    (∃ s, [.newNode ['b'] 2 1 false, .findNewParent 1 0 .random].forM
        (LockedTopology.perform unsorted) (lostParent, 0) = .ok ((), s) ∧
      ¬Keeps 0 (LockedTopology.perform unsorted (.findNewParent 1 1 .random)) s) ∧
    ∃ s, [.create ['a'] 1 0 false].forM (perform 10 fun _ _ _ _ => true) (blank, 0) = .ok ((), s) ∧
      ¬Keeps 0 (perform 10 (fun _ _ _ _ => true) (.removeNode 7)) s := by
  constructor
  · obtain ⟨s, hrun, hforgets⟩ := exists_run (LockedTopology.perform unsorted)
      [.newNode ['b'] 2 1 false, .findNewParent 1 0 .random] (lostParent, 0)
      (LockedTopology.Call.forgets (.findNewParent 1 1 .random)) (by decide +kernel)
    refine ⟨s, hrun, fun hkeeps => ?_⟩
    rw [LockedTopology.perform_keeps_zero_iff, hforgets] at hkeeps
    cases hkeeps
  · obtain ⟨s, hrun, hforgets⟩ := exists_run (perform 10 fun _ _ _ _ => true)
      [.create ['a'] 1 0 false] (blank, 0) (Call.forgets 10 (.removeNode 7)) (by decide +kernel)
    refine ⟨s, hrun, fun hkeeps => ?_⟩
    rw [perform_keeps_zero_iff, hforgets] at hkeeps
    cases hkeeps

end MRNet.LockedTopology.Lightweight
