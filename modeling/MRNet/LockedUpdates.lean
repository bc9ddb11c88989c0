import MRNet.LockedTopology

/-!
# Changes of the topology with their lock

Translation of the members of `NetworkTopology` that change it, with the calls of `_sync.Lock`
and `_sync.Unlock`. All of them give the lock back as often as they take it but one: without
an adopter for one more attempt, `find_NewParent` returns while it holds the lock.
-/
namespace MRNet.LockedTopology
open Codec RecursiveLock Routing StreamPeers MRNet.Topology
open SerialGraph (Text Port unknownPort)
open WaitForAll (Rank)

def setTable (table : Finmap fun _ : Rank => PeerNode) : Op Unit :=
  updateNetwork fun net => { net with table := table }

def routeChild (table : Finmap fun _ : Rank => PeerNode) (child : Ptr) :
    Op (Finmap fun _ : Rank => PeerNode) := do
  let node ← deref child
  let curOutlet ← consult fun s => s.network.getPeerNode node.rank
  match curOutlet with
  | none => return table
  | some outlet => do
      let t ← topology
      let descendants ← getDescendants t.levels child
      let nodes ← descendants.mapM deref
      return (node :: nodes).foldl (fun table node => table.insert node.rank outlet) table

/-- `Router::update_Table`. -/
def updateTable : Op Unit := do
  let localRank ← look fun s => s.network.localRank
  match ← findNode localRank with
  | none => setTable ∅
  | some localNode => do
      let node ← deref localNode
      let table ← node.children.foldlM routeChild ∅
      setTable table

def updateRouterTable : Op Unit := guarded updateTable

def getOutletNode (irank : Rank) : Op (Option PeerNode) :=
  look fun s => s.network.getOutletNode irank

def newNode (host : Text) (port : Port) (rank : Rank) (isBackEnd : Bool) : Op Bool := do
  update fun t => .ok (t.newNode host port rank isBackEnd)
  return true

def setParent (ichildRank inewParentRank : Rank) (iupdate : Bool) : Op Bool := do
  lock
  match ← findNodeHoldingLock ichildRank with
  | none => do
      unlock
      return false
  | some child => do
      match ← findNodeHoldingLock inewParentRank with
      | none => do
          unlock
          return false
      | some newParent => do
          let childNode ← deref child
          if childNode.parent = some newParent then do
            unlock
            return true
          else do
            update (·.leaveParent child)
            update (·.link child newParent)
            whenever iupdate updateRouterTable
            unlock
            return true

/-- `remove_Node` for a pointer. -/
def removeObject (inode : Ptr) : Op Bool := do
  update (·.removeObject inode)
  return true

/-- `remove_Node` for a rank. -/
def removeNode (irank : Rank) (iupdate : Bool) : Op Bool := do
  lock
  match ← findNode irank with
  | none => do
      unlock
      return false
  | some nodeToRemove => do
      update (·.modify nodeToRemove fun node => { node with failed := true })
      update (·.leaveParent nodeToRemove)
      let retval ← removeObject nodeToRemove
      whenever iupdate updateRouterTable
      unlock
      return retval

def addGraphRoot (inode : Ptr) (isg : Text) (iupdate : Bool) : Op Ptr := do
  update fun t => .ok { t with parentNodes := t.parentNodes.insert inode }
  let nodePtr ← act fun s => do
    let (t, nodePtr) ← s.network.topology.graphRoot isg
    return (nodePtr, s.setTopology t)
  let node ← deref nodePtr
  whenever node.isBackEnd
    (update fun t => .ok { t with backEndNodes := t.backEndNodes.insert nodePtr })
  let inodeNode ← deref inode
  let _ ← setParent node.rank inodeNode.rank iupdate
  return nodePtr

/-- `add_SubGraph` for a pointer. -/
def addGraph (inode : Ptr) (isg : Text) (iupdate : Bool) : Op Bool := do
  let node ← addGraphRoot inode isg iupdate
  match _hkids : SerialGraph.getChildren isg with
  | .error e => stop e
  | .ok kids => do
      kids.attach.forM fun kid => drop (addGraph node kid.1 iupdate)
      return true
termination_by isg.length
decreasing_by exact SerialGraph.getChildren_shorter _hkids kid.1 kid.2

/-- `add_SubGraph` for a rank. -/
def addSubGraph (irank : Rank) (isg : Text) (iupdate : Bool) : Op Bool := guarded do
  match ← findNode irank with
  | none => return false
  | some node => do
      let retval ← addGraph node isg false
      whenever iupdate updateRouterTable
      return retval

/-- The loop of `reset` over the children of the root. -/
def addGraphs (root : Ptr) : List Text → Op Bool
  | [] => return true
  | curSg :: rest => do
      let added ← addGraph root curSg false
      if added then addGraphs root rest else return false

def reset (itopologyStr : Text) (iupdate : Bool) : Op Bool := do
  lock
  extend fun _ => itopologyStr
  update fun t => .ok t.clear
  if itopologyStr = [] then do
    unlock
    return true
  else do
    let root ← act fun s => do
      let host ← SerialGraph.getRootHostName itopologyStr
      let port ← SerialGraph.getRootPort itopologyStr
      let rank ← SerialGraph.getRootRank itopologyStr
      let isBackEnd ← SerialGraph.isRootBackEnd itopologyStr
      let root := s.network.topology.nextPtr
      let t := s.network.topology.newObject (Node.create host port rank isBackEnd)
      return (root, s.setTopology { t with root := some root, nodes := t.nodes.insert rank root })
    let kids ← consult fun _ => SerialGraph.getChildren itopologyStr
    let added ← addGraphs root kids
    if added then do
      whenever iupdate updateRouterTable
      unlock
      return true
    else do
      unlock
      return false

/-- `~NetworkTopology`. -/
def delete : Op Unit := do
  drop (reset [] false)
  guarded (extend fun _ => [])

def computeTreeStatistics : Op Unit := guarded (change fun s => do
  let (t, statistics) ← s.network.topology.computeTreeStatistics
  return { s.setTopology t with statistics := statistics })

/-- The number of the nodes and the statistics. -/
def getTreeStatistics : Op (ℕ × TreeStatistics) := do
  computeTreeStatistics
  guarded (look fun s => (s.network.topology.nodes.keys.card, s.statistics))

def computeAdoptionScores (iadopters : List Ptr) (iorphan : Ptr) : Op (List ScoreTerms) := do
  computeTreeStatistics
  iadopters.mapM fun iadopter => consult fun s => s.network.topology.scoreTerms iorphan iadopter

/-- The adopters are added to those that were found before. -/
def findPotentialAdopters (iorphan : Ptr) : ℕ → Option Ptr → Op Unit
  | 0, _ => stop (.fault .storePast)
  | levels + 1, ipotentialAdopter => do
      lock
      let orphan ← deref iorphan
      if orphan.parent = ipotentialAdopter then unlock
      else
        match ipotentialAdopter with
        | none => stop (.fault .nullPointer)
        | some p => do
            let potentialAdopter ← deref p
            if potentialAdopter.isBackEnd then unlock
            else do
              change fun s => .ok { s with potentialAdopters := s.potentialAdopters ++ [p] }
              potentialAdopter.children.forM fun child =>
                findPotentialAdopters iorphan levels (some child)
              unlock

section Choosing
variable (sorts : Sorts) (ichildRank : Rank) (ialgorithm : Algorithm)

def sortAdopters (sorted : List Ptr → List Ptr) : Op (List Ptr) := act fun s =>
  .ok (sorted s.potentialAdopters, { s with potentialAdopters := sorted s.potentialAdopters })

/-- The choice among the potential adopters. -/
def chooseAdopter (orphan : Ptr) (potentialAdopters : List Ptr) : Op (Option Ptr) :=
  match ialgorithm with
  | .random => do
      let sorted ← sortAdopters sorts.byRandKey
      return sorted[0]?
  | .wrs => do
      let terms ← computeAdoptionScores potentialAdopters orphan
      let statistics ← look (·.statistics)
      let sorted ← sortAdopters (sorts.byWrsKey statistics terms)
      return sorted[0]?
  | .sortedRR => do
      let terms ← computeAdoptionScores potentialAdopters orphan
      let statistics ← look (·.statistics)
      let sorted ← sortAdopters (sorts.byScore statistics terms)
      let node ← deref orphan
      match node.parent with
      | none => stop (.fault .nullPointer)
      | some parent => do
          let myIdx ← consult fun s => s.network.topology.localIndex parent ichildRank
          return sorted[myIdx % sorted.length]?

/-- The first attempt. -/
def findAdopter : Op (Option Ptr) := do
  match ← findNode ichildRank with
  | none => do
      unlock
      return none
  | some orphan => do
      change fun s => .ok { s with potentialAdopters := [] }
      let t ← topology
      findPotentialAdopters orphan t.levels t.root
      let potentialAdopters ← look (·.potentialAdopters)
      if potentialAdopters = [] then do
        unlock
        return none
      else do
        let adopter ← chooseAdopter sorts ichildRank ialgorithm orphan potentialAdopters
        unlock
        return adopter

/-- Past the last of the potential adopters the lock is not released. -/
def findNewParent (inumAttempts : ℕ) : Op (Option Ptr) := do
  lock
  if inumAttempts > 0 then do
    let potentialAdopters ← look (·.potentialAdopters)
    if inumAttempts ≥ potentialAdopters.length then return none
    else do
      unlock
      return potentialAdopters[inumAttempts]?
  else findAdopter sorts ichildRank ialgorithm

end Choosing

/-- The constructor for a single node. -/
def create (hostName : Text) (port : Port) (rank : Rank) (isBackEnd : Bool) : Op Unit :=
  update fun _ => .ok (.create hostName port rank isBackEnd)

/-- The constructor for a serialized graph. -/
def createFrom (isg : Text) : Op Unit := do
  update fun _ => .ok .empty
  drop (reset isg true)

/-- Without a stream for them the updates stay in the buffer. -/
def sendUpdatesBuffer : Op Bool := do
  let shuttingDown ← look fun s => s.network.shuttingDown
  if shuttingDown then do
    guarded (updateNetwork fun net => { net with updatesBuffer := [] })
    return true
  else do
    lock
    let buffer ← look fun s => s.network.updatesBuffer
    let strm ← look fun s => s.network.internalStreams.find? (·.id = topolStrmId)
    if buffer ≠ [] ∧ strm.isSome then do
      change fun s => .ok { s with sent := s.sent ++ [buffer] }
      updateNetwork fun net => { net with updatesBuffer := [] }
      unlock
      return true
    else do
      unlock
      return false

def insertUpdatesBuffer (uc : Update) : Op Unit :=
  guarded (updateNetwork fun net => { net with updatesBuffer := net.updatesBuffer ++ [uc] })

/-- What a front-end does after an update from below. -/
def report (upstream : Bool) (uc : Update) (event : Option EventType) : Op Unit := do
  let frontEnd ← look fun s => decide (s.network.role = .frontEnd)
  whenever (upstream && frontEnd) do
    insertUpdatesBuffer uc
    updateNetwork fun net => { net with
      events := net.events ++ event.toList.map fun type => ⟨type, uc.chldRank, uc.parRank⟩ }

def debugTopology : Op Unit := do
  let debugging ← look (·.debugging)
  whenever debugging (drop getTopologyString)

def addNode (parRank chldRank : Rank) (chldHost : Text) (chldPort : Port) (isBackEnd : Bool) :
    Op Unit := do
  match ← findNode chldRank with
  | some _ => return ()
  | none => do
      drop (newNode chldHost chldPort chldRank isBackEnd)
      drop (setParent chldRank parRank false)
      debugTopology

/-- Nothing is done when the network shuts down. -/
def unlessShuttingDown (p : Op Unit) : Op Unit := do
  let shuttingDown ← look fun s => s.network.shuttingDown
  if shuttingDown then return () else p

def updateAddBackEnd (parRank chldRank : Rank) (chldHost : Text) (chldPort : Port)
    (upstream : Bool) : Op Unit := unlessShuttingDown do
  addNode parRank chldRank chldHost chldPort true
  updateNetwork fun net => net.mapTopolStream (·.addStreamEndPoint chldRank)
  report upstream ⟨.newBE, parRank, chldRank, chldHost, chldPort⟩ (some .addBE)

def updateAddInternalNode (parRank chldRank : Rank) (chldHost : Text) (chldPort : Port)
    (upstream : Bool) : Op Unit := unlessShuttingDown do
  addNode parRank chldRank chldHost chldPort false
  report upstream ⟨.newCP, parRank, chldRank, chldHost, chldPort⟩ (some .addCP)

/-- `Network::remove_Node`. -/
def networkRemoveNode (ifailedRank : Rank) (iupdate : Bool) : Op Unit := do
  updateNetwork fun net => net.deletePeerNode ifailedRank
  drop (removeNode ifailedRank iupdate)
  updateNetwork fun net => { net with
    streams := net.streams.map
      (Stream.removeNode (decide (net.role = .frontEnd)) net.recoverFromFailures ifailedRank) }
  whenever iupdate (updateNetwork fun net => net.updateStreams)

/-- The table is rebuilt only if the local node was the parent. -/
def removeBelow (parRank failedChldRank : Rank) : Op Unit := do
  let localRank ← look fun s => s.network.localRank
  if parRank = localRank then networkRemoveNode failedChldRank true
  else drop (removeNode failedChldRank false)

def updateRemoveNode (parRank failedChldRank : Rank) (upstream : Bool) : Op Unit :=
  unlessShuttingDown do
    removeBelow parRank failedChldRank
    debugTopology
    report upstream ⟨.removeRank, parRank, failedChldRank, [], unknownPort⟩ (some .removeNode)

/-- `Network::change_Parent`. -/
def networkChangeParent (ichildRank inewParentRank : Rank) : Op Unit := do
  let found ← setParent ichildRank inewParentRank true
  let localRank ← look fun s => s.network.localRank
  whenever (found && decide (inewParentRank = localRank))
    (updateNetwork fun net => net.updateStreams)

def updateChangeParent (parRank chldRank : Rank) (upstream : Bool) : Op Unit :=
  unlessShuttingDown do
    networkChangeParent chldRank parRank
    report upstream ⟨.changeParent, parRank, chldRank, [], unknownPort⟩ (some .changeParent)

/-- The node is not tested before its port is read. -/
def updateChangePort (rank : Rank) (port : Port) (upstream : Bool) : Op Unit :=
  unlessShuttingDown do
    if port = unknownPort then return ()
    else
      match ← findNode rank with
      | none => stop (.fault .nullPointer)
      | some updateNode => do
          update (·.modify updateNode (·.setPort port))
          report upstream ⟨.changePort, Wire.unknownRank, rank, [], port⟩ none

def updateTopoStreamPeers (newNodes : List Rank) : Op Unit :=
  updateNetwork fun net => net.updateTopoStreamPeers newNodes

/-- The public members. -/
inductive Call where
  | printTopologyFile (opens : Bool)
  | printDOTGraph (opens : Bool)
  | print
  | getNumNodes
  | getTreeStatistics
  | getRoot
  | findNode (irank : Rank)
  | getLeaves
  | getParentNodes
  | getOrphanNodes
  | getBackEndNodes
  | numBackEndNodes
  | numInternalNodes
  | getDescendants (inode : Ptr)
  | getLeafDescendants (inode : Ptr)
  | createFrom (isg : Text)
  | create (hostName : Text) (port : Port) (rank : Rank) (isBackEnd : Bool)
  | delete
  | addSubGraph (irank : Rank) (isg : Text) (iupdate : Bool)
  | removeNode (irank : Rank) (iupdate : Bool)
  | removeObject (inode : Ptr)
  | setParent (ichildRank inewParentRank : Rank) (iupdate : Bool)
  | reset (itopologyStr : Text) (iupdate : Bool)
  | nodeFailed (irank : Rank)
  | getOutletNode (irank : Rank)
  | getTopologyString
  | getLocalSubTreeString
  | findNewParent (ichildRank : Rank) (inumAttempts : ℕ) (ialgorithm : Algorithm)
  | computeTreeStatistics
  | newNode (host : Text) (port : Port) (rank : Rank) (isBackEnd : Bool)
  | inTopology (ihostName : Text) (iport : Port) (irank : Rank)
  | insertUpdatesBuffer (uc : Update)
  | sendUpdatesBuffer
  | updateAddBackEnd (parRank chldRank : Rank) (chldHost : Text) (chldPort : Port) (upstream : Bool)
  | updateAddInternalNode (parRank chldRank : Rank) (chldHost : Text) (chldPort : Port)
      (upstream : Bool)
  | updateChangeParent (parRank chldRank : Rank) (upstream : Bool)
  | updateChangePort (rank : Rank) (port : Port) (upstream : Bool)
  | updateRemoveNode (parRank failedChldRank : Rank) (upstream : Bool)
  | updateRouterTable
  | updateTopoStreamPeers (newNodes : List Rank)
  | serialize (inode : Ptr)

/-- A recursion may go down as many levels as there are nodes. -/
def withLevels {α : Type} (p : ℕ → Op α) : Op α := do
  let t ← topology
  p t.levels

def perform (sorts : Sorts) : Call → Op Unit
  | .printTopologyFile opens => drop (printTopologyFile opens)
  | .printDOTGraph opens => drop (printDOTGraph opens)
  | .print => drop print
  | .getNumNodes => drop getNumNodes
  | .getTreeStatistics => drop getTreeStatistics
  | .getRoot => drop getRoot
  | .findNode irank => drop (findNode irank)
  | .getLeaves => drop getLeaves
  | .getParentNodes => drop getParentNodes
  | .getOrphanNodes => drop getOrphanNodes
  | .getBackEndNodes => drop getBackEndNodes
  | .numBackEndNodes => drop numBackEndNodes
  | .numInternalNodes => drop numInternalNodes
  | .getDescendants inode => drop (withLevels fun levels => getDescendants levels inode)
  | .getLeafDescendants inode => drop (withLevels fun levels => getLeafDescendants levels inode)
  | .createFrom isg => createFrom isg
  | .create hostName port rank isBackEnd => create hostName port rank isBackEnd
  | .delete => delete
  | .addSubGraph irank isg iupdate => drop (addSubGraph irank isg iupdate)
  | .removeNode irank iupdate => drop (removeNode irank iupdate)
  | .removeObject inode => drop (removeObject inode)
  | .setParent rc rp iupdate => drop (setParent rc rp iupdate)
  | .reset itopologyStr iupdate => drop (reset itopologyStr iupdate)
  | .nodeFailed irank => drop (nodeFailed irank)
  | .getOutletNode irank => drop (getOutletNode irank)
  | .getTopologyString => drop getTopologyString
  | .getLocalSubTreeString => drop getLocalSubTreeString
  | .findNewParent ichildRank inumAttempts ialgorithm =>
      drop (findNewParent sorts ichildRank ialgorithm inumAttempts)
  | .computeTreeStatistics => computeTreeStatistics
  | .newNode host port rank isBackEnd => drop (newNode host port rank isBackEnd)
  | .inTopology ihostName iport irank => drop (inTopology ihostName iport irank)
  | .insertUpdatesBuffer uc => insertUpdatesBuffer uc
  | .sendUpdatesBuffer => drop sendUpdatesBuffer
  | .updateAddBackEnd rp rc host port upstream => updateAddBackEnd rp rc host port upstream
  | .updateAddInternalNode rp rc host port upstream =>
      updateAddInternalNode rp rc host port upstream
  | .updateChangeParent rp rc upstream => updateChangeParent rp rc upstream
  | .updateChangePort rank port upstream => updateChangePort rank port upstream
  | .updateRemoveNode rp rc upstream => updateRemoveNode rp rc upstream
  | .updateRouterTable => updateRouterTable
  | .updateTopoStreamPeers newNodes => updateTopoStreamPeers newNodes
  | .serialize inode => withLevels fun levels => serialize levels inode

/-- One more attempt to find a parent, for which there is no potential adopter. -/
def Call.forgets : Call → Process → Bool
  | .findNewParent _ inumAttempts _, s =>
      decide (0 < inumAttempts ∧ s.potentialAdopters.length ≤ inumAttempts)
  | _, _ => false

lemma balanced_routeChild (table : Finmap fun _ : Rank => PeerNode) (child : Ptr) :
    Balanced (routeChild table child) := by
  refine (balanced_deref child).bind fun node => (balanced_consult _).bind fun curOutlet => ?_
  cases curOutlet with
  | none => exact balanced_pure _
  | some outlet =>
      refine balanced_topology.bind fun t => ?_
      refine (balanced_getDescendants t.levels child).bind fun descendants => ?_
      exact (balanced_mapM fun p _ => balanced_deref p).bind fun nodes => balanced_pure _

lemma balanced_updateRouterTable : Balanced updateRouterTable := by
  apply Balanced.guarded
  refine (balanced_look _).bind fun localRank => (balanced_findNode localRank).bind fun p => ?_
  cases p with
  | none => exact balanced_updateNetwork _
  | some localNode =>
      refine (balanced_deref localNode).bind fun node => ?_
      refine (balanced_foldlM (fun table child _ => balanced_routeChild table child) ∅).bind
        fun table => ?_
      exact balanced_updateNetwork _

lemma balanced_newNode (host : Text) (port : Port) (rank : Rank) (isBackEnd : Bool) :
    Balanced (newNode host port rank isBackEnd) :=
  (balanced_update _).bind fun _ => balanced_pure _

lemma balanced_removeObject (inode : Ptr) : Balanced (removeObject inode) :=
  (balanced_update _).bind fun _ => balanced_pure _

lemma balanced_setParent (rc rp : Rank) (iupdate : Bool) :
    Balanced (setParent rc rp iupdate) := by
  refine balanced_lock fun a => (balanced_look _).then_ fun child => ?_
  cases child with
  | none => exact moves_leave (balanced_pure _)
  | some child =>
      refine (balanced_look _).then_ fun newParent => ?_
      cases newParent with
      | none => exact moves_leave (balanced_pure _)
      | some newParent =>
          refine (balanced_deref child).then_ fun childNode => Moves.ite ?_ ?_
          · exact moves_leave (balanced_pure _)
          · refine (balanced_update _).then_ fun _ => (balanced_update _).then_ fun _ => ?_
            refine (balanced_updateRouterTable.whenever iupdate).then_ fun _ => ?_
            exact moves_leave (balanced_pure _)

lemma balanced_removeNode (irank : Rank) (iupdate : Bool) : Balanced (removeNode irank iupdate) := by
  refine balanced_lock fun a => (balanced_findNode irank).then_ fun node => ?_
  cases node with
  | none => exact moves_leave (balanced_pure _)
  | some node =>
      refine (balanced_update _).then_ fun _ => (balanced_update _).then_ fun _ => ?_
      refine (balanced_removeObject node).then_ fun retval => ?_
      refine (balanced_updateRouterTable.whenever iupdate).then_ fun _ => ?_
      exact moves_leave (balanced_pure _)

lemma balanced_addGraphRoot (inode : Ptr) (isg : Text) (iupdate : Bool) :
    Balanced (addGraphRoot inode isg iupdate) := by
  refine (balanced_update _).bind fun _ => (balanced_act _).bind fun nodePtr => ?_
  refine (balanced_deref nodePtr).bind fun node => ?_
  refine ((balanced_update _).whenever _).bind fun _ => ?_
  refine (balanced_deref inode).bind fun inodeNode => ?_
  exact (balanced_setParent _ _ iupdate).bind fun _ => balanced_pure _

/-- By induction on the length of the text, since the texts of children are shorter. -/
lemma balanced_addGraph (inode : Ptr) (isg : Text) (iupdate : Bool) :
    Balanced (addGraph inode isg iupdate) := by
  induction hn : isg.length using Nat.strong_induction_on generalizing inode isg with
  | _ n ih =>
      rw [addGraph]
      refine (balanced_addGraphRoot inode isg iupdate).bind fun node => ?_
      split
      · exact balanced_stop _
      · next kids hkids =>
          refine Balanced.bind (balanced_forM fun kid _ => ?_) fun _ => balanced_pure _
          have hshort := SerialGraph.getChildren_shorter hkids kid.1 kid.2
          exact (ih _ (hn ▸ hshort) node kid.1 rfl).drop

lemma balanced_addSubGraph (irank : Rank) (isg : Text) (iupdate : Bool) :
    Balanced (addSubGraph irank isg iupdate) := by
  apply Balanced.guarded
  refine (balanced_findNode irank).bind fun node => ?_
  cases node with
  | none => exact balanced_pure _
  | some node =>
      refine (balanced_addGraph node isg false).bind fun retval => ?_
      exact (balanced_updateRouterTable.whenever iupdate).bind fun _ => balanced_pure _

lemma balanced_addGraphs (root : Ptr) (kids : List Text) : Balanced (addGraphs root kids) := by
  induction kids with
  | nil => exact balanced_pure _
  | cons kid kids ih =>
      exact (balanced_addGraph root kid false).bind fun added => ih.ite (balanced_pure _)

lemma balanced_reset (itopologyStr : Text) (iupdate : Bool) :
    Balanced (reset itopologyStr iupdate) := by
  refine balanced_lock fun a => (balanced_extend _).then_ fun _ => ?_
  refine (balanced_update _).then_ fun _ => Moves.ite (moves_leave (balanced_pure _)) ?_
  refine (balanced_act _).then_ fun root => (balanced_consult _).then_ fun kids => ?_
  refine (balanced_addGraphs root kids).then_ fun added => Moves.ite ?_ ?_
  · refine (balanced_updateRouterTable.whenever iupdate).then_ fun _ => ?_
    exact moves_leave (balanced_pure _)
  · exact moves_leave (balanced_pure _)

lemma balanced_computeTreeStatistics : Balanced computeTreeStatistics :=
  (balanced_change _).guarded

lemma balanced_computeAdoptionScores (iadopters : List Ptr) (iorphan : Ptr) :
    Balanced (computeAdoptionScores iadopters iorphan) :=
  balanced_computeTreeStatistics.bind fun _ => balanced_mapM fun _ _ => balanced_consult _

lemma balanced_findPotentialAdopters (iorphan : Ptr) (levels : ℕ) (p : Option Ptr) :
    Balanced (findPotentialAdopters iorphan levels p) := by
  induction levels generalizing p with
  | zero => exact balanced_stop _
  | succ levels ih =>
      refine balanced_lock fun a => (balanced_deref iorphan).then_ fun orphan => ?_
      refine Moves.ite moves_unlock ?_
      cases p with
      | none => exact moves_stop _
      | some p =>
          refine (balanced_deref p).then_ fun node => Moves.ite moves_unlock ?_
          refine (balanced_change _).then_ fun _ => ?_
          exact (balanced_forM fun child _ => ih (some child)).then_ fun _ => moves_unlock

section Choosing
variable (sorts : Sorts) (ichildRank : Rank) (ialgorithm : Algorithm)

lemma balanced_chooseAdopter (orphan : Ptr) (potentialAdopters : List Ptr) :
    Balanced (chooseAdopter sorts ichildRank ialgorithm orphan potentialAdopters) := by
  have hscores := balanced_computeAdoptionScores potentialAdopters orphan
  cases ialgorithm with
  | random => exact (balanced_act _).bind fun sorted => balanced_pure _
  | wrs =>
      refine hscores.bind fun terms => (balanced_look _).bind fun statistics => ?_
      exact (balanced_act _).bind fun sorted => balanced_pure _
  | sortedRR =>
      refine hscores.bind fun terms => (balanced_look _).bind fun statistics => ?_
      refine (balanced_act _).bind fun sorted => (balanced_deref orphan).bind fun node => ?_
      cases node.parent with
      | none => exact balanced_stop _
      | some parent => exact (balanced_consult _).bind fun myIdx => balanced_pure _

lemma moves_findAdopter (a : ℕ) : Moves (a + 1) a (findAdopter sorts ichildRank ialgorithm) := by
  refine (balanced_findNode ichildRank).then_ fun orphan => ?_
  cases orphan with
  | none => exact moves_leave (balanced_pure _)
  | some orphan =>
      refine (balanced_change _).then_ fun _ => balanced_topology.then_ fun t => ?_
      refine (balanced_findPotentialAdopters orphan t.levels t.root).then_ fun _ => ?_
      refine (balanced_look _).then_ fun potentialAdopters => Moves.ite ?_ ?_
      · exact moves_leave (balanced_pure _)
      · refine (balanced_chooseAdopter sorts ichildRank ialgorithm orphan _).then_ fun adopter => ?_
        exact moves_leave (balanced_pure _)

/-- An attempt past the last of the potential adopters returns with the lock. -/
lemma findNewParent_exhausted {inumAttempts : ℕ} {s : Process × ℕ} (hfirst : 0 < inumAttempts)
    (hlast : s.1.potentialAdopters.length ≤ inumAttempts) :
    findNewParent sorts ichildRank ialgorithm inumAttempts s = .ok (none, (s.1, s.2 + 1)) := by
  rw [findNewParent, lock_bind, if_pos hfirst, look_bind, if_pos hlast]
  rfl

/-- An attempt gives the lock back if it is the first, or if there is an adopter for it. -/
lemma findNewParent_keeps (inumAttempts : ℕ) (s : Process × ℕ) :
    Keeps (decide (0 < inumAttempts ∧ s.1.potentialAdopters.length ≤ inumAttempts)).toNat
      (findNewParent sorts ichildRank ialgorithm inumAttempts) s := by
  by_cases hfirst : inumAttempts > 0
  · by_cases hlast : inumAttempts ≥ s.1.potentialAdopters.length
    · rw [decide_eq_true ⟨hfirst, hlast⟩]
      exact keeps_of_run (findNewParent_exhausted sorts ichildRank ialgorithm hfirst hlast)
    · rw [decide_eq_false fun hboth => hlast hboth.2]
      have hrun : findNewParent sorts ichildRank ialgorithm inumAttempts s =
          .ok (s.1.potentialAdopters[inumAttempts]?, (s.1, s.2 + 1 - 1)) := by
        rw [findNewParent, lock_bind, if_pos hfirst, look_bind, if_neg hlast, unlock_bind]
        rfl
      exact keeps_of_run hrun
  · rw [decide_eq_false fun hboth => hfirst hboth.1]
    have hattempt : findNewParent sorts ichildRank ialgorithm inumAttempts =
        lock >>= fun _ => findAdopter sorts ichildRank ialgorithm := by
      rw [findNewParent]
      simp only [if_neg hfirst]
    rw [hattempt]
    exact (balanced_lock fun a => moves_findAdopter sorts ichildRank ialgorithm a).keeps s

end Choosing

lemma balanced_sendUpdatesBuffer : Balanced sendUpdatesBuffer := by
  refine (balanced_look _).bind fun shuttingDown => Balanced.ite ?_ ?_
  · exact (balanced_updateNetwork _).guarded.bind fun _ => balanced_pure _
  · refine balanced_lock fun a => (balanced_look _).then_ fun buffer => ?_
    refine (balanced_look _).then_ fun strm => Moves.ite ?_ (moves_leave (balanced_pure _))
    refine (balanced_change _).then_ fun _ => (balanced_updateNetwork _).then_ fun _ => ?_
    exact moves_leave (balanced_pure _)

lemma balanced_insertUpdatesBuffer (uc : Update) : Balanced (insertUpdatesBuffer uc) :=
  (balanced_updateNetwork _).guarded

lemma balanced_report (upstream : Bool) (uc : Update) (event : Option EventType) :
    Balanced (report upstream uc event) := by
  refine (balanced_look _).bind fun frontEnd => Balanced.whenever ?_ _
  exact (balanced_insertUpdatesBuffer uc).bind fun _ => balanced_updateNetwork _

lemma balanced_debugTopology : Balanced debugTopology :=
  (balanced_look _).bind fun debugging => balanced_getTopologyString.drop.whenever debugging

lemma balanced_addNode (parRank chldRank : Rank) (chldHost : Text) (chldPort : Port)
    (isBackEnd : Bool) : Balanced (addNode parRank chldRank chldHost chldPort isBackEnd) := by
  refine (balanced_findNode chldRank).bind fun p => ?_
  cases p with
  | some p => exact balanced_pure _
  | none =>
      refine (balanced_newNode _ _ _ _).drop.bind fun _ => ?_
      exact (balanced_setParent _ _ _).drop.bind fun _ => balanced_debugTopology

lemma Balanced.unlessShuttingDown {p : Op Unit} (hp : Balanced p) :
    Balanced (unlessShuttingDown p) :=
  (balanced_look _).bind fun _ => (balanced_pure _).ite hp

lemma balanced_updateAddBackEnd (parRank chldRank : Rank) (chldHost : Text) (chldPort : Port)
    (upstream : Bool) :
    Balanced (updateAddBackEnd parRank chldRank chldHost chldPort upstream) := by
  apply Balanced.unlessShuttingDown
  refine (balanced_addNode _ _ _ _ _).bind fun _ => (balanced_updateNetwork _).bind fun _ => ?_
  exact balanced_report _ _ _

lemma balanced_updateAddInternalNode (parRank chldRank : Rank) (chldHost : Text)
    (chldPort : Port) (upstream : Bool) :
    Balanced (updateAddInternalNode parRank chldRank chldHost chldPort upstream) :=
  Balanced.unlessShuttingDown
    ((balanced_addNode _ _ _ _ _).bind fun _ => balanced_report _ _ _)

lemma balanced_networkRemoveNode (ifailedRank : Rank) (iupdate : Bool) :
    Balanced (networkRemoveNode ifailedRank iupdate) := by
  refine (balanced_updateNetwork _).bind fun _ => ?_
  refine (balanced_removeNode _ _).drop.bind fun _ => (balanced_updateNetwork _).bind fun _ => ?_
  exact (balanced_updateNetwork _).whenever _

lemma balanced_updateRemoveNode (parRank failedChldRank : Rank) (upstream : Bool) :
    Balanced (updateRemoveNode parRank failedChldRank upstream) := by
  have hremove : Balanced (removeBelow parRank failedChldRank) :=
    (balanced_look _).bind fun _ =>
      (balanced_networkRemoveNode _ _).ite (balanced_removeNode _ _).drop
  apply Balanced.unlessShuttingDown
  exact hremove.bind fun _ => balanced_debugTopology.bind fun _ => balanced_report _ _ _

lemma balanced_updateChangeParent (parRank chldRank : Rank) (upstream : Bool) :
    Balanced (updateChangeParent parRank chldRank upstream) := by
  have hchange : Balanced (networkChangeParent chldRank parRank) :=
    (balanced_setParent _ _ _).bind fun _ => (balanced_look _).bind fun _ =>
      (balanced_updateNetwork _).whenever _
  apply Balanced.unlessShuttingDown
  exact hchange.bind fun _ => balanced_report _ _ _

lemma balanced_updateChangePort (rank : Rank) (port : Port) (upstream : Bool) :
    Balanced (updateChangePort rank port upstream) := by
  refine Balanced.unlessShuttingDown ((balanced_pure _).ite ?_)
  refine (balanced_findNode rank).bind fun p => ?_
  cases p with
  | none => exact balanced_stop _
  | some updateNode => exact (balanced_update _).bind fun _ => balanced_report _ _ _

lemma Balanced.withLevels {α : Type} {p : ℕ → Op α} (hp : ∀ levels, Balanced (p levels)) :
    Balanced (withLevels p) := balanced_topology.bind fun t => hp t.levels

lemma balanced_delete : Balanced delete :=
  (balanced_reset [] false).drop.bind fun _ => (balanced_extend _).guarded

lemma balanced_createFrom (isg : Text) : Balanced (createFrom isg) :=
  (balanced_update _).bind fun _ => (balanced_reset isg true).drop

lemma balanced_create (hostName : Text) (port : Port) (rank : Rank) (isBackEnd : Bool) :
    Balanced (create hostName port rank isBackEnd) := balanced_update _

lemma balanced_updateTopoStreamPeers (newNodes : List Rank) :
    Balanced (updateTopoStreamPeers newNodes) := balanced_updateNetwork _

lemma balanced_getTreeStatistics : Balanced getTreeStatistics :=
  balanced_computeTreeStatistics.bind fun _ => (balanced_look _).guarded

/-- The calls that give the lock back in every run. -/
lemma balanced_perform (sorts : Sorts) (c : Call)
    (hc : ∀ irank k ialgorithm, c ≠ .findNewParent irank k ialgorithm) :
    Balanced (perform sorts c) := by
  cases c with
  | printTopologyFile opens => exact (balanced_printTopologyFile opens).drop
  | printDOTGraph opens => exact (balanced_printDOTGraph opens).drop
  | print => exact (balanced_consult _).guarded.drop
  | getNumNodes => exact (balanced_look _).guarded.drop
  | getTreeStatistics => exact balanced_getTreeStatistics.drop
  | getRoot => exact (balanced_look _).drop
  | findNode irank => exact (balanced_findNode irank).drop
  | getLeaves => exact balanced_getLeaves.drop
  | getParentNodes => exact (balanced_look _).guarded.drop
  | getOrphanNodes => exact (balanced_look _).guarded.drop
  | getBackEndNodes => exact (balanced_look _).guarded.drop
  | numBackEndNodes => exact (balanced_look _).guarded.drop
  | numInternalNodes => exact (balanced_look _).guarded.drop
  | getDescendants inode =>
      exact (Balanced.withLevels fun levels => balanced_getDescendants levels inode).drop
  | getLeafDescendants inode =>
      exact (Balanced.withLevels fun levels => balanced_getLeafDescendants levels inode).drop
  | createFrom isg => exact balanced_createFrom isg
  | create hostName port rank isBackEnd => exact balanced_create hostName port rank isBackEnd
  | delete => exact balanced_delete
  | addSubGraph irank isg iupdate => exact (balanced_addSubGraph irank isg iupdate).drop
  | removeNode irank iupdate => exact (balanced_removeNode irank iupdate).drop
  | removeObject inode => exact (balanced_removeObject inode).drop
  | setParent rc rp iupdate => exact (balanced_setParent rc rp iupdate).drop
  | reset itopologyStr iupdate => exact (balanced_reset itopologyStr iupdate).drop
  | nodeFailed irank => exact (balanced_nodeFailed irank).drop
  | getOutletNode irank => exact (balanced_look _).drop
  | getTopologyString => exact balanced_getTopologyString.drop
  | getLocalSubTreeString => exact balanced_getLocalSubTreeString.drop
  | findNewParent irank k ialgorithm => exact absurd rfl (hc irank k ialgorithm)
  | computeTreeStatistics => exact balanced_computeTreeStatistics
  | newNode host port rank isBackEnd => exact (balanced_newNode host port rank isBackEnd).drop
  | inTopology ihostName iport irank => exact (balanced_inTopology ihostName iport irank).drop
  | insertUpdatesBuffer uc => exact balanced_insertUpdatesBuffer uc
  | sendUpdatesBuffer => exact balanced_sendUpdatesBuffer.drop
  | updateAddBackEnd rp rc host port upstream =>
      exact balanced_updateAddBackEnd rp rc host port upstream
  | updateAddInternalNode rp rc host port upstream =>
      exact balanced_updateAddInternalNode rp rc host port upstream
  | updateChangeParent rp rc upstream => exact balanced_updateChangeParent rp rc upstream
  | updateChangePort rank port upstream => exact balanced_updateChangePort rank port upstream
  | updateRemoveNode rp rc upstream => exact balanced_updateRemoveNode rp rc upstream
  | updateRouterTable => exact balanced_updateRouterTable
  | updateTopoStreamPeers newNodes => exact balanced_updateTopoStreamPeers newNodes
  | serialize inode => exact Balanced.withLevels fun levels => balanced_serialize levels inode

/-- A call gives the lock back but in one case. -/
lemma perform_keeps (sorts : Sorts) (c : Call) (s : Process × ℕ) :
    Keeps (c.forgets s.1).toNat (perform sorts c) s := by
  by_cases hc : ∃ irank k ialgorithm, c = .findNewParent irank k ialgorithm
  · obtain ⟨irank, k, ialgorithm, rfl⟩ := hc
    exact (findNewParent_keeps sorts irank ialgorithm k s).drop
  · have hother : ∀ irank k ialgorithm, c ≠ .findNewParent irank k ialgorithm :=
      fun irank k ialgorithm heq => hc ⟨irank, k, ialgorithm, heq⟩
    have hbalanced := (balanced_perform sorts c hother).keeps s
    cases c with
    | findNewParent irank k ialgorithm => exact absurd rfl (hother irank k ialgorithm)
    | _ => exact hbalanced

lemma perform_of_forgets {sorts : Sorts} {c : Call} {s : Process × ℕ} (hc : c.forgets s.1 = true) :
    ∃ x s', perform sorts c s = .ok (x, s') := by
  cases c with
  | findNewParent ichildRank inumAttempts ialgorithm =>
      obtain ⟨hfirst, hlast⟩ := of_decide_eq_true hc
      have hrun := findNewParent_exhausted sorts ichildRank ialgorithm hfirst hlast
      exact ⟨(), _, RecursiveLock.bind_ok_iff.mpr ⟨_, _, hrun, rfl⟩⟩
  | _ => cases hc

lemma perform_keeps_zero_iff (sorts : Sorts) (c : Call) (s : Process × ℕ) :
    Keeps 0 (perform sorts c) s ↔ c.forgets s.1 = false :=
  keeps_zero_iff (perform_keeps sorts c s) perform_of_forgets

/-- After any calls of one thread the lock is held once more for each attempt to find a parent
past the last of the potential adopters, and else as often as before. -/
theorem calls_keep_lock (sorts : Sorts) (calls : List Call) (s : Process × ℕ) :
    Keeps (forgotten (perform sorts) Call.forgets calls s) (calls.forM (perform sorts)) s :=
  forM_keeps (perform_keeps sorts) calls s

end MRNet.LockedTopology
