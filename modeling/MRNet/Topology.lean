import MRNet.SerialGraph

/-!
# The network topology

Translation of `NetworkTopology`. Its nodes are objects on a heap: a pointer to a node that
was deleted reads past the objects that are left. A `std::set` is a list without order, and a
key is erased from it by a filter.
-/
namespace MRNet.Topology
open Codec
open SerialGraph (Text Port)
open WaitForAll (Rank)

/-- The address of a node. No address is used twice. -/
abbrev Ptr := ℕ

structure Node where
  hostName : Text
  port : Port
  rank : Rank
  failed : Bool
  parent : Option Ptr
  children : List Ptr
  ascendants : List Ptr
  isBackEnd : Bool
  subtreeHeight : BitVec 32

namespace Node

def create (hostName : Text) (port : Port) (rank : Rank) (isBackEnd : Bool) : Node where
  hostName := hostName
  port := port
  rank := rank
  failed := false
  parent := none
  children := []
  ascendants := []
  isBackEnd := isBackEnd
  subtreeHeight := 0

def setParent (node : Node) (p : Option Ptr) : Node := { node with parent := p }

/-- A node with children is no back-end. -/
def addChild (node : Node) (c : Ptr) : Node :=
  { node with isBackEnd := false, children := node.children.insert c }

def removeChild (node : Node) (c : Ptr) : Node :=
  { node with children := node.children.filter (· ≠ c) }

def setPort (node : Node) (port : Port) : Node := { node with port := port }

def setSubtreeHeight (node : Node) (height : BitVec 32) : Node :=
  { node with subtreeHeight := height }

end Node

structure NetworkTopology where
  heap : Finmap fun _ : Ptr => Node
  nextPtr : Ptr
  root : Option Ptr
  nodes : Finmap fun _ : Rank => Ptr
  orphans : List Ptr
  backEndNodes : List Ptr
  parentNodes : List Ptr

namespace NetworkTopology

def deref (t : NetworkTopology) (p : Ptr) : Outcome Node :=
  match t.heap.lookup p with
  | none => .error (.fault .readPast)
  | some node => return node

def modify (t : NetworkTopology) (p : Ptr) (f : Node → Node) : Outcome NetworkTopology := do
  let node ← t.deref p
  return { t with heap := t.heap.insert p (f node) }

def newObject (t : NetworkTopology) (node : Node) : NetworkTopology :=
  { t with heap := t.heap.insert t.nextPtr node, nextPtr := t.nextPtr + 1 }

def delete (t : NetworkTopology) (p : Ptr) : NetworkTopology := { t with heap := t.heap.erase p }

def findNode (t : NetworkTopology) (irank : Rank) : Option Ptr := t.nodes.lookup irank

/-- The network also gets an end-point for a back-end. -/
def newNode (t : NetworkTopology) (host : Text) (port : Port) (rank : Rank) (isBackEnd : Bool) :
    NetworkTopology :=
  let node := t.nextPtr
  let t := t.newObject (Node.create host port rank isBackEnd)
  { t with
    nodes := t.nodes.insert rank node
    backEndNodes := if isBackEnd then t.backEndNodes.insert node else t.backEndNodes }

def removeOrphan (t : NetworkTopology) (r : Rank) : NetworkTopology :=
  match t.findNode r with
  | none => t
  | some node => { t with orphans := t.orphans.filter (· ≠ node) }

/-- Whether the nodes were found, and whether a link was changed. -/
inductive Reparented where
  | notFound
  | same
  | moved
  deriving DecidableEq

/-- The part of `set_Parent` after the link to an old parent was removed. -/
def link (t : NetworkTopology) (child newParent : Ptr) : Outcome NetworkTopology := do
  let t ← t.modify child (·.setParent (some newParent))
  let t ← t.modify newParent (·.addChild child)
  let childNode ← t.deref child
  let t := t.removeOrphan childNode.rank
  let newParentNode ← t.deref newParent
  t.modify child fun node =>
    { node with ascendants := newParentNode.ascendants.insert newParent }

/-- The topology afterwards; the callers rebuild the routing table if a link was changed. -/
def setParent (t : NetworkTopology) (ichildRank inewParentRank : Rank) :
    Outcome (NetworkTopology × Reparented) :=
  match t.findNode ichildRank with
  | none => return (t, .notFound)
  | some child =>
      match t.findNode inewParentRank with
      | none => return (t, .notFound)
      | some newParent => do
          let childNode ← t.deref child
          match childNode.parent with
          | none => do
              let t ← t.link child newParent
              return (t, .moved)
          | some oldParent =>
              if oldParent = newParent then return (t, .same)
              else do
                let t ← t.modify oldParent (·.removeChild child)
                let t ← t.link child newParent
                return (t, .moved)

/-- The loop over the children of a node that is removed. -/
def orphanChildren (inode : Ptr) : List Ptr → NetworkTopology → Outcome NetworkTopology
  | [], t => return t
  | child :: children, t => do
      let childNode ← t.deref child
      if childNode.parent = some inode then do
        let t ← t.modify child (·.setParent none)
        orphanChildren inode children { t with orphans := t.orphans.insert child }
      else orphanChildren inode children t

/-- A node is removed from the maps and sets of the topology. -/
def unregister (t : NetworkTopology) (inode : Ptr) (node : Node) : NetworkTopology :=
  { t with
    root := if t.root = some inode then none else t.root
    nodes := t.nodes.erase node.rank
    orphans := t.orphans.filter (· ≠ inode)
    backEndNodes :=
      if node.isBackEnd then t.backEndNodes.filter (· ≠ inode) else t.backEndNodes
    parentNodes :=
      if node.isBackEnd then t.parentNodes else t.parentNodes.filter (· ≠ inode) }

/-- `remove_Node` for a pointer. -/
def removeObject (t : NetworkTopology) (inode : Ptr) : Outcome NetworkTopology := do
  let node ← t.deref inode
  let t ← orphanChildren inode node.children (t.unregister inode node)
  return t.delete inode

/-- A node that is removed is no child of its parent any more. -/
def leaveParent (t : NetworkTopology) (inode : Ptr) : Outcome NetworkTopology := do
  let node ← t.deref inode
  match node.parent with
  | none => return t
  | some parent => t.modify parent (·.removeChild inode)

/-- `remove_Node` for a rank: whether the node was found. -/
def removeNode (t : NetworkTopology) (irank : Rank) : Outcome (NetworkTopology × Bool) :=
  match t.findNode irank with
  | none => return (t, false)
  | some inode => do
      let t ← t.modify inode fun node => { node with failed := true }
      let t ← t.leaveParent inode
      let t ← t.removeObject inode
      return (t, true)

/-- The node of the root of a graph, which is created if it is not known. -/
def graphRoot (t : NetworkTopology) (isg : Text) : Outcome (NetworkTopology × Ptr) := do
  let rank ← SerialGraph.getRootRank isg
  match t.findNode rank with
  | some node => return (t, node)
  | none => do
      let host ← SerialGraph.getRootHostName isg
      let port ← SerialGraph.getRootPort isg
      let isBackEnd ← SerialGraph.isRootBackEnd isg
      let node := t.nextPtr
      let t := t.newObject (Node.create host port rank isBackEnd)
      return ({ t with nodes := t.nodes.insert rank node }, node)

/-- The root of a graph becomes a child of a node. -/
def addGraphRoot (t : NetworkTopology) (inode : Ptr) (isg : Text) :
    Outcome (NetworkTopology × Ptr) := do
  let t := { t with parentNodes := t.parentNodes.insert inode }
  let (t, nodePtr) ← t.graphRoot isg
  let node ← t.deref nodePtr
  let t := if node.isBackEnd then { t with backEndNodes := t.backEndNodes.insert nodePtr } else t
  let inodeNode ← t.deref inode
  let (t, _) ← t.setParent node.rank inodeNode.rank
  return (t, nodePtr)

/-- `add_SubGraph` for a pointer. -/
def addGraph (t : NetworkTopology) (inode : Ptr) (isg : Text) : Outcome NetworkTopology := do
  let (t, node) ← t.addGraphRoot inode isg
  match _hkids : SerialGraph.getChildren isg with
  | .error e => .error e
  | .ok kids => kids.attach.foldlM (fun t kid => t.addGraph node kid.1) t
termination_by isg.length
decreasing_by exact SerialGraph.getChildren_shorter _hkids kid.1 kid.2

/-- `add_SubGraph` for a rank: whether the node was found. -/
def addSubGraph (t : NetworkTopology) (irank : Rank) (isg : Text) :
    Outcome (NetworkTopology × Bool) :=
  match t.findNode irank with
  | none => return (t, false)
  | some node => do
      let t ← t.addGraph node isg
      return (t, true)

/-- Every registered node is deleted; the set of the parents is not cleared. -/
def clear (t : NetworkTopology) : NetworkTopology :=
  let t := t.nodes.keys.sort.foldl
    (fun t r =>
      match t.findNode r with
      | none => t
      | some node => t.delete node) t
  { t with root := none, nodes := ∅, orphans := [], backEndNodes := [] }

def reset (t : NetworkTopology) (itopologyStr : Text) : Outcome NetworkTopology :=
  let t := t.clear
  if itopologyStr = [] then return t
  else do
    let host ← SerialGraph.getRootHostName itopologyStr
    let port ← SerialGraph.getRootPort itopologyStr
    let rank ← SerialGraph.getRootRank itopologyStr
    let isBackEnd ← SerialGraph.isRootBackEnd itopologyStr
    let root := t.nextPtr
    let t := t.newObject (Node.create host port rank isBackEnd)
    let t := { t with root := some root, nodes := t.nodes.insert rank root }
    let kids ← SerialGraph.getChildren itopologyStr
    kids.foldlM (fun t kid => t.addGraph root kid) t

def empty : NetworkTopology where
  heap := ∅
  nextPtr := 0
  root := none
  nodes := ∅
  orphans := []
  backEndNodes := []
  parentNodes := []

/-- The constructor for a single node. -/
def create (hostName : Text) (port : Port) (rank : Rank) (isBackEnd : Bool) : NetworkTopology :=
  let root := empty.nextPtr
  let t := empty.newObject (Node.create hostName port rank isBackEnd)
  { t with root := some root, nodes := t.nodes.insert rank root }

/-- The constructor for a serialized graph. -/
def createFrom (isg : Text) : Outcome NetworkTopology := empty.reset isg

end NetworkTopology
end MRNet.Topology
