import MRNet.LinkedTrees
import MRNet.Runs

/-!
# The lightweight map

Translation of `map.c`: a binary search tree of nodes in memory, and an array of the keys in the
order in which they were inserted. The loops and recursions run on fuel. A null value is `none`.
-/
namespace MRNet.LightweightMap
open Codec
open Wire (Run Returns)

/-- An `int`. -/
abbrev Key := { k : ℤ // -2 ^ 31 ≤ k ∧ k < 2 ^ 31 }

abbrev Ptr := ℕ

def hashKey (key : Key) : Key := key

structure MapNode (α : Type) where
  left : Option Ptr
  right : Option Ptr
  key : Key
  hashedKey : Key
  val : Option α

/-- Nodes in memory, and an address that was not given out. -/
structure Memory (α : Type) where
  heap : Ptr → Option (MapNode α)
  nextPtr : Ptr

variable {α : Type}

namespace Memory

def load (m : Memory α) (p : Ptr) : Outcome (MapNode α) :=
  match m.heap p with
  | none => .error (.fault .nullPointer)
  | some node => return node

def store (m : Memory α) (p : Ptr) (node : MapNode α) : Memory α :=
  { m with heap := Function.update m.heap p (some node) }

def malloc (m : Memory α) (node : MapNode α) : Memory α × Ptr :=
  ({ m.store m.nextPtr node with nextPtr := m.nextPtr + 1 }, m.nextPtr)

def free (m : Memory α) (p : Ptr) : Memory α :=
  { m with heap := Function.update m.heap p none }

end Memory

/-- `keys` is an array of `allocSize`; what is behind `size` was never set or is left over. -/
structure MrnMap (α : Type) where
  memory : Memory α
  root : Option Ptr
  keys : ℕ → Key
  size : ℕ
  allocSize : ℕ

/-- The first `size` entries of `keys`. -/
def MrnMap.listed (map : MrnMap α) : List Key := (List.range map.size).map map.keys

def newMapT (α : Type) : MrnMap α where
  memory := ⟨fun _ => none, 0⟩
  root := none
  keys := fun _ => ⟨0, by decide⟩
  size := 0
  allocSize := 8

/-- A node with the key gives null, which the caller takes for the subtree. -/
def insertRecursive : ℕ → Memory α → Option Ptr → Key → Key → Option α →
    Run (Memory α × Option Ptr)
  | 0, _, _, _, _, _ => ExceptT.mk none
  | _ + 1, m, none, key, hashedKey, val =>
      let (m, p) := m.malloc ⟨none, none, key, hashedKey, val⟩
      return (m, some p)
  | fuel + 1, m, some root, key, hashedKey, val => do
      let node ← liftM (m.load root)
      if hashedKey = node.hashedKey then return (m, none)
      else if hashedKey.val < node.hashedKey.val then do
        let (m, left) ← insertRecursive fuel m node.left key hashedKey val
        let node ← liftM (m.load root)
        return (m.store root { node with left }, some root)
      else do
        let (m, right) ← insertRecursive fuel m node.right key hashedKey val
        let node ← liftM (m.load root)
        return (m.store root { node with right }, some root)

/-- The size grows and the key is listed in any case. -/
def insert (fuel : ℕ) (map : MrnMap α) (key : Key) (val : Option α) : Run (MrnMap α) := do
  let (memory, root) ← insertRecursive fuel map.memory map.root key (hashKey key) val
  let size := map.size + 1
  let allocSize := if size = map.allocSize then map.allocSize + map.allocSize else map.allocSize
  if size ≤ allocSize then
    return { memory, root, keys := Function.update map.keys (size - 1) key, size, allocSize }
  else throw (.fault .storePast)

/-- The node with the key, and the last one that was left on the way. -/
def findNodeRecursive : ℕ → Memory α → Option Ptr → Key → Option Ptr →
    Run (Option Ptr × Option Ptr)
  | 0, _, _, _, _ => ExceptT.mk none
  | _ + 1, _, none, _, parent => return (none, parent)
  | fuel + 1, m, some root, hashedKey, parent => do
      let node ← liftM (m.load root)
      if node.hashedKey = hashedKey then return (some root, parent)
      else if hashedKey.val < node.hashedKey.val then
        findNodeRecursive fuel m node.left hashedKey (some root)
      else findNodeRecursive fuel m node.right hashedKey (some root)

def getVal (fuel : ℕ) (map : MrnMap α) (key : Key) : Run (Option α) := do
  let (target, _) ← findNodeRecursive fuel map.memory map.root (hashKey key) none
  match target with
  | none => return none
  | some target => do
      let node ← liftM (map.memory.load target)
      if node.key = key then return node.val else throw (.fault .assertion)

/-- `memmove` of the keys behind a position. -/
def shiftKeys (keys : ℕ → Key) (size i : ℕ) : ℕ → Key :=
  fun j => if i ≤ j ∧ j + 1 < size then keys (j + 1) else keys j

/-- The loop over the keys. Its index has 32 bits. -/
def eraseKey : ℕ → (size : ℕ) → Key → BitVec 32 → (ℕ → Key) → Bool → Run ((ℕ → Key) × Bool)
  | 0, _, _, _, _, _ => ExceptT.mk none
  | fuel + 1, size, key, i, keys, found =>
      if i.toNat < size then
        if keys i.toNat = key then
          let keys := if i.toNat ≠ size - 1 then shiftKeys keys size i.toNat else keys
          eraseKey fuel size key (i + 1) keys true
        else eraseKey fuel size key (i + 1) keys found
      else return (keys, found)

/-- The loop along the right links, with the node above. -/
def rightmost : ℕ → Memory α → Ptr → Ptr → Run (Ptr × Ptr)
  | 0, _, _, _ => ExceptT.mk none
  | fuel + 1, m, tmp, parent => do
      let node ← liftM (m.load tmp)
      match node.right with
      | none => return (tmp, parent)
      | some right => rightmost fuel m right tmp

/-- The link of a node to another is set anew. -/
def relink (m : Memory α) (parent child : Ptr) (link : Option Ptr) : Outcome (Memory α) := do
  let node ← m.load parent
  return m.store parent
    (if node.left = some child then { node with left := link } else { node with right := link })

/-- The node is taken out of the tree: the new root and memory. -/
def eraseNode (fuel : ℕ) (m : Memory α) (root parent : Option Ptr) (target : Ptr) :
    Run (Memory α × Option Ptr) := do
  let node ← liftM (m.load target)
  match node.left, node.right with
  -- leaf node
  | none, none =>
      match parent with
      | none => return (m.free target, none)
      | some parent => do
          let m ← liftM (relink m parent target none)
          return (m.free target, root)
  -- both subtrees: promote rightmost descendant of left subtree
  | some left, some _ => do
      let (tmp, parent) ← rightmost fuel m left target
      let promoted ← liftM (m.load tmp)
      let m ← liftM (relink m parent tmp promoted.left)
      let node ← liftM (m.load target)
      let m := m.store target { node with
        key := promoted.key, hashedKey := promoted.hashedKey, val := promoted.val }
      return (m.free tmp, root)
  -- one subtree: promote it
  | some tmp, none => do
      let promoted ← liftM (m.load tmp)
      return ((m.store target promoted).free tmp, root)
  | none, some tmp => do
      let promoted ← liftM (m.load tmp)
      return ((m.store target promoted).free tmp, root)

def erase (fuel : ℕ) (map : MrnMap α) (key : Key) : Run (MrnMap α) := do
  let (keys, found) ← eraseKey fuel map.size key 0 map.keys false
  if found then do
    let (target, parent) ← findNodeRecursive fuel map.memory map.root (hashKey key) none
    match target with
    | none => throw (.fault .assertion)
    | some target => do
        let (memory, root) ← eraseNode fuel map.memory map.root parent target
        return { map with memory, root, keys, size := map.size - 1 }
  else return map

end MRNet.LightweightMap
