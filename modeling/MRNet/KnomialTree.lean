import MRNet.BalancedTree

/-!
# k-nomial trees

Translation of `KnomialTree`. The hosts are written down slot by slot, the root first. In every
round each slot that was used before is given the next free ones as children. With two lists the
last round takes the slots of the back-ends. `tree` is written by the rounds, and the nodes are
made and connected from it.
-/
namespace MRNet.TopologyFile
open Codec
open Wire (Run)
open SerialGraph (Text)
open Std (TreeMap)

namespace KnomialTree

/-- `_kfactor` and `_num_nodes`, if the specification is accepted. -/
def parseSpec (spec : Text) : Option (BitVec 32 × BitVec 32) :=
  if '@' ∈ spec then scanPair '@' spec else none

/-- `hostids`, from one list. Slot 0 of the front-end host is the root. -/
def slots (feHost : Text) (limit : BitVec 32) (hosts : HostList) : List Host :=
  (feHost, 0) :: hosts.flatMap fun (host, count) =>
    let first := if host = feHost then 1 else 0
    (List.range' first ((min count limit).toNat - first)).map fun u => (host, BitVec.ofNat 32 u)

/-- The slots of one of two lists. The counts go on from list to list. -/
def listSlots (limit : BitVec 32) : HostList → HostProcCounts → List Host × HostProcCounts
  | [], counts => ([], counts)
  | (host, count) :: rest, counts =>
      let n := (min count limit).toNat
      let next := counts host + BitVec.ofNat 32 n
      let (slots, counts') := listSlots limit rest (Function.update counts host next)
      (hostSlots host (counts host) n ++ slots, counts')

/-- `avail_iter` with what is behind it, and `curr_step_nodes`. -/
structure Cursor where
  avail : List Name
  placed : ℕ

/-- What is pushed into `tree` at some parents. -/
abbrev Writes := List (Name × List Name)

/-- The children of one parent. -/
def give (target : ℕ) : ℕ → Cursor → List Name × Cursor
  | 0, c => ([], c)
  | kids + 1, c =>
      match c.avail with
      | [] => ([], c)
      | child :: avail =>
          if c.placed < target then
            let (children, c) := give target kids ⟨avail, c.placed + 1⟩
            (child :: children, c)
          else ([], c)

/-- The loop from `used_iter` to `stop_iter`. With separate lists, slots that run out are
reported, with the number of nodes that were placed. -/
def round (separate : Bool) (target kids : ℕ) : List Name → Cursor → Except ℕ (Writes × Cursor)
  | [], c => return ([], c)
  | parent :: used, c =>
      if c.placed < target then
        let (children, c) := give target kids c
        if separate ∧ c.avail = [] ∧ children.length < kids then .error c.placed
        else do
          let (writes, c) ← round separate target kids used c
          return ((parent, children) :: writes, c)
      else return ([], c)

/-- How the rounds end. -/
inductive Growth
  | missing (placed : ℕ)
  | grown (rounds : List Writes) (placed : ℕ)

/-- The rounds, the slots of the back-ends given apart if there are two lists. After the leaf
level `avail_iter` is in another list than `used_iter`, which would run past its end. -/
def grow (hostids : List Name) (backends : Option (List Name)) (k : BitVec 32) (target : ℕ) :
    ℕ → List Writes → Cursor → Run Growth
  | 0, _, _ => ExceptT.mk none
  | fuel + 1, rounds, c =>
      if c.avail = [] ∨ target ≤ c.placed then return .grown rounds c.placed
      else
        let used := hostids.take (hostids.length - c.avail.length)
        let kids := (k - 1).toNat
        match if target ≤ c.placed * k.toNat % 2 ^ 32 then backends else none with
        | some backends =>
            match round true target kids used { c with avail := backends } with
            | .error placed => return .missing placed
            | .ok (writes, c) =>
                if c.placed < target then throw (.fault .readPast)
                else return .grown (rounds ++ [writes]) c.placed
        | none =>
            match round backends.isSome target kids used c with
            | .error placed => return .missing placed
            | .ok (writes, c) => grow hostids backends k target fuel (rounds ++ [writes]) c

/-- `tree` after the rounds. -/
def assigned (rounds : List Writes) : TreeMap Name (List Name) :=
  rounds.flatten.foldl (fun tree w => tree.insert w.1 (tree[w.1]?.getD [] ++ w.2)) ∅

def connectTree (address : Name → ℕ) (t : Tree) (tree : TreeMap Name (List Name)) : Tree :=
  tree.toList.foldl
    (fun t e => e.2.foldl (fun t c => (t.getNode c).addChild address e.1 c) (t.getNode e.1)) t

end KnomialTree

/-- A tree that was validated, `_num_leaves`, and the rounds, which `_depth` counts. -/
structure KnomialTree where
  valid : Bool
  tree : Tree
  rounds : List KnomialTree.Writes
  numLeaves : BitVec 32

/-- The generator reports missing hosts, or gets as far as a tree. -/
inductive KnomialRun
  | missing (placed : ℕ)
  | built (b : KnomialTree)

namespace KnomialTree

section Model
variable (address : Name → ℕ) {hostNameMax : ℕ} (fe : FrontEnd hostNameMax) (k n : BitVec 32)

/-- The tree is connected and validated. -/
def finish (t : Tree) (rounds : List Writes) (fuel : ℕ) : Run KnomialRun := do
  let tree := assigned rounds
  let (valid, t) ← (Tree.validate fuel (connectTree address t tree) : Option (Bool × Tree))
  return .built ⟨valid, t, rounds, n - BitVec.ofNat 32 tree.size⟩

/-- `initialize_Tree` with one list. -/
def initializeTree (limit : BitVec 32) (hosts : HostList) (fuel : ℕ) : Run KnomialRun := do
  let hostids := (slots fe.host limit hosts).map (nodeName hostNameMax)
  if hostids.length < n.toNat then return .missing 0
  let root := nodeName hostNameMax (fe.host, 0)
  let t := { (Tree.create fe).getNode root with root := root }
  match ← grow hostids none k n.toNat fuel [] ⟨hostids.tail, 1⟩ with
  | .missing placed => return .missing placed
  | .grown rounds _ => finish address n t rounds fuel

/-- `initialize_Tree` with two lists. -/
def initializeTree₂ (limits : Limits) (backend internal : HostList) (fuel : ℕ) :
    Run KnomialRun := do
  let (inner, counts) := listSlots limits.internal internal (.start fe.host)
  let (outer, _) := listSlots limits.backend backend counts
  let hostids := ((fe.host, 0) :: inner).map (nodeName hostNameMax)
  let backends := outer.map (nodeName hostNameMax)
  if hostids.length + backends.length < n.toNat then return .missing 0
  match ← grow hostids (some backends) k n.toNat fuel [] ⟨hostids.tail, 1⟩ with
  | .missing placed => return .missing placed
  | .grown rounds placed =>
      if placed < n.toNat then return .missing placed
      else finish address n (Tree.create fe) rounds fuel

/-- The constructors. A specification that is not accepted leaves no tree. -/
def create (spec : Text) (lists : HostLists) (fuel : ℕ) : Run (Option KnomialRun) :=
  match parseSpec spec with
  | none => return none
  | some (k, n) => some <$>
      match lists with
      | .single hosts maxProcs => initializeTree address fe k n maxProcs hosts fuel
      | .separate backend internal beProcs intProcs =>
          initializeTree₂ address fe k n ⟨intProcs, beProcs⟩ backend internal fuel

end Model

end KnomialTree

end MRNet.TopologyFile
