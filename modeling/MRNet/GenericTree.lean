import MRNet.KnomialTree

/-!
# Generic trees

Translation of `GenericTree`. A specification lists, for the nodes of each level, the numbers of
their children. It is read into a buffer of 16 characters for each number. The nodes are made level
by level from the slots of the hosts, where the counts are the bound of the loop over the nodes.
-/
namespace MRNet.TopologyFile
open Codec
open Wire (Run)
open SerialGraph (Text atoi)

namespace GenericTree

/-- `_children_by_level`. -/
abbrev ChildrenByLevel := List (List (BitVec 32))

/-- The text before the position `cur_item_pos`, the numbers of the level, and whether it is the
first level. -/
structure ParseState where
  levels : ChildrenByLevel
  curLevel : List (BitVec 32)
  curItem : Text
  multiplier : BitVec 32
  firstTime : Bool

/-- A character, or the end of the text, is stored in `cur_item`. -/
def storeItem (curItem : Text) (c : Char) : Outcome Text :=
  if curItem.length < 16 then return curItem ++ [c] else throw (.fault .storePast)

def terminate (curItem : Text) : Outcome Unit :=
  if curItem.length < 16 then return () else throw (.fault .storePast)

/-- The number is listed as often as the multiplier says. -/
def ParseState.childSpec (s : ParseState) : List (BitVec 32) :=
  s.curLevel ++ List.replicate s.multiplier.toNat (atoi s.curItem)

def ParseState.nextItem (s : ParseState) : ParseState :=
  { s with curLevel := s.childSpec, curItem := [], multiplier := 1 }

def ParseState.nextLevel (s : ParseState) : ParseState :=
  ⟨s.levels ++ [s.childSpec], [], [], 1, false⟩

def ParseState.multiply (s : ParseState) : ParseState :=
  { s with curItem := [], multiplier := atoi s.curItem }

/-- The loop over the characters. The first level must have one number. -/
def parse : Text → ParseState → Outcome (Option ChildrenByLevel)
  | [], s => do
      terminate s.curItem
      if s.firstTime ∧ s.childSpec.length ≠ 1 then return none
      else return some (s.levels ++ [s.childSpec])
  | c :: text, s =>
      if c = ',' then do
        terminate s.curItem
        parse text s.nextItem
      else if c = ':' then do
        terminate s.curItem
        if s.firstTime ∧ s.childSpec.length ≠ 1 then return none
        else parse text s.nextLevel
      else if c = 'x' then do
        terminate s.curItem
        parse text s.multiply
      else if c.isDigit then do
        let curItem ← storeItem s.curItem c
        parse text { s with curItem }
      else return none

/-- `c_str` of the specification. -/
def cStr (spec : Text) : Text := spec.takeWhile (· ≠ Char.ofNat 0)

/-- `parse_Spec`: nothing if the specification is refused. -/
def parseSpec (spec : Text) : Outcome (Option ChildrenByLevel) :=
  parse (cStr spec) ⟨[], [], [], 1, true⟩

section Model
variable (address : Name → ℕ)

/-- The next available nodes become children of a node: they and what is behind them. -/
def addChildren (curNode : Name) : ℕ → Tree → List Name → Option (Tree × List Name × List Name)
  | 0, t, avail => some (t, [], avail)
  | _ + 1, _, [] => none
  | n + 1, t, nextChild :: avail => do
      let t := (t.getNode nextChild).addChild address curNode nextChild
      let (t, children, avail) ← addChildren curNode n t avail
      return (t, nextChild :: children, avail)

/-- The loop over the numbers of a level, by an index of 32 bits. Nothing is left if the hosts do
not suffice. -/
def connectLevel (levelChildren : List (BitVec 32)) (curLevelNodes : List Name) :
    ℕ → BitVec 32 → Tree → List Name → List Name → Run (Option (Tree × List Name × List Name))
  | 0, _, _, _, _ => ExceptT.mk none
  | fuel + 1, i, t, nextLevelNodes, avail =>
      match levelChildren[i.toNat]? with
      | none => return some (t, nextLevelNodes, avail)
      | some curNumChildren =>
          match curLevelNodes[i.toNat]? with
          | none => throw (.fault .readPast)
          | some curNode =>
              match addChildren address curNode curNumChildren.toNat t avail with
              | none => return none
              | some (t, children, avail) => connectLevel levelChildren curLevelNodes fuel (i + 1) t
                  (nextLevelNodes ++ children) avail

/-- The levels one after the other. All that were made are kept. -/
def connectLevels (fuel : ℕ) : ChildrenByLevel → List Name → Tree → List Name →
    Run (Option (Tree × List (List Name) × List Name))
  | [], _, t, avail => return some (t, [], avail)
  | levelChildren :: levels, curLevelNodes, t, avail => do
      match ← connectLevel address levelChildren curLevelNodes fuel 0 t [] avail with
      | none => return none
      | some (t, nextLevelNodes, avail) =>
          match ← connectLevels fuel levels nextLevelNodes t avail with
          | none => return none
          | some (t, made, avail) => return some (t, nextLevelNodes :: made, avail)

end Model

end GenericTree

/-- A tree that was validated, and the nodes of its levels as they were made. -/
structure GenericTree where
  valid : Bool
  tree : Tree
  nodesByLevel : List (List Name)

namespace GenericTree

section Model
variable (address : Name → ℕ) {hostNameMax : ℕ} (fe : FrontEnd hostNameMax)
  (childrenByLevel : ChildrenByLevel)

def finish (t : Tree) (nodesByLevel : List (List Name)) (fuel : ℕ) : Run (Option GenericTree) := do
  let (valid, t) ← (Tree.validate fuel t : Option (Bool × Tree))
  return some ⟨valid, t, nodesByLevel⟩

/-- `initialize_Tree` with one list. -/
def initializeTree (limit : BitVec 32) (hosts : HostList) (fuel : ℕ) : Run (Option GenericTree) := do
  let hostids := (KnomialTree.slots fe.host limit hosts).tail.map (nodeName hostNameMax)
  let root := nodeName hostNameMax (fe.host, 0)
  let t := (Tree.create fe).getNode root
  match ← connectLevels address fuel childrenByLevel [root] t hostids with
  | none => return none
  | some (t, made, _) => finish t ([root] :: made) fuel

/-- `initialize_Tree` with two lists. The last level takes the back-ends. -/
def initializeTree₂ (limits : Limits) (backend internal : HostList) (fuel : ℕ) :
    Run (Option GenericTree) := do
  if internal = [] ∧ 1 < childrenByLevel.length then return none
  else
    let (inner, counts) := KnomialTree.listSlots limits.internal internal (.start fe.host)
    let (outer, _) := KnomialTree.listSlots limits.backend backend counts
    let intHostids := inner.map (nodeName hostNameMax)
    let beHostids := outer.map (nodeName hostNameMax)
    let root := nodeName hostNameMax (fe.host, 0)
    let t := (Tree.create fe).getNode root
    match ← connectLevels address fuel childrenByLevel.dropLast [root] t intHostids with
    | none => return none
    | some (t, made, _) =>
        let curLevelNodes := made.getLast?.getD [root]
        match ← connectLevels address fuel (childrenByLevel.getLast?.toList) curLevelNodes t
            beHostids with
        | none => return none
        | some (t, leaves, _) => finish t ([root] :: made ++ leaves) fuel

/-- The constructors. A specification that is refused leaves no tree. -/
def create (spec : Text) (lists : HostLists) (fuel : ℕ) : Run (Option GenericTree) := do
  match ← (parseSpec spec : Outcome (Option ChildrenByLevel)) with
  | none => return none
  | some childrenByLevel =>
      match lists with
      | .single hosts maxProcs => initializeTree address fe childrenByLevel maxProcs hosts fuel
      | .separate backend internal beProcs intProcs =>
          initializeTree₂ address fe childrenByLevel ⟨intProcs, beProcs⟩ backend internal fuel

end Model

end GenericTree

end MRNet.TopologyFile
