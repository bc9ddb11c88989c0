import MRNet.HostSlots
import MRNet.Runs

/-!
# Balanced trees

Translation of `BalancedTree`. The levels are placed first, all but the last from one list of
hosts; the leaves go on with the same list or take their own. The nodes are then connected by
an index into the level below. The numbers of nodes are products of 32 bits.
-/
namespace MRNet.TopologyFile
open Codec
open Wire (Run)
open SerialGraph (Text digits atoi isSpace)

/-- `%u` of `sscanf`, and the text behind it. -/
def scanUnsigned (text : Text) : Option (BitVec 32 × Text) :=
  let (negative, text) := match text.dropWhile isSpace with
    | '-' :: rest => (true, rest)
    | '+' :: rest => (false, rest)
    | rest => (false, rest)
  let number := text.takeWhile Char.isDigit
  if number = [] then none
  else
    -- a number out of range is cut before its sign is looked at
    let value := if negative ∧ digits number 0 < 2 ^ 64 then -strtoul number else strtoul number
    some (value, text.dropWhile Char.isDigit)

/-- Two numbers with a character between them. -/
def scanPair (separator : Char) (text : Text) : Option (BitVec 32 × BitVec 32) := do
  let (first, rest) ← scanUnsigned text
  if rest.head? ≠ some separator then none
  let (second, _) ← scanUnsigned rest.tail
  return (first, second)

/-- The bounds of the processes on a host. -/
structure Limits where
  internal : BitVec 32
  backend : BitVec 32

namespace BalancedTree

/-- `_fanouts`, if the specification is accepted. -/
def parseSpec (spec : Text) : Option (List (BitVec 32)) :=
  if spec = [] then some []
  else if '^' ∈ spec then (scanPair '^' spec).map fun (fanout, depth) =>
    List.replicate depth.toNat fanout
  else some (((spec.splitOnP fun c => c = 'x' ∨ c = '\n').filter (· ≠ [])).map atoi)

/-- `nodes_at_cur_level` on the levels below. -/
def levelSizes (nodes : BitVec 32) : List (BitVec 32) → List (BitVec 32)
  | [] => []
  | fanout :: fanouts => nodes * fanout :: levelSizes (nodes * fanout) fanouts

def placeLevels (limit : BitVec 32) : List (BitVec 32) → Slots → Option (List (List Host) × Slots)
  | [], s => some ([], s)
  | nodes :: sizes, s => do
      let (level, s) ← s.placeAll limit nodes.toNat
      let (levels, s) ← placeLevels limit sizes s
      return (level :: levels, s)

/-- The levels below the root. The hosts for the leaves may depend on the hosts that are left. -/
def place (limits : Limits) (start : Slots) (leafHosts : HostList → HostList)
    (sizes : List (BitVec 32)) : Option (List (List Host)) := do
  let (inner, s) ← placeLevels limits.internal sizes.dropLast start
  let (leaves, _) ← ({ s with hosts := leafHosts s.hosts } : Slots).placeAll limits.backend
    (sizes.getLast?.getD 1).toNat
  return inner ++ [leaves]

section Model
variable (address : Name → ℕ)

/-- The next orphans become children of one parent. -/
def adopt (p : Name) : ℕ → List Name → Tree → Outcome (List Name × Tree)
  | 0, orphans, t => return (orphans, t)
  | _ + 1, [], _ => .error (.fault .readPast)
  | k + 1, c :: orphans, t => adopt p k orphans (t.addChild address p c)

def connectLevel (fanout : ℕ) : List Name → List Name → Tree → Outcome Tree
  | [], _, t => return t
  | p :: parents, orphans, t => do
      let (orphans, t) ← adopt address p fanout orphans t
      connectLevel fanout parents orphans t

def connectTree : List (BitVec 32) → List (List Name) → Tree → Outcome Tree
  | fanout :: fanouts, above :: below :: levels, t => do
      let t ← connectLevel address fanout.toNat above below t
      connectTree fanouts (below :: levels) t
  | [], _ :: _ :: _, _ => .error (.fault .readPast)
  | _, _, t => return t

end Model

end BalancedTree

/-- A tree that was validated, and `nodes_by_level` with the places of the nodes. -/
structure BalancedTree where
  valid : Bool
  tree : Tree
  nodesByLevel : List (List Host)

namespace BalancedTree

/-- The names of the nodes on the levels. -/
def levelNames (hostNameMax : ℕ) (levels : List (List Host)) : List (List Name) :=
  levels.map (·.map (nodeName hostNameMax))

section Model
variable (address : Name → ℕ) {hostNameMax : ℕ} (fe : FrontEnd hostNameMax) (limits : Limits)
  (fanouts : List (BitVec 32))

/-- The nodes are made, connected and counted. -/
def connect (levels : List (List Host)) (fuel : ℕ) : Run BalancedTree := do
  let t := (levelNames hostNameMax levels).flatten.foldl Tree.getNode (Tree.create fe)
  let levels := [(fe.host, 0)] :: levels
  let t ← (connectTree address fanouts (levelNames hostNameMax levels) t : Outcome Tree)
  let (valid, t) ← (Tree.validate fuel t : Option (Bool × Tree))
  return ⟨valid, t, levels⟩

/-- What both variants do once there are hosts. There is no result without enough of them.
Without fan-outs the bound of the first loop wraps, and `_fanouts[0]` is read. -/
def build (hosts : HostList) (leafHosts : HostList → HostList) (fuel : ℕ) :
    Run (Option BalancedTree) :=
  if fanouts = [] then throw (.fault .readPast)
  else
    match place limits ⟨hosts, .start fe.host⟩ leafHosts (levelSizes 1 fanouts) with
    | none => return none
    | some levels => some <$> connect address fe fanouts levels fuel

/-- `initialize_Tree` with one list. -/
def initializeTree (hosts : HostList) (fuel : ℕ) : Run (Option BalancedTree) :=
  if hosts = [] ∧ fanouts ≠ [] then return none
  else build address fe limits fanouts hosts id fuel

/-- `initialize_Tree` with two lists. -/
def initializeTree₂ (backend internal : HostList) (fuel : ℕ) : Run (Option BalancedTree) :=
  if internal = [] ∧ backend = [] ∧ fanouts ≠ [] then return none
  else if internal = [] ∧ fanouts.length > 1 then return none
  else build address fe limits fanouts internal (fun _ => backend) fuel

end Model

end BalancedTree

/-- The arguments by which the constructors differ. -/
inductive HostLists
  | single (hosts : HostList) (maxProcs : BitVec 32)
  | separate (backend internal : HostList) (beProcs intProcs : BitVec 32)

/-- The constructors. A specification that is not accepted leaves no tree. -/
def BalancedTree.create (address : Name → ℕ) {hostNameMax : ℕ} (fe : FrontEnd hostNameMax)
    (spec : Text) (lists : HostLists) (fuel : ℕ) : Run (Option BalancedTree) :=
  match parseSpec spec with
  | none => return none
  | some fanouts =>
      match lists with
      | .single hosts maxProcs => initializeTree address fe ⟨maxProcs, maxProcs⟩ fanouts hosts fuel
      | .separate backend internal beProcs intProcs =>
          initializeTree₂ address fe ⟨intProcs, beProcs⟩ fanouts backend internal fuel

namespace BalancedTree

variable {limit : BitVec 32} {s : Slots} {sizes : List (BitVec 32)}

/-- How many nodes there are on some levels. -/
def total (sizes : List (BitVec 32)) : ℕ := (sizes.map BitVec.toNat).sum

/-- Slots are dealt out to the levels. -/
def deal : List (BitVec 32) → List Host → List (List Host)
  | [], _ => []
  | nodes :: sizes, slots => slots.take nodes.toNat :: deal sizes (slots.drop nodes.toNat)

lemma placeLevels_eq (limit : BitVec 32) (sizes : List (BitVec 32)) (s : Slots) :
    placeLevels limit sizes s =
      if total sizes ≤ (s.offered limit).length then
        some (deal sizes (s.offered limit), s.skip limit (total sizes))
      else none := by
  induction sizes generalizing s with
  | nil => simp [placeLevels, total, deal, Slots.skip]
  | cons nodes sizes ih =>
      have htotal : total (nodes :: sizes) = nodes.toNat + total sizes := by simp [total]
      rw [placeLevels, placeAll_eq, htotal, skip_add]
      by_cases hn : nodes.toNat ≤ (s.offered limit).length
      · simp only [if_pos hn, Option.bind_eq_bind, Option.bind_some, ih, offered_skip hn,
          List.length_drop]
        by_cases hrest : total sizes ≤ (s.offered limit).length - nodes.toNat
        · rw [if_pos hrest, if_pos (by omega)]
          rfl
        · rw [if_neg hrest, if_neg (by omega)]
          rfl
      · rw [if_neg hn, if_neg (by omega)]
        rfl

end BalancedTree

end MRNet.TopologyFile
