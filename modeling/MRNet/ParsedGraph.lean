import Mathlib.Data.Finset.Card
import MRNet.DepthFirst
import MRNet.SerialGraph

/-!
# The parsed graph

The graph that the parser of topology files builds, and its validation: a depth-first walk
from the root that counts the nodes it visits. A node is named by its key in the map of
nodes; `add_Node` is the only member that enters one there.
-/
namespace MRNet.TopologyFile
open DepthFirst Relation
open SerialGraph (Text)
open WaitForAll (Rank)
open Std (TreeMap)

abbrev Key := Text

/-- `%d`. -/
def decimal (rank : Rank) : Text :=
  match rank.toInt with
  | .ofNat n => Nat.toDigits 10 n
  | .negSucc n => '-' :: Nat.toDigits 10 (n + 1)

def key (hostName : Text) (localRank : Rank) : Key := hostName ++ ':' :: decimal localRank

structure Node where
  hostName : Text
  localRank : Rank
  rank : Rank
  children : List Key
  parent : Option Key
  visited : Bool

namespace Node

/-- The constructor; the name is looked up in the network. -/
def new (networkName : Text → Text) (hostName : Text) (localRank : Rank) : Node :=
  ⟨networkName hostName, localRank, BitVec.allOnes 32, [], none, false⟩

def mark (visited : Bool) (n : Node) : Node := { n with visited }

def visit (n : Node) : Node := n.mark true

def addChild (child : Key) (n : Node) : Node := { n with children := n.children ++ [child] }

def setParent (parent : Key) (n : Node) : Node := { n with parent := some parent }

end Node

structure ParsedGraph where
  root : Option Key := none
  nodes : TreeMap Key Node := ∅
  fullyConnected : Bool := true
  cycleFree : Bool := true

namespace ParsedGraph

def addNode (g : ParsedGraph) (newNode : Node) : ParsedGraph :=
  { g with nodes := g.nodes.insert (key newNode.hostName newNode.localRank) newNode }

def findNode (networkName : Text → Text) (g : ParsedGraph) (hostName : Text) (localRank : Rank) :
    Option Key :=
  let k := key (networkName hostName) localRank
  if g.nodes.contains k then some k else none

def setRoot (g : ParsedGraph) (root : Key) : ParsedGraph := { g with root := some root }

/-- A call of a member of the node. -/
def modify (g : ParsedGraph) (k : Key) (f : Node → Node) : ParsedGraph :=
  { g with nodes := g.nodes.modify k f }

/-- The number of nodes visited has 32 bits. -/
def preorderTraversal : ℕ → Key → ParsedGraph → Option (BitVec 32 × ParsedGraph)
  | 0, _, _ => none
  | fuel + 1, k, g => do
      let node ← g.nodes[k]?
      if node.visited then
        return (0, { g with cycleFree := false })
      else
        node.children.foldlM (fun (nodesVisited, g) child => do
          let (more, g) ← preorderTraversal fuel child g
          return (nodesVisited + more, g)) (1, g.modify k Node.visit)

def validate (fuel : ℕ) (g : ParsedGraph) : Option (Bool × ParsedGraph) := do
  let root ← g.root
  let (visitedNodes, g) ← preorderTraversal fuel root g
  let g := if visitedNodes.toNat ≠ g.nodes.size then { g with fullyConnected := false } else g
  return (g.cycleFree && g.fullyConnected, g)

variable {g g' : ParsedGraph} {k : Key}

def childrenOf (g : ParsedGraph) (k : Key) : List Key := (g.nodes[k]?.map Node.children).getD []

def edges (g : ParsedGraph) : List (Key × Key) :=
  g.nodes.keys.flatMap fun k => (g.childrenOf k).map (k, ·)

/-- The children of a node are nodes, and no node has been visited. -/
structure Unvisited (g : ParsedGraph) : Prop where
  children_mem : ∀ k ∈ g.nodes, ∀ c ∈ g.childrenOf k, c ∈ g.nodes
  unvisited : ∀ (k : Key) (node : Node), g.nodes[k]? = some node → node.visited = false

lemma mem_keys : k ∈ g.nodes.keys ↔ k ∈ g.nodes := TreeMap.mem_keys

lemma exists_node (h : k ∈ g.nodes) : ∃ node, g.nodes[k]? = some node :=
  Option.isSome_iff_exists.mp (TreeMap.isSome_getElem?_iff_mem.mpr h)

lemma childrenOf_eq {node : Node} (h : g.nodes[k]? = some node) :
    g.childrenOf k = node.children := by
  rw [childrenOf, h]
  rfl

/-- The graph as it is when the nodes of the list have been visited. -/
structure Visited (g₀ g : ParsedGraph) (marked : List Key) : Prop where
  nodes_eq : ∀ k, g.nodes[k]? = g₀.nodes[k]?.map (Node.mark (decide (k ∈ marked)))
  size_eq : g.nodes.size = g₀.nodes.size
  root_eq : g.root = g₀.root
  fullyConnected_eq : g.fullyConnected = g₀.fullyConnected

variable {g₀ : ParsedGraph} {marked : List Key}

lemma Visited.visit (h : Visited g₀ g marked) (k : Key) :
    Visited g₀ (g.modify k Node.visit) (k :: marked) := by
  refine ⟨fun k' => ?_, ?_, h.root_eq, h.fullyConnected_eq⟩
  · show (g.nodes.modify k Node.visit)[k']? = _
    rw [TreeMap.getElem?_modify]
    by_cases hk : compare k k' = .eq
    · have hk' := Std.LawfulEqCmp.eq_of_compare hk
      subst hk'
      rw [if_pos hk, h.nodes_eq k, Option.map_map]
      simp only [List.mem_cons_self, decide_true]
      rfl
    · rw [if_neg hk, h.nodes_eq k']
      have hk' : k' ≠ k := fun heq => hk (heq ▸ Std.ReflCmp.compare_self)
      simp only [List.mem_cons, hk', false_or]
  · show (g.nodes.modify k Node.visit).size = _
    rw [TreeMap.size_modify, h.size_eq]

/-- The loop over the children of a node. -/
def traverseAll (fuel : ℕ) (todo : List Key) (s : BitVec 32 × ParsedGraph) :
    Option (BitVec 32 × ParsedGraph) :=
  todo.foldlM (fun (nodesVisited, g) child => do
    let (more, g) ← preorderTraversal fuel child g
    return (nodesVisited + more, g)) s

lemma traverseAll_cons {fuel : ℕ} {v : Key} {todo : List Key} {nodesVisited more : BitVec 32}
    (h : preorderTraversal fuel v g = some (more, g')) :
    traverseAll fuel (v :: todo) (nodesVisited, g) =
      traverseAll fuel todo (nodesVisited + more, g') := by
  simp only [traverseAll, List.foldlM_cons, h, Option.bind_eq_bind, Option.bind_some,
    Option.pure_def]

lemma traversal_seen {fuel : ℕ} {v : Key} (hv : v ∈ g₀.nodes) (hmarked : v ∈ marked)
    (hg : Visited g₀ g marked) :
    preorderTraversal (fuel + 1) v g = some (0, { g with cycleFree := false }) := by
  obtain ⟨node, hnode⟩ := exists_node hv
  have hlookup := hg.nodes_eq v
  rw [hnode, Option.map_some, decide_eq_true hmarked] at hlookup
  simp only [preorderTraversal, hlookup, Option.bind_eq_bind, Option.bind_some]
  rfl

lemma traversal_enter {fuel : ℕ} {v : Key} (hv : v ∈ g₀.nodes) (hmarked : v ∉ marked)
    (hg : Visited g₀ g marked) :
    preorderTraversal (fuel + 1) v g =
      traverseAll fuel (g₀.childrenOf v) (1, g.modify v Node.visit) := by
  obtain ⟨node, hnode⟩ := exists_node hv
  have hlookup := hg.nodes_eq v
  rw [hnode, Option.map_some, decide_eq_false hmarked] at hlookup
  rw [childrenOf_eq hnode]
  simp only [preorderTraversal, hlookup, Option.bind_eq_bind, Option.bind_some]
  rfl

/-- The traversal does what the walk does, and counts the nodes it marks. -/
theorem traverseAll_walk {depth : ℕ} {todo marked' calls : List Key}
    (hclosed : ∀ k ∈ g₀.nodes, ∀ c ∈ g₀.childrenOf k, c ∈ g₀.nodes)
    (hwalk : Walk g₀.childrenOf depth marked todo marked' calls)
    (htodo : ∀ k ∈ todo, k ∈ g₀.nodes) (hg : Visited g₀ g marked) (nodesVisited : BitVec 32) :
    ∃ g', (∀ fuel > depth, traverseAll fuel todo (nodesVisited, g) =
        some (nodesVisited + BitVec.ofNat 32 (marked'.length - marked.length), g')) ∧
      Visited g₀ g' marked' ∧
      g'.cycleFree = (g.cycleFree && decide (marked'.length = marked.length + calls.length)) := by
  induction hwalk generalizing g nodesVisited with
  | nil =>
      refine ⟨g, fun _ _ => ?_, hg, ?_⟩
      · rw [Nat.sub_self, BitVec.add_zero]
        rfl
      · rw [List.length_nil, Nat.add_zero, decide_eq_true rfl, Bool.and_true]
  | @seen depth marked v todo marked' calls hv rest ih =>
      obtain ⟨hvmem, htodo⟩ := List.forall_mem_cons.mp htodo
      obtain ⟨g', hrun, hg', hcycle⟩ := ih htodo (g := { g with cycleFree := false })
        ⟨hg.nodes_eq, hg.size_eq, hg.root_eq, hg.fullyConnected_eq⟩ (nodesVisited + 0#32)
      refine ⟨g', fun fuel hfuel => ?_, hg', ?_⟩
      · obtain ⟨fuel, rfl⟩ : ∃ f, fuel = f + 1 := ⟨fuel - 1, by omega⟩
        have hseen : preorderTraversal (fuel + 1) v g = some (0#32, { g with cycleFree := false }) :=
          traversal_seen hvmem hv hg
        rw [traverseAll_cons hseen, hrun _ hfuel, BitVec.add_zero]
      · have hle := rest.length_le.2
        have hne : marked'.length ≠ marked.length + (v :: calls).length := by
          rw [List.length_cons]
          omega
        rw [hcycle, decide_eq_false hne, Bool.and_false, Bool.false_and]
  | @enter depth marked v todo marked₁ marked₂ calls₁ calls₂ hv inner rest ih₁ ih₂ =>
      obtain ⟨hvmem, htodo⟩ := List.forall_mem_cons.mp htodo
      obtain ⟨g₁, hrun₁, hg₁, hcycle₁⟩ := ih₁ (hclosed v hvmem) (hg.visit v) 1
      obtain ⟨g₂, hrun₂, hg₂, hcycle₂⟩ := ih₂ htodo hg₁
        (nodesVisited + (1 + BitVec.ofNat 32 (marked₁.length - (v :: marked).length)))
      have hle₁ := inner.length_le
      have hle₂ := rest.length_le
      rw [List.length_cons] at hle₁
      refine ⟨g₂, fun fuel hfuel => ?_, hg₂, ?_⟩
      · obtain ⟨fuel, rfl⟩ : ∃ f, fuel = f + 1 := ⟨fuel - 1, by omega⟩
        have hcount : marked₂.length - marked.length = 1 +
            (marked₁.length - (v :: marked).length) + (marked₂.length - marked₁.length) := by
          rw [List.length_cons]
          omega
        have henter := (traversal_enter hvmem hv hg).trans (hrun₁ fuel (by omega))
        rw [traverseAll_cons henter, hrun₂ _ hfuel, hcount, BitVec.ofNat_add, BitVec.ofNat_add,
          BitVec.add_assoc nodesVisited]
        rfl
      · have hiff : marked₁.length = (v :: marked).length + calls₁.length ∧
            marked₂.length = marked₁.length + calls₂.length ↔
            marked₂.length = marked.length + (v :: (calls₁ ++ calls₂)).length := by
          simp only [List.length_cons, List.length_append]
          omega
        rw [hcycle₂, hcycle₁, Bool.and_assoc, ← Bool.decide_and, decide_eq_decide.mpr hiff]
        rfl

lemma traverseAll_singleton (fuel : ℕ) (v : Key) (g : ParsedGraph) :
    traverseAll fuel [v] (0#32, g) = preorderTraversal fuel v g := by
  rw [traverseAll, List.foldlM_cons]
  cases h : preorderTraversal fuel v g with
  | none => simp [h]
  | some s => simp [h]

lemma Unvisited.visited (hg : Unvisited g) : Visited g g [] := by
  refine ⟨fun k => ?_, rfl, rfl, rfl⟩
  cases hnode : g.nodes[k]? with
  | none => rfl
  | some node =>
      have hmark : node.mark false = node := by rw [← hg.unvisited k node hnode]; rfl
      rw [Option.map_some, decide_eq_false List.not_mem_nil, hmark]

/-- Validation comes to an end, and accepts a graph whose edges form a tree; the number of
nodes visited is the number of nodes only if it fits its type. -/
theorem validate_iff {root : Key} (hg : Unvisited g) (hroot : g.root = some root)
    (hmem : root ∈ g.nodes) (hcycle : g.cycleFree = true) (hconnected : g.fullyConnected = true) :
    ∃ valid g', (∀ fuel > g.nodes.size, validate fuel g = some (valid, g')) ∧
      (valid = true ↔ IsRootedTree g.nodes.keys g.edges root ∧ g.nodes.size < 2 ^ 32) ∧
      (valid = true → ∃ marked, Visited g g' marked) := by
  have hclosed : ∀ v ∈ g.nodes.keys, ∀ w ∈ g.childrenOf v, w ∈ g.nodes.keys :=
    fun v hv w hw => mem_keys.mpr (hg.children_mem v (mem_keys.mp hv) w hw)
  have hlength : g.nodes.keys.length = g.nodes.size := TreeMap.length_keys
  have hcard : (g.nodes.keys.toFinset \ ([] : List Key).toFinset).card ≤ g.nodes.size := by
    rw [List.toFinset_nil, Finset.sdiff_empty, ← hlength]
    exact List.toFinset_card_le _
  obtain ⟨marked, calls, hwalk⟩ :
      ∃ marked calls, Walk g.childrenOf g.nodes.size [] [root] marked calls :=
    exists_walk (by simpa using hclosed) (by simpa using hmem) hcard
  have htree := isRootedTree_iff TreeMap.nodup_keys hclosed (List.Perm.refl g.edges)
    (mem_keys.mpr hmem) hwalk
  obtain ⟨g', hrun, hg', hcycle'⟩ := traverseAll_walk hg.children_mem hwalk
    (by simpa using hmem) hg.visited 0#32
  simp only [List.length_nil, Nat.sub_zero, BitVec.zero_add, Nat.zero_add] at hrun hcycle'
  have hcall (fuel : ℕ) (hfuel : g.nodes.size < fuel) :
      preorderTraversal fuel root g = some (BitVec.ofNat 32 marked.length, g') := by
    rw [← traverseAll_singleton, hrun fuel hfuel]
  have hle : marked.length ≤ g.nodes.size := by
    rw [← hlength]
    exact (hwalk.walked_root.nodup.subperm
      (hwalk.marked_subset hclosed nofun (by simpa using hmem))).length_le
  have hwhole : (BitVec.ofNat 32 marked.length).toNat = g'.nodes.size ↔
      marked.length = g.nodes.keys.length ∧ g.nodes.size < 2 ^ 32 := by
    rw [hg'.size_eq, hlength, BitVec.toNat_ofNat]
    have hlt := Nat.mod_lt marked.length (Nat.two_pow_pos 32)
    have hmod := @Nat.mod_eq_of_lt marked.length (2 ^ 32)
    omega
  rw [htree, hwalk.nodup_iff, and_assoc, ← hwhole]
  by_cases hcount : (BitVec.ofNat 32 marked.length).toNat = g'.nodes.size
  · refine ⟨g'.cycleFree && g'.fullyConnected, g', fun fuel hfuel => ?_, ?_⟩
    · simp [validate, hroot, hcall fuel hfuel, hcount]
    · rw [hcycle', hg'.fullyConnected_eq, hcycle, hconnected, Bool.true_and, Bool.and_true,
        decide_eq_true_iff]
      exact ⟨⟨fun h => ⟨h, hcount⟩, And.left⟩, fun _ => ⟨marked, hg'⟩⟩
  · refine ⟨g'.cycleFree && false, { g' with fullyConnected := false }, fun fuel hfuel => ?_, ?_⟩
    · simp only [validate, hroot, hcall fuel hfuel, Option.bind_eq_bind, Option.bind_some, ne_eq,
        hcount, not_false_eq_true, if_true]
      rfl
    · rw [Bool.and_false]
      exact ⟨⟨nofun, fun h => absurd h.2 hcount⟩, nofun⟩

end ParsedGraph

end MRNet.TopologyFile
