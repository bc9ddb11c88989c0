import MRNet.RankedGraph
import MRNet.TopologyText

/-!
# From the parsed graph to the topology

A parsed graph with ranks is serialized, and a topology is reset to its text. The names of
the hosts go into the text as they are.
-/
namespace MRNet.TopologyFile
open DepthFirst Relation
open SerialGraph (Text Port Graph Legible unknownPort)
open WaitForAll (Rank)
open Std (TreeMap)
open Codec
open MRNet.Topology (NetworkTopology Record AllSound SoundRoot Links readRecords readRecords_eq
  register register_of_mem register_of_not_mem reset_read)

namespace ParsedGraph

/-- `UnknownPort` is written for every node. -/
def serialize (haveBackends : Bool) (g : ParsedGraph) : ℕ → Key → Text → Option Text
  | 0, _, _ => none
  | fuel + 1, inode, serialGraph => do
      let node ← g.nodes[inode]?
      if node.children.isEmpty && haveBackends then
        return SerialGraph.addLeaf serialGraph node.hostName unknownPort node.rank
      else
        let serialGraph :=
          SerialGraph.addSubTreeRoot serialGraph node.hostName unknownPort node.rank
        let serialGraph ← node.children.foldlM
          (fun serialGraph child => serialize haveBackends g fuel child serialGraph) serialGraph
        return SerialGraph.endSubTree serialGraph

def getSerializedGraphString (fuel : ℕ) (haveBackends : Bool) (g : ParsedGraph) : Option Text := do
  serialize haveBackends g fuel (← g.root) []

end ParsedGraph

/-- A node as it is written, with the graphs of its children. -/
def Node.graph (n : Node) (children : List Graph) : Graph :=
  ⟨n.hostName, unknownPort, n.rank, n.children.isEmpty, children⟩

/-- The port that a topology reads for the node. -/
def Node.portRead (n : Node) : Port := (n.graph []).readPort

namespace ParsedGraph

variable {g g' : ParsedGraph} {k : Key} {gs : List Graph} {fuel : ℕ} {node : Node}

/-- The loop over the children of a node. -/
def serializeAll (g : ParsedGraph) (fuel : ℕ) (todo : List Key) (serialGraph : Text) :
    Option Text :=
  todo.foldlM (fun serialGraph child => serialize true g fuel child serialGraph) serialGraph

lemma serialize_node (h : g.nodes[k]? = some node) (hlength : gs.length = node.children.length)
    (hall : ∀ serialGraph, serializeAll g fuel node.children serialGraph =
      some (serialGraph ++ (gs.map Graph.text).flatten)) (serialGraph : Text) :
    serialize true g (fuel + 1) k serialGraph = some (serialGraph ++ (node.graph gs).text) := by
  have hloop := hall (SerialGraph.addSubTreeRoot serialGraph node.hostName unknownPort
    node.rank)
  rw [serializeAll] at hloop
  simp only [serialize, h, Option.bind_eq_bind, Option.bind_some, hloop, Bool.and_true]
  cases hleaf : node.children.isEmpty with
  | true =>
      rw [List.isEmpty_iff] at hleaf
      rw [hleaf, List.length_nil, List.length_eq_zero_iff] at hlength
      rw [if_pos rfl, SerialGraph.addLeaf, SerialGraph.nodeText, Node.graph, Graph.text, hlength,
        Graph.label, hleaf]
      simp
  | false =>
      rw [if_neg Bool.false_ne_true, SerialGraph.addSubTreeRoot, SerialGraph.nodeText, Node.graph,
        Graph.text, Graph.label, SerialGraph.endSubTree, hleaf]
      simp

lemma serializeAll_cons {v : Key} {todo : List Key} {text text' : Text}
    (h : serialize true g fuel v text = some text') :
    serializeAll g fuel (v :: todo) text = serializeAll g fuel todo text' := by
  rw [serializeAll, List.foldlM_cons, h]
  rfl

def hostOf (g : ParsedGraph) (k : Key) : Text := (g.nodes[k]?.map Node.hostName).getD []

/-- What a topology is to say of a node. -/
def recordOf (g : ParsedGraph) (parentRank : Key → Option Rank) (k : Key) : Record :=
  ⟨g.hostOf k, (g.nodes[k]?.map Node.portRead).getD 0, (g.childrenOf k).isEmpty, parentRank k⟩

/-- The nodes know the ranks of their parents. -/
def ParentRanks (g : ParsedGraph) (parentRank : Key → Option Rank) : Prop :=
  ∀ k, ∀ c ∈ g.childrenOf k, parentRank c = some (g.rankOf k)

/-- The graphs of the nodes in a list say what they are to say of all nodes below. -/
structure Written (g : ParsedGraph) (todo calls : List Key) (gs : List Graph) : Prop where
  length_eq : gs.length = todo.length
  records : ∀ parentRank : Key → Option Rank, g.ParentRanks parentRank → ∀ parent : Option Rank,
    (∀ k ∈ todo, parentRank k = parent) → (gs.map fun G => readRecords G parent).flatten =
      calls.map fun k => (g.rankOf k, g.recordOf parentRank k)
  sound : (∀ k ∈ calls, Legible (g.hostOf k)) → ∀ G ∈ gs, AllSound G

/-- One node with the graphs of its children. -/
lemma Written.root {calls : List Key} (hnode : g.nodes[k]? = some node)
    (h : Written g node.children calls gs) (parentRank : Key → Option Rank)
    (hparents : g.ParentRanks parentRank) :
    readRecords (node.graph gs) (parentRank k) =
      (k :: calls).map fun k => (g.rankOf k, g.recordOf parentRank k) := by
  have hrank : g.rankOf k = node.rank := by
    rw [rankOf, hnode]
    rfl
  have hrecord : g.recordOf parentRank k =
      ⟨node.hostName, node.portRead, node.children.isEmpty, parentRank k⟩ := by
    rw [recordOf, hostOf, childrenOf, hnode]
    rfl
  have hbelow := h.records parentRank hparents (some node.rank) fun c hc => by
    rw [hparents k c ((childrenOf_eq hnode).symm ▸ hc), hrank]
  rw [readRecords_eq, List.map_cons, hrank, hrecord, ← hbelow]
  rfl

lemma Written.leaf {calls : List Key} (h : Written g node.children calls gs) :
    (node.graph gs).isBackEnd = true → (node.graph gs).children = [] := by
  intro hleaf
  have hlength := h.length_eq
  rw [List.isEmpty_iff.mp hleaf] at hlength
  exact List.length_eq_zero_iff.mp hlength

lemma hostOf_eq (h : g.nodes[k]? = some node) : g.hostOf k = node.hostName := by
  rw [hostOf, h]
  rfl

/-- The text that a walk without turning back writes. -/
theorem serializeAll_walk {depth : ℕ} {marked todo marked' calls : List Key}
    (hclosed : ∀ k ∈ g.nodes, ∀ c ∈ g.childrenOf k, c ∈ g.nodes)
    (hwalk : Walk g.childrenOf depth marked todo marked' calls)
    (hfresh : marked'.length = marked.length + calls.length) (htodo : ∀ k ∈ todo, k ∈ g.nodes) :
    ∃ gs, (∀ fuel > depth, ∀ text, serializeAll g fuel todo text =
      some (text ++ (gs.map Graph.text).flatten)) ∧ Written g todo calls gs := by
  induction hwalk with
  | nil =>
      refine ⟨[], fun _ _ text => ?_, rfl, fun _ _ _ _ => rfl, fun _ => nofun⟩
      rw [List.map_nil, List.flatten_nil, List.append_nil]
      rfl
  | seen _ rest _ =>
      have hle := rest.length_le.2
      rw [List.length_cons] at hfresh
      omega
  | @enter depth marked v todo marked₁ marked₂ calls₁ calls₂ _ inner rest ih₁ ih₂ =>
      obtain ⟨hvmem, htodo⟩ := List.forall_mem_cons.mp htodo
      obtain ⟨node, hnode⟩ := exists_node hvmem
      have hle₁ := inner.length_le.2
      have hle₂ := rest.length_le.2
      simp only [List.length_cons, List.length_append] at hfresh hle₁
      obtain ⟨gs₁, hrun₁, hwritten₁⟩ :=
        ih₁ (by rw [List.length_cons]; omega) (hclosed v hvmem)
      obtain ⟨gs₂, hrun₂, hwritten₂⟩ := ih₂ (by omega) htodo
      rw [childrenOf_eq hnode] at hrun₁ hwritten₁
      refine ⟨node.graph gs₁ :: gs₂, fun fuel hfuel text => ?_, ?_, ?_, ?_⟩
      · obtain ⟨fuel, rfl⟩ : ∃ f, fuel = f + 1 := ⟨fuel - 1, by omega⟩
        rw [serializeAll_cons (serialize_node hnode hwritten₁.length_eq
          (hrun₁ fuel (by omega)) text), hrun₂ _ hfuel, List.map_cons, List.flatten_cons,
          List.append_assoc]
      · rw [List.length_cons, List.length_cons, hwritten₂.length_eq]
      · intro parentRank hparents parent htodo'
        obtain ⟨hv, htodo'⟩ := List.forall_mem_cons.mp htodo'
        rw [List.map_cons, List.flatten_cons, ← hv, hwritten₁.root hnode parentRank hparents, hv,
          hwritten₂.records parentRank hparents parent htodo', List.map_cons, List.map_cons,
          List.map_append, List.cons_append]
      · intro hlegible
        simp only [List.forall_mem_cons, List.forall_mem_append] at hlegible
        refine List.forall_mem_cons.mpr ⟨fun s hs => ?_, hwritten₂.sound hlegible.2.2⟩
        rw [Graph.subgraphs_eq] at hs
        rcases List.mem_cons.mp hs with rfl | hs
        · have hlegible₁ : Legible node.hostName := hostOf_eq hnode ▸ hlegible.1
          exact ⟨hlegible₁, hwritten₁.leaf⟩
        · obtain ⟨part, hpart, hs⟩ := List.mem_flatten.mp hs
          obtain ⟨G, hG, rfl⟩ := List.mem_map.mp hpart
          exact hwritten₁.sound hlegible.2.1 G hG s hs

/-- The names of the hosts can be told from what is around them. Nothing is read behind the name
of the root but its children. -/
structure NamesLegible (g : ParsedGraph) : Prop where
  noColon : ∀ k ∈ g.nodes, ':' ∉ g.hostOf k
  noOpening : ∀ k ∈ g.nodes, '[' ∉ g.hostOf k
  noClosing : ∀ k ∈ g.nodes, g.root ≠ some k → ']' ∉ g.hostOf k

/-- The topology has the nodes of the graph, with the ranks that they have in `g'`. -/
structure Mirrors (g g' : ParsedGraph) (t : NetworkTopology) : Prop where
  ranks : ∀ r, (t.record r).isSome ↔ ∃ k ∈ g.nodes, g'.rankOf k = r
  nodes : ∀ k ∈ g.nodes, ∃ port parent, t.record (g'.rankOf k) =
    some ⟨g.hostOf k, port, (g.childrenOf k).isEmpty, parent⟩ ∧
      ∀ r, parent = some r ↔ ∃ p ∈ g.nodes, k ∈ g.childrenOf p ∧ g'.rankOf p = r

section Reset

variable (h : HasRanks g g')
include h

lemma HasRanks.mem_iff : k ∈ g'.nodes ↔ k ∈ g.nodes := by
  rw [mem_nodes_iff, mem_nodes_iff, h.nodes_eq, Option.isSome_map]

lemma HasRanks.childrenOf_eq : g'.childrenOf = g.childrenOf := by
  ext1 k
  rw [childrenOf, childrenOf, h.nodes_eq, Option.map_map]
  rfl

lemma HasRanks.hostOf_eq : g'.hostOf = g.hostOf := by
  ext1 k
  rw [hostOf, hostOf, h.nodes_eq, Option.map_map]
  rfl

lemma HasRanks.nodup (hsize : g.nodes.size < 2 ^ 32) : (g.nodes.keys.map g'.rankOf).Nodup := by
  refine h.perm.nodup_iff.mpr (List.Nodup.map_on (fun a ha b hb heq => ?_) List.nodup_range)
  have hnat := congrArg BitVec.toNat heq
  rw [List.mem_range] at ha hb
  rwa [BitVec.toNat_ofNat, BitVec.toNat_ofNat, Nat.mod_eq_of_lt (by omega),
    Nat.mod_eq_of_lt (by omega)] at hnat

end Reset

/-- The rank of the parent of a node. -/
def parentRank (g g' : ParsedGraph) (k : Key) : Option Rank :=
  (g.nodes.keys.find? fun p => k ∈ g.childrenOf p).map g'.rankOf

lemma mem_edges {a b : Key} : (a, b) ∈ g.edges ↔ a ∈ g.nodes ∧ b ∈ g.childrenOf a := by
  rw [mem_edges_iff (List.Perm.refl g.edges), mem_keys]

lemma find_parent {p : Key} (h : (g.nodes.keys.find? fun p => k ∈ g.childrenOf p) = some p) :
    p ∈ g.nodes ∧ k ∈ g.childrenOf p :=
  ⟨mem_keys.mp (List.mem_of_find?_eq_some h), by simpa using List.find?_some h⟩

lemma parentRank_eq_some {root : Key} (htree : IsRootedTree g.nodes.keys g.edges root)
    (hk : k ∈ g.nodes) {r : Rank} :
    g.parentRank g' k = some r ↔ ∃ p ∈ g.nodes, k ∈ g.childrenOf p ∧ g'.rankOf p = r := by
  rw [parentRank, Option.map_eq_some_iff]
  constructor
  · rintro ⟨p, hp, hr⟩
    exact ⟨p, (find_parent hp).1, (find_parent hp).2, hr⟩
  · rintro ⟨p, hp, hchild, hr⟩
    have hsome : (g.nodes.keys.find? fun p => k ∈ g.childrenOf p).isSome :=
      List.find?_isSome.mpr ⟨p, mem_keys.mpr hp, decide_eq_true hchild⟩
    obtain ⟨q, hq⟩ := Option.isSome_iff_exists.mp hsome
    have hqp : q = p := htree.parent_unique (mem_keys.mpr hk)
      (mem_edges.mpr (find_parent hq)) (mem_edges.mpr ⟨hp, hchild⟩)
    exact ⟨q, hq, hqp ▸ hr⟩

/-- The calls of the walk over a tree are its nodes. -/
lemma calls_perm {root : Key} {depth : ℕ} {marked calls : List Key}
    (hclosed : ∀ k ∈ g.nodes, ∀ c ∈ g.childrenOf k, c ∈ g.nodes) (hroot : root ∈ g.nodes)
    (htree : IsRootedTree g.nodes.keys g.edges root)
    (hwalk : Walk g.childrenOf depth [] [root] marked calls) :
    calls.Perm g.nodes.keys ∧ marked.length = calls.length := by
  have hclosed' : ∀ v ∈ g.nodes.keys, ∀ w ∈ g.childrenOf v, w ∈ g.nodes.keys :=
    fun v hv w hw => mem_keys.mpr (hclosed v (mem_keys.mp hv) w hw)
  obtain ⟨hnodup, hlength⟩ := (isRootedTree_iff TreeMap.nodup_keys hclosed' (List.Perm.refl g.edges)
    (mem_keys.mpr hroot) hwalk).mp htree
  have hsame := hwalk.nodup_iff.mp hnodup
  have hmarked : ∀ v ∈ marked, v ∈ g.nodes.keys :=
    hwalk.marked_subset hclosed' nofun (by simpa [mem_keys] using hroot)
  have hsub : calls.Subperm g.nodes.keys :=
    hnodup.subperm fun v hv => hmarked v (hwalk.walked_root.calls_marked v hv)
  exact ⟨hsub.perm_of_length_le (by omega), hsame⟩

/-- The text of a tree with ranks. -/
lemma exists_written {root : Key} (hclosed : ∀ k ∈ g.nodes, ∀ c ∈ g.childrenOf k, c ∈ g.nodes)
    (hroot : g.root = some root) (htree : IsRootedTree g.nodes.keys g.edges root)
    (hranks : HasRanks g g') :
    ∃ (node : Node) (below : List Key) (gs : List Graph), g'.nodes[root]? = some node ∧
      (root :: below).Perm g.nodes.keys ∧ Written g' node.children below gs ∧
      ∀ fuel > g.nodes.size,
        g'.getSerializedGraphString fuel true = some (node.graph gs).text := by
  have hmem : root ∈ g.nodes := mem_keys.mp htree.root_mem
  have hcard : (g.nodes.keys.toFinset \ ([] : List Key).toFinset).card ≤ g.nodes.size := by
    rw [List.toFinset_nil, Finset.sdiff_empty, size_eq_length]
    exact List.toFinset_card_le _
  obtain ⟨marked, calls, hwalk⟩ :
      ∃ marked calls, Walk g.childrenOf g.nodes.size [] [root] marked calls :=
    exists_walk (by simpa [mem_keys] using hclosed) (by simpa [mem_keys] using hmem) hcard
  obtain ⟨hperm, hlength⟩ := calls_perm hclosed hmem htree hwalk
  obtain ⟨d, below, hdepth, rfl, inner⟩ := hwalk.below_root
  obtain ⟨node, hnode⟩ := exists_node (hranks.mem_iff.mpr hmem)
  have hchildren : ∀ k ∈ g'.nodes, ∀ c ∈ g'.childrenOf k, c ∈ g'.nodes := by
    intro k hk c hc
    rw [hranks.childrenOf_eq] at hc
    exact hranks.mem_iff.mpr (hclosed k (hranks.mem_iff.mp hk) c hc)
  rw [← hranks.childrenOf_eq, ParsedGraph.childrenOf_eq hnode] at inner
  obtain ⟨gs, hrun, hwritten⟩ := serializeAll_walk hchildren inner
    (by rw [hlength, List.length_cons, List.length_singleton, Nat.add_comm])
    (by rw [← ParsedGraph.childrenOf_eq hnode]; exact hchildren root (hranks.mem_iff.mpr hmem))
  refine ⟨node, below, gs, hnode, hperm, hwritten, fun fuel hfuel => ?_⟩
  obtain ⟨fuel, rfl⟩ : ∃ f, fuel = f + 1 := ⟨fuel - 1, by omega⟩
  rw [getSerializedGraphString, hranks.root_eq, hroot]
  exact serialize_node hnode hwritten.length_eq (hrun fuel (by omega)) []

/-- A tree with ranks is read back from its text. -/
theorem reset_mirrors {root : Key} (hclosed : ∀ k ∈ g.nodes, ∀ c ∈ g.childrenOf k, c ∈ g.nodes)
    (hroot : g.root = some root) (htree : IsRootedTree g.nodes.keys g.edges root)
    (hsize : g.nodes.size < 2 ^ 32) (hranks : HasRanks g g') (hnames : g.NamesLegible)
    {s : NetworkTopology} (hlinks : Links s) :
    ∃ text t, (∀ fuel > g.nodes.size, g'.getSerializedGraphString fuel true = some text) ∧
      s.reset text = .ok t ∧ Mirrors g g' t := by
  obtain ⟨node, below, gs, hnode, hperm, hwritten, hrun⟩ :=
    exists_written hclosed hroot htree hranks
  have hmem : root ∈ g.nodes := mem_keys.mp htree.root_mem
  have hcalls : ∀ k, k ∈ root :: below ↔ k ∈ g.nodes := fun k => by rw [hperm.mem_iff, mem_keys]
  obtain ⟨hnot, -⟩ := List.nodup_cons.mp (hperm.nodup_iff.mpr TreeMap.nodup_keys)
  have hname : g.hostOf root = (node.graph gs).hostName := by
    rw [← hranks.hostOf_eq, ParsedGraph.hostOf_eq hnode]
    rfl
  have hsound : SoundRoot (node.graph gs) := by
    refine ⟨?_, ?_, hwritten.leaf, hwritten.sound fun k hk => ?_⟩
    · exact hname ▸ hnames.noColon root hmem
    · exact hname ▸ hnames.noOpening root hmem
    · have hk' := (hcalls k).mp (List.mem_cons_of_mem root hk)
      have hne : g.root ≠ some k := by
        rw [hroot]
        rintro ⟨rfl⟩
        exact hnot hk
      rw [hranks.hostOf_eq]
      exact ⟨hnames.noColon k hk', hnames.noOpening k hk', hnames.noClosing k hk' hne⟩
  have hparents : g'.ParentRanks (g.parentRank g') := by
    intro k c hc
    rw [hranks.childrenOf_eq] at hc
    have hk : k ∈ g.nodes := by
      by_contra hk
      rw [childrenOf, TreeMap.getElem?_eq_none hk] at hc
      exact List.not_mem_nil hc
    exact (parentRank_eq_some htree (hclosed k hk c hc)).mpr ⟨k, hk, hc, rfl⟩
  have hfirst : g.parentRank g' root = none := by
    rw [Option.eq_none_iff_forall_ne_some]
    intro r hr
    obtain ⟨p, hp, hchild, -⟩ := (parentRank_eq_some htree hmem).mp hr
    exact htree.root_first (List.mem_map_of_mem (f := Prod.snd) (mem_edges.mpr ⟨hp, hchild⟩))
  have hrecords := hwritten.root hnode (g.parentRank g') hparents
  rw [hfirst] at hrecords
  have hnodup : ((readRecords (node.graph gs) none).map Prod.fst).Nodup := by
    rw [hrecords, List.map_map]
    exact ((hperm.map g'.rankOf).nodup_iff).mpr (hranks.nodup hsize)
  obtain ⟨t, ht, -, hrecord⟩ := reset_read hsound hlinks hnodup
  have hfound : ∀ k ∈ g.nodes,
      t.record (g'.rankOf k) = some (g'.recordOf (g.parentRank g') k) := by
    intro k hk
    rw [hrecord]
    refine register_of_mem hnodup ?_
    rw [hrecords]
    exact List.mem_map_of_mem (f := fun k => (g'.rankOf k, g'.recordOf (g.parentRank g') k))
      ((hcalls k).mpr hk)
  refine ⟨_, t, hrun, ht, fun r => ⟨fun hsome => ?_, ?_⟩, fun k hk => ?_⟩
  · have hr : r ∈ (readRecords (node.graph gs) none).map Prod.fst := by
      by_contra hr
      rw [hrecord, register_of_not_mem hr] at hsome
      cases hsome
    rw [hrecords, List.map_map] at hr
    obtain ⟨k, hk, hrank⟩ := List.mem_map.mp hr
    exact ⟨k, (hcalls k).mp hk, hrank⟩
  · rintro ⟨k, hk, rfl⟩
    rw [hfound k hk]
    rfl
  · refine ⟨(g'.nodes[k]?.map Node.portRead).getD 0, g.parentRank g' k, ?_,
      fun r => parentRank_eq_some htree hk⟩
    rw [hfound k hk, recordOf, hranks.hostOf_eq, hranks.childrenOf_eq]

/-- A visited graph has the same nodes and edges. -/
lemma Visited.isRootedTree {marked : List Key} {root : Key} (h : Visited g g' marked)
    (hclosed : ∀ k ∈ g.nodes, ∀ c ∈ g.childrenOf k, c ∈ g.nodes)
    (htree : IsRootedTree g.nodes.keys g.edges root) :
    (∀ k ∈ g'.nodes, ∀ c ∈ g'.childrenOf k, c ∈ g'.nodes) ∧
      IsRootedTree g'.nodes.keys g'.edges root := by
  have hchildren : g'.childrenOf = g.childrenOf := by
    ext1 k
    rw [childrenOf, childrenOf, h.nodes_eq, Option.map_map]
    rfl
  have hmem : ∀ k, k ∈ g'.nodes ↔ k ∈ g.nodes := by
    intro k
    rw [mem_nodes_iff, mem_nodes_iff, h.nodes_eq, Option.isSome_map]
  rw [edges, hchildren, keys_congr hmem]
  exact ⟨fun k hk c hc => (hmem c).mpr (hclosed k ((hmem k).mp hk) c hc), htree⟩

end ParsedGraph

open ParsedGraph

variable {networkName : Text → Text} {lines : List Line} {p : Parser} {g : ParsedGraph}

/-- The graph of a file, after its validation. -/
def JustParsed (networkName : Text → Text) (lines : List Line) (p : Parser) (g : ParsedGraph) :
    Prop :=
  ∃ p' g₀, yyparse networkName (lines.flatMap Line.tokens) [] p = some p' ∧
    p'.parsedGraph = some g₀ ∧ ∀ fuel > g₀.nodes.size, g₀.validate fuel = some (true, g)

lemma JustParsed.isRootedTree {hostlist potentialRoot : List Key}
    (h : JustParsed networkName lines ⟨none, hostlist, potentialRoot⟩ g) :
    ∃ root, g.root = some root ∧ (∀ k ∈ g.nodes, ∀ c ∈ g.childrenOf k, c ∈ g.nodes) ∧
      IsRootedTree g.nodes.keys g.edges root := by
  obtain ⟨p', g₀, hparse, hg₀, hvalid⟩ := h
  have hne : lines ≠ [] := by
    rintro rfl
    cases hparse
  obtain ⟨g₁, hbuilt⟩ := @built_lines networkName lines hne hostlist potentialRoot
  rw [yyparse_file hne] at hparse
  split at hparse
  · obtain ⟨root, hroot, rfl⟩ := hbuilt.configAction_eq.mp hparse
    obtain rfl := Option.some.inj hg₀
    have hmem := hroot ▸ List.mem_singleton_self root
    obtain ⟨valid, g₂, hrun, hiff, hvisited⟩ := hbuilt.setRoot hmem
    have hboth := (hrun _ (Nat.lt_succ_self _)).symm.trans (hvalid _ (Nat.lt_succ_self _))
    obtain ⟨rfl, rfl⟩ := Prod.mk.inj (Option.some.inj hboth)
    obtain ⟨marked, hvisited⟩ := hvisited rfl
    exact ⟨root, hvisited.root_eq, hvisited.isRootedTree (hbuilt.children_mem root)
      (hiff.mp rfl).1⟩
  · cases hparse

/-- The ranks are given out as they should, and the topology that is reset to the graph has its
nodes. -/
def BecomesTopology (g : ParsedGraph) (s : NetworkTopology) : Prop :=
  HasRanks g (assignNodeRanks true (g, 0#32)).1 ∧ ∃ text t,
    (∀ fuel > g.nodes.size, (assignNodeRanks true (g, 0#32)).1.getSerializedGraphString fuel true =
      some text) ∧ s.reset text = .ok t ∧ Mirrors g (assignNodeRanks true (g, 0#32)).1 t

/-- A file becomes the topology if the names of its hosts can be read back. -/
theorem becomesTopology (networkName : Text → Text) (lines : List Line)
    (hostlist potentialRoot : List Key) (g : ParsedGraph) (s : NetworkTopology)
    (hparsed : JustParsed networkName lines ⟨none, hostlist, potentialRoot⟩ g)
    (hsize : g.nodes.size < 2 ^ 31) (hlinks : Links s) (hnames : g.NamesLegible) :
    BecomesTopology g s := by
  obtain ⟨root, hroot, hclosed, htree⟩ := hparsed.isRootedTree
  have hranks := assignNodeRanks_ranks hsize
  exact ⟨hranks, reset_mirrors hclosed hroot htree (by omega) hranks hnames hlinks⟩

/-- The graph of one host with one child. -/
def pairGraph (a b : Text) : ParsedGraph where
  root := some (key a 0)
  nodes := (TreeMap.empty.insert (key a 0)
    ⟨a, 0, BitVec.allOnes 32, [key b 0], none, true⟩).insert (key b 0)
    ⟨b, 0, BitVec.allOnes 32, [], some (key a 0), true⟩

lemma pair_parsed : JustParsed id [⟨(['a'], 0), [(['b'], 0)]⟩] ⟨none, [], []⟩
    (pairGraph ['a'] ['b']) := by
  refine ⟨_, _, rfl, rfl, fun fuel hfuel => ?_⟩
  have htwo : 2 < fuel := hfuel
  obtain ⟨fuel, rfl⟩ : ∃ f, fuel = f + 2 := ⟨fuel - 2, by omega⟩
  rfl

lemma links_empty : Links NetworkTopology.empty :=
  MRNet.Topology.links_of_heap_empty rfl rfl rfl

theorem becomesTopology_pair : BecomesTopology (pairGraph ['a'] ['b']) NetworkTopology.empty := by
  have hkeys : ∀ k ∈ (pairGraph ['a'] ['b']).nodes, k ∈ [key ['a'] 0, key ['b'] 0] :=
    fun k hk => mem_keys.mpr hk
  refine becomesTopology id [⟨(['a'], 0), [(['b'], 0)]⟩] [] [] _ _ pair_parsed (by decide)
    links_empty ⟨fun k hk => ?_, fun k hk => ?_, fun k hk _ => ?_⟩
  all_goals
    have hk := hkeys k hk
    fin_cases hk <;> decide

/-- The names of both hosts end with a bracket. -/
lemma bracket_parsed : JustParsed id [⟨(['a', '['], 0), [(['b', '['], 0)]⟩] ⟨none, [], []⟩
    (pairGraph ['a', '['] ['b', '[']) := by
  refine ⟨_, _, rfl, rfl, fun fuel hfuel => ?_⟩
  have htwo : 2 < fuel := hfuel
  obtain ⟨fuel, rfl⟩ : ∃ f, fuel = f + 2 := ⟨fuel - 2, by omega⟩
  rfl

def bracketText : Text :=
  ['[', 'a', '[', ':', '0', '0', '0', '0', '0', ':', '1', ':', '1',
    '[', 'b', '[', ':', '0', '0', '0', '0', '0', ':', '0', ':', '0', ']', ']']

/-- The scan for the end of the first child runs past the end of the text. -/
lemma getChildren_bracketText :
    SerialGraph.getChildren bracketText = .error (.fault .readPast) := by
  have hnext : SerialGraph.getNextChild bracketText (some 2) = .error (.fault .readPast) := by
    decide
  have hloop : SerialGraph.childrenFrom bracketText 2 (by decide) = .error (.fault .readPast) := by
    rw [SerialGraph.childrenFrom]
    split
    · next e he =>
        rw [hnext] at he
        cases he
        rfl
    · next he => rw [hnext] at he; cases he
    · next he => rw [hnext] at he; cases he
  have hfirst : SerialGraph.setToFirstChild bracketText = some 2 := by decide
  unfold SerialGraph.getChildren
  split
  · next he => rw [hfirst] at he; cases he
  · next start he =>
      rw [hfirst] at he
      cases he
      exact hloop

theorem bracket_not_topology : JustParsed id [⟨(['a', '['], 0), [(['b', '['], 0)]⟩] ⟨none, [], []⟩
      (pairGraph ['a', '['] ['b', '[']) ∧ (pairGraph ['a', '['] ['b', '[']).nodes.size = 2 ∧
    ¬BecomesTopology (pairGraph ['a', '['] ['b', '[']) NetworkTopology.empty := by
  refine ⟨bracket_parsed, by decide, ?_⟩
  rintro ⟨-, text, t, htext, hreset, -⟩
  have hwritten : getSerializedGraphString 3 true
      (assignNodeRanks true (pairGraph ['a', '['] ['b', '['], 0#32)).1 = some bracketText := by
    decide
  obtain rfl := Option.some.inj (hwritten.symm.trans (htext 3 (by decide)))
  rw [MRNet.Topology.reset_eq _ (by decide), getChildren_bracketText] at hreset
  obtain ⟨_, -, hrest⟩ := bind_ok_iff.mp hreset
  obtain ⟨_, hkids, -⟩ := bind_ok_iff.mp hrest
  cases hkids

end MRNet.TopologyFile
