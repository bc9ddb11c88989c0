import MRNet.TopologyFiles

/-!
# The ranks of a parsed graph

Ranks are given out in two loops over the nodes in the order of their keys: the first one
ranks the leaves and unranks the others, the second one ranks what is unranked.
-/
namespace MRNet.TopologyFile
open SerialGraph (Text)
open WaitForAll (Rank)
open Std (TreeMap)

def Node.setRank (rank : Rank) (n : Node) : Node := { n with rank }

namespace ParsedGraph

/-- The body of a loop: a node that is selected gets the next rank. -/
def rankNode (selects : Node → Bool) (others : Node → Node) :
    ParsedGraph × Rank → Key → ParsedGraph × Rank
  | (g, nextNodeRank), k =>
      match g.nodes[k]? with
      | none => (g, nextNodeRank)
      | some curNode =>
          if selects curNode then (g.modify k (Node.setRank nextNodeRank), nextNodeRank + 1)
          else (g.modify k others, nextNodeRank)

def rankNodes (selects : Node → Bool) (others : Node → Node) (s : ParsedGraph × Rank) :
    ParsedGraph × Rank :=
  s.1.nodes.keys.foldl (rankNode selects others) s

def assignNodeRanks (iassignBackendRanks : Bool) (s : ParsedGraph × Rank) : ParsedGraph × Rank :=
  let s :=
    if iassignBackendRanks then
      rankNodes (fun n => n.children.isEmpty) (Node.setRank (BitVec.allOnes 32)) s
    else s
  rankNodes (fun n => n.rank = BitVec.allOnes 32) id s

variable {g g' : ParsedGraph} {k : Key}

lemma keys_congr (h : ∀ k, k ∈ g'.nodes ↔ k ∈ g.nodes) : g'.nodes.keys = g.nodes.keys := by
  refine List.Perm.eq_of_pairwise ?_ (TreeMap.ordered_keys (t := g'.nodes))
    (TreeMap.ordered_keys (t := g.nodes)) ?_
  · intro a b _ _ hab hba
    have hswap : compare a b = (compare b a).swap := Std.OrientedCmp.eq_swap
    rw [hswap, hba] at hab
    cases hab
  · rw [List.perm_ext_iff_of_nodup TreeMap.nodup_keys TreeMap.nodup_keys]
    intro k
    rw [mem_keys, mem_keys, h]

lemma mem_nodes_iff : k ∈ g.nodes ↔ (g.nodes[k]?).isSome := TreeMap.isSome_getElem?_iff_mem.symm

lemma keys_of_map {f : Key → Node → Node} (h : ∀ k, g'.nodes[k]? = g.nodes[k]?.map (f k)) :
    g'.nodes.keys = g.nodes.keys := by
  refine keys_congr fun k => ?_
  rw [mem_nodes_iff, mem_nodes_iff, h, Option.isSome_map]

lemma size_eq_length (g : ParsedGraph) : g.nodes.size = g.nodes.keys.length :=
  TreeMap.length_keys.symm

variable {selects : Node → Bool} {others : Node → Node}

/-- The node of the key is one of those that get a rank. -/
def selected (selects : Node → Bool) (g : ParsedGraph) (k : Key) : Bool :=
  (g.nodes[k]?).any selects

/-- A node when the loop has come by. -/
def passed (selects : Node → Bool) (others : Node → Node) (rank : Rank) (n : Node) : Node :=
  if selects n then n.setRank rank else others n

variable (selects others) in
lemma rankNode_lookup {node : Node} (h : g.nodes[k]? = some node) (next : Rank) :
    ∃ g', rankNode selects others (g, next) k =
        (g', if selected selects g k then next + 1 else next) ∧ g'.root = g.root ∧
      ∀ k', g'.nodes[k']? =
        g.nodes[k']?.map fun n => if k = k' then passed selects others next n else n := by
  have hselected : selected selects g k = selects node := by
    rw [selected, h]
    rfl
  have hlookup : ∀ f : Node → Node, f node = passed selects others next node → ∀ k' : Key,
      (g.modify k f).nodes[k']? =
        g.nodes[k']?.map fun n => if k = k' then passed selects others next n else n := by
    intro f hf k'
    rw [modify_lookup]
    by_cases hk : k = k'
    · subst hk
      rw [h, Option.map_some, Option.map_some, if_pos rfl, if_pos rfl, hf]
    · simp only [if_neg hk]
  rw [hselected]
  cases hselects : selects node with
  | true =>
      refine ⟨g.modify k (Node.setRank next), by simp [rankNode, h, hselects], rfl,
        hlookup _ ?_⟩
      rw [passed, hselects, if_pos rfl]
  | false =>
      refine ⟨g.modify k others, by simp [rankNode, h, hselects], rfl, hlookup _ ?_⟩
      rw [passed, hselects, if_neg Bool.false_ne_true]

/-- What the loop over a list of nodes has done. -/
structure Ranked (selects : Node → Bool) (others : Node → Node) (g g' : ParsedGraph)
    (next next' : Rank) (keys : List Key) : Prop where
  next_eq : next' = next + BitVec.ofNat 32 (keys.filter (selected selects g)).length
  root_eq : g'.root = g.root
  nodes_eq : ∀ k, g'.nodes[k]? = g.nodes[k]?.map fun n =>
    if k ∈ keys then
      passed selects others
        (next + BitVec.ofNat 32 ((keys.filter (selected selects g)).idxOf k)) n
    else n

variable (selects others) in
theorem rankAll {keys : List Key} (hnodup : keys.Nodup) (hmem : ∀ k ∈ keys, k ∈ g.nodes)
    (next : Rank) : ∃ g' next', keys.foldl (rankNode selects others) (g, next) = (g', next') ∧
      Ranked selects others g g' next next' keys := by
  induction keys generalizing g next with
  | nil => exact ⟨g, next, rfl, (BitVec.add_zero next).symm, rfl, by simp⟩
  | cons k keys ih =>
      obtain ⟨hk, hnodup⟩ := List.nodup_cons.mp hnodup
      obtain ⟨hkmem, hmem⟩ := List.forall_mem_cons.mp hmem
      obtain ⟨node, hnode⟩ := exists_node hkmem
      obtain ⟨g₁, hstep, hroot₁, hlookup⟩ :=
        rankNode_lookup selects others hnode next
      have hsame : ∀ k' ∈ keys, selected selects g₁ k' = selected selects g k' := by
        intro k' hk'
        have hne : k ≠ k' := fun heq => hk (heq ▸ hk')
        rw [selected, selected, hlookup]
        simp only [if_neg hne, Option.map_id']
      have hmem₁ : ∀ k' ∈ keys, k' ∈ g₁.nodes := by
        intro k' hk'
        rw [mem_nodes_iff, hlookup, Option.isSome_map, ← mem_nodes_iff]
        exact hmem k' hk'
      obtain ⟨g', next', hrun, hranked⟩ := ih hnodup hmem₁
        (if selected selects g k then next + 1 else next)
      refine ⟨g', next', ?_, ?_, hranked.root_eq.trans hroot₁, fun k' => ?_⟩
      · rw [List.foldl_cons, hstep, hrun]
      · rw [hranked.next_eq, List.filter_congr hsame, List.filter_cons]
        split_ifs
        · rw [List.length_cons, Nat.add_comm, BitVec.ofNat_add, BitVec.add_assoc]
          rfl
        · rfl
      · rw [hranked.nodes_eq, hlookup, Option.map_map, List.filter_congr hsame, List.filter_cons]
        by_cases hkk : k = k'
        · subst hkk
          have hselected : selected selects g k = selects node := by
            rw [selected, hnode]
            rfl
          simp only [hnode, Option.map_some, Function.comp_apply, if_neg hk, if_true,
            List.mem_cons_self, hselected, passed]
          split_ifs
          · rw [List.idxOf_cons_self, BitVec.add_zero]
          · rfl
        · simp only [Function.comp_def, if_neg hkk, List.mem_cons, Ne.symm hkk, false_or]
          by_cases hselects : selected selects g k = true
          · rw [if_pos hselects, if_pos hselects, List.idxOf_cons_ne _ hkk, Nat.succ_eq_one_add,
              BitVec.ofNat_add, BitVec.add_assoc]
            rfl
          · rw [if_neg hselects, if_neg hselects]

variable (g)

/-- The leaves, and then the other nodes, each in the order of their keys. -/
def leaves : List Key := g.nodes.keys.filter fun k => (g.childrenOf k).isEmpty

def inner : List Key := g.nodes.keys.filter fun k => !(g.childrenOf k).isEmpty

/-- The rank that is given to a node. -/
def newRank (k : Key) : Rank := BitVec.ofNat 32 ((g.leaves ++ g.inner).idxOf k)

lemma leaves_append_inner : (g.leaves ++ g.inner).Perm g.nodes.keys :=
  List.filter_append_perm _ _

lemma newRank_toNat (hsize : g.nodes.size < 2 ^ 32) {k : Key} (hk : k ∈ g.nodes) :
    (g.newRank k).toNat = (g.leaves ++ g.inner).idxOf k := by
  have hlt := List.idxOf_lt_length_iff.mpr (g.leaves_append_inner.mem_iff.mpr (mem_keys.mpr hk))
  rw [g.leaves_append_inner.length_eq, ← size_eq_length] at hlt
  rw [newRank, BitVec.toNat_ofNat, Nat.mod_eq_of_lt (by omega)]

variable {g}

lemma selected_leaves (hk : k ∈ g.nodes.keys) :
    selected (fun n => n.children.isEmpty) g k = (g.childrenOf k).isEmpty := by
  obtain ⟨node, hnode⟩ := exists_node (mem_keys.mp hk)
  rw [selected, hnode, childrenOf_eq hnode]
  rfl

lemma mem_leaves : k ∈ g.leaves ↔ k ∈ g.nodes ∧ g.childrenOf k = [] := by
  rw [leaves, List.mem_filter, mem_keys, List.isEmpty_iff]

/-- Ranks and counts are in the range of signed numbers, so that no rank is the unknown one. -/
lemma ofNat_ne_unknown {n : ℕ} (h : n < 2 ^ 31) : BitVec.ofNat 32 n ≠ BitVec.allOnes 32 := by
  intro heq
  have hnat := congrArg BitVec.toNat heq
  rw [BitVec.toNat_ofNat, BitVec.toNat_allOnes, Nat.mod_eq_of_lt (by omega)] at hnat
  omega

/-- The first loop unranks the inner nodes. -/
lemma selected_unranked {g₁ : ParsedGraph} {next₁ : Rank} (hsize : g.nodes.size < 2 ^ 31)
    (h : Ranked (fun n => n.children.isEmpty) (Node.setRank (BitVec.allOnes 32)) g g₁ 0#32 next₁
      g.nodes.keys) (hk : k ∈ g.nodes.keys) :
    selected (fun n => n.rank = BitVec.allOnes 32) g₁ k = !(g.childrenOf k).isEmpty := by
  obtain ⟨node, hnode⟩ := exists_node (mem_keys.mp hk)
  have hidx : g.nodes.keys.length < 2 ^ 31 := size_eq_length g ▸ hsize
  rw [childrenOf_eq hnode, selected, h.nodes_eq, hnode, Option.map_some, if_pos hk, Option.any_some,
    passed, BitVec.zero_add]
  cases hleaf : node.children.isEmpty with
  | true =>
      rw [if_pos rfl]
      have hle := List.length_filter_le (selected (fun n => n.children.isEmpty) g) g.nodes.keys
      have hne := ofNat_ne_unknown (lt_of_le_of_lt ((List.idxOf_le_length (a := k)).trans hle) hidx)
      exact decide_eq_false hne
  | false => exact decide_eq_true rfl

theorem assignNodeRanks_lookup (hsize : g.nodes.size < 2 ^ 31) :
    ∃ g' next', assignNodeRanks true (g, 0#32) = (g', next') ∧ g'.root = g.root ∧
      ∀ k, g'.nodes[k]? = g.nodes[k]?.map (Node.setRank (g.newRank k)) := by
  have hmem : ∀ k ∈ g.nodes.keys, k ∈ g.nodes := fun _ => mem_keys.mp
  obtain ⟨g₁, next₁, hrun₁, hranked₁⟩ := rankAll (fun n => n.children.isEmpty)
    (Node.setRank (BitVec.allOnes 32)) TreeMap.nodup_keys hmem 0#32
  have hkeys₁ : g₁.nodes.keys = g.nodes.keys := keys_of_map hranked₁.nodes_eq
  obtain ⟨g₂, next₂, hrun₂, hranked₂⟩ := rankAll
    (fun n => n.rank = BitVec.allOnes 32) id TreeMap.nodup_keys (fun _ => mem_keys.mp) next₁
  refine ⟨g₂, next₂, ?_, hranked₂.root_eq.trans hranked₁.root_eq, fun k => ?_⟩
  · have hfirst : rankNodes (fun n => n.children.isEmpty) (Node.setRank (BitVec.allOnes 32))
        (g, 0#32) = (g₁, next₁) := hrun₁
    rw [assignNodeRanks, if_pos rfl, hfirst]
    exact hrun₂
  rw [hkeys₁] at hranked₂
  have hleaves : g.nodes.keys.filter (selected (fun n => n.children.isEmpty) g) = g.leaves :=
    List.filter_congr fun _ => selected_leaves
  have hinner : g.nodes.keys.filter (selected (fun n => n.rank = BitVec.allOnes 32) g₁) =
      g.inner := List.filter_congr fun _ => selected_unranked hsize hranked₁
  have hnext := hranked₁.next_eq
  rw [hleaves, BitVec.zero_add] at hnext
  rw [hranked₂.nodes_eq, hinner, hnext, hranked₁.nodes_eq, hleaves, Option.map_map]
  cases hnode : g.nodes[k]? with
  | none => rfl
  | some node =>
      have hk : k ∈ g.nodes := mem_nodes_iff.mpr (by rw [hnode]; rfl)
      have hlength : g.leaves.length < 2 ^ 31 :=
        lt_of_le_of_lt (List.length_filter_le _ _) (size_eq_length g ▸ hsize)
      simp only [Option.map_some, Function.comp_apply, if_pos (mem_keys.mpr hk), passed, id_eq]
      by_cases hleaf : node.children = []
      · have hmem : k ∈ g.leaves := mem_leaves.mpr ⟨hk, (childrenOf_eq hnode).trans hleaf⟩
        have hne := ofNat_ne_unknown (lt_of_le_of_lt (List.idxOf_le_length (a := k)) hlength)
        rw [if_pos (List.isEmpty_iff.mpr hleaf), BitVec.zero_add, newRank,
          List.idxOf_append_of_mem hmem]
        exact congrArg some (if_neg fun heq => hne (of_decide_eq_true heq))
      · have hmem : k ∉ g.leaves := fun hmem =>
          hleaf ((childrenOf_eq hnode).symm.trans (mem_leaves.mp hmem).2)
        rw [if_neg (mt List.isEmpty_iff.mp hleaf), newRank, List.idxOf_append_of_notMem hmem,
          BitVec.ofNat_add, if_pos]
        · rfl
        · exact decide_eq_true rfl

def rankOf (g : ParsedGraph) (k : Key) : Rank :=
  (g.nodes[k]?.map Node.rank).getD (BitVec.allOnes 32)

/-- The graph but for its ranks, which are the numbers from zero on, the leaves first. -/
structure HasRanks (g g' : ParsedGraph) : Prop where
  root_eq : g'.root = g.root
  nodes_eq : ∀ k, g'.nodes[k]? = g.nodes[k]?.map (Node.setRank (g'.rankOf k))
  perm : (g.nodes.keys.map g'.rankOf).Perm ((List.range g.nodes.size).map (BitVec.ofNat 32))
  leaves_first : ∀ k ∈ g.nodes, ∀ k' ∈ g.nodes, g.childrenOf k = [] → g.childrenOf k' ≠ [] →
    g'.rankOf k < g'.rankOf k'

theorem assignNodeRanks_ranks (hsize : g.nodes.size < 2 ^ 31) :
    HasRanks g (assignNodeRanks true (g, 0#32)).1 := by
  obtain ⟨g', next', hrun, hroot, hlookup⟩ := assignNodeRanks_lookup hsize
  have hrank : ∀ k ∈ g.nodes, g'.rankOf k = g.newRank k := by
    intro k hk
    obtain ⟨node, hnode⟩ := exists_node hk
    rw [rankOf, hlookup, hnode]
    rfl
  have hnodup : (g.leaves ++ g.inner).Nodup := g.leaves_append_inner.nodup_iff.mpr TreeMap.nodup_keys
  rw [hrun]
  refine ⟨hroot, fun k => ?_, ?_, fun k hk k' hk' hleaf hinner => ?_⟩
  · rw [hlookup]
    cases hnode : g.nodes[k]? with
    | none => rfl
    | some node => rw [hrank k (mem_nodes_iff.mpr (by rw [hnode]; rfl))]
  · have hmap : g.nodes.keys.map g'.rankOf = g.nodes.keys.map g.newRank :=
      List.map_congr_left fun k hk => hrank k (mem_keys.mp hk)
    rw [hmap, size_eq_length, ← g.leaves_append_inner.length_eq]
    refine (g.leaves_append_inner.symm.map _).trans (List.Perm.of_eq ?_)
    refine List.ext_getElem (by simp) fun i hi _ => ?_
    rw [List.length_map] at hi
    rw [List.getElem_map, List.getElem_map, List.getElem_range, newRank, hnodup.idxOf_getElem]
  · rw [hrank k hk, hrank k' hk', BitVec.lt_def, newRank_toNat g (by omega) hk,
      newRank_toNat g (by omega) hk']
    have hmem : k ∈ g.leaves := mem_leaves.mpr ⟨hk, hleaf⟩
    have hmem' : k' ∉ g.leaves := fun hmem => hinner (mem_leaves.mp hmem).2
    rw [List.idxOf_append_of_mem hmem, List.idxOf_append_of_notMem hmem']
    exact Nat.lt_add_right _ (List.idxOf_lt_length_iff.mpr hmem)

end ParsedGraph

end MRNet.TopologyFile
