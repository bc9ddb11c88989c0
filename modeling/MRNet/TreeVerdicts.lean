import MRNet.TreeBuild
import MRNet.UniquePaths

/-!
# The verdict on a tree

`validate` is run on any graph of registered nodes whose flags are clear.
-/
namespace MRNet.TopologyFile
open DepthFirst
open SerialGraph (Text)
open Std (TreeMap)

namespace Tree

/-- The nodes are registered, their children are sets, and no node was visited. -/
structure IsGraph (t : Tree) : Prop extends Registered t where
  nodup : ∀ k, (t.childrenOf k).Nodup
  unvisited : t.Unvisited

/-- Exactly one path leads from the root to each node. -/
def HasUniquePaths (t : Tree) : Prop :=
  ∀ k ∈ t.nodesByName, ∃! p, IsPath t.edges t.root k p

/-- Validation comes to an end, and tells whether there are unique paths. -/
def Decides (t : Tree) : Prop :=
  ∃ valid t', (∀ fuel > t.nodesByName.size, validate fuel t = some (valid, t')) ∧
    (valid = true ↔ t.HasUniquePaths)

variable {t : Tree}

lemma Registered.edge_ends (h : t.Registered) {e : Name × Name} (he : e ∈ t.edges) :
    e.1 ∈ t.nodesByName.keys ∧ e.2 ∈ t.nodesByName.keys := by
  obtain ⟨k, hk, hmap⟩ := List.mem_flatMap.mp he
  obtain ⟨c, hc, rfl⟩ := List.mem_map.mp hmap
  exact ⟨hk, TreeMap.mem_keys.mpr (h.children_mem k (TreeMap.mem_keys.mp hk) c hc)⟩

lemma IsGraph.hasUniquePaths_iff (h : t.IsGraph) :
    t.HasUniquePaths ↔ IsRootedTree t.nodesByName.keys t.edges t.root := by
  rw [isRootedTree_iff_existsUnique_path (Tree.nodup_edges h.nodup)
    (fun e he => h.toRegistered.edge_ends he) (TreeMap.mem_keys.mpr h.root_mem)]
  simp only [TreeMap.mem_keys, HasUniquePaths]

lemma IsGraph.decides (h : t.IsGraph) (hfew : t.nodesByName.size < 2 ^ 32 ∨ ¬t.HasUniquePaths) :
    t.Decides := by
  obtain ⟨valid, t', hrun, hvalid⟩ := validate_iff h.toRegistered
  rw [← h.hasUniquePaths_iff, and_iff_right h.unvisited] at hvalid
  refine ⟨valid, t', hrun, hvalid.trans ⟨And.left, fun hpaths => ⟨hpaths, ?_⟩⟩⟩
  exact hfew.resolve_right (not_not.mpr hpaths)

/-- The nodes cannot be counted in 32 bits. -/
lemma IsGraph.not_decides (h : t.IsGraph) (hpaths : t.HasUniquePaths)
    (hmany : 2 ^ 32 ≤ t.nodesByName.size) : ¬t.Decides := by
  rintro ⟨valid', t'', hrun', hdecides⟩
  obtain ⟨valid, t', hrun, hvalid⟩ := validate_iff h.toRegistered
  have hsame := (hrun _ (Nat.lt_succ_self _)).symm.trans (hrun' _ (Nat.lt_succ_self _))
  cases hsame
  exact absurd (hvalid.mp (hdecides.mpr hpaths)).2.2 (not_lt.mpr hmany)

/-- The verdict is right but for trees of too many nodes. -/
theorem validate_decides_iff (h : t.IsGraph) :
    t.Decides ↔ (t.nodesByName.size < 2 ^ 32 ∨ ¬t.HasUniquePaths) := by
  refine ⟨fun hdecides => ?_, h.decides⟩
  by_contra hmany
  rw [not_or, not_not, not_lt] at hmany
  exact h.not_decides hmany.2 hmany.1 hdecides

def star {hostNameMax : ℕ} (fe : FrontEnd hostNameMax) (names : List Name) : Tree :=
  (names.foldl getNode (create fe)).addEdges (fun _ => 0)
    (names.map fun n => (written (fe.host, 0), n))

/-- The children have different names, which are not that of the root. -/
lemma star_spec {hostNameMax : ℕ} (fe : FrontEnd hostNameMax) {names : List Name}
    (hnodup : (written (fe.host, 0) :: names).Nodup) :
    (star fe names).IsGraph ∧ (star fe names).HasUniquePaths ∧
      (star fe names).nodesByName.size = names.length + 1 := by
  set root := written (fe.host, 0)
  have htargets : (names.map fun n => (root, n)).map Prod.snd = names := by simp
  have hsources : ∀ e ∈ names.map fun n => (root, n), e.1 = root := by
    intro e he
    obtain ⟨n, -, rfl⟩ := List.mem_map.mp he
    rfl
  have hbuilt : Built (star fe names) (root :: names) (names.map fun n => (root, n)) :=
    ((built_create fe).getNodes names).addEdges (fun _ => 0)
      fun e he => List.mem_append_left _ (List.mem_singleton.mpr (hsources e he))
  have hroot : (star fe names).root = root := by
    rw [star, addEdges_root, foldl_root getNode_root]
    exact getNode_root _ _
  have hreg : (star fe names).Registered := hbuilt.registered (hroot ▸ List.mem_cons_self) fun e he =>
    List.mem_cons_of_mem _ (htargets ▸ List.mem_map_of_mem (f := Prod.snd) he)
  have hgraph : (star fe names).IsGraph := ⟨hreg, hbuilt.nodup, hbuilt.unvisited⟩
  refine ⟨hgraph, ?_, ?_⟩
  · rw [hgraph.hasUniquePaths_iff, hbuilt.isRootedTree_iff, hroot]
    · exact tidy_of_nodup (htargets.symm ▸ hnodup)
    · rw [hroot]
      exact Grown.append .nil fun e he => .inl (hsources e he)
    · intro k
      rw [hroot, htargets, List.mem_cons]
    · exact fun e he => hsources e he ▸ List.mem_cons_self
  · rw [hbuilt.size_eq, List.toFinset_card_of_nodup hnodup, List.length_cons]

theorem validate_decides_pair : (star (⟨['a'], by decide⟩ : FrontEnd 256) [['b']]).Decides :=
  have hstar := star_spec (⟨['a'], by decide⟩ : FrontEnd 256) (by decide : (_ :: [['b']]).Nodup)
  (validate_decides_iff hstar.1).mpr (.inl (by rw [hstar.2.2]; decide))

/-- A root with 2^32 children, which are named by numbers. -/
theorem validate_not_decides : ¬∀ t : Tree, t.IsGraph → t.Decides := by
  intro hall
  have hinj : Function.Injective (Nat.toDigits 10) := fun m n heq => by
    rw [← Nat.ofDigitChars_ten_toDigits (n := m), heq, Nat.ofDigitChars_ten_toDigits]
  have hcolon : ∀ n, Nat.toDigits 10 n ≠ written (['a'], 0) := by
    intro n heq
    have hdigit := Nat.isDigit_of_mem_toDigits (b := 10) (n := n) (c := ':') (by decide) (by decide)
      (heq ▸ by decide)
    exact absurd hdigit (by decide)
  have hnodup : (written (['a'], 0) :: (List.range (2 ^ 32)).map (Nat.toDigits 10)).Nodup := by
    refine List.nodup_cons.mpr ⟨fun hmem => ?_, List.nodup_range.map hinj⟩
    obtain ⟨n, -, heq⟩ := List.mem_map.mp hmem
    exact hcolon n heq
  obtain ⟨hgraph, hpaths, hsize⟩ := star_spec (⟨['a'], by decide⟩ : FrontEnd 256) hnodup
  refine hgraph.not_decides hpaths ?_ (hall _ hgraph)
  rw [hsize, List.length_map, List.length_range]
  exact Nat.le_succ _

end Tree

end MRNet.TopologyFile
