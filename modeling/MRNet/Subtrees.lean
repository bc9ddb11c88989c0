import MRNet.Forest
import MRNet.TopologyLinks

/-!
# Recursion over a subtree

The members of `NetworkTopology` that go down from a node to its children. Nothing bounds
their recursion in the source; here it may go down a number of levels, and the stack is
exhausted below the last one. The number of the nodes is a level that no recursion reaches
that ends at all.
-/
namespace MRNet.Topology
open Codec Relation
open SerialGraph (Text Port)
open WaitForAll (Rank)
open Forest (Link Rooted Below)

namespace NetworkTopology

/-- The nodes below a node, each one followed by those below it. -/
def getDescendants (t : NetworkTopology) : ℕ → Ptr → Outcome (List Ptr)
  | 0, _ => .error (.fault .storePast)
  | levels + 1, inode => do
      let node ← t.deref inode
      let parts ← node.children.mapM fun child => do
        let descendants ← getDescendants t levels child
        return child :: descendants
      return parts.flatten

/-- The height is returned and stored at every node. -/
def findSubTreeHeight : ℕ → Ptr → NetworkTopology → Outcome (NetworkTopology × BitVec 32)
  | 0, _, _ => .error (.fault .storePast)
  | levels + 1, inode, t => do
      let node ← t.deref inode
      if node.children = [] then do
        let t ← t.modify inode (·.setSubtreeHeight 0)
        return (t, 0)
      else do
        let (t, maxHeight) ← node.children.foldlM
          (fun (s : NetworkTopology × BitVec 32) child => do
            let (t, curHeight) ← findSubTreeHeight levels child s.1
            return (t, if curHeight > s.2 then curHeight else s.2))
          (t, 0)
        let t ← t.modify inode (·.setSubtreeHeight (maxHeight + 1))
        return (t, maxHeight + 1)

/-- The graph is extended by the subtree of a node. -/
def serialize (t : NetworkTopology) : ℕ → Ptr → Text → Outcome Text
  | 0, _, _ => .error (.fault .storePast)
  | levels + 1, inode, graph => do
      let node ← t.deref inode
      if node.isBackEnd then return SerialGraph.addLeaf graph node.hostName node.port node.rank
      else do
        let graph := SerialGraph.addSubTreeRoot graph node.hostName node.port node.rank
        let graph ← node.children.foldlM (fun graph child => serialize t levels child graph) graph
        return SerialGraph.endSubTree graph

/-- As many levels as there are nodes. -/
def levels (t : NetworkTopology) : ℕ := t.heap.keys.card

end NetworkTopology

open NetworkTopology

variable {t t' : NetworkTopology}

lemma childrenOf_eq_of_deref {p : Ptr} {node : Node} (h : t.deref p = .ok node) :
    t.childrenOf p = node.children := by
  rw [NetworkTopology.childrenOf, deref_ok_iff.mp h]
  rfl

lemma mem_childrenOf_iff (hlinks : Links t) {p : Ptr} {node : Node} (h : t.deref p = .ok node)
    (c : Ptr) : c ∈ node.children ↔ Link t.parentOf c p := by
  rw [← childrenOf_eq_of_deref h]
  exact hlinks.answered c p

/-- The descendants that are found are all those that there are. -/
theorem mem_getDescendants (hlinks : Links t) {n : ℕ} {p : Ptr} {ds : List Ptr}
    (h : t.getDescendants n p = .ok ds) (d : Ptr) :
    d ∈ ds ↔ TransGen (Link t.parentOf) d p := by
  induction n generalizing p ds with
  | zero => cases h
  | succ n ih =>
      obtain ⟨node, hnode, h⟩ := bind_ok_iff.mp h
      obtain ⟨parts, hparts, hres⟩ := bind_ok_iff.mp h
      cases hres
      rw [List.mem_flatten, TransGen.tail'_iff]
      have hchild := mem_childrenOf_iff hlinks hnode
      have hpart : ∀ {c part}, (do
          let descendants ← t.getDescendants n c
          return c :: descendants) = .ok part → (d ∈ part ↔ Below t.parentOf d c) := by
        intro c part hc
        obtain ⟨below, hbelow, hres⟩ := bind_ok_iff.mp hc
        cases hres
        rw [List.mem_cons, ih hbelow, Below, reflTransGen_iff_eq_or_transGen, eq_comm]
      constructor
      · rintro ⟨part, hmem, hd⟩
        obtain ⟨c, hc, hpart'⟩ := (mem_mapM_iff hparts).mp hmem
        exact ⟨c, (hpart hpart').mp hd, (hchild c).mp hc⟩
      · rintro ⟨c, hdc, hc⟩
        obtain ⟨part, hmem, hpart'⟩ :=
          forall₂_exists_of_mem (mapM_ok_iff.mp hparts) ((hchild c).mpr hc)
        exact ⟨part, hmem, (hpart hpart').mpr hdc⟩

/-- If a recursion ends, then there is no endless way down. -/
theorem acc_of_getDescendants (hlinks : Links t) {n : ℕ} {p : Ptr} {ds : List Ptr}
    (h : t.getDescendants n p = .ok ds) : Acc (Link t.parentOf) p := by
  induction n generalizing p ds with
  | zero => cases h
  | succ n ih =>
      obtain ⟨node, hnode, h⟩ := bind_ok_iff.mp h
      obtain ⟨parts, hparts, -⟩ := bind_ok_iff.mp h
      constructor
      intro c hc
      obtain ⟨part, -, hpart⟩ := forall₂_exists_of_mem (mapM_ok_iff.mp hparts)
        ((mem_childrenOf_iff hlinks hnode c).mpr hc)
      obtain ⟨below, hbelow, -⟩ := bind_ok_iff.mp hpart
      exact ih hbelow

section Ends
variable (hlinks : Links t) {p : Ptr} (hp : t.Live p) (hacc : Acc (Link t.parentOf) p)
include hlinks hp hacc

/-- The induction over the levels of a recursion. -/
lemma levels_induction {P : ℕ → Ptr → Prop}
    (hstep : ∀ n q node, t.deref q = .ok node → (∀ c ∈ node.children, P n c) → P (n + 1) q) :
    P t.levels p := by
  have hP : t.Live p → P t.levels p := by
    have hnodes : ∀ a b, Link t.parentOf a b → a ∈ t.heap.keys := by
      intro a b hlink
      exact Finmap.mem_keys.mpr (live_of_parentOf hlink)
    apply Forest.descend_induction hnodes (P := fun n q => t.Live q → P n q)
    · intro n q hchildren hq
      obtain ⟨node, hnode⟩ := deref_of_live hq
      apply hstep n q node hnode
      intro c hc
      rw [mem_childrenOf_iff hlinks hnode] at hc
      exact hchildren c hc (live_of_parentOf hc)
    · exact Finmap.mem_keys.mpr hp
    · exact hacc
  exact hP hp

theorem getDescendants_returns : ∃ ds, t.getDescendants t.levels p = .ok ds := by
  apply levels_induction hlinks hp hacc (P := fun n q => ∃ ds, t.getDescendants n q = .ok ds)
  intro n q node hnode hchildren
  obtain ⟨parts, hparts⟩ : ∃ parts, (node.children.mapM fun child => do
      let descendants ← t.getDescendants n child
      return child :: descendants) = .ok parts := by
    simp only [mapM_ok_iff]
    apply forall₂_of_exists
    intro c hc
    obtain ⟨ds, hds⟩ := hchildren c hc
    exact ⟨c :: ds, bind_ok_iff.mpr ⟨ds, hds, rfl⟩⟩
  exact ⟨parts.flatten, bind_ok_iff.mpr ⟨node, hnode, bind_ok_iff.mpr ⟨parts, hparts, rfl⟩⟩⟩

theorem serialize_returns (graph : Text) : ∃ graph', t.serialize t.levels p graph = .ok graph' := by
  apply levels_induction hlinks hp hacc
    (P := fun n q => ∀ graph, ∃ graph', t.serialize n q graph = .ok graph')
  intro n q node hnode hchildren graph
  rw [NetworkTopology.serialize, hnode, ok_bind]
  split_ifs
  · exact ⟨_, rfl⟩
  · obtain ⟨graph', hloop, -⟩ := foldlM_returns (I := fun _ => True)
      (f := fun graph child => t.serialize n child graph)
      (fun c (hc : c ∈ node.children) graph _ => by
        obtain ⟨graph', h'⟩ := hchildren c hc graph
        exact ⟨graph', h', trivial⟩)
      (s := SerialGraph.addSubTreeRoot graph node.hostName node.port node.rank) trivial
    exact ⟨_, bind_ok_iff.mpr ⟨graph', hloop, rfl⟩⟩

/-- Storing the heights does not change the links that the recursion follows. -/
theorem findSubTreeHeight_returns : ∃ r, findSubTreeHeight t.levels p t = .ok r := by
  let Same (s : NetworkTopology) : Prop :=
    s.childrenOf = t.childrenOf ∧ ∀ q, s.Live q ↔ t.Live q
  have hstore : ∀ {s s' q height}, Same s → s.modify q (·.setSubtreeHeight height) = .ok s' →
      Same s' := by
    intro s s' q height hs h
    exact ⟨(modify_childrenOf h fun _ => rfl).trans hs.1,
      fun q' => (modify_live h q').trans (hs.2 q')⟩
  have hreturns : ∀ s, Same s → ∃ r, findSubTreeHeight t.levels p s = .ok r ∧ Same r.1 := by
    apply levels_induction hlinks hp hacc
      (P := fun n q => ∀ s, Same s → ∃ r, findSubTreeHeight n q s = .ok r ∧ Same r.1)
    intro n q node hnode hchildren s hs
    have hq : t.Live q := Finmap.mem_of_lookup_eq_some (deref_ok_iff.mp hnode)
    obtain ⟨node', hnode'⟩ := deref_of_live ((hs.2 q).mpr hq)
    have hsame : node'.children = node.children := by
      rw [← childrenOf_eq_of_deref hnode', ← childrenOf_eq_of_deref hnode, hs.1]
    rw [findSubTreeHeight, hnode', ok_bind, hsame]
    split_ifs
    · obtain ⟨s', h'⟩ := modify_of_live ((hs.2 q).mpr hq) (·.setSubtreeHeight 0)
      exact ⟨(s', 0), bind_ok_iff.mpr ⟨s', h', rfl⟩, hstore hs h'⟩
    · obtain ⟨⟨s₁, maxHeight⟩, hloop, hs₁⟩ := foldlM_returns
        (I := fun r : NetworkTopology × BitVec 32 => Same r.1)
        (f := fun r child => do
          let (t, curHeight) ← findSubTreeHeight n child r.1
          return (t, if curHeight > r.2 then curHeight else r.2))
        (fun c (hc : c ∈ node.children) r hr => by
          obtain ⟨r', h', hr'⟩ := hchildren c hc r.1 hr
          exact ⟨_, bind_ok_iff.mpr ⟨r', h', rfl⟩, hr'⟩)
        (s := (s, 0)) hs
      obtain ⟨s', h'⟩ :=
        modify_of_live ((hs₁.2 q).mpr hq) (·.setSubtreeHeight (maxHeight + 1))
      exact ⟨(s', maxHeight + 1), bind_ok_iff.mpr ⟨_, hloop, bind_ok_iff.mpr ⟨s', h', rfl⟩⟩,
        hstore hs₁ h'⟩
  obtain ⟨r, h, -⟩ := hreturns t ⟨rfl, fun q => Iff.rfl⟩
  exact ⟨r, h⟩

end Ends

section Acyclic
variable {t t' : NetworkTopology}

lemma wellFounded_of_rooted (h : ∀ p, Rooted t.parentOf p) : WellFounded (Link t.parentOf) := by
  refine Forest.wellFounded_link ?_ h
  apply t.heap.keys.finite_toSet.subset
  intro p hp
  obtain ⟨q, hq⟩ := Option.isSome_iff_exists.mp hp
  exact Finmap.mem_keys.mpr (live_of_parentOf hq)

lemma Removed.rooted {p : Ptr} (hremoved : Removed t t' p) (h : ∀ q, Rooted t.parentOf q)
    (q : Ptr) : Rooted t'.parentOf q := by
  apply (h q).cut
  intro a
  rw [hremoved.parentOf]
  split_ifs
  · exact .inr rfl
  · exact .inl rfl

lemma removeNode_rooted (hlinks : Links t) (hrooted : ∀ p, Rooted t.parentOf p) {r : Rank}
    {found : Bool} (h : t.removeNode r = .ok (t', found)) : ∀ p, Rooted t'.parentOf p := by
  rcases removeNode_spec hlinks h with ⟨-, -, rfl⟩ | ⟨-, q, -, hremoved⟩
  · exact hrooted
  · exact hremoved.rooted hrooted

lemma setParent_rooted (hlinks : Links t) (hrooted : ∀ p, Rooted t.parentOf p) {rc rp : Rank}
    (hout : ∀ c p, t.findNode rc = some c → t.findNode rp = some p → ¬Below t.parentOf p c)
    {result : Reparented} (h : t.setParent rc rp = .ok (t', result)) (p : Ptr) :
    Rooted t'.parentOf p := by
  rcases setParent_spec hlinks h with ⟨-, rfl, -⟩ | ⟨-, c, q, hc, hq, -, hmoved⟩
  · exact hrooted p
  · rw [hmoved.parentOf]
    exact (hrooted q).move (hout c q hc hq) (hrooted p)

end Acyclic

end MRNet.Topology
