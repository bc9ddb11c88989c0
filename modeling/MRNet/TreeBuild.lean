import MRNet.GeneratedFiles
import MRNet.GrownTrees

/-!
# Building trees

The parts of `Tree` that its generators share: nodes are made by their names, children are
added, and the result is validated. A front-end is a host whose name fits the buffer of the
constructor, which is written by `sprintf`.
-/
namespace MRNet.TopologyFile
open DepthFirst
open SerialGraph (Text)
open Std (TreeMap)

/-- `snprintf` into `cur_host`, which has room for `hostNameMax` characters. -/
def nodeName (hostNameMax : ℕ) (h : Host) : Name := (written h).take (hostNameMax - 1)

/-- `HOST_NAME_MAX` depends on the system. -/
structure FrontEnd (hostNameMax : ℕ) where
  host : Text
  fits : (written (host, 0)).length < hostNameMax

lemma nodeName_root {hostNameMax : ℕ} (fe : FrontEnd hostNameMax) :
    nodeName hostNameMax (fe.host, 0) = written (fe.host, 0) :=
  List.take_of_length_le (Nat.le_sub_one_of_lt fe.fits)

namespace Tree

def getNode (t : Tree) (hostname : Name) : Tree :=
  if hostname ∈ t.nodesByName then t
  else { t with nodesByName := t.nodesByName.insert hostname ⟨hostname, [], false⟩ }

/-- The constructor. -/
def create {hostNameMax : ℕ} (fe : FrontEnd hostNameMax) : Tree :=
  getNode ⟨written (fe.host, 0), ∅, false, false, false⟩ (written (fe.host, 0))

section Model
variable (address : Name → ℕ)

local instance : LawfulBEq Name := inferInstance

/-- A node is put into the set where its address belongs. -/
def Node.addChild (c : Name) (n : Tree.Node) : Tree.Node :=
  if c ∈ n.children then n
  else { n with children := n.children.orderedInsert (fun a b => address a ≤ address b) c }

def addChild (t : Tree) (p c : Name) : Tree :=
  { t with nodesByName := t.nodesByName.modify p (Node.addChild address c) }

def addEdges (t : Tree) (edges : List (Name × Name)) : Tree :=
  edges.foldl (fun t e => t.addChild address e.1 e.2) t

end Model

variable {t t' : Tree} {names : List Name} {edges : List (Name × Name)}

/-- The nodes and the edges of a tree. A child is kept once, however often it was added. -/
structure Shape (t : Tree) (names : List Name) (edges : List (Name × Name)) : Prop where
  mem_iff : ∀ k, k ∈ t.nodesByName ↔ k ∈ names
  children_iff : ∀ p c, c ∈ t.childrenOf p ↔ (p, c) ∈ edges
  nodup : ∀ p, (t.childrenOf p).Nodup
  name_eq : ∀ (k : Name) (node : Tree.Node), t.nodesByName[k]? = some node → node.name = k

/-- A tree that was not validated yet. -/
structure Built (t : Tree) (names : List Name) (edges : List (Name × Name)) : Prop
    extends Shape t names edges where
  unvisited : t.Unvisited

lemma childrenOf_of_not_mem {k : Name} (h : k ∉ t.nodesByName) : t.childrenOf k = [] := by
  rw [childrenOf, TreeMap.getElem?_eq_none h]
  rfl

lemma getNode_lookup (t : Tree) (n k : Name) : (t.getNode n).nodesByName[k]? =
    if n ∈ t.nodesByName ∨ n ≠ k then t.nodesByName[k]? else some ⟨n, [], false⟩ := by
  unfold getNode
  split_ifs with hn hor hor
  · rfl
  · exact absurd (.inl hn) hor
  · rw [TreeMap.getElem?_insert, if_neg]
    intro heq
    exact (hor.resolve_left hn) (Std.LawfulEqCmp.eq_of_compare heq)
  · obtain rfl : n = k := by tauto
    simp

lemma getNode_root (t : Tree) (n : Name) : (t.getNode n).root = t.root := by
  unfold getNode
  split_ifs <;> rfl

lemma foldl_root {α : Type} {step : Tree → α → Tree} (hstep : ∀ t a, (step t a).root = t.root)
    (l : List α) (t : Tree) : (l.foldl step t).root = t.root := by
  induction l generalizing t with
  | nil => rfl
  | cons a l ih => rw [List.foldl_cons, ih, hstep]

lemma addEdges_root (address : Name → ℕ) (t : Tree) (edges : List (Name × Name)) :
    (t.addEdges address edges).root = t.root := by
  unfold addEdges
  exact foldl_root (by intro _ _; rfl) edges t

lemma mem_getNode (t : Tree) (n k : Name) :
    k ∈ (t.getNode n).nodesByName ↔ k ∈ t.nodesByName ∨ k = n := by
  unfold getNode
  split_ifs with hn
  · exact ⟨.inl, fun h => h.elim id fun heq => heq ▸ hn⟩
  · rw [TreeMap.mem_insert, Std.LawfulEqCmp.compare_eq_iff_eq, or_comm, eq_comm]

lemma Built.getNode (h : Built t names edges) (n : Name) :
    Built (t.getNode n) (names ++ [n]) edges := by
  have hchildren (p : Name) : (t.getNode n).childrenOf p = t.childrenOf p := by
    rw [childrenOf, getNode_lookup]
    split_ifs with hor
    · rfl
    · obtain ⟨hn, rfl⟩ : n ∉ t.nodesByName ∧ n = p := by tauto
      rw [childrenOf_of_not_mem hn]
      rfl
  have hold {k : Name} {node : Tree.Node} (hnode : (t.getNode n).nodesByName[k]? = some node) :
      t.nodesByName[k]? = some node ∨ node = ⟨k, [], false⟩ := by
    rw [getNode_lookup] at hnode
    split_ifs at hnode with hor
    · exact .inl hnode
    · obtain rfl : n = k := by tauto
      exact .inr (Option.some.inj hnode).symm
  refine ⟨⟨fun k => ?_, fun p c => ?_, fun p => ?_, fun k node hnode => ?_⟩, fun k node hnode => ?_⟩
  · rw [mem_getNode, h.mem_iff, List.mem_append, List.mem_singleton]
  · rw [hchildren]
    exact h.children_iff p c
  · rw [hchildren]
    exact h.nodup p
  · rcases hold hnode with hnode | rfl
    · exact h.name_eq k node hnode
    · rfl
  · rcases hold hnode with hnode | rfl
    · exact h.unvisited k node hnode
    · rfl

lemma Node.mem_addChild (address : Name → ℕ) (c k : Name) (n : Tree.Node) :
    k ∈ (n.addChild address c).children ↔ k ∈ n.children ∨ k = c := by
  unfold Node.addChild
  split_ifs with hc
  · exact ⟨.inl, fun h => h.elim id fun heq => heq ▸ hc⟩
  · simp [or_comm]

lemma Node.addChild_same (address : Name → ℕ) (c : Name) (n : Tree.Node) :
    (n.addChild address c).name = n.name ∧ (n.addChild address c).visited = n.visited := by
  unfold Node.addChild
  split_ifs <;> exact ⟨rfl, rfl⟩

lemma Node.nodup_addChild (address : Name → ℕ) {c : Name} {n : Tree.Node}
    (h : n.children.Nodup) : (n.addChild address c).children.Nodup := by
  unfold Node.addChild
  split_ifs with hc
  · exact h
  · rw [(List.perm_orderedInsert _ _ _).nodup_iff]
    exact List.nodup_cons.mpr ⟨hc, h⟩

lemma addChild_lookup (address : Name → ℕ) (t : Tree) (p c k : Name) :
    (t.addChild address p c).nodesByName[k]? =
      if p = k then t.nodesByName[k]?.map (Node.addChild address c) else t.nodesByName[k]? := by
  rw [addChild, TreeMap.getElem?_modify]
  by_cases hk : p = k
  · subst hk
    simp
  · rw [if_neg hk, if_neg fun heq => hk (Std.LawfulEqCmp.eq_of_compare heq)]

/-- A child of a node that is there. -/
lemma Built.addChild (h : Built t names edges) (address : Name → ℕ) {p : Name} (hp : p ∈ names)
    (c : Name) : Built (t.addChild address p c) names (edges ++ [(p, c)]) := by
  have hmem := (h.mem_iff p).mpr hp
  obtain ⟨node, hnode⟩ := exists_node hmem
  have hchildren (k : Name) : (t.addChild address p c).childrenOf k =
      if p = k then (node.addChild address c).children else t.childrenOf k := by
    rw [childrenOf, addChild_lookup]
    split_ifs with hk
    · subst hk
      rw [hnode]
      rfl
    · rfl
  have hold {k : Name} {node' : Tree.Node}
      (hnode' : (t.addChild address p c).nodesByName[k]? = some node') :
      ∃ n, t.nodesByName[k]? = some n ∧ node'.name = n.name ∧ node'.visited = n.visited := by
    rw [addChild_lookup] at hnode'
    split_ifs at hnode' with hk
    · obtain ⟨n, hn, rfl⟩ := Option.map_eq_some_iff.mp hnode'
      exact ⟨n, hn, n.addChild_same address c⟩
    · exact ⟨node', hnode', rfl, rfl⟩
  refine ⟨⟨fun k => ?_, fun k c' => ?_, fun k => ?_, fun k node' hnode' => ?_⟩,
    fun k node' hnode' => ?_⟩
  · rw [← h.mem_iff, Tree.addChild, TreeMap.mem_modify]
  · rw [hchildren, List.mem_append, List.mem_singleton, Prod.mk.injEq]
    split_ifs with hk
    · subst hk
      rw [Node.mem_addChild, ← childrenOf_eq hnode, h.children_iff]
      simp
    · rw [h.children_iff]
      simp [Ne.symm hk]
  · rw [hchildren]
    split_ifs with hk
    · apply Node.nodup_addChild
      rw [← childrenOf_eq hnode]
      exact h.nodup p
    · exact h.nodup k
  · obtain ⟨n, hn, hname, -⟩ := hold hnode'
    exact hname.trans (h.name_eq k n hn)
  · obtain ⟨n, hn, -, hvisited⟩ := hold hnode'
    exact hvisited.trans (h.unvisited k n hn)

lemma addEdges_append (address : Name → ℕ) (t : Tree) (edges more : List (Name × Name)) :
    t.addEdges address (edges ++ more) = (t.addEdges address edges).addEdges address more :=
  List.foldl_append

lemma Built.addEdges (h : Built t names edges) (address : Name → ℕ) {more : List (Name × Name)}
    (hends : ∀ e ∈ more, e.1 ∈ names) : Built (t.addEdges address more) names (edges ++ more) := by
  induction more generalizing t edges with
  | nil => simpa [Tree.addEdges] using h
  | cons e more ih =>
      obtain ⟨he, hmore⟩ := List.forall_mem_cons.mp hends
      rw [List.append_cons]
      exact ih (h.addChild address he e.2) hmore

lemma Built.getNodes (h : Built t names edges) (more : List Name) :
    Built (more.foldl Tree.getNode t) (names ++ more) edges := by
  induction more generalizing t names with
  | nil => simpa using h
  | cons n more ih =>
      rw [List.foldl_cons, List.append_cons]
      exact ih (h.getNode n)

lemma built_create {hostNameMax : ℕ} (fe : FrontEnd hostNameMax) :
    Built (create fe) [written (fe.host, 0)] [] := by
  have hempty : Built ⟨written (fe.host, 0), ∅, false, false, false⟩ [] [] := by
    refine ⟨⟨fun k => ?_, fun p c => ?_, fun p => ?_, fun k node hnode => ?_⟩,
      fun k node hnode => ?_⟩
    · simp
    · simp [childrenOf]
    · simp [childrenOf]
    · simp at hnode
    · simp at hnode
  exact hempty.getNode _

/-- Nothing but flags has changed. -/
structure Kept (t t' : Tree) : Prop where
  root_eq : t'.root = t.root
  nodes_eq : ∀ k : Name,
    t'.nodesByName[k]?.map (Node.mark false) = t.nodesByName[k]?.map (Node.mark false)

lemma Kept.refl (t : Tree) : Kept t t := ⟨rfl, fun _ => rfl⟩

lemma Kept.trans {t₁ t₂ t₃ : Tree} (h : Kept t₁ t₂) (h' : Kept t₂ t₃) : Kept t₁ t₃ :=
  ⟨h'.root_eq.trans h.root_eq, fun k => (h'.nodes_eq k).trans (h.nodes_eq k)⟩

lemma kept_setVisited (t : Tree) (name : Name) : Kept t (t.setVisited name) := by
  refine ⟨rfl, fun k => ?_⟩
  rw [setVisited, TreeMap.getElem?_modify]
  split_ifs with hk
  · obtain rfl := Std.LawfulEqCmp.eq_of_compare hk
    rw [Option.map_map]
    rfl
  · rfl

lemma visitAll_kept {visit : Name → Tree → Option (BitVec 32 × Tree)}
    (hvisit : ∀ {c : Name} {s s' : Tree} {n : BitVec 32},
      visit c s = some (n, s') → Kept s s') {cs : List Name}
    {n n' : BitVec 32} (h : visitAll visit cs n t = some (n', t')) : Kept t t' := by
  induction cs generalizing n t with
  | nil =>
      cases h
      exact .refl _
  | cons c cs ih =>
      simp only [visitAll, Option.bind_eq_bind, Option.bind_eq_some_iff] at h
      obtain ⟨⟨retval, t₁⟩, hfirst, hrest⟩ := h
      split_ifs at hrest
      · cases hrest
        exact hvisit hfirst
      · exact (hvisit hfirst).trans (ih hrest)

lemma visit_kept {fuel : ℕ} {name : Name} {n : BitVec 32} (h : visit fuel name t = some (n, t')) :
    Kept t t' := by
  induction fuel generalizing name t t' n with
  | zero => cases h
  | succ fuel ih =>
      simp only [visit, Option.bind_eq_bind, Option.bind_eq_some_iff] at h
      obtain ⟨node, -, hrest⟩ := h
      split_ifs at hrest
      · cases hrest
        exact .refl _
      · exact (kept_setVisited t name).trans (visitAll_kept ih hrest)

lemma validate_kept {fuel : ℕ} {valid : Bool} (h : validate fuel t = some (valid, t')) :
    Kept t t' := by
  simp only [validate, Option.bind_eq_bind, Option.bind_eq_some_iff] at h
  obtain ⟨⟨n, t₁⟩, hvisit, hverdict⟩ := h
  have hkept := visit_kept hvisit
  cases hverdict
  exact ⟨hkept.root_eq, hkept.nodes_eq⟩

lemma Kept.childrenOf_eq (h : Kept t t') (k : Name) : t'.childrenOf k = t.childrenOf k := by
  have hsame (n : Option Tree.Node) :
      (n.map Node.children).getD [] = ((n.map (Node.mark false)).map Node.children).getD [] := by
    cases n <;> rfl
  rw [childrenOf, childrenOf, hsame, h.nodes_eq, ← hsame]

lemma Kept.mem_iff (h : Kept t t') (k : Name) : k ∈ t'.nodesByName ↔ k ∈ t.nodesByName := by
  have hsome := congrArg Option.isSome (h.nodes_eq k)
  rw [Option.isSome_map, Option.isSome_map] at hsome
  rw [← TreeMap.isSome_getElem?_iff_mem, hsome, TreeMap.isSome_getElem?_iff_mem]

lemma Shape.kept (h : Shape t names edges) (hkept : Kept t t') : Shape t' names edges := by
  refine ⟨fun k => (hkept.mem_iff k).trans (h.mem_iff k), fun p c => ?_, fun p => ?_,
    fun k node hnode => ?_⟩
  · rw [hkept.childrenOf_eq]
    exact h.children_iff p c
  · rw [hkept.childrenOf_eq]
    exact h.nodup p
  · have hlookup := hkept.nodes_eq k
    rw [hnode] at hlookup
    obtain ⟨n, hn, hmark⟩ := Option.map_eq_some_iff.mp hlookup.symm
    exact (congrArg Node.name hmark).symm.trans (h.name_eq k n hn)

/-- No edge goes to the root, and edges to one node come from one node. -/
def Tidy (root : Name) (edges : List (Name × Name)) : Prop :=
  root ∉ edges.map Prod.snd ∧ ∀ a b v, (a, v) ∈ edges → (b, v) ∈ edges → a = b

lemma tidy_of_nodup {root : Name} (h : (root :: edges.map Prod.snd).Nodup) : Tidy root edges := by
  obtain ⟨hroot, htargets⟩ := List.nodup_cons.mp h
  exact ⟨hroot, fun a b v ha hb =>
    congrArg Prod.fst (List.inj_on_of_nodup_map htargets ha hb rfl)⟩

lemma Shape.size_eq (h : Shape t names edges) :
    t.nodesByName.size = names.toFinset.card := by
  rw [← TreeMap.length_keys, ← List.toFinset_card_of_nodup TreeMap.nodup_keys]
  congr 1
  ext k
  rw [List.mem_toFinset, List.mem_toFinset, TreeMap.mem_keys, h.mem_iff]

lemma Shape.mem_edges_iff (h : Shape t names edges) (hends : ∀ e ∈ edges, e.1 ∈ names)
    (e : Name × Name) : e ∈ t.edges ↔ e ∈ edges := by
  obtain ⟨p, c⟩ := e
  simp only [Tree.edges, List.mem_flatMap, TreeMap.mem_keys, List.mem_map, Prod.mk.injEq]
  constructor
  · rintro ⟨k, -, c', hc, rfl, rfl⟩
    exact (h.children_iff k c').mp hc
  · exact fun he => ⟨p, (h.mem_iff p).mpr (hends _ he), c, (h.children_iff p c).mpr he, rfl, rfl⟩

/-- Children are kept in sets. -/
lemma nodup_edges (h : ∀ k, (t.childrenOf k).Nodup) : t.edges.Nodup := by
  rw [Tree.edges, List.nodup_flatMap]
  refine ⟨fun k _ => (h k).map (Prod.mk_right_injective k), ?_⟩
  refine TreeMap.nodup_keys.imp fun hne => ?_
  rintro ⟨p, c⟩ hp hq
  obtain ⟨_, _, heq⟩ := List.mem_map.mp hp
  obtain ⟨_, _, heq'⟩ := List.mem_map.mp hq
  exact hne ((congrArg Prod.fst heq).trans (congrArg Prod.fst heq').symm)

lemma Shape.isRootedTree_iff (h : Shape t names edges) (hgrown : Grown t.root edges)
    (hnames : ∀ k, k ∈ names ↔ k = t.root ∨ k ∈ edges.map Prod.snd)
    (hends : ∀ e ∈ edges, e.1 ∈ names) :
    IsRootedTree t.nodesByName.keys t.edges t.root ↔ Tidy t.root edges := by
  have hkeys (v : Name) : v ∈ t.nodesByName.keys ↔ v = t.root ∨ v ∈ edges.map Prod.snd := by
    rw [TreeMap.mem_keys, h.mem_iff, hnames]
  exact hgrown.isRootedTree_iff hkeys (h.mem_edges_iff hends) (nodup_edges h.nodup)

lemma Built.registered (h : Built t names edges) (hroot : t.root ∈ names)
    (hends : ∀ e ∈ edges, e.2 ∈ names) : t.Registered := by
  refine ⟨(h.mem_iff _).mpr hroot, fun k _ c hc => ?_, h.name_eq⟩
  exact (h.mem_iff c).mpr (hends _ ((h.children_iff k c).mp hc))

/-- The verdict on a tree whose edges have grown from its root. -/
theorem Built.validated (h : Built t names edges) (hgrown : Grown t.root edges)
    (hnames : ∀ k, k ∈ names ↔ k = t.root ∨ k ∈ edges.map Prod.snd)
    (hends : ∀ e ∈ edges, e.1 ∈ names) :
    ∃ valid t', (∀ fuel > t.nodesByName.size, validate fuel t = some (valid, t')) ∧
      t'.root = t.root ∧ Shape t' names edges ∧
      (valid = true ↔ Tidy t.root edges ∧ names.toFinset.card < 2 ^ 32) := by
  have hreg := h.registered ((hnames _).mpr (.inl rfl))
    fun e he => (hnames e.2).mpr (.inr (List.mem_map_of_mem (f := Prod.snd) he))
  obtain ⟨valid, t', hrun, hvalid⟩ := validate_iff hreg
  have hkept := validate_kept (hrun _ (Nat.lt_succ_self _))
  refine ⟨valid, t', hrun, hkept.root_eq, h.toShape.kept hkept, ?_⟩
  rw [hvalid, h.toShape.isRootedTree_iff hgrown hnames hends, h.size_eq]
  exact and_iff_right h.unvisited

end Tree

end MRNet.TopologyFile
