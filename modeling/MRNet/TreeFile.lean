import MRNet.TopologyFiles
import MRNet.TopologyScanner

/-!
# Trees and their topology files

The trees that the topology generator builds: their validation, which stops at the first
node it meets again, and the file that is written of them, a line for each node with
children.
-/
namespace MRNet.TopologyFile
open DepthFirst Relation
open SerialGraph (Text digits)
open WaitForAll (Rank)
open Std (TreeMap)

abbrev Name := Text

structure Tree.Node where
  name : Name
  /-- A set of pointers, in the order of the addresses. -/
  children : List Name
  visited : Bool

/-- Nodes are named by their names: `get_Node` makes one for each. -/
structure Tree where
  root : Name
  nodesByName : TreeMap Name Tree.Node
  containsCycle : Bool
  containsUnreachableNodes : Bool
  valid : Bool

namespace Tree

def Node.mark (visited : Bool) (n : Tree.Node) : Tree.Node := { n with visited }

/-- The loop over the children, which a child that returns zero ends. -/
def visitAll (visit : Name → Tree → Option (BitVec 32 × Tree)) :
    List Name → BitVec 32 → Tree → Option (BitVec 32 × Tree)
  | [], numNodesVisited, t => some (numNodesVisited, t)
  | c :: children, numNodesVisited, t => do
      let (retval, t) ← visit c t
      if retval = 0 then return (0, t)
      else visitAll visit children (numNodesVisited + retval) t

def setVisited (t : Tree) (name : Name) : Tree :=
  { t with nodesByName := t.nodesByName.modify name (Node.mark true) }

def visit : ℕ → Name → Tree → Option (BitVec 32 × Tree)
  | 0, _, _ => none
  | fuel + 1, name, t => do
      let node ← t.nodesByName[name]?
      if node.visited then return (0, t)
      else visitAll (visit fuel) node.children 1 (t.setVisited name)

/-- The verdict on the number of nodes visited. -/
def verdict (numNodesVisited : BitVec 32) (t : Tree) : Bool × Tree :=
  let cycle := decide (numNodesVisited = 0)
  let unreachable := decide (numNodesVisited.toNat ≠ t.nodesByName.size)
  (!cycle && !unreachable, { t with
    containsCycle := t.containsCycle || cycle
    containsUnreachableNodes := t.containsUnreachableNodes || unreachable
    valid := !cycle && !unreachable })

def validate (fuel : ℕ) (t : Tree) : Option (Bool × Tree) := do
  let (numNodesVisited, t) ← visit fuel t.root t
  return verdict numNodesVisited t

/-- Nothing is written of a node without children. -/
def printToFile : ℕ → Name → Tree → Option Text
  | 0, _, _ => none
  | fuel + 1, name, t => do
      let node ← t.nodesByName[name]?
      if node.children = [] then return []
      else
        let names ← node.children.mapM fun c => t.nodesByName[c]?.map Node.name
        let below ← node.children.mapM fun c => printToFile fuel c t
        return node.name ++ [' ', '=', '>'] ++ names.flatMap (fun n => '\n' :: '\t' :: n) ++
          [' ', ';', '\n', '\n'] ++ below.flatten

def createTopologyFile (fuel : ℕ) (t : Tree) : Option Text := printToFile fuel t.root t

variable {t t' t₀ : Tree} {k : Name}

def childrenOf (t : Tree) (k : Name) : List Name :=
  (t.nodesByName[k]?.map Node.children).getD []

def edges (t : Tree) : List (Name × Name) :=
  t.nodesByName.keys.flatMap fun k => (t.childrenOf k).map (k, ·)

/-- The root and all children are registered, under their names. -/
structure Registered (t : Tree) : Prop where
  root_mem : t.root ∈ t.nodesByName
  children_mem : ∀ k ∈ t.nodesByName, ∀ c ∈ t.childrenOf k, c ∈ t.nodesByName
  name_eq : ∀ (k : Name) (node : Tree.Node), t.nodesByName[k]? = some node → node.name = k

lemma exists_node (h : k ∈ t.nodesByName) : ∃ node, t.nodesByName[k]? = some node :=
  Option.isSome_iff_exists.mp (TreeMap.isSome_getElem?_iff_mem.mpr h)

lemma childrenOf_eq {node : Tree.Node} (h : t.nodesByName[k]? = some node) :
    t.childrenOf k = node.children := by
  rw [childrenOf, h]
  rfl

/-- The tree as it is when the nodes of the list have been visited, and no others. -/
structure Visited (t₀ t : Tree) (marked : List Name) : Prop where
  nodes_eq : ∀ k, t.nodesByName[k]? =
    t₀.nodesByName[k]?.map (Node.mark (decide (k ∈ marked)))
  size_eq : t.nodesByName.size = t₀.nodesByName.size

variable {marked : List Name}

lemma Visited.setVisited (h : Visited t₀ t marked) (k : Name) :
    Visited t₀ (t.setVisited k) (k :: marked) := by
  refine ⟨fun k' => ?_, ?_⟩
  · show (t.nodesByName.modify k _)[k']? = _
    rw [TreeMap.getElem?_modify]
    by_cases hk : compare k k' = .eq
    · have hk' := Std.LawfulEqCmp.eq_of_compare hk
      subst hk'
      rw [if_pos hk, h.nodes_eq k, Option.map_map]
      simp only [List.mem_cons_self, decide_true]
      rfl
    · rw [if_neg hk, h.nodes_eq k']
      have hk' : k' ≠ k := fun heq => hk (heq ▸ Std.ReflCmp.compare_self)
      simp only [List.mem_cons, hk', false_or]
  · show (t.nodesByName.modify k _).size = _
    rw [TreeMap.size_modify, h.size_eq]

lemma visit_seen {fuel : ℕ} {v : Name} (hv : v ∈ t₀.nodesByName) (hmarked : v ∈ marked)
    (ht : Visited t₀ t marked) : visit (fuel + 1) v t = some (0, t) := by
  obtain ⟨node, hnode⟩ := exists_node hv
  have hlookup := ht.nodes_eq v
  rw [hnode, Option.map_some, decide_eq_true hmarked] at hlookup
  simp only [visit, hlookup, Option.bind_eq_bind, Option.bind_some]
  rfl

lemma visit_enter {fuel : ℕ} {v : Name} (hv : v ∈ t₀.nodesByName) (hmarked : v ∉ marked)
    (ht : Visited t₀ t marked) :
    visit (fuel + 1) v t = visitAll (visit fuel) (t₀.childrenOf v) 1 (t.setVisited v) := by
  obtain ⟨node, hnode⟩ := exists_node hv
  have hlookup := ht.nodes_eq v
  rw [hnode, Option.map_some, decide_eq_false hmarked] at hlookup
  rw [childrenOf_eq hnode]
  simp only [visit, hlookup, Option.bind_eq_bind, Option.bind_some]
  rfl

lemma visitAll_zero {visit : Name → Tree → Option (BitVec 32 × Tree)} {v : Name}
    {todo : List Name} {n : BitVec 32} (h : visit v t = some (0, t')) :
    visitAll visit (v :: todo) n t = some (0, t') := by
  simp only [visitAll, h, Option.bind_eq_bind, Option.bind_some]
  rfl

lemma visitAll_more {visit : Name → Tree → Option (BitVec 32 × Tree)} {v : Name}
    {todo : List Name} {n retval : BitVec 32} (h : visit v t = some (retval, t'))
    (hne : retval ≠ 0) :
    visitAll visit (v :: todo) n t = visitAll visit todo (n + retval) t' := by
  simp only [visitAll, h, Option.bind_eq_bind, Option.bind_some, if_neg hne]

lemma toNat_one_add {n : ℕ} (h : 1 + n < 2 ^ 32) : (1 + BitVec.ofNat 32 n).toNat = 1 + n := by
  rw [BitVec.toNat_add, BitVec.toNat_ofNat, Nat.mod_eq_of_lt (show n < 2 ^ 32 by omega)]
  exact Nat.mod_eq_of_lt h

/-- What a visit returns: zero if the walk turns back, else the number of calls, unless it
has wrapped to zero on the way. -/
structure Counted (t₀ t' : Tree) (marked marked' calls : List Name) (n c : BitVec 32) : Prop where
  turned : marked'.length ≠ marked.length + calls.length → c = 0
  fresh : c ≠ 0 → c = n + BitVec.ofNat 32 calls.length ∧ Visited t₀ t' marked'
  small : marked'.length = marked.length + calls.length →
    n.toNat + calls.length < 2 ^ 32 → c = n + BitVec.ofNat 32 calls.length

/-- The visit does what the walk does until the walk turns back. -/
theorem visitAll_walk {depth : ℕ} {todo marked' calls : List Name}
    (hclosed : ∀ k ∈ t₀.nodesByName, ∀ c ∈ t₀.childrenOf k, c ∈ t₀.nodesByName)
    (hwalk : Walk t₀.childrenOf depth marked todo marked' calls)
    (htodo : ∀ k ∈ todo, k ∈ t₀.nodesByName) (ht : Visited t₀ t marked) (n : BitVec 32) :
    ∃ c t', (∀ fuel > depth, visitAll (visit fuel) todo n t = some (c, t')) ∧
      Counted t₀ t' marked marked' calls n c := by
  induction hwalk generalizing t n with
  | nil =>
      refine ⟨n, t, fun _ _ => rfl, fun h => absurd rfl h, fun _ => ⟨?_, ht⟩, fun _ _ => ?_⟩
      · rw [List.length_nil, BitVec.add_zero]
      · rw [List.length_nil, BitVec.add_zero]
  | @seen depth marked v todo marked' calls hv rest ih =>
      obtain ⟨hvmem, htodo⟩ := List.forall_mem_cons.mp htodo
      have hle := rest.length_le.2
      refine ⟨0, t, fun fuel hfuel => ?_, fun _ => rfl, fun h => absurd rfl h, fun h => ?_⟩
      · obtain ⟨fuel, rfl⟩ : ∃ f, fuel = f + 1 := ⟨fuel - 1, by omega⟩
        exact visitAll_zero (visit_seen hvmem hv ht)
      · rw [List.length_cons] at h
        omega
  | @enter depth marked v todo marked₁ marked₂ calls₁ calls₂ hv inner rest ih₁ ih₂ =>
      obtain ⟨hvmem, htodo⟩ := List.forall_mem_cons.mp htodo
      obtain ⟨c₁, t₁, hrun₁, hc₁⟩ := ih₁ (hclosed v hvmem) (ht.setVisited v) 1
      have hle₁ := inner.length_le.2
      have hle₂ := rest.length_le.2
      rw [List.length_cons] at hle₁
      by_cases hzero : c₁ = 0
      · subst hzero
        refine ⟨0, t₁, fun fuel hfuel => ?_, fun _ => rfl, fun h => absurd rfl h, fun h hsmall => ?_⟩
        · obtain ⟨fuel, rfl⟩ : ∃ f, fuel = f + 1 := ⟨fuel - 1, by omega⟩
          exact visitAll_zero ((visit_enter hvmem hv ht).trans (hrun₁ fuel (by omega)))
        · simp only [List.length_cons, List.length_append] at h hsmall
          have hone := hc₁.small (by rw [List.length_cons]; omega)
            (show 1 + calls₁.length < 2 ^ 32 by omega)
          have hnat := congrArg BitVec.toNat hone
          rw [toNat_one_add (by omega)] at hnat
          exact absurd hnat (by rw [show (0 : BitVec 32).toNat = 0 from rfl]; omega)
      · obtain ⟨hcount₁, ht₁⟩ := hc₁.fresh hzero
        obtain ⟨c₂, t₂, hrun₂, hc₂⟩ := ih₂ htodo ht₁ (n + c₁)
        have hfresh₁ : marked₁.length = (v :: marked).length + calls₁.length := by
          by_contra hne
          exact hzero (hc₁.turned hne)
        have hsum : n + c₁ + BitVec.ofNat 32 calls₂.length =
            n + BitVec.ofNat 32 (v :: (calls₁ ++ calls₂)).length := by
          rw [hcount₁, List.length_cons, List.length_append, Nat.add_comm _ 1, ← Nat.add_assoc,
            BitVec.ofNat_add, BitVec.ofNat_add, BitVec.add_assoc]
          rfl
        rw [List.length_cons] at hfresh₁
        refine ⟨c₂, t₂, fun fuel hfuel => ?_, fun h => ?_, fun h => ?_, fun h hsmall => ?_⟩
        · obtain ⟨fuel, rfl⟩ : ∃ f, fuel = f + 1 := ⟨fuel - 1, by omega⟩
          have henter := (visit_enter hvmem hv ht).trans (hrun₁ fuel (by omega))
          rw [visitAll_more henter hzero, hrun₂ _ hfuel]
        · simp only [List.length_cons, List.length_append] at h
          exact hc₂.turned (by omega)
        · obtain ⟨hcount₂, ht₂⟩ := hc₂.fresh h
          exact ⟨hcount₂.trans hsum, ht₂⟩
        · simp only [List.length_cons, List.length_append] at h hsmall
          refine (hc₂.small (by omega) ?_).trans hsum
          rw [BitVec.toNat_add, hcount₁, toNat_one_add (by omega), Nat.mod_eq_of_lt (by omega)]
          omega

lemma visitAll_singleton (visit : Name → Tree → Option (BitVec 32 × Tree)) (v : Name) (t : Tree) :
    visitAll visit [v] 0#32 t = visit v t := by
  rw [visitAll]
  cases h : visit v t with
  | none => rfl
  | some s =>
      rcases s with ⟨c, t'⟩
      by_cases hzero : c = 0
      · subst hzero
        rfl
      · simp only [Option.bind_eq_bind, Option.bind_some, if_neg hzero, visitAll]
        rw [BitVec.zero_add]

/-- No flag is set. -/
def Unvisited (t : Tree) : Prop :=
  ∀ (k : Name) (node : Tree.Node), t.nodesByName[k]? = some node → node.visited = false

/-- The nodes whose flags are set. -/
def flagged (t : Tree) : List Name :=
  t.nodesByName.keys.filter fun k => (t.nodesByName[k]?.map Node.visited).getD false

lemma visited_flagged (t : Tree) : Visited t t t.flagged := by
  refine ⟨fun k => ?_, rfl⟩
  cases hnode : t.nodesByName[k]? with
  | none => rfl
  | some node =>
      have hk : k ∈ t.nodesByName.keys :=
        TreeMap.mem_keys.mpr (TreeMap.isSome_getElem?_iff_mem.mp (by rw [hnode]; rfl))
      have hflag : decide (k ∈ t.flagged) = node.visited := by
        simp only [flagged, List.mem_filter, hk, hnode, true_and, Option.map_some,
          Option.getD_some, Bool.decide_eq_true]
      rw [Option.map_some, hflag]
      rfl

lemma unvisited_iff : t.Unvisited ↔ t.flagged = [] := by
  rw [flagged, List.filter_eq_nil_iff]
  constructor
  · intro h k hk
    obtain ⟨node, hnode⟩ := exists_node (TreeMap.mem_keys.mp hk)
    rw [hnode, Option.map_some, Option.getD_some, h k node hnode]
    exact Bool.false_ne_true
  · intro h k node hnode
    have hk : k ∈ t.nodesByName.keys :=
      TreeMap.mem_keys.mpr (TreeMap.isSome_getElem?_iff_mem.mp (by rw [hnode]; rfl))
    have hflag := h k hk
    rw [hnode, Option.map_some, Option.getD_some, Bool.not_eq_true] at hflag
    exact hflag

/-- Validation comes to an end, and accepts a tree whose flags are clear and whose size fits
its counter. -/
theorem validate_iff (hreg : t.Registered) :
    ∃ valid t', (∀ fuel > t.nodesByName.size, validate fuel t = some (valid, t')) ∧
      (valid = true ↔ t.Unvisited ∧ IsRootedTree t.nodesByName.keys t.edges t.root ∧
        t.nodesByName.size < 2 ^ 32) := by
  have hclosed : ∀ v ∈ t.nodesByName.keys, ∀ w ∈ t.childrenOf v, w ∈ t.nodesByName.keys :=
    fun v hv w hw => TreeMap.mem_keys.mpr (hreg.children_mem v (TreeMap.mem_keys.mp hv) w hw)
  have hroot : t.root ∈ t.nodesByName.keys := TreeMap.mem_keys.mpr hreg.root_mem
  have hlength : t.nodesByName.keys.length = t.nodesByName.size := TreeMap.length_keys
  have hcard : (t.nodesByName.keys.toFinset \ t.flagged.toFinset).card ≤ t.nodesByName.size := by
    rw [← hlength]
    exact (Finset.card_le_card Finset.sdiff_subset).trans (List.toFinset_card_le _)
  obtain ⟨marked, calls, hwalk⟩ :
      ∃ marked calls, Walk t.childrenOf t.nodesByName.size t.flagged [t.root] marked calls :=
    exists_walk (by simpa using hclosed) (by simpa using hreg.root_mem) hcard
  obtain ⟨c, t', hrun, hcount⟩ := visitAll_walk hreg.children_mem hwalk
    (by simpa using hreg.root_mem) t.visited_flagged 0#32
  have hcall (fuel : ℕ) (hfuel : t.nodesByName.size < fuel) : visit fuel t.root t = some (c, t') := by
    rw [← visitAll_singleton (visit fuel), hrun fuel hfuel]
  refine ⟨(verdict c t').1, (verdict c t').2, fun fuel hfuel => ?_, ?_⟩
  · simp only [validate, hcall fuel hfuel, Option.bind_eq_bind, Option.bind_some]
    rfl
  rw [verdict, Bool.and_eq_true, Bool.not_eq_true', Bool.not_eq_true', decide_eq_false_iff_not,
    decide_eq_false_iff_not, not_not]
  constructor
  · rintro ⟨hne, hsize⟩
    obtain ⟨hc, ht'⟩ := hcount.fresh hne
    have hfresh : marked.length = t.flagged.length + calls.length := by
      by_contra h
      exact hne (hcount.turned h)
    obtain ⟨new, hnew⟩ := hwalk.walked
    have hnodup : marked.Nodup := by
      rw [hnew.marked_eq]
      exact List.nodup_append'.mpr ⟨hnew.nodup, TreeMap.nodup_keys.filter _, hnew.disjoint⟩
    have hle : marked.length ≤ t.nodesByName.size := by
      rw [← hlength]
      exact (hnodup.subperm (hwalk.marked_subset hclosed
        (fun k hk => (List.mem_filter.mp hk).1) (by simpa using hroot))).length_le
    rw [ht'.size_eq, hc, BitVec.zero_add, BitVec.toNat_ofNat] at hsize
    have hmod := Nat.mod_le calls.length (2 ^ 32)
    have hlt := Nat.mod_lt calls.length (Nat.two_pow_pos 32)
    have hclear : t.flagged = [] := List.length_eq_zero_iff.mp (by omega)
    rw [hclear] at hwalk hfresh
    rw [List.length_nil, Nat.zero_add] at hfresh
    refine ⟨unvisited_iff.mpr hclear, ?_, by omega⟩
    refine (isRootedTree_iff TreeMap.nodup_keys hclosed (List.Perm.refl _) hroot hwalk).mpr
      ⟨hwalk.nodup_iff.mpr hfresh, by omega⟩
  · rintro ⟨hunvisited, htree, hlt⟩
    have hclear := unvisited_iff.mp hunvisited
    rw [hclear] at hwalk hcount
    obtain ⟨hcalls, hmarked⟩ :=
      (isRootedTree_iff TreeMap.nodup_keys hclosed (List.Perm.refl _) hroot hwalk).mp htree
    have hfresh := hwalk.nodup_iff.mp hcalls
    have hpos : 0 < t.nodesByName.keys.length := List.length_pos_of_mem hroot
    have hc : c = 0#32 + BitVec.ofNat 32 calls.length :=
      hcount.small (by rw [List.length_nil, Nat.zero_add, hfresh])
        (by rw [show (0#32).toNat = 0 from rfl]; omega)
    have hnat : c.toNat = t.nodesByName.size := by
      rw [hc, BitVec.zero_add, BitVec.toNat_ofNat, Nat.mod_eq_of_lt (by omega)]
      omega
    have hne : c ≠ 0 := by
      rintro rfl
      rw [show (0 : BitVec 32).toNat = 0 from rfl] at hnat
      omega
    exact ⟨hne, hnat.trans (hcount.fresh hne).2.size_eq.symm⟩

end Tree

end MRNet.TopologyFile
