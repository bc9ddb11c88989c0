import MRNet.NodeSets
import MRNet.Subtrees

/-!
# Cached ascendants and the proximity of nodes

A node caches the set of its ascendants when it is linked to a parent, and the cache of no
other node is touched. The proximity of two nodes is found by going up from one of them to a
cached ascendant of the other. As long as only leaves are moved and removed the caches are
right, and so is the proximity.
-/
namespace MRNet.Topology
open Codec Relation
open SerialGraph (Text Port)
open WaitForAll (Rank)
open Forest (Link Rooted Below Up)

namespace NetworkTopology

/-- The loop from a node up to the first of the ascendants, with the distance. It follows
as many links as there are nodes if it ends at all. -/
def climbToCommon (t : NetworkTopology) (ascendants : List Ptr) :
    ℕ → Ptr → BitVec 32 → Outcome (Option (Ptr × BitVec 32))
  | 0, _, _ => .error (.fault .storePast)
  | levels + 1, curAscendant, distance =>
      if curAscendant ∈ ascendants then return some (curAscendant, distance)
      else do
        let node ← t.deref curAscendant
        match node.parent with
        | none => return none
        | some parent => climbToCommon t ascendants levels parent (distance + 1)

/-- The loop from the orphan up to the common ascendant. The parent is not tested before it
is followed. -/
def climbTo (t : NetworkTopology) (commonAscendant : Ptr) :
    ℕ → Ptr → BitVec 32 → Outcome (BitVec 32)
  | 0, _, _ => .error (.fault .storePast)
  | levels + 1, curAscendant, distance =>
      if curAscendant = commonAscendant then return distance
      else do
        let node ← t.deref curAscendant
        match node.parent with
        | none => .error (.fault .nullPointer)
        | some parent => climbTo t commonAscendant levels parent (distance + 1)

def getProximity (t : NetworkTopology) (node iorphan : Ptr) : Outcome (BitVec 32) := do
  let orphanNode ← t.deref iorphan
  let common ← t.climbToCommon orphanNode.ascendants t.levels node 0
  match common with
  | none => return BitVec.allOnes 32
  | some (commonAscendant, nodeDistance) => do
      let orphanDistance ← t.climbTo commonAscendant t.levels iorphan 0
      return nodeDistance + orphanDistance

end NetworkTopology

open NetworkTopology

variable {t t' : NetworkTopology}

/-- The cache of every node holds its proper ancestors. -/
def ExactAscendants (t : NetworkTopology) : Prop :=
  ∀ p asc, t.ascendantsOf p = some asc → ∀ q, q ∈ asc ↔ TransGen (Link t.parentOf) p q

/-- The links are a forest, and the caches are exact. -/
structure Ascends (t : NetworkTopology) : Prop where
  links : Links t
  rooted : ∀ p, Rooted t.parentOf p
  exact : ExactAscendants t

/-- A leaf moves. -/
lemma Ascends.moved (h : Ascends t) {c p : Ptr} (hmoved : Moved t t' c p)
    (hobjects : MovedObjects t t' c p) (hne : p ≠ c) (hleaf : ¬HasChild t c) : Ascends t' := by
  have hout : ¬Below t.parentOf p c := by
    intro hbelow
    rcases ReflTransGen.cases_tail hbelow with heq | ⟨d, -, hd⟩
    · exact hne heq.symm
    · exact hleaf ⟨d, hd⟩
  have hsame : ∀ q, q ≠ c → t'.parentOf q = t.parentOf q := by
    intro q hq
    rw [hmoved.parentOf, Function.update_of_ne hq]
  have hothers : ∀ {q z}, q ≠ c →
      (TransGen (Link t'.parentOf) q z ↔ TransGen (Link t.parentOf) q z) := by
    intro q z hq
    exact Forest.transGen_leaf_iff hsame (fun d _ hd => hleaf ⟨d, hd⟩) hq
  refine ⟨h.links.moved hmoved, fun q => ?_, fun q asc hasc z => ?_⟩
  · rw [hmoved.parentOf]
    exact (h.rooted p).move hout (h.rooted q)
  · rw [hobjects.ascendantsOf] at hasc
    by_cases hq : q = c
    · subst hq
      rw [if_pos rfl] at hasc
      obtain ⟨ascParent, hascParent, rfl⟩ := Option.map_eq_some_iff.mp hasc
      have hlink : Link t'.parentOf q p := by
        rw [Link, hmoved.parentOf, Function.update_self]
      rw [List.mem_insert_iff, h.exact p ascParent hascParent, ← hothers hne]
      constructor
      · rintro (rfl | habove)
        · exact TransGen.single hlink
        · exact TransGen.head hlink habove
      · intro habove
        obtain ⟨b, hb, hbz⟩ := TransGen.head'_iff.mp habove
        rw [Forest.link_rightUnique _ hb hlink] at hbz
        rcases reflTransGen_iff_eq_or_transGen.mp hbz with heq | htrans
        · exact .inl heq
        · exact .inr htrans
    · rw [if_neg hq] at hasc
      rw [hothers hq]
      exact h.exact q asc hasc z

/-- A leaf is removed. -/
lemma Ascends.removed (h : Ascends t) {p : Ptr} (hremoved : Removed t t' p)
    (hobjects : RemovedObjects t t' p) (hleaf : ¬HasChild t p) : Ascends t' := by
  have hsame : ∀ q, q ≠ p → t'.parentOf q = t.parentOf q := by
    intro q hq
    rw [hremoved.parentOf, if_neg]
    rintro (heq | hchild)
    · exact hq heq
    · exact hleaf ⟨q, hchild⟩
  refine ⟨h.links.removed hremoved, hremoved.rooted h.rooted, fun q asc hasc z => ?_⟩
  · rw [hobjects.ascendantsOf] at hasc
    by_cases hq : q = p
    · rw [hq, Function.update_self] at hasc
      cases hasc
    · rw [Function.update_of_ne hq] at hasc
      rw [Forest.transGen_leaf_iff hsame (fun d _ hd => hleaf ⟨d, hd⟩) hq]
      exact h.exact q asc hasc z

/-- A node without links is made, with an empty cache. -/
lemma Ascends.created (h : Ascends t) {r : Rank} (hfresh : t.findNode r = none)
    (hcreated : Created t t' r)
    (hasc : t'.ascendantsOf = Function.update t.ascendantsOf t.nextPtr (some [])) :
    Ascends t' := by
  refine ⟨h.links.created hfresh hcreated, fun q => ?_, fun q asc hq z => ?_⟩
  · rw [hcreated.parentOf]
    exact h.rooted q
  · rw [hasc] at hq
    rw [hcreated.parentOf]
    by_cases hnew : q = t.nextPtr
    · rw [hnew, Function.update_self] at hq
      cases hq
      refine iff_of_false List.not_mem_nil fun habove => ?_
      obtain ⟨b, hb, -⟩ := TransGen.head'_iff.mp habove
      rw [hnew] at hb
      exact h.links.not_live_nextPtr (live_of_parentOf hb)
    · rw [Function.update_of_ne hnew] at hq
      exact h.exact q asc hq z

lemma Ascends.of_sameViews (h : Ascends t) (hsame : SameViews t t') : Ascends t' := by
  have hparentOf : t'.parentOf = t.parentOf := parentOf_congr hsame.heap
  have hasc : t'.ascendantsOf = t.ascendantsOf := view_congr _ hsame.heap
  refine ⟨h.links.of_sameViews hsame, ?_, ?_⟩
  · rw [hparentOf]
    exact h.rooted
  · unfold ExactAscendants
    rw [hparentOf, hasc]
    exact h.exact

/-- The node that is linked to a new parent has no children, and is not that parent. -/
def LeafMoves (t : NetworkTopology) (c p : Ptr) : Prop :=
  t.parentOf c ≠ some p → p ≠ c ∧ ¬HasChild t c

/-- The root of the graph is new, or a leaf, or the link is there already. -/
def LeafGrafted (t : NetworkTopology) (inode : Ptr) (isg : Text) : Prop :=
  ∀ r c, SerialGraph.getRootRank isg = .ok r → t.findNode r = some c → LeafMoves t c inode

def LeavesGrafted (t : NetworkTopology) (inode : Ptr) (isg : Text) : Prop :=
  ∀ s m g, Visits t inode isg s m g → LeafGrafted s m g

/-- No cache is out of date after the call. -/
def KeepsAscendants (t : NetworkTopology) : Operation → Prop
  | .newNode _ _ rank _ => t.findNode rank = none
  | .setParent rc rp =>
      ∀ c p, t.findNode rc = some c → t.findNode rp = some p → LeafMoves t c p
  | .removeNode r => ∀ p, t.findNode r = some p → ¬HasChild t p
  | .addSubGraph r isg => ∀ node, t.findNode r = some node → LeavesGrafted t node isg
  | .reset isg => ∀ t₁ root before kid after t₂, resetRoot t isg = .ok (t₁, root) →
      SerialGraph.getChildren isg = .ok (before ++ kid :: after) →
      before.foldlM (fun t kid => t.addGraph root kid) t₁ = .ok t₂ → LeavesGrafted t₂ root kid

lemma Ascends.setParent (h : Ascends t) {rc rp : Rank} {res : Reparented}
    (hleaf : ∀ c p, t.findNode rc = some c → t.findNode rp = some p → LeafMoves t c p)
    (hset : t.setParent rc rp = .ok (t', res)) : Ascends t' := by
  rcases setParent_cases h.links hset with ⟨rfl, -⟩ | ⟨c, p, hc, hp, hne, hmoved, hobjects⟩
  · exact h
  · obtain ⟨hself, hchild⟩ := hleaf c p hc hp hne
    exact h.moved hmoved hobjects hself hchild

lemma Ascends.addGraphRoot (h : Ascends t) {inode c : Ptr} {isg : Text} (hinode : t.Live inode)
    (hleaf : LeafGrafted t inode isg) (hadd : t.addGraphRoot inode isg = .ok (t', c)) :
    Ascends t' ∧ t'.Live c ∧ ∀ q, t.Live q → t'.Live q := by
  obtain ⟨r, ri, t₁, isBackEnd, res, hr, hri, hgrafted, -, hset⟩ :=
    addGraphRoot_cases h.links hinode hadd
  have hlinking := hgrafted.linking h.links hinode hri isBackEnd
  obtain ⟨hheap, hnodes, hnext, horphans, -, -⟩ := enlist_rest t₁ c isBackEnd
  have hascends₁ : Ascends t₁ := by
    cases hgrafted with
    | known _ => exact h.of_sameViews ⟨rfl, rfl, rfl, rfl⟩
    | @made host port flag hfresh _ _ _ _ =>
        exact h.created hfresh (created_grafted h.links inode host port r flag)
          (newObject_view _ t _)
  have hascends := hascends₁.of_sameViews ⟨hnodes, hheap, hnext, horphans⟩
  have hmoves : LeafMoves (enlist t₁ c isBackEnd) c inode := by
    unfold LeafMoves HasChild
    rw [hlinking.parentOf]
    cases hgrafted with
    | known hknown => exact hleaf r c hr hknown
    | made _ hc _ _ _ =>
        intro _
        rw [hc]
        refine ⟨fun heq => h.links.not_live_nextPtr (heq ▸ hinode), ?_⟩
        rintro ⟨d, hd⟩
        exact h.links.not_live_nextPtr (h.links.parent_live hd)
  refine ⟨hascends.setParent (fun c' p hc' hp => ?_) hset,
    setParent_live hlinking.links hset (hlinking.links.live_of_findNode hlinking.found).1,
    fun q hq => setParent_live hlinking.links hset (hlinking.live q hq)⟩
  cases hlinking.found.symm.trans hc'
  cases hlinking.foundParent.symm.trans hp
  exact hmoves

lemma ascends_of_heap_empty (hlinks : Links t) (hheap : t.heap = ∅) : Ascends t := by
  have hnone : ∀ q, t.heap.lookup q = none := by
    intro q
    rw [hheap, Finmap.lookup_empty]
  refine ⟨hlinks, fun p => Rooted.root ?_, fun p asc hasc => ?_⟩
  · rw [NetworkTopology.parentOf, hnone]
    rfl
  · rw [ascendantsOf, view, hnone] at hasc
    cases hasc

/-- A root in an empty topology. -/
lemma ascends_root (h : Ascends t) (hnodes : t.nodes = ∅) (host : Text) (port : Port) (r : Rank)
    (isBackEnd : Bool) : Ascends { t.newObject (Node.create host port r isBackEnd) with
      root := some t.nextPtr, nodes := t.nodes.insert r t.nextPtr } := by
  have hfresh : t.findNode r = none := by
    rw [findNode, hnodes, Finmap.lookup_empty]
  exact h.created hfresh (created_of_newObject h.links host port r isBackEnd rfl rfl rfl rfl)
    (newObject_view _ t _)

lemma Ascends.perform (h : Ascends t) {op : Operation} (hkeeps : KeepsAscendants t op)
    (hstep : perform t op = .ok t') : Ascends t' := by
  cases op with
  | newNode host port rank isBackEnd =>
      cases hstep
      exact h.created hkeeps (created_of_newObject h.links host port rank isBackEnd rfl rfl rfl rfl)
        (newObject_view _ t _)
  | setParent rc rp =>
      obtain ⟨⟨t₁, res⟩, hset, hres⟩ := bind_ok_iff.mp hstep
      cases hres
      exact h.setParent hkeeps hset
  | removeNode r =>
      obtain ⟨⟨t₁, found⟩, hremove, hres⟩ := bind_ok_iff.mp hstep
      cases hres
      rcases removeNode_cases h.links hremove with ⟨-, rfl⟩ | ⟨p, hp, hremoved, hobjects⟩
      · exact h
      · exact h.removed hremoved hobjects (hkeeps p hp)
  | addSubGraph r isg =>
      obtain ⟨⟨t₁, found⟩, hadd, hres⟩ := bind_ok_iff.mp hstep
      cases hres
      apply addSubGraph_keeps _ h.links h hkeeps hadd
      intro s s' m n g hs hm hgraft hroot
      exact hs.addGraphRoot hm hgraft hroot
  | reset isg =>
      have hclear : Ascends t.clear := ascends_of_heap_empty
        (links_of_heap_empty (clear_heap h.links) rfl rfl) (clear_heap h.links)
      apply reset_keeps (C := LeafGrafted) _ hclear _ hkeeps hstep
      · intro s s' m n g hs hm hgraft hadd
        exact hs.addGraphRoot hm hgraft hadd
      · intro t₁ root hroot
        obtain ⟨host, port, rank, isBackEnd, -, -, -, -, -, rfl⟩ := resetRoot_ok hroot
        exact ascends_root hclear rfl host port rank isBackEnd

/-- The node is an ancestor of the one and a proper ancestor of the other. -/
def CommonAscendant (t : NetworkTopology) (node orphan z : Ptr) : Prop :=
  Below t.parentOf node z ∧ TransGen (Link t.parentOf) orphan z

/-- The number is the length of the way up from the one node to the closest common ascendant
and down to the other, or that of no path. -/
def IsProximity (t : NetworkTopology) (node orphan : Ptr) (d : BitVec 32) : Prop :=
  (∃ z m n, CommonAscendant t node orphan z ∧
      (∀ z', CommonAscendant t node orphan z' → Below t.parentOf z z') ∧
      Up t.parentOf node z m ∧ Up t.parentOf orphan z n ∧ d = BitVec.ofNat 32 (m + n)) ∨
    ((∀ z, ¬CommonAscendant t node orphan z) ∧ d = BitVec.allOnes 32)

lemma distance_zero (d : BitVec 32) : d + BitVec.ofNat 32 0 = d := BitVec.add_zero d

lemma distance_succ (d : BitVec 32) (m : ℕ) :
    d + 1 + BitVec.ofNat 32 m = d + BitVec.ofNat 32 (m + 1) := by
  rw [BitVec.ofNat_add, BitVec.add_assoc, BitVec.add_comm 1 (BitVec.ofNat 32 m)]
  rfl

section Climbing
variable (hlinks : Links t) (hrooted : ∀ p, Rooted t.parentOf p)
include hlinks hrooted

/-- The induction over the links that a loop follows up from a node. -/
lemma climb_induction {P : ℕ → Ptr → Prop}
    (hstep : ∀ n q node, t.deref q = .ok node → (∀ p, node.parent = some p → P n p) → P (n + 1) q)
    {p : Ptr} (hp : t.Live p) : P t.levels p := by
  have hP : t.Live p → P t.levels p := by
    have hnodes : ∀ b a, Link t.parentOf a b → b ∈ t.heap.keys := by
      intro b a hlink
      exact Finmap.mem_keys.mpr (hlinks.parent_live hlink)
    apply Forest.descend_induction hnodes (P := fun n q => t.Live q → P n q)
    · intro n q hnext hq
      obtain ⟨node, hnode⟩ := deref_of_live hq
      apply hstep n q node hnode
      intro p hp
      rw [← parentOf_of_deref hnode] at hp
      exact hnext p hp (hlinks.parent_live hp)
    · exact Finmap.mem_keys.mpr hp
    · exact (hrooted p).acc
  exact hP hp

/-- The first loop finds the first of the given nodes on the way up, if there is one. -/
lemma climbToCommon_spec (ascendants : List Ptr) {p : Ptr} (hp : t.Live p) (d : BitVec 32) :
    (∃ z m, t.climbToCommon ascendants t.levels p d = .ok (some (z, d + BitVec.ofNat 32 m)) ∧
        Up t.parentOf p z m ∧ z ∈ ascendants ∧
        ∀ z' ∈ ascendants, Below t.parentOf p z' → Below t.parentOf z z') ∨
      (t.climbToCommon ascendants t.levels p d = .ok none ∧
        ∀ z ∈ ascendants, ¬Below t.parentOf p z) := by
  revert d
  apply climb_induction hlinks hrooted (P := fun k p => ∀ d,
    (∃ z m, t.climbToCommon ascendants k p d = .ok (some (z, d + BitVec.ofNat 32 m)) ∧
        Up t.parentOf p z m ∧ z ∈ ascendants ∧
        ∀ z' ∈ ascendants, Below t.parentOf p z' → Below t.parentOf z z') ∨
      (t.climbToCommon ascendants k p d = .ok none ∧
        ∀ z ∈ ascendants, ¬Below t.parentOf p z)) _ hp
  intro k q node hnode hnext d
  have hparent := parentOf_of_deref hnode
  by_cases hq : q ∈ ascendants
  · refine .inl ⟨q, 0, ?_, .refl, hq, fun z' _ hz' => hz'⟩
    rw [climbToCommon, if_pos hq, distance_zero]
    rfl
  · have hself : ∀ z ∈ ascendants, Below t.parentOf q z →
        ∃ b, Link t.parentOf q b ∧ Below t.parentOf b z := by
      intro z hz hbelow
      rcases ReflTransGen.cases_head hbelow with heq | hup
      · exact absurd (heq ▸ hz) hq
      · exact hup
    rw [climbToCommon, if_neg hq, hnode, ok_bind]
    cases hnone : node.parent with
    | none =>
        rw [hnone] at hparent
        refine .inr ⟨rfl, fun z hz hbelow => ?_⟩
        obtain ⟨b, hb, -⟩ := hself z hz hbelow
        rw [Link, hparent] at hb
        cases hb
    | some b =>
        rw [hnone] at hparent
        have hunique : ∀ {b'}, Link t.parentOf q b' → b' = b := by
          intro b' hb'
          exact Forest.link_rightUnique _ hb' hparent
        rcases hnext b hnone (d + 1) with ⟨z, m, hclimb, hup, hz, hclosest⟩ | ⟨hclimb, hno⟩
        · refine .inl ⟨z, m + 1, ?_, .link hparent hup, hz, fun z' hz' hbelow => ?_⟩
          · show t.climbToCommon ascendants k b (d + 1) = _
            rw [hclimb, distance_succ]
          · obtain ⟨b', hb', hrest⟩ := hself z' hz' hbelow
            rw [hunique hb'] at hrest
            exact hclosest z' hz' hrest
        · refine .inr ⟨hclimb, fun z hz hbelow => ?_⟩
          obtain ⟨b', hb', hrest⟩ := hself z hz hbelow
          rw [hunique hb'] at hrest
          exact hno z hz hrest

/-- The second loop reaches an ancestor. -/
lemma climbTo_spec {p z : Ptr} (hp : t.Live p) (hbelow : Below t.parentOf p z) (d : BitVec 32) :
    ∃ n, t.climbTo z t.levels p d = .ok (d + BitVec.ofNat 32 n) ∧ Up t.parentOf p z n := by
  revert d
  apply climb_induction hlinks hrooted (P := fun k p => Below t.parentOf p z → ∀ d,
    ∃ n, t.climbTo z k p d = .ok (d + BitVec.ofNat 32 n) ∧ Up t.parentOf p z n) _ hp hbelow
  intro k q node hnode hnext hbelow d
  have hparent := parentOf_of_deref hnode
  by_cases hq : q = z
  · refine ⟨0, ?_, hq ▸ .refl⟩
    rw [climbTo, if_pos hq, distance_zero]
    rfl
  · obtain ⟨b, hb, hrest⟩ := (ReflTransGen.cases_head hbelow).resolve_left hq
    have hparent : node.parent = some b := by
      rw [← hparent]
      exact hb
    obtain ⟨n, hclimb, hup⟩ := hnext b hparent hrest (d + 1)
    refine ⟨n + 1, ?_, .link hb hup⟩
    rw [climbTo, if_neg hq, hnode, ok_bind, hparent]
    show t.climbTo z k b (d + 1) = _
    rw [hclimb, distance_succ]

end Climbing

/-- Both loops meet at a node. -/
lemma getProximity_met {node orphan z : Ptr} {orphanNode : Node} {m n : ℕ}
    (hderef : t.deref orphan = .ok orphanNode)
    (hclimb : t.climbToCommon orphanNode.ascendants t.levels node 0 =
      .ok (some (z, 0 + BitVec.ofNat 32 m)))
    (hclimb' : t.climbTo z t.levels orphan 0 = .ok (0 + BitVec.ofNat 32 n)) :
    t.getProximity node orphan = .ok (BitVec.ofNat 32 (m + n)) := by
  rw [getProximity, hderef, ok_bind, hclimb, ok_bind]
  show (do
    let orphanDistance ← t.climbTo z t.levels orphan 0
    return (0 + BitVec.ofNat 32 m) + orphanDistance) = _
  rw [hclimb', ok_bind, BitVec.ofNat_add, zero_add, zero_add]
  rfl

/-- The first loop meets nothing. -/
lemma getProximity_missed {node orphan : Ptr} {orphanNode : Node}
    (hderef : t.deref orphan = .ok orphanNode)
    (hclimb : t.climbToCommon orphanNode.ascendants t.levels node 0 = .ok none) :
    t.getProximity node orphan = .ok (BitVec.allOnes 32) := by
  rw [getProximity, hderef, ok_bind, hclimb]
  rfl

/-- With exact caches the proximity is right. -/
theorem Ascends.getProximity_spec (h : Ascends t) {node orphan : Ptr}
    (hnode : t.Live node) (horphan : t.Live orphan) :
    ∃ d, t.getProximity node orphan = .ok d ∧ IsProximity t node orphan d := by
  obtain ⟨orphanNode, hderef⟩ := deref_of_live horphan
  have hmem : ∀ z, z ∈ orphanNode.ascendants ↔ TransGen (Link t.parentOf) orphan z :=
    h.exact orphan orphanNode.ascendants (view_of_lookup _ (deref_ok_iff.mp hderef))
  rcases climbToCommon_spec h.links h.rooted orphanNode.ascendants hnode 0 with
    ⟨z, m, hclimb, hup, hz, hclosest⟩ | ⟨hclimb, hno⟩
  · have hbelow : Below t.parentOf orphan z := ((hmem z).mp hz).to_reflTransGen
    obtain ⟨n, hclimb', hup'⟩ := climbTo_spec h.links h.rooted horphan hbelow 0
    refine ⟨_, getProximity_met hderef hclimb hclimb', .inl ⟨z, m, n,
      ⟨hup.isBelow, (hmem z).mp hz⟩, fun z' hz' => ?_, hup, hup', rfl⟩⟩
    exact hclosest z' ((hmem z').mpr hz'.2) hz'.1
  · refine ⟨_, getProximity_missed hderef hclimb,
      .inr ⟨fun z hz => hno z ((hmem z).mpr hz.2) hz.1, rfl⟩⟩

lemma Started.ascends (h : Started t) : Ascends t := by
  have hempty : Ascends .empty := ascends_of_heap_empty links_empty rfl
  cases h with
  | empty => exact hempty
  | create hostName port rank isBackEnd =>
      exact ascends_root hempty rfl hostName port rank isBackEnd

lemma Led.ascends {start : NetworkTopology} (h : Led KeepsAscendants start t)
    (hstart : Started start) : Ascends t := by
  induction h with
  | start => exact hstart.ascends
  | step _ hmeets hstep ih => exact ih.perform hmeets hstep

/-- As long as only leaves are linked to new parents and removed, the caches are exact and
the proximity of any two nodes is right. -/
theorem led_ascendants {start : NetworkTopology} (hstart : Started start)
    (h : Led KeepsAscendants start t) : ExactAscendants t ∧
      ∀ node orphan, t.Live node → t.Live orphan →
        ∃ d, t.getProximity node orphan = .ok d ∧ IsProximity t node orphan d := by
  have hascends := h.ascends hstart
  exact ⟨hascends.exact, fun node orphan hnode horphan =>
    hascends.getProximity_spec hnode horphan⟩

/-- The text of a node without children. -/
def childlessText (rank : Rank) : Text :=
  SerialGraph.endSubTree (SerialGraph.addSubTreeRoot [] ['b'] 2 rank)

lemma leavesGrafted_childless {inode : Ptr} {isg : Text} {r : Rank}
    (hkids : SerialGraph.getChildren isg = .ok []) (hr : SerialGraph.getRootRank isg = .ok r)
    (hfresh : t.findNode r = none) : LeavesGrafted t inode isg := by
  intro s m g hvisit r' c hr' hc
  obtain ⟨rfl, rfl, rfl⟩ := hvisit.childless hkids
  cases hr.symm.trans hr'
  rw [hfresh] at hc
  cases hc

lemma led_childless {start : NetworkTopology} (h : Led KeepsAscendants start t) {irank r : Rank}
    {isg : Text} (hkids : SerialGraph.getChildren isg = .ok [])
    (hr : SerialGraph.getRootRank isg = .ok r) (hfresh : t.findNode r = none)
    (hadd : t.addSubGraph irank isg = .ok (t', true)) : Led KeepsAscendants start t' := by
  have hkeeps : KeepsAscendants t (.addSubGraph irank isg) := by
    intro node _
    exact leavesGrafted_childless hkids hr hfresh
  exact .step h hkeeps (bind_ok_iff.mpr ⟨_, hadd, rfl⟩)

/-- Two nodes are attached to the root. -/
theorem led_ascendants_siblings : ∃ t, Led KeepsAscendants (.create ['a'] 1 0 false) t ∧
    t.getProximity 1 2 = .ok 2 ∧ ExactAscendants t := by
  have hkids₁ : SerialGraph.getChildren (childlessText 1) = .ok [] := rfl
  have hkids₂ : SerialGraph.getChildren (childlessText 2) = .ok [] := rfl
  obtain ⟨t₁, hadd₁, hfresh, t₂, hadd₂, hproximity⟩ : ∃ t₁,
      (NetworkTopology.create ['a'] 1 0 false).addSubGraph 0 (childlessText 1) = .ok (t₁, true) ∧
        t₁.findNode 2 = none ∧ ∃ t₂, t₁.addSubGraph 0 (childlessText 2) = .ok (t₂, true) ∧
          t₂.getProximity 1 2 = .ok 2 := by
    simp only [addSubGraph, addGraph_childless _ _ hkids₁, addGraph_childless _ _ hkids₂]
    exact ⟨_, rfl, rfl, _, rfl, rfl⟩
  have hled₁ := led_childless .start hkids₁ rfl rfl hadd₁
  have hled₂ := led_childless hled₁ hkids₂ rfl hfresh hadd₂
  exact ⟨t₂, hled₂, hproximity, (led_ascendants (.create ['a'] 1 0 false) hled₂).1⟩

/-- The call keeps the parents acyclic. -/
def StaysRooted (t : NetworkTopology) (op : Operation) : Prop :=
  ∀ t', perform t op = .ok t' → ∀ p, Rooted t'.parentOf p

/-- A run that keeps the caches exact keeps the parents acyclic. -/
lemma Led.staysRooted {start : NetworkTopology} (hstart : Started start)
    (h : Led KeepsAscendants start t) : Led StaysRooted start t := by
  induction h with
  | start => exact .start
  | step hled hmeets hstep ih =>
      refine .step ih (fun t' hstep' => ?_) hstep
      exact ((hled.ascends hstart).perform hmeets hstep').rooted

/-- A node with a child is removed, and stays in the cache of the child. -/
theorem removed_parent_cached : ∃ t, Led StaysRooted (.create ['a'] 1 0 false) t ∧
    ¬ExactAscendants t := by
  have hkids₁ : SerialGraph.getChildren (childlessText 1) = .ok [] := rfl
  have hkids₂ : SerialGraph.getChildren (childlessText 2) = .ok [] := rfl
  obtain ⟨t₁, hadd₁, hfresh, t₂, hadd₂, t₃, hremove, hasc, hparent⟩ : ∃ t₁,
      (NetworkTopology.create ['a'] 1 0 false).addSubGraph 0 (childlessText 1) = .ok (t₁, true) ∧
        t₁.findNode 2 = none ∧ ∃ t₂, t₁.addSubGraph 1 (childlessText 2) = .ok (t₂, true) ∧
          ∃ t₃, t₂.removeNode 1 = .ok (t₃, true) ∧
            t₃.ascendantsOf 2 = some [1, 0] ∧ t₃.parentOf 2 = none := by
    simp only [addSubGraph, addGraph_childless _ _ hkids₁, addGraph_childless _ _ hkids₂]
    exact ⟨_, rfl, rfl, _, rfl, _, rfl, rfl, rfl⟩
  have hled₁ := led_childless .start hkids₁ rfl rfl hadd₁
  have hled₂ := led_childless hled₁ hkids₂ rfl hfresh hadd₂
  have hstart : Started (.create ['a'] 1 0 false) := .create ['a'] 1 0 false
  have hascends := hled₂.ascends hstart
  have hstays : StaysRooted t₂ (.removeNode 1) := by
    intro t' hstep
    obtain ⟨⟨t₄, found⟩, hremove', hres⟩ := bind_ok_iff.mp hstep
    cases hres
    exact removeNode_rooted hascends.links hascends.rooted hremove'
  refine ⟨t₃, .step (hled₂.staysRooted hstart) hstays (bind_ok_iff.mpr ⟨_, hremove, rfl⟩),
    fun hexact => ?_⟩
  have habove := (hexact 2 [1, 0] hasc 1).mp List.mem_cons_self
  obtain ⟨b, hb, -⟩ := TransGen.head'_iff.mp habove
  rw [Link, hparent] at hb
  cases hb

end MRNet.Topology
