import MRNet.TopologyLinks

/-!
# What the operations do to the objects

Besides the links a node holds its host name and port, a flag for back-ends and a cached set
of ascendants, and the topology keeps sets of nodes. What becomes of them in each operation.
-/
namespace MRNet.Topology
open Codec
open SerialGraph (Text Port)
open WaitForAll (Rank)

namespace NetworkTopology

/-- One part of every object. -/
def view {α : Type} (g : Node → α) (t : NetworkTopology) (p : Ptr) : Option α :=
  (t.heap.lookup p).map g

def flagOf : NetworkTopology → Ptr → Option Bool := view Node.isBackEnd

def placeOf : NetworkTopology → Ptr → Option (Text × Port) :=
  view fun node => (node.hostName, node.port)

def ascendantsOf : NetworkTopology → Ptr → Option (List Ptr) := view Node.ascendants

/-- The lists of children have no duplicates, as they stand for sets. -/
def ChildSets (t : NetworkTopology) : Prop := ∀ p, (t.childrenOf p).Nodup

end NetworkTopology

open NetworkTopology

variable {t t' : NetworkTopology}

lemma view_congr {α : Type} (g : Node → α) (h : t'.heap = t.heap) : t'.view g = t.view g := by
  ext1 p
  rw [view, view, h]

lemma view_of_lookup {α : Type} (g : Node → α) {p : Ptr} {node : Node}
    (h : t.heap.lookup p = some node) : t.view g p = some (g node) := by
  rw [view, h]
  rfl

lemma live_iff_view {α : Type} (g : Node → α) {p : Ptr} : t.Live p ↔ (t.view g p).isSome := by
  rw [Live, ← Finmap.lookup_isSome, view, Option.isSome_map]

lemma live_of_flagOf {p : Ptr} {b : Bool} (h : t.flagOf p = some b) : t.Live p := by
  rw [live_iff_view Node.isBackEnd]
  exact Option.isSome_iff_exists.mpr ⟨b, h⟩

section Modify
variable {p : Ptr} {f : Node → Node} (h : t.modify p f = .ok t')
include h

lemma modify_view {α : Type} (g : Node → α) (q : Ptr) :
    t'.view g q = if q = p then t.view (fun node => g (f node)) q else t.view g q := by
  rw [view, modify_lookup h]
  split_ifs
  · rw [Option.map_map]
    rfl
  · rfl

lemma modify_view_eq {α : Type} {g : Node → α} (hf : ∀ node, g (f node) = g node) :
    t'.view g = t.view g := by
  ext1 q
  rw [modify_view h]
  simp only [hf, ite_self]

lemma modify_sets : t'.root = t.root ∧ t'.backEndNodes = t.backEndNodes ∧
    t'.parentNodes = t.parentNodes := by
  obtain ⟨node, -, rfl⟩ := modify_ok h
  exact ⟨rfl, rfl, rfl⟩

lemma modify_childSets (hf : ∀ node, node.children.Nodup → (f node).children.Nodup)
    (hsets : t.ChildSets) : t'.ChildSets := by
  intro q
  have hq := hsets q
  rw [childrenOf] at hq ⊢
  rw [modify_lookup h]
  cases hlookup : t.heap.lookup q with
  | none =>
      rw [Option.map_none, ite_self]
      exact List.nodup_nil
  | some node =>
      rw [hlookup] at hq
      split_ifs
      · exact hf node hq
      · exact hq

end Modify

/-- What `Moved` does not say of a node `c` that has become a child of `p`. -/
structure MovedObjects (t t' : NetworkTopology) (c p : Ptr) : Prop where
  flagOf : ∀ q, t'.flagOf q = if q = p then (t.flagOf q).map fun _ => false else t.flagOf q
  placeOf : t'.placeOf = t.placeOf
  ascendantsOf : ∀ q, t'.ascendantsOf q =
    if q = c then (t.ascendantsOf p).map (List.insert p) else t.ascendantsOf q
  childSets : t.ChildSets → t'.ChildSets
  sets : t'.root = t.root ∧ t'.backEndNodes = t.backEndNodes ∧ t'.parentNodes = t.parentNodes

lemma removeOrphan_sets (t : NetworkTopology) (r : Rank) :
    (t.removeOrphan r).root = t.root ∧ (t.removeOrphan r).backEndNodes = t.backEndNodes ∧
      (t.removeOrphan r).parentNodes = t.parentNodes := by
  unfold removeOrphan
  cases t.findNode r with
  | none => exact ⟨rfl, rfl, rfl⟩
  | some node => exact ⟨rfl, rfl, rfl⟩

lemma link_objects {c p : Ptr} (h : t.link c p = .ok t') : MovedObjects t t' c p := by
  obtain ⟨t₁, h₁, h⟩ := bind_ok_iff.mp h
  obtain ⟨t₂, h₂, h⟩ := bind_ok_iff.mp h
  obtain ⟨child, hchild, h⟩ := bind_ok_iff.mp h
  obtain ⟨newParent, hnewParent, h₃⟩ := bind_ok_iff.mp h
  have hheap : (t₂.removeOrphan child.rank).heap = t₂.heap := (removeOrphan_views _ _).2.1
  have hrest : ∀ {α} (g : Node → α), (t₂.removeOrphan child.rank).view g = t₂.view g :=
    fun g => view_congr g hheap
  constructor
  · intro q
    have hflag₁ : t₁.view Node.isBackEnd = t.view Node.isBackEnd := modify_view_eq h₁ fun _ => rfl
    have hflag₃ : t'.view Node.isBackEnd = t₂.view Node.isBackEnd :=
      (modify_view_eq h₃ fun _ => rfl).trans (hrest _)
    rw [NetworkTopology.flagOf, hflag₃, modify_view h₂, ← hflag₁]
    split_ifs
    · rw [view, view, Option.map_map]
      rfl
    · rfl
  · have hplace : t'.placeOf = (t₂.removeOrphan child.rank).placeOf :=
      modify_view_eq h₃ fun _ => rfl
    rw [hplace, NetworkTopology.placeOf, hrest, modify_view_eq h₂ fun _ => rfl,
      modify_view_eq h₁ fun _ => rfl]
  · intro q
    have hbefore : (t₂.removeOrphan child.rank).ascendantsOf = t.ascendantsOf := by
      rw [NetworkTopology.ascendantsOf, hrest, modify_view_eq h₂ fun _ => rfl,
        modify_view_eq h₁ fun _ => rfl]
    have hparent : t.ascendantsOf p = some newParent.ascendants := by
      rw [← hbefore]
      exact view_of_lookup _ (deref_ok_iff.mp hnewParent)
    have hlive : (t₂.removeOrphan child.rank).Live c := by
      obtain ⟨node, hnode, -⟩ := modify_ok h₃
      exact Finmap.mem_of_lookup_eq_some hnode
    rw [hparent, NetworkTopology.ascendantsOf, modify_view h₃]
    split_ifs with hq
    · obtain ⟨node, hnode⟩ := Option.isSome_iff_exists.mp (Finmap.lookup_isSome.mpr hlive)
      rw [hq, view, hnode]
      rfl
    · exact congrFun hbefore q
  · intro hsets
    have hsets₁ : t₁.ChildSets := modify_childSets h₁ (fun _ hnodup => hnodup) hsets
    have hsets₂ : t₂.ChildSets := modify_childSets h₂ (fun _ hnodup => hnodup.insert) hsets₁
    have hsets₃ : (t₂.removeOrphan child.rank).ChildSets := by
      intro q
      rw [childrenOf_congr hheap]
      exact hsets₂ q
    exact modify_childSets h₃ (fun _ hnodup => hnodup) hsets₃
  · obtain ⟨hr₁, hb₁, hp₁⟩ := modify_sets h₁
    obtain ⟨hr₂, hb₂, hp₂⟩ := modify_sets h₂
    obtain ⟨hr, hb, hp⟩ := removeOrphan_sets t₂ child.rank
    obtain ⟨hr₃, hb₃, hp₃⟩ := modify_sets h₃
    rw [hr₃, hr, hr₂, hr₁, hb₃, hb, hb₂, hb₁, hp₃, hp, hp₂, hp₁]
    exact ⟨rfl, rfl, rfl⟩

/-- `set_Parent` leaves the topology as it is, or moves a node with its object. -/
theorem setParent_cases (hlinks : Links t) {rc rp : Rank} {res : Reparented}
    (h : t.setParent rc rp = .ok (t', res)) :
    (t' = t ∧ ∀ c p, t.findNode rc = some c → t.findNode rp = some p → t.parentOf c = some p) ∨
      ∃ c p, t.findNode rc = some c ∧ t.findNode rp = some p ∧ t.parentOf c ≠ some p ∧
        Moved t t' c p ∧ MovedObjects t t' c p := by
  rcases setParent_spec hlinks h with ⟨-, heq, hsame⟩ | ⟨hres, c, p, hc, hp, hne, hmoved⟩
  · exact .inl ⟨heq, hsame⟩
  · refine .inr ⟨c, p, hc, hp, hne, hmoved, ?_⟩
    subst hres
    unfold NetworkTopology.setParent at h
    rw [hc, hp] at h
    obtain ⟨child, -, h⟩ := bind_ok_iff.mp h
    cases hold : child.parent with
    | none =>
        rw [hold] at h
        obtain ⟨t₁, hlink, hres⟩ := bind_ok_iff.mp h
        cases hres
        exact link_objects hlink
    | some old =>
        rw [hold] at h
        dsimp only at h
        split_ifs at h
        · cases h
        · obtain ⟨t₁, hremove, h⟩ := bind_ok_iff.mp h
          obtain ⟨t₂, hlink, hres⟩ := bind_ok_iff.mp h
          cases hres
          have hobjects := link_objects hlink
          have hflag : t₁.flagOf = t.flagOf := modify_view_eq hremove fun _ => rfl
          have hplace : t₁.placeOf = t.placeOf := modify_view_eq hremove fun _ => rfl
          have hasc : t₁.ascendantsOf = t.ascendantsOf := modify_view_eq hremove fun _ => rfl
          obtain ⟨hr, hb, hp⟩ := modify_sets hremove
          obtain ⟨hr', hb', hp'⟩ := hobjects.sets
          constructor
          · rw [← hflag]
            exact hobjects.flagOf
          · rw [← hplace]
            exact hobjects.placeOf
          · rw [← hasc]
            exact hobjects.ascendantsOf
          · exact fun hsets => hobjects.childSets
              (modify_childSets hremove (fun _ hnodup => hnodup.filter _) hsets)
          · exact ⟨hr'.trans hr, hb'.trans hb, hp'.trans hp⟩

lemma setParent_live (hlinks : Links t) {rc rp : Rank} {res : Reparented}
    (h : t.setParent rc rp = .ok (t', res)) {q : Ptr} (hq : t.Live q) : t'.Live q := by
  rcases setParent_cases hlinks h with ⟨rfl, -⟩ | ⟨c, p, -, -, -, hmoved, -⟩
  · exact hq
  · rw [live_iff_rankOf, hmoved.rankOf, ← live_iff_rankOf]
    exact hq

lemma setParent_nodes (hlinks : Links t) {rc rp : Rank} {res : Reparented}
    (h : t.setParent rc rp = .ok (t', res)) : t'.nodes = t.nodes := by
  rcases setParent_cases hlinks h with ⟨rfl, -⟩ | ⟨c, p, -, -, -, hmoved, -⟩
  · rfl
  · exact hmoved.nodes

/-- What `Removed` does not say of a node that is gone. -/
structure RemovedObjects (t t' : NetworkTopology) (p : Ptr) : Prop where
  flagOf : t'.flagOf = Function.update t.flagOf p none
  placeOf : t'.placeOf = Function.update t.placeOf p none
  ascendantsOf : t'.ascendantsOf = Function.update t.ascendantsOf p none
  childSets : t.ChildSets → t'.ChildSets
  root : t'.root = if t.root = some p then none else t.root
  backEndNodes : ∀ q, q ∈ t'.backEndNodes ↔
    q ∈ t.backEndNodes ∧ (t.flagOf p = some true → q ≠ p)
  parentNodes : ∀ q, q ∈ t'.parentNodes ↔
    q ∈ t.parentNodes ∧ (t.flagOf p = some false → q ≠ p)

/-- The loop changes no part of an object but the parent. -/
lemma orphanChildren_objects {p : Ptr} {cs : List Ptr} (h : orphanChildren p cs t = .ok t') :
    (∀ {α} {g : Node → α}, (∀ node, g (node.setParent none) = g node) → t'.view g = t.view g) ∧
      (t.ChildSets → t'.ChildSets) ∧ t'.root = t.root ∧ t'.backEndNodes = t.backEndNodes ∧
      t'.parentNodes = t.parentNodes := by
  induction cs generalizing t with
  | nil =>
      cases h
      exact ⟨fun _ => rfl, fun hsets => hsets, rfl, rfl, rfl⟩
  | cons c cs ih =>
      obtain ⟨child, -, h⟩ := bind_ok_iff.mp h
      split_ifs at h with hown
      · obtain ⟨t₁, h₁, h⟩ := bind_ok_iff.mp h
        obtain ⟨hview, hsets, hr, hb, hp⟩ := ih h
        obtain ⟨hr₁, hb₁, hp₁⟩ := modify_sets h₁
        refine ⟨fun hg => ?_, fun hnodup => ?_, hr.trans hr₁, hb.trans hb₁, hp.trans hp₁⟩
        · exact (hview hg).trans (modify_view_eq h₁ hg)
        · have hnodup₁ : t₁.ChildSets := modify_childSets h₁ (fun _ hnode => hnode) hnodup
          exact hsets hnodup₁
      · exact ih h

lemma delete_view {α : Type} (g : Node → α) (t : NetworkTopology) (p : Ptr) :
    (t.delete p).view g = Function.update (t.view g) p none := by
  ext1 q
  rw [view, delete_lookup]
  by_cases hq : q = p
  · rw [if_pos hq, hq, Function.update_self]
    rfl
  · rw [if_neg hq, Function.update_of_ne hq]
    rfl

lemma delete_childSets {p : Ptr} (h : t.ChildSets) : (t.delete p).ChildSets := by
  intro q
  rw [NetworkTopology.childrenOf, delete_lookup]
  split_ifs
  · exact List.nodup_nil
  · exact h q

lemma removeObject_objects {p : Ptr} (h : t.removeObject p = .ok t') : RemovedObjects t t' p := by
  obtain ⟨node, hnode, h⟩ := bind_ok_iff.mp h
  obtain ⟨t₁, h₁, hres⟩ := bind_ok_iff.mp h
  cases hres
  obtain ⟨hview, hsets, hr, hb, hp⟩ := orphanChildren_objects h₁
  have hflag : t.flagOf p = some node.isBackEnd := view_of_lookup _ (deref_ok_iff.mp hnode)
  have hviews : ∀ {α} {g : Node → α}, (∀ node, g (node.setParent none) = g node) →
      (t₁.delete p).view g = Function.update (t.view g) p none := by
    intro α g hg
    rw [delete_view, hview hg]
    rfl
  refine ⟨hviews fun _ => rfl, hviews fun _ => rfl, hviews fun _ => rfl,
    fun hnodup => delete_childSets (hsets hnodup), hr, fun q => ?_, fun q => ?_⟩
  · show q ∈ t₁.backEndNodes ↔ _
    rw [hb, hflag, NetworkTopology.unregister]
    cases hbackEnd : node.isBackEnd <;> simp
  · show q ∈ t₁.parentNodes ↔ _
    rw [hp, hflag, NetworkTopology.unregister]
    cases hbackEnd : node.isBackEnd <;> simp

lemma leaveParent_objects {p : Ptr} (h : t.leaveParent p = .ok t') :
    (∀ {α} {g : Node → α}, (∀ node c, g (node.removeChild c) = g node) → t'.view g = t.view g) ∧
      (t.ChildSets → t'.ChildSets) ∧ t'.root = t.root ∧ t'.backEndNodes = t.backEndNodes ∧
      t'.parentNodes = t.parentNodes := by
  obtain ⟨node, -, h⟩ := bind_ok_iff.mp h
  cases hparent : node.parent with
  | none =>
      rw [hparent] at h
      cases h
      exact ⟨fun _ => rfl, fun hsets => hsets, rfl, rfl, rfl⟩
  | some q =>
      rw [hparent] at h
      exact ⟨fun hg => modify_view_eq h fun node => hg node p,
        modify_childSets h fun _ hnodup => hnodup.filter _, modify_sets h⟩

/-- `remove_Node` finds no node, or removes the one that it finds with its object. -/
theorem removeNode_cases (hlinks : Links t) {r : Rank} {found : Bool}
    (h : t.removeNode r = .ok (t', found)) :
    (t.findNode r = none ∧ t' = t) ∨
      ∃ p, t.findNode r = some p ∧ Removed t t' p ∧ RemovedObjects t t' p := by
  rcases removeNode_spec hlinks h with ⟨-, hnone, heq⟩ | ⟨-, p, hp, hremoved⟩
  · exact .inl ⟨hnone, heq⟩
  · refine .inr ⟨p, hp, hremoved, ?_⟩
    unfold NetworkTopology.removeNode at h
    rw [hp] at h
    obtain ⟨t₁, h₁, h⟩ := bind_ok_iff.mp h
    obtain ⟨t₂, h₂, h⟩ := bind_ok_iff.mp h
    obtain ⟨t₃, h₃, hres⟩ := bind_ok_iff.mp h
    cases hres
    obtain ⟨hview₂, hsets₂, hr₂, hb₂, hp₂⟩ := leaveParent_objects h₂
    obtain ⟨hr₁, hb₁, hp₁⟩ := modify_sets h₁
    have hobjects := removeObject_objects h₃
    have hflag : t₂.flagOf = t.flagOf :=
      (hview₂ fun _ _ => rfl).trans (modify_view_eq h₁ fun _ => rfl)
    have hplace : t₂.placeOf = t.placeOf :=
      (hview₂ fun _ _ => rfl).trans (modify_view_eq h₁ fun _ => rfl)
    have hasc : t₂.ascendantsOf = t.ascendantsOf :=
      (hview₂ fun _ _ => rfl).trans (modify_view_eq h₁ fun _ => rfl)
    constructor
    · rw [← hflag]
      exact hobjects.flagOf
    · rw [← hplace]
      exact hobjects.placeOf
    · rw [← hasc]
      exact hobjects.ascendantsOf
    · exact fun hnodup => hobjects.childSets
        (hsets₂ (modify_childSets h₁ (fun _ hnode => hnode) hnodup))
    · rw [← hr₁, ← hr₂]
      exact hobjects.root
    · rw [← hb₁, ← hb₂, ← hflag]
      exact hobjects.backEndNodes
    · rw [← hp₁, ← hp₂, ← hflag]
      exact hobjects.parentNodes

lemma newObject_view {α : Type} (g : Node → α) (t : NetworkTopology) (node : Node) :
    (t.newObject node).view g = Function.update (t.view g) t.nextPtr (some (g node)) := by
  ext1 q
  rw [view, newObject_lookup]
  by_cases hq : q = t.nextPtr
  · rw [if_pos hq, hq, Function.update_self]
    rfl
  · rw [if_neg hq, Function.update_of_ne hq]
    rfl

lemma newObject_childSets (h : t.ChildSets) {host : Text} {port : Port} {r : Rank}
    {isBackEnd : Bool} : (t.newObject (Node.create host port r isBackEnd)).ChildSets := by
  intro q
  rw [NetworkTopology.childrenOf, newObject_lookup]
  split_ifs
  · exact List.nodup_nil
  · exact h q

lemma newObject_live (t : NetworkTopology) (node : Node) (q : Ptr) :
    (t.newObject node).Live q ↔ t.Live q ∨ q = t.nextPtr := by
  rw [live_iff_view Node.rank, live_iff_view Node.rank, newObject_view]
  by_cases hq : q = t.nextPtr
  · rw [hq, Function.update_self]
    simp
  · rw [Function.update_of_ne hq]
    simp [hq]

/-- The topology in which the root of a graph is linked to a node: the root is known, or it
has just been made. -/
inductive Grafted (t : NetworkTopology) (inode : Ptr) (isg : Text) (r : Rank) (c : Ptr) :
    NetworkTopology → Prop
  | known (hfound : t.findNode r = some c) :
      Grafted t inode isg r c { t with parentNodes := t.parentNodes.insert inode }
  | made {host : Text} {port : Port} {isBackEnd : Bool} (hfresh : t.findNode r = none)
      (hc : c = t.nextPtr) (hhost : SerialGraph.getRootHostName isg = .ok host)
      (hport : SerialGraph.getRootPort isg = .ok port)
      (hflag : SerialGraph.isRootBackEnd isg = .ok isBackEnd) :
      Grafted t inode isg r c
        { t.newObject (Node.create host port r isBackEnd) with
          nodes := t.nodes.insert r t.nextPtr
          parentNodes := t.parentNodes.insert inode }

/-- A back-end is registered as one. -/
def enlist (t : NetworkTopology) (c : Ptr) (isBackEnd : Bool) : NetworkTopology :=
  if isBackEnd then { t with backEndNodes := t.backEndNodes.insert c } else t

lemma enlist_rest (t : NetworkTopology) (c : Ptr) (isBackEnd : Bool) :
    (enlist t c isBackEnd).heap = t.heap ∧ (enlist t c isBackEnd).nodes = t.nodes ∧
      (enlist t c isBackEnd).nextPtr = t.nextPtr ∧ (enlist t c isBackEnd).orphans = t.orphans ∧
      (enlist t c isBackEnd).root = t.root ∧
      (enlist t c isBackEnd).parentNodes = t.parentNodes := by
  cases isBackEnd <;> exact ⟨rfl, rfl, rfl, rfl, rfl, rfl⟩

lemma mem_enlist (t : NetworkTopology) (c : Ptr) (isBackEnd : Bool) (q : Ptr) :
    q ∈ (enlist t c isBackEnd).backEndNodes ↔
      q ∈ t.backEndNodes ∨ (isBackEnd = true ∧ q = c) := by
  cases isBackEnd with
  | false => simp [enlist]
  | true => simp [enlist, List.mem_insert_iff, or_comm]

lemma created_grafted (hlinks : Links t) (inode : Ptr) (host : Text) (port : Port) (r : Rank)
    (isBackEnd : Bool) : Created t
      { t.newObject (Node.create host port r isBackEnd) with
        nodes := t.nodes.insert r t.nextPtr
        parentNodes := t.parentNodes.insert inode } r :=
  created_of_newObject hlinks host port r isBackEnd rfl rfl rfl rfl

lemma Grafted.links {inode c : Ptr} {isg : Text} {r : Rank} (h : Grafted t inode isg r c t')
    (hlinks : Links t) : Links t' ∧ t'.findNode r = some c ∧ (∀ q, t.Live q → t'.Live q) ∧
      ∀ q, t.Live q → t'.rankOf q = t.rankOf q := by
  cases h with
  | known hfound =>
      exact ⟨hlinks.of_sameViews ⟨rfl, rfl, rfl, rfl⟩, hfound, fun _ hq => hq, fun _ _ => rfl⟩
  | @made host port isBackEnd hfresh hc _ _ _ =>
      subst hc
      have hcreated := created_grafted hlinks inode host port r isBackEnd
      refine ⟨hlinks.created hfresh hcreated, ?_, fun q hq => ?_, fun q hq => ?_⟩
      · exact Finmap.lookup_insert _
      · exact (newObject_live t _ q).mpr (.inl hq)
      · have hne : q ≠ t.nextPtr := fun heq => hlinks.not_live_nextPtr (heq ▸ hq)
        rw [hcreated.rankOf, Function.update_of_ne hne]

/-- What is there before a graph is attached stays as it is. -/
lemma Grafted.found {inode c : Ptr} {isg : Text} {r r' : Rank} {p : Ptr}
    (h : Grafted t inode isg r c t') (hp : t.findNode r' = some p) : t'.findNode r' = some p := by
  cases h with
  | known _ => exact hp
  | made hfresh _ _ _ _ =>
      have hne : r' ≠ r := by
        rintro rfl
        rw [hfresh] at hp
        cases hp
      exact (Finmap.lookup_insert_of_ne _ hne).trans hp

lemma Grafted.views {inode c : Ptr} {isg : Text} {r : Rank} (h : Grafted t inode isg r c t')
    (hlinks : Links t) : t'.parentOf = t.parentOf ∧ t'.root = t.root ∧
      ∀ {α} (g : Node → α) {q}, t.Live q → t'.view g q = t.view g q := by
  cases h with
  | known hfound => exact ⟨rfl, rfl, fun _ _ _ => rfl⟩
  | @made host port isBackEnd hfresh hc _ _ _ =>
      refine ⟨?_, rfl, fun g q hq => ?_⟩
      · exact (created_grafted hlinks inode host port r isBackEnd).parentOf
      · have hne : q ≠ t.nextPtr := fun heq => hlinks.not_live_nextPtr (heq ▸ hq)
        have hview := congrFun (newObject_view g t (Node.create host port r isBackEnd)) q
        rw [Function.update_of_ne hne] at hview
        exact hview

/-- In the state `s`, the root of a graph is about to become a child of `inode`. -/
structure Linking (t s : NetworkTopology) (inode c : Ptr) (r ri : Rank) : Prop where
  links : Links s
  found : s.findNode r = some c
  foundParent : s.findNode ri = some inode
  parentOf : s.parentOf = t.parentOf
  root : s.root = t.root
  live : ∀ q, t.Live q → s.Live q
  view : ∀ {α : Type} (g : Node → α) {q : Ptr}, t.Live q → s.view g q = t.view g q

lemma Grafted.linking {inode c : Ptr} {isg : Text} {r ri : Rank} (h : Grafted t inode isg r c t')
    (hlinks : Links t) (hinode : t.Live inode) (hri : t.rankOf inode = some ri)
    (isBackEnd : Bool) : Linking t (enlist t' c isBackEnd) inode c r ri := by
  obtain ⟨hlinks', hfound, hlive, hranks⟩ := h.links hlinks
  obtain ⟨hparentOf, hroot, hview⟩ := h.views hlinks
  obtain ⟨hheap, hnodes, hnext, horphans, hroot', -⟩ := enlist_rest t' c isBackEnd
  have hlinks'' : Links (enlist t' c isBackEnd) :=
    hlinks'.of_sameViews ⟨hnodes, hheap, hnext, horphans⟩
  refine ⟨hlinks'', ?_, ?_, (parentOf_congr hheap).trans hparentOf, hroot'.trans hroot,
    fun q hq => ?_, fun g q hq => ?_⟩
  · rw [findNode, hnodes]
    exact hfound
  · rw [findNode, hlinks''.keyed, rankOf_congr hheap, hranks inode hinode]
    exact hri
  · rw [Live, hheap]
    exact hlive q hq
  · rw [view_congr g hheap]
    exact hview g hq

/-- The steps in which the root of a graph becomes a child of a node. -/
theorem addGraphRoot_cases (hlinks : Links t) {inode c : Ptr} (hinode : t.Live inode) {isg : Text}
    (h : t.addGraphRoot inode isg = .ok (t', c)) :
    ∃ r ri t₁ isBackEnd res, SerialGraph.getRootRank isg = .ok r ∧ t.rankOf inode = some ri ∧
      Grafted t inode isg r c t₁ ∧ t₁.flagOf c = some isBackEnd ∧
      (enlist t₁ c isBackEnd).setParent r ri = .ok (t', res) := by
  obtain ⟨⟨t₁, root⟩, hroot, h⟩ := bind_ok_iff.mp h
  obtain ⟨rootNode, hrootNode, h⟩ := bind_ok_iff.mp h
  obtain ⟨inodeNode, hinodeNode, h⟩ := bind_ok_iff.mp h
  obtain ⟨⟨t₂, res⟩, hset, hres⟩ := bind_ok_iff.mp h
  cases hres
  obtain ⟨r, hr, hroot⟩ := bind_ok_iff.mp hroot
  have hgraft : Grafted t inode isg r c t₁ := by
    have hsame : { t with parentNodes := t.parentNodes.insert inode }.findNode r = t.findNode r := rfl
    cases hfound : t.findNode r with
    | some found =>
        rw [hsame, hfound] at hroot
        cases hroot
        exact .known hfound
    | none =>
        rw [hsame, hfound] at hroot
        obtain ⟨host, hhost, hroot⟩ := bind_ok_iff.mp hroot
        obtain ⟨port, hport, hroot⟩ := bind_ok_iff.mp hroot
        obtain ⟨isBackEnd, hflag, hroot⟩ := bind_ok_iff.mp hroot
        cases hroot
        exact .made hfound rfl hhost hport hflag
  obtain ⟨hlinks₁, hfound₁, hlive₁, hranks₁⟩ := hgraft.links hlinks
  have hrank : rootNode.rank = r := by
    have hrankOf : t₁.rankOf c = some rootNode.rank :=
      view_of_lookup Node.rank (deref_ok_iff.mp hrootNode)
    rw [(hlinks₁.live_of_findNode hfound₁).2] at hrankOf
    exact (Option.some.inj hrankOf).symm
  have hrankInode : t.rankOf inode = some inodeNode.rank := by
    rw [← hranks₁ inode hinode]
    have hheap : (enlist t₁ c rootNode.isBackEnd).heap = t₁.heap := (enlist_rest _ _ _).1
    rw [← rankOf_congr hheap]
    exact view_of_lookup Node.rank (deref_ok_iff.mp hinodeNode)
  refine ⟨r, inodeNode.rank, t₁, rootNode.isBackEnd, res, hr, hrankInode, hgraft,
    view_of_lookup _ (deref_ok_iff.mp hrootNode), ?_⟩
  rw [← hrank]
  exact hset

/-- The root of a text that can be read is linked. -/
theorem addGraphRoot_returns (hlinks : Links t) {inode : Ptr} (hinode : t.Live inode) {isg : Text}
    {host : Text} {port : Port} {r : Rank} {isBackEnd : Bool}
    (hhost : SerialGraph.getRootHostName isg = .ok host)
    (hport : SerialGraph.getRootPort isg = .ok port)
    (hr : SerialGraph.getRootRank isg = .ok r)
    (hflag : SerialGraph.isRootBackEnd isg = .ok isBackEnd) :
    ∃ t' c, t.addGraphRoot inode isg = .ok (t', c) := by
  obtain ⟨t₁, c, hroot, hgrafted⟩ : ∃ t₁ c,
      { t with parentNodes := t.parentNodes.insert inode }.graphRoot isg = .ok (t₁, c) ∧
        Grafted t inode isg r c t₁ := by
    unfold graphRoot
    rw [hr, ok_bind]
    have hsame : { t with parentNodes := t.parentNodes.insert inode }.findNode r = t.findNode r := rfl
    cases hfound : t.findNode r with
    | some node =>
        rw [hsame, hfound]
        exact ⟨_, _, rfl, .known hfound⟩
    | none =>
        rw [hsame, hfound, hhost, hport, hflag]
        exact ⟨_, _, rfl, .made hfound rfl hhost hport hflag⟩
  obtain ⟨hlinks₁, hfound, hlive, -⟩ := hgrafted.links hlinks
  obtain ⟨rootNode, hrootNode⟩ := deref_of_live (hlinks₁.live_of_findNode hfound).1
  obtain ⟨hheap, hnodes, hnext, horphans, -, -⟩ := enlist_rest t₁ c rootNode.isBackEnd
  have hinode₁ : (enlist t₁ c rootNode.isBackEnd).Live inode := by
    rw [Live, hheap]
    exact hlive inode hinode
  obtain ⟨inodeNode, hinodeNode⟩ := deref_of_live hinode₁
  obtain ⟨t', res, hset⟩ := setParent_total
    (hlinks₁.of_sameViews ⟨hnodes, hheap, hnext, horphans⟩) rootNode.rank inodeNode.rank
  exact ⟨t', c, bind_ok_iff.mpr ⟨(t₁, c), hroot, bind_ok_iff.mpr ⟨rootNode, hrootNode,
    bind_ok_iff.mpr ⟨inodeNode, hinodeNode, bind_ok_iff.mpr ⟨(t', res), hset, rfl⟩⟩⟩⟩⟩

/-- While a graph is attached to `inode`, the graph `g` is attached to `m` in the state
`s`. -/
inductive Visits : NetworkTopology → Ptr → Text → NetworkTopology → Ptr → Text → Prop
  | here {t : NetworkTopology} {inode : Ptr} {isg : Text} : Visits t inode isg t inode isg
  | child {t t₁ t₂ s : NetworkTopology} {inode node m : Ptr} {isg kid g : Text}
      {before after : List Text} (hroot : t.addGraphRoot inode isg = .ok (t₁, node))
      (hkids : SerialGraph.getChildren isg = .ok (before ++ kid :: after))
      (hbefore : before.foldlM (fun t kid => t.addGraph node kid) t₁ = .ok t₂)
      (hvisit : Visits t₂ node kid s m g) : Visits t inode isg s m g

/-- `add_SubGraph` for a pointer, without the proofs that its recursion ends. -/
lemma addGraph_eq (t : NetworkTopology) (inode : Ptr) (isg : Text) :
    t.addGraph inode isg = (do
      let (t, node) ← t.addGraphRoot inode isg
      let kids ← SerialGraph.getChildren isg
      kids.foldlM (fun t kid => t.addGraph node kid) t) := by
  rw [NetworkTopology.addGraph]
  congr 1
  ext1 ⟨t₁, node⟩
  dsimp only
  split
  · rename_i e hkids
    rw [hkids]
    rfl
  · rename_i kids hkids
    rw [hkids, ok_bind]
    conv_rhs => rw [← List.attach_map_subtype_val kids, List.foldlM_map]

/-- A graph without children grafts its root only. -/
lemma addGraph_childless (t : NetworkTopology) (inode : Ptr) {isg : Text}
    (h : SerialGraph.getChildren isg = .ok []) :
    t.addGraph inode isg = (do
      let (t, _) ← t.addGraphRoot inode isg
      return t) := by
  rw [addGraph_eq, h]
  rfl

lemma Visits.childless {t s : NetworkTopology} {inode m : Ptr} {isg g : Text}
    (hkids : SerialGraph.getChildren isg = .ok []) (h : Visits t inode isg s m g) :
    s = t ∧ m = inode ∧ g = isg := by
  cases h with
  | here => exact ⟨rfl, rfl, rfl⟩
  | child _ hchild _ _ =>
      have hnil := Except.ok.inj (hkids.symm.trans hchild)
      simp at hnil

/-- The sets of the nodes are cleared, but for that of the parents. -/
lemma clear_parentNodes (t : NetworkTopology) : t.clear.parentNodes = t.parentNodes := by
  have hloop {f : NetworkTopology → Rank → NetworkTopology}
      (hf : ∀ t r, (f t r).parentNodes = t.parentNodes) :
      ∀ (rs : List Rank) (t : NetworkTopology), (rs.foldl f t).parentNodes = t.parentNodes := by
    intro rs
    induction rs with
    | nil => exact fun t => rfl
    | cons r rs ih =>
        intro t
        rw [List.foldl_cons, ih, hf]
  exact hloop (fun t r => by cases t.findNode r <;> rfl) _ t

/-- `reset` up to the loop over the children of the root. -/
def resetRoot (t : NetworkTopology) (isg : Text) : Outcome (NetworkTopology × Ptr) := do
  let host ← SerialGraph.getRootHostName isg
  let port ← SerialGraph.getRootPort isg
  let rank ← SerialGraph.getRootRank isg
  let isBackEnd ← SerialGraph.isRootBackEnd isg
  let root := t.clear.nextPtr
  let t := t.clear.newObject (Node.create host port rank isBackEnd)
  return ({ t with root := some root, nodes := t.nodes.insert rank root }, root)

lemma resetRoot_ok {isg : Text} {root : Ptr} (h : resetRoot t isg = .ok (t', root)) :
    ∃ host port rank isBackEnd, SerialGraph.getRootHostName isg = .ok host ∧
      SerialGraph.getRootPort isg = .ok port ∧ SerialGraph.getRootRank isg = .ok rank ∧
      SerialGraph.isRootBackEnd isg = .ok isBackEnd ∧ root = t.clear.nextPtr ∧
      t' = { t.clear.newObject (Node.create host port rank isBackEnd) with
        root := some t.clear.nextPtr, nodes := t.clear.nodes.insert rank t.clear.nextPtr } := by
  obtain ⟨host, hhost, h⟩ := bind_ok_iff.mp h
  obtain ⟨port, hport, h⟩ := bind_ok_iff.mp h
  obtain ⟨rank, hrank, h⟩ := bind_ok_iff.mp h
  obtain ⟨isBackEnd, hflag, h⟩ := bind_ok_iff.mp h
  cases h
  exact ⟨host, port, rank, isBackEnd, hhost, hport, hrank, hflag, rfl, rfl⟩

lemma reset_eq (t : NetworkTopology) {isg : Text} (hne : isg ≠ []) :
    t.reset isg = (do
      let (t, root) ← resetRoot t isg
      let kids ← SerialGraph.getChildren isg
      kids.foldlM (fun t kid => t.addGraph root kid) t) := by
  unfold NetworkTopology.reset resetRoot
  rw [if_neg hne]
  simp only [bind_assoc, pure_bind]

section Keeps
variable {I : NetworkTopology → Prop} {C : NetworkTopology → Ptr → Text → Prop}
  (hgraft : ∀ {s s' m n g}, I s → s.Live m → C s m g → s.addGraphRoot m g = .ok (s', n) →
    I s' ∧ s'.Live n ∧ ∀ q, s.Live q → s'.Live q)
include hgraft

/-- What every link of a root to a node keeps is kept by whole graphs. -/
theorem addGraph_keeps {inode : Ptr} {isg : Text} (hI : I t) (hinode : t.Live inode)
    (hvisits : ∀ s m g, Visits t inode isg s m g → C s m g)
    (h : t.addGraph inode isg = .ok t') : I t' ∧ ∀ q, t.Live q → t'.Live q := by
  induction hn : isg.length using Nat.strong_induction_on generalizing t t' inode isg with
  | _ n ih =>
      rw [addGraph_eq] at h
      obtain ⟨⟨t₁, node⟩, hroot, h⟩ := bind_ok_iff.mp h
      obtain ⟨kids, hkids, hloop⟩ := bind_ok_iff.mp h
      obtain ⟨hI₁, hnode, hkept⟩ := hgraft hI hinode (hvisits t inode isg .here) hroot
      have hloop := foldlM_keeps_after
        (I := fun s => I s ∧ s.Live node ∧ ∀ q, t₁.Live q → s.Live q)
        (fun before kid after {s s'} hsplit hbefore hs hkid => by
          obtain ⟨hI, hnode, hkept⟩ := hs
          have hmem : kid ∈ kids := by simp [hsplit]
          have hshort := SerialGraph.getChildren_shorter hkids kid hmem
          obtain ⟨hI', hkept'⟩ := ih _ (hn ▸ hshort) hI hnode
            (fun s m g hvisit => hvisits s m g (.child hroot (hsplit ▸ hkids) hbefore hvisit))
            hkid rfl
          exact ⟨hI', hkept' node hnode, fun q hq => hkept' q (hkept q hq)⟩)
        ⟨hI₁, hnode, fun q hq => hq⟩ hloop
      exact ⟨hloop.1, fun q hq => hloop.2.2 q (hkept q hq)⟩

theorem addSubGraph_keeps (hlinks : Links t) {r : Rank} {isg : Text} {found : Bool} (hI : I t)
    (hvisits : ∀ node, t.findNode r = some node → ∀ s m g, Visits t node isg s m g → C s m g)
    (h : t.addSubGraph r isg = .ok (t', found)) : I t' := by
  unfold NetworkTopology.addSubGraph at h
  cases hnode : t.findNode r with
  | none =>
      rw [hnode] at h
      cases h
      exact hI
  | some node =>
      rw [hnode] at h
      obtain ⟨t₁, hgraph, hres⟩ := bind_ok_iff.mp h
      cases hres
      exact (addGraph_keeps hgraft hI (hlinks.live_of_findNode hnode).1 (hvisits node hnode)
        hgraph).1

/-- The loop of `reset` over the children of the root. -/
theorem resetLoop_keeps {root : Ptr} {kids : List Text} (hI : I t) (hroot : t.Live root)
    (hvisits : ∀ before kid after t₁, kids = before ++ kid :: after →
      before.foldlM (fun t kid => t.addGraph root kid) t = .ok t₁ →
        ∀ s m g, Visits t₁ root kid s m g → C s m g)
    (h : kids.foldlM (fun t kid => t.addGraph root kid) t = .ok t') : I t' := by
  have hend := foldlM_keeps_after (I := fun s => I s ∧ s.Live root)
    (fun before kid after {s s'} hsplit hbefore hs hkid => by
      obtain ⟨hI', hkept⟩ := addGraph_keeps hgraft hs.1 hs.2
        (hvisits before kid after s hsplit hbefore) hkid
      exact ⟨hI', hkept root hs.2⟩)
    ⟨hI, hroot⟩ h
  exact hend.1

/-- The old nodes are deleted, a new root is made, and the graphs below it are attached. -/
theorem reset_keeps {isg : Text} (hclear : I t.clear)
    (hroot : ∀ t₁ root, resetRoot t isg = .ok (t₁, root) → I t₁)
    (hvisits : ∀ t₁ root before kid after t₂, resetRoot t isg = .ok (t₁, root) →
      SerialGraph.getChildren isg = .ok (before ++ kid :: after) →
      before.foldlM (fun t kid => t.addGraph root kid) t₁ = .ok t₂ →
        ∀ s m g, Visits t₂ root kid s m g → C s m g)
    (h : t.reset isg = .ok t') : I t' := by
  by_cases hne : isg = []
  · subst hne
    cases h
    exact hclear
  · rw [reset_eq t hne] at h
    obtain ⟨⟨t₁, root⟩, hnew, h⟩ := bind_ok_iff.mp h
    obtain ⟨kids, hkids, hloop⟩ := bind_ok_iff.mp h
    have hlive : t₁.Live root := by
      obtain ⟨host, port, rank, isBackEnd, -, -, -, -, rfl, rfl⟩ := resetRoot_ok hnew
      exact (newObject_live t.clear _ _).mpr (.inr rfl)
    apply resetLoop_keeps hgraft (hroot t₁ root hnew) hlive _ hloop
    intro before kid after t₂ hsplit hbefore
    exact hvisits t₁ root before kid after t₂ hnew (hsplit ▸ hkids) hbefore

end Keeps

/-- A property of the objects that is kept when an object is made, moved or removed. -/
structure Kept (I : NetworkTopology → Prop) : Prop where
  empty : ∀ {t : NetworkTopology}, t.heap = ∅ → I t
  same : ∀ {t t' : NetworkTopology}, t'.heap = t.heap → I t → I t'
  newObject : ∀ {t : NetworkTopology} {host : Text} {port : Port} {r : Rank} {isBackEnd : Bool},
    Links t → I t → I (t.newObject (Node.create host port r isBackEnd))
  moved : ∀ {t t' : NetworkTopology} {c p : Ptr}, t.Live p → Moved t t' c p →
    MovedObjects t t' c p → I t → I t'
  removed : ∀ {t t' : NetworkTopology} {p : Ptr}, Removed t t' p → RemovedObjects t t' p →
    I t → I t'

namespace Kept

variable {I : NetworkTopology → Prop} (hI : Kept I)
include hI

lemma created (hlinks : Links t) (h : I t) (host : Text) (port : Port) (r : Rank)
    (isBackEnd : Bool) (hheap : t'.heap = (t.newObject (Node.create host port r isBackEnd)).heap) :
    I t' :=
  hI.same hheap (hI.newObject hlinks h)

lemma setParent (hlinks : Links t) (h : I t) {rc rp : Rank} {res : Reparented}
    (hset : t.setParent rc rp = .ok (t', res)) : I t' := by
  rcases setParent_cases hlinks hset with ⟨rfl, -⟩ | ⟨c, p, -, hp, -, hmoved, hobjects⟩
  · exact h
  · exact hI.moved (hlinks.live_of_findNode hp).1 hmoved hobjects h

lemma removeNode (hlinks : Links t) (h : I t) {r : Rank} {found : Bool}
    (hremove : t.removeNode r = .ok (t', found)) : I t' := by
  rcases removeNode_cases hlinks hremove with ⟨-, rfl⟩ | ⟨p, -, hremoved, hobjects⟩
  · exact h
  · exact hI.removed hremoved hobjects h

lemma addGraphRoot (hlinks : Links t) (h : I t) {inode c : Ptr} {isg : Text}
    (hinode : t.Live inode) (hadd : t.addGraphRoot inode isg = .ok (t', c)) :
    (Links t' ∧ I t') ∧ t'.Live c ∧ ∀ q, t.Live q → t'.Live q := by
  obtain ⟨r, ri, t₁, isBackEnd, res, -, hri, hgrafted, -, hset⟩ :=
    addGraphRoot_cases hlinks hinode hadd
  have hlinking := hgrafted.linking hlinks hinode hri isBackEnd
  obtain ⟨hheap, -⟩ := enlist_rest t₁ c isBackEnd
  have h₁ : I t₁ := by
    cases hgrafted with
    | known _ =>
        refine hI.same ?_ h
        rfl
    | made _ _ _ _ _ => exact hI.created hlinks h _ _ _ _ rfl
  refine ⟨⟨hlinking.links.setParent hset, hI.setParent hlinking.links (hI.same hheap h₁) hset⟩,
    setParent_live hlinking.links hset (hlinking.links.live_of_findNode hlinking.found).1,
    fun q hq => setParent_live hlinking.links hset (hlinking.live q hq)⟩

lemma reset (h : Links t) {isg : Text} (hreset : t.reset isg = .ok t') : I t' := by
  have hclear : Links t.clear ∧ I t.clear :=
    ⟨links_of_heap_empty (clear_heap h) rfl rfl, hI.empty (clear_heap h)⟩
  apply (reset_keeps (I := fun t => Links t ∧ I t) (C := fun _ _ _ => True) _ hclear _ _ hreset).2
  · intro s s' m n g hs hm _ hadd
    exact hI.addGraphRoot hs.1 hs.2 hm hadd
  · intro t₁ root hnew
    obtain ⟨host, port, rank, isBackEnd, -, -, -, -, -, rfl⟩ := resetRoot_ok hnew
    exact ⟨hclear.1.created (by rw [findNode]; exact Finmap.lookup_empty _)
      (created_of_newObject hclear.1 host port rank isBackEnd rfl rfl rfl rfl),
      hI.created hclear.1 hclear.2 host port rank isBackEnd rfl⟩
  · intros
    trivial

end Kept

/-- What every operation keeps holds in every run of a topology. -/
theorem Reachable.kept (h : Reachable t) {I : NetworkTopology → Prop} (hI : Kept I) : I t := by
  induction h with
  | create hostName port rank isBackEnd =>
      exact hI.created links_empty (hI.empty rfl) hostName port rank isBackEnd rfl
  | createFrom hreset => exact hI.reset links_empty hreset
  | newNode ht host port isBackEnd _ ih => exact hI.created ht.links ih host port _ isBackEnd rfl
  | setParent ht hset ih => exact hI.setParent ht.links ih hset
  | removeNode ht hremove ih => exact hI.removeNode ht.links ih hremove
  | addSubGraph ht hadd ih =>
      apply (addSubGraph_keeps (I := fun t => Links t ∧ I t) (C := fun _ _ _ => True) _ ht.links
        ⟨ht.links, ih⟩ _ hadd).2
      · intro s s' m n g hs hm _ hroot
        exact hI.addGraphRoot hs.1 hs.2 hm hroot
      · intros
        trivial
  | reset ht hreset ih => exact hI.reset ht.links hreset

lemma childSets_kept : Kept ChildSets where
  empty := by
    intro t h q
    rw [childrenOf, h, Finmap.lookup_empty]
    exact List.nodup_nil
  same := by
    intro t t' hheap h
    unfold ChildSets
    rw [childrenOf_congr hheap]
    exact h
  newObject := fun _ h => newObject_childSets h
  moved := fun _ _ hobjects h => hobjects.childSets h
  removed := fun _ hobjects h => hobjects.childSets h

/-- No run of a topology lists a child twice. -/
theorem Reachable.childSets (h : Reachable t) : t.ChildSets := h.kept childSets_kept

/-- A node with a child is no back-end. -/
def InnerParents (t : NetworkTopology) : Prop :=
  ∀ q p, t.parentOf q = some p → t.flagOf p = some false

lemma innerParents_kept : Kept InnerParents where
  empty := by
    intro t h q p hq
    rw [NetworkTopology.parentOf, h, Finmap.lookup_empty] at hq
    cases hq
  same := by
    intro t t' hheap h q p hq
    rw [parentOf_congr hheap] at hq
    rw [flagOf, view_congr _ hheap]
    exact h q p hq
  newObject := by
    intro t host port r isBackEnd hlinks h q p hq
    have hcreated := created_grafted hlinks t.nextPtr host port r isBackEnd
    have hparent : t.parentOf q = some p := by
      rw [← hcreated.parentOf]
      exact hq
    have hne : p ≠ t.nextPtr := fun heq => hlinks.not_live_nextPtr (heq ▸ hlinks.parent_live hparent)
    rw [flagOf, newObject_view, Function.update_of_ne hne]
    exact h q p hparent
  moved := by
    intro t t' c p hp hmoved hobjects h q p' hq
    obtain ⟨node, hnode⟩ := deref_of_live hp
    have hflag : t.flagOf p = some node.isBackEnd := view_of_lookup _ (deref_ok_iff.mp hnode)
    rw [hobjects.flagOf]
    split_ifs with hpp
    · rw [hpp, hflag]
      rfl
    · rw [hmoved.parentOf] at hq
      by_cases hqc : q = c
      · rw [hqc, Function.update_self] at hq
        exact absurd (Option.some_inj.mp hq).symm hpp
      · rw [Function.update_of_ne hqc] at hq
        exact h q p' hq
  removed := by
    intro t t' p hremoved hobjects h q p' hq
    rw [hremoved.parentOf] at hq
    split_ifs at hq with hgone
    have hne : p' ≠ p := by
      rintro rfl
      exact hgone (.inr hq)
    rw [hobjects.flagOf, Function.update_of_ne hne]
    exact h q p' hq

theorem Reachable.innerParents (h : Reachable t) : InnerParents t := h.kept innerParents_kept

end MRNet.Topology
