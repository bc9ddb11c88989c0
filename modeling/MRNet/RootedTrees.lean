import MRNet.Forest

/-!
# Rooted trees

A finite tree, given by the parent of each node. A sum over the tree is built up from the
leaves, from the sums over the subtrees of the children.
-/
namespace MRNet.Forest
open Relation

variable {ν : Type}

structure ParentTree (ν : Type) where
  parent : ν → Option ν
  root : ν
  parent_root : ∀ a, parent a = none ↔ a = root
  rooted : ∀ a, Rooted parent a

namespace ParentTree

variable (t : ParentTree ν)

/-- From the root down to every node. -/
theorem down_induction {P : ν → Prop} (hroot : P t.root)
    (hchild : ∀ c p, t.parent c = some p → P p → P c) (a : ν) : P a := by
  have ha := t.rooted a
  induction ha with
  | root hnone => exact (t.parent_root _).mp hnone ▸ hroot
  | link hlink _ ih => exact hchild _ _ hlink ih

variable {t}

lemma ne_root_of_parent {c p : ν} (h : t.parent c = some p) : c ≠ t.root := by
  intro hc
  rw [(t.parent_root c).mpr hc] at h
  cases h

lemma exists_parent {c : ν} (h : c ≠ t.root) : ∃ p, t.parent c = some p :=
  Option.ne_none_iff_exists'.mp fun hnone => h ((t.parent_root c).mp hnone)

lemma parent_ne_self {c p : ν} (h : t.parent c = some p) : p ≠ c := by
  rintro rfl
  exact (t.rooted p).not_circular (TransGen.single h)

variable [Fintype ν]

/-- From the children of a node up to the node. -/
theorem up_induction {P : ν → Prop} (hnode : ∀ a, (∀ c, t.parent c = some a → P c) → P a)
    (a : ν) : P a :=
  (wellFounded_link (Set.toFinite _) t.rooted).induction a hnode

section Children

variable [DecidableEq ν]

def children (t : ParentTree ν) (a : ν) : Finset ν := Finset.univ.filter (t.parent · = some a)

@[simp] lemma mem_children {a c : ν} : c ∈ t.children a ↔ t.parent c = some a := by
  simp [children]

end Children

open Classical in
/-- A node and all nodes below it. -/
noncomputable def subtree (t : ParentTree ν) (a : ν) : Finset ν :=
  Finset.univ.filter (Below t.parent · a)

lemma mem_subtree {a b : ν} : b ∈ t.subtree a ↔ Below t.parent b a := by
  simp [subtree]

lemma subtree_root : t.subtree t.root = Finset.univ := by
  ext a
  simp only [mem_subtree, Finset.mem_univ, iff_true]
  exact t.down_induction (P := (Below t.parent · t.root)) ReflTransGen.refl
    (fun _ _ hlink hp => ReflTransGen.head hlink hp) a

variable [DecidableEq ν] {M : Type} [AddCommMonoid M]

lemma subtree_eq (a : ν) : t.subtree a = insert a ((t.children a).biUnion t.subtree) := by
  ext b
  simp only [mem_subtree, Finset.mem_insert, Finset.mem_biUnion, mem_children]
  constructor
  · intro h
    rcases ReflTransGen.cases_tail h with heq | ⟨c, hbc, hc⟩
    · exact .inl heq.symm
    · exact .inr ⟨c, hc, hbc⟩
  · rintro (rfl | ⟨c, hc, hbc⟩)
    · exact ReflTransGen.refl
    · exact ReflTransGen.tail hbc hc

lemma subtree_disjoint (a : ν) :
    Set.PairwiseDisjoint (t.children a : Set ν) t.subtree := by
  intro c hc c' hc' hne
  rw [Finset.mem_coe, mem_children] at hc hc'
  refine Finset.disjoint_left.mpr fun b hb hb' => hne ?_
  exact child_unique (t.rooted c).not_circular (t.rooted c').not_circular hc hc'
    (mem_subtree.mp hb) (mem_subtree.mp hb')

/-- The sum over the nodes below a node is made of those over the subtrees of its children. -/
theorem sum_children_subtree (f : ν → M) (a : ν) :
    ∑ c ∈ t.children a, ∑ b ∈ t.subtree c, f b = ∑ b ∈ (t.subtree a).erase a, f b := by
  rw [← Finset.sum_biUnion (subtree_disjoint a), subtree_eq a, Finset.erase_insert]
  rw [Finset.mem_biUnion]
  rintro ⟨c, hc, hac⟩
  exact (t.rooted a).not_circular
    (TransGen.tail' (mem_subtree.mp hac) (mem_children.mp hc))

theorem sum_subtree (f : ν → M) (a : ν) :
    ∑ b ∈ t.subtree a, f b = ∑ c ∈ t.children a, ∑ b ∈ t.subtree c, f b + f a := by
  rw [sum_children_subtree, Finset.sum_erase_add]
  exact mem_subtree.mpr ReflTransGen.refl

def parentOfTwoLeaves : Fin 4 → Option (Fin 4)
  | 0 => none
  | 1 => some 0
  | 2 => some 1
  | 3 => some 0

/-- The root 0 has the child 1, which has the leaf 2, and the leaf 3. -/
def twoLeaves : ParentTree (Fin 4) where
  parent := parentOfTwoLeaves
  root := 0
  parent_root := by decide
  rooted := by
    have hroot : Rooted parentOfTwoLeaves 0 := .root rfl
    have hinner : Rooted parentOfTwoLeaves 1 := .link rfl hroot
    intro a
    fin_cases a
    · exact hroot
    · exact hinner
    · exact .link rfl hinner
    · exact .link rfl hroot

def isLeafInTwoLeaves (n : Fin 4) : Bool := 2 ≤ n.val

lemma childless_of_isLeafInTwoLeaves : ∀ n c, isLeafInTwoLeaves n → twoLeaves.parent c ≠ some n := by decide

lemma root_not_isLeafInTwoLeaves : isLeafInTwoLeaves twoLeaves.root = false := rfl

/-- The nodes above a node, and itself. -/
def aboveInTwoLeaves : Fin 4 → List (Fin 4)
  | 0 => [0]
  | 1 => [1, 0]
  | 2 => [2, 1, 0]
  | 3 => [3, 0]

lemma twoLeaves_below_iff {a b : Fin 4} :
    Below twoLeaves.parent a b ↔ b ∈ aboveInTwoLeaves a := by
  have hstep : ∀ a c b, parentOfTwoLeaves a = some c → b ∈ aboveInTwoLeaves c →
      b ∈ aboveInTwoLeaves a := by decide
  constructor
  · intro h
    induction h using ReflTransGen.head_induction_on with
    | refl =>
        have hself : ∀ b, b ∈ aboveInTwoLeaves b := by decide
        exact hself b
    | head hlink _ ih => exact hstep _ _ _ hlink ih
  · have hinner : Below twoLeaves.parent 1 0 := .single rfl
    intro h
    fin_cases a
    · obtain rfl := List.mem_singleton.mp h
      exact .refl
    · rcases List.mem_cons.mp h with rfl | h
      · exact .refl
      · obtain rfl := List.mem_singleton.mp h
        exact hinner
    · rcases List.mem_cons.mp h with rfl | h
      · exact .refl
      · rcases List.mem_cons.mp h with rfl | h
        · exact .single rfl
        · obtain rfl := List.mem_singleton.mp h
          exact .head (show Link twoLeaves.parent 2 1 from rfl) hinner
    · rcases List.mem_cons.mp h with rfl | h
      · exact .refl
      · obtain rfl := List.mem_singleton.mp h
        exact .single rfl

end ParentTree

end MRNet.Forest
