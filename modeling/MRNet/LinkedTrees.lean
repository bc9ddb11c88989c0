import Mathlib.Data.List.Perm.Basic
import Mathlib.Data.List.Nodup
import Mathlib.Order.Lattice

/-!
# Trees in a heap

A tree with the addresses of its nodes describes what a heap holds: at each address there is a
cell with the item and the addresses of both subtrees. A context is such a tree with a hole. What
is in the hole can be replaced, in place or by a new link in the node above.
-/
namespace MRNet.LinkedTrees

variable {P β N : Type}

inductive LinkTree (P β : Type) where
  | nil
  | node (p : P) (left : LinkTree P β) (item : β) (right : LinkTree P β)

namespace LinkTree

def root : LinkTree P β → Option P
  | nil => none
  | node p _ _ _ => some p

def ptrs : LinkTree P β → List P
  | nil => []
  | node p left _ right => p :: (left.ptrs ++ right.ptrs)

/-- The items from left to right. -/
def items : LinkTree P β → List β
  | nil => []
  | node _ left item right => left.items ++ item :: right.items

@[simp] lemma root_nil : (nil : LinkTree P β).root = none := rfl

@[simp] lemma root_node {p : P} {l r : LinkTree P β} {x : β} : (node p l x r).root = some p := rfl

lemma root_eq_none_iff {t : LinkTree P β} : t.root = none ↔ t = nil := by
  cases t <;> simp

lemma root_mem {t : LinkTree P β} {p : P} (h : t.root = some p) : p ∈ t.ptrs := by
  cases t with
  | nil => cases h
  | node q l x r =>
      cases h
      exact List.mem_cons_self

end LinkTree

open LinkTree

/-- The heap holds the tree. -/
def Linked (cell : Option P → β → Option P → N) (heap : P → Option N) : LinkTree P β → Prop
  | nil => True
  | node p left item right => heap p = some (cell left.root item right.root) ∧
      Linked cell heap left ∧ Linked cell heap right

variable {cell : Option P → β → Option P → N} {heap heap' : P → Option N} {s s' t : LinkTree P β}

/-- Only the addresses of the tree matter. -/
lemma Linked.congr (h : Linked cell heap t) (hsame : ∀ p ∈ t.ptrs, heap' p = heap p) :
    Linked cell heap' t := by
  induction t with
  | nil => trivial
  | node p l x r ihl ihr =>
      rw [ptrs, List.forall_mem_cons] at hsame
      refine ⟨hsame.1.trans h.1, ihl h.2.1 fun q hq => ?_, ihr h.2.2 fun q hq => ?_⟩
      · exact hsame.2 q (List.mem_append_left _ hq)
      · exact hsame.2 q (List.mem_append_right _ hq)

/-- A tree with a hole, from the root to the hole. -/
inductive Context (P β : Type) where
  | top
  | left (p : P) (inner : Context P β) (item : β) (right : LinkTree P β)
  | right (p : P) (left : LinkTree P β) (item : β) (inner : Context P β)

namespace Context

def fill (t : LinkTree P β) : Context P β → LinkTree P β
  | top => t
  | left p inner item r => node p (inner.fill t) item r
  | right p l item inner => node p l item (inner.fill t)

/-- The node above the hole. -/
def parent : Context P β → Option P
  | top => none
  | left p inner _ _ => inner.parent.or (some p)
  | right p _ _ inner => inner.parent.or (some p)

def ptrs : Context P β → List P
  | top => []
  | left p inner _ r => p :: (inner.ptrs ++ r.ptrs)
  | right p l _ inner => p :: (l.ptrs ++ inner.ptrs)

/-- The items to the left of the hole. -/
def before : Context P β → List β
  | top => []
  | left _ inner _ _ => inner.before
  | right _ l item inner => l.items ++ item :: inner.before

/-- The items to the right of the hole. -/
def after : Context P β → List β
  | top => []
  | left _ inner item r => inner.after ++ item :: r.items
  | right _ _ _ inner => inner.after

/-- A context in the hole of another. -/
def comp : Context P β → Context P β → Context P β
  | top, c' => c'
  | left p inner item r, c' => left p (inner.comp c') item r
  | right p l item inner, c' => right p l item (inner.comp c')

variable {c c' : Context P β}

lemma fill_comp (c c' : Context P β) (t : LinkTree P β) : (c.comp c').fill t = c.fill (c'.fill t) := by
  induction c with
  | top => rfl
  | left p inner x r ih => rw [comp, fill, fill, ih]
  | right p l x inner ih => rw [comp, fill, fill, ih]

lemma parent_comp (c c' : Context P β) : (c.comp c').parent = c'.parent.or c.parent := by
  induction c with
  | top => rw [comp, parent, Option.or_none]
  | left p inner x r ih => rw [comp, parent, parent, ih, Option.or_assoc]
  | right p l x inner ih => rw [comp, parent, parent, ih, Option.or_assoc]

lemma items_fill (c : Context P β) (t : LinkTree P β) :
    (c.fill t).items = c.before ++ (t.items ++ c.after) := by
  induction c with
  | top => simp [fill, before, after]
  | left p inner x r ih => simp [fill, before, after, LinkTree.items, ih]
  | right p l x inner ih => simp [fill, before, after, LinkTree.items, ih]

lemma ptrs_fill (c : Context P β) (t : LinkTree P β) : (c.fill t).ptrs.Perm (c.ptrs ++ t.ptrs) := by
  induction c with
  | top => rfl
  | left p inner x r ih =>
      have hswap : ((inner.ptrs ++ t.ptrs) ++ r.ptrs).Perm ((inner.ptrs ++ r.ptrs) ++ t.ptrs) := by
        rw [List.append_assoc, List.append_assoc]
        exact List.perm_append_comm.append_left _
      exact ((ih.append_right r.ptrs).trans hswap).cons p
  | right p l x inner ih =>
      have hassoc : (l.ptrs ++ (inner.ptrs ++ t.ptrs)).Perm ((l.ptrs ++ inner.ptrs) ++ t.ptrs) := by
        rw [List.append_assoc]
      exact ((ih.append_left l.ptrs).trans hassoc).cons p

lemma parent_eq_none_iff : c.parent = none ↔ c = top := by
  cases c with
  | top => simp [parent]
  | left p inner x r => simp [parent]
  | right p l x inner => simp [parent]

lemma parent_mem {p : P} (h : c.parent = some p) : p ∈ c.ptrs := by
  induction c with
  | top => cases h
  | left q inner x r ih =>
      rw [parent, Option.or_eq_some_iff] at h
      rcases h with h | ⟨-, h⟩
      · exact List.mem_cons_of_mem _ (List.mem_append_left _ (ih h))
      · cases h
        exact List.mem_cons_self
  | right q l x inner ih =>
      rw [parent, Option.or_eq_some_iff] at h
      rcases h with h | ⟨-, h⟩
      · exact List.mem_cons_of_mem _ (List.mem_append_right _ (ih h))
      · cases h
        exact List.mem_cons_self

lemma root_fill_of_ne_top (h : c ≠ top) (s s' : LinkTree P β) : (c.fill s).root = (c.fill s').root := by
  cases c with
  | top => exact absurd rfl h
  | left => rfl
  | right => rfl

lemma root_fill (h : s'.root = s.root) (c : Context P β) :
    (c.fill s').root = (c.fill s).root := by
  cases c with
  | top => exact h
  | left => rfl
  | right => rfl

end Context

open Context

variable {c : Context P β}

/-- What is in the hole is held too. -/
lemma Linked.hole (h : Linked cell heap (c.fill s)) : Linked cell heap s := by
  induction c with
  | top => exact h
  | left p inner x r ih => exact ih h.2.1
  | right p l x inner ih => exact ih h.2.2

/-- A tree at the same address takes the place of another. -/
theorem Linked.replace (h : Linked cell heap (c.fill s)) (hroot : s'.root = s.root)
    (hsame : ∀ p ∈ c.ptrs, heap' p = heap p) (h' : Linked cell heap' s') :
    Linked cell heap' (c.fill s') := by
  induction c with
  | top => exact h'
  | left p inner x r ih =>
      rw [Context.ptrs, List.forall_mem_cons] at hsame
      refine ⟨?_, ih h.2.1 fun q hq => hsame.2 q (List.mem_append_left _ hq),
        h.2.2.congr fun q hq => hsame.2 q (List.mem_append_right _ hq)⟩
      rw [root_fill hroot]
      exact hsame.1.trans h.1
  | right p l x inner ih =>
      rw [Context.ptrs, List.forall_mem_cons] at hsame
      refine ⟨?_, h.2.1.congr fun q hq => hsame.2 q (List.mem_append_left _ hq),
        ih h.2.2 fun q hq => hsame.2 q (List.mem_append_right _ hq)⟩
      rw [root_fill hroot]
      exact hsame.1.trans h.1

/-- The link to the hole is the left one of the node above if that is where it leads. It can be
set to another tree. -/
theorem Linked.relink [DecidableEq P] (h : Linked cell heap (c.fill s))
    (hnodup : (c.fill s).ptrs.Nodup) {q tmp : P} (hq : c.parent = some q)
    (htmp : s.root = some tmp) : ∃ a x b, heap q = some (cell a x b) ∧ ∀ heap' s',
      heap' q = some (if a = some tmp then cell s'.root x b else cell a x s'.root) →
        (∀ p ∈ c.ptrs, p ≠ q → heap' p = heap p) → Linked cell heap' s' →
          Linked cell heap' (c.fill s') := by
  induction c with
  | top => cases hq
  | left p inner x r ih =>
      have hcons := List.nodup_cons.mp hnodup
      have hout : ∀ q ∈ inner.ptrs ++ r.ptrs, p ≠ q := by
        rintro q hq rfl
        rcases List.mem_append.mp hq with hq | hq
        · have hfill := (ptrs_fill inner s).mem_iff.mpr (List.mem_append_left _ hq)
          exact hcons.1 (List.mem_append_left _ hfill)
        · exact hcons.1 (List.mem_append_right _ hq)
      cases hparent : inner.parent with
      | none =>
          rw [parent_eq_none_iff] at hparent
          subst hparent
          cases hq
          refine ⟨_, x, _, h.1, fun heap' s' hcell hsame h' => ⟨?_, h', h.2.2.congr fun p' hp => ?_⟩⟩
          · exact hcell.trans (congrArg some (if_pos htmp))
          · exact hsame p' (List.mem_cons_of_mem _ (List.mem_append_right _ hp))
              (hout p' (List.mem_append_right _ hp)).symm
      | some q' =>
          rw [Context.parent, hparent] at hq
          cases hq
          have hq' := parent_mem hparent
          have hdisjoint := (List.nodup_append.mp hcons.2).2.2
          obtain ⟨a, y, b, hcell, hset⟩ := ih h.2.1 (List.nodup_append.mp hcons.2).1 hparent
          refine ⟨a, y, b, hcell, fun heap' s' hcell' hsame h' => ⟨?_, hset heap' s' hcell' ?_ h',
            h.2.2.congr fun p' hp => ?_⟩⟩
          · have hne : inner ≠ top := by
              rintro rfl
              cases hparent
            rw [hsame p List.mem_cons_self (hout q (List.mem_append_left _ hq')), h.1,
              root_fill_of_ne_top hne s s']
          · exact fun p' hp hne => hsame p' (List.mem_cons_of_mem _ (List.mem_append_left _ hp)) hne
          · refine hsame p' (List.mem_cons_of_mem _ (List.mem_append_right _ hp)) ?_
            rintro rfl
            exact hdisjoint p' ((ptrs_fill inner s).mem_iff.mpr (List.mem_append_left _ hq')) p' hp rfl
  | right p l x inner ih =>
      have hcons := List.nodup_cons.mp hnodup
      have hdisjoint := (List.nodup_append.mp hcons.2).2.2
      have hout : ∀ q ∈ l.ptrs ++ inner.ptrs, p ≠ q := by
        rintro q hq rfl
        rcases List.mem_append.mp hq with hq | hq
        · exact hcons.1 (List.mem_append_left _ hq)
        · have hfill := (ptrs_fill inner s).mem_iff.mpr (List.mem_append_left _ hq)
          exact hcons.1 (List.mem_append_right _ hfill)
      cases hparent : inner.parent with
      | none =>
          rw [parent_eq_none_iff] at hparent
          subst hparent
          cases hq
          have hother : l.root ≠ some tmp := fun hl =>
            hdisjoint tmp (root_mem hl) tmp (root_mem htmp) rfl
          refine ⟨_, x, _, h.1, fun heap' s' hcell hsame h' => ⟨?_, h.2.1.congr fun p' hp => ?_, h'⟩⟩
          · exact hcell.trans (congrArg some (if_neg hother))
          · exact hsame p' (List.mem_cons_of_mem _ (List.mem_append_left _ hp))
              (hout p' (List.mem_append_left _ hp)).symm
      | some q' =>
          rw [Context.parent, hparent] at hq
          cases hq
          have hq' := parent_mem hparent
          obtain ⟨a, y, b, hcell, hset⟩ := ih h.2.2 (List.nodup_append.mp hcons.2).2.1 hparent
          refine ⟨a, y, b, hcell, fun heap' s' hcell' hsame h' => ⟨?_, h.2.1.congr fun p' hp => ?_,
            hset heap' s' hcell' ?_ h'⟩⟩
          · have hne : inner ≠ top := by
              rintro rfl
              cases hparent
            rw [hsame p List.mem_cons_self (hout q (List.mem_append_right _ hq')), h.1,
              root_fill_of_ne_top hne s s']
          · refine hsame p' (List.mem_cons_of_mem _ (List.mem_append_left _ hp)) ?_
            rintro rfl
            exact hdisjoint p' hp p' ((ptrs_fill inner s).mem_iff.mpr (List.mem_append_left _ hq')) rfl
          · exact fun p' hp hne => hsame p' (List.mem_cons_of_mem _ (List.mem_append_right _ hp)) hne

section Sorted
variable {K : Type} [LinearOrder K] {key : β → K} {p : P} {l r : LinkTree P β} {x : β}

/-- The keys rise from left to right. -/
def Sorted (key : β → K) (t : LinkTree P β) : Prop := (t.items.map key).Pairwise (· < ·)

theorem sorted_node : Sorted key (node p l x r) ↔ Sorted key l ∧ Sorted key r ∧
    (∀ y ∈ l.items, key y < key x) ∧ ∀ y ∈ r.items, key x < key y := by
  rw [Sorted, items, List.map_append, List.map_cons, List.pairwise_append, List.pairwise_cons]
  simp only [List.mem_map, List.mem_cons, forall_exists_index, and_imp, forall_eq_or_imp,
    forall_apply_eq_imp_iff₂]
  constructor
  · rintro ⟨hl, ⟨hx, hr⟩, hcross⟩
    exact ⟨hl, hr, fun y hy => (hcross y hy).1, hx⟩
  · rintro ⟨hl, hr, hlx, hxr⟩
    exact ⟨hl, ⟨hxr, hr⟩, fun y hy => ⟨hlx y hy, fun z hz => lt_trans (hlx y hy) (hxr z hz)⟩⟩

lemma Sorted.nodup (h : Sorted key t) : (t.items.map key).Nodup :=
  h.imp fun hlt => ne_of_lt hlt

/-- Two items with one key are one. -/
lemma Sorted.inj (h : Sorted key t) {x y : β} (hx : x ∈ t.items) (hy : y ∈ t.items)
    (heq : key x = key y) : x = y :=
  List.inj_on_of_nodup_map h.nodup hx hy heq

end Sorted

end MRNet.LinkedTrees
