import MRNet.Topology

/-!
# The links of the topology

Parent pointers, child sets, the map of the ranks and the set of the orphans are views of one
relation. The views of a topology are functions of a pointer, whether or not it is live; every
operation is described by what it does to the views.
-/
namespace MRNet.Topology
open Codec
open SerialGraph (Text Port)
open WaitForAll (Rank)

namespace NetworkTopology

def Live (t : NetworkTopology) (p : Ptr) : Prop := p ∈ t.heap

def rankOf (t : NetworkTopology) (p : Ptr) : Option Rank := (t.heap.lookup p).map Node.rank

def parentOf (t : NetworkTopology) (p : Ptr) : Option Ptr := (t.heap.lookup p).bind Node.parent

def childrenOf (t : NetworkTopology) (p : Ptr) : List Ptr :=
  ((t.heap.lookup p).map Node.children).getD []

lemma live_iff_rankOf {t : NetworkTopology} {p : Ptr} : t.Live p ↔ (t.rankOf p).isSome := by
  rw [Live, ← Finmap.lookup_isSome, rankOf, Option.isSome_map]

lemma live_of_parentOf {t : NetworkTopology} {p q : Ptr} (h : t.parentOf p = some q) :
    t.Live p := by
  obtain ⟨node, hnode, -⟩ := Option.bind_eq_some_iff.mp h
  exact Finmap.mem_of_lookup_eq_some hnode

lemma live_of_mem_childrenOf {t : NetworkTopology} {p c : Ptr} (h : c ∈ t.childrenOf p) :
    t.Live p := by
  by_contra hdead
  rw [childrenOf, Finmap.lookup_eq_none.mpr hdead] at h
  cases h

end NetworkTopology

open NetworkTopology

/-- The views agree. A child pointer and the parent pointer that answers it are one link, so
both of its ends are live. -/
structure Links (t : NetworkTopology) : Prop where
  keyed : ∀ r p, t.nodes.lookup r = some p ↔ t.rankOf p = some r
  answered : ∀ c n, c ∈ t.childrenOf n ↔ t.parentOf c = some n
  orphans : ∀ o ∈ t.orphans, t.Live o ∧ t.parentOf o = none
  fresh : ∀ p, t.Live p → p < t.nextPtr

lemma rankOf_congr {t t' : NetworkTopology} (h : t'.heap = t.heap) : t'.rankOf = t.rankOf := by
  ext1 p
  rw [rankOf, h]
  rfl

lemma parentOf_congr {t t' : NetworkTopology} (h : t'.heap = t.heap) :
    t'.parentOf = t.parentOf := by
  ext1 p
  rw [parentOf, h]
  rfl

lemma childrenOf_congr {t t' : NetworkTopology} (h : t'.heap = t.heap) :
    t'.childrenOf = t.childrenOf := by
  ext1 p
  rw [childrenOf, h]
  rfl

lemma deref_ok_iff {t : NetworkTopology} {p : Ptr} {node : Node} :
    t.deref p = .ok node ↔ t.heap.lookup p = some node := by
  unfold deref
  cases t.heap.lookup p with
  | none => simp
  | some n => simp [pure, Except.pure]

lemma parentOf_of_deref {t : NetworkTopology} {p : Ptr} {node : Node} (h : t.deref p = .ok node) :
    t.parentOf p = node.parent := by
  rw [NetworkTopology.parentOf, deref_ok_iff.mp h]
  rfl

/-- What `modify` does to the heap. -/
lemma modify_ok {t t' : NetworkTopology} {p : Ptr} {f : Node → Node}
    (h : t.modify p f = .ok t') :
    ∃ node, t.heap.lookup p = some node ∧ t' = { t with heap := t.heap.insert p (f node) } := by
  obtain ⟨node, hnode, hres⟩ := bind_ok_iff.mp h
  cases hres
  exact ⟨node, deref_ok_iff.mp hnode, rfl⟩

section Modify
variable {t t' : NetworkTopology} {p : Ptr} {f : Node → Node} (h : t.modify p f = .ok t')
include h

lemma modify_lookup (q : Ptr) :
    t'.heap.lookup q = if q = p then (t.heap.lookup q).map f else t.heap.lookup q := by
  obtain ⟨node, hnode, rfl⟩ := modify_ok h
  split_ifs with hq
  · rw [hq, Finmap.lookup_insert, hnode]
    rfl
  · rw [Finmap.lookup_insert_of_ne _ hq]

lemma modify_rankOf (hf : ∀ node, (f node).rank = node.rank) : t'.rankOf = t.rankOf := by
  ext1 q
  rw [rankOf, rankOf, modify_lookup h]
  split_ifs
  · rw [Option.map_map]
    congr 1
    ext1 node
    exact hf node
  · rfl

lemma modify_live (q : Ptr) : t'.Live q ↔ t.Live q := by
  rw [Live, Live, ← Finmap.lookup_isSome, ← Finmap.lookup_isSome, modify_lookup h]
  split_ifs <;> simp

lemma modify_parentOf (hf : ∀ node, (f node).parent = node.parent) : t'.parentOf = t.parentOf := by
  ext1 q
  rw [parentOf, parentOf, modify_lookup h]
  split_ifs
  · cases t.heap.lookup q with
    | none => rfl
    | some node => exact hf node
  · rfl

lemma modify_childrenOf (hf : ∀ node, (f node).children = node.children) :
    t'.childrenOf = t.childrenOf := by
  ext1 q
  rw [childrenOf, childrenOf, modify_lookup h]
  split_ifs
  · cases t.heap.lookup q with
    | none => rfl
    | some node => exact hf node
  · rfl

lemma modify_rest : t'.nodes = t.nodes ∧ t'.orphans = t.orphans ∧ t'.nextPtr = t.nextPtr := by
  obtain ⟨node, hnode, rfl⟩ := modify_ok h
  exact ⟨rfl, rfl, rfl⟩

end Modify

/-- The views of a pointer whose parent is set. -/
lemma modify_setParent_parentOf {t t' : NetworkTopology} {p : Ptr} {q : Option Ptr}
    (h : t.modify p (·.setParent q) = .ok t') : t'.parentOf = Function.update t.parentOf p q := by
  obtain ⟨node, hnode, -⟩ := modify_ok h
  ext1 x
  rw [parentOf, modify_lookup h]
  by_cases hx : x = p
  · rw [if_pos hx, hx, hnode, Function.update_self]
    rfl
  · rw [if_neg hx, Function.update_of_ne hx]
    rfl

lemma modify_addChild_childrenOf {t t' : NetworkTopology} {p c : Ptr}
    (h : t.modify p (·.addChild c) = .ok t') (x y : Ptr) :
    y ∈ t'.childrenOf x ↔ y ∈ t.childrenOf x ∨ (x = p ∧ y = c) := by
  obtain ⟨node, hnode, -⟩ := modify_ok h
  rw [childrenOf, childrenOf, modify_lookup h]
  by_cases hx : x = p
  · rw [if_pos hx, hx, hnode]
    simp [Node.addChild, List.mem_insert_iff, or_comm]
  · rw [if_neg hx]
    simp [hx]

lemma modify_removeChild_childrenOf {t t' : NetworkTopology} {p c : Ptr}
    (h : t.modify p (·.removeChild c) = .ok t') (x y : Ptr) :
    y ∈ t'.childrenOf x ↔ y ∈ t.childrenOf x ∧ ¬(x = p ∧ y = c) := by
  obtain ⟨node, hnode, -⟩ := modify_ok h
  rw [childrenOf, childrenOf, modify_lookup h]
  by_cases hx : x = p
  · rw [if_pos hx, hx, hnode]
    simp [Node.removeChild]
  · rw [if_neg hx]
    simp [hx]

/-- The node `c` has become a child of `p`. -/
structure Moved (t t' : NetworkTopology) (c p : Ptr) : Prop where
  nodes : t'.nodes = t.nodes
  rankOf : t'.rankOf = t.rankOf
  nextPtr : t'.nextPtr = t.nextPtr
  parentOf : t'.parentOf = Function.update t.parentOf c (some p)
  childrenOf : ∀ x y, y ∈ t'.childrenOf x ↔ if y = c then x = p else y ∈ t.childrenOf x
  orphans : ∀ o, o ∈ t'.orphans ↔ o ∈ t.orphans ∧ o ≠ c

/-- The node `p` is gone, and its children are orphans. -/
structure Removed (t t' : NetworkTopology) (p : Ptr) : Prop where
  nodes : ∀ r, t'.nodes.lookup r = if t.rankOf p = some r then none else t.nodes.lookup r
  rankOf : t'.rankOf = Function.update t.rankOf p none
  nextPtr : t'.nextPtr = t.nextPtr
  parentOf : ∀ y, t'.parentOf y =
    if y = p ∨ t.parentOf y = some p then none else t.parentOf y
  childrenOf : ∀ x y, y ∈ t'.childrenOf x ↔ y ∈ t.childrenOf x ∧ x ≠ p ∧ y ≠ p
  orphans : ∀ o, o ∈ t'.orphans ↔ (o ∈ t.orphans ∨ t.parentOf o = some p) ∧ o ≠ p

/-- A node of the rank `r` without links was made. -/
structure Created (t t' : NetworkTopology) (r : Rank) : Prop where
  nodes : t'.nodes = t.nodes.insert r t.nextPtr
  rankOf : t'.rankOf = Function.update t.rankOf t.nextPtr (some r)
  nextPtr : t'.nextPtr = t.nextPtr + 1
  parentOf : t'.parentOf = t.parentOf
  childrenOf : t'.childrenOf = t.childrenOf
  orphans : t'.orphans = t.orphans

/-- The views depend on nothing but these parts. -/
structure SameViews (t t' : NetworkTopology) : Prop where
  nodes : t'.nodes = t.nodes
  heap : t'.heap = t.heap
  nextPtr : t'.nextPtr = t.nextPtr
  orphans : t'.orphans = t.orphans

namespace Links
variable {t t' : NetworkTopology} (h : Links t)
include h

/-- The node that is found for a rank is live and has that rank. -/
lemma live_of_findNode {r : Rank} {p : Ptr} (hp : t.findNode r = some p) :
    t.Live p ∧ t.rankOf p = some r := by
  have hrank := (h.keyed r p).mp hp
  exact ⟨live_iff_rankOf.mpr (by rw [hrank]; rfl), hrank⟩

lemma parent_live {c n : Ptr} (hc : t.parentOf c = some n) : t.Live n :=
  live_of_mem_childrenOf ((h.answered c n).mpr hc)

lemma child_live {c n : Ptr} (hc : c ∈ t.childrenOf n) : t.Live c :=
  live_of_parentOf ((h.answered c n).mp hc)

theorem of_sameViews (hsame : SameViews t t') : Links t' := by
  obtain ⟨hnodes, hheap, hnext, horphans⟩ := hsame
  have hrank := rankOf_congr hheap
  have hparent := parentOf_congr hheap
  have hchildren := childrenOf_congr hheap
  constructor
  · rw [hnodes, hrank]
    exact h.keyed
  · rw [hparent, hchildren]
    exact h.answered
  · rw [horphans, hparent]
    intro o ho
    exact ⟨by rw [Live, hheap]; exact (h.orphans o ho).1, (h.orphans o ho).2⟩
  · intro p hp
    rw [hnext]
    exact h.fresh p (by rw [Live, ← hheap]; exact hp)

theorem moved {c p : Ptr} (hmove : Moved t t' c p) : Links t' := by
  have hlive : ∀ q, t'.Live q ↔ t.Live q := by
    intro q
    rw [live_iff_rankOf, live_iff_rankOf, hmove.rankOf]
  constructor
  · rw [hmove.nodes, hmove.rankOf]
    exact h.keyed
  · intro y x
    rw [hmove.childrenOf, hmove.parentOf]
    by_cases hy : y = c
    · rw [if_pos hy, hy, Function.update_self, Option.some.injEq]
      exact eq_comm
    · rw [if_neg hy, Function.update_of_ne hy]
      exact h.answered y x
  · intro o ho
    obtain ⟨ho, hne⟩ := (hmove.orphans o).mp ho
    rw [hlive, hmove.parentOf, Function.update_of_ne hne]
    exact h.orphans o ho
  · intro q hq
    rw [hmove.nextPtr]
    exact h.fresh q ((hlive q).mp hq)

theorem removed {p : Ptr} (hremove : Removed t t' p) : Links t' := by
  have hlive : ∀ q, t'.Live q ↔ t.Live q ∧ q ≠ p := by
    intro q
    rw [live_iff_rankOf, live_iff_rankOf, hremove.rankOf]
    by_cases hq : q = p
    · simp [hq]
    · simp [hq]
  constructor
  · intro r q
    rw [hremove.nodes, hremove.rankOf]
    by_cases hq : q = p
    · rw [hq, Function.update_self]
      split_ifs with hr
      · simp
      · rw [h.keyed]
        simp [hr]
    · rw [Function.update_of_ne hq]
      split_ifs with hr
      · have hfound := (h.keyed r p).mpr hr
        rw [← h.keyed, hfound]
        simp [Ne.symm hq]
      · exact h.keyed r q
  · intro y x
    rw [hremove.childrenOf, hremove.parentOf, h.answered]
    by_cases hx : x = p
    · rw [hx]
      split_ifs with hy
      · simp
      · simp only [not_or] at hy
        simp [hy]
    · by_cases hy : y = p
      · simp [hy]
      · by_cases hyp : t.parentOf y = some p
        · simp [hyp, hy, Ne.symm hx]
        · simp [hyp, hy, hx]
  · intro o ho
    obtain ⟨ho, hne⟩ := (hremove.orphans o).mp ho
    rw [hlive, hremove.parentOf]
    rcases ho with ho | ho
    · obtain ⟨hl, hp⟩ := h.orphans o ho
      simp [hl, hp, hne]
    · simp [live_of_parentOf ho, ho, hne]
  · intro q hq
    rw [hremove.nextPtr]
    exact h.fresh q ((hlive q).mp hq).1

/-- A new address is not in use. -/
lemma not_live_nextPtr : ¬t.Live t.nextPtr := fun hl => lt_irrefl _ (h.fresh _ hl)

theorem created {r : Rank} (hfresh : t.findNode r = none) (hcreate : Created t t' r) :
    Links t' := by
  have hdead : t.rankOf t.nextPtr = none := by
    by_contra hsome
    apply h.not_live_nextPtr
    rw [live_iff_rankOf]
    exact Option.isSome_iff_ne_none.mpr hsome
  have hlive : ∀ q, t'.Live q ↔ q = t.nextPtr ∨ t.Live q := by
    intro q
    rw [live_iff_rankOf, live_iff_rankOf, hcreate.rankOf]
    by_cases hq : q = t.nextPtr
    · simp [hq]
    · simp [hq]
  constructor
  · intro r' q
    rw [hcreate.nodes, hcreate.rankOf]
    by_cases hq : q = t.nextPtr
    · rw [hq, Function.update_self]
      by_cases hr : r' = r
      · rw [hr, Finmap.lookup_insert]
        simp
      · rw [Finmap.lookup_insert_of_ne _ hr, h.keyed, hdead]
        simp [Ne.symm hr]
    · rw [Function.update_of_ne hq]
      by_cases hr : r' = r
      · rw [hr, Finmap.lookup_insert, ← h.keyed]
        have hnone : t.nodes.lookup r = none := hfresh
        rw [hnone]
        simp [Ne.symm hq]
      · rw [Finmap.lookup_insert_of_ne _ hr]
        exact h.keyed r' q
  · rw [hcreate.childrenOf, hcreate.parentOf]
    exact h.answered
  · rw [hcreate.orphans, hcreate.parentOf]
    intro o ho
    exact ⟨(hlive o).mpr (.inr (h.orphans o ho).1), (h.orphans o ho).2⟩
  · intro q hq
    rw [hcreate.nextPtr]
    rcases (hlive q).mp hq with heq | hl
    · rw [heq]
      exact Nat.lt_succ_self _
    · exact (h.fresh q hl).trans (Nat.lt_succ_self _)

end Links

lemma removeOrphan_views (t : NetworkTopology) (r : Rank) :
    (t.removeOrphan r).nodes = t.nodes ∧ (t.removeOrphan r).heap = t.heap ∧
      (t.removeOrphan r).nextPtr = t.nextPtr ∧
      (t.removeOrphan r).orphans =
        match t.findNode r with
        | none => t.orphans
        | some node => t.orphans.filter (· ≠ node) := by
  unfold removeOrphan
  cases t.findNode r with
  | none => exact ⟨rfl, rfl, rfl, rfl⟩
  | some node => exact ⟨rfl, rfl, rfl, rfl⟩

/-- The links after `link`, for a child that is registered. -/
lemma link_spec {t t' : NetworkTopology} {c p : Ptr} {r : Rank} (h : t.link c p = .ok t')
    (hrank : t.rankOf c = some r) (hfound : t.findNode r = some c) :
    t'.nodes = t.nodes ∧ t'.rankOf = t.rankOf ∧ t'.nextPtr = t.nextPtr ∧
      t'.parentOf = Function.update t.parentOf c (some p) ∧
      (∀ x y, y ∈ t'.childrenOf x ↔ y ∈ t.childrenOf x ∨ (x = p ∧ y = c)) ∧
      ∀ o, o ∈ t'.orphans ↔ o ∈ t.orphans ∧ o ≠ c := by
  obtain ⟨t₁, h₁, h⟩ := bind_ok_iff.mp h
  obtain ⟨t₂, h₂, h⟩ := bind_ok_iff.mp h
  obtain ⟨child, hchild, h⟩ := bind_ok_iff.mp h
  obtain ⟨newParent, hnewParent, h₃⟩ := bind_ok_iff.mp h
  obtain ⟨hn₁, ho₁, hx₁⟩ := modify_rest h₁
  obtain ⟨hn₂, ho₂, hx₂⟩ := modify_rest h₂
  obtain ⟨hn₃, ho₃, hx₃⟩ := modify_rest h₃
  obtain ⟨hnr, hheap, hxr, hor⟩ := removeOrphan_views t₂ child.rank
  have hrank₂ : t₂.rankOf = t.rankOf :=
    (modify_rankOf h₂ fun _ => rfl).trans (modify_rankOf h₁ fun _ => rfl)
  have hr : child.rank = r := by
    have hc : t₂.rankOf c = some child.rank := by
      rw [NetworkTopology.rankOf, deref_ok_iff.mp hchild]
      rfl
    rw [hrank₂, hrank] at hc
    exact (Option.some.inj hc).symm
  refine ⟨?_, ?_, ?_, ?_, fun x y => ?_, fun o => ?_⟩
  · rw [hn₃, hnr, hn₂, hn₁]
  · rw [modify_rankOf h₃ fun _ => rfl, rankOf_congr hheap, hrank₂]
  · rw [hx₃, hxr, hx₂, hx₁]
  · rw [modify_parentOf h₃ fun _ => rfl, parentOf_congr hheap, modify_parentOf h₂ fun _ => rfl,
      modify_setParent_parentOf h₁]
  · rw [modify_childrenOf h₃ fun _ => rfl, childrenOf_congr hheap,
      modify_addChild_childrenOf h₂, modify_childrenOf h₁ fun _ => rfl]
  · have hfound₂ : t₂.findNode child.rank = some c := by
      rw [findNode, hn₂, hn₁, hr]
      exact hfound
    rw [ho₃, hor, hfound₂, ho₂, ho₁]
    simp

/-- `set_Parent` leaves the topology as it is, or moves a node that was found. -/
theorem setParent_spec {t t' : NetworkTopology} (hlinks : Links t) {rc rp : Rank}
    {res : Reparented} (h : t.setParent rc rp = .ok (t', res)) :
    (res ≠ .moved ∧ t' = t ∧ ∀ c p, t.findNode rc = some c → t.findNode rp = some p →
        t.parentOf c = some p) ∨
      (res = .moved ∧ ∃ c p, t.findNode rc = some c ∧ t.findNode rp = some p ∧
        t.parentOf c ≠ some p ∧ Moved t t' c p) := by
  unfold NetworkTopology.setParent at h
  cases hc : t.findNode rc with
  | none =>
      rw [hc] at h
      cases h
      exact .inl ⟨by simp, rfl, by simp⟩
  | some c =>
      rw [hc] at h
      cases hp : t.findNode rp with
      | none =>
          rw [hp] at h
          cases h
          exact .inl ⟨by simp, rfl, by simp⟩
      | some p =>
          rw [hp] at h
          obtain ⟨child, hchild, h⟩ := bind_ok_iff.mp h
          have hparent : t.parentOf c = child.parent := parentOf_of_deref hchild
          have hrank := (hlinks.live_of_findNode hc).2
          cases hold : child.parent with
          | none =>
              rw [hold] at h hparent
              obtain ⟨t₁, hlink, hres⟩ := bind_ok_iff.mp h
              cases hres
              obtain ⟨hn, hr, hx, hpar, hch, hor⟩ := link_spec hlink hrank hc
              refine .inr ⟨rfl, c, p, rfl, rfl, by rw [hparent]; simp, hn, hr, hx, hpar,
                fun x y => ?_, hor⟩
              rw [hch x y, hlinks.answered y x]
              by_cases hy : y = c
              · simp [hy, hparent]
              · simp [hy]
          | some old =>
              rw [hold] at h hparent
              dsimp only at h
              split_ifs at h with heq
              · cases h
                refine .inl ⟨by simp, rfl, ?_⟩
                rintro _ _ ⟨⟩ ⟨⟩
                rw [hparent, heq]
              · obtain ⟨t₁, hremove, h⟩ := bind_ok_iff.mp h
                obtain ⟨t₂, hlink, hres⟩ := bind_ok_iff.mp h
                cases hres
                obtain ⟨hn₁, ho₁, hx₁⟩ := modify_rest hremove
                have hrank₁ : t₁.rankOf c = some rc := by
                  rw [modify_rankOf hremove fun _ => rfl]
                  exact hrank
                have hfound₁ : t₁.findNode rc = some c := by
                  rw [findNode, hn₁]
                  exact hc
                obtain ⟨hn, hr, hx, hpar, hch, hor⟩ := link_spec hlink hrank₁ hfound₁
                refine .inr ⟨rfl, c, p, rfl, rfl, by rw [hparent]; simpa using heq, hn.trans hn₁,
                  ?_, hx.trans hx₁, ?_, fun x y => ?_, fun o => ?_⟩
                · rw [hr, modify_rankOf hremove fun _ => rfl]
                · rw [hpar, modify_parentOf hremove fun _ => rfl]
                · rw [hch x y, modify_removeChild_childrenOf hremove, hlinks.answered y x]
                  by_cases hy : y = c
                  · rw [hy, hparent, if_pos rfl]
                    constructor
                    · rintro (⟨hold, hne⟩ | ⟨hx, -⟩)
                      · exact absurd ⟨(Option.some.inj hold).symm, rfl⟩ hne
                      · exact hx
                    · exact fun hx => .inr ⟨hx, rfl⟩
                  · simp [hy]
                · rw [hor o, ho₁]

/-- The loop over the children of a node that is removed. -/
lemma orphanChildren_spec {p : Ptr} {cs : List Ptr} {t t' : NetworkTopology}
    (h : orphanChildren p cs t = .ok t') :
    t'.nodes = t.nodes ∧ t'.rankOf = t.rankOf ∧ t'.nextPtr = t.nextPtr ∧
      t'.childrenOf = t.childrenOf ∧
      (∀ y, t'.parentOf y = if y ∈ cs ∧ t.parentOf y = some p then none else t.parentOf y) ∧
      ∀ o, o ∈ t'.orphans ↔ o ∈ t.orphans ∨ (o ∈ cs ∧ t.parentOf o = some p) := by
  induction cs generalizing t with
  | nil =>
      cases h
      simp
  | cons c cs ih =>
      obtain ⟨child, hchild, h⟩ := bind_ok_iff.mp h
      have hparent : t.parentOf c = child.parent := parentOf_of_deref hchild
      split_ifs at h with hown
      · obtain ⟨t₁, h₁, h⟩ := bind_ok_iff.mp h
        obtain ⟨hn₁, ho₁, hx₁⟩ := modify_rest h₁
        have hr₁ : t₁.rankOf = t.rankOf := modify_rankOf h₁ fun _ => rfl
        have hch₁ : t₁.childrenOf = t.childrenOf := modify_childrenOf h₁ fun _ => rfl
        have hpar₁ := modify_setParent_parentOf h₁
        obtain ⟨hn, hr, hx, hch, hpar, hor⟩ := ih h
        have hcp : t.parentOf c = some p := hparent.trans hown
        have hother : ∀ y, y ≠ c → t₁.parentOf y = t.parentOf y := by
          intro y hy
          rw [hpar₁, Function.update_of_ne hy]
        have hself : t₁.parentOf c = none := by
          rw [hpar₁, Function.update_self]
        refine ⟨hn.trans hn₁, hr.trans hr₁, hx.trans hx₁, hch.trans hch₁, fun y => ?_,
          fun o => ?_⟩
        · rw [hpar y]
          show (if y ∈ cs ∧ t₁.parentOf y = some p then none else t₁.parentOf y) = _
          by_cases hy : y = c
          · rw [hy, hself, hcp]
            simp
          · rw [hother y hy]
            simp [hy]
        · rw [hor o]
          show o ∈ t₁.orphans.insert c ∨ (o ∈ cs ∧ t₁.parentOf o = some p) ↔ _
          rw [List.mem_insert_iff, ho₁]
          by_cases ho : o = c
          · simp [ho, hcp]
          · simp [ho, hother o ho]
      · obtain ⟨hn, hr, hx, hch, hpar, hor⟩ := ih h
        have hcp : t.parentOf c ≠ some p := fun he => hown (hparent.symm.trans he)
        refine ⟨hn, hr, hx, hch, fun y => ?_, fun o => ?_⟩
        · rw [hpar y]
          by_cases hy : y = c
          · simp [hy, hcp]
          · simp [hy]
        · rw [hor o]
          by_cases ho : o = c
          · simp [ho, hcp]
          · simp [ho]

lemma delete_lookup (t : NetworkTopology) (p q : Ptr) :
    (t.delete p).heap.lookup q = if q = p then none else t.heap.lookup q := by
  show (t.heap.erase p).lookup q = _
  split_ifs with hq
  · rw [hq, Finmap.lookup_erase]
  · rw [Finmap.lookup_erase_ne hq]

lemma delete_rankOf (t : NetworkTopology) (p : Ptr) :
    (t.delete p).rankOf = Function.update t.rankOf p none := by
  ext1 q
  rw [NetworkTopology.rankOf, delete_lookup]
  by_cases hq : q = p
  · rw [if_pos hq, hq, Function.update_self]
    rfl
  · rw [if_neg hq, Function.update_of_ne hq]
    rfl

lemma delete_parentOf (t : NetworkTopology) (p q : Ptr) :
    (t.delete p).parentOf q = if q = p then none else t.parentOf q := by
  rw [NetworkTopology.parentOf, delete_lookup]
  split_ifs
  · rfl
  · rfl

lemma mem_delete_childrenOf (t : NetworkTopology) (p x y : Ptr) :
    y ∈ (t.delete p).childrenOf x ↔ y ∈ t.childrenOf x ∧ x ≠ p := by
  rw [NetworkTopology.childrenOf, delete_lookup]
  by_cases hx : x = p
  · simp [hx]
  · simp [hx, NetworkTopology.childrenOf]

/-- The views after `remove_Node` for a pointer, which leaves the parent of the node alone. -/
lemma removeObject_spec {t t' : NetworkTopology} {p : Ptr} {r : Rank}
    (h : t.removeObject p = .ok t') (hrank : t.rankOf p = some r) :
    t'.nodes = t.nodes.erase r ∧ t'.rankOf = Function.update t.rankOf p none ∧
      t'.nextPtr = t.nextPtr ∧
      (∀ y, t'.parentOf y =
        if y = p ∨ (y ∈ t.childrenOf p ∧ t.parentOf y = some p) then none else t.parentOf y) ∧
      (∀ x y, y ∈ t'.childrenOf x ↔ y ∈ t.childrenOf x ∧ x ≠ p) ∧
      ∀ o, o ∈ t'.orphans ↔
        (o ∈ t.orphans ∧ o ≠ p) ∨ (o ∈ t.childrenOf p ∧ t.parentOf o = some p) := by
  obtain ⟨node, hnode, h⟩ := bind_ok_iff.mp h
  obtain ⟨t₁, h₁, hres⟩ := bind_ok_iff.mp h
  cases hres
  have hr : node.rank = r := by
    rw [NetworkTopology.rankOf, deref_ok_iff.mp hnode] at hrank
    exact Option.some.inj hrank
  have hcs : t.childrenOf p = node.children := by
    rw [NetworkTopology.childrenOf, deref_ok_iff.mp hnode]
    rfl
  obtain ⟨hn, hrk, hx, hch, hpar, hor⟩ := orphanChildren_spec h₁
  rw [hcs]
  refine ⟨?_, ?_, hx, fun y => ?_, fun x y => ?_, fun o => ?_⟩
  · rw [← hr]
    exact hn
  · rw [delete_rankOf, hrk]
    rfl
  · rw [delete_parentOf, hpar]
    by_cases hy : y = p
    · simp [hy]
    · simp only [hy, if_false, false_or]
      rfl
  · rw [mem_delete_childrenOf, hch]
    rfl
  · show o ∈ t₁.orphans ↔ _
    rw [hor, NetworkTopology.unregister, List.mem_filter, decide_eq_true_eq]
    rfl

/-- The link to its parent is the only one in which a node is a child. -/
lemma leaveParent_spec {t t' : NetworkTopology} (hanswered : ∀ c n, c ∈ t.childrenOf n ↔
    t.parentOf c = some n) {p : Ptr} (h : t.leaveParent p = .ok t') :
    t'.nodes = t.nodes ∧ t'.rankOf = t.rankOf ∧ t'.nextPtr = t.nextPtr ∧
      t'.orphans = t.orphans ∧ t'.parentOf = t.parentOf ∧
      ∀ x y, y ∈ t'.childrenOf x ↔ y ∈ t.childrenOf x ∧ y ≠ p := by
  obtain ⟨node, hnode, h⟩ := bind_ok_iff.mp h
  have hparent : t.parentOf p = node.parent := parentOf_of_deref hnode
  have hchild : ∀ x, p ∈ t.childrenOf x ↔ node.parent = some x := by
    intro x
    rw [hanswered, hparent]
  cases hq : node.parent with
  | none =>
      rw [hq] at h
      cases h
      refine ⟨rfl, rfl, rfl, rfl, rfl, fun x y => ⟨fun hy => ⟨hy, ?_⟩, And.left⟩⟩
      rintro rfl
      rw [hchild, hq] at hy
      cases hy
  | some q =>
      rw [hq] at h
      obtain ⟨hn, ho, hx⟩ := modify_rest h
      refine ⟨hn, modify_rankOf h fun _ => rfl, hx, ho, modify_parentOf h fun _ => rfl,
        fun x y => ?_⟩
      rw [modify_removeChild_childrenOf h]
      apply and_congr_right
      intro hy
      apply not_congr
      constructor
      · exact And.right
      · rintro rfl
        rw [hchild, hq] at hy
        exact ⟨(Option.some.inj hy).symm, rfl⟩

/-- `remove_Node` finds no node, or removes the one that it finds. -/
theorem removeNode_spec {t t' : NetworkTopology} (hlinks : Links t) {r : Rank} {found : Bool}
    (h : t.removeNode r = .ok (t', found)) :
    (found = false ∧ t.findNode r = none ∧ t' = t) ∨
      (found = true ∧ ∃ p, t.findNode r = some p ∧ Removed t t' p) := by
  unfold NetworkTopology.removeNode at h
  cases hp : t.findNode r with
  | none =>
      rw [hp] at h
      cases h
      exact .inl ⟨rfl, rfl, rfl⟩
  | some p =>
      rw [hp] at h
      obtain ⟨t₁, h₁, h⟩ := bind_ok_iff.mp h
      obtain ⟨t₂, h₂, h⟩ := bind_ok_iff.mp h
      obtain ⟨t₃, h₃, hres⟩ := bind_ok_iff.mp h
      cases hres
      have hrank := (hlinks.live_of_findNode hp).2
      obtain ⟨hn₁, ho₁, hx₁⟩ := modify_rest h₁
      have hr₁ : t₁.rankOf = t.rankOf := modify_rankOf h₁ fun _ => rfl
      have hpar₁ : t₁.parentOf = t.parentOf := modify_parentOf h₁ fun _ => rfl
      have hch₁ : t₁.childrenOf = t.childrenOf := modify_childrenOf h₁ fun _ => rfl
      have hanswered : ∀ c n, c ∈ t₁.childrenOf n ↔ t₁.parentOf c = some n := by
        rw [hpar₁, hch₁]
        exact hlinks.answered
      obtain ⟨hn₂, hr₂, hx₂, ho₂, hpar₂, hch₂⟩ := leaveParent_spec hanswered h₂
      rw [hn₁] at hn₂
      rw [hr₁] at hr₂
      rw [hx₁] at hx₂
      rw [ho₁] at ho₂
      rw [hpar₁] at hpar₂
      rw [hch₁] at hch₂
      obtain ⟨hn, hr, hx, hpar, hch, hor⟩ := removeObject_spec h₃ (by rw [hr₂]; exact hrank)
      refine .inr ⟨rfl, p, rfl, fun r' => ?_, by rw [hr, hr₂], hx.trans hx₂, fun y => ?_,
        fun x y => ?_, fun o => ?_⟩
      · rw [hn, hn₂, hrank]
        by_cases heq : r' = r
        · rw [heq, Finmap.lookup_erase, if_pos rfl]
        · rw [Finmap.lookup_erase_ne heq, if_neg fun he => heq (Option.some.inj he).symm]
      · rw [hpar, hpar₂]
        simp only [hch₂, hlinks.answered]
        by_cases hy : y = p
        · simp [hy]
        · simp [hy]
      · rw [hch, hch₂]
        tauto
      · rw [hor, ho₂, hpar₂, hch₂, hlinks.answered]
        tauto

lemma newObject_lookup (t : NetworkTopology) (node : Node) (q : Ptr) :
    (t.newObject node).heap.lookup q =
      if q = t.nextPtr then some node else t.heap.lookup q := by
  show (t.heap.insert t.nextPtr node).lookup q = _
  split_ifs with hq
  · rw [hq, Finmap.lookup_insert]
  · rw [Finmap.lookup_insert_of_ne _ hq]

/-- A new node under a new rank. -/
lemma created_of_newObject {t t' : NetworkTopology} (hlinks : Links t) (host : Text) (port : Port)
    (r : Rank) (isBackEnd : Bool)
    (hheap : t'.heap = (t.newObject (Node.create host port r isBackEnd)).heap)
    (hnodes : t'.nodes = t.nodes.insert r t.nextPtr) (hnext : t'.nextPtr = t.nextPtr + 1)
    (horphans : t'.orphans = t.orphans) : Created t t' r := by
  have hdead : t.heap.lookup t.nextPtr = none := Finmap.lookup_eq_none.mpr hlinks.not_live_nextPtr
  refine ⟨hnodes, ?_, hnext, ?_, ?_, horphans⟩
  · ext1 q
    rw [rankOf_congr hheap, NetworkTopology.rankOf, newObject_lookup]
    by_cases hq : q = t.nextPtr
    · rw [if_pos hq, hq, Function.update_self]
      rfl
    · rw [if_neg hq, Function.update_of_ne hq]
      rfl
  · ext1 q
    rw [parentOf_congr hheap, NetworkTopology.parentOf, NetworkTopology.parentOf,
      newObject_lookup]
    split_ifs with hq
    · rw [hq, hdead]
      rfl
    · rfl
  · ext1 q
    rw [childrenOf_congr hheap, NetworkTopology.childrenOf, NetworkTopology.childrenOf,
      newObject_lookup]
    split_ifs with hq
    · rw [hq, hdead]
      rfl
    · rfl

theorem Links.newNode {t : NetworkTopology} (h : Links t) (host : Text) (port : Port) {r : Rank}
    (isBackEnd : Bool) (hfresh : t.findNode r = none) : Links (t.newNode host port r isBackEnd) :=
  h.created hfresh (created_of_newObject h host port r isBackEnd rfl rfl rfl rfl)

theorem Links.setParent {t t' : NetworkTopology} (h : Links t) {rc rp : Rank} {res : Reparented}
    (hset : t.setParent rc rp = .ok (t', res)) : Links t' := by
  rcases setParent_spec h hset with ⟨-, rfl, -⟩ | ⟨-, c, p, -, -, -, hmove⟩
  · exact h
  · exact h.moved hmove

theorem Links.removeNode {t t' : NetworkTopology} (h : Links t) {r : Rank} {found : Bool}
    (hremove : t.removeNode r = .ok (t', found)) : Links t' := by
  rcases removeNode_spec h hremove with ⟨-, -, rfl⟩ | ⟨-, p, -, hremoved⟩
  · exact h
  · exact h.removed hremoved

lemma Links.graphRoot {t t' : NetworkTopology} (h : Links t) {isg : Text} {node : Ptr}
    (hroot : t.graphRoot isg = .ok (t', node)) : Links t' := by
  obtain ⟨rank, -, hroot⟩ := bind_ok_iff.mp hroot
  cases hfound : t.findNode rank with
  | some found =>
      rw [hfound] at hroot
      cases hroot
      exact h
  | none =>
      rw [hfound] at hroot
      obtain ⟨host, -, hroot⟩ := bind_ok_iff.mp hroot
      obtain ⟨port, -, hroot⟩ := bind_ok_iff.mp hroot
      obtain ⟨isBackEnd, -, hroot⟩ := bind_ok_iff.mp hroot
      cases hroot
      exact h.created hfound (created_of_newObject h host port rank isBackEnd rfl rfl rfl rfl)

lemma Links.addGraphRoot {t t' : NetworkTopology} (h : Links t) {inode node : Ptr} {isg : Text}
    (hadd : t.addGraphRoot inode isg = .ok (t', node)) : Links t' := by
  obtain ⟨⟨t₁, root⟩, hroot, hadd⟩ := bind_ok_iff.mp hadd
  have hlinks₀ : Links { t with parentNodes := t.parentNodes.insert inode } :=
    h.of_sameViews ⟨rfl, rfl, rfl, rfl⟩
  have hlinks₁ : Links t₁ := hlinks₀.graphRoot hroot
  obtain ⟨rootNode, -, hadd⟩ := bind_ok_iff.mp hadd
  obtain ⟨inodeNode, -, hadd⟩ := bind_ok_iff.mp hadd
  obtain ⟨⟨t₂, res⟩, hset, hres⟩ := bind_ok_iff.mp hadd
  cases hres
  refine Links.setParent (hlinks₁.of_sameViews ?_) hset
  split_ifs <;> exact ⟨rfl, rfl, rfl, rfl⟩

theorem Links.addGraph {t t' : NetworkTopology} (h : Links t) {inode : Ptr} {isg : Text}
    (hadd : t.addGraph inode isg = .ok t') : Links t' := by
  induction hn : isg.length using Nat.strong_induction_on generalizing t t' inode isg with
  | _ n ih =>
      rw [NetworkTopology.addGraph] at hadd
      obtain ⟨⟨t₁, node⟩, hroot, hadd⟩ := bind_ok_iff.mp hadd
      have hlinks₁ : Links t₁ := h.addGraphRoot hroot
      dsimp only at hadd
      split at hadd
      · cases hadd
      · rename_i kids hkids
        apply foldlM_keeps _ hlinks₁ hadd
        intro kid _ t₂ t₃ hlinks₂ hkid
        exact ih _ (hn ▸ SerialGraph.getChildren_shorter hkids kid.1 kid.2) hlinks₂ hkid rfl

theorem Links.addSubGraph {t t' : NetworkTopology} (h : Links t) {irank : Rank} {isg : Text}
    {found : Bool} (hadd : t.addSubGraph irank isg = .ok (t', found)) : Links t' := by
  unfold NetworkTopology.addSubGraph at hadd
  cases hnode : t.findNode irank with
  | none =>
      rw [hnode] at hadd
      cases hadd
      exact h
  | some node =>
      rw [hnode] at hadd
      obtain ⟨t₁, hgraph, hres⟩ := bind_ok_iff.mp hadd
      cases hres
      exact h.addGraph hgraph

/-- The loop that deletes the registered nodes. -/
lemma deleteAll_lookup (rs : List Rank) (t : NetworkTopology) (q : Ptr) :
    let t' := rs.foldl
      (fun t r =>
        match t.findNode r with
        | none => t
        | some node => t.delete node) t
    t'.nodes = t.nodes ∧
      ((∃ r ∈ rs, t.nodes.lookup r = some q) → t'.heap.lookup q = none) ∧
      (t.heap.lookup q = none → t'.heap.lookup q = none) := by
  induction rs generalizing t with
  | nil => simp
  | cons r rs ih =>
      rw [List.foldl_cons]
      cases hr : t.findNode r with
      | none =>
          obtain ⟨hn, hgone, hdead⟩ := ih t
          refine ⟨hn, ?_, hdead⟩
          rintro ⟨r', hr', hq⟩
          rcases List.mem_cons.mp hr' with rfl | hr'
          · rw [findNode, hq] at hr
            cases hr
          · exact hgone ⟨r', hr', hq⟩
      | some node =>
          obtain ⟨hn, hgone, hdead⟩ := ih (t.delete node)
          refine ⟨hn, ?_, fun hq => hdead ?_⟩
          · rintro ⟨r', hr', hq⟩
            rcases List.mem_cons.mp hr' with rfl | hr'
            · apply hdead
              rw [delete_lookup, if_pos]
              rw [findNode, hq] at hr
              exact Option.some.inj hr
            · exact hgone ⟨r', hr', hq⟩
          · rw [delete_lookup, hq, ite_self]

/-- No node is left, since all of them are registered. -/
lemma clear_heap {t : NetworkTopology} (h : Links t) : t.clear.heap = ∅ := by
  apply Finmap.ext_lookup
  intro q
  rw [Finmap.lookup_empty]
  obtain ⟨-, hgone, hdead⟩ := deleteAll_lookup t.nodes.keys.sort t q
  cases hq : t.heap.lookup q with
  | none => exact hdead hq
  | some node =>
      apply hgone
      have hfound : t.nodes.lookup node.rank = some q := by
        rw [h.keyed, NetworkTopology.rankOf, hq]
        rfl
      refine ⟨node.rank, ?_, hfound⟩
      rw [Finset.mem_sort, Finmap.mem_keys]
      exact Finmap.mem_of_lookup_eq_some hfound

lemma links_of_heap_empty {t : NetworkTopology} (hheap : t.heap = ∅) (hnodes : t.nodes = ∅)
    (horphans : t.orphans = []) : Links t := by
  have hlookup : ∀ q, t.heap.lookup q = none := by
    intro q
    rw [hheap, Finmap.lookup_empty]
  constructor
  · intro r p
    rw [hnodes, Finmap.lookup_empty, NetworkTopology.rankOf, hlookup]
    simp
  · intro c n
    rw [NetworkTopology.childrenOf, NetworkTopology.parentOf, hlookup, hlookup]
    simp
  · rw [horphans]
    simp
  · intro p hp
    rw [Live, hheap] at hp
    exact absurd hp Finmap.notMem_empty

/-- A root without links in an empty topology. -/
lemma links_of_root {t t' : NetworkTopology} (hlinks : Links t) (hnodes : t.nodes = ∅)
    (host : Text) (port : Port) {r : Rank} (isBackEnd : Bool)
    (hheap : t'.heap = (t.newObject (Node.create host port r isBackEnd)).heap)
    (hnodes' : t'.nodes = t.nodes.insert r t.nextPtr) (hnext : t'.nextPtr = t.nextPtr + 1)
    (horphans : t'.orphans = t.orphans) : Links t' := by
  have hfresh : t.findNode r = none := by
    rw [findNode, hnodes, Finmap.lookup_empty]
  exact hlinks.created hfresh
    (created_of_newObject hlinks host port r isBackEnd hheap hnodes' hnext horphans)

theorem Links.reset {t t' : NetworkTopology} (h : Links t) {isg : Text}
    (hreset : t.reset isg = .ok t') : Links t' := by
  have hclear : Links t.clear := links_of_heap_empty (clear_heap h) rfl rfl
  unfold NetworkTopology.reset at hreset
  split_ifs at hreset with hnull
  · cases hreset
    exact hclear
  · obtain ⟨host, -, hreset⟩ := bind_ok_iff.mp hreset
    obtain ⟨port, -, hreset⟩ := bind_ok_iff.mp hreset
    obtain ⟨rank, -, hreset⟩ := bind_ok_iff.mp hreset
    obtain ⟨isBackEnd, -, hreset⟩ := bind_ok_iff.mp hreset
    obtain ⟨kids, -, hreset⟩ := bind_ok_iff.mp hreset
    apply foldlM_keeps _ _ hreset
    · intro kid _ t₁ t₂ h₁ hadd
      exact h₁.addGraph hadd
    · exact links_of_root hclear rfl host port isBackEnd rfl rfl rfl rfl

lemma links_empty : Links NetworkTopology.empty := links_of_heap_empty rfl rfl rfl

lemma links_create (hostName : Text) (port : Port) (rank : Rank) (isBackEnd : Bool) :
    Links (NetworkTopology.create hostName port rank isBackEnd) :=
  links_of_root links_empty rfl hostName port isBackEnd rfl rfl rfl rfl

lemma deref_of_live {t : NetworkTopology} {p : Ptr} (h : t.Live p) : ∃ node, t.deref p = .ok node := by
  obtain ⟨node, hnode⟩ := Option.isSome_iff_exists.mp (Finmap.lookup_isSome.mpr h)
  exact ⟨node, deref_ok_iff.mpr hnode⟩

lemma modify_of_live {t : NetworkTopology} {p : Ptr} (h : t.Live p) (f : Node → Node) :
    ∃ t', t.modify p f = .ok t' := by
  obtain ⟨node, hnode⟩ := deref_of_live h
  exact ⟨_, bind_ok_iff.mpr ⟨node, hnode, rfl⟩⟩

lemma removeOrphan_live (t : NetworkTopology) (r : Rank) (q : Ptr) :
    (t.removeOrphan r).Live q ↔ t.Live q := by
  rw [Live, Live, (removeOrphan_views t r).2.1]

lemma link_of_live {t : NetworkTopology} {c p : Ptr} (hc : t.Live c) (hp : t.Live p) :
    ∃ t', t.link c p = .ok t' := by
  obtain ⟨t₁, h₁⟩ := modify_of_live hc (·.setParent (some p))
  obtain ⟨t₂, h₂⟩ := modify_of_live ((modify_live h₁ p).mpr hp) (·.addChild c)
  have hlive : ∀ q, t₂.Live q ↔ t.Live q := fun q => (modify_live h₂ q).trans (modify_live h₁ q)
  obtain ⟨child, hchild⟩ := deref_of_live ((hlive c).mpr hc)
  obtain ⟨newParent, hnewParent⟩ :=
    deref_of_live ((removeOrphan_live t₂ child.rank p).mpr ((hlive p).mpr hp))
  obtain ⟨t₃, h₃⟩ := modify_of_live ((removeOrphan_live t₂ child.rank c).mpr ((hlive c).mpr hc))
    fun node => { node with ascendants := newParent.ascendants.insert p }
  exact ⟨t₃, bind_ok_iff.mpr ⟨t₁, h₁, bind_ok_iff.mpr ⟨t₂, h₂, bind_ok_iff.mpr ⟨child, hchild,
    bind_ok_iff.mpr ⟨newParent, hnewParent, h₃⟩⟩⟩⟩⟩

theorem setParent_total {t : NetworkTopology} (hlinks : Links t) (rc rp : Rank) :
    ∃ t' res, t.setParent rc rp = .ok (t', res) := by
  unfold NetworkTopology.setParent
  cases hc : t.findNode rc with
  | none => exact ⟨_, _, rfl⟩
  | some c =>
      cases hp : t.findNode rp with
      | none => exact ⟨_, _, rfl⟩
      | some p =>
          have hcl := (hlinks.live_of_findNode hc).1
          have hpl := (hlinks.live_of_findNode hp).1
          obtain ⟨child, hchild⟩ := deref_of_live hcl
          simp only [hchild, ok_bind]
          cases hold : child.parent with
          | none =>
              obtain ⟨t', hlink⟩ := link_of_live hcl hpl
              exact ⟨t', .moved, bind_ok_iff.mpr ⟨t', hlink, rfl⟩⟩
          | some old =>
              dsimp only
              split_ifs
              · exact ⟨_, _, rfl⟩
              · have hparent : t.parentOf c = some old := by
                  rw [NetworkTopology.parentOf, deref_ok_iff.mp hchild]
                  exact hold
                obtain ⟨t₁, h₁⟩ := modify_of_live (hlinks.parent_live hparent) (·.removeChild c)
                obtain ⟨t', hlink⟩ :=
                  link_of_live ((modify_live h₁ c).mpr hcl) ((modify_live h₁ p).mpr hpl)
                exact ⟨t', .moved, bind_ok_iff.mpr ⟨t₁, h₁, bind_ok_iff.mpr ⟨t', hlink, rfl⟩⟩⟩

/-- The topologies that the public operations can lead to. -/
inductive Reachable : NetworkTopology → Prop
  | create (hostName : Text) (port : Port) (rank : Rank) (isBackEnd : Bool) :
      Reachable (.create hostName port rank isBackEnd)
  | createFrom {isg : Text} {t : NetworkTopology} (h : createFrom isg = .ok t) : Reachable t
  | newNode {t : NetworkTopology} (ht : Reachable t) (host : Text) (port : Port) {rank : Rank}
      (isBackEnd : Bool) (hfresh : t.findNode rank = none) :
      Reachable (t.newNode host port rank isBackEnd)
  | setParent {t t' : NetworkTopology} (ht : Reachable t) {rc rp : Rank} {res : Reparented}
      (h : t.setParent rc rp = .ok (t', res)) : Reachable t'
  | removeNode {t t' : NetworkTopology} (ht : Reachable t) {r : Rank} {found : Bool}
      (h : t.removeNode r = .ok (t', found)) : Reachable t'
  | addSubGraph {t t' : NetworkTopology} (ht : Reachable t) {irank : Rank} {isg : Text}
      {found : Bool} (h : t.addSubGraph irank isg = .ok (t', found)) : Reachable t'
  | reset {t t' : NetworkTopology} (ht : Reachable t) {isg : Text} (h : t.reset isg = .ok t') :
      Reachable t'

theorem Reachable.links {t : NetworkTopology} (h : Reachable t) : Links t := by
  induction h with
  | create hostName port rank isBackEnd => exact links_create hostName port rank isBackEnd
  | createFrom h => exact links_empty.reset h
  | newNode _ host port isBackEnd hfresh ih => exact ih.newNode host port isBackEnd hfresh
  | setParent _ h ih => exact ih.setParent h
  | removeNode _ h ih => exact ih.removeNode h
  | addSubGraph _ h ih => exact ih.addSubGraph h
  | reset _ h ih => exact ih.reset h

/-- The four views of the links agree on the objects. -/
structure Consistent (t : NetworkTopology) : Prop where
  keyed : ∀ r p, t.nodes.lookup r = some p →
    ∃ node, t.heap.lookup p = some node ∧ node.rank = r
  answered : ∀ c n child node, t.heap.lookup c = some child → t.heap.lookup n = some node →
    (c ∈ node.children ↔ child.parent = some n)
  parent_live : ∀ c child n, t.heap.lookup c = some child → child.parent = some n → t.Live n
  children_live : ∀ n node c, t.heap.lookup n = some node → c ∈ node.children → t.Live c
  orphans : ∀ o ∈ t.orphans, ∃ node, t.heap.lookup o = some node ∧ node.parent = none

lemma Links.consistent {t : NetworkTopology} (h : Links t) : Consistent t := by
  have hparent : ∀ {c child}, t.heap.lookup c = some child → t.parentOf c = child.parent := by
    intro c child hc
    rw [NetworkTopology.parentOf, hc]
    rfl
  have hchildren : ∀ {n node}, t.heap.lookup n = some node → t.childrenOf n = node.children := by
    intro n node hn
    rw [NetworkTopology.childrenOf, hn]
    rfl
  constructor
  · intro r p hp
    exact Option.map_eq_some_iff.mp ((h.keyed r p).mp hp)
  · intro c n child node hc hn
    rw [← hchildren hn, ← hparent hc]
    exact h.answered c n
  · intro c child n hc hn
    exact h.parent_live ((hparent hc).trans hn)
  · intro n node c hn hc
    rw [← hchildren hn] at hc
    exact h.child_live hc
  · intro o ho
    obtain ⟨hlive, hnone⟩ := h.orphans o ho
    obtain ⟨node, hnode⟩ := Option.isSome_iff_exists.mp (Finmap.lookup_isSome.mpr hlive)
    exact ⟨node, hnode, (hparent hnode).symm.trans hnone⟩

/-- In every reachable topology the links are consistent. -/
theorem reachable_consistent {t : NetworkTopology} (h : Reachable t) : Consistent t :=
  h.links.consistent

theorem reachable_consistent_two_nodes :
    ∃ t, Reachable t ∧ t.parentOf 1 = some 0 ∧ Consistent t := by
  have hfresh : (NetworkTopology.create ['a'] 1 0 false).findNode 1 = none := rfl
  have hnew := (Reachable.create ['a'] 1 0 false).newNode ['b'] 2 true hfresh
  obtain ⟨t, hset, hparent⟩ : ∃ t,
      ((NetworkTopology.create ['a'] 1 0 false).newNode ['b'] 2 1 true).setParent 1 0 =
        .ok (t, .moved) ∧ t.parentOf 1 = some 0 := ⟨_, rfl, rfl⟩
  have hreach := hnew.setParent hset
  exact ⟨t, hreach, hparent, reachable_consistent hreach⟩

end MRNet.Topology
