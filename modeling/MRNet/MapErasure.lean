import MRNet.MapTrees

/-!
# Erasure from a lightweight map

A node is taken out of the tree: a leaf by the link to it, a node with one subtree by taking over
its root, and a node with two by taking over the last node of the left one. The keys are shifted.
-/
namespace MRNet.LightweightMap
open Codec
open Wire (Run Returns)
open LinkedTrees (LinkTree Context Linked Sorted sorted_node)
open LinkedTrees.LinkTree

variable {α : Type} {m m' : Memory α} {t l r : MapTree α} {c : Context Ptr (Entry α)} {p : Ptr}
  {key : Key} {e : Entry α}

lemma free_other {q : Ptr} (h : q ≠ p) : (m.free p).heap q = m.heap q :=
  Function.update_of_ne h _ _

/-- A tree that lost a node and its entry. -/
structure Shrunk (m m' : Memory α) (t t' : MapTree α) (before : List (Entry α)) (e : Entry α)
    (after : List (Entry α)) : Prop where
  linked : Linked cellOf m'.heap t'
  ptrs : ∃ gone, t.ptrs.Perm (gone :: t'.ptrs)
  items : t.items = before ++ e :: after
  items' : t'.items = before ++ after
  nextPtr : m'.nextPtr = m.nextPtr

/-- The last node of a tree. -/
lemma rightmost_spec (h : Linked cellOf m.heap t) (hne : t ≠ nil) :
    ∃ c tmp s y, t = Context.fill (node tmp s y nil) c ∧ c.after = [] ∧
      ∀ root, t.root = some root → ∀ fuel parent, t.ptrs.length < fuel →
        rightmost fuel m root parent = pure (tmp, c.parent.getD parent) := by
  induction t with
  | nil => exact absurd rfl hne
  | node p l x r _ ihr =>
      obtain ⟨hcell, -, hr⟩ := h
      cases r with
      | nil =>
          refine ⟨.top, p, l, x, rfl, rfl, fun root hroot fuel parent hfuel => ?_⟩
          cases hroot
          obtain ⟨fuel, rfl⟩ : ∃ n, fuel = n + 1 := ⟨fuel - 1, by omega⟩
          rw [rightmost, lift_load hcell]
          rfl
      | node q l' x' r' =>
          obtain ⟨c, tmp, s, y, heq, hafter, hrun⟩ := ihr hr (nofun)
          refine ⟨.right p l x c, tmp, s, y, by rw [heq]; rfl, hafter,
            fun root hroot fuel parent hfuel => ?_⟩
          cases hroot
          obtain ⟨fuel, rfl⟩ : ∃ n, fuel = n + 1 := ⟨fuel - 1, by omega⟩
          have hlength : (node q l' x' r').ptrs.length < fuel := by
            rw [ptrs, List.length_cons, List.length_append] at hfuel
            omega
          rw [rightmost, lift_load hcell]
          refine (hrun q rfl fuel p hlength).trans ?_
          rw [Context.parent]
          cases c.parent <;> rfl

/-- The link of the node above the hole is set. -/
lemma relink_spec {s s' : MapTree α} {q : Ptr} (h : Linked cellOf m.heap (c.fill s))
    (hnodup : (c.fill s).ptrs.Nodup) (hq : c.parent = some q) (hp : s.root = some p)
    (hs' : Linked cellOf m.heap s') (hsub : ∀ p ∈ s'.ptrs, p ∈ s.ptrs) :
    ∃ m', relink m q p s'.root = .ok m' ∧ Linked cellOf m'.heap (c.fill s') ∧
      m'.nextPtr = m.nextPtr ∧ ∀ p, p ≠ q → m'.heap p = m.heap p := by
  obtain ⟨a, x, b, hcell, hset⟩ := h.relink hnodup hq hp
  have hqs : q ∉ s'.ptrs := by
    intro hmem
    have hsplit := ((Context.ptrs_fill c s).nodup_iff).mp hnodup
    exact (List.nodup_append.mp hsplit).2.2 q (Context.parent_mem hq) q (hsub q hmem) rfl
  have hrun : relink m q p s'.root = .ok (m.store q
      (if a = some p then cellOf s'.root x b else cellOf a x s'.root)) := by
    rw [relink, load_eq hcell, ok_bind]
    rfl
  refine ⟨_, hrun, hset _ s' store_self (fun p _ hne => store_other hne)
    (hs'.congr fun p hp => store_other fun heq => hqs (heq ▸ hp)), rfl,
    fun p hne => store_other hne⟩

/-- A node takes over the root of its only subtree. -/
lemma promote_spec {s l₁ r₁ : MapTree α} {p₁ : Ptr} {y : Entry α}
    (h : Linked cellOf m.heap (c.fill s)) (hnodup : (c.fill s).ptrs.Nodup) (hp : s.root = some p)
    (hchild : Linked cellOf m.heap (node p₁ l₁ y r₁))
    (hptrs : s.ptrs.Perm (p :: (node p₁ l₁ y r₁).ptrs)) :
    Linked cellOf ((m.store p (cellOf l₁.root y r₁.root)).free p₁).heap
      (c.fill (node p l₁ y r₁)) ∧
      (c.fill s).ptrs.Perm (p₁ :: (c.fill (node p l₁ y r₁)).ptrs) := by
  have hall : (c.fill s).ptrs.Perm (c.ptrs ++ (p :: p₁ :: (l₁.ptrs ++ r₁.ptrs))) :=
    (Context.ptrs_fill c s).trans (hptrs.append_left _)
  obtain ⟨-, hs, hout⟩ := List.nodup_append.mp (hall.nodup_iff.mp hnodup)
  rw [List.nodup_cons, List.nodup_cons, List.mem_cons, not_or] at hs
  constructor
  · have hframe : ∀ q, q ≠ p → q ≠ p₁ →
        ((m.store p (cellOf l₁.root y r₁.root)).free p₁).heap q = m.heap q := fun q hq hq₁ =>
      (free_other hq₁).trans (store_other hq)
    refine h.replace hp.symm (fun q hq => hframe q ?_ ?_) ⟨?_, hchild.2.1.congr fun q hq => ?_,
      hchild.2.2.congr fun q hq => ?_⟩
    · exact fun heq => hout q hq p List.mem_cons_self heq
    · exact fun heq => hout q hq p₁ (List.mem_cons_of_mem _ List.mem_cons_self) heq
    · exact (free_other hs.1.1).trans store_self
    · have hmem := List.mem_append_left r₁.ptrs hq
      exact hframe q (fun heq => hs.1.2 (heq ▸ hmem)) fun heq => hs.2.1 (heq ▸ hmem)
    · have hmem := List.mem_append_right l₁.ptrs hq
      exact hframe q (fun heq => hs.1.2 (heq ▸ hmem)) fun heq => hs.2.1 (heq ▸ hmem)
  · have hnew := (Context.ptrs_fill c (node p l₁ y r₁)).symm
    refine hall.trans (List.Perm.trans ?_ (hnew.cons p₁))
    exact ((List.Perm.swap _ _ _).append_left c.ptrs).trans List.perm_middle

section EraseNode
variable (ht : IsTree m t) (hfill : t = c.fill (node p l e r))
include hfill

lemma items_before_after : t.items = (c.before ++ l.items) ++ e :: (r.items ++ c.after) := by
  rw [hfill, Context.items_fill, items]
  simp

include ht

lemma eraseNode_leaf (hl : l = nil) (hr : r = nil) :
    ∃ m' t', Shrunk m m' t t' (c.before ++ l.items) e (r.items ++ c.after) ∧
      ∀ fuel, eraseNode fuel m t.root c.parent p = pure (m', t'.root) := by
  have hitems := items_before_after hfill
  subst hl hr hfill
  have hcell := ht.linked.hole.1
  have hrun : ∀ fuel, eraseNode fuel m (c.fill (node p nil e nil)).root c.parent p =
      c.parent.elim (pure (m.free p, none)) fun parent => do
        let m ← liftM (relink m parent p none)
        return (m.free p, (c.fill (node p nil e nil)).root) := by
    intro fuel
    unfold eraseNode
    rw [lift_load hcell]
    cases c.parent <;> rfl
  have hperm : (c.fill (node p nil e nil)).ptrs.Perm (p :: (c.fill nil).ptrs) := by
    refine (Context.ptrs_fill c _).trans (List.perm_middle.trans ?_)
    exact ((Context.ptrs_fill c nil).symm).cons p
  cases hparent : c.parent with
  | none =>
      rw [Context.parent_eq_none_iff] at hparent
      subst hparent
      exact ⟨m.free p, nil, ⟨trivial, ⟨p, hperm⟩, hitems, rfl, rfl⟩, hrun⟩
  | some q =>
      obtain ⟨m₁, hrelink, hlinked, hnext, -⟩ := relink_spec ht.linked ht.nodup hparent rfl
        (show Linked cellOf m.heap nil from trivial) (fun p hp => absurd hp List.not_mem_nil)
      have hgone : p ∉ (c.fill nil).ptrs :=
        (List.nodup_cons.mp (hperm.nodup_iff.mp ht.nodup)).1
      refine ⟨m₁.free p, c.fill nil, ⟨hlinked.congr fun q hq => free_other fun heq =>
        hgone (heq ▸ hq), ⟨p, hperm⟩, hitems, ?_, hnext⟩, fun fuel => ?_⟩
      · rw [Context.items_fill]
        simp [items]
      · have hne : c ≠ .top := by
          rintro rfl
          cases hparent
        rw [← hparent, hrun, hparent, Option.elim_some]
        rw [show relink m q p none = .ok m₁ from hrelink,
          Context.root_fill_of_ne_top hne (node p nil e nil) nil]
        rfl

lemma eraseNode_left {p₁ : Ptr} {l₁ r₁ : MapTree α} {y : Entry α} (hl : l = node p₁ l₁ y r₁)
    (hr : r = nil) :
    ∃ m' t', Shrunk m m' t t' (c.before ++ l.items) e (r.items ++ c.after) ∧
      ∀ fuel, eraseNode fuel m t.root c.parent p = pure (m', t'.root) := by
  have hitems := items_before_after hfill
  subst hl hr hfill
  obtain ⟨hcell, hchild, -⟩ := ht.linked.hole
  obtain ⟨hlinked, hperm⟩ := promote_spec ht.linked ht.nodup rfl hchild
    (by rw [ptrs, ptrs, List.append_nil])
  refine ⟨_, _, ⟨hlinked, ⟨p₁, hperm⟩, hitems, ?_, rfl⟩, fun fuel => ?_⟩
  · rw [Context.items_fill]
    simp [items]
  · unfold eraseNode
    rw [lift_load hcell]
    have hload := lift_load hchild.1 fun promoted =>
      (pure ((m.store p promoted).free p₁, (c.fill (node p (node p₁ l₁ y r₁) e nil)).root) :
        Run (Memory α × Option Ptr))
    refine hload.trans ?_
    have hsame : (node p l₁ y r₁).root = (node p (node p₁ l₁ y r₁) e nil).root := rfl
    have hroot := Context.root_fill hsame c
    rw [hroot]

lemma eraseNode_right {p₁ : Ptr} {l₁ r₁ : MapTree α} {y : Entry α} (hl : l = nil)
    (hr : r = node p₁ l₁ y r₁) :
    ∃ m' t', Shrunk m m' t t' (c.before ++ l.items) e (r.items ++ c.after) ∧
      ∀ fuel, eraseNode fuel m t.root c.parent p = pure (m', t'.root) := by
  have hitems := items_before_after hfill
  subst hl hr hfill
  obtain ⟨hcell, -, hchild⟩ := ht.linked.hole
  obtain ⟨hlinked, hperm⟩ := promote_spec ht.linked ht.nodup rfl hchild .rfl
  refine ⟨_, _, ⟨hlinked, ⟨p₁, hperm⟩, hitems, ?_, rfl⟩, fun fuel => ?_⟩
  · rw [Context.items_fill]
    simp [items]
  · unfold eraseNode
    rw [lift_load hcell]
    have hload := lift_load hchild.1 fun promoted =>
      (pure ((m.store p promoted).free p₁, (c.fill (node p nil e (node p₁ l₁ y r₁))).root) :
        Run (Memory α × Option Ptr))
    refine hload.trans ?_
    have hsame : (node p l₁ y r₁).root = (node p nil e (node p₁ l₁ y r₁)).root := rfl
    have hroot := Context.root_fill hsame c
    rw [hroot]

lemma eraseNode_both (hl : l ≠ nil) (hr : r ≠ nil) :
    ∃ m' t', Shrunk m m' t t' (c.before ++ l.items) e (r.items ++ c.after) ∧
      ∀ fuel, t.ptrs.length < fuel → eraseNode fuel m t.root c.parent p = pure (m', t'.root) := by
  have hitems := items_before_after hfill
  have hlinked := ht.linked
  have hnodup := ht.nodup
  rw [hfill] at hlinked hnodup
  obtain ⟨hcell, hleft, hright⟩ := hlinked.hole
  obtain ⟨c₁, tmp, s, y, hsplit, hafter, hrightmost⟩ := rightmost_spec hleft hl
  have hpromoted : m.heap tmp = some (cellOf s.root y none) := by
    rw [hsplit] at hleft
    exact hleft.hole.1
  -- the hole is where the promoted node is
  have hwhole : c.fill (node p l e r) =
      (c.comp (.left p c₁ e r)).fill (node tmp s y nil) := by
    rw [Context.fill_comp, Context.fill, ← hsplit]
  have hparent : (c.comp (.left p c₁ e r)).parent = some (c₁.parent.getD p) := by
    rw [Context.parent_comp, Context.parent]
    cases c₁.parent <;> rfl
  have hs : Linked cellOf m.heap s := by
    rw [hsplit] at hleft
    exact hleft.hole.2.1
  rw [hwhole] at hlinked hnodup
  obtain ⟨m₁, hrelink, hlinked₁, hnext, -⟩ := relink_spec hlinked hnodup hparent rfl hs
    fun q hq => List.mem_cons_of_mem _ (List.mem_append_left _ hq)
  rw [Context.fill_comp, Context.fill] at hlinked₁
  have hcell₁ := hlinked₁.hole.1
  have hperm : t.ptrs.Perm (tmp :: (c.fill (node p (c₁.fill s) y r)).ptrs) := by
    have hinner : l.ptrs.Perm (tmp :: (c₁.fill s).ptrs) := by
      rw [hsplit]
      refine (Context.ptrs_fill c₁ _).trans ?_
      rw [ptrs, ptrs, List.append_nil]
      exact List.perm_middle.trans ((Context.ptrs_fill c₁ s).symm.cons tmp)
    have hnode : (node p l e r).ptrs.Perm (tmp :: (node p (c₁.fill s) y r).ptrs) :=
      ((hinner.append_right r.ptrs).cons p).trans (List.Perm.swap _ _ _)
    rw [hfill]
    refine (Context.ptrs_fill c _).trans ((hnode.append_left c.ptrs).trans ?_)
    exact List.perm_middle.trans ((Context.ptrs_fill c _).symm.cons tmp)
  have hnodup' := List.nodup_cons.mp (hperm.nodup_iff.mp ht.nodup)
  obtain ⟨-, hnp, hout⟩ := List.nodup_append.mp ((Context.ptrs_fill c _).nodup_iff.mp hnodup'.2)
  rw [ptrs, List.nodup_cons] at hnp
  have hlinked₂ : Linked cellOf (m₁.store p (cellOf (c₁.fill s).root y r.root)).heap
      (c.fill (node p (c₁.fill s) y r)) := by
    refine hlinked₁.replace rfl (fun q hq => store_other ?_) ⟨store_self,
      hlinked₁.hole.2.1.congr fun q hq => store_other ?_,
      hlinked₁.hole.2.2.congr fun q hq => store_other ?_⟩
    · exact fun heq => hout q hq p List.mem_cons_self heq
    · exact fun heq => hnp.1 (List.mem_append_left _ (heq ▸ hq))
    · exact fun heq => hnp.1 (List.mem_append_right _ (heq ▸ hq))
  refine ⟨(m₁.store p (cellOf (c₁.fill s).root y r.root)).free tmp,
    c.fill (node p (c₁.fill s) y r), ⟨hlinked₂.congr fun q hq => free_other ?_, ⟨tmp, hperm⟩,
      hitems, ?_, hnext⟩, fun fuel hfuel => ?_⟩
  · exact fun heq => hnodup'.1 (heq ▸ hq)
  · rw [Context.items_fill, items, hsplit, Context.items_fill, Context.items_fill, hafter]
    simp [items]
  · have hfuel' : l.ptrs.length < fuel := by
      have hlength := (Context.ptrs_fill c (node p l e r)).length_eq
      rw [← hfill, List.length_append, ptrs, List.length_cons, List.length_append] at hlength
      omega
    obtain ⟨a, ha⟩ := Option.ne_none_iff_exists'.mp (mt root_eq_none_iff.mp hl)
    obtain ⟨b, hb⟩ := Option.ne_none_iff_exists'.mp (mt root_eq_none_iff.mp hr)
    have hsame : (node p (c₁.fill s) y r).root = (node p l e r).root := rfl
    have hroot : (c.fill (node p (c₁.fill s) y r)).root = t.root := by
      rw [hfill]
      exact Context.root_fill hsame c
    rw [hroot]
    unfold eraseNode
    rw [lift_load hcell]
    dsimp only [cellOf]
    rw [ha, hb]
    dsimp only
    rw [hrightmost a ha fuel p hfuel', pure_bind]
    dsimp only
    rw [lift_load hpromoted]
    change (liftM (relink m (c₁.parent.getD p) tmp s.root) : Run (Memory α)) >>= _ = _
    rw [hrelink]
    change (liftM (m₁.load p) : Run (MapNode α)) >>= _ = _
    rw [lift_load hcell₁, hb]
    rfl

/-- The node of an entry is taken out, and no other entry. -/
theorem eraseNode_spec :
    ∃ m' t', Shrunk m m' t t' (c.before ++ l.items) e (r.items ++ c.after) ∧
      ∀ fuel, t.ptrs.length < fuel → eraseNode fuel m t.root c.parent p = pure (m', t'.root) := by
  cases hl : l with
  | nil =>
      cases hr : r with
      | nil =>
          obtain ⟨m', t', hshrunk, hrun⟩ := eraseNode_leaf ht hfill hl hr
          rw [hl, hr] at hshrunk
          exact ⟨m', t', hshrunk, fun fuel _ => hrun fuel⟩
      | node p₁ l₁ y r₁ =>
          obtain ⟨m', t', hshrunk, hrun⟩ := eraseNode_right ht hfill hl hr
          rw [hl, hr] at hshrunk
          exact ⟨m', t', hshrunk, fun fuel _ => hrun fuel⟩
  | node p₁ l₁ y r₁ =>
      cases hr : r with
      | nil =>
          obtain ⟨m', t', hshrunk, hrun⟩ := eraseNode_left ht hfill hl hr
          rw [hl, hr] at hshrunk
          exact ⟨m', t', hshrunk, fun fuel _ => hrun fuel⟩
      | node p₂ l₂ z r₂ =>
          rw [← hl, ← hr]
          exact eraseNode_both ht hfill (by rw [hl]; nofun) (by rw [hr]; nofun)

end EraseNode

end MRNet.LightweightMap
