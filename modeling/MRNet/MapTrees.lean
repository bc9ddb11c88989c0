import MRNet.LightweightMap

/-!
# The tree of a lightweight map

What lookups, insertions and the removal of a node do, in terms of the tree that memory holds.
-/
namespace MRNet.LightweightMap
open Codec
open Wire (Run Returns)
open LinkedTrees (LinkTree Context Linked Sorted sorted_node)
open LinkedTrees.LinkTree

/-- What a node holds. -/
structure Entry (α : Type) where
  key : Key
  val : Option α

variable {α : Type}

def Entry.order (e : Entry α) : ℤ := e.key.val

def cellOf (left : Option Ptr) (e : Entry α) (right : Option Ptr) : MapNode α :=
  ⟨left, right, e.key, hashKey e.key, e.val⟩

abbrev MapTree (α : Type) := LinkTree Ptr (Entry α)

/-- A search tree in memory. -/
structure IsTree (m : Memory α) (t : MapTree α) : Prop where
  linked : Linked cellOf m.heap t
  nodup : t.ptrs.Nodup
  fresh : ∀ p ∈ t.ptrs, p < m.nextPtr
  sorted : Sorted Entry.order t

variable {m m' : Memory α} {t : MapTree α} {key : Key} {val : Option α} {e : Entry α}

lemma order_inj {e e' : Entry α} : e.order = e'.order ↔ e.key = e'.key := Subtype.ext_iff.symm

lemma load_eq {p : Ptr} {node : MapNode α} (h : m.heap p = some node) : m.load p = .ok node := by
  rw [Memory.load, h]
  rfl

lemma lift_load {β : Type} {p : Ptr} {node : MapNode α} (h : m.heap p = some node)
    (f : MapNode α → Run β) : (liftM (m.load p) : Run (MapNode α)) >>= f = f node := by
  rw [load_eq h]
  rfl

/-- A step of a lookup, below or at a node. -/
lemma findNode_node {p : Ptr} {l r : MapTree α} (h : m.heap p = some (cellOf l.root e r.root))
    (fuel : ℕ) (parent : Option Ptr) :
    findNodeRecursive (fuel + 1) m (some p) key parent =
      if e.key = key then pure (some p, parent)
      else if key.val < e.order then findNodeRecursive fuel m l.root key (some p)
      else findNodeRecursive fuel m r.root key (some p) := by
  rw [findNodeRecursive, lift_load h]
  rfl

/-- Where an entry is that is not the one of the root. -/
lemma mem_side {p : Ptr} {l r : MapTree α} {x : Entry α} (h : Sorted Entry.order (node p l x r))
    (he : e ∈ (node p l x r).items) (hne : x.key ≠ e.key) :
    (e ∈ l.items ∧ e.key.val < x.order) ∨ (e ∈ r.items ∧ ¬e.key.val < x.order) := by
  obtain ⟨-, -, hl, hr⟩ := sorted_node.mp h
  rw [items, List.mem_append, List.mem_cons] at he
  rcases he with he | rfl | he
  · exact .inl ⟨he, hl e he⟩
  · exact absurd rfl hne
  · exact .inr ⟨he, not_lt.mpr (le_of_lt (hr e he))⟩

theorem findNode_present (h : Linked cellOf m.heap t) (hsorted : Sorted Entry.order t)
    (he : e ∈ t.items) : ∃ c p l r, t = Context.fill (node p l e r) c ∧
      ∀ fuel parent, t.ptrs.length < fuel →
        findNodeRecursive fuel m t.root e.key parent = pure (some p, c.parent.or parent) := by
  induction t with
  | nil => cases he
  | node p l x r ihl ihr =>
      obtain ⟨hl, hr, -, -⟩ := sorted_node.mp hsorted
      by_cases hkey : x.key = e.key
      · have hx : x ∈ (node p l x r).items := by
          rw [items]
          exact List.mem_append_right _ List.mem_cons_self
        obtain rfl := hsorted.inj hx he (order_inj.mpr hkey)
        refine ⟨.top, p, l, r, rfl, fun fuel parent hfuel => ?_⟩
        obtain ⟨fuel, rfl⟩ : ∃ n, fuel = n + 1 := ⟨fuel - 1, by omega⟩
        rw [root_node, findNode_node h.1, if_pos rfl]
        rfl
      · rcases mem_side hsorted he hkey with ⟨he, hlt⟩ | ⟨he, hlt⟩
        · obtain ⟨c, q, l', r', rfl, hfind⟩ := ihl h.2.1 hl he
          refine ⟨.left p c x r, q, l', r', rfl, fun fuel parent hfuel => ?_⟩
          obtain ⟨fuel, rfl⟩ : ∃ n, fuel = n + 1 := ⟨fuel - 1, by omega⟩
          rw [ptrs, List.length_cons, List.length_append] at hfuel
          rw [root_node, findNode_node h.1, if_neg hkey, if_pos hlt, hfind _ _ (by omega),
            Context.parent, Option.or_assoc]
          rfl
        · obtain ⟨c, q, l', r', rfl, hfind⟩ := ihr h.2.2 hr he
          refine ⟨.right p l x c, q, l', r', rfl, fun fuel parent hfuel => ?_⟩
          obtain ⟨fuel, rfl⟩ : ∃ n, fuel = n + 1 := ⟨fuel - 1, by omega⟩
          rw [ptrs, List.length_cons, List.length_append] at hfuel
          rw [root_node, findNode_node h.1, if_neg hkey, if_neg hlt, hfind _ _ (by omega),
            Context.parent, Option.or_assoc]
          rfl

theorem findNode_absent (h : Linked cellOf m.heap t) (habsent : ∀ e ∈ t.items, e.key ≠ key)
    (parent : Option Ptr) : ∃ last, ∀ fuel, t.ptrs.length < fuel →
      findNodeRecursive fuel m t.root key parent = pure (none, last) := by
  induction t generalizing parent with
  | nil =>
      refine ⟨parent, fun fuel hfuel => ?_⟩
      obtain ⟨fuel, rfl⟩ : ∃ n, fuel = n + 1 := ⟨fuel - 1, by omega⟩
      rfl
  | node p l x r ihl ihr =>
      rw [items, List.forall_mem_append, List.forall_mem_cons] at habsent
      by_cases hlt : key.val < x.order
      · obtain ⟨last, hfind⟩ := ihl h.2.1 habsent.1 (some p)
        refine ⟨last, fun fuel hfuel => ?_⟩
        obtain ⟨fuel, rfl⟩ : ∃ n, fuel = n + 1 := ⟨fuel - 1, by omega⟩
        rw [ptrs, List.length_cons, List.length_append] at hfuel
        rw [root_node, findNode_node h.1, if_neg habsent.2.1, if_pos hlt, hfind _ (by omega)]
      · obtain ⟨last, hfind⟩ := ihr h.2.2 habsent.2.2 (some p)
        refine ⟨last, fun fuel hfuel => ?_⟩
        obtain ⟨fuel, rfl⟩ : ∃ n, fuel = n + 1 := ⟨fuel - 1, by omega⟩
        rw [ptrs, List.length_cons, List.length_append] at hfuel
        rw [root_node, findNode_node h.1, if_neg habsent.2.1, if_neg hlt, hfind _ (by omega)]

/-- A tree that got one more entry, in a new node. -/
structure Grown (m m' : Memory α) (t t' : MapTree α) (e : Entry α) : Prop where
  linked : Linked cellOf m'.heap t'
  ptrs : t'.ptrs.Perm (m.nextPtr :: t.ptrs)
  items : t'.items.Perm (e :: t.items)
  nextPtr : m'.nextPtr = m.nextPtr + 1
  frame : ∀ q, q ∉ t.ptrs → q ≠ m.nextPtr → m'.heap q = m.heap q
  sorted : Sorted Entry.order t'

/-- A step of an insertion below a node. -/
lemma insertRecursive_node {p : Ptr} {l r : MapTree α} {x : Entry α}
    (h : m.heap p = some (cellOf l.root x r.root)) (hne : x.key ≠ key) (fuel : ℕ) :
    insertRecursive (fuel + 1) m (some p) key (hashKey key) val =
      if key.val < x.order then do
        let (m, left) ← insertRecursive fuel m l.root key (hashKey key) val
        let node ← liftM (m.load p)
        return (m.store p { node with left }, some p)
      else do
        let (m, right) ← insertRecursive fuel m r.root key (hashKey key) val
        let node ← liftM (m.load p)
        return (m.store p { node with right }, some p) := by
  rw [insertRecursive, lift_load h]
  exact if_neg (Ne.symm hne)

lemma store_other {p q : Ptr} {node : MapNode α} (h : q ≠ p) :
    (m.store p node).heap q = m.heap q := Function.update_of_ne h _ _

lemma store_self {p : Ptr} {node : MapNode α} : (m.store p node).heap p = some node :=
  Function.update_self _ _ _

theorem insertRecursive_absent (h : IsTree m t) (habsent : ∀ e ∈ t.items, e.key ≠ key) :
    ∃ m' t', Grown m m' t t' ⟨key, val⟩ ∧ ∀ fuel, t.ptrs.length < fuel →
      insertRecursive fuel m t.root key (hashKey key) val = pure (m', t'.root) := by
  induction t with
  | nil =>
      refine ⟨(m.malloc ⟨none, none, key, hashKey key, val⟩).1,
        node m.nextPtr nil ⟨key, val⟩ nil, ⟨⟨store_self, trivial, trivial⟩, .rfl, .rfl, rfl,
          fun q _ hq => store_other hq, List.pairwise_singleton _ _⟩, fun fuel hfuel => ?_⟩
      obtain ⟨fuel, rfl⟩ : ∃ n, fuel = n + 1 := ⟨fuel - 1, by omega⟩
      rfl
  | node p l x r ihl ihr =>
      obtain ⟨hsl, hsr, hlx, hxr⟩ := sorted_node.mp h.sorted
      obtain ⟨hcell, hll, hlr⟩ := h.linked
      have hnodup := List.nodup_cons.mp h.nodup
      obtain ⟨hnl, hnr, hdisjoint⟩ := List.nodup_append.mp hnodup.2
      have hfresh := h.fresh
      rw [ptrs, List.forall_mem_cons, List.forall_mem_append] at hfresh
      rw [items, List.forall_mem_append, List.forall_mem_cons] at habsent
      by_cases hlt : key.val < x.order
      · obtain ⟨m', l', hgrown, hrun⟩ := ihl ⟨hll, hnl, hfresh.2.1, hsl⟩ habsent.1
        have hp : p ∉ l.ptrs := fun hp => hnodup.1 (List.mem_append_left _ hp)
        have hcell' : m'.heap p = some (cellOf l.root x r.root) :=
          (hgrown.frame p hp (ne_of_lt hfresh.1)).trans hcell
        have hpl' : p ∉ l'.ptrs := by
          rw [hgrown.ptrs.mem_iff, List.mem_cons, not_or]
          exact ⟨ne_of_lt hfresh.1, hp⟩
        refine ⟨m'.store p (cellOf l'.root x r.root), node p l' x r,
          ⟨⟨store_self, hgrown.linked.congr fun q hq => ?_, hlr.congr fun q hq => ?_⟩, ?_, ?_,
            hgrown.nextPtr, fun q hq hne => ?_, ?_⟩, fun fuel hfuel => ?_⟩
        · exact store_other fun heq => hpl' (heq ▸ hq)
        · have hqp : q ≠ p := fun heq => hnodup.1 (List.mem_append_right _ (heq ▸ hq))
          rw [store_other hqp]
          exact hgrown.frame q (fun hq' => hdisjoint q hq' q hq rfl) (ne_of_lt (hfresh.2.2 q hq))
        · exact ((hgrown.ptrs.append_right r.ptrs).cons p).trans (List.Perm.swap _ _ _)
        · exact hgrown.items.append_right (x :: r.items)
        · rw [ptrs, List.mem_cons, List.mem_append, not_or, not_or] at hq
          rw [store_other hq.1]
          exact hgrown.frame q hq.2.1 hne
        · refine sorted_node.mpr ⟨hgrown.sorted, hsr, fun y hy => ?_, hxr⟩
          rcases List.mem_cons.mp (hgrown.items.mem_iff.mp hy) with rfl | hy
          · exact hlt
          · exact hlx y hy
        · obtain ⟨fuel, rfl⟩ : ∃ n, fuel = n + 1 := ⟨fuel - 1, by omega⟩
          rw [ptrs, List.length_cons, List.length_append] at hfuel
          rw [root_node, insertRecursive_node hcell habsent.2.1, if_pos hlt, hrun _ (by omega),
            pure_bind]
          dsimp only
          rw [lift_load hcell']
          rfl
      · obtain ⟨m', r', hgrown, hrun⟩ := ihr ⟨hlr, hnr, hfresh.2.2, hsr⟩ habsent.2.2
        have hp : p ∉ r.ptrs := fun hp => hnodup.1 (List.mem_append_right _ hp)
        have hcell' : m'.heap p = some (cellOf l.root x r.root) :=
          (hgrown.frame p hp (ne_of_lt hfresh.1)).trans hcell
        have hpr' : p ∉ r'.ptrs := by
          rw [hgrown.ptrs.mem_iff, List.mem_cons, not_or]
          exact ⟨ne_of_lt hfresh.1, hp⟩
        refine ⟨m'.store p (cellOf l.root x r'.root), node p l x r',
          ⟨⟨store_self, hll.congr fun q hq => ?_, hgrown.linked.congr fun q hq => ?_⟩, ?_, ?_,
            hgrown.nextPtr, fun q hq hne => ?_, ?_⟩, fun fuel hfuel => ?_⟩
        · have hqp : q ≠ p := fun heq => hnodup.1 (List.mem_append_left _ (heq ▸ hq))
          rw [store_other hqp]
          exact hgrown.frame q (fun hq' => hdisjoint q hq q hq' rfl) (ne_of_lt (hfresh.2.1 q hq))
        · exact store_other fun heq => hpr' (heq ▸ hq)
        · have hmiddle : (l.ptrs ++ r'.ptrs).Perm (m.nextPtr :: (l.ptrs ++ r.ptrs)) :=
            (hgrown.ptrs.append_left l.ptrs).trans List.perm_middle
          exact (hmiddle.cons p).trans (List.Perm.swap _ _ _)
        · have hmiddle : (l.items ++ x :: r'.items).Perm (l.items ++ ⟨key, val⟩ :: x :: r.items) :=
            ((hgrown.items.cons x).trans (List.Perm.swap _ _ _)).append_left l.items
          exact hmiddle.trans List.perm_middle
        · rw [ptrs, List.mem_cons, List.mem_append, not_or, not_or] at hq
          rw [store_other hq.1]
          exact hgrown.frame q hq.2.2 hne
        · refine sorted_node.mpr ⟨hsl, hgrown.sorted, hlx, fun y hy => ?_⟩
          rcases List.mem_cons.mp (hgrown.items.mem_iff.mp hy) with rfl | hy
          · exact lt_of_le_of_ne (not_lt.mp hlt) fun heq => habsent.2.1 (order_inj.mp heq)
          · exact hxr y hy
        · obtain ⟨fuel, rfl⟩ : ∃ n, fuel = n + 1 := ⟨fuel - 1, by omega⟩
          rw [ptrs, List.length_cons, List.length_append] at hfuel
          rw [root_node, insertRecursive_node hcell habsent.2.1, if_neg hlt, hrun _ (by omega),
            pure_bind]
          dsimp only
          rw [lift_load hcell']
          rfl

/-- The tree is a search tree afterwards. -/
lemma Grown.isTree {t' : MapTree α} (h : Grown m m' t t' e) (ht : IsTree m t) : IsTree m' t' := by
  refine ⟨h.linked, ?_, fun p hp => ?_, h.sorted⟩
  · rw [h.ptrs.nodup_iff, List.nodup_cons]
    exact ⟨fun hmem => lt_irrefl _ (ht.fresh _ hmem), ht.nodup⟩
  · rw [h.nextPtr]
    rcases List.mem_cons.mp (h.ptrs.mem_iff.mp hp) with rfl | hp
    · exact Nat.lt_succ_self _
    · exact (ht.fresh p hp).trans (Nat.lt_succ_self _)

end MRNet.LightweightMap
