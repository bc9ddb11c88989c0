import MRNet.KnomialRounds

/-!
# The nodes and edges of a k-nomial tree

Every slot that is dealt out becomes a child, and the parents are the first slots. The edges
grow from the root, so the verdict on the tree depends on its names only.
-/
namespace MRNet.TopologyFile
open Codec DepthFirst
open Wire (Run Returns)
open Std (TreeMap)

namespace KnomialTree

variable {kids target : ℕ} {used children hostids next : List Name} {root : Name}

/-- A node is a child of the parent to which it is given. -/
def edgesOf (writes : Writes) : List (Name × Name) := writes.flatMap fun w => w.2.map (w.1, ·)

lemma mem_edgesOf {writes : Writes} {p c : Name} :
    (p, c) ∈ edgesOf writes ↔ ∃ cs, (p, cs) ∈ writes ∧ c ∈ cs := by
  simp only [edgesOf, List.mem_flatMap, List.mem_map, Prod.mk.injEq, Prod.exists]
  constructor
  · rintro ⟨_, cs, hw, _, hc, rfl, rfl⟩
    exact ⟨cs, hw, hc⟩
  · rintro ⟨cs, hw, hc⟩
    exact ⟨p, cs, hw, c, hc, rfl, rfl⟩

lemma edgesOf_append (writes more : Writes) :
    edgesOf (writes ++ more) = edgesOf writes ++ edgesOf more :=
  List.flatMap_append

lemma snd_edgesOf (writes : Writes) : (edgesOf writes).map Prod.snd = writes.flatMap Prod.snd := by
  rw [edgesOf, List.map_flatMap]
  refine List.flatMap_congr fun w _ => ?_
  rw [List.map_map]
  exact List.map_id _

/-- How many parents some children need. -/
def parents (kids n : ℕ) : ℕ := (n + kids - 1) / kids

lemma parents_step {n : ℕ} (hkids : 0 < kids) (hn : 0 < n) :
    parents kids n = parents kids (n - kids) + 1 := by
  unfold parents
  by_cases hle : kids ≤ n
  · rw [show n + kids - 1 = n - kids + kids - 1 + kids by omega, Nat.add_div_right _ hkids]
  · have hzero : (n - kids + kids - 1) / kids = 0 := Nat.div_eq_of_lt (by omega)
    rw [hzero]
    exact Nat.div_eq_of_lt_le (by omega) (by omega)

lemma parents_mul (hkids : 0 < kids) (n : ℕ) : parents kids (n * kids) = n :=
  Nat.div_eq_of_lt_le (by omega) (by rw [Nat.succ_mul]; omega)

lemma dealt (hkids : 0 < kids) (used children : List Name)
    (hroom : children.length ≤ used.length * kids) :
    (dealOut kids used children).flatMap Prod.snd = children ∧
      (dealOut kids used children).map Prod.fst = used.take (parents kids children.length) := by
  induction used generalizing children with
  | nil =>
      obtain rfl : children = [] := List.eq_nil_of_length_eq_zero (by simpa using hroom)
      simp [dealOut]
  | cons parent used ih =>
      cases hchildren : children with
      | nil =>
          have hzero : parents kids 0 = 0 := Nat.div_eq_of_lt (by omega)
          simp [dealOut, hzero]
      | cons child more =>
          rw [← hchildren]
          have hne : children ≠ [] := by simp [hchildren]
          rw [List.length_cons, Nat.succ_mul] at hroom
          obtain ⟨hall, hfst⟩ := ih (children.drop kids) (by rw [List.length_drop]; omega)
          rw [dealOut_cons hne, List.flatMap_cons, hall, List.map_cons, hfst,
            parents_step hkids (List.length_pos_iff.mpr hne), List.take_succ_cons, List.length_drop]
          exact ⟨List.take_append_drop kids children, rfl⟩

lemma dealt_each (hkids : 0 < kids) {w : Name × List Name} (hw : w ∈ dealOut kids used children) :
    w.1 ∈ used ∧ w.2 ≠ [] ∧ w.2.length ≤ kids := by
  induction used generalizing children with
  | nil => cases hw
  | cons parent used ih =>
      cases hchildren : children with
      | nil => rw [hchildren] at hw; cases hw
      | cons child more =>
          have hne : children ≠ [] := by simp [hchildren]
          rw [dealOut_cons hne] at hw
          rcases List.mem_cons.mp hw with rfl | hw
          · refine ⟨by simp, ?_, List.length_take_le _ _⟩
            simp only [ne_eq, List.take_eq_nil_iff, hne, or_false]
            omega
          · obtain ⟨hmem, hrest⟩ := ih hw
            exact ⟨List.mem_cons_of_mem _ hmem, hrest⟩

/-- The rounds before have reached some of the slots. -/
structure Reached (root : Name) (slots : List Name) (givers : ℕ) (hostids : List Name)
    (rounds : List Writes) : Prop where
  grown : Grown root (edgesOf rounds.flatten)
  targets : root :: (edgesOf rounds.flatten).map Prod.snd = slots
  givers_iff : ∀ p, p ∈ rounds.flatten.map Prod.fst ↔ p ∈ hostids.take givers
  some_children : ∀ w ∈ rounds.flatten, w.2 ≠ []

lemma Reached.nil : Reached root [root] 0 hostids [] := by
  refine ⟨.nil, rfl, ?_, ?_⟩ <;> simp

lemma Reached.round {slots used : List Name} {givers p : ℕ} {rounds : List Writes}
    (h : Reached root slots givers hostids rounds) (hkids : 0 < kids) (children : List Name)
    (hused : used ⊆ slots) (hroom : children.length ≤ used.length * kids) (hp : used = hostids.take p) :
    Reached root (slots ++ children) (max givers (min p (parents kids children.length))) hostids
      (rounds ++ [dealOut kids used children]) := by
  obtain ⟨hall, hfst⟩ := dealt hkids used children hroom
  have hflatten : (rounds ++ [dealOut kids used children]).flatten =
      rounds.flatten ++ dealOut kids used children := by simp
  refine ⟨?_, ?_, fun q => ?_, fun w hw => ?_⟩
  · rw [hflatten, edgesOf_append]
    refine h.grown.append fun e he => ?_
    obtain ⟨cs, hw, -⟩ := mem_edgesOf.mp (show (e.1, e.2) ∈ _ from he)
    have hmem := hused (dealt_each hkids hw).1
    rw [← h.targets] at hmem
    exact List.mem_cons.mp hmem
  · rw [hflatten, edgesOf_append, List.map_append, ← List.cons_append, h.targets, snd_edgesOf, hall]
  · rw [hflatten, List.map_append, List.mem_append, h.givers_iff, hfst, hp, List.take_take]
    rcases le_total givers (min p (parents kids children.length)) with hle | hle
    · rw [max_eq_right hle, Nat.min_comm p]
      exact ⟨fun hq => hq.elim (fun hq => List.take_subset_take_left _ (by omega) hq) id, .inr⟩
    · rw [max_eq_left hle, Nat.min_comm]
      exact ⟨fun hq => hq.elim id fun hq => List.take_subset_take_left _ hle hq, .inl⟩
  · rw [hflatten, List.mem_append] at hw
    exact hw.elim (h.some_children w) fun hw => (dealt_each hkids hw).2.1

lemma reached_full (hkids : 0 < kids) (hroot : hostids.head? = some root) (d : ℕ)
    (hd : (kids + 1) ^ d ≤ hostids.length) :
    Reached root (hostids.take ((kids + 1) ^ d)) ((kids + 1) ^ d / (kids + 1)) hostids
      (fullRounds kids hostids d) := by
  induction d with
  | zero =>
      obtain ⟨rest, rfl⟩ : ∃ rest, hostids = root :: rest := List.head?_eq_some_iff.mp hroot
      have hnone : 1 / (kids + 1) = 0 := Nat.div_eq_of_lt (by omega)
      rw [pow_zero, hnone]
      exact .nil
  | succ d ih =>
      have hpow : (kids + 1) ^ (d + 1) = (kids + 1) ^ d + (kids + 1) ^ d * kids := by
        rw [pow_succ, Nat.mul_succ, Nat.add_comm]
      obtain ⟨p, hp⟩ : ∃ p, p = (kids + 1) ^ d := ⟨_, rfl⟩
      rw [← hp] at ih hpow
      have hlength : ((hostids.drop p).take (p * kids)).length = p * kids := by
        rw [List.length_take, List.length_drop]
        omega
      have hround := (ih (by omega)).round hkids _ (List.Subset.refl _)
        (by rw [hlength, List.length_take_of_le (by omega)]) rfl
      have hgivers : max (p / (kids + 1)) p = (kids + 1) ^ (d + 1) / (kids + 1) := by
        rw [max_eq_right (Nat.div_le_self _ _), pow_succ, ← hp,
          Nat.mul_div_cancel _ (Nat.succ_pos kids)]
      rw [hlength, parents_mul hkids, Nat.min_self, hgivers, ← List.take_add, ← hpow] at hround
      rw [fullRounds_succ, ← hp]
      exact hround

lemma parents_le {n p : ℕ} (hn : n ≤ p * kids) : parents kids n ≤ p := by
  rcases Nat.eq_zero_or_pos kids with rfl | hkids
  · simp [parents]
  · exact Nat.le_of_lt_succ ((Nat.div_lt_iff_lt_mul hkids).mpr (by rw [Nat.succ_mul]; omega))

/-- How many of the first slots have children. -/
def givers (kids target : ℕ) : ℕ :=
  max (before kids target / (kids + 1)) (parents kids (target - before kids target))

lemma reached_all (hkids : 0 < kids) (hroot : hostids.head? = some root) (htarget : 2 ≤ target)
    (hlast : before kids target < hostids.length)
    (hnext : target - before kids target ≤ next.length) :
    Reached root (hostids.take (before kids target) ++ next.take (target - before kids target))
      (givers kids target) hostids (allRounds kids target hostids next) := by
  have hreach := le_before_mul hkids htarget
  rw [Nat.mul_succ] at hreach
  have hlength : (next.take (target - before kids target)).length = target - before kids target :=
    List.length_take_of_le hnext
  have hfull : Reached root (hostids.take (before kids target)) _ hostids _ :=
    reached_full hkids hroot _ hlast.le
  have hround := hfull.round hkids (next.take (target - before kids target)) (List.Subset.refl _)
    (by rw [hlength, List.length_take_of_le hlast.le]; omega) rfl
  rw [hlength, Nat.min_eq_right (parents_le (by omega))] at hround
  exact hround

/-- What the writes say of one parent. -/
lemma assigned_spec (writes : Writes) (tree : TreeMap Name (List Name)) (p : Name) :
    let tree' := writes.foldl (fun tree w => tree.insert w.1 (tree[w.1]?.getD [] ++ w.2)) tree
    (p ∈ tree' ↔ p ∈ tree ∨ p ∈ writes.map Prod.fst) ∧
      ∀ c, c ∈ tree'[p]?.getD [] ↔ c ∈ tree[p]?.getD [] ∨ (p, c) ∈ edgesOf writes := by
  induction writes generalizing tree with
  | nil => simp [edgesOf]
  | cons w writes ih =>
      obtain ⟨hmem, hchildren⟩ := ih (tree.insert w.1 (tree[w.1]?.getD [] ++ w.2))
      simp only [List.foldl_cons]
      refine ⟨?_, fun c => ?_⟩
      · rw [hmem, TreeMap.mem_insert, Std.LawfulEqCmp.compare_eq_iff_eq, List.map_cons,
          List.mem_cons, eq_comm]
        tauto
      · rw [hchildren, TreeMap.getElem?_insert]
        have hedges : (p, c) ∈ edgesOf (w :: writes) ↔
            p = w.1 ∧ c ∈ w.2 ∨ (p, c) ∈ edgesOf writes := by
          simp [edgesOf, and_comm, eq_comm]
        rw [hedges]
        by_cases hp : w.1 = p
        · subst hp
          simp [or_assoc]
        · rw [if_neg fun heq => hp (Std.LawfulEqCmp.eq_of_compare heq)]
          simp [Ne.symm hp]

lemma mem_assigned {rounds : List Writes} {p : Name} :
    p ∈ assigned rounds ↔ p ∈ rounds.flatten.map Prod.fst := by
  rw [assigned, (assigned_spec rounds.flatten ∅ p).1]
  simp

lemma mem_assigned_children {rounds : List Writes} {p c : Name} :
    c ∈ (assigned rounds)[p]?.getD [] ↔ (p, c) ∈ edgesOf rounds.flatten := by
  rw [assigned, (assigned_spec rounds.flatten ∅ p).2]
  simp

lemma size_assigned (rounds : List Writes) :
    (assigned rounds).size = (rounds.flatten.map Prod.fst).toFinset.card := by
  rw [← TreeMap.length_keys, ← List.toFinset_card_of_nodup TreeMap.nodup_keys]
  congr 1
  ext p
  rw [List.mem_toFinset, List.mem_toFinset, TreeMap.mem_keys, mem_assigned]

lemma built_children (address : Name → ℕ) {t : Tree} {names : List Name}
    {edges : List (Name × Name)} (h : t.Built names edges) {p : Name} (hp : p ∈ names)
    (cs : List Name) : Tree.Built (cs.foldl (fun t c => (t.getNode c).addChild address p c) t)
      (names ++ cs) (edges ++ cs.map (p, ·)) := by
  induction cs generalizing t names edges with
  | nil => simpa using h
  | cons c cs ih =>
      have hnext := (h.getNode c).addChild address (List.mem_append_left [c] hp) c
      rw [List.foldl_cons, List.append_cons names, List.map_cons, List.append_cons edges]
      exact ih hnext (List.mem_append_left [c] hp)

lemma built_writes (address : Name → ℕ) {t : Tree} {names : List Name}
    {edges : List (Name × Name)} (h : t.Built names edges) (writes : Writes) :
    Tree.Built (writes.foldl (fun t e =>
        e.2.foldl (fun t c => (t.getNode c).addChild address e.1 c) (t.getNode e.1)) t)
      (names ++ writes.flatMap fun w => w.1 :: w.2) (edges ++ edgesOf writes) := by
  induction writes generalizing t names edges with
  | nil => simpa [edgesOf] using h
  | cons w writes ih =>
      have hparent : w.1 ∈ names ++ [w.1] := by simp
      have hnext := built_children address (h.getNode w.1) hparent w.2
      rw [List.append_assoc, List.singleton_append] at hnext
      have hrest := ih hnext
      rw [List.append_assoc, List.append_assoc] at hrest
      exact hrest

/-- The same nodes and edges in other lists. -/
lemma Built.congr {t : Tree} {names names' : List Name} {edges edges' : List (Name × Name)}
    (h : t.Built names edges) (hnames : ∀ k, k ∈ names ↔ k ∈ names')
    (hedges : ∀ e, e ∈ edges ↔ e ∈ edges') : t.Built names' edges' :=
  ⟨⟨fun k => (h.mem_iff k).trans (hnames k), fun p c => (h.children_iff p c).trans (hedges _),
    h.nodup, h.name_eq⟩, h.unvisited⟩

lemma built_connectTree (address : Name → ℕ) {t : Tree} {slots : List Name} {n : ℕ}
    {rounds : List Writes} (h : t.Built [root] []) (hreached : Reached root slots n hostids rounds) :
    Tree.Built (connectTree address t (assigned rounds)) slots (edgesOf rounds.flatten) := by
  have hbuilt := built_writes address h (assigned rounds).toList
  have hentry (p : Name) (cs : List Name) :
      (p, cs) ∈ (assigned rounds).toList ↔ (assigned rounds)[p]? = some cs :=
    TreeMap.mem_toList_iff_getElem?_eq_some
  have hedges (e : Name × Name) : e ∈ edgesOf (assigned rounds).toList ↔
      e ∈ edgesOf rounds.flatten := by
    obtain ⟨p, c⟩ := e
    rw [mem_edgesOf, ← mem_assigned_children]
    simp only [hentry]
    cases (assigned rounds)[p]? <;> simp
  refine Built.congr hbuilt (fun k => ?_) (by simpa using hedges)
  rw [← hreached.targets]
  simp only [List.mem_append, List.mem_flatMap, List.mem_cons, List.not_mem_nil, or_false]
  constructor
  · rintro (hroot | ⟨⟨p, cs⟩, hw, hp | hk⟩)
    · exact .inl hroot
    · obtain ⟨w, hw', rfl⟩ : ∃ w ∈ rounds.flatten, w.1 = k := by
        have hmem := TreeMap.isSome_getElem?_iff_mem.mp
          (Option.isSome_iff_exists.mpr ⟨cs, (hentry p cs).mp hw⟩)
        rw [mem_assigned] at hmem
        obtain ⟨w, hw', heq⟩ := List.mem_map.mp hmem
        exact ⟨w, hw', heq.trans hp.symm⟩
      obtain ⟨c, hc⟩ := List.exists_mem_of_ne_nil _ (hreached.some_children w hw')
      exact hreached.grown.source (mem_edgesOf.mpr ⟨w.2, hw', hc⟩)
    · have hedge := (hedges (p, k)).mp (mem_edgesOf.mpr ⟨cs, hw, hk⟩)
      exact .inr (List.mem_map.mpr ⟨_, hedge, rfl⟩)
  · rintro (hroot | hk)
    · exact .inl hroot
    · obtain ⟨⟨p, c⟩, hedge, rfl⟩ := List.mem_map.mp hk
      obtain ⟨cs, hw, hc⟩ := mem_edgesOf.mp ((hedges _).mpr hedge)
      exact .inr ⟨(p, cs), hw, .inr hc⟩

/-- Nodes with children are those that were written down as parents. -/
lemma mem_parents_iff {t : Tree} {names : List Name} {rounds : List Writes}
    (hshape : t.Shape names (edgesOf rounds.flatten))
    (hsome : ∀ w ∈ rounds.flatten, w.2 ≠ []) (v : Name) :
    v ∈ rounds.flatten.map Prod.fst ↔ t.childrenOf v ≠ [] := by
  constructor
  · intro hv
    obtain ⟨w, hw, rfl⟩ := List.mem_map.mp hv
    obtain ⟨c, hc⟩ := List.exists_mem_of_ne_nil _ (hsome w hw)
    exact List.ne_nil_of_mem ((hshape.children_iff w.1 c).mpr (mem_edgesOf.mpr ⟨w.2, hw, hc⟩))
  · intro hne
    obtain ⟨c, hc⟩ := List.exists_mem_of_ne_nil _ hne
    obtain ⟨cs, hw, -⟩ := mem_edgesOf.mp ((hshape.children_iff v c).mp hc)
    exact List.mem_map_of_mem hw

lemma connectTree_root (address : Name → ℕ) (t : Tree) (tree : TreeMap Name (List Name)) :
    (connectTree address t tree).root = t.root := by
  refine Tree.foldl_root (fun t e => ?_) _ t
  refine (Tree.foldl_root (fun t c => ?_) e.2 _).trans (t.getNode_root e.1)
  exact t.getNode_root c

/-- What is known of a tree that is made of rounds. -/
structure Grew (root : Name) (slots : List Name) (rounds : List Writes) (n : BitVec 32)
    (b : KnomialTree) : Prop where
  rounds_eq : b.rounds = rounds
  numLeaves_eq : b.numLeaves =
    n - BitVec.ofNat 32 (rounds.flatten.map Prod.fst).toFinset.card
  root_eq : b.tree.root = root
  shape : b.tree.Shape slots (edgesOf rounds.flatten)
  valid_iff : b.valid = true ↔
    Tree.Tidy root (edgesOf rounds.flatten) ∧ slots.toFinset.card < 2 ^ 32

theorem finish_returns (address : Name → ℕ) (n : BitVec 32) {t : Tree} {slots : List Name}
    {givers : ℕ} {rounds : List Writes} (h : t.Built [root] []) (hroot : t.root = root)
    (hreached : Reached root slots givers hostids rounds) :
    ∃ b, Returns (finish address n t rounds) (.built b) ∧ Grew root slots rounds n b := by
  have hbuilt := built_connectTree address h hreached
  have hroot' : (connectTree address t (assigned rounds)).root = root :=
    (connectTree_root address t _).trans hroot
  have hgrown := hreached.grown
  rw [← hroot'] at hgrown
  have hnames (k : Name) : k ∈ slots ↔ k = (connectTree address t (assigned rounds)).root ∨
      k ∈ (edgesOf rounds.flatten).map Prod.snd := by
    rw [hroot', ← hreached.targets, List.mem_cons]
  have hends : ∀ e ∈ edgesOf rounds.flatten, e.1 ∈ slots :=
    fun e he => (hnames _).mpr (hgrown.source he)
  obtain ⟨valid, t', hrun, hkept, hshape, hvalid⟩ := hbuilt.validated hgrown hnames hends
  rw [hroot'] at hkept hvalid
  refine ⟨⟨valid, t', rounds, n - BitVec.ofNat 32 (assigned rounds).size⟩,
    ⟨(connectTree address t (assigned rounds)).nodesByName.size + 1, fun fuel hfuel => ?_⟩,
    ⟨rfl, ?_, hkept, hshape, hvalid⟩⟩
  · rw [finish, hrun fuel (Nat.lt_of_succ_le hfuel)]
    rfl
  · rw [size_assigned]

end KnomialTree

end MRNet.TopologyFile
