import Mathlib.Data.Finset.Card
import Mathlib.Data.List.Perm.Subperm
import Mathlib.Logic.Relation

/-!
# Depth-first walks with marks

A walk is called at the nodes of a list, one after the other. At a node without a mark it
sets the mark and is called at the nodes that come next; at a marked node it turns back.
Such a walk tells whether the edges form a tree.
-/
namespace DepthFirst
open Relation

variable {α : Type}

/-- The edges form a tree that spans the nodes. An edge that is listed twice is two edges. -/
structure IsRootedTree [DecidableEq α] (nodes : List α) (edges : List (α × α)) (root : α) :
    Prop where
  root_mem : root ∈ nodes
  root_first : root ∉ edges.map Prod.snd
  one_parent : ∀ v ∈ nodes, v ≠ root → (edges.map Prod.snd).count v = 1
  reachable : ∀ v ∈ nodes, ReflTransGen (fun a b => (a, b) ∈ edges) root v

lemma IsRootedTree.has_parent [DecidableEq α] {nodes : List α} {edges : List (α × α)} {root v : α}
    (h : IsRootedTree nodes edges root) (hv : v ∈ nodes) (hne : v ≠ root) :
    v ∈ edges.map Prod.snd :=
  List.count_pos_iff.mp ((h.one_parent v hv hne).symm ▸ Nat.one_pos)

lemma IsRootedTree.parent_unique [DecidableEq α] {nodes : List α} {edges : List (α × α)}
    {root v a b : α} (h : IsRootedTree nodes edges root) (hv : v ∈ nodes) (ha : (a, v) ∈ edges)
    (hb : (b, v) ∈ edges) : a = b := by
  have hne : v ≠ root := fun heq => h.root_first (heq ▸ List.mem_map_of_mem (f := Prod.snd) ha)
  have hcount := h.one_parent v hv hne
  rw [List.count, List.countP_map, List.countP_eq_length_filter, List.length_eq_one_iff] at hcount
  obtain ⟨e, he⟩ := hcount
  have hmem : ∀ c, (c, v) ∈ edges → (c, v) = e := by
    intro c hc
    have hfilter : (c, v) ∈ edges.filter ((· == v) ∘ Prod.snd) :=
      List.mem_filter.mpr ⟨hc, beq_self_eq_true v⟩
    rw [he] at hfilter
    exact List.mem_singleton.mp hfilter
  exact congrArg Prod.fst ((hmem a ha).trans (hmem b hb).symm)

/-- The nodes marked before, the nodes where the walk is to be called, the nodes marked
after, and all calls in their order. Calls are nested at most as deep as the depth. -/
inductive Walk (next : α → List α) : ℕ → List α → List α → List α → List α → Prop
  | nil {depth marked} : Walk next depth marked [] marked []
  | seen {depth marked v todo marked' calls} (hv : v ∈ marked)
      (rest : Walk next depth marked todo marked' calls) :
      Walk next depth marked (v :: todo) marked' (v :: calls)
  | enter {depth marked v todo marked₁ marked₂ calls₁ calls₂} (hv : v ∉ marked)
      (inner : Walk next depth (v :: marked) (next v) marked₁ calls₁)
      (rest : Walk next (depth + 1) marked₁ todo marked₂ calls₂) :
      Walk next (depth + 1) marked (v :: todo) marked₂ (v :: (calls₁ ++ calls₂))

/-- One node comes next after the other. -/
abbrev Next (next : α → List α) (a b : α) : Prop := b ∈ next a

variable {next : α → List α} {depth : ℕ} {marked todo marked' calls : List α}

lemma Walk.subset (h : Walk next depth marked todo marked' calls) : marked ⊆ marked' := by
  induction h with
  | nil => exact List.Subset.refl _
  | seen _ _ ih => exact ih
  | enter _ _ _ ih₁ ih₂ => exact fun w hw => ih₂ (ih₁ (List.mem_cons_of_mem _ hw))

lemma Walk.length_le (h : Walk next depth marked todo marked' calls) :
    marked.length ≤ marked'.length ∧ marked'.length ≤ marked.length + calls.length := by
  induction h with
  | nil => exact ⟨Nat.le_refl _, Nat.le_refl _⟩
  | seen _ _ ih =>
      rw [List.length_cons]
      omega
  | enter _ _ _ ih₁ ih₂ =>
      rw [List.length_cons] at ih₁
      rw [List.length_cons, List.length_append]
      omega

lemma Walk.marked_subset {nodes : List α} (hclosed : ∀ v ∈ nodes, ∀ w ∈ next v, w ∈ nodes)
    (h : Walk next depth marked todo marked' calls) (hmarked : ∀ v ∈ marked, v ∈ nodes)
    (htodo : ∀ v ∈ todo, v ∈ nodes) : ∀ v ∈ marked', v ∈ nodes := by
  induction h with
  | nil => exact hmarked
  | seen _ _ ih => exact ih hmarked (List.forall_mem_cons.mp htodo).2
  | enter _ _ _ ih₁ ih₂ =>
      obtain ⟨hv, htodo⟩ := List.forall_mem_cons.mp htodo
      exact ih₂ (ih₁ (List.forall_mem_cons.mpr ⟨hv, hmarked⟩) (hclosed _ hv)) htodo

/-- A node, and then what is below its children, as deep as the fuel. -/
def preorder (next : α → List α) : ℕ → α → List α
  | 0, _ => []
  | fuel + 1, v => v :: (next v).flatMap (preorder next fuel)

/-- A walk that never turns back is called in preorder. -/
lemma Walk.calls_eq (h : Walk next depth marked todo marked' calls)
    (hfresh : marked'.length = marked.length + calls.length) :
    ∀ fuel > depth, todo.flatMap (preorder next fuel) = calls := by
  induction h with
  | nil => exact fun _ _ => rfl
  | seen _ rest _ =>
      have hle := rest.length_le.2
      rw [List.length_cons] at hfresh
      omega
  | @enter depth marked v todo marked₁ marked₂ calls₁ calls₂ _ inner rest ih₁ ih₂ =>
      intro fuel hfuel
      obtain ⟨fuel, rfl⟩ : ∃ f, fuel = f + 1 := ⟨fuel - 1, by omega⟩
      have hle₁ := inner.length_le.2
      have hle₂ := rest.length_le.2
      simp only [List.length_cons, List.length_append] at hfresh hle₁
      rw [List.flatMap_cons, preorder, ih₁ (by rw [List.length_cons]; omega) fuel (by omega),
        ih₂ (by omega) _ hfuel]
      rfl

/-- In a finite set that no edge leaves, the walk comes to an end. -/
theorem exists_walk [DecidableEq α] {U : Finset α} (hclosed : ∀ v ∈ U, ∀ w ∈ next v, w ∈ U)
    (htodo : ∀ v ∈ todo, v ∈ U) (hdepth : (U \ marked.toFinset).card ≤ depth) :
    ∃ marked' calls, Walk next depth marked todo marked' calls := by
  induction depth generalizing marked todo with
  | zero =>
      induction todo with
      | nil => exact ⟨marked, [], .nil⟩
      | cons v todo ih =>
          obtain ⟨marked', calls, rest⟩ := ih fun w hw => htodo w (List.mem_cons_of_mem _ hw)
          have hsub := Finset.sdiff_eq_empty_iff_subset.mp
            (Finset.card_eq_zero.mp (Nat.le_zero.mp hdepth))
          have hv := List.mem_toFinset.mp (hsub (htodo v List.mem_cons_self))
          exact ⟨marked', v :: calls, .seen hv rest⟩
  | succ depth ih =>
      induction todo generalizing marked with
      | nil => exact ⟨marked, [], .nil⟩
      | cons v todo ihtodo =>
          have htodo' := fun w hw => htodo w (List.mem_cons_of_mem _ hw)
          by_cases hv : v ∈ marked
          · obtain ⟨marked', calls, rest⟩ := ihtodo htodo' hdepth
            exact ⟨marked', v :: calls, .seen hv rest⟩
          · have hvU := htodo v List.mem_cons_self
            have hless : (U \ (v :: marked).toFinset).card < (U \ marked.toFinset).card := by
              apply Finset.card_lt_card
              refine ⟨Finset.sdiff_subset_sdiff (Finset.Subset.refl U) ?_, fun hsub => ?_⟩
              · exact fun w hw => List.mem_toFinset.mpr
                  (List.mem_cons_of_mem _ (List.mem_toFinset.mp hw))
              · have hmem := hsub (Finset.mem_sdiff.mpr ⟨hvU, fun h => hv (List.mem_toFinset.mp h)⟩)
                exact (Finset.mem_sdiff.mp hmem).2 (List.mem_toFinset.mpr List.mem_cons_self)
            obtain ⟨marked₁, calls₁, inner⟩ := ih (hclosed v hvU)
              (by omega : (U \ (v :: marked).toFinset).card ≤ depth)
            have hmore : (U \ marked₁.toFinset).card ≤ (U \ (v :: marked).toFinset).card :=
              Finset.card_le_card (Finset.sdiff_subset_sdiff (Finset.Subset.refl U) fun w hw =>
                List.mem_toFinset.mpr (inner.subset (List.mem_toFinset.mp hw)))
            obtain ⟨marked₂, calls₂, rest⟩ := ihtodo htodo'
              (by omega : (U \ marked₁.toFinset).card ≤ depth + 1)
            exact ⟨marked₂, v :: (calls₁ ++ calls₂), .enter hv inner rest⟩

/-- What a walk has done: the nodes it has marked are new, it was called at the nodes of the
list and at all that come next after a new one, and at no others. -/
structure Walked (next : α → List α) (marked todo marked' calls new : List α) : Prop where
  marked_eq : marked' = new ++ marked
  nodup : new.Nodup
  disjoint : new.Disjoint marked
  calls_perm : calls.Perm (todo ++ new.flatMap next)
  calls_marked : ∀ v ∈ calls, v ∈ marked'
  reached : ∀ v ∈ new, ∃ t ∈ todo, ReflTransGen (Next next) t v

theorem Walk.walked [DecidableEq α] (h : Walk next depth marked todo marked' calls) :
    ∃ new, Walked next marked todo marked' calls new := by
  induction h with
  | nil => exact ⟨[], rfl, List.nodup_nil, nofun, List.Perm.refl _, nofun, nofun⟩
  | seen hv rest ih =>
      obtain ⟨new, ih⟩ := ih
      refine ⟨new, ih.marked_eq, ih.nodup, ih.disjoint, ih.calls_perm.cons _, ?_, ?_⟩
      · exact List.forall_mem_cons.mpr ⟨rest.subset hv, ih.calls_marked⟩
      · intro w hw
        obtain ⟨t, ht, hreach⟩ := ih.reached w hw
        exact ⟨t, List.mem_cons_of_mem _ ht, hreach⟩
  | @enter _ marked v todo _ _ _ _ hv inner rest ih₁ ih₂ =>
      obtain ⟨new₁, ih₁⟩ := ih₁
      obtain ⟨new₂, ih₂⟩ := ih₂
      refine ⟨new₂ ++ (new₁ ++ [v]), ?_, ?_, ?_, ?_, ?_, ?_⟩
      · rw [ih₂.marked_eq, ih₁.marked_eq]
        simp only [List.append_assoc, List.singleton_append]
      · have hnew₁ : (new₁ ++ [v]).Nodup := List.nodup_append'.mpr
          ⟨ih₁.nodup, List.nodup_singleton v, fun w hw hw' =>
            ih₁.disjoint hw (List.mem_singleton.mp hw' ▸ List.mem_cons_self)⟩
        refine List.nodup_append'.mpr ⟨ih₂.nodup, hnew₁, fun w hw hw' => ih₂.disjoint hw ?_⟩
        rw [ih₁.marked_eq]
        simp only [List.mem_append, List.mem_cons] at hw' ⊢
        tauto
      · intro w hw hw'
        simp only [List.mem_append, List.mem_singleton] at hw
        rcases hw with hw | hw | rfl
        · exact ih₂.disjoint hw (inner.subset (List.mem_cons_of_mem _ hw'))
        · exact ih₁.disjoint hw (List.mem_cons_of_mem _ hw')
        · exact hv hw'
      · refine List.perm_iff_count.mpr fun w => ?_
        have h₁ := ih₁.calls_perm.count_eq w
        have h₂ := ih₂.calls_perm.count_eq w
        simp only [List.count_append, List.count_cons, List.flatMap_append, List.flatMap_cons,
          List.flatMap_nil, List.append_nil, List.cons_append] at h₁ h₂ ⊢
        omega
      · refine List.forall_mem_cons.mpr ⟨rest.subset (inner.subset List.mem_cons_self), ?_⟩
        refine List.forall_mem_append.mpr ⟨fun w hw => ?_, ih₂.calls_marked⟩
        exact rest.subset (ih₁.calls_marked w hw)
      · intro w hw
        simp only [List.mem_append, List.mem_singleton] at hw
        rcases hw with hw | hw | rfl
        · obtain ⟨t, ht, hreach⟩ := ih₂.reached w hw
          exact ⟨t, List.mem_cons_of_mem _ ht, hreach⟩
        · obtain ⟨t, ht, hreach⟩ := ih₁.reached w hw
          exact ⟨v, List.mem_cons_self, ReflTransGen.head ht hreach⟩
        · exact ⟨w, List.mem_cons_self, ReflTransGen.refl⟩

/-- The first call is at the root, and the others are below. -/
lemma Walk.below_root {root : α} (h : Walk next depth [] [root] marked calls) :
    ∃ d below, depth = d + 1 ∧ calls = root :: below ∧
      Walk next d [root] (next root) marked below := by
  cases h with
  | seen hv _ => cases hv
  | enter _ inner rest =>
      cases rest
      exact ⟨_, _, rfl, by rw [List.append_nil], inner⟩

section Root

variable [DecidableEq α] {root : α}

lemma Walk.walked_root (h : Walk next depth [] [root] marked calls) :
    Walked next [] [root] marked calls marked := by
  obtain ⟨new, h⟩ := h.walked
  have hnew : marked = new := by rw [h.marked_eq, List.append_nil]
  exact hnew ▸ h

/-- The walk marks what can be reached from the root. -/
lemma Walk.mem_marked_iff (h : Walk next depth [] [root] marked calls) {v : α} :
    v ∈ marked ↔ ReflTransGen (Next next) root v := by
  have hwalk := h.walked_root
  refine ⟨fun hv => ?_, fun hreach => ?_⟩
  · obtain ⟨t, ht, hreach⟩ := hwalk.reached v hv
    rw [List.mem_singleton.mp ht] at hreach
    exact hreach
  · induction hreach with
    | refl =>
        exact hwalk.calls_marked root (hwalk.calls_perm.mem_iff.mpr List.mem_cons_self)
    | tail _ hnext ih =>
        refine hwalk.calls_marked _ (hwalk.calls_perm.mem_iff.mpr ?_)
        exact List.mem_append_right _ (List.mem_flatMap.mpr ⟨_, ih, hnext⟩)

/-- No call comes twice if as many nodes are marked as there are calls. -/
lemma Walk.nodup_iff (h : Walk next depth [] [root] marked calls) :
    calls.Nodup ↔ marked.length = calls.length := by
  have hwalk := h.walked_root
  constructor
  · intro hnodup
    have hle := h.length_le.2
    have hge := (hnodup.subperm hwalk.calls_marked).length_le
    rw [List.length_nil] at hle
    omega
  · intro hlength
    have hsub : marked ⊆ calls := by
      intro v hv
      obtain ⟨t, ht, hreach⟩ := hwalk.reached v hv
      rw [List.mem_singleton.mp ht] at hreach
      rw [hwalk.calls_perm.mem_iff]
      rcases ReflTransGen.cases_tail hreach with rfl | ⟨a, ha, hnext⟩
      · exact List.mem_cons_self
      · exact List.mem_append_right _ (List.mem_flatMap.mpr ⟨a, h.mem_marked_iff.mpr ha, hnext⟩)
    exact ((hwalk.nodup.subperm hsub).perm_of_length_le hlength.ge).nodup_iff.mp hwalk.nodup

variable {nodes : List α} {edges : List (α × α)}

omit [DecidableEq α] in
lemma mem_edges_iff (hedges : edges.Perm (nodes.flatMap fun v => (next v).map (v, ·))) {a b : α} :
    (a, b) ∈ edges ↔ a ∈ nodes ∧ b ∈ next a := by
  rw [hedges.mem_iff]
  simp [List.mem_flatMap]

omit [DecidableEq α] in
lemma targets_perm (hedges : edges.Perm (nodes.flatMap fun v => (next v).map (v, ·))) :
    (edges.map Prod.snd).Perm (nodes.flatMap next) := by
  have hmap := hedges.map Prod.snd
  rw [List.map_flatMap] at hmap
  simpa using hmap

omit [DecidableEq α] in
lemma reach_next (hedges : edges.Perm (nodes.flatMap fun v => (next v).map (v, ·))) {v : α}
    (h : ReflTransGen (fun a b => (a, b) ∈ edges) root v) : ReflTransGen (Next next) root v := by
  induction h with
  | refl => exact ReflTransGen.refl
  | tail _ hedge ih => exact ih.tail ((mem_edges_iff hedges).mp hedge).2

omit [DecidableEq α] in
lemma reach_edges (hclosed : ∀ v ∈ nodes, ∀ w ∈ next v, w ∈ nodes)
    (hedges : edges.Perm (nodes.flatMap fun v => (next v).map (v, ·))) (hroot : root ∈ nodes)
    {v : α} (h : ReflTransGen (Next next) root v) :
    ReflTransGen (fun a b => (a, b) ∈ edges) root v ∧ v ∈ nodes := by
  induction h with
  | refl => exact ⟨ReflTransGen.refl, hroot⟩
  | tail _ hnext ih =>
      exact ⟨ih.1.tail ((mem_edges_iff hedges).mpr ⟨ih.2, hnext⟩), hclosed _ ih.2 _ hnext⟩

/-- The edges form a tree exactly if the walk from the root is never called twice at one
node and marks every node. -/
theorem isRootedTree_iff (hnodes : nodes.Nodup) (hclosed : ∀ v ∈ nodes, ∀ w ∈ next v, w ∈ nodes)
    (hedges : edges.Perm (nodes.flatMap fun v => (next v).map (v, ·))) (hroot : root ∈ nodes)
    (h : Walk next depth [] [root] marked calls) :
    IsRootedTree nodes edges root ↔ calls.Nodup ∧ marked.length = nodes.length := by
  have hwalk := h.walked_root
  have hsubperm : marked.Subperm nodes :=
    hwalk.nodup.subperm (h.marked_subset hclosed nofun (by simpa using hroot))
  have hcalls (hperm : marked.Perm nodes) : calls.Perm (root :: edges.map Prod.snd) :=
    hwalk.calls_perm.trans
      (((hperm.flatMap_right next).trans (targets_perm hedges).symm).cons root)
  constructor
  · intro htree
    have hperm : marked.Perm nodes := hsubperm.perm_of_length_le
      (hnodes.subperm fun v hv =>
        h.mem_marked_iff.mpr (reach_next hedges (htree.reachable v hv))).length_le
    refine ⟨(hcalls hperm).nodup_iff.mpr (List.nodup_cons.mpr ⟨htree.root_first, ?_⟩),
      hperm.length_eq⟩
    refine List.nodup_iff_count_le_one.mpr fun v => ?_
    by_cases hv : v ∈ edges.map Prod.snd
    · obtain ⟨⟨a, b⟩, hedge, rfl⟩ := List.mem_map.mp hv
      obtain ⟨ha, hb⟩ := (mem_edges_iff hedges).mp hedge
      have hne : b ≠ root := fun h => htree.root_first (h ▸ hv)
      exact (htree.one_parent b (hclosed a ha b hb) hne).le
    · rw [List.count_eq_zero_of_not_mem hv]
      exact Nat.zero_le 1
  · rintro ⟨hnodup, hlength⟩
    have hperm := hsubperm.perm_of_length_le hlength.ge
    have htargets := List.nodup_cons.mp ((hcalls hperm).nodup_iff.mp hnodup)
    have hreach (v : α) (hv : v ∈ nodes) : ReflTransGen (fun a b => (a, b) ∈ edges) root v :=
      (reach_edges hclosed hedges hroot (h.mem_marked_iff.mp (hperm.mem_iff.mpr hv))).1
    refine ⟨hroot, htargets.1, fun v hv hne => ?_, hreach⟩
    refine List.count_eq_one_of_mem htargets.2 ?_
    rcases ReflTransGen.cases_tail (hreach v hv) with heq | ⟨a, -, hedge⟩
    · exact absurd heq hne
    · exact List.mem_map_of_mem (f := Prod.snd) hedge

end Root

lemma filter_sources_perm [DecidableEq α] {nodes : List α} (hnodes : nodes.Nodup)
    (edges : List (α × α)) : (nodes.flatMap fun v => edges.filter (·.1 = v)).Perm
      (edges.filter (·.1 ∈ nodes)) := by
  induction nodes with
  | nil =>
      rw [List.flatMap_nil, List.filter_eq_nil_iff.mpr]
      exact fun e _ h => absurd (of_decide_eq_true h) List.not_mem_nil
  | cons v nodes ih =>
      obtain ⟨hv, hnodes⟩ := List.nodup_cons.mp hnodes
      rw [List.flatMap_cons]
      refine ((ih hnodes).append_left _).trans ?_
      have hsplit := List.filter_append_perm (fun e => decide (e.1 = v))
        (edges.filter (·.1 ∈ v :: nodes))
      rw [List.filter_filter, List.filter_filter] at hsplit
      refine List.Perm.trans (List.Perm.of_eq ?_) hsplit
      congr 1 <;> refine List.filter_congr fun e _ => ?_
      · by_cases he : e.1 = v <;> simp [he]
      · by_cases he : e.1 = v
        · simp [he, hv]
        · simp [he]

/-- The edges, node by node. -/
lemma sources_perm [DecidableEq α] {nodes : List α} (hnodes : nodes.Nodup)
    {edges : List (α × α)} (hends : ∀ e ∈ edges, e.1 ∈ nodes) :
    (nodes.flatMap fun v => edges.filter (·.1 = v)).Perm edges := by
  have hperm := filter_sources_perm hnodes edges
  rwa [List.filter_eq_self.mpr fun e he => decide_eq_true (hends e he)] at hperm

/-- A tree is given by the nodes that are listed and the number of edges of each kind. -/
lemma IsRootedTree.congr [DecidableEq α] {nodes nodes' : List α} {edges edges' : List (α × α)}
    {root : α} (h : IsRootedTree nodes edges root) (hnodes : ∀ v, v ∈ nodes' ↔ v ∈ nodes)
    (hedges : edges.Perm edges') : IsRootedTree nodes' edges' root := by
  have htargets := hedges.map Prod.snd
  refine ⟨(hnodes root).mpr h.root_mem, fun hmem => h.root_first (htargets.mem_iff.mpr hmem),
    fun v hv hne => ?_, fun v hv => ?_⟩
  · rw [← htargets.count_eq]
    exact h.one_parent v ((hnodes v).mp hv) hne
  · simp only [← hedges.mem_iff]
    exact h.reachable v ((hnodes v).mp hv)

section Renamed

variable {β : Type} {f : α → β} {nodes : List α} {edges : List (α × α)} {root : α}

lemma count_map [DecidableEq α] [DecidableEq β] (hinj : Set.InjOn f {v | v ∈ nodes}) {l : List α}
    (hl : ∀ w ∈ l, w ∈ nodes) {v : α} (hv : v ∈ nodes) : (l.map f).count (f v) = l.count v := by
  rw [List.count, List.countP_map, List.count]
  refine List.countP_congr fun w hw => ?_
  simp only [Function.comp, beq_iff_eq]
  exact hinj.eq_iff (hl w hw) hv

lemma reach_map (hroot : root ∈ nodes) (hinj : Set.InjOn f {v | v ∈ nodes})
    (hends : ∀ e ∈ edges, e.1 ∈ nodes ∧ e.2 ∈ nodes) {v : α} (hv : v ∈ nodes) :
    ReflTransGen (fun a b => (a, b) ∈ edges.map (Prod.map f f)) (f root) (f v) ↔
      ReflTransGen (fun a b => (a, b) ∈ edges) root v := by
  constructor
  · intro h
    have hall : ∀ y, ReflTransGen (fun a b => (a, b) ∈ edges.map (Prod.map f f)) (f root) y →
        ∃ w ∈ nodes, f w = y ∧ ReflTransGen (fun a b => (a, b) ∈ edges) root w := by
      intro y hy
      induction hy with
      | refl => exact ⟨root, hroot, rfl, ReflTransGen.refl⟩
      | tail _ hedge ih =>
          obtain ⟨w, hw, hfw, hreach⟩ := ih
          obtain ⟨⟨a, b⟩, hmem, heq⟩ := List.mem_map.mp hedge
          obtain ⟨ha, hb⟩ := hends _ hmem
          simp only [Prod.map_apply, Prod.mk.injEq] at heq
          have haw : a = w := hinj ha hw (heq.1.trans hfw.symm)
          exact ⟨b, hb, heq.2, hreach.tail (haw ▸ hmem)⟩
    obtain ⟨w, hw, hfw, hreach⟩ := hall _ h
    exact hinj hw hv hfw ▸ hreach
  · intro h
    clear hv
    induction h with
    | refl => exact ReflTransGen.refl
    | tail _ hedge ih => exact ih.tail (List.mem_map_of_mem (f := Prod.map f f) hedge)

/-- A tree stays a tree if its nodes get other names. -/
theorem isRootedTree_map [DecidableEq α] [DecidableEq β] (hinj : Set.InjOn f {v | v ∈ nodes})
    (hroot : root ∈ nodes) (hends : ∀ e ∈ edges, e.1 ∈ nodes ∧ e.2 ∈ nodes) :
    IsRootedTree (nodes.map f) (edges.map (Prod.map f f)) (f root) ↔
      IsRootedTree nodes edges root := by
  have htargets : (edges.map (Prod.map f f)).map Prod.snd = (edges.map Prod.snd).map f := by
    rw [List.map_map, List.map_map]
    rfl
  have hmem : ∀ w ∈ edges.map Prod.snd, w ∈ nodes := by
    intro w hw
    obtain ⟨e, he, rfl⟩ := List.mem_map.mp hw
    exact (hends e he).2
  have hcount (v : α) (hv : v ∈ nodes) :
      ((edges.map (Prod.map f f)).map Prod.snd).count (f v) = (edges.map Prod.snd).count v := by
    rw [htargets, count_map hinj hmem hv]
  constructor
  · intro h
    refine ⟨hroot, ?_, fun v hv hne => ?_, fun v hv => ?_⟩
    · rw [← List.count_eq_zero, ← hcount root hroot]
      exact List.count_eq_zero.mpr h.root_first
    · rw [← hcount v hv]
      exact h.one_parent (f v) (List.mem_map_of_mem hv) fun heq => hne (hinj hv hroot heq)
    · exact (reach_map hroot hinj hends hv).mp (h.reachable (f v) (List.mem_map_of_mem hv))
  · intro h
    refine ⟨List.mem_map_of_mem hroot, ?_, fun y hy hne => ?_, fun y hy => ?_⟩
    · rw [← List.count_eq_zero, hcount root hroot]
      exact List.count_eq_zero.mpr h.root_first
    · obtain ⟨v, hv, rfl⟩ := List.mem_map.mp hy
      rw [hcount v hv]
      exact h.one_parent v hv fun heq => hne (heq ▸ rfl)
    · obtain ⟨v, hv, rfl⟩ := List.mem_map.mp hy
      exact (reach_map hroot hinj hends hv).mpr (h.reachable v hv)

end Renamed

end DepthFirst
