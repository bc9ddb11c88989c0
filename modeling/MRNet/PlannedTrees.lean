import MRNet.GenericTree
import MRNet.SpecifiedTrees

/-!
# Planned trees

A plan tells for each level how many children its nodes have, and the names of the nodes that are
made of them. A tree with the edges of a plan has these numbers of children if the names are its
own. If no node has two parents the names must be their own for that.
-/
namespace MRNet.TopologyFile
open DepthFirst
open BalancedTree (total length_childrenOf)

/-- The numbers of children on each level, and the nodes below it. -/
abbrev Plan := List (List (BitVec 32) × List Name)

namespace Plan

variable {counts : List (BitVec 32)} {nodes names above : List Name} {plan : Plan} {root v : Name}
  {before all : List (Name × Name)} {t : Tree}

/-- The edges from the nodes of a level. -/
def levelEdges : List (BitVec 32) → List Name → List Name → List (Name × Name)
  | n :: counts, p :: nodes, names =>
      (names.take n.toNat).map (p, ·) ++ levelEdges counts nodes (names.drop n.toNat)
  | _, _, _ => []

/-- The edges of a plan for the nodes above it. -/
def edges : List Name → Plan → List (Name × Name)
  | _, [] => []
  | nodes, (counts, names) :: plan => levelEdges counts nodes names ++ edges names plan

def levels (root : Name) (plan : Plan) : List (List Name) := [root] :: plan.map Prod.snd

/-- Each number is for a node, and the nodes below are as many as the numbers tell. -/
def Fitted : List Name → Plan → Prop
  | _, [] => True
  | nodes, (counts, names) :: plan =>
      counts.length ≤ nodes.length ∧ names.length = total counts ∧ Fitted names plan

/-- Each node has as many children as are listed for its position, none if no more are listed. -/
def ChildCounts (listed : List (List (BitVec 32))) (levels : List (List Name)) (t : Tree) : Prop :=
  ∀ (u i : ℕ) level v, levels[u]? = some level → level[i]? = some v →
    (t.childrenOf v).length = ((listed[u]?.getD [])[i]?.getD 0).toNat

lemma total_cons (n : BitVec 32) (counts : List (BitVec 32)) :
    total (n :: counts) = n.toNat + total counts := by
  rw [total, List.map_cons, List.sum_cons]
  rfl

lemma snd_levelEdges (hlength : counts.length ≤ nodes.length) (hnames : names.length = total counts) :
    (levelEdges counts nodes names).map Prod.snd = names := by
  induction counts generalizing nodes names with
  | nil => exact (List.eq_nil_of_length_eq_zero hnames).symm
  | cons n counts ih =>
      cases nodes with
      | nil => exact absurd hlength (by simp)
      | cons p nodes =>
          rw [total_cons] at hnames
          have hrest : (levelEdges counts nodes (names.drop n.toNat)).map Prod.snd =
              names.drop n.toNat := ih (Nat.le_of_succ_le_succ hlength) (by
                rw [List.length_drop]
                omega)
          rw [levelEdges, List.map_append, List.map_map, hrest]
          exact (congrArg (· ++ _) (List.map_id' _)).trans (List.take_append_drop _ _)

lemma mem_levelEdges {e : Name × Name} (he : e ∈ levelEdges counts nodes names) :
    e.1 ∈ nodes ∧ e.2 ∈ names := by
  induction counts generalizing nodes names with
  | nil => cases he
  | cons n counts ih =>
      cases nodes with
      | nil => cases he
      | cons p nodes =>
          rw [levelEdges, List.mem_append, List.mem_map] at he
          rcases he with ⟨c, hc, rfl⟩ | he
          · exact ⟨List.mem_cons_self, List.mem_of_mem_take hc⟩
          · exact ⟨List.mem_cons_of_mem _ (ih he).1, List.mem_of_mem_drop (ih he).2⟩

lemma count_fst_of_not_mem {l : List (Name × Name)} (h : ∀ e ∈ l, e.1 ≠ v) :
    (l.map Prod.fst).count v = 0 := by
  rw [List.count_eq_zero]
  intro hmem
  obtain ⟨e, he, heq⟩ := List.mem_map.mp hmem
  exact h e he heq

/-- The children of a node on the level. -/
lemma count_levelEdges (hnames : total counts ≤ names.length) (hnodup : nodes.Nodup) {i : ℕ}
    (hv : nodes[i]? = some v) :
    ((levelEdges counts nodes names).map Prod.fst).count v = (counts[i]?.getD 0).toNat := by
  induction counts generalizing nodes names i with
  | nil => rfl
  | cons n counts ih =>
      cases nodes with
      | nil => cases hv
      | cons p nodes =>
          obtain ⟨hp, hnodup⟩ := List.nodup_cons.mp hnodup
          rw [total_cons] at hnames
          have hfirst : ((names.take n.toNat).map (p, ·)).map Prod.fst =
              List.replicate n.toNat p := by
            rw [List.map_map, List.eq_replicate_iff, List.length_map, List.length_take]
            refine ⟨by omega, fun q hq => ?_⟩
            obtain ⟨c, -, rfl⟩ := List.mem_map.mp hq
            rfl
          rw [levelEdges, List.map_append, List.count_append, hfirst]
          cases i with
          | zero =>
              obtain rfl : p = v := Option.some.inj hv
              have hrest : ((levelEdges counts nodes (names.drop n.toNat)).map Prod.fst).count p = 0 :=
                count_fst_of_not_mem fun e he heq => hp (heq ▸ (mem_levelEdges he).1)
              rw [List.count_replicate_self, hrest]
              rfl
          | succ i =>
              have hne : v ≠ p := by
                rintro rfl
                exact hp (List.mem_of_getElem? hv)
              rw [List.count_eq_zero_of_not_mem fun hmem => hne (List.eq_of_mem_replicate hmem),
                Nat.zero_add]
              exact ih (by rw [List.length_drop]; omega) hnodup hv

lemma snd_edges (h : Fitted nodes plan) :
    (edges nodes plan).map Prod.snd = (plan.map Prod.snd).flatten := by
  induction plan generalizing nodes with
  | nil => rfl
  | cons level plan ih =>
      obtain ⟨counts, names⟩ := level
      obtain ⟨hlength, hnames, hrest⟩ := h
      rw [edges, List.map_append, snd_levelEdges hlength hnames, ih hrest]
      rfl

/-- An edge starts on a level. -/
lemma fst_edges {e : Name × Name} (he : e ∈ edges nodes plan) :
    e.1 ∈ nodes ∨ ∃ level ∈ plan.map Prod.snd, e.1 ∈ level := by
  induction plan generalizing nodes with
  | nil => cases he
  | cons level plan ih =>
      obtain ⟨counts, names⟩ := level
      rcases List.mem_append.mp he with he | he
      · exact .inl (mem_levelEdges he).1
      · rcases ih he with hnames | ⟨level, hlevel, hmem⟩
        · exact .inr ⟨names, List.mem_cons_self, hnames⟩
        · exact .inr ⟨level, List.mem_cons_of_mem _ hlevel, hmem⟩

theorem grown_edges (hgrown : Grown root before)
    (hnodes : ∀ p ∈ nodes, p = root ∨ p ∈ before.map Prod.snd) (h : Fitted nodes plan) :
    Grown root (before ++ edges nodes plan) := by
  induction plan generalizing nodes before with
  | nil => simpa [edges] using hgrown
  | cons level plan ih =>
      obtain ⟨counts, names⟩ := level
      obtain ⟨hlength, hnames, hrest⟩ := h
      rw [edges, ← List.append_assoc]
      refine ih (hgrown.append fun e he => hnodes e.1 (mem_levelEdges he).1) (fun p hp => ?_) hrest
      rw [List.map_append, snd_levelEdges hlength hnames]
      exact .inr (List.mem_append_right _ hp)

/-- With names of their own, the children of a node are as many as are listed for it. -/
theorem count_edges (hnodup : (nodes :: plan.map Prod.snd).flatten.Nodup) (h : Fitted nodes plan)
    {u i : ℕ} {level : List Name} (hlevel : (nodes :: plan.map Prod.snd)[u]? = some level)
    (hv : level[i]? = some v) : ((edges nodes plan).map Prod.fst).count v =
      (((plan.map Prod.fst)[u]?.getD [])[i]?.getD 0).toNat := by
  induction plan generalizing nodes u with
  | nil => cases u <;> rfl
  | cons next plan ih =>
      obtain ⟨counts, names⟩ := next
      obtain ⟨hlength, hnames, hrest⟩ := h
      rw [List.flatten_cons, List.nodup_append] at hnodup
      obtain ⟨hnodes, hbelow, hdisjoint⟩ := hnodup
      rw [edges, List.map_append, List.count_append]
      cases u with
      | zero =>
          obtain rfl : nodes = level := Option.some.inj hlevel
          have hnone : ((edges names plan).map Prod.fst).count v = 0 := by
            refine count_fst_of_not_mem fun e he heq => ?_
            have hmem : e.1 ∈ (names :: plan.map Prod.snd).flatten := by
              rw [List.flatten_cons, List.mem_append, List.mem_flatten]
              exact fst_edges he
            exact hdisjoint v (List.mem_of_getElem? hv) _ hmem heq.symm
          rw [count_levelEdges hnames.ge hnodes hv, hnone]
          rfl
      | succ u =>
          have hmem : v ∈ (names :: plan.map Prod.snd).flatten :=
            List.mem_flatten.mpr ⟨level, List.mem_of_getElem? hlevel, List.mem_of_getElem? hv⟩
          have hnone : ((levelEdges counts nodes names).map Prod.fst).count v = 0 :=
            count_fst_of_not_mem fun e he heq =>
              hdisjoint e.1 (mem_levelEdges he).1 v hmem heq
          rw [hnone, Nat.zero_add]
          exact ih hbelow hrest hlevel

/-- An edge is the only one with its target if edges from one node have different targets, and
edges with one target come from one node. -/
lemma nodup_targets {l : List (Name × Name)}
    (hown : ∀ v, ((l.filter fun e => e.1 = v).map Prod.snd).Nodup)
    (hunique : ∀ a b x, (a, x) ∈ l → (b, x) ∈ l → a = b) : (l.map Prod.snd).Nodup := by
  induction l with
  | nil => exact List.nodup_nil
  | cons e l ih =>
      obtain ⟨a, x⟩ := e
      refine List.nodup_cons.mpr ⟨fun hmem => ?_, ih (fun v => ?_) fun a b x ha hb =>
        hunique a b x (List.mem_cons_of_mem _ ha) (List.mem_cons_of_mem _ hb)⟩
      · obtain ⟨⟨b, y⟩, hb, heq⟩ := List.mem_map.mp hmem
        obtain rfl : y = x := heq
        obtain rfl := hunique a b y List.mem_cons_self (List.mem_cons_of_mem _ hb)
        have hfirst := hown a
        rw [List.filter_cons_of_pos (by simp), List.map_cons, List.nodup_cons] at hfirst
        exact hfirst.1 (List.mem_map.mpr ⟨(a, y), List.mem_filter.mpr ⟨hb, by simp⟩, rfl⟩)
      · exact (hown v).sublist (((List.sublist_cons_self _ l).filter _).map _)

/-- No name is on two levels if no node has two parents: the nodes above would be on two levels
too, and the root is below no node. -/
lemma disjoint_levels (hsub : ∀ e ∈ edges nodes plan, e ∈ all) (htidy : Tree.Tidy root all)
    (h : Fitted nodes plan) (hnodes : ∀ x ∈ nodes, x ∈ above)
    (habove : ∀ x ∈ above, x ≠ root → ∃ q ∈ above, q ∉ nodes ∧ (q, x) ∈ all) :
    (∀ level ∈ plan.map Prod.snd, level.Disjoint above) ∧
      (plan.map Prod.snd).Pairwise List.Disjoint := by
  induction plan generalizing nodes above with
  | nil => exact ⟨nofun, List.Pairwise.nil⟩
  | cons next plan ih =>
      obtain ⟨counts, names⟩ := next
      obtain ⟨hlength, hnames, hrest⟩ := h
      rw [edges, List.forall_mem_append] at hsub
      have hparent : ∀ x ∈ names, ∃ p ∈ nodes, (p, x) ∈ all := by
        intro x hx
        rw [← snd_levelEdges hlength hnames] at hx
        obtain ⟨⟨p, y⟩, he, rfl⟩ := List.mem_map.mp hx
        exact ⟨p, (mem_levelEdges he).1, hsub.1 _ he⟩
      have hnew : names.Disjoint above := by
        intro x hx hold
        obtain ⟨p, hp, he⟩ := hparent x hx
        have hne : x ≠ root := by
          rintro rfl
          exact htidy.1 (List.mem_map.mpr ⟨_, he, rfl⟩)
        obtain ⟨q, -, hq, he'⟩ := habove x hold hne
        exact hq (htidy.2 q p x he' he ▸ hp)
      obtain ⟨hbelow, hpairwise⟩ := @ih names (above ++ names) hsub.2 hrest
        (fun x hx => List.mem_append_right _ hx) (fun x hx hne => by
          rcases List.mem_append.mp hx with hx | hx
          · obtain ⟨q, hq, -, he⟩ := habove x hx hne
            exact ⟨q, List.mem_append_left _ hq, fun hmem => hnew hmem hq, he⟩
          · obtain ⟨p, hp, he⟩ := hparent x hx
            exact ⟨p, List.mem_append_left _ (hnodes p hp), fun hmem => hnew hmem (hnodes p hp), he⟩)
      constructor
      · rintro level (_ | ⟨_, hlevel⟩)
        · exact hnew
        · exact (List.disjoint_append_right.mp (hbelow level hlevel)).1
      · refine List.pairwise_cons.mpr ⟨fun level hlevel => ?_, hpairwise⟩
        exact (List.disjoint_append_right.mp (hbelow level hlevel)).2.symm

/-- As many names as there are children: none is given twice. -/
lemma nodup_of_length {children given : List Name} (hchildren : children.Nodup)
    (hmem : ∀ c, c ∈ children ↔ c ∈ given) (hlength : children.length = given.length) :
    given.Nodup := by
  have hset : given.toFinset = children.toFinset := by
    ext c
    rw [List.mem_toFinset, List.mem_toFinset, hmem]
  have hcard : given.toFinset.card = given.length := by
    rw [hset, List.toFinset_card_of_nodup hchildren, hlength]
  exact Multiset.coe_nodup.mp (Multiset.toFinset_card_eq_card_iff_nodup.mp hcard)

lemma filter_eq_nil {l : List (Name × Name)} (h : ∀ e ∈ l, e.1 ≠ v) :
    l.filter (fun e => e.1 = v) = [] :=
  List.filter_eq_nil_iff.mpr fun e he heq => h e he (of_decide_eq_true heq)

/-- Level after level, the names are their own if the nodes have the listed numbers of children. -/
lemma nodup_levels {ends : List Name} (hshape : t.Shape ends all)
    (hall : all = before ++ edges nodes plan) (h : Fitted nodes plan)
    (hunique : ∀ a b x, (a, x) ∈ all → (b, x) ∈ all → a = b)
    (hdisjoint : (nodes :: plan.map Prod.snd).Pairwise List.Disjoint)
    (hbefore : ∀ e ∈ before, ∀ level ∈ nodes :: plan.map Prod.snd, e.1 ∉ level)
    (hnodes : nodes.Nodup)
    (hcounts : ChildCounts (plan.map Prod.fst) (nodes :: plan.map Prod.snd) t) :
    ∀ level ∈ plan.map Prod.snd, level.Nodup := by
  induction plan generalizing nodes before with
  | nil => exact nofun
  | cons next plan ih =>
      obtain ⟨counts, names⟩ := next
      obtain ⟨hlength, hnames, hrest⟩ := h
      rw [List.map_cons, List.pairwise_cons] at hdisjoint
      have hown : ∀ v, (((levelEdges counts nodes names).filter fun e => e.1 = v).map
          Prod.snd).Nodup := by
        intro v
        by_cases hv : v ∈ nodes
        · obtain ⟨i, hi⟩ := List.mem_iff_getElem?.mp hv
          have hlevel : ((nodes :: (((counts, names) :: plan : Plan).map Prod.snd))[0]?) = some nodes :=
            rfl
          have hcount : (t.childrenOf v).length = (counts[i]?.getD 0).toNat :=
            hcounts 0 i nodes v hlevel hi
          have hnone : (before.filter fun e => e.1 = v) = [] := filter_eq_nil fun e he heq =>
            hbefore e he nodes List.mem_cons_self (heq ▸ hv)
          have hbelow : ((edges names plan).filter fun e => e.1 = v) = [] := by
            refine filter_eq_nil fun e he heq => ?_
            rcases fst_edges he with hmem | ⟨level, hlevel, hmem⟩
            · exact hdisjoint.1 names List.mem_cons_self hv (heq ▸ hmem)
            · exact hdisjoint.1 level (List.mem_cons_of_mem _ hlevel) hv (heq ▸ hmem)
          have hfilter : (all.filter fun e => e.1 = v) =
              (levelEdges counts nodes names).filter fun e => e.1 = v := by
            rw [hall, edges, List.filter_append, List.filter_append, hnone, hbelow,
              List.nil_append, List.append_nil]
          refine nodup_of_length (hshape.nodup v) (fun c => ?_) ?_
          · rw [hshape.children_iff, ← hfilter]
            simp
          · rw [hcount, List.length_map, ← List.countP_eq_length_filter,
              ← count_levelEdges hnames.ge hnodes hi, List.count, List.countP_map]
            exact List.countP_congr fun e _ => by simp
        · have hnone : ((levelEdges counts nodes names).filter fun e => e.1 = v) = [] :=
            filter_eq_nil fun e he heq => hv (heq ▸ (mem_levelEdges he).1)
          rw [hnone]
          exact List.nodup_nil
      have hhere : ∀ e ∈ levelEdges counts nodes names, e ∈ all := fun e he => by
        rw [hall, edges]
        exact List.mem_append_right _ (List.mem_append_left _ he)
      have hnew : names.Nodup := by
        have htargets := nodup_targets hown fun a b x ha hb =>
          hunique a b x (hhere _ ha) (hhere _ hb)
        rwa [snd_levelEdges hlength hnames] at htargets
      rintro level (_ | ⟨_, hlevel⟩)
      · exact hnew
      refine @ih names (before ++ levelEdges counts nodes names) ?_ hrest hdisjoint.2
        (fun e he level hlevel => ?_) hnew (fun u i level v hlevel hv => ?_) level hlevel
      · rw [hall, edges, List.append_assoc]
      · rcases List.mem_append.mp he with he | he
        · exact hbefore e he level (List.mem_cons_of_mem _ hlevel)
        · exact fun hmem => hdisjoint.1 level hlevel (mem_levelEdges he).1 hmem
      · exact hcounts (u + 1) i level v hlevel hv

/-- In a tree without a node that has two parents, the nodes have as many children as the plan
tells if and only if their names are their own. -/
theorem childCounts_iff {ends : List Name} (h : Fitted [root] plan)
    (hshape : t.Shape ends (edges [root] plan)) (htidy : Tree.Tidy root (edges [root] plan)) :
    ChildCounts (plan.map Prod.fst) (levels root plan) t ↔ (levels root plan).flatten.Nodup := by
  constructor
  · intro hcounts
    obtain ⟨hroot, hpairwise⟩ := disjoint_levels (fun _ he => he) htidy h (fun _ hx => hx)
      fun x hx hne => absurd (List.mem_singleton.mp hx) hne
    have hdisjoint : (levels root plan).Pairwise List.Disjoint :=
      List.pairwise_cons.mpr ⟨fun level hlevel => (hroot level hlevel).symm, hpairwise⟩
    have hbelow := nodup_levels hshape (List.nil_append _).symm h htidy.2 hdisjoint nofun
      (List.nodup_singleton root) hcounts
    rw [List.nodup_flatten]
    refine ⟨fun level hlevel => ?_, hdisjoint⟩
    rcases List.mem_cons.mp hlevel with rfl | hlevel
    · exact List.nodup_singleton root
    · exact hbelow level hlevel
  · intro hnodup u i level v hlevel hv
    have htargets : ((edges [root] plan).map Prod.snd).Nodup := by
      rw [snd_edges h]
      rw [levels, List.flatten_cons] at hnodup
      exact (List.nodup_append.mp hnodup).2.1
    rw [length_childrenOf hshape htargets]
    exact count_edges hnodup h hlevel hv

end Plan

end MRNet.TopologyFile
