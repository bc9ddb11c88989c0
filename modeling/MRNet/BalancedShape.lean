import MRNet.BalancedTree

/-!
# Balanced trees match their specifications

The nodes are connected without an index out of range exactly if no product of fan-outs leaves
32 bits. The tree then has the levels of the specification, if its nodes have names of their
own: `snprintf` cuts a name that is too long.
-/
namespace MRNet.TopologyFile
open Codec DepthFirst
open Wire (Run Returns)
open SerialGraph (Text)

namespace BalancedTree

variable {address : Name → ℕ} {t : Tree} {p : Name} {parents orphans : List Name}
  {fanouts : List (BitVec 32)} {levels : List (List Name)}

lemma adopt_eq (k : ℕ) (orphans : List Name) (t : Tree) : adopt address p k orphans t =
    if k ≤ orphans.length then
      .ok (orphans.drop k, t.addEdges address ((orphans.take k).map (p, ·)))
    else .error (.fault .readPast) := by
  induction k generalizing orphans t with
  | zero =>
      rw [if_pos (Nat.zero_le _)]
      rfl
  | succ k ih =>
      cases orphans with
      | nil => rfl
      | cons c orphans =>
          simp only [adopt, ih, List.length_cons, Nat.add_le_add_iff_right]
          split_ifs <;> rfl

/-- The edges between two levels. -/
def levelEdges (fanout : ℕ) (parents orphans : List Name) : List (Name × Name) :=
  (parents.flatMap (List.replicate fanout)).zip orphans

lemma zip_replicate (p : Name) (orphans : List Name) :
    (List.replicate orphans.length p).zip orphans = orphans.map (p, ·) := by
  induction orphans with
  | nil => rfl
  | cons c orphans ih => simp [List.replicate_succ, ih]

lemma levelEdges_cons {fanout : ℕ} (h : fanout ≤ orphans.length) :
    levelEdges fanout (p :: parents) orphans =
      (orphans.take fanout).map (p, ·) ++ levelEdges fanout parents (orphans.drop fanout) := by
  have htake : (orphans.take fanout).length = fanout := List.length_take_of_le h
  have hzip := zip_replicate p (orphans.take fanout)
  rw [htake] at hzip
  unfold levelEdges
  conv_lhs => rw [← List.take_append_drop fanout orphans]
  rw [List.flatMap_cons, List.zip_append (by simp [htake]), hzip]

lemma connectLevel_eq (fanout : ℕ) (parents orphans : List Name) (t : Tree) :
    connectLevel address fanout parents orphans t =
      if parents.length * fanout ≤ orphans.length then
        .ok (t.addEdges address (levelEdges fanout parents orphans))
      else .error (.fault .readPast) := by
  induction parents generalizing orphans t with
  | nil => simp [connectLevel, levelEdges, Tree.addEdges, pure, Except.pure]
  | cons p parents ih =>
      have hlength : (p :: parents).length * fanout = fanout + parents.length * fanout := by
        rw [List.length_cons, Nat.succ_mul, Nat.add_comm]
      rw [connectLevel, adopt_eq, hlength]
      by_cases hfirst : fanout ≤ orphans.length
      · simp only [if_pos hfirst, ok_bind, ih, List.length_drop, levelEdges_cons hfirst]
        by_cases hrest : parents.length * fanout ≤ orphans.length - fanout
        · rw [if_pos hrest, if_pos (by omega), Tree.addEdges_append]
        · rw [if_neg hrest, if_neg (by omega)]
      · rw [if_neg hfirst, if_neg (by omega)]
        rfl

/-- The edges of a tree with these levels. -/
def treeEdges : List (BitVec 32) → List (List Name) → List (Name × Name)
  | fanout :: fanouts, above :: below :: levels =>
      levelEdges fanout.toNat above below ++ treeEdges fanouts (below :: levels)
  | _, _ => []

/-- The products of the fan-outs, as numbers. -/
def products (nodes : ℕ) (fanouts : List (BitVec 32)) : List ℕ :=
  (fanouts.map BitVec.toNat).scanl (· * ·) nodes

lemma products_cons (nodes : ℕ) (fanout : BitVec 32) :
    products nodes (fanout :: fanouts) = nodes :: products (nodes * fanout.toNat) fanouts :=
  List.scanl_cons ..

/-- A level is as long as it was counted. -/
def Counted (nodes : BitVec 32) (fanouts : List (BitVec 32)) (levels : List (List Name)) : Prop :=
  levels.map List.length = (nodes :: levelSizes nodes fanouts).map BitVec.toNat

/-- No product leaves 32 bits. -/
def Small (nodes : ℕ) (fanouts : List (BitVec 32)) : Prop := ∀ n ∈ products nodes fanouts, n < 2 ^ 32

lemma small_cons {nodes : ℕ} {fanout : BitVec 32} : Small nodes (fanout :: fanouts) ↔
    nodes < 2 ^ 32 ∧ Small (nodes * fanout.toNat) fanouts := by
  rw [Small, products_cons, List.forall_mem_cons]
  rfl

lemma Small.lt {nodes : ℕ} (h : Small nodes fanouts) : nodes < 2 ^ 32 := by
  cases fanouts with
  | nil => exact h nodes (by simp [products])
  | cons fanout fanouts => exact (small_cons.mp h).1

lemma toNat_mul_of_lt {nodes fanout : BitVec 32} (h : nodes.toNat * fanout.toNat < 2 ^ 32) :
    (nodes * fanout).toNat = nodes.toNat * fanout.toNat := by
  rw [BitVec.toNat_mul, Nat.mod_eq_of_lt h]

theorem connectTree_eq {nodes : BitVec 32} (h : Counted nodes fanouts levels) (t : Tree) :
    (Small nodes.toNat fanouts →
      connectTree address fanouts levels t = .ok (t.addEdges address (treeEdges fanouts levels))) ∧
    (¬Small nodes.toNat fanouts →
      connectTree address fanouts levels t = .error (.fault .readPast)) := by
  induction fanouts generalizing nodes levels t with
  | nil =>
      obtain ⟨above, rfl⟩ : ∃ above, levels = [above] :=
        List.length_eq_one_iff.mp (by simpa [levelSizes] using congrArg List.length h)
      refine ⟨fun _ => rfl, fun hsmall => absurd ?_ hsmall⟩
      simpa [Small, products] using nodes.isLt
  | cons fanout fanouts ih =>
      obtain ⟨above, below, rest, rfl⟩ : ∃ above below rest, levels = above :: below :: rest := by
        match levels, congrArg List.length h with
        | above :: below :: rest, _ => exact ⟨above, below, rest, rfl⟩
      simp only [Counted, levelSizes, List.map_cons, List.cons.injEq] at h
      obtain ⟨habove, hbelow, hrest⟩ := h
      have hcounted : Counted (nodes * fanout) fanouts (below :: rest) := by
        simp [Counted, hbelow, hrest]
      rw [connectTree, connectLevel_eq, habove, hbelow, small_cons, and_iff_right nodes.isLt]
      by_cases hlt : nodes.toNat * fanout.toNat < 2 ^ 32
      · rw [← toNat_mul_of_lt hlt, if_pos le_rfl, ok_bind, treeEdges, Tree.addEdges_append]
        exact ih hcounted _
      · have hsmall : ¬Small (nodes.toNat * fanout.toNat) fanouts := fun h => hlt h.lt
        have hwrap : (nodes * fanout).toNat < nodes.toNat * fanout.toNat :=
          (nodes * fanout).isLt.trans_le (not_lt.mp hlt)
        rw [if_neg (not_le.mpr hwrap)]
        exact ⟨fun h => absurd h hsmall, fun _ => rfl⟩

/-- Every level has the orphans that the one above it takes. -/
inductive Fanned : List (BitVec 32) → List (List Name) → Prop
  | last (leaves : List Name) : Fanned [] [leaves]
  | level {fanout : BitVec 32} {fanouts : List (BitVec 32)} {above below : List Name}
      {rest : List (List Name)} (hlength : below.length = above.length * fanout.toNat)
      (hbelow : Fanned fanouts (below :: rest)) :
      Fanned (fanout :: fanouts) (above :: below :: rest)

lemma Counted.fanned {nodes : BitVec 32} (h : Counted nodes fanouts levels)
    (hsmall : Small nodes.toNat fanouts) : Fanned fanouts levels := by
  induction fanouts generalizing nodes levels with
  | nil =>
      obtain ⟨above, rfl⟩ : ∃ above, levels = [above] :=
        List.length_eq_one_iff.mp (by simpa [levelSizes] using congrArg List.length h)
      exact .last above
  | cons fanout fanouts ih =>
      obtain ⟨above, below, rest, rfl⟩ : ∃ above below rest, levels = above :: below :: rest := by
        match levels, congrArg List.length h with
        | above :: below :: rest, _ => exact ⟨above, below, rest, rfl⟩
      simp only [Counted, levelSizes, List.map_cons, List.cons.injEq] at h
      obtain ⟨habove, hbelow, hrest⟩ := h
      have hcounted : Counted (nodes * fanout) fanouts (below :: rest) := by
        simp [Counted, hbelow, hrest]
      have hnext := (small_cons.mp hsmall).2
      have hproduct := toNat_mul_of_lt hnext.lt
      refine .level (by rw [hbelow, habove, hproduct]) (ih hcounted ?_)
      rwa [hproduct]

lemma Fanned.sizes (h : Fanned fanouts levels) :
    levels.map List.length = products (levels.head?.map List.length |>.getD 0) fanouts := by
  induction h with
  | last leaves => simp [products]
  | level hlength _ ih =>
      rw [products_cons, List.map_cons, ih]
      simp [hlength]

lemma fst_levelEdges {fanout : ℕ} (hlength : orphans.length = parents.length * fanout) :
    (levelEdges fanout parents orphans).map Prod.fst = parents.flatMap (List.replicate fanout) := by
  rw [levelEdges, List.map_fst_zip]
  simp [List.length_flatMap, hlength]

lemma snd_levelEdges {fanout : ℕ} (hlength : orphans.length = parents.length * fanout) :
    (levelEdges fanout parents orphans).map Prod.snd = orphans := by
  rw [levelEdges, List.map_snd_zip]
  simp [List.length_flatMap, hlength]

lemma mem_levelEdges {fanout : ℕ} {e : Name × Name} (he : e ∈ levelEdges fanout parents orphans) :
    e.1 ∈ parents ∧ e.2 ∈ orphans := by
  obtain ⟨hfst, hsnd⟩ := List.of_mem_zip (show (e.1, e.2) ∈ _ from he)
  obtain ⟨p, hp, hmem⟩ := List.mem_flatMap.mp hfst
  exact ⟨(List.eq_of_mem_replicate hmem) ▸ hp, hsnd⟩

lemma snd_treeEdges (h : Fanned fanouts levels) :
    (treeEdges fanouts levels).map Prod.snd = levels.tail.flatten := by
  induction h with
  | last leaves => rfl
  | level hlength _ ih =>
      rw [treeEdges, List.map_append, snd_levelEdges hlength, ih]
      rfl

lemma mem_treeEdges {e : Name × Name} (he : e ∈ treeEdges fanouts levels) :
    e.1 ∈ levels.flatten := by
  fun_induction treeEdges fanouts levels with
  | case1 fanout fanouts above below levels ih =>
      rcases List.mem_append.mp he with he | he
      · simp [(mem_levelEdges he).1]
      · rw [List.flatten_cons, List.mem_append]
        exact .inr (ih he)
  | case2 => cases he

/-- The nodes are reached level by level. -/
lemma grown_treeEdges {root : Name} {edges : List (Name × Name)} (h : Fanned fanouts levels)
    (hgrown : Grown root edges)
    (hfirst : ∀ v ∈ levels.head?.getD [], v = root ∨ v ∈ edges.map Prod.snd) :
    Grown root (edges ++ treeEdges fanouts levels) := by
  induction h generalizing edges with
  | last leaves => simpa [treeEdges] using hgrown
  | @level fanout fanouts above below rest hlength _ ih =>
      rw [treeEdges, ← List.append_assoc]
      refine ih (hgrown.append fun e he => hfirst _ (mem_levelEdges he).1) fun v hv => .inr ?_
      rw [List.map_append, snd_levelEdges hlength]
      exact List.mem_append_right _ hv

lemma count_replicates {v : Name} (fanout : ℕ) (hnodup : parents.Nodup) (hv : v ∈ parents) :
    (parents.flatMap (List.replicate fanout)).count v = fanout := by
  obtain ⟨before, behind, rfl⟩ := List.append_of_mem hv
  have hout : ∀ l : List Name, v ∉ l → (l.flatMap (List.replicate fanout)).count v = 0 := by
    intro l hl
    refine List.count_eq_zero.mpr fun hmem => ?_
    obtain ⟨p, hp, heq⟩ := List.mem_flatMap.mp hmem
    exact hl (List.eq_of_mem_replicate heq ▸ hp)
  rw [List.nodup_middle, List.nodup_cons, List.mem_append, not_or] at hnodup
  rw [List.flatMap_append, List.flatMap_cons, List.count_append, List.count_append,
    hout _ hnodup.1.1, hout _ hnodup.1.2, List.count_replicate_self, Nat.zero_add, Nat.add_zero]

lemma count_parents {v : Name} {i : ℕ} {level : List Name} {fanout : BitVec 32}
    (h : Fanned fanouts levels) (hnodup : levels.flatten.Nodup) (hlevel : levels[i]? = some level)
    (hfanout : fanouts[i]? = some fanout) (hv : v ∈ level) :
    ((treeEdges fanouts levels).map Prod.fst).count v = fanout.toNat ∧
      ∀ c, (v, c) ∈ treeEdges fanouts levels → ∃ below, levels[i + 1]? = some below ∧ c ∈ below := by
  induction h generalizing i with
  | last leaves => cases hfanout
  | @level f fanouts above below rest hlength hfanned ih =>
      rw [List.flatten_cons, List.nodup_append'] at hnodup
      obtain ⟨habove, hbelow, hdisjoint⟩ := hnodup
      rw [treeEdges, List.map_append, List.count_append, fst_levelEdges hlength]
      cases i with
      | zero =>
          obtain rfl := Option.some.inj hlevel
          obtain rfl := Option.some.inj hfanout
          have hout : v ∉ (below :: rest).flatten := fun hmem => hdisjoint hv hmem
          rw [count_replicates _ habove hv, List.count_eq_zero.mpr, Nat.add_zero]
          · refine ⟨rfl, fun c hc => ⟨below, rfl, ?_⟩⟩
            rcases List.mem_append.mp hc with hc | hc
            · exact (mem_levelEdges hc).2
            · exact absurd (mem_treeEdges hc) hout
          · intro hmem
            obtain ⟨e, he, rfl⟩ := List.mem_map.mp hmem
            exact hout (mem_treeEdges he)
      | succ i =>
          have hmem : v ∈ (below :: rest).flatten :=
            List.mem_flatten.mpr ⟨level, List.mem_of_getElem? hlevel, hv⟩
          have hout : v ∉ above := fun hv => hdisjoint hv hmem
          obtain ⟨hcount, hchildren⟩ := ih hbelow hlevel hfanout
          rw [hcount, List.count_eq_zero.mpr, Nat.zero_add]
          · refine ⟨rfl, fun c hc => ?_⟩
            rcases List.mem_append.mp hc with hc | hc
            · exact absurd (mem_levelEdges hc).1 hout
            · exact hchildren c hc
          · intro hv
            obtain ⟨p, hp, heq⟩ := List.mem_flatMap.mp hv
            exact hout (List.eq_of_mem_replicate heq ▸ hp)

lemma last_level {v : Name} (h : Fanned fanouts levels) (hnodup : levels.flatten.Nodup)
    (hv : v ∈ levels.getLast?.getD []) : ∀ e ∈ treeEdges fanouts levels, e.1 ≠ v := by
  induction h with
  | last leaves => simp [treeEdges]
  | @level f fanouts above below rest hlength hfanned ih =>
      rw [List.flatten_cons, List.nodup_append'] at hnodup
      obtain ⟨-, hbelow, hdisjoint⟩ := hnodup
      have hlast : v ∈ (below :: rest).getLast?.getD [] := by simpa using hv
      have hmem : v ∈ (below :: rest).flatten := by
        refine List.mem_flatten.mpr ⟨_, List.getLast_mem (List.cons_ne_nil below rest), ?_⟩
        rwa [List.getLast?_eq_some_getLast (List.cons_ne_nil below rest)] at hlast
      intro e he
      rcases List.mem_append.mp he with he | he
      · rintro rfl
        exact hdisjoint (mem_levelEdges he).1 hmem
      · exact ih hbelow hlast e he

end BalancedTree

end MRNet.TopologyFile
