import MRNet.BalancedSpec

/-!
# Trees as they are specified

A tree has the levels of its specification if as many nodes are on them as the fan-outs tell,
and every node has its own children on the level below. With two lists, nodes without children
are on hosts for back-ends, and the others but the root on internal hosts.
-/
namespace MRNet.TopologyFile
open Codec DepthFirst
open Wire (Run Returns)
open SerialGraph (Text)
open Std (TreeMap)

/-- The node is named as a process of one of the hosts. -/
def NamedFor (hostNameMax : ℕ) (hosts : HostList) (name : Name) : Prop :=
  ∃ entry ∈ hosts, ∃ slot, name = nodeName hostNameMax (entry.1, slot)

/-- Nodes without children are back-ends. -/
def HostLists.RolesKept (hostNameMax : ℕ) (t : Tree) : HostLists → Prop
  | single _ _ => True
  | separate backend internal _ _ => ∀ k ∈ t.nodesByName,
      (t.childrenOf k = [] → NamedFor hostNameMax backend k) ∧
        (t.childrenOf k ≠ [] → k ≠ t.root → NamedFor hostNameMax internal k)

namespace BalancedTree

/-- Each level is as long as the product of the fan-outs above it. -/
structure LevelsOf (fanouts : List (BitVec 32)) (t : Tree) (levels : List (List Name)) : Prop where
  first : levels.head? = some [t.root]
  sizes : levels.map List.length = products 1 fanouts
  nodup : levels.flatten.Nodup
  nodes : ∀ k, k ∈ t.nodesByName ↔ k ∈ levels.flatten
  children : ∀ (i : ℕ) (level : List Name) (fanout : BitVec 32), levels[i]? = some level →
    fanouts[i]? = some fanout → ∀ v ∈ level, (t.childrenOf v).length = fanout.toNat ∧
      ∀ c ∈ t.childrenOf v, ∃ below, levels[i + 1]? = some below ∧ c ∈ below
  leaves : ∀ v ∈ levels.getLast?.getD [], t.childrenOf v = []
  one_parent : ∀ a b v, v ∈ t.childrenOf a → v ∈ t.childrenOf b → a = b

def MatchesSpec (fanouts : List (BitVec 32)) (t : Tree) : Prop := ∃ levels, LevelsOf fanouts t levels

/-- What a specification promises of the runs with any fuel. -/
def Conforms (hostNameMax : ℕ) (lists : HostLists) (fanouts : List (BitVec 32))
    (m : ℕ → Run (Option BalancedTree)) : Prop :=
  (∀ fuel f, m fuel ≠ throw (.fault f)) ∧
  ∀ b, Returns m (some b) → b.valid = true →
    MatchesSpec fanouts b.tree ∧ lists.RolesKept hostNameMax b.tree

/-- A fan-out of zero makes leaves of a level above. -/
def RolesFit (hostNameMax : ℕ) (fanouts : List (BitVec 32)) (levels : List (List Name)) :
    HostLists → Prop
  | .single _ _ => True
  | .separate backend _ _ _ => ∀ e ∈ fanouts.zip levels, e.1 = 0 →
      ∀ v ∈ e.2, NamedFor hostNameMax backend v

variable {address : Name → ℕ} {hostNameMax : ℕ} {fe : FrontEnd hostNameMax} {spec : Text}
  {fanouts : List (BitVec 32)} {lists : HostLists} {levels : List (List Name)} {t t' : Tree}

/-- Children are counted by the edges. -/
lemma length_childrenOf {names : List Name} {edges : List (Name × Name)}
    (h : t.Shape names edges) (htargets : (edges.map Prod.snd).Nodup) (v : Name) :
    (t.childrenOf v).length = (edges.map Prod.fst).count v := by
  have hperm : (t.childrenOf v).Perm ((edges.filter fun e => e.1 = v).map Prod.snd) := by
    have hnodup : ((edges.filter fun e => e.1 = v).map Prod.snd).Nodup :=
      htargets.sublist (List.filter_sublist.map Prod.snd)
    rw [List.perm_ext_iff_of_nodup (h.nodup v) hnodup]
    intro c
    rw [h.children_iff]
    simp
  rw [hperm.length_eq, List.length_map, List.count, List.countP_map, List.countP_eq_length_filter]
  exact congrArg List.length (List.filter_congr fun e _ => by simp [Bool.beq_eq_decide_eq])

theorem levelsOf {root : Name} (hfanned : Fanned fanouts levels) (hhead : levels.head? = some [root])
    (hnodup : levels.flatten.Nodup) (hroot : t.root = root)
    (hshape : t.Shape levels.flatten (treeEdges fanouts levels)) : LevelsOf fanouts t levels := by
  have htargets : ((treeEdges fanouts levels).map Prod.snd).Nodup := by
    rw [snd_treeEdges hfanned]
    exact hnodup.sublist (List.tail_sublist levels).flatten
  refine ⟨by rw [hroot, hhead], by rw [hfanned.sizes, hhead]; rfl, hnodup, hshape.mem_iff,
    fun i level fanout hlevel hfanout v hv => ?_, fun v hv => ?_, fun a b v ha hb => ?_⟩
  · obtain ⟨hcount, hbelow⟩ := count_parents hfanned hnodup hlevel hfanout hv
    exact ⟨(length_childrenOf hshape htargets v).trans hcount,
      fun c hc => hbelow c ((hshape.children_iff v c).mp hc)⟩
  · refine List.eq_nil_iff_forall_not_mem.mpr fun c hc => ?_
    exact last_level hfanned hnodup hv _ ((hshape.children_iff v c).mp hc) rfl
  · have hinj := List.inj_on_of_nodup_map htargets
    exact congrArg Prod.fst (hinj ((hshape.children_iff a v).mp ha)
      ((hshape.children_iff b v).mp hb) rfl)

/-- A tree with a node for every position has no name twice. -/
lemma LevelsOf.names_nodup {levels' : List (List Name)} {edges : List (Name × Name)}
    (h : LevelsOf fanouts t levels') (hsizes : levels.map List.length = products 1 fanouts)
    (hshape : t.Shape levels.flatten edges) : levels.flatten.Nodup := by
  have hkeys : t.nodesByName.keys.Perm levels'.flatten := by
    rw [List.perm_ext_iff_of_nodup TreeMap.nodup_keys h.nodup]
    intro k
    rw [TreeMap.mem_keys, h.nodes]
  have hlength : levels'.flatten.length = levels.flatten.length := by
    rw [List.length_flatten, List.length_flatten, h.sizes, hsizes]
  have hcard : levels.flatten.toFinset.card = levels.flatten.length := by
    rw [← hshape.size_eq, ← TreeMap.length_keys, hkeys.length_eq, hlength]
  exact Multiset.coe_nodup.mp (Multiset.toFinset_card_eq_card_iff_nodup.mp hcard)

lemma mem_offered {limit : BitVec 32} {hosts : HostList} {counts : HostProcCounts} {h : Host}
    (hmem : h ∈ offered limit hosts counts) : ∃ entry ∈ hosts, entry.1 = h.1 := by
  induction hosts generalizing counts with
  | nil => cases hmem
  | cons entry rest ih =>
      rcases List.mem_append.mp hmem with hmem | hmem
      · obtain ⟨i, -, rfl⟩ := List.mem_map.mp hmem
        exact ⟨entry, by simp, rfl⟩
      · obtain ⟨e, he, heq⟩ := ih hmem
        exact ⟨e, List.mem_cons_of_mem _ he, heq⟩

/-- Slots on hosts of the list are named for them. -/
lemma namedFor_slots {hosts : HostList} {slots : List Host}
    (hslots : ∀ h ∈ slots, ∃ entry ∈ hosts, entry.1 = h.1) {k : Name}
    (hk : k ∈ slots.map (nodeName hostNameMax)) : NamedFor hostNameMax hosts k := by
  obtain ⟨h, hh, rfl⟩ := List.mem_map.mp hk
  obtain ⟨entry, hentry, heq⟩ := hslots h hh
  exact ⟨entry, hentry, h.2, by rw [heq]⟩

lemma namedFor_offered {limit : BitVec 32} {hosts : HostList} {counts : HostProcCounts}
    {slots : List Host} (hslots : slots ⊆ offered limit hosts counts) {k : Name}
    (hk : k ∈ slots.map (nodeName hostNameMax)) : NamedFor hostNameMax hosts k :=
  namedFor_slots (fun _ hh => mem_offered (hslots hh)) hk

lemma deal_subset {sizes : List (BitVec 32)} {slots level : List Host}
    (h : level ∈ deal sizes slots) : level ⊆ slots := by
  induction sizes generalizing slots with
  | nil => cases h
  | cons nodes sizes ih =>
      rcases List.mem_cons.mp h with rfl | h
      · exact List.take_subset _ _
      · exact fun x hx => List.drop_subset _ _ (ih h hx)

variable {backend internal : HostList} {beProcs intProcs : BitVec 32} {feHost : Text} {k : Name}

/-- Where a node was placed. -/
lemma mem_levels
    (hk : k ∈ ((HostLists.separate backend internal beProcs intProcs).levels feHost fanouts
      hostNameMax).flatten) :
    k = nodeName hostNameMax (feHost, 0) ∨ NamedFor hostNameMax internal k ∨
      k ∈ ((HostLists.separate backend internal beProcs intProcs).levels feHost fanouts
        hostNameMax).getLast?.getD [] := by
  simp only [HostLists.levels, HostLists.places, levelNames, List.map_cons, List.map_append,
    List.flatten_cons, List.flatten_append, List.mem_append, List.map_nil, List.mem_singleton,
    List.flatten_nil, List.append_nil] at hk ⊢
  rcases hk with hroot | hinner | hleaf
  · exact .inl hroot
  · obtain ⟨level, hlevel, hk⟩ := List.mem_flatten.mp hinner
    obtain ⟨slots, hslots, rfl⟩ := List.mem_map.mp hlevel
    exact .inr (.inl (namedFor_offered (deal_subset hslots) hk))
  · refine .inr (.inr ?_)
    rw [← List.cons_append, List.getLast?_append]
    simpa using hleaf

lemma namedFor_last
    (hk : k ∈ ((HostLists.separate backend internal beProcs intProcs).levels feHost fanouts
      hostNameMax).getLast?.getD []) : NamedFor hostNameMax backend k := by
  simp only [HostLists.levels, HostLists.places, levelNames, List.map_cons, List.map_append,
    List.map_nil] at hk
  rw [← List.cons_append, List.getLast?_append] at hk
  have hleaf : k ∈ (((HostLists.separate backend internal beProcs intProcs).leafSlots feHost
      fanouts).take (HostLists.leafCount fanouts)).map (nodeName hostNameMax) := by
    simpa using hk
  exact namedFor_offered (List.take_subset _ _) hleaf

/-- The roles are kept where no fan-out is zero, or the leaves it makes are on hosts for
back-ends. -/
lemma rolesKept_iff (hlevels : LevelsOf fanouts t (lists.levels feHost fanouts hostNameMax))
    (hroot : t.root = nodeName hostNameMax (feHost, 0)) :
    lists.RolesKept hostNameMax t ↔
      RolesFit hostNameMax fanouts (lists.levels feHost fanouts hostNameMax) lists := by
  cases lists with
  | single hosts maxProcs => exact Iff.rfl
  | separate backend internal beProcs intProcs =>
      constructor
      · rintro hkept ⟨fanout, level⟩ he hzero v hv
        obtain ⟨i, hi⟩ := List.mem_iff_getElem?.mp he
        obtain ⟨hfanout, hlevel⟩ := List.getElem?_zip_eq_some.mp hi
        have hchildren := (hlevels.children i level fanout hlevel hfanout v hv).1
        have hnode := (hlevels.nodes v).mpr
          (List.mem_flatten.mpr ⟨level, List.mem_of_getElem? hlevel, hv⟩)
        refine (hkept v hnode).1 (List.eq_nil_of_length_eq_zero ?_)
        rw [hchildren, show fanout = 0 from hzero]
        rfl
      · intro hfit k hk
        have hmem := (hlevels.nodes k).mp hk
        refine ⟨fun hleaf => ?_, fun hinner hne => ?_⟩
        · obtain ⟨level, hlevel, hk⟩ := List.mem_flatten.mp hmem
          obtain ⟨i, hi⟩ := List.mem_iff_getElem?.mp hlevel
          cases hfanout : fanouts[i]? with
          | some fanout =>
              have hcount := (hlevels.children i level fanout hi hfanout k hk).1
              rw [hleaf, List.length_nil] at hcount
              have hzero : fanout = 0 := BitVec.eq_of_toNat_eq hcount.symm
              exact hfit (fanout, level)
                (List.mem_iff_getElem?.mpr ⟨i, List.getElem?_zip_eq_some.mpr ⟨hfanout, hi⟩⟩) hzero k hk
          | none =>
              have hlength := congrArg List.length hlevels.sizes
              rw [List.length_map, products, List.length_scanl, List.length_map] at hlength
              have hlt := (List.getElem?_eq_some_iff.mp hi).1
              have hle := List.getElem?_eq_none_iff.mp hfanout
              have hlast : k ∈ ((HostLists.separate backend internal beProcs intProcs).levels feHost
                  fanouts hostNameMax).getLast?.getD [] := by
                rw [List.getLast?_eq_getElem?, hlength, Nat.add_sub_cancel,
                  show fanouts.length = i by omega, hi]
                exact hk
              exact namedFor_last hlast
        · rcases mem_levels hmem with heq | hnamed | hlast
          · exact absurd (heq.trans hroot.symm) hne
          · exact hnamed
          · exact absurd (hlevels.leaves k hlast) hinner

/-- Names clash so that `validate` notices it, or the nodes are too many to be counted. -/
def Noticed (fanouts : List (BitVec 32)) (levels : List (List Name)) (root : Name) : Prop :=
  ¬Tree.Tidy root (treeEdges fanouts levels) ∨ 2 ^ 32 ≤ levels.flatten.toFinset.card

lemma tidy_of_nodup {root : Name} (hfanned : Fanned fanouts levels)
    (hhead : levels.head? = some [root]) (hnodup : levels.flatten.Nodup) :
    Tree.Tidy root (treeEdges fanouts levels) := by
  obtain ⟨rest, rfl⟩ : ∃ rest, levels = [root] :: rest := List.head?_eq_some_iff.mp hhead
  have htargets := snd_treeEdges hfanned
  rw [List.flatten_cons, List.singleton_append] at hnodup
  exact Tree.tidy_of_nodup (htargets ▸ hnodup)

lemma not_noticed {root : Name} (hfanned : Fanned fanouts levels)
    (hhead : levels.head? = some [root]) (hnodup : levels.flatten.Nodup)
    (hlength : levels.flatten.length < 2 ^ 32) : ¬Noticed fanouts levels root := by
  rw [Noticed, not_or, not_not, not_le]
  exact ⟨tidy_of_nodup hfanned hhead hnodup, (List.toFinset_card_le _).trans_lt hlength⟩

lemma conforms_of_refused {m : ℕ → Run (Option BalancedTree)} (h : ∀ fuel, m fuel = pure none) :
    Conforms hostNameMax lists fanouts m := by
  refine ⟨fun fuel f hf => ?_, fun b ⟨n, hn⟩ => ?_⟩
  · rw [h] at hf
    cases hf
  · have hb := hn n le_rfl
    rw [h] at hb
    cases hb

lemma not_conforms_of_fault {m : ℕ → Run (Option BalancedTree)} {f : Fault}
    (h : ∀ fuel, m fuel = throw (.fault f)) : ¬Conforms hostNameMax lists fanouts m :=
  fun hconforms => hconforms.1 0 f (h 0)

lemma not_conforms_of_wrap (hspec : parseSpec spec = some fanouts) (hne : fanouts ≠ [])
    (henough : ¬lists.Shortage fe.host fanouts) (hwrap : ¬Small 1 fanouts) :
    ¬Conforms hostNameMax lists fanouts (create address fe spec lists) :=
  not_conforms_of_fault fun fuel => by
    rw [create_connect hspec hne henough, connect_wraps hne henough hwrap]
    rfl

/-- The run with enough hosts and without a wrap. -/
theorem create_returns (hspec : parseSpec spec = some fanouts) (fe : FrontEnd hostNameMax)
    (address : Name → ℕ) (hne : fanouts ≠ []) (henough : ¬lists.Shortage fe.host fanouts)
    (hsmall : Small 1 fanouts) :
    let levels := lists.levels fe.host fanouts hostNameMax
    (∀ fuel f, create address fe spec lists fuel ≠ throw (.fault f)) ∧
    ∃ b, Returns (create address fe spec lists) (some b) ∧
      b.nodesByLevel = [(fe.host, 0)] :: lists.places fe.host fanouts ∧
      b.tree.root = written (fe.host, 0) ∧
      b.tree.Shape levels.flatten (treeEdges fanouts levels) ∧
      (b.valid = true ↔ ¬Noticed fanouts levels (written (fe.host, 0))) := by
  obtain ⟨valid, t, hvalidate, hroot, hshape, hvalid⟩ := validated hne henough hsmall address
  have hrun (fuel : ℕ) : create address fe spec lists fuel = _ := create_connect hspec hne henough
  refine ⟨fun fuel f hf => ?_, ⟨valid, t, _⟩,
    ⟨(connected address lists fe fanouts).nodesByName.size + 1, fun fuel hfuel => ?_⟩,
    rfl, hroot, hshape, ?_⟩
  · rw [hrun, connect_small hne henough hsmall] at hf
    cases hv : (connected address lists fe fanouts).validate fuel <;> rw [hv] at hf <;> cases hf
  · rw [hrun, connect_small hne henough hsmall, hvalidate fuel (Nat.lt_of_succ_le hfuel)]
    rfl
  · rw [hvalid, Noticed, not_or, not_not, not_le]

/-- A tree comes of enough hosts only, and without a wrap. -/
lemma of_returns (hspec : parseSpec spec = some fanouts) {b : BalancedTree}
    (h : Returns (create address fe spec lists) (some b)) :
    fanouts ≠ [] ∧ ¬lists.Shortage fe.host fanouts ∧ Small 1 fanouts ∧
      b.nodesByLevel = [(fe.host, 0)] :: lists.places fe.host fanouts := by
  obtain ⟨n, hn⟩ := h
  have hrun := hn n le_rfl
  have hne : fanouts ≠ [] := by
    rintro rfl
    rw [create_empty hspec] at hrun
    cases hrun
  have henough : ¬lists.Shortage fe.host fanouts := by
    intro hshort
    rw [create_shortage hspec hshort] at hrun
    cases hrun
  have hsmall : Small 1 fanouts := by
    by_contra hwrap
    rw [create_connect hspec hne henough, connect_wraps hne henough hwrap] at hrun
    cases hrun
  obtain ⟨-, b', hreturns, hlevels, -⟩ := create_returns hspec fe address hne henough hsmall
  obtain rfl := Option.some.inj (hreturns.unique ⟨n, hn⟩)
  exact ⟨hne, henough, hsmall, hlevels⟩

/-- The trees that are as specified: enough hosts are given and no product leaves 32 bits, and
the names of the nodes are their own and on the hosts they belong to, or `validate` fails. -/
theorem create_conforms_iff (hspec : parseSpec spec = some fanouts) (lists : HostLists)
    (fe : FrontEnd hostNameMax) (address : Name → ℕ) :
    Conforms hostNameMax lists fanouts (create address fe spec lists) ↔
      lists.Shortage fe.host fanouts ∨ fanouts ≠ [] ∧ Small 1 fanouts ∧
        ((lists.levels fe.host fanouts hostNameMax).flatten.Nodup ∧
            RolesFit hostNameMax fanouts (lists.levels fe.host fanouts hostNameMax) lists ∨
          Noticed fanouts (lists.levels fe.host fanouts hostNameMax) (written (fe.host, 0))) := by
  by_cases hshort : lists.Shortage fe.host fanouts
  · have hrefused : Conforms hostNameMax lists fanouts (create address fe spec lists) :=
      conforms_of_refused fun fuel => create_shortage hspec hshort
    simp [hshort, hrefused]
  by_cases hne : fanouts = []
  · subst hne
    have hfault : ¬Conforms hostNameMax lists [] (create address fe spec lists) :=
      not_conforms_of_fault fun fuel => create_empty hspec
    simp [hshort, hfault]
  by_cases hsmall : Small 1 fanouts
  · obtain ⟨hnofault, b, hreturns, -, hroot, hshape, hvalid⟩ :=
      create_returns hspec fe address hne hshort hsmall
    have hfanned : Fanned fanouts (lists.levels fe.host fanouts hostNameMax) :=
      levels_fanned hne hshort hsmall
    have hhead : (lists.levels fe.host fanouts hostNameMax).head? = _ := levels_head
    have hconforms : Conforms hostNameMax lists fanouts (create address fe spec lists) ↔
        (b.valid = true → MatchesSpec fanouts b.tree ∧ lists.RolesKept hostNameMax b.tree) := by
      refine ⟨fun h => h.2 b hreturns, fun h => ⟨hnofault, fun b' hb' => ?_⟩⟩
      obtain rfl := Option.some.inj (hreturns.unique hb')
      exact h
    rw [hconforms, hvalid]
    simp only [hshort, hne, hsmall, false_or, ne_eq, not_false_eq_true, true_and]
    by_cases hnodup : (lists.levels fe.host fanouts hostNameMax).flatten.Nodup
    · have hlevels := levelsOf hfanned hhead hnodup hroot hshape
      have hmatches : MatchesSpec fanouts b.tree := ⟨_, hlevels⟩
      rw [rolesKept_iff hlevels (hroot.trans (nodeName_root fe).symm)]
      simp only [hnodup, hmatches, true_and]
      exact imp_iff_or_not.trans (or_congr_right not_not)
    · have hnot : ¬MatchesSpec fanouts b.tree := fun ⟨levels', hlevels⟩ =>
        hnodup (hlevels.names_nodup (by rw [hfanned.sizes, hhead]; rfl) hshape)
      simp only [hnot, hnodup, false_and, false_or, imp_false, not_not]
  · have hfault : ¬Conforms hostNameMax lists fanouts (create address fe spec lists) :=
      not_conforms_of_wrap hspec hne hshort hsmall
    simp [hshort, hfault, hsmall]

theorem create_conforms_two :
    Conforms 64 (.single [(['a'], 2)] 2) [2]
      (create (fun _ => 0) (⟨['f', 'e'], by decide⟩ : FrontEnd 64) ['2']
        (.single [(['a'], 2)] 2)) := by
  refine (create_conforms_iff (by decide) _ _ _).mpr (.inr ⟨by decide, ?_, .inl ⟨by decide, trivial⟩⟩)
  simp [Small, products]

/-- Two nodes with 2147483648 children each: the product wraps to zero. -/
theorem create_not_conforms :
    parseSpec "2x2147483648".toList = some [2, 2147483648] ∧
    ¬Conforms 64 (.single [(['a'], 2)] 2) [2, 2147483648]
      (create (fun _ => 0) (⟨['f', 'e'], by decide⟩ : FrontEnd 64) "2x2147483648".toList
        (.single [(['a'], 2)] 2)) := by
  have hspec : parseSpec "2x2147483648".toList = some [2, 2147483648] := by decide +kernel
  have henough : ¬(HostLists.single [(['a'], 2)] 2).Shortage ['f', 'e'] [2, 2147483648] := by
    simp only [HostLists.Shortage, HostLists.Lacking, not_and, not_or, not_lt]
    exact fun _ => ⟨by decide, by decide +kernel, by decide +kernel⟩
  have hwrap : ¬Small 1 [2, 2147483648] := by simp [Small, products]
  exact ⟨hspec, not_conforms_of_wrap hspec (List.cons_ne_nil _ _) henough hwrap⟩

end BalancedTree

end MRNet.TopologyFile
