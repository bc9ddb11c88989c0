import MRNet.RecoveryRuns

/-!
# The failure of one process

All its children are given to other processes, whatever the order in which they notice the
failure. The topology in which they choose is the one before the failure, and nobody is given to
a node of the subtree that has been cut off.
-/
namespace MRNet.Recovery
open Codec Relation MRNet.Topology Interleavings
open NetworkTopology
open Forest (Link Rooted Below)
open WaitForAll (Rank)

variable {root failed : Rank} {s s' : State} {t : NetworkTopology} {top : Ptr}

/-- The search does not go below the parent of the orphan. -/
lemma not_below_of_searched {orphan p a : Ptr} (htop : t.parentOf top = none)
    (hparent : t.parentOf orphan = some p) (ha : Below (searched t orphan) a top) (hne : a ≠ p) :
    ¬Below t.parentOf a p := by
  intro hbelow
  induction hbelow using ReflTransGen.head_induction_on with
  | refl => exact hne rfl
  | @head a b hab _ ih =>
      rcases ReflTransGen.cases_head ha with rfl | ⟨b', hb', hrest⟩
      · rw [Link, htop] at hab
        cases hab
      · obtain ⟨hlink, hother⟩ := link_searched_iff.mp hb'
        obtain rfl := Forest.link_rightUnique _ hlink hab
        exact ih hrest fun heq => hother (heq ▸ hparent)

/-- The root of the topology is among the adopters, unless it is the parent that has failed. -/
lemma top_mem_adopters (hcharted : Charted t none) {orphan p : Ptr} {adopters : List Ptr} {n : ℕ}
    (hparent : t.parentOf orphan = some p) (hne : p ≠ top) (hinner : t.flagOf top = some false)
    (h : t.findPotentialAdopters orphan n top [] = .ok adopters) : top ∈ adopters := by
  cases n with
  | zero => cases h
  | succ n =>
      rw [findPotentialAdopters] at h
      obtain ⟨orphanNode, horphan, h⟩ := bind_ok_iff.mp h
      obtain ⟨node, hnode, h⟩ := bind_ok_iff.mp h
      rw [← parentOf_of_deref horphan, hparent] at h
      rw [flagOf, view_of_lookup _ (deref_ok_iff.mp hnode), Option.some_inj] at hinner
      rw [hinner, if_neg (by simpa using hne)] at h
      obtain ⟨parts, rfl, -⟩ := foldlM_appended (P := fun _ _ => True) (fun c _ acc acc' hc => by
        obtain ⟨found, hfound, -⟩ :=
          findPotentialAdopters_ok hcharted.links hcharted.childSets hcharted.inner hc
        exact ⟨found, hfound, trivial⟩) h
      simp

lemma Whole.top_inner (h : Whole root t top) (hcharted : Charted t none) {p : Ptr} (hp : t.Live p)
    (hne : p ≠ top) : t.flagOf top = some false := by
  have habove := (reflTransGen_iff_eq_or_transGen.mp (h.below p hp)).resolve_left hne.symm
  obtain ⟨c, -, hc⟩ := TransGen.tail'_iff.mp habove
  exact hcharted.inner c top hc

/-- The scores of the adopters can be computed. -/
lemma Whole.scores_return (h : Whole root t top) (hcharted : Charted t none) {orphan p : Ptr}
    (hparent : t.parentOf orphan = some p) {adopters : List Ptr}
    (hadopters : ∀ a ∈ adopters, t.Live a) :
    ∃ r, t.computeAdoptionScores adopters orphan = .ok r := by
  have horphan : t.Live orphan := live_of_parentOf hparent
  have habove : TransGen (Link t.parentOf) orphan top :=
    TransGen.head' hparent (h.below p (hcharted.links.parent_live hparent))
  rw [computeAdoptionScores_returns_iff hcharted.links h.tree.isRoot h.tree.live horphan hadopters]
  refine ⟨(wellFounded_of_rooted hcharted.rooted).apply top, fun q hq => ?_, fun a ha => ?_⟩
  · exact live_of_flagOf ((hcharted.parents q hq).resolve_right (Option.some_ne_none q).symm)
  · obtain ⟨z, m, n, e, hprox, -⟩ := hcharted.getProximity_spec h.tree.isRoot
      (h.below a (hadopters a ha)) (hadopters a ha) habove
    exact (getProximity_returns_iff hcharted.links (hadopters a ha) horphan).mp ⟨_, hprox⟩

/-- A child finds a new parent, which is not below the one that has failed. -/
lemma Whole.exists_newParent (h : Whole root t top) (hcharted : Charted t none) {rank : Rank}
    {orphan p : Ptr} (hrank : t.findNode rank = some orphan) (hparent : t.parentOf orphan = some p)
    (hne : p ≠ top) {sorts : Sorts} (hsorts : sorts.Permute) :
    ∃ a pa, newParent sorts rank t = some a ∧ t.findNode a = some pa ∧
      ¬Below t.parentOf pa p := by
  have hlive := live_of_parentOf hparent
  have hnotTop : orphan ≠ top := by
    rintro rfl
    rw [h.tree.parentless] at hparent
    cases hparent
  obtain ⟨adopters, hfound, -, heligible, -⟩ := adoption_safe h.tree hlive hnotTop
  have hmem := top_mem_adopters hcharted hparent hne
    (h.top_inner hcharted (hcharted.links.parent_live hparent) hne) hfound
  obtain ⟨found, heq, -, -, hsearched⟩ :=
    findPotentialAdopters_ok hcharted.links hcharted.childSets hcharted.inner hfound
  rw [List.nil_append] at heq
  subst heq
  obtain ⟨⟨t', statistics, terms⟩, hscores⟩ := h.scores_return hcharted hparent
    fun a ha => (hsearched a ha).1
  have hperm := hsorts.byWrsKey statistics terms adopters
  cases hsorted : sorts.byWrsKey statistics terms adopters with
  | nil =>
      rw [hsorted] at hperm
      rw [hperm.symm.eq_nil] at hmem
      cases hmem
  | cons adopter rest =>
      have hadopter : adopter ∈ adopters := hperm.mem_iff.mp (hsorted ▸ List.mem_cons_self)
      obtain ⟨a, ha⟩ := Option.isSome_iff_exists.mp
        (live_iff_rankOf.mp (hsearched adopter hadopter).1)
      refine ⟨a, adopter, ?_, (hcharted.links.keyed a adopter).mpr ha, ?_⟩
      · have hchoice : findNewParent sorts rank .wrs ⟨t, []⟩ 0 =
            .ok (⟨t', adopter :: rest⟩, some adopter) := by
          rw [findNewParent, if_neg (lt_irrefl 0)]
          dsimp only
          rw [hrank]
          dsimp only
          rw [chooseParent, adoptersOf, h.tree.isRoot]
          dsimp only
          rw [hfound, ok_bind, if_neg (List.ne_nil_of_mem hmem), hscores, ok_bind]
          dsimp only
          rw [hsorted]
          rfl
        rw [newParent, hchoice]
        exact ha
      · exact not_below_of_searched h.tree.parentless hparent (hsearched adopter hadopter).2
          fun heq => (heligible adopter hadopter).notParent (heq ▸ hparent)

/-- The processes that have recovered are children of the one that has failed, and their new
parents are not below it. Nothing else has changed. -/
structure Healing (t : NetworkTopology) (failed : Rank) (pf : Ptr) (recovered : List Rank)
    (s : State) : Prop where
  alive : ∀ r, s.alive r = true ↔ (t.findNode r).isSome = true ∧ r ≠ failed
  enabled : ∀ r, s.disabled r = false
  nodup : recovered.Nodup
  kept : ∀ r, r ∉ recovered → s.connection r = ((State.initial t).fail failed).connection r
  moved : ∀ r ∈ recovered, (State.initial t).connection r = some failed ∧
    ∃ a pa, s.connection r = some a ∧ t.findNode a = some pa ∧ ¬Below t.parentOf pa pf

variable {pf : Ptr} {recovered : List Rank}

lemma ne_of_not_below (hpf : t.findNode failed = some pf) {a : Rank} {pa : Ptr}
    (ha : t.findNode a = some pa) (hout : ¬Below t.parentOf pa pf) : a ≠ failed := by
  rintro rfl
  cases hpf.symm.trans ha
  exact hout .refl

/-- No process is its own parent at the start. -/
lemma initial_connection_ne (htree : Tree t top) {r p : Rank}
    (h : (State.initial t).connection r = some p) : p ≠ r := by
  rintro rfl
  exact (rooted_initial htree p).not_circular (TransGen.single h)

namespace Healing

lemma alive_of_outside (inv : Healing t failed pf recovered s) (hpf : t.findNode failed = some pf)
    {a : Rank} {pa : Ptr} (ha : t.findNode a = some pa) (hout : ¬Below t.parentOf pa pf) :
    s.alive a = true :=
  (inv.alive a).mpr ⟨by rw [ha]; rfl, ne_of_not_below hpf ha hout⟩

lemma kept_some (inv : Healing t failed pf recovered s) {r p : Rank} (hr : r ∉ recovered)
    (hinit : (State.initial t).connection r = some p) (hne : r ≠ failed) (hp : p ≠ failed) :
    s.connection r = some p :=
  (inv.kept r hr).trans (State.fail_connection_iff.mpr ⟨hinit, hne, hp⟩)

/-- The processes that have not recovered yet. -/
lemma orphaned_iff (inv : Healing t failed pf recovered s) (h : Whole root t top) {r : Rank} :
    s.Orphaned root r ↔ (State.initial t).connection r = some failed ∧ r ∉ recovered := by
  constructor
  · rintro ⟨halive, hne, hnone⟩
    obtain ⟨hsome, hnotFailed⟩ := (inv.alive r).mp halive
    have hr : r ∉ recovered := by
      intro hmem
      obtain ⟨-, a, -, ha, -⟩ := inv.moved r hmem
      cases ha.symm.trans hnone
    obtain ⟨pr, hpr⟩ := Option.isSome_iff_exists.mp hsome
    rcases ReflTransGen.cases_head (h.found_below hpr) with rfl | ⟨q, hq, -⟩
    · exact absurd (h.eq_root hpr) hne
    · obtain ⟨rq, -, hinit⟩ := exists_initial_connection h.tree hpr hq
      by_cases hfailed : rq = failed
      · exact ⟨hfailed ▸ hinit, hr⟩
      · cases (inv.kept_some hr hinit hnotFailed hfailed).symm.trans hnone
  · rintro ⟨hinit, hr⟩
    obtain ⟨pr, q, hpr, hq, -⟩ := initial_connection_iff.mp hinit
    refine ⟨(inv.alive r).mpr ⟨by rw [hpr]; rfl, (initial_connection_ne h.tree hinit).symm⟩, ?_, ?_⟩
    · rintro rfl
      have htop : pr = top :=
        Option.some_inj.mp (hpr.symm.trans ((h.tree.links.keyed r top).mpr h.rank))
      rw [htop, h.tree.parentless] at hq
      cases hq
    · refine Option.eq_none_iff_forall_ne_some.mpr fun p hp => ?_
      obtain ⟨hp, -, hne⟩ := State.fail_connection_iff.mp ((inv.kept r hr).symm.trans hp)
      exact hne (Option.some_inj.mp (hp.symm.trans hinit))

/-- A process that recovers is not disabled. -/
lemma recover (inv : Healing t failed pf recovered s) (h : Whole root t top)
    (hcharted : Charted t none) (hpf : t.findNode failed = some pf) (hne : failed ≠ root)
    {r : Rank} {sorts : Sorts} (hsorts : sorts.Permute)
    (hstep : step root s (.recover r t sorts) = some s') :
    Healing t failed pf (recovered ++ [r]) s' := by
  have horphaned : s.Orphaned root r := by
    cases step_of_eq_some hstep with
    | adopted h _ _ => exact h
    | refused h _ _ => exact h
    | disabled h _ => exact h
  obtain ⟨hinit, hr⟩ := (inv.orphaned_iff h).mp horphaned
  obtain ⟨orphan, p, horphan, hparent, hrank⟩ := initial_connection_iff.mp hinit
  have hp : p = pf :=
    Option.some_inj.mp (((h.tree.links.keyed failed p).mpr hrank).symm.trans hpf)
  subst hp
  have hnotTop : p ≠ top := by
    rintro rfl
    exact hne (Option.some_inj.mp (hrank.symm.trans h.rank))
  obtain ⟨a, pa, hnew, ha, hout⟩ := h.exists_newParent hcharted horphan hparent hnotTop hsorts
  cases (step_recover horphaned (inv.enabled r) t sorts).symm.trans hstep
  rw [recoverFromParentFailure, hnew]
  dsimp only
  rw [if_pos (inv.alive_of_outside hpf ha hout), inv.enabled a, if_neg Bool.false_ne_true]
  refine ⟨inv.alive, inv.enabled, List.nodup_append'.mpr ⟨inv.nodup, List.nodup_singleton r, ?_⟩,
    fun r' hr' => ?_, fun r' hr' => ?_⟩
  · exact List.disjoint_singleton.mpr hr
  · rw [List.mem_append, List.mem_singleton, not_or] at hr'
    exact (Function.update_of_ne hr'.2 ..).trans (inv.kept r' hr'.1)
  · by_cases heq : r' = r
    · subst heq
      exact ⟨hinit, a, pa, Function.update_self .., ha, hout⟩
    · have hmem : r' ∈ recovered :=
        (List.mem_append.mp hr').resolve_right fun h => heq (List.mem_singleton.mp h)
      obtain ⟨hinit', a', pa', ha', hpa', hout'⟩ := inv.moved r' hmem
      exact ⟨hinit', a', pa', (Function.update_of_ne heq ..).trans ha', hpa', hout'⟩

/-- Nothing has changed on the way from a node outside the subtree to the front-end. -/
lemma connected_outside (inv : Healing t failed pf recovered s) (h : Whole root t top)
    (hpf : t.findNode failed = some pf) {r : Rank} {pr : Ptr} (hr : t.findNode r = some pr)
    (hout : ¬Below t.parentOf pr pf) : Below s.connection r root := by
  have hbelow := h.found_below hr
  induction hbelow using ReflTransGen.head_induction_on generalizing r with
  | refl =>
      rw [h.eq_root hr]
      exact .refl
  | @head p q hlink _ ih =>
      obtain ⟨rq, hq, hinit⟩ := exists_initial_connection h.tree hr hlink
      have hqout : ¬Below t.parentOf q pf := fun hq => hout (hq.head hlink)
      have hqne := ne_of_not_below hpf hq hqout
      have hnot : r ∉ recovered := fun hmem =>
        hqne (Option.some_inj.mp (hinit.symm.trans (inv.moved r hmem).1))
      exact (ih hq hqout).head (inv.kept_some hnot hinit (ne_of_not_below hpf hr hout) hqne)

/-- Below the process that has failed the way leads to one of its children, and on to its new
parent. -/
lemma connected (inv : Healing t failed pf recovered s) (h : Whole root t top)
    (hpf : t.findNode failed = some pf) {r : Rank} (halive : s.alive r = true) :
    ∃ q, Below s.connection r q ∧ (q = root ∨ s.Orphaned root q) := by
  obtain ⟨hsome, hne⟩ := (inv.alive r).mp halive
  obtain ⟨pr, hr⟩ := Option.isSome_iff_exists.mp hsome
  by_cases hin : Below t.parentOf pr pf
  · induction hin using ReflTransGen.head_induction_on generalizing r with
    | refl =>
        have hranked := (h.tree.links.keyed r pf).mp hr
        exact absurd (Option.some_inj.mp
          (hranked.symm.trans ((h.tree.links.keyed failed pf).mp hpf))) hne
    | @head p q hlink _ ih =>
        obtain ⟨rq, hq, hinit⟩ := exists_initial_connection h.tree hr hlink
        by_cases hmem : r ∈ recovered
        · obtain ⟨-, a, pa, ha, hpa, hout⟩ := inv.moved r hmem
          exact ⟨root, (inv.connected_outside h hpf hpa hout).head ha, .inl rfl⟩
        · by_cases hfailed : rq = failed
          · exact ⟨r, .refl, .inr ((inv.orphaned_iff h).mpr ⟨hfailed ▸ hinit, hmem⟩)⟩
          · have hqalive := (inv.alive rq).mpr ⟨by rw [hq]; rfl, hfailed⟩
            obtain ⟨z, hbelow, hz⟩ := ih hqalive (by rw [hq]; rfl) hfailed hq
            exact ⟨z, hbelow.head (inv.kept_some hmem hinit hne hfailed), hz⟩
  · exact ⟨root, inv.connected_outside h hpf hr hin, .inl rfl⟩

/-- Recoveries one after the other. -/
lemma run (inv : Healing t failed pf recovered s) (h : Whole root t top)
    (hcharted : Charted t none) (hpf : t.findNode failed = some pf) (hne : failed ≠ root)
    {recoveries : List (Rank × Sorts)} (hsorts : ∀ x ∈ recoveries, x.2.Permute)
    (hrun : runSchedule (step root) s (recoveries.map fun x => .recover x.1 t x.2) = some s') :
    Healing t failed pf (recovered ++ recoveries.map Prod.fst) s' := by
  induction recoveries generalizing recovered s with
  | nil =>
      cases hrun
      simpa using inv
  | cons x recoveries ih =>
      rw [List.map_cons, runSchedule, List.foldlM_cons] at hrun
      cases hstep : step root s (.recover x.1 t x.2) with
      | none =>
          rw [hstep] at hrun
          cases hrun
      | some s₁ =>
          rw [hstep] at hrun
          have inv₁ := inv.recover h hcharted hpf hne (hsorts x List.mem_cons_self) hstep
          have hrest := ih inv₁ (fun y hy => hsorts y (List.mem_cons_of_mem x hy)) hrun
          rwa [List.append_assoc, List.singleton_append, ← List.map_cons] at hrest

end Healing

end MRNet.Recovery
