import MRNet.ScoreRuns

/-!
# Bounds of the terms of adoption scores

As long as the calls keep the scores sound, no subtraction of a score wraps, unless the orphan
is not below the root, or the way from the adopter to it is longer than any that the scores
provide for: from one deepest node to another by way of the root.
-/
namespace MRNet.Topology
open Codec Relation
open SerialGraph (Text)
open WaitForAll (Rank)
open Forest (Link Rooted Below Up IsHeight)
open NetworkTopology

variable {t t' : NetworkTopology} {root orphan a : Ptr} {d : ℕ} {s : TreeStatistics}

/-- No subtraction in `compute_AdoptionScore` wraps, and no divisor is zero. -/
structure WellDefined (s : TreeStatistics) (terms : ScoreTerms) : Prop where
  fanout : terms.fanout ≤ s.maxFanout
  extremes : s.minFanout ≤ s.maxFanout
  /-- If the two are the same then nothing is divided. -/
  fanoutDivisor : s.maxFanout ≠ s.minFanout → s.maxFanout - s.minFanout ≠ 0
  depth : 1 ≤ s.depth
  depthIncrease : terms.depthIncrease ≤ s.depth - 1
  depthDivisor : s.depth - 1 ≠ 0
  double : 1 ≤ 2 * s.depth
  proximity : terms.proximity ≤ 2 * s.depth - 1
  triple : 2 ≤ 2 * s.depth - 1
  proximityDivisor : 2 * s.depth - 1 - 2 ≠ 0

/-- A tree of at least two levels below the root, in which no way is the longest possible. -/
lemma wellDefined_of_bounds {terms : ScoreTerms} (hdepth : s.depth.toNat = d) (htwo : 2 ≤ d)
    (hsmall : d < 2 ^ 31) (hfanout : terms.fanout.toNat ≤ s.maxFanout.toNat)
    (hextremes : s.minFanout.toNat ≤ s.maxFanout.toNat)
    (hincrease : terms.depthIncrease.toNat < d) (hproximity : terms.proximity.toNat < 2 * d) :
    WellDefined s terms := by
  constructor <;> bv_omega

/-- The orphan and the adopter are as deep as the tree is high, and only the root is above the
adopter of what the orphan has cached. -/
structure FarthestApart (t : NetworkTopology) (d : ℕ) (root orphan a : Ptr) : Prop where
  adopterDepth : Up t.parentOf a root d
  orphanDepth : Up t.parentOf orphan root d
  common : ∀ asc, t.ascendantsOf orphan = some asc → ∀ z ∈ asc, Below t.parentOf a z → z = root

/-- What the loop over the parents finds. -/
structure Extremes (t : NetworkTopology) (minFanout maxFanout : BitVec 32) : Prop where
  lower : ∀ p ∈ t.parentNodes, minFanout.toNat ≤ (t.childrenOf p).length
  upper : ∀ p ∈ t.parentNodes, (t.childrenOf p).length ≤ maxFanout.toNat

/-- A node has fewer children than there are ranks. -/
lemma Charted.childrenOf_lt (h : Charted t none) (p : Ptr) :
    (t.childrenOf p).length < 2 ^ 32 := by
  by_cases hp : t.Live p
  · have hmem : ∀ c ∈ t.childrenOf p, Link t.parentOf c p := fun c hc =>
      (h.links.answered c p).mp hc
    have hsub : (t.childrenOf p).toFinset ⊆ t.heap.keys.erase p := by
      intro c hc
      have hlink := hmem c (List.mem_toFinset.mp hc)
      refine Finset.mem_erase.mpr ⟨?_, Finmap.mem_keys.mpr (live_of_parentOf hlink)⟩
      rintro rfl
      exact (h.rooted c).not_circular (TransGen.single hlink)
    calc (t.childrenOf p).length = (t.childrenOf p).toFinset.card :=
          (List.toFinset_card_of_nodup (h.childSets p)).symm
      _ ≤ (t.heap.keys.erase p).card := Finset.card_le_card hsub
      _ < t.levels := Finset.card_erase_lt_of_mem (Finmap.mem_keys.mpr hp)
      _ ≤ 2 ^ 32 := levels_le h.links
  · have hnone : t.childrenOf p = [] := by
      rw [NetworkTopology.childrenOf, Finmap.lookup_eq_none.mpr hp]
      rfl
    rw [hnone]
    exact Nat.two_pow_pos 32

/-- One parent widens the range, and is in it. -/
lemma widen_spec (r : BitVec 32 × BitVec 32) {size : ℕ} (hsize : size < 2 ^ 32) :
    ((widen r size).1.toNat ≤ r.1.toNat ∧ r.2.toNat ≤ (widen r size).2.toNat) ∧
      (widen r size).1.toNat ≤ size ∧ size ≤ (widen r size).2.toNat := by
  have hnat : (BitVec.ofNat 32 size).toNat = size := by
    rw [BitVec.toNat_ofNat, Nat.mod_eq_of_lt hsize]
  simp only [widen, apply_ite BitVec.toNat, hnat]
  split_ifs <;> omega

lemma fanouts_spec (hsize : ∀ p, (t.childrenOf p).length < 2 ^ 32) {ps : List Ptr}
    (hps : ∀ p ∈ ps, t.Live p) (r : BitVec 32 × BitVec 32) :
    ∃ r', (ps.foldlM (fun s p => do
        let node ← t.deref p
        return widen s node.children.length) r : Outcome (BitVec 32 × BitVec 32)) = .ok r' ∧
      (r'.1.toNat ≤ r.1.toNat ∧ r.2.toNat ≤ r'.2.toNat) ∧
      ∀ p ∈ ps, r'.1.toNat ≤ (t.childrenOf p).length ∧ (t.childrenOf p).length ≤ r'.2.toNat := by
  induction ps generalizing r with
  | nil => exact ⟨r, rfl, ⟨le_rfl, le_rfl⟩, by simp⟩
  | cons p ps ih =>
      obtain ⟨node, hnode⟩ := deref_of_live (hps p List.mem_cons_self)
      obtain ⟨⟨hmin, hmax⟩, hlower, hupper⟩ := widen_spec r (hsize p)
      obtain ⟨r', hloop, ⟨hmin', hmax'⟩, hall⟩ :=
        ih (fun q hq => hps q (List.mem_cons_of_mem _ hq)) (widen r (t.childrenOf p).length)
      refine ⟨r', ?_, ⟨hmin'.trans hmin, hmax.trans hmax'⟩, fun q hq => ?_⟩
      · rw [List.foldlM_cons, hnode, ok_bind, ← childrenOf_eq_of_deref hnode]
        exact hloop
      · rcases List.mem_cons.mp hq with rfl | hq
        · exact ⟨hmin'.trans hlower, hupper.trans hmax'⟩
        · exact hall q hq

namespace Charted
variable (h : Charted t none)
include h

lemma parents_live {p : Ptr} (hp : p ∈ t.parentNodes) : t.Live p :=
  live_of_flagOf ((h.parents p hp).resolve_right (Option.some_ne_none p).symm)

lemma fanoutExtremes_spec : ∃ minFanout maxFanout,
    t.fanoutExtremes = .ok (minFanout, maxFanout) ∧ Extremes t minFanout maxFanout := by
  obtain ⟨r, hloop, -, hall⟩ := fanouts_spec h.childrenOf_lt (fun p hp => h.parents_live hp)
    (BitVec.allOnes 32, 0)
  exact ⟨r.1, r.2, hloop, fun p hp => (hall p hp).1, fun p hp => (hall p hp).2⟩

lemma below_live {p z : Ptr} (hp : t.Live p) (hbelow : Below t.parentOf p z) : t.Live z := by
  rcases ReflTransGen.cases_tail hbelow with rfl | ⟨b, -, hb⟩
  · exact hp
  · exact h.links.parent_live hb

/-- For an orphan below the root, the climb from the adopter ends at a node that both are
below. -/
lemma getProximity_spec (hroot : t.root = some root) (ha : Below t.parentOf a root)
    (haLive : t.Live a) (horphan : TransGen (Link t.parentOf) orphan root) :
    ∃ z m n e, t.getProximity a orphan = .ok (BitVec.ofNat 32 (m + n)) ∧
      Up t.parentOf a z m ∧ Up t.parentOf orphan z n ∧ Up t.parentOf z root e ∧
      ∃ asc, t.ascendantsOf orphan = some asc ∧ z ∈ asc ∧
        ∀ z' ∈ asc, Below t.parentOf a z' → Below t.parentOf z z' := by
  have hlive : t.Live orphan := by
    obtain ⟨b, hb, -⟩ := TransGen.head'_iff.mp horphan
    exact live_of_parentOf hb
  obtain ⟨node, hnode⟩ := deref_of_live hlive
  have hasc : t.ascendantsOf orphan = some node.ascendants :=
    view_of_lookup _ (deref_ok_iff.mp hnode)
  obtain ⟨hmem, hcached⟩ := h.cached root hroot orphan horphan.to_reflTransGen _ hasc
  have hrootMem : root ∈ node.ascendants :=
    hmem ((h.rooted orphan).transGen_iff.mp horphan).1.symm
  rcases climbToCommon_spec h.links h.rooted node.ascendants haLive 0 with
    ⟨z, m, hclimb, hup, hz, hclosest⟩ | ⟨-, hno⟩
  · have habove := hcached z hz (h.below_live haLive hup.isBelow)
    obtain ⟨n, hclimb', hup'⟩ := climbTo_spec h.links h.rooted hlive habove.to_reflTransGen 0
    obtain ⟨e, he⟩ := Forest.exists_up (hclosest root hrootMem ha)
    exact ⟨z, m, n, e, getProximity_met hnode hclimb hclimb', hup, hup', he, _, hasc, hz, hclosest⟩
  · exact absurd ha (hno root hrootMem)

/-- For an orphan elsewhere, the climb finds nothing if the proximity is computed at all. -/
lemma getProximity_elsewhere (hroot : t.root = some root) (ha : Below t.parentOf a root)
    (haLive : t.Live a) (hlive : t.Live orphan)
    (hnot : ¬TransGen (Link t.parentOf) orphan root) {p : BitVec 32}
    (hp : t.getProximity a orphan = .ok p) : p = BitVec.allOnes 32 := by
  obtain ⟨node, hnode⟩ := deref_of_live hlive
  have hasc : t.ascendantsOf orphan = some node.ascendants :=
    view_of_lookup _ (deref_ok_iff.mp hnode)
  have hstuck : ∀ {b}, ¬Link t.parentOf root b := by
    intro b hb
    rw [Link, h.parentless root hroot] at hb
    cases hb
  rcases climbToCommon_spec h.links h.rooted node.ascendants haLive 0 with
    ⟨z, m, hclimb, hup, hz, -⟩ | ⟨hclimb, -⟩
  · have hp' := hp
    rw [getProximity, hnode, ok_bind, hclimb, ok_bind] at hp'
    obtain ⟨n, hclimb', -⟩ := bind_ok_iff.mp hp'
    have hbelow := below_of_climbTo hclimb'
    have hzroot : Below t.parentOf z root := by
      rcases ReflTransGen.total_of_right_unique (Forest.link_rightUnique _) hup.isBelow ha with
        hzr | hrz
      · exact hzr
      · rcases ReflTransGen.cases_head hrz with rfl | ⟨b, hb, -⟩
        · exact .refl
        · exact absurd hb hstuck
    -- Only the root itself is below the root without a link, and it has nothing above it.
    rcases reflTransGen_iff_eq_or_transGen.mp (hbelow.trans hzroot) with rfl | habove
    · obtain ⟨-, hcached⟩ := h.cached root hroot root .refl _ hasc
      obtain ⟨b, hb, -⟩ :=
        TransGen.head'_iff.mp (hcached z hz (h.below_live haLive hup.isBelow))
      exact absurd hb hstuck
    · exact absurd habove hnot
  · cases (getProximity_missed hnode hclimb).symm.trans hp
    rfl

end Charted

/-- The heights that are stored do not matter. -/
lemma Reheighted.charted (hstored : Reheighted t t') (h : Charted t none) : Charted t' none := by
  have hroot : t'.root = t.root := by rw [hstored.rest]
  have hnext : t'.nextPtr = t.nextPtr := by rw [hstored.rest]
  have hparents : t'.parentNodes = t.parentNodes := by rw [hstored.rest]
  have hasc : t'.ascendantsOf = t.ascendantsOf :=
    hstored.view_eq (g := Node.ascendants) fun _ _ => rfl
  have hflag : t'.flagOf = t.flagOf := hstored.view_eq (g := Node.isBackEnd) fun _ _ => rfl
  refine ⟨hstored.links h.links, ?_, ?_, ?_, ?_, ?_, ?_, ?_, ?_, ?_⟩
  · rw [hstored.parentOf_eq]
    exact h.rooted
  · unfold ChildSets
    rw [hstored.childrenOf_eq]
    exact h.childSets
  · unfold InnerParents
    rw [hstored.parentOf_eq, hflag]
    exact h.inner
  · simp only [hroot, hstored.live_iff]
    exact h.rootLive
  · rw [hroot, hstored.parentOf_eq]
    exact h.parentless
  · rw [hasc, hnext]
    exact h.fresh
  · simp only [hroot, hasc, hstored.parentOf_eq, hstored.live_iff]
    exact h.cached
  · rw [hparents, hstored.parentOf_eq]
    exact h.noted
  · rw [hparents, hflag]
    exact h.parents

/-- A topology with the statistics that were computed for it. -/
structure Surveyed (t : NetworkTopology) (root : Ptr) (d : ℕ) (s : TreeStatistics) : Prop where
  charted : Charted t none
  isRoot : t.root = some root
  height : IsHeight t.parentOf root d
  small : d < 2 ^ 31
  depth : s.depth = BitVec.ofNat 32 d
  fanouts : Extremes t s.minFanout s.maxFanout
  heights : ∀ q, Below t.parentOf q root → Exact t t q

lemma getDepthIncrease_le (node iorphan : Node) (hlt : iorphan.subtreeHeight.toNat + 1 < 2 ^ 32) :
    (node.getDepthIncrease iorphan).toNat ≤ iorphan.subtreeHeight.toNat + 1 := by
  rw [Node.getDepthIncrease]
  split_ifs <;> bv_omega

lemma scoreTerms_ok_iff {node adopter : Node} (hadopter : t.deref a = .ok adopter)
    (hnode : t.deref orphan = .ok node) {x : ScoreTerms} :
    t.scoreTerms orphan a = .ok x ↔ ∃ p, t.getProximity a orphan = .ok p ∧
      x = ⟨adopter.getDepthIncrease node, p, BitVec.ofNat 32 adopter.children.length⟩ := by
  rw [scoreTerms, hadopter, ok_bind, hnode, ok_bind, bind_ok_iff]
  refine exists_congr fun p => and_congr_right fun _ => ?_
  exact ⟨fun hx => (Except.ok.inj hx).symm, fun hx => congrArg Except.ok hx.symm⟩

namespace Surveyed
variable (h : Surveyed t root d s)
include h

lemma depth_toNat : s.depth.toNat = d := by
  have hsmall := h.small
  rw [h.depth, BitVec.toNat_ofNat, Nat.mod_eq_of_lt (by omega)]

/-- A node below a child of the root is at least two levels lower than the root. -/
lemma height_le (hparent : t.parentOf orphan ≠ some root)
    (horphan : TransGen (Link t.parentOf) orphan root) :
    ∃ k, IsHeight t.parentOf orphan k ∧ t.heightOf orphan = some (BitVec.ofNat 32 k) ∧
      k + 2 ≤ d := by
  obtain ⟨k, hk, hstored⟩ := h.heights orphan horphan.to_reflTransGen
  obtain ⟨b, hb, hbroot⟩ := TransGen.head'_iff.mp horphan
  obtain ⟨n, hn⟩ := Forest.exists_up hbroot
  refine ⟨k, hk, hstored, ?_⟩
  have hle := h.height.add_le hk (.link hb hn)
  cases hn with
  | refl => exact absurd hb hparent
  | link _ _ => omega

lemma fanout_le (hsome : (t.childrenOf a).length ≠ 0) :
    (t.childrenOf a).length ≤ s.maxFanout.toNat := by
  obtain ⟨c, hc⟩ := List.exists_mem_of_length_pos (Nat.pos_of_ne_zero hsome)
  exact h.fanouts.upper a (h.charted.noted c a ((h.charted.links.answered c a).mp hc))

lemma extremes_le (horphan : TransGen (Link t.parentOf) orphan root) :
    s.minFanout.toNat ≤ s.maxFanout.toNat := by
  obtain ⟨b, -, hb⟩ := TransGen.tail'_iff.mp horphan
  have hmem := h.charted.noted b root hb
  exact (h.fanouts.lower root hmem).trans (h.fanouts.upper root hmem)

/-- The way is longer than the scores provide for only between nodes that are the farthest
apart. -/
lemma proximity_le_iff (ha : Below t.parentOf a root) (haLive : t.Live a)
    (horphan : TransGen (Link t.parentOf) orphan root) :
    ∃ k, t.getProximity a orphan = .ok (BitVec.ofNat 32 k) ∧ k ≤ 2 * d ∧
      (k = 2 * d ↔ FarthestApart t d root orphan a) := by
  obtain ⟨z, m, n, e, hprox, hm, hn, he, asc, hasc, hz, hclosest⟩ :=
    h.charted.getProximity_spec h.isRoot ha haLive horphan
  have hbound := h.height.bound
  have hme := hbound a _ (hm.trans he)
  have hne := hbound orphan _ (hn.trans he)
  have hrooted := h.charted.rooted
  refine ⟨m + n, hprox, by omega, ⟨fun hfar => ?_, fun hfar => ?_⟩⟩
  · obtain rfl : e = 0 := by omega
    obtain rfl : m = d := by omega
    obtain rfl : n = m := by omega
    cases he
    refine ⟨hm, hn, fun asc' hasc' z' hz' hbelow => ?_⟩
    cases hasc.symm.trans hasc'
    rcases ReflTransGen.cases_head (hclosest z' hz' hbelow) with heq | ⟨b, hb, -⟩
    · exact heq.symm
    · rw [Link, h.charted.parentless root h.isRoot] at hb
      cases hb
  · obtain rfl := hfar.common asc hasc z hz hm.isBelow
    rw [hm.unique hfar.adopterDepth (hrooted a), hn.unique hfar.orphanDepth (hrooted orphan)]
    omega

/-- The terms of one adopter. -/
lemma wellDefined_iff (ha : Below t.parentOf a root) (haLive : t.Live a) (hlive : t.Live orphan)
    (hparent : t.parentOf orphan ≠ some root) :
    (∃ x, t.scoreTerms orphan a = .ok x ∧ WellDefined s x) ↔
      TransGen (Link t.parentOf) orphan root ∧ ¬FarthestApart t d root orphan a := by
  obtain ⟨adopter, hadopter⟩ := deref_of_live haLive
  obtain ⟨node, hnode⟩ := deref_of_live hlive
  have hdepth := h.depth_toNat
  have hsmall := h.small
  simp only [scoreTerms_ok_iff hadopter hnode]
  constructor
  · rintro ⟨x, ⟨p, hp, rfl⟩, hx⟩
    have hdouble := hx.double
    have hproximity := hx.proximity
    by_cases horphan : TransGen (Link t.parentOf) orphan root
    · obtain ⟨k, hk, -, hfar⟩ := h.proximity_le_iff ha haLive horphan
      cases hk.symm.trans hp
      refine ⟨horphan, fun hapart => ?_⟩
      have hk := hfar.mpr hapart
      bv_omega
    · have hall : (BitVec.allOnes 32).toNat = 2 ^ 32 - 1 := by decide
      rw [h.charted.getProximity_elsewhere h.isRoot ha haLive hlive horphan hp] at hproximity
      bv_omega
  · rintro ⟨horphan, hapart⟩
    obtain ⟨k, hk, hle, hfar⟩ := h.proximity_le_iff ha haLive horphan
    have hne : k ≠ 2 * d := fun heq => hapart (hfar.mp heq)
    obtain ⟨l, hl, hstored, hlow⟩ := h.height_le hparent horphan
    have hheight : node.subtreeHeight = BitVec.ofNat 32 l := by
      rw [heightOf, view_of_lookup _ (deref_ok_iff.mp hnode)] at hstored
      exact Option.some.inj hstored
    have hincrease := getDepthIncrease_le adopter node (by rw [hheight]; bv_omega)
    rw [hheight] at hincrease
    have hfanout : (BitVec.ofNat 32 adopter.children.length).toNat ≤ s.maxFanout.toNat := by
      have hle := h.fanout_le (a := a)
      rw [childrenOf_eq_of_deref hadopter] at hle
      bv_omega
    exact ⟨_, ⟨_, hk, rfl⟩, wellDefined_of_bounds hdepth (by omega) hsmall hfanout
      (h.extremes_le horphan) (by bv_omega) (by bv_omega)⟩

end Surveyed

lemma mapM_all_iff {α β : Type} {f : α → Outcome β} {P : β → Prop} {xs : List α} :
    (∃ ys, xs.mapM f = .ok ys ∧ ∀ y ∈ ys, P y) ↔ ∀ x ∈ xs, ∃ y, f x = .ok y ∧ P y := by
  simp only [mapM_ok_iff]
  constructor
  · rintro ⟨ys, hys, hall⟩ x hx
    obtain ⟨y, hy, hxy⟩ := forall₂_exists_of_mem hys hx
    exact ⟨y, hxy, hall y hy⟩
  · intro hall
    obtain ⟨ys, hys⟩ := forall₂_of_exists hall
    refine ⟨ys, hys.imp fun _ _ hxy => hxy.1, fun y hy => ?_⟩
    obtain ⟨x, -, -, hy⟩ := forall₂_exists_of_mem hys.flip hy
    exact hy

/-- The statistics of a topology whose scores are sound. -/
lemma Charted.computeTreeStatistics (h : Charted t none) (hroot : t.root = some root)
    (hheight : IsHeight t.parentOf root d) (hsmall : d < 2 ^ 31) :
    ∃ t' s, t.computeTreeStatistics = .ok (t', s) ∧ Reheighted t t' ∧ Surveyed t' root d s := by
  obtain ⟨t', d', hstep, hheight', -, hexact⟩ := findSubTreeHeight_spec h.links h.rooted
    (h.rootLive root hroot) t (.refl t)
  obtain rfl := hheight.unique hheight'
  have hstored : Reheighted t t' := findSubTreeHeight_reheighted (.refl t) hstep
  have hcharted := hstored.charted h
  obtain ⟨minFanout, maxFanout, hextremes, hfanouts⟩ := hcharted.fanoutExtremes_spec
  refine ⟨t', ⟨minFanout, maxFanout, BitVec.ofNat 32 d⟩, ?_, hstored, hcharted, ?_, ?_, hsmall,
    rfl, hfanouts, ?_⟩
  · rw [NetworkTopology.computeTreeStatistics, hroot]
    dsimp only
    rw [hstep, ok_bind]
    dsimp only
    rw [hextremes]
    rfl
  · rw [hstored.rest]
    exact hroot
  · rw [hstored.parentOf_eq]
    exact hheight
  · unfold Exact
    rw [hstored.parentOf_eq]
    exact hexact

lemma parent_ne_root {adopters : List Ptr} {n : ℕ}
    (hfound : t.findPotentialAdopters orphan n root [] = .ok adopters) (ha : a ∈ adopters) :
    t.parentOf orphan ≠ some root := by
  intro hparent
  cases n with
  | zero => cases hfound
  | succ n =>
      obtain ⟨node, hnode, hfound⟩ := bind_ok_iff.mp hfound
      obtain ⟨adopter, -, hfound⟩ := bind_ok_iff.mp hfound
      rw [parentOf_of_deref hnode] at hparent
      rw [if_pos (.inl hparent)] at hfound
      cases hfound
      cases ha

/-- When the scores of the adopters that the search finds are well defined, in a run whose
calls keep them sound and for a tree of less than `2 ^ 31` levels: the orphan is below the
root, and none of the adopters is the farthest apart from it. -/
theorem scores_wellDefined_iff {start : NetworkTopology} (hstart : Started start)
    (h : Led KeepsScores start t) (hroot : t.root = some root)
    (hheight : IsHeight t.parentOf root d) (hsmall : d < 2 ^ 31) (horphan : t.Live orphan)
    {adopters : List Ptr}
    (hfound : t.findPotentialAdopters orphan t.levels root [] = .ok adopters) :
    (∃ t' s terms, t.computeAdoptionScores adopters orphan = .ok (t', s, terms) ∧
        ∀ x ∈ terms, WellDefined s x) ↔
      ∀ a ∈ adopters,
        TransGen (Link t.parentOf) orphan root ∧ ¬FarthestApart t d root orphan a := by
  have hcharted := h.charted hstart
  obtain ⟨t', s, hstatistics, hstored, hsurveyed⟩ :=
    hcharted.computeTreeStatistics hroot hheight hsmall
  have hasc : t'.ascendantsOf = t.ascendantsOf :=
    hstored.view_eq (g := Node.ascendants) fun _ _ => rfl
  have hapart : ∀ a, FarthestApart t' d root orphan a ↔ FarthestApart t d root orphan a := by
    intro a
    constructor
    · rintro ⟨ha, ho, hcommon⟩
      rw [hstored.parentOf_eq] at ha ho hcommon
      rw [hasc] at hcommon
      exact ⟨ha, ho, hcommon⟩
    · rintro ⟨ha, ho, hcommon⟩
      rw [← hstored.parentOf_eq] at ha ho hcommon
      rw [← hasc] at hcommon
      exact ⟨ha, ho, hcommon⟩
  have hadopters : ∀ a ∈ adopters, Below t.parentOf a root ∧ t.Live a := by
    intro a ha
    obtain ⟨found, hfound', -, hall⟩ := findPotentialAdopters_spec hcharted.links
      hcharted.childSets hcharted.rooted horphan (hcharted.rootLive root hroot) []
    cases hfound.symm.trans hfound'
    exact ⟨(hall a ha).below, live_of_flagOf (hall a ha).inner⟩
  have hterms : (∃ t' s terms, t.computeAdoptionScores adopters orphan = .ok (t', s, terms) ∧
      ∀ x ∈ terms, WellDefined s x) ↔
        ∃ terms, adopters.mapM (t'.scoreTerms orphan) = .ok terms ∧
          ∀ x ∈ terms, WellDefined s x := by
    rw [computeAdoptionScores, hstatistics, ok_bind]
    constructor
    · rintro ⟨t₁, s₁, terms, hterms, hall⟩
      obtain ⟨terms', hterms', hres⟩ := bind_ok_iff.mp hterms
      cases hres
      exact ⟨terms, hterms', hall⟩
    · rintro ⟨terms, hterms, hall⟩
      exact ⟨t', s, terms, bind_ok_iff.mpr ⟨terms, hterms, rfl⟩, hall⟩
  rw [hterms, mapM_all_iff]
  refine forall₂_congr fun a ha => ?_
  obtain ⟨hbelow, hlive⟩ := hadopters a ha
  have hparent := parent_ne_root hfound ha
  rw [← hstored.parentOf_eq] at hbelow hparent
  rw [hsurveyed.wellDefined_iff hbelow ((hstored.live_iff a).mpr hlive)
    ((hstored.live_iff orphan).mpr horphan) hparent, hapart, hstored.parentOf_eq]

/-- A new node without children is attached soundly. -/
lemma keepsScores_childless {irank r : Rank} {isg : Text}
    (hkids : SerialGraph.getChildren isg = .ok []) (hr : SerialGraph.getRootRank isg = .ok r)
    (hfresh : t.findNode r = none) : KeepsScores t (.addSubGraph irank isg) := by
  intro inode _ s m g hvisit r' c hr' hc
  obtain ⟨rfl, rfl, rfl⟩ := hvisit.childless hkids
  cases hr.symm.trans hr'
  rw [hfresh] at hc
  cases hc

lemma led_leaf {start t' : NetworkTopology} {r rank : Rank} {res : Bool}
    (hled : Led KeepsScores start t) (hkids : SerialGraph.getChildren (childlessText rank) = .ok [])
    (hrank : SerialGraph.getRootRank (childlessText rank) = .ok rank)
    (hfresh : t.findNode rank = none) (hadd : t.addSubGraph r (childlessText rank) = .ok (t', res)) :
    Led KeepsScores start t' :=
  .step hled (keepsScores_childless hkids hrank hfresh) (bind_ok_iff.mpr ⟨_, hadd, rfl⟩)

/-- The root may adopt the child of its only child. -/
theorem scores_wellDefined_grandchild : ∃ t, Led KeepsScores (.create ['a'] 1 0 false) t ∧
    t.findPotentialAdopters 2 t.levels 0 [] = .ok [0] ∧
    ∃ t' s terms, t.computeAdoptionScores [0] 2 = .ok (t', s, terms) ∧
      ∀ x ∈ terms, WellDefined s x := by
  have hkids₁ : SerialGraph.getChildren (childlessText 1) = .ok [] := rfl
  have hkids₂ : SerialGraph.getChildren (childlessText 2) = .ok [] := rfl
  obtain ⟨t₁, hadd₁, hfresh, t, hadd₂, hroot, hparents, hrank, hfound, t', hheight⟩ : ∃ t₁,
      (NetworkTopology.create ['a'] 1 0 false).addSubGraph 0 (childlessText 1) = .ok (t₁, true) ∧
        t₁.findNode 2 = none ∧ ∃ t, t₁.addSubGraph 1 (childlessText 2) = .ok (t, true) ∧
          t.root = some 0 ∧
          (t.parentOf 0 = none ∧ t.parentOf 1 = some 0 ∧ t.parentOf 2 = some 1) ∧
          (t.rankOf 2).isSome ∧ t.findPotentialAdopters 2 t.levels 0 [] = .ok [0] ∧
          ∃ t', findSubTreeHeight t.levels 0 t = .ok (t', 2) := by
    simp only [addSubGraph, addGraph_childless _ _ hkids₁, addGraph_childless _ _ hkids₂]
    exact ⟨_, rfl, rfl, _, rfl, rfl, ⟨rfl, rfl, rfl⟩, rfl, rfl, _, rfl⟩
  have hled₁ := led_leaf .start hkids₁ rfl rfl hadd₁
  have hled := led_leaf hled₁ hkids₂ rfl hfresh hadd₂
  have hstart : Started (.create ['a'] 1 0 false) := .create ['a'] 1 0 false
  have hcharted := hled.charted hstart
  have hlive := hcharted.rootLive 0 hroot
  obtain ⟨t'', d, hheight', hd, -⟩ :=
    findSubTreeHeight_spec hcharted.links hcharted.rooted hlive t (.refl t)
  have hlt := height_lt hcharted.links hcharted.rooted hlive hd
  have hd2 : BitVec.ofNat 32 d = 2 :=
    (Prod.mk.inj (Except.ok.inj (hheight'.symm.trans hheight))).2
  obtain rfl : d = 2 := by bv_omega
  refine ⟨t, hled, hfound, (scores_wellDefined_iff hstart hled hroot hd (by decide)
    (live_iff_rankOf.mpr hrank) hfound).mpr fun a ha => ?_⟩
  obtain rfl := List.mem_singleton.mp ha
  refine ⟨TransGen.head hparents.2.2 (TransGen.single hparents.2.1), fun hfar => ?_⟩
  cases hfar.adopterDepth with
  | link hlink _ =>
      rw [Link, hparents.1] at hlink
      cases hlink

/-- Two branches of two levels: the way from one leaf to the other has four links. -/
theorem scores_not_wellDefined : ∃ t adopters, Reachable t ∧ t.root = some 0 ∧
    t.findPotentialAdopters 4 t.levels 0 [] = .ok adopters ∧
    ∃ t' s terms, t.computeAdoptionScores adopters 4 = .ok (t', s, terms) ∧
      ∃ x ∈ terms, ¬WellDefined s x := by
  have hkids₁ : SerialGraph.getChildren (childlessText 1) = .ok [] := rfl
  have hkids₂ : SerialGraph.getChildren (childlessText 2) = .ok [] := rfl
  have hkids₃ : SerialGraph.getChildren (childlessText 3) = .ok [] := rfl
  have hkids₄ : SerialGraph.getChildren (childlessText 4) = .ok [] := rfl
  obtain ⟨t₁, hadd₁, t₂, hadd₂, t₃, hadd₃, t, hadd, hroot, hfound, t', hscores⟩ : ∃ t₁,
      (NetworkTopology.create ['a'] 1 0 false).addSubGraph 0 (childlessText 1) = .ok (t₁, true) ∧
      ∃ t₂, t₁.addSubGraph 0 (childlessText 2) = .ok (t₂, true) ∧
      ∃ t₃, t₂.addSubGraph 1 (childlessText 3) = .ok (t₃, true) ∧
      ∃ t, t₃.addSubGraph 2 (childlessText 4) = .ok (t, true) ∧ t.root = some 0 ∧
        t.findPotentialAdopters 4 t.levels 0 [] = .ok [0, 1, 3] ∧
        ∃ t', t.computeAdoptionScores [0, 1, 3] 4 =
          .ok (t', ⟨1, 2, 2⟩, [⟨0, 2, 2⟩, ⟨0, 3, 1⟩, ⟨1, 4, 0⟩]) := by
    simp only [addSubGraph, addGraph_childless _ _ hkids₁, addGraph_childless _ _ hkids₂,
      addGraph_childless _ _ hkids₃, addGraph_childless _ _ hkids₄]
    exact ⟨_, rfl, _, rfl, _, rfl, _, rfl, rfl, rfl, _, rfl⟩
  have hreach := ((((Reachable.create ['a'] 1 0 false).addSubGraph hadd₁).addSubGraph
    hadd₂).addSubGraph hadd₃).addSubGraph hadd
  refine ⟨t, [0, 1, 3], hreach, hroot, hfound, t', _, _, hscores, ⟨1, 4, 0⟩, by simp, fun hx => ?_⟩
  exact absurd hx.proximity (by decide)

end MRNet.Topology
