import MRNet.Adoption

/-!
# Adoption scores

Translation of `compute_AdoptionScores` up to its floating point part. The heights of the
subtrees are stored first, and the numbers of children of all nodes in the set of the parents
are compared; then the integers of each score are read.
-/
namespace MRNet.Topology
open Codec Relation
open WaitForAll (Rank)
open Forest (Link Rooted Below Up Climbs Meets IsHeight)

/-- `_min_fanout`, `_max_fanout` and `_depth`. -/
structure TreeStatistics where
  minFanout : BitVec 32
  maxFanout : BitVec 32
  depth : BitVec 32

/-- The integers of a score, `depth_increase`, `proximity` and `fanout`. -/
structure ScoreTerms where
  depthIncrease : BitVec 32
  proximity : BitVec 32
  fanout : BitVec 32

namespace Node

def getDepthIncrease (node iorphan : Node) : BitVec 32 :=
  if iorphan.subtreeHeight + 1 > node.subtreeHeight then
    iorphan.subtreeHeight + 1 - node.subtreeHeight
  else 0

end Node

namespace NetworkTopology

/-- The smallest and the largest number of children so far. -/
def widen (s : BitVec 32 × BitVec 32) (size : ℕ) : BitVec 32 × BitVec 32 :=
  (if size < s.1.toNat then BitVec.ofNat 32 size else s.1,
    if size > s.2.toNat then BitVec.ofNat 32 size else s.2)

/-- The loop over `_parent_nodes`. -/
def fanoutExtremes (t : NetworkTopology) : Outcome (BitVec 32 × BitVec 32) :=
  t.parentNodes.foldlM
    (fun s p => do
      let node ← t.deref p
      return widen s node.children.length)
    (BitVec.allOnes 32, 0)

def computeTreeStatistics (t : NetworkTopology) : Outcome (NetworkTopology × TreeStatistics) :=
  match t.root with
  | none => .error (.fault .nullPointer)
  | some root => do
      let (t, depth) ← findSubTreeHeight t.levels root t
      let (minFanout, maxFanout) ← t.fanoutExtremes
      return (t, ⟨minFanout, maxFanout, depth⟩)

/-- What `compute_AdoptionScore` reads for one adopter. -/
def scoreTerms (t : NetworkTopology) (iorphan iadopter : Ptr) : Outcome ScoreTerms := do
  let adopter ← t.deref iadopter
  let orphan ← t.deref iorphan
  let proximity ← t.getProximity iadopter iorphan
  return ⟨adopter.getDepthIncrease orphan, proximity, BitVec.ofNat 32 adopter.children.length⟩

/-- The scores are functions of the terms and the statistics, and random numbers. -/
def computeAdoptionScores (t : NetworkTopology) (iadopters : List Ptr) (iorphan : Ptr) :
    Outcome (NetworkTopology × TreeStatistics × List ScoreTerms) := do
  let (t, statistics) ← t.computeTreeStatistics
  let terms ← iadopters.mapM (t.scoreTerms iorphan)
  return (t, statistics, terms)

def heightOf : NetworkTopology → Ptr → Option (BitVec 32) := view Node.subtreeHeight

end NetworkTopology

open NetworkTopology

variable {t t' : NetworkTopology}

structure Reheighted (t t' : NetworkTopology) : Prop where
  rest : t' = { t with heap := t'.heap }
  objects : ∀ p, ∃ height, t'.heap.lookup p = (t.heap.lookup p).map (·.setSubtreeHeight height)

namespace Reheighted

lemma refl (t : NetworkTopology) : Reheighted t t := by
  refine ⟨rfl, fun p => ?_⟩
  cases hp : t.heap.lookup p with
  | none => exact ⟨0, rfl⟩
  | some node => exact ⟨node.subtreeHeight, rfl⟩

lemma modify (h : Reheighted t t') {p : Ptr} {height : BitVec 32} {t'' : NetworkTopology}
    (hmodify : t'.modify p (·.setSubtreeHeight height) = .ok t'') : Reheighted t t'' := by
  refine ⟨?_, fun q => ?_⟩
  · obtain ⟨node, -, rfl⟩ := modify_ok hmodify
    conv_lhs => rw [h.rest]
  · obtain ⟨height', hq⟩ := h.objects q
    rw [modify_lookup hmodify, hq]
    split_ifs
    · refine ⟨height, ?_⟩
      rw [Option.map_map]
      rfl
    · exact ⟨height', rfl⟩

variable (h : Reheighted t t')
include h

lemma view_eq {α : Type} {g : Node → α}
    (hg : ∀ node height, g (node.setSubtreeHeight height) = g node) : t'.view g = t.view g := by
  ext1 p
  obtain ⟨height, hp⟩ := h.objects p
  rw [view, view, hp, Option.map_map]
  congr 1
  ext1 node
  exact hg node height

lemma live_iff (p : Ptr) : t'.Live p ↔ t.Live p := by
  rw [live_iff_view Node.rank, live_iff_view Node.rank, h.view_eq fun _ _ => rfl]

lemma parentOf_eq : t'.parentOf = t.parentOf := by
  ext1 p
  obtain ⟨height, hp⟩ := h.objects p
  rw [NetworkTopology.parentOf, NetworkTopology.parentOf, hp, Option.bind_map]
  rfl

lemma childrenOf_eq : t'.childrenOf = t.childrenOf := by
  have hchildren := h.view_eq (g := Node.children) fun _ _ => rfl
  ext1 p
  exact congrArg (Option.getD · []) (congrFun hchildren p)

lemma links (hlinks : Links t) : Links t' := by
  have hnodes : t'.nodes = t.nodes := by rw [h.rest]
  have hnext : t'.nextPtr = t.nextPtr := by rw [h.rest]
  have horphans : t'.orphans = t.orphans := by rw [h.rest]
  have hrank : t'.rankOf = t.rankOf := h.view_eq (g := Node.rank) fun _ _ => rfl
  refine ⟨?_, ?_, ?_, ?_⟩
  · rw [hnodes, hrank]
    exact hlinks.keyed
  · rw [h.childrenOf_eq, h.parentOf_eq]
    exact hlinks.answered
  · rw [horphans, h.parentOf_eq]
    exact fun o ho => ⟨(h.live_iff o).mpr (hlinks.orphans o ho).1, (hlinks.orphans o ho).2⟩
  · rw [hnext]
    exact fun p hp => hlinks.fresh p ((h.live_iff p).mp hp)

end Reheighted

lemma heightOf_modify {s s' : NetworkTopology} {p : Ptr} {height : BitVec 32}
    (h : s.modify p (·.setSubtreeHeight height) = .ok s') (q : Ptr) :
    s'.heightOf q = if q = p then some height else s.heightOf q := by
  obtain ⟨node, hnode, -⟩ := modify_ok h
  rw [heightOf, modify_view h]
  split_ifs with hq
  · rw [hq, view, hnode]
    rfl
  · rfl

/-- The recursion stores heights only. -/
lemma findSubTreeHeight_reheighted {n : ℕ} {p : Ptr} {s : NetworkTopology}
    {r : NetworkTopology × BitVec 32} (hs : Reheighted t s)
    (h : findSubTreeHeight n p s = .ok r) : Reheighted t r.1 := by
  induction n generalizing p s r with
  | zero => cases h
  | succ n ih =>
      rw [findSubTreeHeight] at h
      obtain ⟨node, hnode, h⟩ := bind_ok_iff.mp h
      split_ifs at h
      · obtain ⟨s', h', hres⟩ := bind_ok_iff.mp h
        cases hres
        exact hs.modify h'
      · obtain ⟨⟨s₁, maxHeight⟩, hloop, h⟩ := bind_ok_iff.mp h
        obtain ⟨s', h', hres⟩ := bind_ok_iff.mp h
        cases hres
        have hs₁ : Reheighted t s₁ := by
          refine foldlM_keeps (I := fun r : NetworkTopology × BitVec 32 => Reheighted t r.1)
            (fun c _ r r' hr hstep => ?_) hs hloop
          obtain ⟨r₁, h₁, hres⟩ := bind_ok_iff.mp hstep
          have hr₁ : Reheighted t r₁.1 := ih hr h₁
          cases hres
          exact hr₁
        exact hs₁.modify h'

/-- If the recursion ends, then there is no endless way down. -/
lemma acc_of_findSubTreeHeight (hlinks : Links t) {n : ℕ} {p : Ptr} {s : NetworkTopology}
    {r : NetworkTopology × BitVec 32} (hs : Reheighted t s)
    (h : findSubTreeHeight n p s = .ok r) : Acc (Link t.parentOf) p := by
  induction n generalizing p s r with
  | zero => cases h
  | succ n ih =>
      rw [findSubTreeHeight] at h
      obtain ⟨node, hnode, h⟩ := bind_ok_iff.mp h
      have hchild (c : Ptr) : c ∈ node.children ↔ Link t.parentOf c p := by
        rw [mem_childrenOf_iff (hs.links hlinks) hnode c, hs.parentOf_eq]
      constructor
      intro c hc
      have hmem := (hchild c).mpr hc
      rw [if_neg (List.ne_nil_of_mem hmem)] at h
      obtain ⟨r', hloop, -⟩ := bind_ok_iff.mp h
      obtain ⟨s₁, s₂, hs₁, hstep⟩ := foldlM_each
        (I := fun r : NetworkTopology × BitVec 32 => Reheighted t r.1)
        (fun c _ r r' hr hstep => by
          obtain ⟨r₁, h₁, hres⟩ := bind_ok_iff.mp hstep
          have hr₁ : Reheighted t r₁.1 := findSubTreeHeight_reheighted hr h₁
          cases hres
          exact hr₁) hs hloop hmem
      obtain ⟨r₁, h₁, -⟩ := bind_ok_iff.mp hstep
      exact ih hs₁ h₁

/-- There are no more nodes than ranks. -/
lemma levels_le (hlinks : Links t) : t.levels ≤ 2 ^ 32 := by
  have hfound : ∀ p ∈ t.heap.keys, t.nodes.lookup ((t.rankOf p).getD 0) = some p := by
    intro p hp
    obtain ⟨r, hr⟩ := Option.isSome_iff_exists.mp (live_iff_rankOf.mp (Finmap.mem_keys.mp hp))
    rw [hr]
    exact (hlinks.keyed r p).mpr hr
  have hcard : t.heap.keys.card ≤ (Finset.univ : Finset (BitVec 32)).card := by
    refine Finset.card_le_card_of_injOn (fun p => (t.rankOf p).getD 0)
      (fun p _ => Finset.mem_univ _) fun p hp q hq heq => ?_
    have hp' := hfound p hp
    rw [show (t.rankOf p).getD 0 = (t.rankOf q).getD 0 from heq, hfound q hq] at hp'
    exact (Option.some.inj hp').symm
  have hranks : (Finset.univ : Finset (BitVec 32)).card = 2 ^ 32 := by
    rw [Finset.card_univ, Fintype.card_congr BitVec.equivFin.toEquiv, Fintype.card_fin]
  rwa [hranks] at hcard

section Heights
variable (hlinks : Links t) (hrooted : ∀ p, Rooted t.parentOf p)
include hlinks hrooted

lemma height_lt {p : Ptr} {h : ℕ} (hp : t.Live p) (hheight : IsHeight t.parentOf p h) :
    h < 2 ^ 32 := by
  obtain ⟨d, hd⟩ := hheight.reached
  have hlive : t.Live d := by
    cases hd with
    | refl => exact hp
    | link hlink _ => exact live_of_parentOf hlink
  have hkeys : ∀ x, Below t.parentOf d x → x ∈ t.heap.keys := by
    intro x hx
    rcases ReflTransGen.cases_tail hx with rfl | ⟨b, -, hb⟩
    · exact Finmap.mem_keys.mpr hlive
    · exact Finmap.mem_keys.mpr (hlinks.parent_live hb)
  exact (hd.lt_card (hrooted d) hkeys).trans_le (levels_le hlinks)

omit hlinks hrooted in
/-- The height that is stored at a node is right. -/
def Exact (t s : NetworkTopology) (q : Ptr) : Prop :=
  ∃ h, IsHeight t.parentOf q h ∧ s.heightOf q = some (BitVec.ofNat 32 h)

/-- What the recursion does at one node. -/
def Measures (t : NetworkTopology) (n : ℕ) (p : Ptr) : Prop :=
  ∀ s, Reheighted t s → ∃ s' h, findSubTreeHeight n p s = .ok (s', BitVec.ofNat 32 h) ∧
    IsHeight t.parentOf p h ∧ (∀ q, Exact t s q → Exact t s' q) ∧
    ∀ q, Below t.parentOf q p → Exact t s' q

/-- The loop over the children. -/
lemma measures_children {n : ℕ} {cs : List Ptr} (hcs : ∀ c ∈ cs, t.Live c ∧ Measures t n c)
    {s : NetworkTopology} (hs : Reheighted t s) {m : ℕ} (hm : m < 2 ^ 32) :
    ∃ s' m', cs.foldlM (fun (r : NetworkTopology × BitVec 32) child => do
        let (t, curHeight) ← findSubTreeHeight n child r.1
        return (t, if curHeight > r.2 then curHeight else r.2)) (s, BitVec.ofNat 32 m) =
          .ok (s', BitVec.ofNat 32 m') ∧ Reheighted t s' ∧
      (∀ q, Exact t s q → Exact t s' q) ∧ m ≤ m' ∧ m' < 2 ^ 32 ∧
      (∀ c ∈ cs, (∀ q, Below t.parentOf q c → Exact t s' q) ∧
        ∃ h ≤ m', IsHeight t.parentOf c h) ∧
      (m' = m ∨ ∃ c ∈ cs, IsHeight t.parentOf c m') := by
  induction cs generalizing s m with
  | nil => exact ⟨s, m, rfl, hs, fun q hq => hq, le_rfl, hm, by simp, .inl rfl⟩
  | cons c cs ih =>
      obtain ⟨hlive, hmeasures⟩ := hcs c List.mem_cons_self
      obtain ⟨s₁, h, hstep, hheight, hkeep₁, hbelow⟩ := hmeasures s hs
      have hlt := height_lt hlinks hrooted hlive hheight
      have hmax : (if BitVec.ofNat 32 h > BitVec.ofNat 32 m then BitVec.ofNat 32 h
          else BitVec.ofNat 32 m) = BitVec.ofNat 32 (max m h) := by
        simp only [gt_iff_lt, BitVec.lt_def, BitVec.toNat_ofNat, Nat.mod_eq_of_lt hlt,
          Nat.mod_eq_of_lt hm]
        split_ifs with hgt
        · rw [max_eq_right hgt.le]
        · rw [max_eq_left (not_lt.mp hgt)]
      obtain ⟨s', m', hloop, hs', hkeep, hle, hlt', hall, hfrom⟩ :=
        ih (fun d hd => hcs d (List.mem_cons_of_mem _ hd))
          (findSubTreeHeight_reheighted hs hstep) (max_lt hm hlt)
      refine ⟨s', m', ?_, hs', fun q hq => hkeep q (hkeep₁ q hq),
        (le_max_left m h).trans hle, hlt', fun d hd => ?_, ?_⟩
      · rw [List.foldlM_cons, hstep, ok_bind]
        simp only [hmax]
        exact hloop
      · rcases List.mem_cons.mp hd with rfl | hd
        · exact ⟨fun q hq => hkeep q (hbelow q hq), h, (le_max_right m h).trans hle, hheight⟩
        · exact hall d hd
      · rcases hfrom with rfl | ⟨d, hd, hheight'⟩
        · rcases le_total m h with hmh | hmh
          · rw [max_eq_right hmh]
            exact .inr ⟨c, List.mem_cons_self, hheight⟩
          · exact .inl (max_eq_left hmh)
        · exact .inr ⟨d, List.mem_cons_of_mem _ hd, hheight'⟩

/-- The height of the node is returned, and those of all nodes below it are stored. -/
theorem findSubTreeHeight_spec {p : Ptr} (hp : t.Live p) : Measures t t.levels p := by
  apply levels_induction hlinks hp ((wellFounded_of_rooted hrooted).apply p)
  intro n q node hnode hchildren s hs
  have hq : t.Live q := Finmap.mem_of_lookup_eq_some (deref_ok_iff.mp hnode)
  have hchild : ∀ c, c ∈ node.children ↔ Link t.parentOf c q := mem_childrenOf_iff hlinks hnode
  obtain ⟨node', hnode'⟩ := deref_of_live ((hs.live_iff q).mpr hq)
  have hsame : node'.children = node.children := by
    rw [← childrenOf_eq_of_deref hnode', ← childrenOf_eq_of_deref hnode, hs.childrenOf_eq]
  -- What is stored at the node itself does not undo what was stored below it.
  have hfinish : ∀ {s₁ s' : NetworkTopology} {h : ℕ}, IsHeight t.parentOf q h →
      s₁.modify q (·.setSubtreeHeight (BitVec.ofNat 32 h)) = .ok s' →
      Exact t s' q ∧ ∀ x, Exact t s₁ x → Exact t s' x := by
    intro s₁ s' h hheight hmodify
    have hself : Exact t s' q := ⟨h, hheight, by rw [heightOf_modify hmodify, if_pos rfl]⟩
    refine ⟨hself, fun x ⟨hx, hxheight, hxstored⟩ => ?_⟩
    by_cases hxq : x = q
    · exact hxq ▸ hself
    · exact ⟨hx, hxheight, by rw [heightOf_modify hmodify, if_neg hxq, hxstored]⟩
  rw [findSubTreeHeight, hnode', ok_bind, hsame]
  split_ifs with hnil
  · have hheight : IsHeight t.parentOf q 0 := Forest.isHeight_zero fun c hc => by
      have hmem := (hchild c).mpr hc
      rw [hnil] at hmem
      cases hmem
    obtain ⟨s', hmodify⟩ := modify_of_live ((hs.live_iff q).mpr hq)
      (·.setSubtreeHeight (BitVec.ofNat 32 0))
    obtain ⟨hself, hkeep⟩ := hfinish hheight hmodify
    refine ⟨s', 0, bind_ok_iff.mpr ⟨s', hmodify, rfl⟩, hheight, hkeep, fun x hx => ?_⟩
    rcases ReflTransGen.cases_tail hx with rfl | ⟨c, -, hc⟩
    · exact hself
    · have hmem := (hchild c).mpr hc
      rw [hnil] at hmem
      cases hmem
  · obtain ⟨s₁, m, hloop, hs₁, hkeep₁, -, hlt, hall, hfrom⟩ := measures_children hlinks hrooted
      (fun c hc => ⟨live_of_parentOf ((hchild c).mp hc), hchildren c hc⟩) hs (Nat.two_pow_pos 32)
    have hheight : IsHeight t.parentOf q (m + 1) := by
      refine Forest.isHeight_of_children ?_ fun c hc => (hall c ((hchild c).mpr hc)).2
      rcases hfrom with rfl | ⟨c, hc, hc'⟩
      · obtain ⟨c, hc⟩ := List.exists_mem_of_ne_nil _ hnil
        obtain ⟨h, hle, hc'⟩ := (hall c hc).2
        obtain rfl := Nat.le_zero.mp hle
        exact ⟨c, (hchild c).mp hc, hc'⟩
      · exact ⟨c, (hchild c).mp hc, hc'⟩
    obtain ⟨s', hmodify⟩ := modify_of_live ((hs₁.live_iff q).mpr hq)
      (·.setSubtreeHeight (BitVec.ofNat 32 (m + 1)))
    obtain ⟨hself, hkeep⟩ := hfinish hheight hmodify
    refine ⟨s', m + 1, ?_, hheight, fun x hx => hkeep x (hkeep₁ x hx), fun x hx => ?_⟩
    · refine bind_ok_iff.mpr ⟨_, hloop, bind_ok_iff.mpr ⟨s', ?_, ?_⟩⟩
      · rw [← hmodify, BitVec.ofNat_add]
        rfl
      · rw [BitVec.ofNat_add]
        rfl
    · rcases ReflTransGen.cases_tail hx with rfl | ⟨c, hxc, hc⟩
      · exact hself
      · exact hkeep x ((hall c ((hchild c).mpr hc)).1 x hxc)

end Heights

/-- The climb from the adopter ends, and where it first meets what the orphan has cached as an
ascendant, the orphan is still below. -/
def Met (t : NetworkTopology) (orphan a : Ptr) : Prop :=
  ∃ asc, t.ascendantsOf orphan = some asc ∧
    Acc (fun c b => Climbs t.parentOf (· ∈ asc) b c) a ∧
    ∀ z, Meets t.parentOf (· ∈ asc) a z → Below t.parentOf orphan z

section Climbing
variable {asc : List Ptr} {p z : Ptr}

lemma climbToCommon_ok {n : ℕ} {d : BitVec 32} {r : Option (Ptr × BitVec 32)}
    (h : t.climbToCommon asc n p d = .ok r) :
    Acc (fun c b => Climbs t.parentOf (· ∈ asc) b c) p ∧
      ∀ z, Meets t.parentOf (· ∈ asc) p z ↔ r.map Prod.fst = some z := by
  induction n generalizing p d with
  | zero => cases h
  | succ n ih =>
      rw [climbToCommon] at h
      split_ifs at h with hp
      · cases h
        refine ⟨⟨p, fun c hc => absurd hp hc.2⟩, fun z => ?_⟩
        have hself : Meets t.parentOf (· ∈ asc) p p := ⟨.refl, hp⟩
        rw [Option.map_some, Option.some.injEq]
        exact ⟨fun hz => Forest.meets_unique hself hz, fun hz => hz ▸ hself⟩
      · obtain ⟨node, hnode, h⟩ := bind_ok_iff.mp h
        have hparent := parentOf_of_deref hnode
        cases hnext : node.parent with
        | none =>
            rw [hnext] at h hparent
            cases h
            have hstuck : ∀ c, ¬Climbs t.parentOf (· ∈ asc) p c := by
              intro c hc
              have hlink : t.parentOf p = some c := hc.1
              rw [hparent] at hlink
              cases hlink
            refine ⟨⟨p, fun c hc => absurd hc (hstuck c)⟩, fun z =>
              iff_of_false (fun hz => ?_) (Option.some_ne_none z).symm⟩
            rcases ReflTransGen.cases_head hz.1 with rfl | ⟨c, hc, -⟩
            · exact hp hz.2
            · exact hstuck c hc
        | some b =>
            rw [hnext] at h hparent
            obtain ⟨hacc, hmeets⟩ := ih h
            have hclimb : Climbs t.parentOf (· ∈ asc) p b := ⟨hparent, hp⟩
            refine ⟨⟨p, fun c hc => ?_⟩, fun z => ?_⟩
            · rw [Forest.link_rightUnique _ hc.1 hparent]
              exact hacc
            · rw [← hmeets]
              refine ⟨fun hz => ?_, fun hz => ⟨.head hclimb hz.1, hz.2⟩⟩
              rcases ReflTransGen.cases_head hz.1 with rfl | ⟨c, hc, hrest⟩
              · exact absurd hz.2 hp
              · rw [Forest.link_rightUnique _ hc.1 hparent] at hrest
                exact ⟨hrest, hz.2⟩

lemma below_of_climbTo {n : ℕ} {d d' : BitVec 32} (h : t.climbTo z n p d = .ok d') :
    Below t.parentOf p z := by
  induction n generalizing p d with
  | zero => cases h
  | succ n ih =>
      rw [climbTo] at h
      split_ifs at h with hp
      · exact hp ▸ .refl
      · obtain ⟨node, hnode, h⟩ := bind_ok_iff.mp h
        have hparent := parentOf_of_deref hnode
        cases hnext : node.parent with
        | none =>
            rw [hnext] at h
            cases h
        | some b =>
            rw [hnext] at h hparent
            exact .head hparent (ih h)

variable (hlinks : Links t)
include hlinks

/-- The induction over the steps of a climb. -/
lemma climbs_induction {S : Ptr → Prop} {P : ℕ → Ptr → Prop}
    (hstep : ∀ n q node, t.deref q = .ok node →
      (¬S q → ∀ b, node.parent = some b → P n b) → P (n + 1) q)
    (hp : t.Live p) (hacc : Acc (fun c b => Climbs t.parentOf S b c) p) : P t.levels p := by
  have hP : t.Live p → P t.levels p := by
    have hnodes : ∀ c b, Climbs t.parentOf S b c → c ∈ t.heap.keys := fun c b hc =>
      Finmap.mem_keys.mpr (hlinks.parent_live hc.1)
    apply Forest.descend_induction hnodes (P := fun n q => t.Live q → P n q)
    · intro n q hnext hq
      obtain ⟨node, hnode⟩ := deref_of_live hq
      refine hstep n q node hnode fun hS b hb => ?_
      rw [← parentOf_of_deref hnode] at hb
      exact hnext b ⟨hb, hS⟩ (hlinks.parent_live hb)
    · exact Finmap.mem_keys.mpr hp
    · exact hacc
  exact hP hp

lemma climbToCommon_returns (hp : t.Live p)
    (hacc : Acc (fun c b => Climbs t.parentOf (· ∈ asc) b c) p) (d : BitVec 32) :
    ∃ r, t.climbToCommon asc t.levels p d = .ok r := by
  revert d
  apply climbs_induction hlinks (P := fun n p => ∀ d, ∃ r, t.climbToCommon asc n p d = .ok r) _
    hp hacc
  intro n q node hnode hnext d
  rw [climbToCommon]
  split_ifs with hq
  · exact ⟨_, rfl⟩
  · rw [hnode, ok_bind]
    cases hparent : node.parent with
    | none => exact ⟨none, rfl⟩
    | some b => exact hnext hq b hparent (d + 1)

lemma climbTo_returns (hp : t.Live p) (hbelow : Below t.parentOf p z) (d : BitVec 32) :
    ∃ d', t.climbTo z t.levels p d = .ok d' := by
  have hacc : Acc (fun c b => Climbs t.parentOf (· = z) b c) p := by
    induction hbelow using ReflTransGen.head_induction_on with
    | refl => exact ⟨z, fun c hc => absurd rfl hc.2⟩
    | @head a b hab _ ih =>
        refine ⟨a, fun c hc => ?_⟩
        rw [Forest.link_rightUnique _ hc.1 hab]
        exact ih (hlinks.parent_live hab)
  revert hbelow d
  apply climbs_induction hlinks
    (P := fun n p => Below t.parentOf p z → ∀ d, ∃ d', t.climbTo z n p d = .ok d') _ hp hacc
  intro n q node hnode hnext hbelow d
  rw [climbTo]
  split_ifs with hq
  · exact ⟨d, rfl⟩
  · obtain ⟨b, hb, hrest⟩ := (ReflTransGen.cases_head hbelow).resolve_left hq
    have hparent : node.parent = some b := by
      rw [← parentOf_of_deref hnode]
      exact hb
    obtain ⟨d', hd'⟩ := hnext hq b hparent hrest (d + 1)
    exact ⟨d', by rw [hnode, ok_bind, hparent]; exact hd'⟩

/-- When `get_Proximity` returns. -/
theorem getProximity_returns_iff {a orphan : Ptr} (ha : t.Live a) (horphan : t.Live orphan) :
    (∃ d, t.getProximity a orphan = .ok d) ↔ Met t orphan a := by
  obtain ⟨node, hnode⟩ := deref_of_live horphan
  have hasc : t.ascendantsOf orphan = some node.ascendants :=
    view_of_lookup _ (deref_ok_iff.mp hnode)
  rw [Met]
  simp only [hasc, Option.some.injEq, exists_eq_left', getProximity, hnode, ok_bind]
  constructor
  · rintro ⟨d, hd⟩
    obtain ⟨r, hr, hd⟩ := bind_ok_iff.mp hd
    obtain ⟨hacc, hmeets⟩ := climbToCommon_ok hr
    refine ⟨hacc, fun z hz => ?_⟩
    rw [hmeets, Option.map_eq_some_iff] at hz
    obtain ⟨⟨z', m⟩, rfl, rfl⟩ := hz
    obtain ⟨d', hd', -⟩ := bind_ok_iff.mp hd
    exact below_of_climbTo hd'
  · rintro ⟨hacc, hbelow⟩
    obtain ⟨r, hr⟩ := climbToCommon_returns hlinks ha hacc 0
    have hmeets := (climbToCommon_ok hr).2
    rw [hr, ok_bind]
    cases r with
    | none => exact ⟨_, rfl⟩
    | some found =>
        obtain ⟨z, m⟩ := found
        obtain ⟨d, hd⟩ := climbTo_returns hlinks horphan (hbelow z ((hmeets z).mpr rfl)) 0
        exact ⟨_, bind_ok_iff.mpr ⟨d, hd, rfl⟩⟩

end Climbing

/-- There is no endless way down from the root, no parent in the set was deleted, and the
proximity of each adopter is found. -/
structure Scorable (t : NetworkTopology) (root orphan : Ptr) (adopters : List Ptr) : Prop where
  ends : Acc (Link t.parentOf) root
  parents : ∀ p ∈ t.parentNodes, t.Live p
  met : ∀ a ∈ adopters, Met t orphan a

lemma Reheighted.met_iff (h : Reheighted t t') {orphan a : Ptr} :
    Met t' orphan a ↔ Met t orphan a := by
  have hasc : t'.ascendantsOf = t.ascendantsOf := h.view_eq (g := Node.ascendants) fun _ _ => rfl
  rw [Met, Met, hasc, h.parentOf_eq]

lemma fanoutExtremes_returns_iff :
    (∃ r, t.fanoutExtremes = .ok r) ↔ ∀ p ∈ t.parentNodes, t.Live p := by
  constructor
  · rintro ⟨r, hr⟩ p hp
    obtain ⟨s₁, s₂, -, hstep⟩ := foldlM_each (I := fun _ => True) (fun _ _ _ _ _ _ => trivial)
      trivial hr hp
    obtain ⟨node, hnode, -⟩ := bind_ok_iff.mp hstep
    exact Finmap.mem_of_lookup_eq_some (deref_ok_iff.mp hnode)
  · intro hlive
    obtain ⟨r, hr, -⟩ := foldlM_returns (I := fun _ => True)
      (f := fun (s : BitVec 32 × BitVec 32) p => do
        let node ← t.deref p
        return widen s node.children.length)
      (fun p hp s _ => by
        obtain ⟨node, hnode⟩ := deref_of_live (hlive p hp)
        exact ⟨_, bind_ok_iff.mpr ⟨node, hnode, rfl⟩, trivial⟩)
      (s := (BitVec.allOnes 32, 0)) trivial
    exact ⟨r, hr⟩

lemma scoreTerms_returns_iff (hlinks : Links t) {a orphan : Ptr} (ha : t.Live a)
    (horphan : t.Live orphan) : (∃ r, t.scoreTerms orphan a = .ok r) ↔ Met t orphan a := by
  obtain ⟨adopter, hadopter⟩ := deref_of_live ha
  obtain ⟨node, hnode⟩ := deref_of_live horphan
  rw [← getProximity_returns_iff hlinks ha horphan]
  simp only [scoreTerms, hadopter, hnode, ok_bind]
  constructor
  · rintro ⟨r, hr⟩
    obtain ⟨d, hd, -⟩ := bind_ok_iff.mp hr
    exact ⟨d, hd⟩
  · rintro ⟨d, hd⟩
    exact ⟨_, bind_ok_iff.mpr ⟨d, hd, rfl⟩⟩

/-- The parts of a computation of scores. -/
lemma computeAdoptionScores_parts {root orphan : Ptr} {adopters : List Ptr}
    (hroot : t.root = some root) {statistics : TreeStatistics} {terms : List ScoreTerms} :
    t.computeAdoptionScores adopters orphan = .ok (t', statistics, terms) ↔
      findSubTreeHeight t.levels root t = .ok (t', statistics.depth) ∧
        t'.fanoutExtremes = .ok (statistics.minFanout, statistics.maxFanout) ∧
          adopters.mapM (t'.scoreTerms orphan) = .ok terms := by
  simp only [computeAdoptionScores, computeTreeStatistics, hroot]
  constructor
  · intro h
    obtain ⟨⟨t₁, statistics₁⟩, hstatistics, h⟩ := bind_ok_iff.mp h
    obtain ⟨⟨t₂, depth⟩, hheight, hstatistics⟩ := bind_ok_iff.mp hstatistics
    obtain ⟨extremes, hextremes, hres⟩ := bind_ok_iff.mp hstatistics
    cases hres
    obtain ⟨terms', hterms, hres⟩ := bind_ok_iff.mp h
    cases hres
    exact ⟨hheight, hextremes, hterms⟩
  · rintro ⟨hheight, hextremes, hterms⟩
    exact bind_ok_iff.mpr ⟨_, bind_ok_iff.mpr ⟨_, hheight, bind_ok_iff.mpr ⟨_, hextremes, rfl⟩⟩,
      bind_ok_iff.mpr ⟨terms, hterms, rfl⟩⟩

lemma computeAdoptionScores_reheighted {root orphan : Ptr} {adopters : List Ptr}
    (hroot : t.root = some root) {statistics : TreeStatistics} {terms : List ScoreTerms}
    (h : t.computeAdoptionScores adopters orphan = .ok (t', statistics, terms)) :
    Reheighted t t' :=
  findSubTreeHeight_reheighted (.refl t) ((computeAdoptionScores_parts hroot).mp h).1

theorem computeAdoptionScores_returns_iff (hlinks : Links t) {root orphan : Ptr}
    {adopters : List Ptr} (hroot : t.root = some root) (hlive : t.Live root)
    (horphan : t.Live orphan) (hadopters : ∀ a ∈ adopters, t.Live a) :
    (∃ r, t.computeAdoptionScores adopters orphan = .ok r) ↔ Scorable t root orphan adopters := by
  constructor
  · rintro ⟨⟨t', statistics, terms⟩, hr⟩
    obtain ⟨hheight, hextremes, hterms⟩ := (computeAdoptionScores_parts hroot).mp hr
    have hstored : Reheighted t t' := findSubTreeHeight_reheighted (.refl t) hheight
    have hparents : t'.parentNodes = t.parentNodes := by rw [hstored.rest]
    refine ⟨acc_of_findSubTreeHeight hlinks (.refl t) hheight, fun p hp => ?_, fun a ha => ?_⟩
    · rw [← hparents] at hp
      exact (hstored.live_iff p).mp (fanoutExtremes_returns_iff.mp ⟨_, hextremes⟩ p hp)
    · obtain ⟨y, -, hy⟩ := forall₂_exists_of_mem (mapM_ok_iff.mp hterms) ha
      exact hstored.met_iff.mp ((scoreTerms_returns_iff (hstored.links hlinks)
        ((hstored.live_iff a).mpr (hadopters a ha)) ((hstored.live_iff orphan).mpr horphan)).mp
          ⟨y, hy⟩)
  · intro h
    obtain ⟨⟨t', depth⟩, hheight⟩ := findSubTreeHeight_returns hlinks hlive h.ends
    have hstored : Reheighted t t' := findSubTreeHeight_reheighted (.refl t) hheight
    have hparents : t'.parentNodes = t.parentNodes := by rw [hstored.rest]
    obtain ⟨⟨minFanout, maxFanout⟩, hextremes⟩ := (fanoutExtremes_returns_iff (t := t')).mpr
      fun p hp => by
        rw [hparents] at hp
        exact (hstored.live_iff p).mpr (h.parents p hp)
    obtain ⟨terms, hterms⟩ : ∃ terms, adopters.mapM (t'.scoreTerms orphan) = .ok terms := by
      simp only [mapM_ok_iff]
      exact forall₂_of_exists fun a ha => (scoreTerms_returns_iff (hstored.links hlinks)
        ((hstored.live_iff a).mpr (hadopters a ha)) ((hstored.live_iff orphan).mpr horphan)).mpr
          (hstored.met_iff.mpr (h.met a ha))
    exact ⟨(t', ⟨minFanout, maxFanout, depth⟩, terms),
      (computeAdoptionScores_parts hroot).mpr ⟨hheight, hextremes, hterms⟩⟩

end MRNet.Topology
