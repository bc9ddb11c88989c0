import MRNet.AdoptionScores

/-!
# Runs that keep the scores of adopters sound

The scores read the fan-outs of the nodes in the set of the parents, the heights of the
subtrees, and the cached ascendants. They are sound if every node with a child is in the set,
and if the live nodes that a node below the root has cached are above it. A node that moves
with its subtree refreshes its own cache only.
-/
namespace MRNet.Topology
open Codec Relation
open SerialGraph (Text Port)
open WaitForAll (Rank)
open Forest (Link Rooted Below)
open NetworkTopology

variable {t t' : NetworkTopology} {pending : Option Ptr}

/-- The links are a forest in which the root has no parent, and the set of the parents and the
caches below the root can be relied upon. A node that is pending is noted as a parent before it
gets a child. -/
structure Charted (t : NetworkTopology) (pending : Option Ptr) : Prop where
  links : Links t
  rooted : ∀ p, Rooted t.parentOf p
  childSets : t.ChildSets
  inner : InnerParents t
  rootLive : ∀ root, t.root = some root → t.Live root
  parentless : ∀ root, t.root = some root → t.parentOf root = none
  /-- An address that was cached is not given to a new node. -/
  fresh : ∀ p asc, t.ascendantsOf p = some asc → ∀ q ∈ asc, q < t.nextPtr
  cached : ∀ root, t.root = some root → ∀ p, Below t.parentOf p root →
    ∀ asc, t.ascendantsOf p = some asc →
      (p ≠ root → root ∈ asc) ∧ ∀ q ∈ asc, t.Live q → TransGen (Link t.parentOf) p q
  noted : ∀ c p, t.parentOf c = some p → p ∈ t.parentNodes
  parents : ∀ p ∈ t.parentNodes, t.flagOf p = some false ∨ pending = some p

/-- A node that is not the root moves below one outside its subtree. If that one is below the
root, then what is cached in the subtree is the root, and live nodes above the new place or on
the way to the node that moves. -/
structure MovesSoundly (t : NetworkTopology) (c p : Ptr) : Prop where
  notRoot : t.root ≠ some c
  outside : ¬Below t.parentOf p c
  caches : ∀ root, t.root = some root → Below t.parentOf p root →
    ∀ x, TransGen (Link t.parentOf) x c → ∀ asc, t.ascendantsOf x = some asc →
      root ∈ asc ∧ ∀ q ∈ asc, t.Live q →
        (TransGen (Link t.parentOf) x q ∧ Below t.parentOf q c) ∨ Below t.parentOf p q

/-- The link is there already, or it is made soundly, to a node that is noted as a parent. -/
def LinksSoundly (t : NetworkTopology) (c p : Ptr) : Prop :=
  t.parentOf c ≠ some p → p ∈ t.parentNodes ∧ MovesSoundly t c p

/-- The root of the graph is new, or its subtree moves soundly. -/
def GraftsSoundly (t : NetworkTopology) (inode : Ptr) (isg : Text) : Prop :=
  ∀ r c, SerialGraph.getRootRank isg = .ok r → t.findNode r = some c →
    t.parentOf c ≠ some inode → MovesSoundly t c inode

lemma MovesSoundly.congr {c p : Ptr} (h : MovesSoundly t c p) (hheap : t'.heap = t.heap)
    (hroot : t'.root = t.root) : MovesSoundly t' c p := by
  have hparentOf : t'.parentOf = t.parentOf := parentOf_congr hheap
  have hasc : t'.ascendantsOf = t.ascendantsOf := view_congr _ hheap
  have hlive : ∀ q, t'.Live q ↔ t.Live q := by
    intro q
    rw [Live, Live, hheap]
  constructor
  · rw [hroot]
    exact h.notRoot
  · rw [hparentOf]
    exact h.outside
  · simp only [hroot, hparentOf, hasc, hlive]
    exact h.caches

/-- A leaf moves soundly to any other node. -/
lemma movesSoundly_leaf {c p : Ptr} (hroot : t.root ≠ some c) (hne : p ≠ c)
    (hleaf : ¬HasChild t c) : MovesSoundly t c p := by
  refine ⟨hroot, fun hbelow => ?_, fun root _ _ x hx => ?_⟩
  · rcases ReflTransGen.cases_tail hbelow with heq | ⟨d, -, hd⟩
    · exact hne heq.symm
    · exact hleaf ⟨d, hd⟩
  · obtain ⟨d, -, hd⟩ := TransGen.tail'_iff.mp hx
    exact absurd ⟨d, hd⟩ hleaf

namespace Charted

/-- A node moves to one that is noted as a parent. -/
lemma moved (h : Charted t pending) {c p : Ptr} (hmoved : Moved t t' c p)
    (hobjects : MovedObjects t t' c p) (hp : t.Live p) (hnoted : p ∈ t.parentNodes)
    (hpending : ∀ q, pending = some q → q = p) (hsound : MovesSoundly t c p) :
    Charted t' none := by
  obtain ⟨hroot, -, hparents⟩ := hobjects.sets
  have hrooted : ∀ q, Rooted t'.parentOf q := by
    intro q
    rw [hmoved.parentOf]
    exact (h.rooted p).move hsound.outside (h.rooted q)
  have hlive : ∀ q, t'.Live q ↔ t.Live q := by
    intro q
    rw [live_iff_rankOf, live_iff_rankOf, hmoved.rankOf]
  have houtside : ∀ {x z}, ¬Below t.parentOf x c →
      (Below t'.parentOf x z ↔ Below t.parentOf x z) := by
    intro x z hout
    rw [hmoved.parentOf]
    exact Forest.below_update_iff hout
  have hinside : ∀ {x q}, Below t.parentOf x q → Below t.parentOf q c → Below t'.parentOf x q := by
    intro x q hxq hqc
    rw [hmoved.parentOf]
    exact Forest.below_update_inside h.rooted hxq hqc
  have hlink : Link t'.parentOf c p := by
    rw [Link, hmoved.parentOf, Function.update_self]
  refine ⟨h.links.moved hmoved, hrooted, hobjects.childSets h.childSets,
    innerParents_kept.moved hp hmoved hobjects h.inner, fun root hr => ?_, fun root hr => ?_,
    fun x asc hasc q hq => ?_, fun root hr x hx asc hasc => ?_, fun d q hd => ?_, fun q hq => ?_⟩
  · rw [hroot] at hr
    exact (hlive root).mpr (h.rootLive root hr)
  · rw [hroot] at hr
    have hne : root ≠ c := fun heq => hsound.notRoot (heq ▸ hr)
    rw [hmoved.parentOf, Function.update_of_ne hne]
    exact h.parentless root hr
  · rw [hobjects.ascendantsOf] at hasc
    rw [hmoved.nextPtr]
    split_ifs at hasc
    · obtain ⟨ascParent, hascParent, rfl⟩ := Option.map_eq_some_iff.mp hasc
      rcases List.mem_insert_iff.mp hq with rfl | hq
      · exact h.links.fresh _ hp
      · exact h.fresh p ascParent hascParent q hq
    · exact h.fresh x asc hasc q hq
  · rw [hroot] at hr
    rw [hobjects.ascendantsOf] at hasc
    by_cases hxc : Below t.parentOf x c
    · have hbelow : Below t.parentOf p root := by
        rw [hmoved.parentOf] at hx
        exact Forest.below_of_update h.rooted hsound.outside (h.parentless root hr)
          (fun heq => hsound.notRoot (heq ▸ hr)) hxc hx
      -- What is above the new parent is above the whole subtree now.
      have habove : ∀ q, Below t.parentOf p q → TransGen (Link t'.parentOf) x q := fun q hq =>
        TransGen.trans_left (TransGen.tail' (hinside hxc .refl) hlink)
          ((houtside hsound.outside).mpr hq)
      rcases reflTransGen_iff_eq_or_transGen.mp hxc with rfl | hxc'
      · rw [if_pos rfl] at hasc
        obtain ⟨ascParent, hascParent, rfl⟩ := Option.map_eq_some_iff.mp hasc
        obtain ⟨hmem, hall⟩ := h.cached root hr p hbelow ascParent hascParent
        refine ⟨fun _ => List.mem_insert_iff.mpr ?_, fun q hq hqLive => habove q ?_⟩
        · by_cases heq : root = p
          · exact .inl heq
          · exact .inr (hmem (Ne.symm heq))
        · rcases List.mem_insert_iff.mp hq with rfl | hq
          · exact .refl
          · exact (hall q hq ((hlive q).mp hqLive)).to_reflTransGen
      · have hne : x ≠ c := ((h.rooted x).transGen_iff.mp hxc').1.symm
        rw [if_neg hne] at hasc
        obtain ⟨hmem, hall⟩ := hsound.caches root hr hbelow x hxc' asc hasc
        refine ⟨fun _ => hmem, fun q hq hqLive => ?_⟩
        rcases hall q hq ((hlive q).mp hqLive) with ⟨hxq, hqc⟩ | hpq
        · have hqx := ((h.rooted x).transGen_iff.mp hxq).1
          exact (hrooted x).transGen_iff.mpr ⟨hqx, hinside hxq.to_reflTransGen hqc⟩
        · exact habove q hpq
    · have hne : x ≠ c := fun heq => hxc (heq ▸ .refl)
      rw [if_neg hne] at hasc
      obtain ⟨hmem, hall⟩ := h.cached root hr x ((houtside hxc).mp hx) asc hasc
      refine ⟨hmem, fun q hq hqLive => ?_⟩
      obtain ⟨hqx, hxq⟩ := (h.rooted x).transGen_iff.mp (hall q hq ((hlive q).mp hqLive))
      exact (hrooted x).transGen_iff.mpr ⟨hqx, (houtside hxc).mpr hxq⟩
  · rw [hparents]
    rw [hmoved.parentOf] at hd
    by_cases hdc : d = c
    · rw [hdc, Function.update_self] at hd
      exact Option.some.inj hd ▸ hnoted
    · rw [Function.update_of_ne hdc] at hd
      exact h.noted d q hd
  · rw [hparents] at hq
    refine .inl ?_
    rw [hobjects.flagOf]
    split_ifs with hqp
    · obtain ⟨b, hb⟩ := Option.isSome_iff_exists.mp ((live_iff_view Node.isBackEnd).mp hp)
      have hb : t.flagOf p = some b := hb
      rw [hqp, hb]
      rfl
    · exact (h.parents q hq).resolve_right fun hpend => hqp (hpending q hpend)

/-- A node is removed, and its children are orphans. -/
lemma removed (h : Charted t none) {p : Ptr} (hremoved : Removed t t' p)
    (hobjects : RemovedObjects t t' p) : Charted t' none := by
  have hcut : ∀ {a b}, Link t'.parentOf a b → Link t.parentOf a b := by
    intro a b hab
    rw [Link, hremoved.parentOf] at hab
    split_ifs at hab
    exact hab
  have hrooted := hremoved.rooted h.rooted
  have hroot : ∀ {root}, t'.root = some root → t.root = some root := by
    intro root hr
    rw [hobjects.root] at hr
    split_ifs at hr
    exact hr
  have hlive : ∀ {q}, t'.Live q → t.Live q := by
    intro q hq
    rw [live_iff_rankOf, hremoved.rankOf] at hq
    by_cases hqp : q = p
    · rw [hqp, Function.update_self] at hq
      cases hq
    · rw [Function.update_of_ne hqp] at hq
      exact live_iff_rankOf.mpr hq
  have hasc : ∀ {x asc}, t'.ascendantsOf x = some asc → t.ascendantsOf x = some asc := by
    intro x asc hx
    rw [hobjects.ascendantsOf] at hx
    by_cases hxp : x = p
    · rw [hxp, Function.update_self] at hx
      cases hx
    · rw [Function.update_of_ne hxp] at hx
      exact hx
  refine ⟨h.links.removed hremoved, hrooted, hobjects.childSets h.childSets,
    innerParents_kept.removed hremoved hobjects h.inner, fun root hr => ?_, fun root hr => ?_,
    fun x asc hx q hq => ?_, fun root hr x hx asc hx' => ?_, fun d q hd => ?_, fun q hq => ?_⟩
  · have hne : root ≠ p := by
      rintro rfl
      have hold := hroot hr
      rw [hobjects.root, if_pos hold] at hr
      cases hr
    rw [live_iff_rankOf, hremoved.rankOf, Function.update_of_ne hne, ← live_iff_rankOf]
    exact h.rootLive root (hroot hr)
  · rw [hremoved.parentOf]
    split_ifs
    · rfl
    · exact h.parentless root (hroot hr)
  · rw [hremoved.nextPtr]
    exact h.fresh x asc (hasc hx) q hq
  · have hbelow : Below t.parentOf x root := ReflTransGen.mono (fun _ _ => hcut) _ _ hx
    obtain ⟨hmem, hall⟩ := h.cached root (hroot hr) x hbelow asc (hasc hx')
    refine ⟨hmem, fun q hq hqLive => ?_⟩
    obtain ⟨hqx, hxq⟩ := (h.rooted x).transGen_iff.mp (hall q hq (hlive hqLive))
    exact (hrooted x).transGen_iff.mpr
      ⟨hqx, Forest.Below.between hcut (h.parentless root (hroot hr)) hx hxq⟩
  · have hqp : q ≠ p := by
      rintro rfl
      rw [hremoved.parentOf] at hd
      split_ifs at hd with hgone
      exact hgone (.inr hd)
    exact (hobjects.parentNodes q).mpr ⟨h.noted d q (hcut hd), fun _ => hqp⟩
  · obtain ⟨hq, hkept⟩ := (hobjects.parentNodes q).mp hq
    have hflag := (h.parents q hq).resolve_right (Option.some_ne_none q).symm
    have hqp : q ≠ p := fun heq => hkept (heq ▸ hflag) heq
    refine .inl ?_
    rw [hobjects.flagOf, Function.update_of_ne hqp]
    exact hflag

/-- A node without links is made. It may be the root. -/
lemma created (h : Charted t pending) {host : Text} {port : Port} {r : Rank} {isBackEnd : Bool}
    (hfresh : t.findNode r = none)
    (hheap : t'.heap = (t.newObject (Node.create host port r isBackEnd)).heap)
    (hnodes : t'.nodes = t.nodes.insert r t.nextPtr) (hnext : t'.nextPtr = t.nextPtr + 1)
    (horphans : t'.orphans = t.orphans)
    (hroot : t'.root = t.root ∨ t'.root = some t.nextPtr)
    (hparents : t'.parentNodes = t.parentNodes) : Charted t' pending := by
  have hcreated : Created t t' r :=
    created_of_newObject h.links host port r isBackEnd hheap hnodes hnext horphans
  have hview : ∀ {α} (g : Node → α), t'.view g =
      Function.update (t.view g) t.nextPtr (some (g (Node.create host port r isBackEnd))) :=
    fun g => (view_congr g hheap).trans (newObject_view g t _)
  have hdead := h.links.not_live_nextPtr
  have hstuck : t.parentOf t.nextPtr = none := by
    by_contra hsome
    obtain ⟨q, hq⟩ := Option.ne_none_iff_exists'.mp hsome
    exact hdead (live_of_parentOf hq)
  have hunlinked : ∀ c, t.parentOf c ≠ some t.nextPtr := fun c hc => hdead (h.links.parent_live hc)
  refine ⟨h.links.created hfresh hcreated, ?_, ?_, innerParents_kept.created h.links h.inner host port r
    isBackEnd hheap, fun root hr => ?_, fun root hr => ?_, fun x asc hx q hq => ?_,
    fun root hr x hx asc hx' => ?_, ?_, fun q hq => ?_⟩
  · rw [hcreated.parentOf]
    exact h.rooted
  · unfold ChildSets
    rw [hcreated.childrenOf]
    exact h.childSets
  · rw [live_iff_rankOf, hcreated.rankOf]
    by_cases hrn : root = t.nextPtr
    · rw [hrn, Function.update_self]
      rfl
    · rw [Function.update_of_ne hrn, ← live_iff_rankOf]
      rcases hroot with hsame | hnew
      · exact h.rootLive root (hsame ▸ hr)
      · rw [hr] at hnew
        exact absurd (Option.some.inj hnew) hrn
  · rw [hcreated.parentOf]
    rcases hroot with hsame | hnew
    · exact h.parentless root (hsame ▸ hr)
    · rw [hr] at hnew
      rw [Option.some.inj hnew]
      exact hstuck
  · rw [hnext]
    rw [ascendantsOf, hview] at hx
    by_cases hxn : x = t.nextPtr
    · rw [hxn, Function.update_self] at hx
      cases hx
      cases hq
    · rw [Function.update_of_ne hxn] at hx
      exact (h.fresh x asc hx q hq).trans (Nat.lt_succ_self _)
  · rw [hcreated.parentOf] at hx ⊢
    rw [ascendantsOf, hview] at hx'
    by_cases hxn : x = t.nextPtr
    · have hxr : x = root := by
        rcases ReflTransGen.cases_head hx with heq | ⟨b, hb, -⟩
        · exact heq
        · rw [Link, hxn, hstuck] at hb
          cases hb
      rw [hxn, Function.update_self] at hx'
      cases hx'
      exact ⟨fun hne => absurd hxr hne, by simp [Node.create]⟩
    · rw [Function.update_of_ne hxn] at hx'
      rcases hroot with hsame | hnew
      · obtain ⟨hmem, hall⟩ := h.cached root (hsame ▸ hr) x hx asc hx'
        refine ⟨hmem, fun q hq hqLive => hall q hq ?_⟩
        have hlt := h.fresh x asc hx' q hq
        rw [live_iff_view Node.rank, hview, Function.update_of_ne hlt.ne] at hqLive
        exact (live_iff_view Node.rank).mpr hqLive
      · rw [hr] at hnew
        rcases ReflTransGen.cases_tail hx with heq | ⟨b, -, hb⟩
        · exact absurd (heq.symm.trans (Option.some.inj hnew)) hxn
        · rw [Option.some.inj hnew] at hb
          exact absurd hb (hunlinked b)
  · rw [hcreated.parentOf, hparents]
    exact h.noted
  · rw [hparents] at hq
    rcases h.parents q hq with hflag | hpend
    · have hqn : q ≠ t.nextPtr := fun heq => hdead (heq ▸ live_of_flagOf hflag)
      refine .inl ?_
      rw [NetworkTopology.flagOf, hview, Function.update_of_ne hqn]
      exact hflag
    · exact .inr hpend

/-- A node is noted as a parent, and is about to get a child. -/
lemma noting (h : Charted t none) (p : Ptr) :
    Charted { t with parentNodes := t.parentNodes.insert p } (some p) := by
  refine { h with
    links := h.links.of_sameViews ⟨rfl, rfl, rfl, rfl⟩
    noted := fun c q hc => List.mem_insert_iff.mpr (.inr (h.noted c q hc))
    parents := fun q hq => ?_ }
  rcases List.mem_insert_iff.mp hq with rfl | hq
  · exact .inr rfl
  · exact .inl ((h.parents q hq).resolve_right (Option.some_ne_none q).symm)

lemma enlisted (h : Charted t pending) (c : Ptr) (isBackEnd : Bool) :
    Charted (enlist t c isBackEnd) pending := by
  cases isBackEnd with
  | false => exact h
  | true => exact { h with links := h.links.of_sameViews ⟨rfl, rfl, rfl, rfl⟩ }

/-- A node that has a child is not pending. -/
lemma settled (h : Charted t pending) (hchild : ∀ p, pending = some p → HasChild t p) :
    Charted t none := by
  refine { h with parents := fun q hq => .inl ((h.parents q hq).elim id fun hp => ?_) }
  obtain ⟨c, hc⟩ := hchild q hp
  exact h.inner c q hc

lemma setParent (h : Charted t pending) {rc rp : Rank} {res : Reparented}
    (hpending : ∀ q, pending = some q → t.findNode rp = some q)
    (hfound : pending ≠ none → (t.findNode rc).isSome)
    (hsound : ∀ c p, t.findNode rc = some c → t.findNode rp = some p → LinksSoundly t c p)
    (hset : t.setParent rc rp = .ok (t', res)) : Charted t' none := by
  rcases setParent_cases h.links hset with ⟨rfl, hsame⟩ | ⟨c, p, hc, hp, hne, hmoved, hobjects⟩
  · refine h.settled fun q hq => ?_
    obtain ⟨c, hc⟩ := Option.isSome_iff_exists.mp (hfound (by rw [hq]; exact Option.some_ne_none q))
    exact ⟨c, hsame c q hc (hpending q hq)⟩
  · obtain ⟨hnoted, hmoves⟩ := hsound c p hc hp hne
    refine h.moved hmoved hobjects (h.links.live_of_findNode hp).1 hnoted (fun q hq => ?_) hmoves
    exact Option.some.inj ((hpending q hq).symm.trans hp)

lemma addGraphRoot (h : Charted t none) {inode c : Ptr} {isg : Text} (hinode : t.Live inode)
    (hsound : GraftsSoundly t inode isg) (hadd : t.addGraphRoot inode isg = .ok (t', c)) :
    Charted t' none ∧ t'.Live c ∧ ∀ q, t.Live q → t'.Live q := by
  obtain ⟨r, ri, t₁, isBackEnd, res, hr, hri, hgrafted, -, hset⟩ :=
    addGraphRoot_cases h.links hinode hadd
  have hlinking := hgrafted.linking h.links hinode hri isBackEnd
  refine ⟨?_, setParent_live hlinking.links hset (hlinking.links.live_of_findNode hlinking.found).1,
    fun q hq => setParent_live hlinking.links hset (hlinking.live q hq)⟩
  have hcharted₁ : Charted t₁ (some inode) := by
    cases hgrafted with
    | known _ => exact h.noting inode
    | @made host port flag hfresh _ _ _ _ =>
        exact (h.noting inode).created hfresh rfl rfl rfl rfl (.inl rfl) rfl
  have hnoted : inode ∈ (enlist t₁ c isBackEnd).parentNodes := by
    rw [(enlist_rest t₁ c isBackEnd).2.2.2.2.2]
    cases hgrafted with
    | known _ => exact List.mem_insert_self
    | made _ _ _ _ _ => exact List.mem_insert_self
  have hmoves : t.parentOf c ≠ some inode → MovesSoundly (enlist t₁ c isBackEnd) c inode := by
    intro hne
    obtain ⟨hheap, -, -, -, hroot, -⟩ := enlist_rest t₁ c isBackEnd
    cases hgrafted with
    | known hknown => exact (hsound r c hr hknown hne).congr hheap hroot
    | made _ hc _ _ _ =>
        have hdead := h.links.not_live_nextPtr
        refine movesSoundly_leaf ?_ (fun heq => hdead ((heq.trans hc) ▸ hinode)) ?_
        · rw [hlinking.root, hc]
          exact fun heq => hdead (h.rootLive _ heq)
        · rintro ⟨d, hd⟩
          rw [hlinking.parentOf, hc] at hd
          exact hdead (h.links.parent_live hd)
  refine (hcharted₁.enlisted c isBackEnd).setParent (fun q hq => ?_) (fun _ => ?_)
    (fun c' p hc' hp hne => ?_) hset
  · exact Option.some.inj hq ▸ hlinking.foundParent
  · rw [hlinking.found]
    rfl
  · cases hlinking.found.symm.trans hc'
    cases hlinking.foundParent.symm.trans hp
    rw [hlinking.parentOf] at hne
    exact ⟨hnoted, hmoves hne⟩

lemma of_heap_empty (hlinks : Links t) (hheap : t.heap = ∅) (hroot : t.root = none)
    (hparents : t.parentNodes = []) : Charted t none := by
  have hnone : ∀ q, t.heap.lookup q = none := by
    intro q
    rw [hheap, Finmap.lookup_empty]
  have hparentOf : ∀ q, t.parentOf q = none := by
    intro q
    rw [NetworkTopology.parentOf, hnone]
    rfl
  have hnoRoot : ∀ root, t.root ≠ some root := by
    intro root hr
    rw [hroot] at hr
    cases hr
  refine ⟨hlinks, fun p => .root (hparentOf p), childSets_kept.empty hheap,
    innerParents_kept.empty hheap, fun root hr => absurd hr (hnoRoot root),
    fun root hr => absurd hr (hnoRoot root), fun x asc hx => ?_,
    fun root hr => absurd hr (hnoRoot root), fun c p hc => ?_, fun p hp => ?_⟩
  · rw [ascendantsOf, view, hnone] at hx
    cases hx
  · rw [hparentOf] at hc
    cases hc
  · rw [hparents] at hp
    cases hp

end Charted

def GraftedSoundly (t : NetworkTopology) (inode : Ptr) (isg : Text) : Prop :=
  ∀ s m g, Visits t inode isg s m g → GraftsSoundly s m g

/-- A link is made only to a node that is noted as a parent, and only soundly. The set of the
parents is empty when a topology is reset. -/
def KeepsScores (t : NetworkTopology) : Operation → Prop
  | .newNode _ _ rank _ => t.findNode rank = none
  | .setParent rc rp =>
      ∀ c p, t.findNode rc = some c → t.findNode rp = some p → LinksSoundly t c p
  | .removeNode _ => True
  | .addSubGraph r isg => ∀ node, t.findNode r = some node → GraftedSoundly t node isg
  | .reset isg => t.parentNodes = [] ∧
      ∀ t₁ root before kid after t₂, resetRoot t isg = .ok (t₁, root) →
        SerialGraph.getChildren isg = .ok (before ++ kid :: after) →
        before.foldlM (fun t kid => t.addGraph root kid) t₁ = .ok t₂ → GraftedSoundly t₂ root kid

namespace Charted

lemma perform (h : Charted t none) {op : Operation} (hkeeps : KeepsScores t op)
    (hstep : perform t op = .ok t') : Charted t' none := by
  cases op with
  | newNode host port rank isBackEnd =>
      cases hstep
      exact h.created hkeeps rfl rfl rfl rfl (.inl rfl) rfl
  | setParent rc rp =>
      obtain ⟨⟨t₁, res⟩, hset, hres⟩ := bind_ok_iff.mp hstep
      cases hres
      exact h.setParent (fun q hq => absurd hq.symm (Option.some_ne_none q))
        (fun hne => absurd rfl hne) hkeeps hset
  | removeNode r =>
      obtain ⟨⟨t₁, found⟩, hremove, hres⟩ := bind_ok_iff.mp hstep
      cases hres
      rcases removeNode_cases h.links hremove with ⟨-, rfl⟩ | ⟨p, -, hremoved, hobjects⟩
      · exact h
      · exact h.removed hremoved hobjects
  | addSubGraph r isg =>
      obtain ⟨⟨t₁, found⟩, hadd, hres⟩ := bind_ok_iff.mp hstep
      cases hres
      apply addSubGraph_keeps (I := fun t => Charted t none) _ h.links h hkeeps hadd
      intro s s' m n g hs hm hgraft hroot
      exact hs.addGraphRoot hm hgraft hroot
  | reset isg =>
      obtain ⟨hparents, hgrafts⟩ := hkeeps
      have hheap := clear_heap h.links
      have hclear : Charted t.clear none := .of_heap_empty
        (links_of_heap_empty hheap rfl rfl) hheap rfl (by rw [clear_parentNodes, hparents])
      apply reset_keeps (I := fun t => Charted t none) (C := GraftsSoundly) _ hclear _ hgrafts
        hstep
      · intro s s' m n g hs hm hgraft hadd
        exact hs.addGraphRoot hm hgraft hadd
      · intro t₁ root hroot
        obtain ⟨host, port, rank, isBackEnd, -, -, -, -, -, rfl⟩ := resetRoot_ok hroot
        exact hclear.created (Finmap.lookup_empty _) rfl rfl rfl rfl (.inr rfl) rfl

end Charted

lemma Started.charted (h : Started t) : Charted t none := by
  have hempty : Charted .empty none := .of_heap_empty links_empty rfl rfl rfl
  cases h with
  | empty => exact hempty
  | create hostName port rank isBackEnd =>
      exact hempty.created (Finmap.lookup_empty _) rfl rfl rfl rfl (.inr rfl) rfl

lemma Led.charted {start : NetworkTopology} (h : Led KeepsScores start t)
    (hstart : Started start) : Charted t none := by
  induction h with
  | start => exact hstart.charted
  | step _ hmeets hstep ih => exact ih.perform hmeets hstep

end MRNet.Topology
