import MRNet.TopologyObjects

/-!
# The sets of parents and of back-ends

The topology keeps a set of the nodes with children and one of the back-ends. Only some of
its operations update them: a node that gets its first child through `set_Parent` is not
noted, one that loses its last child is not erased, a back-end that gets a child stays in
its set, and `reset` does not clear the set of the parents.
-/
namespace MRNet.Topology
open Codec
open SerialGraph (Text Port)
open WaitForAll (Rank)
open NetworkTopology

variable {t t' : NetworkTopology}

/-- The sets are those of the nodes with children and of the back-ends, and hold no node that
was deleted. -/
structure DerivedSets (t : NetworkTopology) : Prop where
  parents : ∀ p, p ∈ t.parentNodes ↔ t.Live p ∧ t.childrenOf p ≠ []
  backEnds : ∀ p, p ∈ t.backEndNodes ↔ t.Live p ∧ t.root ≠ some p ∧ t.flagOf p = some true
  orphans : ∀ p ∈ t.orphans, t.Live p

def HasChild (t : NetworkTopology) (p : Ptr) : Prop := ∃ c, t.parentOf c = some p

/-- No other node loses its only child when `c` leaves its parent. -/
def LeavesOthers (t : NetworkTopology) (c : Ptr) : Prop :=
  ∀ q, t.parentOf c = some q → ∃ d, d ≠ c ∧ t.parentOf d = some q

/-- The invariant, for a set of parents that is given. -/
structure Tidy (t : NetworkTopology) (P : Ptr → Prop) : Prop where
  links : Links t
  root_live : ∀ p, t.root = some p → t.Live p
  parents : ∀ p, p ∈ t.parentNodes ↔ P p
  backEnds : ∀ p, p ∈ t.backEndNodes ↔ t.root ≠ some p ∧ t.flagOf p = some true
  /-- A node with children is no back-end. -/
  inner : ∀ p, HasChild t p → t.flagOf p = some false

lemma Tidy.derivedSets (h : Tidy t (HasChild t)) : DerivedSets t := by
  refine ⟨fun p => ?_, fun p => ?_, fun p hp => (h.links.orphans p hp).1⟩
  · have hchild : t.childrenOf p ≠ [] ↔ HasChild t p := by
      rw [ne_eq, List.eq_nil_iff_forall_not_mem, not_forall_not]
      exact exists_congr fun c => h.links.answered c p
    rw [h.parents, hchild]
    exact ⟨fun hp => ⟨live_of_flagOf (h.inner p hp), hp⟩, And.right⟩
  · rw [h.backEnds]
    exact ⟨fun hp => ⟨live_of_flagOf hp.2, hp⟩, And.right⟩

/-- A node moves to one that is in the set of the parents already. -/
lemma Tidy.moved {P : Ptr → Prop} (h : Tidy t P) {c p : Ptr} (hmoved : Moved t t' c p)
    (hobjects : MovedObjects t t' c p) (hp : t.Live p) (hP : ∀ q, P q ↔ q = p ∨ HasChild t q)
    (hflag : t.flagOf p = some true → t.root = some p) (hleaves : LeavesOthers t c) :
    Tidy t' (HasChild t') := by
  obtain ⟨hroot, hbackEnds, hparents⟩ := hobjects.sets
  have hchild : ∀ q, HasChild t' q ↔ q = p ∨ HasChild t q := by
    intro q
    unfold HasChild
    rw [hmoved.parentOf]
    constructor
    · rintro ⟨d, hd⟩
      by_cases hdc : d = c
      · rw [hdc, Function.update_self] at hd
        exact .inl (Option.some.inj hd).symm
      · rw [Function.update_of_ne hdc] at hd
        exact .inr ⟨d, hd⟩
    · rintro (rfl | ⟨d, hd⟩)
      · exact ⟨c, Function.update_self c _ _⟩
      · obtain ⟨d', hne, hd'⟩ : ∃ d', d' ≠ c ∧ t.parentOf d' = some q := by
          by_cases hdc : d = c
          · exact hleaves q (hdc ▸ hd)
          · exact ⟨d, hdc, hd⟩
        refine ⟨d', ?_⟩
        rw [Function.update_of_ne hne]
        exact hd'
  refine ⟨h.links.moved hmoved, fun q hq => ?_, fun q => ?_, fun q => ?_, fun q hq => ?_⟩
  · rw [hroot] at hq
    rw [live_iff_rankOf, hmoved.rankOf, ← live_iff_rankOf]
    exact h.root_live q hq
  · rw [hparents, h.parents, hP, hchild]
  · rw [hbackEnds, h.backEnds, hroot, hobjects.flagOf]
    by_cases hqp : q = p
    · rw [if_pos hqp, hqp]
      constructor
      · exact fun ⟨hne, htrue⟩ => absurd (hflag htrue) hne
      · rintro ⟨-, htrue⟩
        rw [Option.map_eq_some_iff] at htrue
        obtain ⟨-, -, hfalse⟩ := htrue
        cases hfalse
    · rw [if_neg hqp]
  · rw [hobjects.flagOf]
    by_cases hqp : q = p
    · obtain ⟨b, hb⟩ := Option.isSome_iff_exists.mp ((live_iff_view Node.isBackEnd).mp hp)
      have hb : t.flagOf p = some b := hb
      rw [if_pos hqp, hqp, hb]
      rfl
    · rw [if_neg hqp]
      exact h.inner q (((hchild q).mp hq).resolve_left hqp)

/-- A node is removed, and its parent has another child. -/
lemma Tidy.removed (h : Tidy t (HasChild t)) {p : Ptr} (hremoved : Removed t t' p)
    (hobjects : RemovedObjects t t' p)
    (hleaves : ∀ q, t.parentOf p = some q → q ≠ p → ∃ d, d ≠ p ∧ t.parentOf d = some q) :
    Tidy t' (HasChild t') := by
  have hchild : ∀ q, HasChild t' q ↔ q ≠ p ∧ HasChild t q := by
    intro q
    unfold HasChild
    simp only [hremoved.parentOf]
    constructor
    · rintro ⟨d, hd⟩
      split_ifs at hd with hgone
      refine ⟨?_, d, hd⟩
      rintro rfl
      exact hgone (.inr hd)
    · rintro ⟨hqp, d, hd⟩
      obtain ⟨d', hne, hd'⟩ : ∃ d', d' ≠ p ∧ t.parentOf d' = some q := by
        by_cases hdp : d = p
        · exact hleaves q (hdp ▸ hd) hqp
        · exact ⟨d, hdp, hd⟩
      refine ⟨d', ?_⟩
      rw [if_neg]
      · exact hd'
      · rintro (heq | hown)
        · exact hne heq
        · rw [hd'] at hown
          exact hqp (Option.some.inj hown)
  have hlive : ∀ q, t'.Live q ↔ t.Live q ∧ q ≠ p := by
    intro q
    rw [live_iff_rankOf, live_iff_rankOf, hremoved.rankOf]
    by_cases hqp : q = p
    · simp [hqp]
    · simp [hqp]
  refine ⟨h.links.removed hremoved, fun q hq => ?_, fun q => ?_, fun q => ?_, fun q hq => ?_⟩
  · rw [hobjects.root] at hq
    split_ifs at hq with hroot
    refine (hlive q).mpr ⟨h.root_live q hq, ?_⟩
    rintro rfl
    exact hroot hq
  · rw [hobjects.parentNodes, h.parents, hchild, and_comm]
    apply and_congr_left
    intro hq
    constructor
    · intro hflag hqp
      exact hflag (hqp ▸ h.inner q hq) hqp
    · exact fun hqp _ => hqp
  · rw [hobjects.backEndNodes, h.backEnds, hobjects.root, hobjects.flagOf]
    by_cases hqp : q = p
    · rw [hqp, Function.update_self]
      constructor
      · exact fun ⟨⟨_, htrue⟩, hne⟩ => absurd rfl (hne htrue)
      · rintro ⟨-, hnone⟩
        cases hnone
    · rw [Function.update_of_ne hqp]
      have hroot : (if t.root = some p then none else t.root) ≠ some q ↔ t.root ≠ some q := by
        split_ifs with hroot
        · rw [hroot]
          simpa using fun heq : p = q => hqp heq.symm
        · exact Iff.rfl
      rw [hroot]
      exact ⟨And.left, fun hq => ⟨hq, fun _ => hqp⟩⟩
  · obtain ⟨hqp, hq⟩ := (hchild q).mp hq
    rw [hobjects.flagOf, Function.update_of_ne hqp]
    exact h.inner q hq

/-- Nothing has changed but what is noted as a parent. -/
lemma Tidy.of_sameViews {P P' : Ptr → Prop} (h : Tidy t P) (hsame : SameViews t t')
    (hroot : t'.root = t.root) (hparents : ∀ p, p ∈ t'.parentNodes ↔ P' p)
    (hbackEnds : ∀ p, p ∈ t'.backEndNodes ↔ p ∈ t.backEndNodes) : Tidy t' P' := by
  have hflag : t'.flagOf = t.flagOf := view_congr _ hsame.heap
  refine ⟨h.links.of_sameViews hsame, fun p hp => ?_, hparents, fun p => ?_, fun p hp => ?_⟩
  · rw [hroot] at hp
    rw [Live, hsame.heap]
    exact h.root_live p hp
  · rw [hbackEnds, h.backEnds, hroot, hflag]
  · unfold HasChild at hp
    rw [parentOf_congr hsame.heap] at hp
    rw [hflag]
    exact h.inner p hp

/-- A node without links is made. It is in the set of the back-ends if it is one. -/
lemma Tidy.created {P P' : Ptr → Prop} (h : Tidy t P) {r : Rank} {isBackEnd : Bool}
    (hfresh : t.findNode r = none) (hcreated : Created t t' r)
    (hflag : t'.flagOf = Function.update t.flagOf t.nextPtr (some isBackEnd))
    (hroot : t'.root = t.root) (hparents : ∀ p, p ∈ t'.parentNodes ↔ P' p)
    (hbackEnds : ∀ p, p ∈ t'.backEndNodes ↔
      p ∈ t.backEndNodes ∨ (isBackEnd = true ∧ p = t.nextPtr)) : Tidy t' P' := by
  have hold : ∀ {q}, t.Live q → q ≠ t.nextPtr := by
    rintro q hq rfl
    exact h.links.not_live_nextPtr hq
  refine ⟨h.links.created hfresh hcreated, fun q hq => ?_, hparents, fun q => ?_, fun q hq => ?_⟩
  · rw [hroot] at hq
    have hlive := h.root_live q hq
    rw [live_iff_view Node.isBackEnd]
    show (t'.flagOf q).isSome
    rw [hflag, Function.update_of_ne (hold hlive)]
    exact (live_iff_view Node.isBackEnd).mp hlive
  · rw [hbackEnds, h.backEnds, hroot, hflag]
    by_cases hq : q = t.nextPtr
    · rw [hq, Function.update_self]
      constructor
      · rintro (⟨-, htrue⟩ | ⟨hbackEnd, -⟩)
        · exact absurd rfl (hold (live_of_flagOf htrue))
        · refine ⟨fun hne => hold (h.root_live _ hne) rfl, by rw [hbackEnd]⟩
      · exact fun ⟨_, htrue⟩ => .inr ⟨Option.some.inj htrue, rfl⟩
    · rw [Function.update_of_ne hq]
      simp [hq]
  · have hq : HasChild t q := by
      unfold HasChild at hq
      rw [hcreated.parentOf] at hq
      exact hq
    have hlive := live_of_flagOf (h.inner q hq)
    rw [hflag, Function.update_of_ne (hold hlive)]
    exact h.inner q hq

lemma hasChild_of_created {r : Rank} (hcreated : Created t t' r) : HasChild t' = HasChild t := by
  unfold HasChild
  rw [hcreated.parentOf]

lemma Tidy.newNode (h : Tidy t (HasChild t)) (host : Text) (port : Port) {r : Rank}
    (isBackEnd : Bool) (hfresh : t.findNode r = none) :
    Tidy (t.newNode host port r isBackEnd) (HasChild (t.newNode host port r isBackEnd)) := by
  have hcreated : Created t (t.newNode host port r isBackEnd) r :=
    created_of_newObject h.links host port r isBackEnd rfl rfl rfl rfl
  rw [hasChild_of_created hcreated]
  have hflag : (t.newNode host port r isBackEnd).flagOf =
      Function.update t.flagOf t.nextPtr (some isBackEnd) := newObject_view _ t _
  refine h.created hfresh hcreated hflag rfl h.parents (fun p => ?_)
  show p ∈ (if isBackEnd then t.backEndNodes.insert t.nextPtr else t.backEndNodes) ↔ _
  cases isBackEnd with
  | false => simp
  | true => simp [List.mem_insert_iff, or_comm]

/-- The link is there already, or the new parent has a child and the old one keeps
another. -/
def MoveSpares (t : NetworkTopology) (rc rp : Rank) : Prop :=
  ∀ c p, t.findNode rc = some c → t.findNode rp = some p → t.parentOf c ≠ some p →
    HasChild t p ∧ LeavesOthers t c

lemma Tidy.setParent (h : Tidy t (HasChild t)) {rc rp : Rank} {res : Reparented}
    (hspares : MoveSpares t rc rp) (hset : t.setParent rc rp = .ok (t', res)) :
    Tidy t' (HasChild t') := by
  rcases setParent_cases h.links hset with ⟨rfl, -⟩ | ⟨c, p, hc, hp, hne, hmoved, hobjects⟩
  · exact h
  · obtain ⟨hchild, hleaves⟩ := hspares c p hc hp hne
    have hfalse := h.inner p hchild
    refine h.moved hmoved hobjects (live_of_flagOf hfalse) (fun q => ?_) (fun htrue => ?_) hleaves
    · refine ⟨.inr, ?_⟩
      rintro (rfl | hq)
      · exact hchild
      · exact hq
    · rw [hfalse] at htrue
      cases htrue

/-- The parent of the node keeps another child. -/
def RemovalSpares (t : NetworkTopology) (r : Rank) : Prop :=
  ∀ p, t.findNode r = some p → ∀ q, t.parentOf p = some q → q ≠ p →
    ∃ d, d ≠ p ∧ t.parentOf d = some q

lemma Tidy.removeNode (h : Tidy t (HasChild t)) {r : Rank} {found : Bool}
    (hspares : RemovalSpares t r) (hremove : t.removeNode r = .ok (t', found)) :
    Tidy t' (HasChild t') := by
  rcases removeNode_cases h.links hremove with ⟨-, rfl⟩ | ⟨p, hp, hremoved, hobjects⟩
  · exact h
  · exact h.removed hremoved hobjects (hspares p hp)

/-- The node that gets a child is no back-end, unless it is the root. The root of the graph is
new, or it is no back-end at the root of the topology, and its old parent keeps another
child. -/
def GraftSpares (t : NetworkTopology) (inode : Ptr) (isg : Text) : Prop :=
  (t.flagOf inode = some true → t.root = some inode) ∧
    ∀ r c, SerialGraph.getRootRank isg = .ok r → t.findNode r = some c →
      (t.flagOf c = some true → t.root ≠ some c) ∧
        (t.parentOf c ≠ some inode → LeavesOthers t c)

/-- The root of the graph is about to be linked to its parent. -/
lemma Tidy.grafted (h : Tidy t (HasChild t)) {inode c : Ptr} {isg : Text} {r : Rank}
    (hr : SerialGraph.getRootRank isg = .ok r) (hspares : GraftSpares t inode isg)
    {t₁ : NetworkTopology} (hgrafted : Grafted t inode isg r c t₁) {isBackEnd : Bool}
    (hbackEnd : t₁.flagOf c = some isBackEnd) :
    Tidy (enlist t₁ c isBackEnd) (fun q => q = inode ∨ HasChild t q) := by
  obtain ⟨hheap, hnodes, hnext, horphans, hroot, hparents⟩ := enlist_rest t₁ c isBackEnd
  have hnoted : ∀ q, q ∈ t.parentNodes.insert inode ↔ q = inode ∨ HasChild t q := by
    intro q
    rw [List.mem_insert_iff, h.parents]
  cases hgrafted with
  | known hfound =>
      refine h.of_sameViews ⟨hnodes, hheap, hnext, horphans⟩ hroot (fun q => ?_) (fun q => ?_)
      · rw [hparents]
        exact hnoted q
      · rw [mem_enlist]
        refine ⟨?_, .inl⟩
        rintro (hq | ⟨htrue, rfl⟩)
        · exact hq
        · rw [htrue] at hbackEnd
          exact (h.backEnds q).mpr ⟨(hspares.2 r q hr hfound).1 hbackEnd, hbackEnd⟩
  | @made host port flag hfresh hc _ _ _ =>
      subst hc
      have hcreated : Created t (enlist _ t.nextPtr isBackEnd) r :=
        created_of_newObject h.links host port r flag hheap hnodes hnext horphans
      have hflag : (enlist _ t.nextPtr isBackEnd).flagOf =
          Function.update t.flagOf t.nextPtr (some flag) :=
        (view_congr _ hheap).trans (newObject_view _ t _)
      have hsame : flag = isBackEnd := by
        have hnew := congrFun (newObject_view Node.isBackEnd t (Node.create host port r flag))
          t.nextPtr
        rw [Function.update_self] at hnew
        exact Option.some.inj (hnew.symm.trans hbackEnd)
      subst hsame
      refine h.created hfresh hcreated hflag hroot (fun q => ?_) (fun q => ?_)
      · rw [hparents]
        exact hnoted q
      · rw [mem_enlist]
        exact Iff.rfl

lemma Tidy.addGraphRoot (h : Tidy t (HasChild t)) {inode c : Ptr} {isg : Text}
    (hinode : t.Live inode) (hspares : GraftSpares t inode isg)
    (hadd : t.addGraphRoot inode isg = .ok (t', c)) :
    Tidy t' (HasChild t') ∧ t'.Live c ∧ ∀ q, t.Live q → t'.Live q := by
  obtain ⟨r, ri, t₁, isBackEnd, res, hr, hri, hgrafted, hbackEnd, hset⟩ :=
    addGraphRoot_cases h.links hinode hadd
  have hlinking := hgrafted.linking h.links hinode hri isBackEnd
  have htidy := h.grafted hr hspares hgrafted hbackEnd
  have hchild : HasChild (enlist t₁ c isBackEnd) = HasChild t := by
    unfold HasChild
    rw [hlinking.parentOf]
  refine ⟨?_, setParent_live hlinking.links hset (hlinking.links.live_of_findNode hlinking.found).1,
    fun q hq => setParent_live hlinking.links hset (hlinking.live q hq)⟩
  rcases setParent_cases htidy.links hset with
    ⟨rfl, hsame⟩ | ⟨c', p', hc', hp', hne, hmoved, hobjects⟩
  · refine htidy.of_sameViews ⟨rfl, rfl, rfl, rfl⟩ rfl (fun q => ?_) fun _ => Iff.rfl
    rw [htidy.parents, hchild]
    refine ⟨?_, .inr⟩
    rintro (rfl | hq)
    · rw [← hchild]
      exact ⟨c, hsame c q hlinking.found hlinking.foundParent⟩
    · exact hq
  · cases hlinking.found.symm.trans hc'
    cases hlinking.foundParent.symm.trans hp'
    have hleaves : LeavesOthers (enlist t₁ c isBackEnd) c := by
      unfold LeavesOthers
      rw [hlinking.parentOf] at hne ⊢
      cases hgrafted with
      | known hknown => exact (hspares.2 r c hr hknown).2 hne
      | made _ hc _ _ _ =>
          intro q hq
          rw [hc] at hq
          exact absurd (live_of_parentOf hq) h.links.not_live_nextPtr
    refine htidy.moved hmoved hobjects (hlinking.live inode hinode) (fun q => ?_) (fun htrue => ?_)
      hleaves
    · rw [hchild]
    · rw [hlinking.root]
      apply hspares.1
      rw [← htrue]
      exact (hlinking.view _ hinode).symm

/-- In front of every link that attaching the graph makes, nothing stands in its way. -/
def GraphSpares (t : NetworkTopology) (inode : Ptr) (isg : Text) : Prop :=
  ∀ s m g, Visits t inode isg s m g → GraftSpares s m g

/-- A root without links in an empty topology. -/
lemma tidy_root (hlinks : Links t) (hheap : t.heap = ∅) (hnodes : t.nodes = ∅)
    (hparents : ∀ p, p ∉ t.parentNodes) (hbackEnds : t.backEndNodes = []) (host : Text)
    (port : Port) (r : Rank) (isBackEnd : Bool)
    (ht' : t' = { t.newObject (Node.create host port r isBackEnd) with
      root := some t.nextPtr, nodes := t.nodes.insert r t.nextPtr }) :
    Tidy t' (HasChild t') ∧ t'.Live t.nextPtr := by
  have hlinks' : Links t' := by
    rw [ht']
    exact links_of_root hlinks hnodes host port isBackEnd rfl rfl rfl rfl
  have hnone : ∀ q, t.heap.lookup q = none := by
    intro q
    rw [hheap, Finmap.lookup_empty]
  have hlookup : ∀ q, t'.heap.lookup q =
      if q = t.nextPtr then some (Node.create host port r isBackEnd) else none := by
    intro q
    rw [ht', ← hnone q]
    exact newObject_lookup t _ q
  have hlive : t'.Live t.nextPtr := by
    rw [Live, ← Finmap.lookup_isSome, hlookup, if_pos rfl]
    rfl
  have hchild : ∀ q, ¬HasChild t' q := by
    rintro q ⟨c, hc⟩
    rw [NetworkTopology.parentOf, hlookup] at hc
    split_ifs at hc <;> cases hc
  have hroot : t'.root = some t.nextPtr := by rw [ht']
  refine ⟨⟨hlinks', fun p hp => ?_, fun p => ?_, fun p => ?_, fun p hp => absurd hp (hchild p)⟩,
    hlive⟩
  · rw [hroot] at hp
    exact Option.some.inj hp ▸ hlive
  · refine iff_of_false ?_ (hchild p)
    rw [ht']
    exact hparents p
  · refine iff_of_false ?_ ?_
    · rw [ht']
      show p ∉ t.backEndNodes
      rw [hbackEnds]
      exact List.not_mem_nil
    · rintro ⟨hne, htrue⟩
      rw [flagOf, view, hlookup] at htrue
      split_ifs at htrue with hp
      · exact hne (hp ▸ hroot)
      · cases htrue

/-- No node has a child, so that no parent is left in the set, and the sub-graphs are attached
as they should. -/
def ResetSpares (t : NetworkTopology) (isg : Text) : Prop :=
  (∀ p, ¬HasChild t p) ∧
    ∀ t₁ root before kid after t₂, resetRoot t isg = .ok (t₁, root) →
      SerialGraph.getChildren isg = .ok (before ++ kid :: after) →
      before.foldlM (fun t kid => t.addGraph root kid) t₁ = .ok t₂ → GraphSpares t₂ root kid

lemma Tidy.reset (h : Tidy t (HasChild t)) {isg : Text} (hspares : ResetSpares t isg)
    (hreset : t.reset isg = .ok t') : Tidy t' (HasChild t') := by
  have hclear : Links t.clear := links_of_heap_empty (clear_heap h.links) rfl rfl
  have hnone : ∀ q, t.clear.heap.lookup q = none := by
    intro q
    rw [clear_heap h.links, Finmap.lookup_empty]
  have hparents : ∀ p, p ∉ t.clear.parentNodes := by
    intro p
    rw [clear_parentNodes, h.parents]
    exact hspares.1 p
  have hempty : Tidy t.clear (HasChild t.clear) := by
    have hchild : ∀ p, ¬HasChild t.clear p := by
      rintro p ⟨c, hc⟩
      rw [NetworkTopology.parentOf, hnone] at hc
      cases hc
    refine ⟨hclear, fun p hp => ?_, fun p => ?_, fun p => ?_, fun p hp => absurd hp (hchild p)⟩
    · cases hp
    · exact iff_of_false (hparents p) (hchild p)
    · refine iff_of_false List.not_mem_nil ?_
      rintro ⟨-, htrue⟩
      rw [flagOf, view, hnone] at htrue
      cases htrue
  apply reset_keeps (I := fun t => Tidy t (HasChild t)) (C := GraftSpares) _ hempty _ hspares.2
    hreset
  · intro s s' m n g hs hm hgraft hadd
    exact hs.addGraphRoot hm hgraft hadd
  · intro t₁ root hroot
    obtain ⟨host, port, rank, isBackEnd, -, -, -, -, rfl, rfl⟩ := resetRoot_ok hroot
    exact (tidy_root hclear (clear_heap h.links) rfl hparents rfl host port rank isBackEnd rfl).1

/-- The calls that change a topology. -/
inductive Operation where
  | newNode (host : Text) (port : Port) (rank : Rank) (isBackEnd : Bool)
  | setParent (ichildRank inewParentRank : Rank)
  | removeNode (irank : Rank)
  | addSubGraph (irank : Rank) (isg : Text)
  | reset (itopologyStr : Text)

def perform (t : NetworkTopology) : Operation → Outcome NetworkTopology
  | .newNode host port rank isBackEnd => return t.newNode host port rank isBackEnd
  | .setParent rc rp => do
      let (t, _) ← t.setParent rc rp
      return t
  | .removeNode r => do
      let (t, _) ← t.removeNode r
      return t
  | .addSubGraph r isg => do
      let (t, _) ← t.addSubGraph r isg
      return t
  | .reset isg => t.reset isg

/-- The states that calls lead to which meet a condition. -/
inductive Led (C : NetworkTopology → Operation → Prop) (start : NetworkTopology) :
    NetworkTopology → Prop
  | start : Led C start start
  | step {t t' : NetworkTopology} {op : Operation} (hled : Led C start t) (hmeets : C t op)
      (hstep : perform t op = .ok t') : Led C start t'

/-- No set is out of date after the call. -/
def KeepsSets (t : NetworkTopology) : Operation → Prop
  | .newNode _ _ rank _ => t.findNode rank = none
  | .setParent rc rp => MoveSpares t rc rp
  | .removeNode r => RemovalSpares t r
  | .addSubGraph r isg => ∀ node, t.findNode r = some node → GraphSpares t node isg
  | .reset isg => ResetSpares t isg

lemma Tidy.perform (h : Tidy t (HasChild t)) {op : Operation} (hkeeps : KeepsSets t op)
    (hstep : perform t op = .ok t') : Tidy t' (HasChild t') := by
  cases op with
  | newNode host port rank isBackEnd =>
      cases hstep
      exact h.newNode host port isBackEnd hkeeps
  | setParent rc rp =>
      obtain ⟨⟨t₁, res⟩, hset, hres⟩ := bind_ok_iff.mp hstep
      cases hres
      exact h.setParent hkeeps hset
  | removeNode r =>
      obtain ⟨⟨t₁, found⟩, hremove, hres⟩ := bind_ok_iff.mp hstep
      cases hres
      exact h.removeNode hkeeps hremove
  | addSubGraph r isg =>
      obtain ⟨⟨t₁, found⟩, hadd, hres⟩ := bind_ok_iff.mp hstep
      cases hres
      apply addSubGraph_keeps (I := fun t => Tidy t (HasChild t)) _ h.links h hkeeps hadd
      intro s s' m n g hs hm hgraft hroot
      exact hs.addGraphRoot hm hgraft hroot
  | reset isg => exact h.reset hkeeps hstep

/-- What the constructors start with: the one for a serialized graph resets the empty
topology to it. -/
inductive Started : NetworkTopology → Prop
  | empty : Started .empty
  | create (hostName : Text) (port : Port) (rank : Rank) (isBackEnd : Bool) :
      Started (.create hostName port rank isBackEnd)

lemma Started.tidy (h : Started t) : Tidy t (HasChild t) := by
  cases h with
  | empty =>
      have hchild : ∀ p, ¬HasChild NetworkTopology.empty p := by
        rintro p ⟨c, hc⟩
        cases hc
      refine ⟨links_empty, fun p hp => ?_, fun p => ?_, fun p => ?_, fun p hp => absurd hp (hchild p)⟩
      · cases hp
      · exact iff_of_false List.not_mem_nil (hchild p)
      · refine iff_of_false List.not_mem_nil ?_
        rintro ⟨-, htrue⟩
        cases htrue
  | create hostName port rank isBackEnd =>
      exact (tidy_root links_empty rfl rfl (fun _ => List.not_mem_nil) rfl hostName port rank
        isBackEnd rfl).1

/-- In every run whose calls put no set out of date, the sets are those of the nodes with
children and of the back-ends. -/
theorem led_derivedSets {start : NetworkTopology} (hstart : Started start)
    (h : Led KeepsSets start t) : DerivedSets t := by
  have htidy : Tidy t (HasChild t) := by
    induction h with
    | start => exact hstart.tidy
    | step _ hmeets hstep ih => exact ih.perform hmeets hstep
  exact htidy.derivedSets

/-- The text of a back-end without siblings. -/
def leafText : Text := SerialGraph.addLeaf [] ['b'] 2 1

/-- A back-end is attached to the root as a graph. -/
theorem led_derivedSets_leaf :
    ∃ t, Led KeepsSets (.create ['a'] 1 0 false) t ∧
      (t.parentNodes = [0] ∧ t.backEndNodes = [1]) ∧ DerivedSets t := by
  obtain ⟨t, hgraph, hsets⟩ : ∃ t,
      (NetworkTopology.create ['a'] 1 0 false).addGraph 0 leafText = .ok t ∧
        (t.parentNodes = [0] ∧ t.backEndNodes = [1]) := by
    rw [addGraph_childless _ _ rfl]
    exact ⟨_, rfl, rfl, rfl⟩
  have hadd : perform (.create ['a'] 1 0 false) (.addSubGraph 0 leafText) = .ok t :=
    bind_ok_iff.mpr ⟨(t, true), bind_ok_iff.mpr ⟨t, hgraph, rfl⟩, rfl⟩
  have hkeeps : KeepsSets (.create ['a'] 1 0 false) (.addSubGraph 0 leafText) := by
    intro node hnode s m g hvisit
    cases hnode
    obtain ⟨rfl, rfl, rfl⟩ := hvisit.childless rfl
    refine ⟨fun htrue => ?_, fun r c hr hc => ?_⟩
    · cases htrue
    · cases hr
      cases hc
  have hled : Led KeepsSets (.create ['a'] 1 0 false) t := .step .start hkeeps hadd
  exact ⟨t, hled, hsets, led_derivedSets (.create ['a'] 1 0 false) hled⟩

/-- The first child of a node is linked to it by `set_Parent`. -/
theorem first_child_unnoted : ∃ t, Reachable t ∧ ¬DerivedSets t := by
  have hfresh : (NetworkTopology.create ['a'] 1 0 false).findNode 1 = none := rfl
  have hnew := (Reachable.create ['a'] 1 0 false).newNode ['b'] 2 true hfresh
  obtain ⟨t, hset, hparents, hlive, hchildren⟩ : ∃ t,
      ((NetworkTopology.create ['a'] 1 0 false).newNode ['b'] 2 1 true).setParent 1 0 =
        .ok (t, .moved) ∧ t.parentNodes = [] ∧ (t.rankOf 0).isSome ∧ t.childrenOf 0 = [1] :=
    ⟨_, rfl, rfl, rfl, rfl⟩
  refine ⟨t, hnew.setParent hset, fun hsets => ?_⟩
  have hmem : 0 ∈ t.parentNodes :=
    (hsets.parents 0).mpr ⟨live_iff_rankOf.mpr hlive, by simp [hchildren]⟩
  rw [hparents] at hmem
  cases hmem

end MRNet.Topology
