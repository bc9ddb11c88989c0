import MRNet.Recovery
import MRNet.ScoreBounds

/-!
# Runs with recoveries

As long as every process knows what is connected below it when it chooses a new parent, the
connections stay a forest. Each process can then go up from connection to connection to the
front-end or to a process that has lost its parent.
-/
namespace MRNet.Recovery
open Codec Relation MRNet.Topology Interleavings
open Forest (Link Rooted Below)
open WaitForAll (Rank)

variable {root : Rank} {s s' : State} {t : NetworkTopology} {top : Ptr}

/-- All nodes of a topology are below its root, which is the front-end. -/
structure Whole (root : Rank) (t : NetworkTopology) (top : Ptr) : Prop where
  tree : Tree t top
  below : ∀ p, t.Live p → Below t.parentOf p top
  rank : t.rankOf top = some root

lemma Whole.eq_root (h : Whole root t top) {rank : Rank} (hrank : t.findNode rank = some top) :
    rank = root :=
  Option.some_inj.mp (((h.tree.links.keyed rank top).mp hrank).symm.trans h.rank)

lemma Whole.found_below (h : Whole root t top) {rank : Rank} {p : Ptr}
    (hrank : t.findNode rank = some p) : Below t.parentOf p top :=
  h.below p (NetworkTopology.live_iff_rankOf.mpr
    (by rw [(h.tree.links.keyed rank p).mp hrank]; rfl))

def Allowed (root : Rank) (s : State) : Action → Prop
  | .fail _ | .shutDown _ => True
  | .recover rank view sorts => sorts.Permute ∧ Informed root s rank view

structure Invariant (root : Rank) (s : State) : Prop where
  rooted : ∀ rank, Rooted s.connection rank
  /-- Connections lead to processes that take part. -/
  parents : ∀ rank p, s.connection rank = some p → s.alive p = true

namespace State

lemma fail_alive_iff {rank rank' : Rank} :
    (s.fail rank).alive rank' = true ↔ rank' ≠ rank ∧ s.alive rank' = true := by
  dsimp only [fail]
  by_cases heq : rank' = rank
  · rw [heq, Function.update_self]
    exact iff_of_false Bool.false_ne_true fun h => h.1 rfl
  · rw [Function.update_of_ne heq]
    exact ⟨fun h => ⟨heq, h⟩, And.right⟩

lemma fail_connection_iff {rank r p : Rank} :
    (s.fail rank).connection r = some p ↔ s.connection r = some p ∧ r ≠ rank ∧ p ≠ rank := by
  dsimp only [fail]
  by_cases heq : r = rank
  · rw [if_pos heq]
    exact iff_of_false (Option.some_ne_none p).symm fun h => h.2.1 heq
  · rw [if_neg heq, Option.filter_eq_some_iff, decide_eq_true_eq]
    exact and_congr_right fun _ => ⟨fun h => ⟨heq, h⟩, And.right⟩

/-- A failure only ends connections. -/
lemma fail_connection_cut (s : State) (rank r : Rank) :
    (s.fail rank).connection r = s.connection r ∨ (s.fail rank).connection r = none := by
  cases hconn : (s.fail rank).connection r with
  | none => exact .inr rfl
  | some p => exact .inl (fail_connection_iff.mp hconn).1.symm

lemma shutDown_connection_cut (s : State) (rank r : Rank) :
    (s.shutDown rank).connection r = s.connection r ∨ (s.shutDown rank).connection r = none := by
  dsimp only [shutDown]
  by_cases heq : r = rank
  · rw [heq, Function.update_self]
    exact .inr rfl
  · rw [Function.update_of_ne heq]
    exact .inl rfl

end State

lemma invariant_step {act : Action} (inv : Invariant root s) (hallowed : Allowed root s act)
    (hstep : step root s act = some s') : Invariant root s' := by
  cases step_of_eq_some hstep with
  | @fail rank hne _ =>
      refine ⟨fun r => (inv.rooted r).cut (s.fail_connection_cut rank), fun r p hp => ?_⟩
      obtain ⟨hconn, -, hne⟩ := State.fail_connection_iff.mp hp
      exact State.fail_alive_iff.mpr ⟨hne, inv.parents r p hconn⟩
  | @shutDown rank _ _ =>
      refine ⟨fun r => (inv.rooted r).cut (s.shutDown_connection_cut rank), fun r p hp => ?_⟩
      rcases s.shutDown_connection_cut rank r with heq | hnone
      · exact inv.parents r p (heq.symm.trans hp)
      · cases hnone.symm.trans hp
  | refused _ _ _ => exact inv
  | disabled _ _ => exact ⟨inv.rooted, inv.parents⟩
  | @adopted rank a view sorts h hnew ha =>
      obtain ⟨hsorts, hinformed⟩ := hallowed
      have hout := newParent_not_below hsorts h.2.1 hinformed hnew
      refine ⟨fun r => (inv.rooted a).move hout (inv.rooted r), fun r p hp => ?_⟩
      dsimp only [State.connectTo] at hp
      by_cases heq : r = rank
      · rw [heq, Function.update_self] at hp
        cases hp
        exact ha
      · rw [Function.update_of_ne heq] at hp
        exact inv.parents r p hp

lemma initial_connection_iff {rank r : Rank} : (State.initial t).connection rank = some r ↔
    ∃ p q, t.findNode rank = some p ∧ t.parentOf p = some q ∧ t.rankOf q = some r := by
  simp only [State.initial, Option.bind_eq_some_iff]
  exact ⟨fun ⟨q, ⟨p, hp, hq⟩, hr⟩ => ⟨p, q, hp, hq, hr⟩, fun ⟨p, q, hp, hq, hr⟩ =>
    ⟨q, ⟨p, hp, hq⟩, hr⟩⟩

lemma exists_initial_connection (htree : Tree t top) {rank : Rank} {p q : Ptr}
    (hrank : t.findNode rank = some p) (hlink : Link t.parentOf p q) :
    ∃ r, t.findNode r = some q ∧ (State.initial t).connection rank = some r := by
  obtain ⟨r, hr⟩ := Option.isSome_iff_exists.mp
    (NetworkTopology.live_iff_rankOf.mp (htree.links.parent_live hlink))
  exact ⟨r, (htree.links.keyed r q).mpr hr, initial_connection_iff.mpr ⟨p, q, hrank, hlink, hr⟩⟩

lemma rooted_initial (htree : Tree t top) (rank : Rank) :
    Rooted (State.initial t).connection rank := by
  cases hfound : t.findNode rank with
  | none =>
      refine .root (Option.eq_none_iff_forall_ne_some.mpr fun r hr => ?_)
      obtain ⟨p, q, hp, -, -⟩ := initial_connection_iff.mp hr
      cases hfound.symm.trans hp
  | some p =>
      have hp := htree.rooted p
      induction hp generalizing rank with
      | @root p hnone =>
          refine .root (Option.eq_none_iff_forall_ne_some.mpr fun r hr => ?_)
          obtain ⟨p', q, hp', hq, -⟩ := initial_connection_iff.mp hr
          cases hfound.symm.trans hp'
          rw [hnone] at hq
          cases hq
      | @link p q hlink _ ih =>
          obtain ⟨r, hr, hconn⟩ := exists_initial_connection htree hfound hlink
          exact .link hconn (ih r hr)

lemma invariant_initial (htree : Tree t top) : Invariant root (State.initial t) where
  rooted := rooted_initial htree
  parents := by
    intro rank r hr
    obtain ⟨p, q, hp, hq, hrank⟩ := initial_connection_iff.mp hr
    have hfound : t.findNode r = some q := (htree.links.keyed r q).mpr hrank
    dsimp only [State.initial]
    rw [hfound]
    rfl

/-- While no process has recovered, the topology at the start tells what is below each of them. -/
lemma informed_of_original (h : Whole root t top)
    (hkept : ∀ x r, s.connection x = some r → (State.initial t).connection x = some r) (rank : Rank) :
    Informed root s rank t where
  tree := ⟨top, h.tree, h.rank⟩
  below := by
    intro x px c hbelow hpx hc
    induction hbelow using ReflTransGen.head_induction_on generalizing px with
    | refl =>
        cases hpx.symm.trans hc
        exact .refl
    | head hlink _ ih =>
        obtain ⟨p, q, hp, hq, hr⟩ := initial_connection_iff.mp (hkept _ _ hlink)
        cases hp.symm.trans hpx
        exact (ih q ((h.tree.links.keyed _ q).mpr hr)).head hq

/-- Going up from a process ends at the front-end or at an orphan. -/
lemma Invariant.exists_top (inv : Invariant root s) {rank : Rank} (halive : s.alive rank = true) :
    ∃ q, Below s.connection rank q ∧ (q = root ∨ s.Orphaned root q) := by
  have hrooted := inv.rooted rank
  induction hrooted with
  | @root rank hnone =>
      refine ⟨rank, .refl, ?_⟩
      by_cases heq : rank = root
      · exact .inl heq
      · exact .inr ⟨halive, heq, hnone⟩
  | @link rank p hlink _ ih =>
      obtain ⟨q, hbelow, hq⟩ := ih (inv.parents rank p hlink)
      exact ⟨q, hbelow.head hlink, hq⟩

/-- The front-end, its two children, and the two children of one of these. -/
lemma exists_grandchildren : ∃ t, Led KeepsScores (.create ['a'] 1 0 false) t ∧ Whole 0 t 0 ∧
    t.findNode 1 = some 1 ∧ (t.findNode 2 = some 2 ∧ t.findNode 3 = some 3) ∧
    (t.parentOf 2 = some 1 ∧ t.parentOf 3 = some 1) ∧
    ∀ p, t.parentOf p = some 1 → p = 2 ∨ p = 3 := by
  have hkids₁ : SerialGraph.getChildren (childlessText 1) = .ok [] := rfl
  have hkids₂ : SerialGraph.getChildren (childlessText 2) = .ok [] := rfl
  have hkids₃ : SerialGraph.getChildren (childlessText 3) = .ok [] := rfl
  have hkids₄ : SerialGraph.getChildren (childlessText 4) = .ok [] := rfl
  obtain ⟨t₁, hadd₁, hfresh₁, t₂, hadd₂, hfresh₂, t₃, hadd₃, hfresh₃, t, hadd₄, hroot,
      ⟨h0, h1, h2, h3, h4⟩, hfound₁, hfound, hrank, hnext⟩ :
      ∃ t₁,
      (NetworkTopology.create ['a'] 1 0 false).addSubGraph 0 (childlessText 1) = .ok (t₁, true) ∧
        t₁.findNode 2 = none ∧ ∃ t₂, t₁.addSubGraph 1 (childlessText 2) = .ok (t₂, true) ∧
        t₂.findNode 3 = none ∧ ∃ t₃, t₂.addSubGraph 1 (childlessText 3) = .ok (t₃, true) ∧
        t₃.findNode 4 = none ∧ ∃ t, t₃.addSubGraph 0 (childlessText 4) = .ok (t, true) ∧
          t.root = some 0 ∧
          (t.parentOf 0 = none ∧ t.parentOf 1 = some 0 ∧ t.parentOf 2 = some 1 ∧
            t.parentOf 3 = some 1 ∧ t.parentOf 4 = some 0) ∧
          t.findNode 1 = some 1 ∧ (t.findNode 2 = some 2 ∧ t.findNode 3 = some 3) ∧
          t.rankOf 0 = some 0 ∧ t.nextPtr = 5 := by
    simp only [NetworkTopology.addSubGraph, addGraph_childless _ _ hkids₁,
      addGraph_childless _ _ hkids₂, addGraph_childless _ _ hkids₃, addGraph_childless _ _ hkids₄]
    exact ⟨_, rfl, rfl, _, rfl, rfl, _, rfl, rfl, _, rfl, rfl, ⟨rfl, rfl, rfl, rfl, rfl⟩, rfl,
      ⟨rfl, rfl⟩, rfl, rfl⟩
  have hled₁ := led_leaf .start hkids₁ rfl rfl hadd₁
  have hled₂ := led_leaf hled₁ hkids₂ rfl hfresh₁ hadd₂
  have hled₃ := led_leaf hled₂ hkids₃ rfl hfresh₂ hadd₃
  have hled := led_leaf hled₃ hkids₄ rfl hfresh₃ hadd₄
  have hcharted := hled.charted (.create ['a'] 1 0 false)
  refine ⟨t, hled, ⟨⟨hcharted.links, hcharted.childSets, hcharted.rooted, hcharted.rootLive 0 hroot,
    h0, hroot⟩, fun p hp => ?_, hrank⟩, hfound₁, hfound, ⟨h2, h3⟩, fun p hp => ?_⟩
  · have hlt : p < 5 := hnext ▸ hcharted.links.fresh p hp
    have hlink₁ : Below t.parentOf 1 0 := ReflTransGen.single h1
    interval_cases p
    · exact .refl
    · exact hlink₁
    · exact hlink₁.head h2
    · exact hlink₁.head h3
    · exact ReflTransGen.single h4
  · have hlt : p < 5 := hnext ▸ hcharted.links.fresh p (NetworkTopology.live_of_parentOf hp)
    interval_cases p
    · cases h0.symm.trans hp
    · cases h1.symm.trans hp
    · exact .inl rfl
    · exact .inr rfl
    · cases h4.symm.trans hp

lemma alive_of_found {r : Rank} {p : Ptr} (h : t.findNode r = some p) :
    (State.initial t).alive r = true := by
  dsimp only [State.initial]
  rw [h]
  rfl

/-- A child of a process that fails looks for another parent. -/
lemma run_child (h : Whole root t top) {failed rank : Rank} {pf p : Ptr}
    (hf : t.findNode failed = some pf) (hr : t.findNode rank = some p)
    (hparent : t.parentOf p = some pf) (hfailed : failed ≠ root) (hrank : rank ≠ root)
    (sorts : Sorts) :
    step root (State.initial t) (.fail failed) = some ((State.initial t).fail failed) ∧
      step root ((State.initial t).fail failed) (.recover rank t sorts) =
        some (recoverFromParentFailure ((State.initial t).fail failed) rank t sorts) := by
  have hinit : (State.initial t).connection rank = some failed :=
    initial_connection_iff.mpr ⟨p, pf, hr, hparent, (h.tree.links.keyed failed pf).mp hf⟩
  have hne : rank ≠ failed := by
    rintro rfl
    exact (rooted_initial h.tree rank).not_circular (TransGen.single hinit)
  have hcut : ((State.initial t).fail failed).connection rank = none := by
    refine Option.eq_none_iff_forall_ne_some.mpr fun r hconn => ?_
    obtain ⟨hconn, -, hother⟩ := State.fail_connection_iff.mp hconn
    exact hother (Option.some_inj.mp (hconn.symm.trans hinit))
  exact ⟨if_pos ⟨hfailed, alive_of_found hf⟩, step_recover
    ⟨State.fail_alive_iff.mpr ⟨hne, alive_of_found hr⟩, hrank, hcut⟩ rfl t sorts⟩

/-- In a run in which the processes know what is connected below them when they recover, there is
no circle of connections. From every process the connections lead up to the front-end, or to one
that has no parent. -/
theorem recovery_keeps_tree (h : Whole root t top) {acts : List Action}
    (hallowed : AllowedAll (step root) (Allowed root) (State.initial t) acts)
    (hrun : runSchedule (step root) (State.initial t) acts = some s) :
    (∀ rank, ¬TransGen (Link s.connection) rank rank) ∧
      ∀ rank, s.alive rank = true →
        ∃ q, Below s.connection rank q ∧ (q = root ∨ s.Orphaned root q) := by
  have inv : Invariant root s := (reaches_of_schedule hallowed hrun).keeps (invariant_initial h.tree)
    fun inv hallowed hstep => invariant_step inv hallowed hstep
  exact ⟨fun rank => (inv.rooted rank).not_circular, fun rank halive => inv.exists_top halive⟩

theorem recovery_keeps_tree_grandchild : ∃ (t : NetworkTopology) (s : State),
    Whole 0 t 0 ∧ t.parentOf 2 = some 1 ∧
    runSchedule (step 0) (State.initial t) [.fail 1, .recover 2 t ⟨id, fun _ _ => id, fun _ _ => id⟩] =
      some s ∧
    ∀ rank, ¬TransGen (Link s.connection) rank rank := by
  obtain ⟨t, -, hwhole, h1, ⟨h2, -⟩, ⟨hparent, -⟩, -⟩ := exists_grandchildren
  obtain ⟨hfail, hrecover⟩ := run_child hwhole h1 h2 hparent (by decide) (by decide)
    ⟨id, fun _ _ => id, fun _ _ => id⟩
  have hrun : runSchedule (step 0) (State.initial t)
      [.fail 1, .recover 2 t ⟨id, fun _ _ => id, fun _ _ => id⟩] = some
        (recoverFromParentFailure ((State.initial t).fail 1) 2 t
          ⟨id, fun _ _ => id, fun _ _ => id⟩) := by
    simp only [runSchedule, List.foldlM_cons, hfail, hrecover, Option.bind_eq_bind,
      Option.bind_some, List.foldlM_nil]
    rfl
  have hinformed := informed_of_original hwhole (s := (State.initial t).fail 1)
    (fun x r hconn => (State.fail_connection_iff.mp hconn).1) 2
  have hallowed : AllowedAll (step 0) (Allowed 0) (State.initial t)
      [.fail 1, .recover 2 t ⟨id, fun _ _ => id, fun _ _ => id⟩] := by
    simp only [AllowedAll, hfail, hrecover]
    exact ⟨trivial, ⟨⟨fun _ => .refl _, fun _ _ _ => .refl _, fun _ _ _ => .refl _⟩, hinformed⟩,
      trivial⟩
  exact ⟨t, _, hwhole, hparent, hrun, (recovery_keeps_tree hwhole hallowed hrun).1⟩

end MRNet.Recovery
