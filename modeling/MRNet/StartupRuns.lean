import MRNet.TreeStartup

/-!
# Reports of a tree that starts

A process whose wait succeeds has heard all children that the topology gives it. A front-end whose
wait succeeds has a whole tree, but for what is below processes whose wait timed out.
-/
namespace MRNet.Startup
open Forest Interleavings

variable {N : Type}

lemma Topology.launches_backEnd (l : Topology N) {n : N} (hback : l.isBackEnd n = true) :
    l.launches n = [] := by
  apply List.eq_nil_iff_forall_not_mem.mpr
  intro c hc
  exact l.backEnd_leaf n c hback (l.launches_child n c hc)

/-- How far a process is with its launches: the children that it has counted and those that it
has created. -/
inductive Progress (launches : List N) : Phase N → List N → List N → Prop
  | before {phase : Phase N} (h : phase.hasLaunchPkt = false) : Progress launches phase [] []
  | launching {done todo : List N} (h : done ++ todo = launches) :
      Progress launches (.launching todo) done done
  | creating {done todo : List N} {c : N} (h : done ++ c :: todo = launches) :
      Progress launches (.creating c todo) (done ++ [c]) done
  | complete {phase : Phase N} (h : phase.isLaunched = true) : Progress launches phase launches launches
  | failed {phase : Phase N} {done todo : List N} {c : N} (h : phase.isLaunched = true)
      (hlaunches : done ++ c :: todo = launches) : Progress launches phase (done ++ [c]) done

namespace Progress
variable {launches counted created : List N} {phase phase' : Phase N}

/-- A process that is done with its launches only waits and reports. -/
lemma of_isLaunched (h : Progress launches phase counted created) (hphase : phase.isLaunched = true)
    (hphase' : phase'.isLaunched = true) : Progress launches phase' counted created := by
  cases h with
  | before h => cases phase <;> cases h <;> cases hphase
  | launching _ => cases hphase
  | creating _ => cases hphase
  | complete _ => exact .complete hphase'
  | failed _ hlaunches => exact .failed hphase' hlaunches

lemma of_not_hasLaunchPkt (h : Progress launches phase counted created)
    (hphase : phase.hasLaunchPkt = false) : counted = [] ∧ created = [] := by
  cases h with
  | before _ => exact ⟨rfl, rfl⟩
  | launching _ => cases hphase
  | creating _ => cases hphase
  | complete h => cases phase <;> cases h <;> cases hphase
  | failed h _ => cases phase <;> cases h <;> cases hphase

lemma counted_eq_nil (h : Progress launches phase counted created) (hnone : launches = []) :
    counted = [] := by
  subst hnone
  cases h with
  | before _ => rfl
  | launching h => exact (List.append_eq_nil_iff.mp h).1
  | creating h => cases (List.append_eq_nil_iff.mp h).2
  | complete _ => rfl
  | failed _ h => cases (List.append_eq_nil_iff.mp h).2

lemma length_le (h : Progress launches phase counted created) : created.length ≤ counted.length := by
  cases h with
  | before _ => exact le_refl _
  | launching _ => exact le_refl _
  | creating _ => exact (List.sublist_append_left _ _).length_le
  | complete _ => exact le_refl _
  | failed _ _ => exact (List.sublist_append_left _ _).length_le

/-- When the launches are over and all that are counted were created, then none failed. -/
lemma created_eq (h : Progress launches phase counted created) (hphase : phase.isLaunched = true)
    (hlength : counted.length ≤ created.length) : created = launches := by
  cases h with
  | before h => cases phase <;> cases h <;> cases hphase
  | launching _ => cases hphase
  | creating _ => cases hphase
  | complete _ => rfl
  | failed _ _ =>
      rw [List.length_append, List.length_singleton] at hlength
      omega

end Progress

lemma Progress.signal {launches counted created : List N} {phase : Phase N}
    (h : Progress launches phase counted created) : Progress launches phase.signal counted created := by
  cases phase with
  | sleeping signalled => exact h.of_isLaunched rfl rfl
  | _ => exact h

/-- A signal changes nothing but the sleep. -/
lemma phase_procSubTreeInitDoneReport {α : Type} {f : Phase N → α}
    (hf : ∀ phase : Phase N, f phase.signal = f phase) (x : NodeState N) :
    f (procSubTreeInitDoneReport x).phase = f x.phase := by
  rw [procSubTreeInitDoneReport]
  split_ifs
  · rfl
  · exact hf _
  · rfl

lemma isAbsent_procSubTreeInitDoneReport (x : NodeState N) :
    (procSubTreeInitDoneReport x).phase.isAbsent = x.phase.isAbsent :=
  phase_procSubTreeInitDoneReport (fun phase => by cases phase <;> rfl) x

lemma isHeard_procSubTreeInitDoneReport (x : NodeState N) :
    (procSubTreeInitDoneReport x).phase.isHeard = x.phase.isHeard :=
  phase_procSubTreeInitDoneReport (fun phase => by cases phase <;> rfl) x

lemma isLaunched_procSubTreeInitDoneReport (x : NodeState N) :
    (procSubTreeInitDoneReport x).phase.isLaunched = x.phase.isLaunched :=
  phase_procSubTreeInitDoneReport (fun phase => by cases phase <;> rfl) x

lemma success_procSubTreeInitDoneReport (x : NodeState N) :
    (procSubTreeInitDoneReport x).phase.success? = x.phase.success? :=
  phase_procSubTreeInitDoneReport (fun phase => by cases phase <;> rfl) x

lemma progress_procSubTreeInitDoneReport {launches counted created : List N} {x : NodeState N}
    (h : Progress launches x.phase counted created) :
    Progress launches (procSubTreeInitDoneReport x).phase counted created := by
  rw [procSubTreeInitDoneReport]
  split_ifs
  · exact h
  · exact h.signal
  · exact h

/-- The last report that is expected comes with a signal. -/
lemma sleeping_procSubTreeInitDoneReport {x : NodeState N} {signalled : Bool}
    (h : ∀ signalled, x.phase = .sleeping signalled →
      (signalled = true ↔ x.numChildren ≤ x.numChildrenReportedInit))
    (hphase : (procSubTreeInitDoneReport x).phase = .sleeping signalled) :
    signalled = true ↔ (procSubTreeInitDoneReport x).numChildren ≤
      (procSubTreeInitDoneReport x).numChildrenReportedInit := by
  rw [procSubTreeInitDoneReport] at hphase ⊢
  by_cases heq : x.numChildrenReportedInit = x.numChildren
  · rw [if_pos heq] at hphase ⊢
    rw [h signalled hphase]
    exact Nat.succ_le_succ_iff.symm
  · rw [if_neg heq] at hphase ⊢
    by_cases hlast : x.numChildrenReportedInit + 1 = x.numChildren
    · have hsignal : x.phase.signal = .sleeping signalled := (if_pos hlast).symm.trans hphase
      refine iff_of_true ?_ hlast.ge
      cases hx : x.phase <;> rw [hx] at hsignal <;> cases hsignal
      rfl
    · rw [h signalled ((if_neg hlast).symm.trans hphase)]
      show _ ↔ x.numChildren ≤ x.numChildrenReportedInit + 1
      omega

variable [DecidableEq N]

/-- A set has one more element with a property. -/
lemma card_filter_add_one {S : Finset N} {P P' : N → Prop} [DecidablePred P] [DecidablePred P']
    {c : N} (hc : c ∈ S) (hP : ¬ P c) (hP' : P' c) (hother : ∀ d ∈ S, d ≠ c → (P' d ↔ P d)) :
    (S.filter P').card = (S.filter P).card + 1 := by
  have hinsert : S.filter P' = insert c (S.filter P) := by
    ext d
    rw [Finset.mem_filter, Finset.mem_insert, Finset.mem_filter]
    by_cases hd : d = c
    · subst hd
      exact iff_of_true ⟨hc, hP'⟩ (.inl rfl)
    · rw [or_iff_right hd]
      exact and_congr_right fun hmem => hother d hmem hd
  rw [hinsert, Finset.card_insert_of_notMem]
  exact fun h => hP (Finset.mem_filter.mp h).2

variable {l : Topology N} {s s' : State N} {n c p : N}

lemma update_phase (P : Phase N → Bool) (s : State N) (x : NodeState N) (m : N)
    (hP : P x.phase = P (s n).phase) : P (Function.update s n x m).phase = P (s m).phase := by
  by_cases hm : m = n
  · rw [hm, Function.update_self, hP]
  · rw [Function.update_of_ne hm]

/-- The children that were launched and were heard. -/
def heardLaunched (l : Topology N) (n : N) (s : State N) : Finset N :=
  (l.launches n).toFinset.filter fun c => (s c).phase.isHeard

lemma heardLaunched_card {x : NodeState N}
    (hbefore : (s c).phase.isHeard = false) (hafter : x.phase.isHeard = true) :
    (heardLaunched l p (Function.update s c x)).card =
      (heardLaunched l p s).card + if c ∈ l.launches p then 1 else 0 := by
  by_cases hmem : c ∈ l.launches p
  · rw [if_pos hmem]
    refine card_filter_add_one (List.mem_toFinset.mpr hmem) (by rw [hbefore]; exact Bool.false_ne_true)
      (by rw [Function.update_self, hafter]) fun d _ hd => ?_
    rw [Function.update_of_ne hd]
  · rw [if_neg hmem, Nat.add_zero]
    congr 1
    apply Finset.filter_congr
    intro d hd
    rw [Function.update_of_ne]
    rintro rfl
    exact hmem (List.mem_toFinset.mp hd)

variable [Fintype N]

/-- The children that attached and were heard. -/
def heardAttached (l : Topology N) (n : N) (s : State N) : Finset N :=
  (l.tree.children n \ (l.launches n).toFinset).filter fun c => (s c).phase.isHeard

/-- What holds of a process and its children. -/
structure NodeInv (l : Topology N) (n : N) (x : NodeState N) (s : State N) (counted created : List N) :
    Prop where
  progress : Progress (l.launches n) x.phase counted created
  created_iff : ∀ c ∈ l.launches n, c ∈ created ↔ (s c).phase.isAbsent = false
  numChildren : x.numChildren = counted.length + (heardAttached l n s).card
  reported : x.numChildrenReportedInit = (heardLaunched l n s).card + (heardAttached l n s).card
  absent : x.phase.isAbsent = true → ∀ c, l.tree.parent c = some n → (s c).phase.isAbsent = true
  sleeping : ∀ signalled, x.phase = .sleeping signalled →
    (signalled = true ↔ x.numChildren ≤ x.numChildrenReportedInit)
  success : x.phase.success? = some true → ∀ c ∈ l.launches n, (s c).phase.isHeard = true

def Invariant (l : Topology N) (s : State N) : Prop :=
  ∀ n, ∃ counted created, NodeInv l n (s n) s counted created

namespace NodeInv
variable {x x' : NodeState N} {counted created : List N}

lemma heardLaunched_subset (h : NodeInv l n x s counted created) :
    heardLaunched l n s ⊆ created.toFinset := by
  intro c hc
  obtain ⟨hmem, hheard⟩ := Finset.mem_filter.mp hc
  rw [List.mem_toFinset, h.created_iff c (List.mem_toFinset.mp hmem)]
  cases hphase : (s c).phase with
  | absent =>
      rw [hphase] at hheard
      cases hheard
  | _ => rfl

lemma heardLaunched_card_le (h : NodeInv l n x s counted created) :
    (heardLaunched l n s).card ≤ created.length :=
  (Finset.card_le_card h.heardLaunched_subset).trans (List.toFinset_card_le _)

/-- All that were counted have reported. -/
lemma all_heard (h : NodeInv l n x s counted created) (hphase : x.phase.isLaunched = true)
    (hle : x.numChildren ≤ x.numChildrenReportedInit) :
    ∀ c ∈ l.launches n, (s c).phase.isHeard = true := by
  have hcard := h.heardLaunched_card_le
  have hlength := h.progress.length_le
  rw [h.reported, h.numChildren] at hle
  have hcreated : created = l.launches n := h.progress.created_eq hphase (by omega)
  have hsame : (l.launches n).length = created.length := by rw [hcreated]
  have hmany : (l.launches n).toFinset.card ≤ (heardLaunched l n s).card := by
    rw [List.toFinset_card_of_nodup (l.launches_nodup n), hsame]
    omega
  have hall : heardLaunched l n s = (l.launches n).toFinset :=
    Finset.eq_of_subset_of_card_le (Finset.filter_subset _ _) hmany
  intro c hc
  rw [← List.mem_toFinset, ← hall] at hc
  exact (Finset.mem_filter.mp hc).2

/-- Nothing happens to the children that their parent keeps account of. -/
lemma congr (h : NodeInv l n x s counted created)
    (habsent : ∀ c, l.tree.parent c = some n → (s' c).phase.isAbsent = (s c).phase.isAbsent)
    (hheard : ∀ c, l.tree.parent c = some n → (s' c).phase.isHeard = (s c).phase.isHeard) :
    NodeInv l n x s' counted created := by
  have hlaunched : heardLaunched l n s' = heardLaunched l n s := by
    apply Finset.filter_congr
    intro c hc
    rw [hheard c (l.launches_child n c (List.mem_toFinset.mp hc))]
  have hattached : heardAttached l n s' = heardAttached l n s := by
    apply Finset.filter_congr
    intro c hc
    rw [hheard c (ParentTree.mem_children.mp (Finset.mem_sdiff.mp hc).1)]
  refine ⟨h.progress, fun c hc => ?_, ?_, ?_, fun hx c hc => ?_, h.sleeping, fun hx c hc => ?_⟩
  · rw [habsent c (l.launches_child n c hc)]
    exact h.created_iff c hc
  · rw [hattached]
    exact h.numChildren
  · rw [hlaunched, hattached]
    exact h.reported
  · rw [habsent c hc]
    exact h.absent hx c hc
  · rw [hheard c (l.launches_child n c hc)]
    exact h.success hx c hc

/-- The process goes on. -/
lemma setPhase (h : NodeInv l n x s counted created) {phase : Phase N}
    (hprogress : Progress (l.launches n) phase counted created)
    (habsent : phase.isAbsent = x.phase.isAbsent)
    (hsleeping : ∀ signalled, phase = .sleeping signalled →
      (signalled = true ↔ x.numChildren ≤ x.numChildrenReportedInit))
    (hsuccess : phase.success? = some true → ∀ c ∈ l.launches n, (s c).phase.isHeard = true) :
    NodeInv l n { x with phase := phase } s counted created where
  progress := hprogress
  created_iff := h.created_iff
  numChildren := h.numChildren
  reported := h.reported
  absent := fun hx => h.absent (habsent ▸ hx)
  sleeping := hsleeping
  success := hsuccess

end NodeInv

namespace Invariant

/-- A step of one process that its parent does not see. -/
lemma update (h : Invariant l s) {x : NodeState N}
    (habsent : x.phase.isAbsent = (s n).phase.isAbsent)
    (hheard : x.phase.isHeard = (s n).phase.isHeard)
    (hown : ∃ counted created, NodeInv l n x s counted created) :
    Invariant l (Function.update s n x) := by
  intro m
  have hnode : ∃ counted created, NodeInv l m (Function.update s n x m) s counted created := by
    by_cases hm : m = n
    · subst hm
      rw [Function.update_self]
      exact hown
    · rw [Function.update_of_ne hm]
      exact h m
  obtain ⟨counted, created, hnode⟩ := hnode
  exact ⟨counted, created, hnode.congr (fun c _ => update_phase Phase.isAbsent s x c habsent)
    fun c _ => update_phase Phase.isHeard s x c hheard⟩

/-- A step of a child and its parent. -/
lemma update_child (h : Invariant l s) (hc : l.tree.parent c = some p) {x y : NodeState N}
    (hown : ∃ counted created, NodeInv l c x s counted created)
    (habsent : y.phase.isAbsent = (s p).phase.isAbsent)
    (hheard : y.phase.isHeard = (s p).phase.isHeard)
    (hparent : ∃ counted created, NodeInv l p y (Function.update s c x) counted created) :
    Invariant l (Function.update (Function.update s c x) p y) := by
  have hne : p ≠ c := ParentTree.parent_ne_self hc
  have hsame : Function.update s c x p = s p := Function.update_of_ne hne ..
  intro m
  by_cases hm : m = p
  · subst hm
    obtain ⟨counted, created, hnode⟩ := hparent
    rw [Function.update_self]
    exact ⟨counted, created, hnode.congr
      (fun d _ => update_phase Phase.isAbsent _ y d (hsame ▸ habsent))
      fun d _ => update_phase Phase.isHeard _ y d (hsame ▸ hheard)⟩
  · have hnode : ∃ counted created, NodeInv l m
        (Function.update (Function.update s c x) p y m) s counted created := by
      rw [Function.update_of_ne hm]
      by_cases hmc : m = c
      · subst hmc
        rw [Function.update_self]
        exact hown
      · rw [Function.update_of_ne hmc]
        exact h m
    obtain ⟨counted, created, hnode⟩ := hnode
    have hother : ∀ d, l.tree.parent d = some m → Function.update s c x d = s d := by
      intro d hd
      refine Function.update_of_ne ?_ ..
      rintro rfl
      exact hm (Option.some.inj (hd.symm.trans hc))
    refine ⟨counted, created, hnode.congr (fun d hd => ?_) fun d hd => ?_⟩
    · rw [update_phase Phase.isAbsent _ y d (hsame ▸ habsent), hother d hd]
    · rw [update_phase Phase.isHeard _ y d (hsame ▸ hheard), hother d hd]

lemma setPhase (h : Invariant l s) {phase : Phase N}
    (habsent : phase.isAbsent = (s n).phase.isAbsent)
    (hheard : phase.isHeard = (s n).phase.isHeard)
    (hown : ∀ counted created, NodeInv l n (s n) s counted created →
      ∃ counted created, NodeInv l n { s n with phase := phase } s counted created) :
    Invariant l (s.setPhase n phase) := by
  obtain ⟨counted, created, hnode⟩ := h n
  exact h.update habsent hheard (hown counted created hnode)

end Invariant

/-- A process that has no launch packet yet goes on without one. -/
lemma Invariant.setPhase_before (h : Invariant l s) (hbefore : (s n).phase.hasLaunchPkt = false)
    (hlive : (s n).phase.isAbsent = false) {phase : Phase N}
    (hbefore' : phase.hasLaunchPkt = false) (hlive' : phase.isAbsent = false) :
    Invariant l (s.setPhase n phase) := by
  have hquiet : ∀ {phase : Phase N}, phase.hasLaunchPkt = false → phase.isHeard = false ∧
      phase.success? ≠ some true ∧ ∀ signalled, phase ≠ .sleeping signalled := by
    intro phase hphase
    cases phase <;> cases hphase <;> simp [Phase.isHeard, Phase.success?]
  obtain ⟨hheard, hsuccess, hsleeping⟩ := hquiet hbefore'
  refine h.setPhase (by rw [hlive, hlive']) (by rw [hheard, (hquiet hbefore).1])
    fun counted created hnode => ⟨counted, created, hnode.setPhase ?_ (by rw [hlive, hlive'])
      (fun signalled hb => absurd hb (hsleeping signalled)) fun hb => absurd hb hsuccess⟩
  obtain ⟨rfl, rfl⟩ := hnode.progress.of_not_hasLaunchPkt hbefore
  exact .before hbefore'

lemma start_invariant (h : Invariant l s) (hphase : (s n).phase = .created) :
    Invariant l (s.setPhase n (if l.isBackEnd n then .reported true else .requested)) := by
  by_cases hback : l.isBackEnd n = true
  · rw [if_pos hback]
    have hnone := l.launches_backEnd hback
    refine h.setPhase (by rw [hphase]; rfl) (by rw [hphase]; rfl) fun counted created hnode =>
      ⟨counted, created, hnode.setPhase ?_ (by rw [hphase]; rfl) (fun b hb => by cases hb)
        fun _ c hc => ?_⟩
    · obtain ⟨rfl, rfl⟩ := hnode.progress.of_not_hasLaunchPkt (by rw [hphase]; rfl)
      rw [hnone]
      exact .complete rfl
    · rw [hnone] at hc
      cases hc
  · rw [if_neg hback]
    exact h.setPhase_before (by rw [hphase]; rfl) (by rw [hphase]; rfl) rfl rfl

lemma procLaunchSubTree_invariant (h : Invariant l s) (hphase : (s n).phase = .answered) :
    Invariant l (s.setPhase n (.launching (l.launches n))) := by
  refine h.setPhase (by rw [hphase]; rfl) (by rw [hphase]; rfl) fun counted created hnode =>
    ⟨counted, created, hnode.setPhase ?_ (by rw [hphase]; rfl) (fun b hb => by cases hb)
      fun hb => by cases hb⟩
  obtain ⟨rfl, rfl⟩ := hnode.progress.of_not_hasLaunchPkt (by rw [hphase]; rfl)
  exact .launching (List.nil_append _)

/-- A step of a process that its parent does not see, and that leaves its counters alone. -/
lemma Invariant.setPhase_launched (h : Invariant l s) {phase : Phase N}
    (hlaunched : (s n).phase.isLaunched = true) (hquiet : (s n).phase.isHeard = false)
    (hlaunched' : phase.isLaunched = true) (hquiet' : phase.isHeard = false)
    (hsleeping : ∀ signalled, phase = .sleeping signalled →
      (signalled = true ↔ (s n).numChildren ≤ (s n).numChildrenReportedInit))
    (hsuccess : phase.success? = some true → (s n).phase.success? = some true ∨
      (s n).numChildren ≤ (s n).numChildrenReportedInit) : Invariant l (s.setPhase n phase) := by
  have hlive : ∀ {phase : Phase N}, phase.isLaunched = true → phase.isAbsent = false := by
    intro phase hphase
    cases phase <;> cases hphase <;> rfl
  have habsent : phase.isAbsent = (s n).phase.isAbsent := by rw [hlive hlaunched, hlive hlaunched']
  refine h.setPhase habsent (by rw [hquiet, hquiet']) fun counted created hnode =>
    ⟨counted, created, hnode.setPhase (hnode.progress.of_isLaunched hlaunched hlaunched') habsent
      hsleeping fun hphase => ?_⟩
  rcases hsuccess hphase with hbefore | hle
  · exact hnode.success hbefore
  · exact hnode.all_heard hlaunched hle

lemma count_invariant (h : Invariant l s) {todo : List N}
    (hphase : (s n).phase = .launching (c :: todo)) : Invariant l (Function.update s n
      { s n with phase := .creating c todo, numChildren := (s n).numChildren + 1 }) := by
  obtain ⟨counted, created, hnode⟩ := h n
  refine h.update (by rw [hphase]; rfl) (by rw [hphase]; rfl) ⟨counted ++ [c], created, ?_⟩
  have hprogress := hnode.progress
  rw [hphase] at hprogress
  cases hprogress with
  | before h => cases h
  | complete h => cases h
  | failed h _ => cases h
  | launching hlaunches =>
      refine ⟨.creating hlaunches, hnode.created_iff, ?_, hnode.reported, (fun hx => by cases hx),
        (fun b hb => by cases hb), (fun hx => by cases hx)⟩
      show (s n).numChildren + 1 = _
      rw [List.length_append, List.length_singleton, hnode.numChildren, Nat.add_right_comm]

/-- The process is there now. -/
lemma NodeInv.created {x : NodeState N} {counted created : List N}
    (h : NodeInv l n x s counted created) (hphase : x.phase = .absent) :
    NodeInv l n { x with phase := .created } s counted created := by
  obtain ⟨rfl, rfl⟩ := h.progress.of_not_hasLaunchPkt (by rw [hphase]; rfl)
  exact ⟨.before rfl, h.created_iff, h.numChildren, h.reported, (fun hx => by cases hx),
    (fun b hb => by cases hb), (fun hx => by cases hx)⟩

/-- A child that comes is not heard yet. -/
lemma NodeInv.child_created {x : NodeState N} {counted created created' : List N}
    (h : NodeInv l p x s counted created) (hphase : (s c).phase = .absent) {phase : Phase N}
    (hlive : phase.isAbsent = false)
    (hsleeping : ∀ signalled, phase = .sleeping signalled → x.phase = .sleeping signalled)
    (hsuccess : phase.success? = some true → x.phase.success? = some true)
    (hprogress : Progress (l.launches p) phase counted created')
    (hcreated : ∀ d ∈ l.launches p, d ∈ created' ↔ d = c ∨ d ∈ created) :
    NodeInv l p { x with phase := phase } (Function.update s c { s c with phase := .created })
      counted created' := by
  have hheard : ∀ d, (Function.update s c { s c with phase := .created } d).phase.isHeard =
      (s d).phase.isHeard :=
    fun d => update_phase Phase.isHeard s _ d (by rw [hphase]; rfl)
  have hlaunched : heardLaunched l p (Function.update s c { s c with phase := .created }) =
      heardLaunched l p s := by simp only [heardLaunched, hheard]
  have hattached : heardAttached l p (Function.update s c { s c with phase := .created }) =
      heardAttached l p s := by simp only [heardAttached, hheard]
  refine ⟨hprogress, fun d hd => ?_, ?_, ?_, fun hx => ?_,
    fun signalled hb => h.sleeping signalled (hsleeping signalled hb), fun hx d hd => ?_⟩
  · rw [hcreated d hd]
    by_cases hdc : d = c
    · subst hdc
      rw [Function.update_self]
      exact iff_of_true (.inl rfl) rfl
    · rw [Function.update_of_ne hdc, or_iff_right hdc]
      exact h.created_iff d hd
  · rw [hattached]
    exact h.numChildren
  · rw [hlaunched, hattached]
    exact h.reported
  · rw [hlive] at hx
    cases hx
  · rw [hheard]
    exact h.success (hsuccess hx) d hd

/-- The child that is created next. -/
lemma NodeInv.creating {x : NodeState N} {counted created todo : List N}
    (h : NodeInv l n x s counted created) (hphase : x.phase = .creating c todo) :
    created ++ c :: todo = l.launches n ∧ counted = created ++ [c] ∧ l.tree.parent c = some n ∧
      (s c).phase = .absent := by
  have hprogress := h.progress
  rw [hphase] at hprogress
  cases hprogress with
  | before hbefore => cases hbefore
  | complete hlaunched => cases hlaunched
  | failed hlaunched _ => cases hlaunched
  | creating hlaunches =>
      have hmem : c ∈ l.launches n := hlaunches ▸ List.mem_append_right _ List.mem_cons_self
      have hnew : c ∉ created := by
        have hnodup := l.launches_nodup n
        rw [← hlaunches] at hnodup
        exact fun hold => List.disjoint_of_nodup_append hnodup hold List.mem_cons_self
      refine ⟨hlaunches, rfl, l.launches_child n c hmem, ?_⟩
      have hnot := (h.created_iff c hmem).not.mp hnew
      cases hcphase : (s c).phase with
      | absent => rfl
      | _ =>
          rw [hcphase] at hnot
          exact absurd rfl hnot

lemma create_invariant (h : Invariant l s) {todo : List N}
    (hphase : (s n).phase = .creating c todo) :
    Invariant l ((s.setPhase n (.launching todo)).setPhase c .created) := by
  obtain ⟨counted, created, hnode⟩ := h n
  obtain ⟨hlaunches, rfl, hc, habsent⟩ := hnode.creating hphase
  have hne : n ≠ c := ParentTree.parent_ne_self hc
  have hstate : (s.setPhase n (.launching todo)).setPhase c .created =
      Function.update (Function.update s c { s c with phase := .created }) n
        { s n with phase := .launching todo } := by
    rw [State.setPhase, State.setPhase, Function.update_of_ne hne.symm, Function.update_comm hne]
  rw [hstate]
  refine h.update_child hc ?_ (by rw [hphase]; rfl) (by rw [hphase]; rfl) ?_
  · obtain ⟨counted', created', hchild⟩ := h c
    exact ⟨counted', created', hchild.created habsent⟩
  · refine ⟨created ++ [c], created ++ [c], hnode.child_created habsent rfl
      (fun b hb => by cases hb) (fun hx => by cases hx) (.launching ?_) fun d _ => ?_⟩
    · rw [List.append_assoc, List.singleton_append, hlaunches]
    · rw [List.mem_append, List.mem_singleton, or_comm]

lemma createFails_invariant (h : Invariant l s) {todo : List N}
    (hphase : (s n).phase = .creating c todo) {phase : Phase N} (hlaunched : phase.isLaunched = true)
    (hquiet : phase.isHeard = false) (hsuccess : phase.success? ≠ some true)
    (hsleeping : ∀ signalled, phase ≠ .sleeping signalled) :
    Invariant l (s.setPhase n phase) := by
  have habsent : phase.isAbsent = (s n).phase.isAbsent := by
    rw [hphase]
    cases phase <;> cases hlaunched <;> rfl
  refine h.setPhase habsent (by rw [hphase, hquiet]; rfl) fun counted created hnode =>
    ⟨counted, created, hnode.setPhase ?_ habsent (fun b hb => absurd hb (hsleeping b))
      fun hx => absurd hx hsuccess⟩
  obtain ⟨hlaunches, rfl, -⟩ := hnode.creating hphase
  exact .failed hlaunched hlaunches

lemma launched_invariant (h : Invariant l s) (hphase : (s n).phase = .launching []) :
    Invariant l (s.setPhase n .waiting) := by
  refine h.setPhase (by rw [hphase]; rfl) (by rw [hphase]; rfl) fun counted created hnode =>
    ⟨counted, created, hnode.setPhase ?_ (by rw [hphase]; rfl) (fun b hb => by cases hb)
      fun hx => by cases hx⟩
  have hprogress := hnode.progress
  rw [hphase] at hprogress
  cases hprogress with
  | before h => cases h
  | complete h => cases h
  | failed h _ => cases h
  | launching hlaunches =>
      rw [List.append_nil] at hlaunches
      rw [← hlaunches]
      exact .complete rfl

lemma check_invariant (h : Invariant l s) (hphase : (s n).phase = .waiting) :
    Invariant l (s.setPhase n (if (s n).numChildrenReportedInit < (s n).numChildren
      then .sleeping false else .waited true)) := by
  by_cases hlt : (s n).numChildrenReportedInit < (s n).numChildren
  · rw [if_pos hlt]
    refine h.setPhase_launched (by rw [hphase]; rfl) (by rw [hphase]; rfl) rfl rfl
      (fun signalled hb => ?_) fun hx => by cases hx
    cases hb
    exact iff_of_false Bool.false_ne_true (Nat.not_le.mpr hlt)
  · rw [if_neg hlt]
    exact h.setPhase_launched (by rw [hphase]; rfl) (by rw [hphase]; rfl) rfl rfl
      (fun signalled hb => by cases hb) fun _ => .inr (Nat.not_lt.mp hlt)

lemma attach_invariant (h : Invariant l s) (hphase : (s c).phase = .absent)
    (hc : l.tree.parent c = some p) (hnew : c ∉ l.launches p)
    (hlive : (s p).phase.isAbsent = false) : Invariant l (s.setPhase c .created) := by
  have hne : p ≠ c := ParentTree.parent_ne_self hc
  have hstate : s.setPhase c .created =
      Function.update (Function.update s c { s c with phase := .created }) p (s p) := by
    rw [Function.update_comm hne.symm, Function.update_eq_self]
    rfl
  rw [hstate]
  refine h.update_child hc ?_ rfl rfl ?_
  · obtain ⟨counted, created, hchild⟩ := h c
    exact ⟨counted, created, hchild.created hphase⟩
  · obtain ⟨counted, created, hnode⟩ := h p
    refine ⟨counted, created, hnode.child_created hphase hlive (fun _ hb => hb) (fun hx => hx)
      hnode.progress fun d hd => ?_⟩
    rw [or_iff_right]
    rintro rfl
    exact hnew hd

lemma heardAttached_card (hc : l.tree.parent c = some p) {x : NodeState N}
    (hbefore : (s c).phase.isHeard = false) (hafter : x.phase.isHeard = true) :
    (heardAttached l p (Function.update s c x)).card =
      (heardAttached l p s).card + if c ∈ l.launches p then 0 else 1 := by
  by_cases hmem : c ∈ l.launches p
  · rw [if_pos hmem, Nat.add_zero]
    congr 1
    apply Finset.filter_congr
    intro d hd
    rw [Function.update_of_ne]
    rintro rfl
    exact (Finset.mem_sdiff.mp hd).2 (List.mem_toFinset.mpr hmem)
  · rw [if_neg hmem]
    refine card_filter_add_one (Finset.mem_sdiff.mpr ⟨ParentTree.mem_children.mpr hc, ?_⟩)
      (by rw [hbefore]; exact Bool.false_ne_true) (by rw [Function.update_self, hafter])
      fun d _ hd => ?_
    · rwa [List.mem_toFinset]
    · rw [Function.update_of_ne hd]

/-- A launched child is expected before it reports. -/
lemma NodeInv.reported_lt {x : NodeState N} {counted created : List N}
    (h : NodeInv l p x s counted created) (hmem : c ∈ l.launches p)
    (hlive : (s c).phase.isAbsent = false) (hquiet : (s c).phase.isHeard = false) :
    x.numChildrenReportedInit < x.numChildren := by
  have hnot : c ∉ heardLaunched l p s := by
    intro hc
    have hheard := (Finset.mem_filter.mp hc).2
    rw [hquiet] at hheard
    cases hheard
  have hsub : insert c (heardLaunched l p s) ⊆ created.toFinset := by
    refine Finset.insert_subset ?_ h.heardLaunched_subset
    exact List.mem_toFinset.mpr ((h.created_iff c hmem).mpr hlive)
  have hcard := (Finset.card_le_card hsub).trans (List.toFinset_card_le _)
  rw [Finset.card_insert_of_notMem hnot] at hcard
  have hlength := h.progress.length_le
  rw [h.reported, h.numChildren]
  omega

/-- A process without launches expects exactly those that have reported. -/
lemma NodeInv.reported_eq {x : NodeState N} {counted created : List N}
    (h : NodeInv l p x s counted created) (hnone : l.launches p = []) :
    x.numChildrenReportedInit = x.numChildren := by
  have hcounted := h.progress.counted_eq_nil hnone
  have hheard : heardLaunched l p s = ∅ := by
    rw [heardLaunched, hnone]
    rfl
  rw [h.reported, h.numChildren, hcounted, hheard]
  rfl

/-- The counters of a parent that processes a report. -/
lemma NodeInv.child_heard {counted created : List N} (h : NodeInv l p (s p) s counted created)
    {success : Bool} (hphase : (s c).phase = .reported success) (hc : l.tree.parent c = some p) :
    NodeInv l p (procSubTreeInitDoneReport (s p)) (s.setPhase c (.heard success)) counted created := by
  have hquiet : (s c).phase.isHeard = false := by rw [hphase]; rfl
  have hlive : (s c).phase.isAbsent = false := by rw [hphase]; rfl
  have habsent : ∀ d, (s.setPhase c (.heard success) d).phase.isAbsent = (s d).phase.isAbsent :=
    fun d => update_phase Phase.isAbsent s _ d hlive.symm
  have hheard : ∀ d, (s d).phase.isHeard = true →
      (s.setPhase c (.heard success) d).phase.isHeard = true := by
    intro d hd
    by_cases hdc : d = c
    · subst hdc
      rw [State.setPhase, Function.update_self]
      rfl
    · rwa [State.setPhase, Function.update_of_ne hdc]
  have hlaunched : (heardLaunched l p (s.setPhase c (.heard success))).card = _ :=
    heardLaunched_card hquiet rfl
  have hattached : (heardAttached l p (s.setPhase c (.heard success))).card = _ :=
    heardAttached_card hc hquiet rfl
  refine ⟨progress_procSubTreeInitDoneReport h.progress, fun d hd => ?_, ?_, ?_, fun hx d hd => ?_,
    fun signalled hb => sleeping_procSubTreeInitDoneReport h.sleeping hb, fun hx d hd => ?_⟩
  · rw [habsent]
    exact h.created_iff d hd
  · rw [hattached]
    by_cases hmem : c ∈ l.launches p
    · have hlt := h.reported_lt hmem hlive hquiet
      rw [procSubTreeInitDoneReport, if_neg hlt.ne, if_pos hmem]
      exact h.numChildren
    · have heq := h.reported_eq (l.attached p c hc hmem).2
      rw [procSubTreeInitDoneReport, if_pos heq, if_neg hmem]
      exact congrArg (· + 1) h.numChildren
  · rw [hattached, hlaunched]
    have hrep : (procSubTreeInitDoneReport (s p)).numChildrenReportedInit =
        (s p).numChildrenReportedInit + 1 := by
      rw [procSubTreeInitDoneReport]
      split_ifs <;> rfl
    rw [hrep, h.reported]
    split_ifs <;> omega
  · rw [habsent]
    exact h.absent ((isAbsent_procSubTreeInitDoneReport _).symm.trans hx) d hd
  · exact hheard d (h.success ((success_procSubTreeInitDoneReport _).symm.trans hx) d hd)

lemma procReport_invariant (h : Invariant l s) {success : Bool}
    (hphase : (s c).phase = .reported success) (hc : l.tree.parent c = some p) :
    Invariant l (Function.update (s.setPhase c (.heard success)) p
      (procSubTreeInitDoneReport (s p))) := by
  refine h.update_child hc ?_ (isAbsent_procSubTreeInitDoneReport _)
    (isHeard_procSubTreeInitDoneReport _) ?_
  · obtain ⟨counted, created, hnode⟩ := h c
    have hprogress := hnode.progress
    rw [hphase] at hprogress
    refine ⟨counted, created, hnode.setPhase (hprogress.of_isLaunched rfl rfl)
      (by rw [hphase]; rfl) (fun b hb => by cases hb) fun hx => hnode.success ?_⟩
    rw [hphase]
    exact hx
  · obtain ⟨counted, created, hnode⟩ := h p
    exact ⟨counted, created, hnode.child_heard hphase hc⟩

theorem Step.invariant {act : Action N} (hstep : Step l s act s') (h : Invariant l s) :
    Invariant l s' := by
  cases hstep with
  | start hphase => exact start_invariant h hphase
  | sendLaunchInfo hphase _ _ =>
      exact h.setPhase_before (by rw [hphase]; rfl) (by rw [hphase]; rfl) rfl rfl
  | procLaunchSubTree hphase => exact procLaunchSubTree_invariant h hphase
  | count hphase => exact count_invariant h hphase
  | create hphase => exact create_invariant h hphase
  | @createFails n c todo hphase =>
      by_cases hn : n = l.tree.root
      · rw [if_pos hn]
        exact createFails_invariant h hphase rfl rfl (fun hx => by cases hx) fun _ hb => by cases hb
      · rw [if_neg hn]
        exact createFails_invariant h hphase rfl rfl (fun hx => by cases hx) fun _ hb => by cases hb
  | launched hphase => exact launched_invariant h hphase
  | check hphase => exact check_invariant h hphase
  | wake hphase =>
      exact h.setPhase_launched (by rw [hphase]; rfl) (by rw [hphase]; rfl) rfl rfl
        (fun _ hb => by cases hb) fun hx => by cases hx
  | timeOut hphase =>
      exact h.setPhase_launched (by rw [hphase]; rfl) (by rw [hphase]; rfl) rfl rfl
        (fun _ hb => by cases hb) fun hx => by cases hx
  | sendReport hphase _ =>
      exact h.setPhase_launched (by rw [hphase]; rfl) (by rw [hphase]; rfl) rfl rfl
        (fun _ hb => by cases hb) fun hx => .inl (by rw [hphase]; exact hx)
  | procReport hphase hp => exact procReport_invariant h hphase hp
  | attach hphase hp hnew hlive => exact attach_invariant h hphase hp hnew hlive

lemma initial_invariant (l : Topology N) : Invariant l (State.initial l) := by
  have hothers : ∀ {c}, c ≠ l.tree.root → State.initial l c = ⟨.absent, 0, 0⟩ := fun h => if_neg h
  have hroot : State.initial l l.tree.root = ⟨.launching (l.launches l.tree.root), 0, 0⟩ := if_pos rfl
  have hheard : ∀ c, (State.initial l c).phase.isHeard = false := by
    intro c
    by_cases hc : c = l.tree.root
    · rw [hc, hroot]
      rfl
    · rw [hothers hc]
      rfl
  intro n
  have hlaunched : heardLaunched l n (State.initial l) = ∅ := by
    apply Finset.filter_eq_empty_iff.mpr
    intro c _
    rw [hheard]
    exact Bool.false_ne_true
  have hattached : heardAttached l n (State.initial l) = ∅ := by
    apply Finset.filter_eq_empty_iff.mpr
    intro c _
    rw [hheard]
    exact Bool.false_ne_true
  have habsent : ∀ c, l.tree.parent c = some n → (State.initial l c).phase.isAbsent = true := by
    intro c hc
    rw [hothers (ParentTree.ne_root_of_parent hc)]
    rfl
  have hcreated : ∀ c ∈ l.launches n, c ∈ ([] : List N) ↔
      (State.initial l c).phase.isAbsent = false := by
    intro c hc
    rw [habsent c (l.launches_child n c hc)]
    exact iff_of_false List.not_mem_nil Bool.true_eq_false.mp
  refine ⟨[], [], ?_⟩
  by_cases hn : n = l.tree.root
  · subst hn
    rw [hroot]
    exact ⟨.launching (List.nil_append _), hcreated, (by rw [hattached]; rfl),
      (by rw [hattached, hlaunched]; rfl), fun _ => habsent, (fun _ hb => by cases hb),
      (fun hx => by cases hx)⟩
  · rw [hothers hn]
    exact ⟨.before rfl, hcreated, (by rw [hattached]; rfl), (by rw [hattached, hlaunched]; rfl),
      fun _ => habsent, (fun _ hb => by cases hb), (fun hx => by cases hx)⟩

lemma invariant_of_run {allowed : State N → Action N → Prop}
    (hrun : Reaches (step l) allowed (State.initial l) s) : Invariant l s :=
  hrun.keeps (initial_invariant l) fun h _ hstep => (step_of_eq_some hstep).invariant h

/-- The children that were heard were launched or attached. -/
lemma heard_card (l : Topology N) (n : N) (s : State N) :
    (heardLaunched l n s).card + (heardAttached l n s).card =
      ((l.tree.children n).filter fun c => (s c).phase.isHeard).card := by
  have hsub : (l.launches n).toFinset ⊆ l.tree.children n := by
    intro c hc
    exact ParentTree.mem_children.mpr (l.launches_child n c (List.mem_toFinset.mp hc))
  have hdisjoint : Disjoint (heardLaunched l n s) (heardAttached l n s) :=
    Finset.disjoint_filter_filter Finset.disjoint_sdiff
  rw [← Finset.card_union_of_disjoint hdisjoint, heardLaunched, heardAttached,
    ← Finset.filter_union, Finset.union_sdiff_of_subset hsub]

/-- When all that were launched have reported, no child is missing. -/
lemma NodeInv.numChildren_eq {x : NodeState N} {counted created : List N}
    (h : NodeInv l n x s counted created) (hphase : x.phase.isLaunched = true)
    (hall : ∀ c ∈ l.launches n, (s c).phase.isHeard = true) :
    x.numChildrenReportedInit = x.numChildren := by
  have hcreated : ∀ c ∈ l.launches n, c ∈ created := by
    intro c hc
    rw [h.created_iff c hc]
    have hheard := hall c hc
    cases hphase : (s c).phase with
    | absent =>
        rw [hphase] at hheard
        cases hheard
    | _ => rfl
  have hcounted : counted = l.launches n := by
    have hprogress := h.progress
    generalize x.phase = phase at hprogress hphase
    cases hprogress with
    | before h => cases phase <;> cases h <;> cases hphase
    | launching _ => cases hphase
    | creating _ => cases hphase
    | complete _ => rfl
    | @failed _ done todo c _ hlaunches =>
        have hnodup := l.launches_nodup n
        have hmem := hcreated c (hlaunches ▸ List.mem_append_right _ List.mem_cons_self)
        rw [← hlaunches] at hnodup
        exact absurd List.mem_cons_self (List.disjoint_of_nodup_append hnodup hmem)
  have hheard : heardLaunched l n s = (l.launches n).toFinset :=
    Finset.filter_true_of_mem fun c hc => hall c (List.mem_toFinset.mp hc)
  rw [h.reported, h.numChildren, hheard, hcounted,
    List.toFinset_card_of_nodup (l.launches_nodup n)]

/-- The processes of the topology. -/
inductive InTopology (l : Topology N) : N → Prop
  | root : InTopology l l.tree.root
  | child {c p : N} (hp : InTopology l p) (hc : c ∈ l.launches p) : InTopology l c

/-- When the wait of the front-end succeeds, every process of the topology has reported to its
parent, unless a process above it gave up. A process whose wait succeeds has heard all that it
launched, and expects as many children as have reported. -/
theorem whole_tree_reported (hrun : Reaches (step l) Any (State.initial l) s) :
    ((s l.tree.root).phase = .waited true → ∀ n, InTopology l n → n ≠ l.tree.root →
      (s n).phase.isHeard = true ∨
        ∃ a, a ≠ l.tree.root ∧ a ≠ n ∧ Below l.tree.parent n a ∧ (s a).phase = .heard false) ∧
    ∀ n, (s n).phase.success? = some true → (∀ c ∈ l.launches n, (s c).phase.isHeard = true) ∧
      (s n).numChildren = ((l.tree.children n).filter fun c => (s c).phase.isHeard).card := by
  have hinv := invariant_of_run hrun
  refine ⟨fun hroot n hn => ?_, fun n hsuccess => ?_⟩
  · induction hn with
    | root => exact fun hne => absurd rfl hne
    | @child c p hp hc ih =>
        intro _
        have hparent := l.launches_child p c hc
        obtain ⟨counted, created, hnode⟩ := hinv p
        by_cases hpr : p = l.tree.root
        · subst hpr
          exact .inl (hnode.success (by rw [hroot]; rfl) c hc)
        · rcases ih hpr with hheard | ⟨a, ha, hap, hbelow, hfalse⟩
          · cases hphase : (s p).phase with
            | heard success =>
                cases success with
                | true => exact .inl (hnode.success (by rw [hphase]; rfl) c hc)
                | false =>
                    exact .inr ⟨p, hpr, ParentTree.parent_ne_self hparent, .single hparent, hphase⟩
            | _ =>
                rw [hphase] at hheard
                cases hheard
          · refine .inr ⟨a, ha, ?_, .head hparent hbelow, hfalse⟩
            rintro rfl
            exact (l.tree.rooted p).not_circular (.tail' hbelow hparent)
  · obtain ⟨counted, created, hnode⟩ := hinv n
    have hall := hnode.success hsuccess
    have hlaunched : (s n).phase.isLaunched = true := by
      generalize (s n).phase = phase at hsuccess
      cases phase <;> cases hsuccess <;> rfl
    exact ⟨hall, by rw [← hnode.numChildren_eq hlaunched hall, hnode.reported, heard_card]⟩

/-- Every child is launched. -/
def launchesOfTwoBackEnds (n : Fin 4) : List (Fin 4) :=
  (List.finRange 4).filter fun c => ParentTree.twoLeaves.parent c = some n

/-- A front-end 0 that launches the internal node 1 and the back-end 3. The internal node launches
the back-end 2. -/
def twoBackEnds : Topology (Fin 4) where
  tree := .twoLeaves
  launches := launchesOfTwoBackEnds
  launches_nodup := by decide
  launches_child := by decide
  isBackEnd := ParentTree.isLeafInTwoLeaves
  backEnd_leaf := ParentTree.childless_of_isLeafInTwoLeaves
  root_frontEnd := ParentTree.root_not_isLeafInTwoLeaves
  attached := by decide

/-- The internal node does not wait for its back-end long enough. -/
theorem whole_tree_reported_twoBackEnds : ∃ s,
    Reaches (step twoBackEnds) Any (State.initial twoBackEnds) s ∧
      (s 0).phase = .waited true ∧ (s 2).phase.isHeard = false ∧
      (∃ a : Fin 4, a ≠ 0 ∧ a ≠ 2 ∧ Below ParentTree.twoLeaves.parent 2 a ∧
        (s a).phase = .heard false) ∧
      (s 3).phase.isHeard = true ∧ (s 0).numChildren = 2 := by
  obtain ⟨s, hrun⟩ : ∃ s, runSchedule (step twoBackEnds) (State.initial twoBackEnds)
      [.count 0, .create 0 true, .count 0, .start 1, .create 0 true, .sendLaunchInfo 1, .start 3,
        .procLaunchSubTree 1, .count 1, .launched 0, .create 1 true, .launched 1, .check 1,
        .timeOut 1, .check 0, .procReport 3, .sendReport 1, .start 2, .procReport 1, .wake 0,
        .check 0] = some s := ⟨_, rfl⟩
  have hstate : (s 0).phase = .waited true ∧ (s 2).phase.isHeard = false ∧
      ((twoBackEnds.tree.children 0).filter fun c => (s c).phase.isHeard).card = 2 := by
    cases hrun
    exact ⟨rfl, rfl, by decide⟩
  obtain ⟨hroot, hlate, hcard⟩ := hstate
  obtain ⟨habove, hall⟩ := whole_tree_reported (reaches_any hrun)
  obtain ⟨hheard, hnum⟩ := hall 0 (by rw [hroot]; rfl)
  refine ⟨s, reaches_any hrun, hroot, hlate, ?_, hheard 3 (by decide), hnum.trans hcard⟩
  have hlower : InTopology twoBackEnds 2 := .child (.child .root List.mem_cons_self) List.mem_cons_self
  rcases habove hroot 2 hlower (by decide) with hheard | h
  · rw [hlate] at hheard
    cases hheard
  · exact h

end MRNet.Startup
