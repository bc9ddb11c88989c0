import MRNet.DecreasingRuns
import MRNet.StartupRuns

/-!
# The start comes to an end

Without failures and time-outs the processes come to rest, and then the whole tree is there.
-/
namespace MRNet.Startup
open Forest Interleavings

variable {N : Type} {l : Topology N} {s s' : State N} {n c p : N}

/-- Launches succeed, waits do not time out, and they only wake up when they are signalled. -/
def Smooth (s : State N) : Action N → Prop
  | .create _ success => success = true
  | .wake n => (s n).phase = .sleeping true
  | .timeOut _ => False
  | _ => True

/-- How many steps a process may still take, with how many to launch and how many reports that are
missing. -/
def Phase.left (launches missing : ℕ) : Phase N → ℕ
  | .absent => 2 * launches + 12
  | .created => 2 * launches + 11
  | .requested => 2 * launches + 10
  | .answered => 2 * launches + 9
  | .launching todo => 2 * todo.length + 8
  | .creating _ todo => 2 * todo.length + 9
  | .waiting => if missing = 0 then 4 else 7
  | .sleeping signalled => if signalled then 5 else 6
  | .waited _ => 3
  | .reported _ => 2
  | .heard _ => 1

def left (l : Topology N) (n : N) (x : NodeState N) : ℕ :=
  x.phase.left (l.launches n).length (x.numChildren - x.numChildrenReportedInit)

def remaining [Fintype N] (l : Topology N) (s : State N) : ℕ := ∑ n, left l n (s n)

lemma left_signal (launches missing : ℕ) (phase : Phase N) :
    phase.signal.left launches missing ≤ phase.left launches missing := by
  cases phase with
  | sleeping signalled => cases signalled <;> exact Nat.le_of_ble_eq_true rfl
  | _ => exact le_refl _

lemma left_le {launches missing missing' : ℕ} (h : missing' ≤ missing) (phase : Phase N) :
    phase.left launches missing' ≤ phase.left launches missing := by
  cases phase with
  | waiting =>
      show (if missing' = 0 then 4 else 7) ≤ if missing = 0 then 4 else 7
      split_ifs <;> omega
  | _ => exact le_refl _

/-- A report does not give its parent more to do. -/
lemma left_procSubTreeInitDoneReport (x : NodeState N) :
    left l n (procSubTreeInitDoneReport x) ≤ left l n x := by
  rw [procSubTreeInitDoneReport, left, left]
  by_cases heq : x.numChildrenReportedInit = x.numChildren
  · rw [if_pos heq]
    apply left_le
    show x.numChildren + 1 - (x.numChildrenReportedInit + 1) ≤ _
    omega
  · rw [if_neg heq]
    have hfewer : x.numChildren - (x.numChildrenReportedInit + 1) ≤
        x.numChildren - x.numChildrenReportedInit := by omega
    by_cases hlast : x.numChildrenReportedInit + 1 = x.numChildren
    · rw [if_pos hlast]
      exact (left_signal _ _ _).trans (left_le hfewer _)
    · rw [if_neg hlast]
      exact left_le hfewer _

/-- Where the front-end is in its start. -/
def Phase.ofFrontEnd : Phase N → Bool
  | .launching _ | .creating _ _ | .waiting | .sleeping _ | .waited _ => true
  | _ => false

/-- What holds when nothing fails. -/
structure Calm (l : Topology N) (s : State N) : Prop where
  root : (s l.tree.root).phase.ofFrontEnd = true
  success : ∀ n, (s n).phase.success? ≠ some false
  created : ∀ n, (s n).phase.isLaunched = true → ∀ c ∈ l.launches n, (s c).phase.isAbsent = false

lemma Calm.not_root (h : Calm l s) (hphase : (s n).phase.ofFrontEnd = false) : n ≠ l.tree.root := by
  rintro rfl
  rw [h.root] at hphase
  cases hphase

variable [DecidableEq N]

/-- A step that is not there. -/
lemma not_step_of_rests (hrest : Rests (step l) Smooth s) {act : Action N}
    (hstep : Step l s act s') (hsmooth : Smooth s act) : False := by
  have hnone := hrest act hsmooth
  rw [hstep.eq_some] at hnone
  cases hnone

/-- At rest all processes of the topology have launched all of theirs. -/
lemma isLaunched_of_rests (hcalm : Calm l s) (hrest : Rests (step l) Smooth s)
    (hn : InTopology l n) : (s n).phase.isLaunched = true := by
  have hlater : ∀ n, (s n).phase.hasLaunchPkt = true → (s n).phase.isLaunched = true := by
    intro n hpkt
    cases hphase : (s n).phase with
    | absent | created | requested | answered =>
        rw [hphase] at hpkt
        cases hpkt
    | launching todo =>
        cases todo with
        | nil => exact (not_step_of_rests hrest (.launched hphase) trivial).elim
        | cons c todo => exact (not_step_of_rests hrest (.count hphase) trivial).elim
    | creating c todo => exact (not_step_of_rests hrest (.create hphase) rfl).elim
    | _ => rfl
  induction hn with
  | root =>
      apply hlater
      have hroot := hcalm.root
      cases hphase : (s l.tree.root).phase <;> rw [hphase] at hroot <;> first | rfl | cases hroot
  | @child c p hp hc ih =>
      apply hlater
      have hlive := hcalm.created p ih c hc
      cases hphase : (s c).phase with
      | absent =>
          rw [hphase] at hlive
          cases hlive
      | created => exact (not_step_of_rests hrest (.start hphase) trivial).elim
      | requested =>
          refine (not_step_of_rests hrest
            (.sendLaunchInfo hphase (l.launches_child p c hc) ?_) trivial).elim
          cases hp : (s p).phase <;> rw [hp] at ih <;> first | rfl | cases ih
      | answered => exact (not_step_of_rests hrest (.procLaunchSubTree hphase) trivial).elim
      | _ => rfl

section Remaining
variable [Fintype N]

lemma remaining_lt {x : NodeState N} (h : left l n x < left l n (s n)) :
    remaining l (Function.update s n x) < remaining l s := by
  refine Finset.sum_lt_sum (fun m _ => ?_) ⟨n, Finset.mem_univ n, ?_⟩
  · by_cases hm : m = n
    · subst hm
      rw [Function.update_self]
      exact h.le
    · rw [Function.update_of_ne hm]
  · rwa [Function.update_self]

lemma remaining_le {x : NodeState N} (h : left l n x ≤ left l n (s n)) :
    remaining l (Function.update s n x) ≤ remaining l s := by
  refine Finset.sum_le_sum fun m _ => ?_
  by_cases hm : m = n
  · subst hm
    rwa [Function.update_self]
  · rw [Function.update_of_ne hm]

lemma setPhase_remaining_lt {phase : Phase N}
    (h : phase.left (l.launches n).length ((s n).numChildren - (s n).numChildrenReportedInit) <
      (s n).phase.left (l.launches n).length ((s n).numChildren - (s n).numChildrenReportedInit)) :
    remaining l (s.setPhase n phase) < remaining l s := remaining_lt h

/-- Every such step leaves less to do. -/
lemma Step.remaining_lt {act : Action N} (hstep : Step l s act s') (hsmooth : Smooth s act)
    (hinv : Invariant l s) : remaining l s' < remaining l s := by
  cases hstep with
  | @start n hphase =>
      refine setPhase_remaining_lt ?_
      rw [hphase]
      split_ifs <;> simp [Phase.left]
  | sendLaunchInfo hphase _ _ =>
      refine setPhase_remaining_lt ?_
      rw [hphase]
      simp [Phase.left]
  | procLaunchSubTree hphase =>
      refine setPhase_remaining_lt ?_
      rw [hphase]
      simp [Phase.left]
  | count hphase =>
      refine Startup.remaining_lt ?_
      rw [left, left, hphase]
      simp only [Phase.left, List.length_cons]
      omega
  | @create n c todo hphase =>
      obtain ⟨counted, created, hnode⟩ := hinv n
      obtain ⟨-, -, hc, habsent⟩ := hnode.creating hphase
      have hchild : s.setPhase n (.launching todo) c = s c :=
        Function.update_of_ne (ParentTree.parent_ne_self hc).symm ..
      refine (setPhase_remaining_lt ?_).trans (setPhase_remaining_lt ?_)
      · rw [hchild, habsent]
        simp [Phase.left]
      · rw [hphase]
        simp [Phase.left]
  | createFails hphase => cases hsmooth
  | launched hphase =>
      refine setPhase_remaining_lt ?_
      rw [hphase]
      simp only [Phase.left]
      split_ifs <;> omega
  | @check n hphase =>
      refine setPhase_remaining_lt ?_
      rw [hphase]
      by_cases hlt : (s n).numChildrenReportedInit < (s n).numChildren
      · rw [if_pos hlt]
        simp only [Phase.left]
        split_ifs <;> omega
      · rw [if_neg hlt]
        simp only [Phase.left]
        split_ifs <;> omega
  | @wake n signalled hphase =>
      have hsignalled : (s n).phase = .sleeping true := hsmooth
      obtain ⟨counted, created, hnode⟩ := hinv n
      have hle := (hnode.sleeping true hsignalled).mp rfl
      refine setPhase_remaining_lt ?_
      rw [hsignalled]
      simp only [Phase.left]
      rw [if_pos (Nat.sub_eq_zero_of_le hle)]
      decide
  | timeOut hphase => cases hsmooth
  | sendReport hphase _ =>
      refine setPhase_remaining_lt ?_
      rw [hphase]
      simp [Phase.left]
  | @procReport c p success hphase hp =>
      have hne : p ≠ c := ParentTree.parent_ne_self hp
      have hparent : s.setPhase c (.heard success) p = s p := Function.update_of_ne hne ..
      refine lt_of_le_of_lt (remaining_le ?_) (setPhase_remaining_lt ?_)
      · rw [hparent]
        exact left_procSubTreeInitDoneReport _
      · rw [hphase]
        simp [Phase.left]
  | attach hphase _ _ _ =>
      refine setPhase_remaining_lt ?_
      rw [hphase]
      simp [Phase.left]

end Remaining

lemma initial_calm (l : Topology N) : Calm l (State.initial l) where
  root := by
    rw [State.initial, if_pos rfl]
    rfl
  success := by
    intro n
    rw [State.initial]
    split_ifs <;> rintro ⟨⟩
  created := by
    intro n h
    rw [State.initial] at h
    split_ifs at h <;> cases h

namespace Calm

lemma update (h : Calm l s) {x : NodeState N} (hroot : n = l.tree.root → x.phase.ofFrontEnd = true)
    (hsuccess : x.phase.success? ≠ some false)
    (hlive : x.phase.isAbsent = true → (s n).phase.isAbsent = true)
    (hcreated : x.phase.isLaunched = true → ∀ c ∈ l.launches n, (s c).phase.isAbsent = false) :
    Calm l (Function.update s n x) := by
  have hstays : ∀ c, (s c).phase.isAbsent = false →
      (Function.update s n x c).phase.isAbsent = false := by
    intro c hc
    by_cases hcn : c = n
    · subst hcn
      rw [Function.update_self, ← Bool.not_eq_true]
      intro habsent
      rw [hlive habsent] at hc
      cases hc
    · rwa [Function.update_of_ne hcn]
  refine ⟨?_, fun m => ?_, fun m hm c hc => hstays c ?_⟩
  · by_cases hn : n = l.tree.root
    · rw [← hn, Function.update_self]
      exact hroot hn
    · rw [Function.update_of_ne (Ne.symm hn)]
      exact h.root
  · by_cases hm : m = n
    · rw [hm, Function.update_self]
      exact hsuccess
    · rw [Function.update_of_ne hm]
      exact h.success m
  · by_cases hmn : m = n
    · subst hmn
      rw [Function.update_self] at hm
      exact hcreated hm c hc
    · rw [Function.update_of_ne hmn] at hm
      exact h.created m hm c hc

/-- A process whose launches are over goes on. -/
lemma setPhase_launched (h : Calm l s) {phase : Phase N} (hlaunched : (s n).phase.isLaunched = true)
    (hroot : n = l.tree.root → phase.ofFrontEnd = true) (hsuccess : phase.success? ≠ some false)
    (hlive : phase.isAbsent = false) : Calm l (s.setPhase n phase) :=
  h.update hroot hsuccess (fun habsent => by cases hlive.symm.trans habsent)
    fun _ => h.created n hlaunched

/-- A process whose launches are not over yet goes on. -/
lemma setPhase_launching (h : Calm l s) {phase : Phase N}
    (hroot : n = l.tree.root → phase.ofFrontEnd = true) (hlive : phase.isAbsent = false)
    (hlaunching : phase.isLaunched = false) : Calm l (s.setPhase n phase) := by
  refine h.update hroot (fun hfalse => ?_) (fun habsent => by cases hlive.symm.trans habsent)
    fun hlaunched => by cases hlaunching.symm.trans hlaunched
  cases phase <;> cases hfalse <;> cases hlaunching

end Calm

variable [Fintype N]

lemma Step.calm {act : Action N} (hstep : Step l s act s') (hsmooth : Smooth s act)
    (hinv : Invariant l s) (h : Calm l s) : Calm l s' := by
  cases hstep with
  | @start n hphase =>
      have hroot := h.not_root (n := n) (by rw [hphase]; rfl)
      by_cases hback : l.isBackEnd n = true
      · rw [if_pos hback]
        refine h.update (fun hn => absurd hn hroot) (by rintro ⟨⟩) (fun habsent => by cases habsent)
          fun _ c hc => ?_
        rw [l.launches_backEnd hback] at hc
        cases hc
      · rw [if_neg hback]
        exact h.setPhase_launching (fun hn => absurd hn hroot) rfl rfl
  | sendLaunchInfo hphase _ _ =>
      exact h.setPhase_launching (fun hn => absurd hn (h.not_root (by rw [hphase]; rfl))) rfl rfl
  | procLaunchSubTree hphase => exact h.setPhase_launching (fun _ => rfl) rfl rfl
  | count hphase =>
      exact h.update (fun _ => rfl) (by rintro ⟨⟩) (fun habsent => by cases habsent)
        fun hlaunched => by cases hlaunched
  | @create n c todo hphase =>
      obtain ⟨counted, created, hnode⟩ := hinv n
      obtain ⟨-, -, hc, -⟩ := hnode.creating hphase
      refine (h.setPhase_launching (fun _ => rfl) rfl rfl).setPhase_launching (fun hroot => ?_) rfl rfl
      exact absurd hroot (ParentTree.ne_root_of_parent hc)
  | createFails hphase => cases hsmooth
  | @launched n hphase =>
      obtain ⟨counted, created, hnode⟩ := hinv n
      refine h.update (fun _ => rfl) (by rintro ⟨⟩) (fun habsent => by cases habsent) fun _ c hc => ?_
      have hprogress := hnode.progress
      rw [hphase] at hprogress
      cases hprogress with
      | before hbefore => cases hbefore
      | complete hlaunched => cases hlaunched
      | failed hlaunched _ => cases hlaunched
      | launching hlaunches =>
          rw [List.append_nil] at hlaunches
          exact (hnode.created_iff c hc).mp (hlaunches ▸ hc)
  | check hphase =>
      refine h.setPhase_launched (by rw [hphase]; rfl) (fun _ => ?_) ?_ ?_
      · split_ifs <;> rfl
      · split_ifs <;> rintro ⟨⟩
      · split_ifs <;> rfl
  | wake hphase => exact h.setPhase_launched (by rw [hphase]; rfl) (fun _ => rfl) (by rintro ⟨⟩) rfl
  | timeOut hphase => cases hsmooth
  | @sendReport n success hphase hn =>
      refine h.setPhase_launched (by rw [hphase]; rfl) (fun hroot => absurd hroot hn) ?_ rfl
      have hsuccess := h.success n
      rw [hphase] at hsuccess
      exact hsuccess
  | @procReport c p success hphase hp =>
      have hsuccess := h.success c
      rw [hphase] at hsuccess
      have hchild : Calm l (s.setPhase c (.heard success)) :=
        h.setPhase_launched (by rw [hphase]; rfl)
          (fun hroot => absurd hroot (ParentTree.ne_root_of_parent hp)) hsuccess rfl
      have hparent : s.setPhase c (.heard success) p = s p :=
        Function.update_of_ne (ParentTree.parent_ne_self hp) ..
      refine hchild.update (fun hroot => ?_) ?_ ?_ ?_
      · subst hroot
        have hfrontEnd : (procSubTreeInitDoneReport (s l.tree.root)).phase.ofFrontEnd =
            (s l.tree.root).phase.ofFrontEnd :=
          phase_procSubTreeInitDoneReport (fun phase => by cases phase <;> rfl) _
        rw [hfrontEnd, h.root]
      · rw [success_procSubTreeInitDoneReport]
        exact h.success p
      · rw [isAbsent_procSubTreeInitDoneReport, hparent]
        exact fun habsent => habsent
      · rw [isLaunched_procSubTreeInitDoneReport, ← hparent]
        exact hchild.created p
  | @attach c p hphase hp _ _ =>
      exact h.setPhase_launching (fun hroot => absurd hroot (ParentTree.ne_root_of_parent hp)) rfl rfl

lemma decreases (l : Topology N) :
    Decreases (step l) Smooth (fun s => Invariant l s ∧ Calm l s) (remaining l) where
  keeps := by
    rintro s act s' ⟨hinv, hcalm⟩ hsmooth hstep
    have hstep := step_of_eq_some hstep
    exact ⟨hstep.invariant hinv, hstep.calm hsmooth hinv hcalm⟩
  drops := fun h hsmooth hstep => (step_of_eq_some hstep).remaining_lt hsmooth h.1

lemma sound_of_run (hrun : Reaches (step l) Smooth (State.initial l) s) :
    Invariant l s ∧ Calm l s :=
  hrun.keeps (I := fun s => Invariant l s ∧ Calm l s) ⟨initial_invariant l, initial_calm l⟩
    fun h hsmooth hstep => (decreases l).keeps h hsmooth hstep

/-- At rest all processes of the topology have reported. -/
lemma heard_of_rests (hinv : Invariant l s) (hcalm : Calm l s) (hrest : Rests (step l) Smooth s)
    (n : N) : InTopology l n →
    (n = l.tree.root ∧ (s n).phase = .waited true) ∨ (s n).phase.isHeard = true := by
  induction n using l.tree.up_induction with
  | hnode n ih =>
      intro hn
      have hlaunched := isLaunched_of_rests hcalm hrest hn
      have hall : ∀ c ∈ l.launches n, (s c).phase.isHeard = true := by
        intro c hc
        have hparent := l.launches_child n c hc
        rcases ih c hparent (.child hn hc) with ⟨hroot, -⟩ | hheard
        · exact absurd hroot (ParentTree.ne_root_of_parent hparent)
        · exact hheard
      obtain ⟨counted, created, hnode⟩ := hinv n
      have heq := hnode.numChildren_eq hlaunched hall
      cases hphase : (s n).phase with
      | waiting => exact (not_step_of_rests hrest (.check hphase) trivial).elim
      | sleeping signalled =>
          obtain rfl := (hnode.sleeping signalled hphase).mpr heq.ge
          exact (not_step_of_rests hrest (.wake hphase) hphase).elim
      | waited success =>
          by_cases hroot : n = l.tree.root
          · have hsuccess := hcalm.success n
            rw [hphase] at hsuccess
            cases success with
            | true => exact .inl ⟨hroot, rfl⟩
            | false => exact absurd rfl hsuccess
          · exact (not_step_of_rests hrest (.sendReport hphase hroot) trivial).elim
      | reported success =>
          have hroot := hcalm.not_root (n := n) (by rw [hphase]; rfl)
          obtain ⟨p, hp⟩ := ParentTree.exists_parent hroot
          exact (not_step_of_rests hrest (.procReport hphase hp) trivial).elim
      | heard success => exact .inr rfl
      | _ =>
          rw [hphase] at hlaunched
          cases hlaunched

/-- If nothing fails and no wait times out, then only finitely many steps are left in every state,
and when none is left the front-end has the whole tree. -/
theorem startup_completes (hrun : Reaches (step l) Smooth (State.initial l) s) :
    (∃ bound, ∀ acts s', AllowedAll (step l) Smooth s acts → runSchedule (step l) s acts = some s' →
      acts.length ≤ bound) ∧
    (Rests (step l) Smooth s → (s l.tree.root).phase = .waited true ∧
      ∀ n, InTopology l n → n ≠ l.tree.root → (s n).phase.isHeard = true) := by
  obtain ⟨hinv, hcalm⟩ := sound_of_run hrun
  refine ⟨⟨remaining l s, fun acts s' hsmooth hacts => ?_⟩, fun hrest => ⟨?_, fun n hn hne => ?_⟩⟩
  · exact (decreases l).length_le ⟨hinv, hcalm⟩ hsmooth hacts
  · rcases heard_of_rests hinv hcalm hrest l.tree.root .root with ⟨-, hwaited⟩ | hheard
    · exact hwaited
    · have hroot := hcalm.root
      cases hphase : (s l.tree.root).phase <;> rw [hphase] at hroot hheard <;> cases hroot <;>
        cases hheard
  · rcases heard_of_rests hinv hcalm hrest n hn with ⟨hroot, -⟩ | hheard
    · exact absurd hroot hne
    · exact hheard

theorem startup_completes_twoBackEnds : ∃ s,
    Reaches (step twoBackEnds) Smooth (State.initial twoBackEnds) s ∧
      (s 0).phase = .waited true ∧ ∀ n, n ≠ 0 → (s n).phase.isHeard = true := by
  have hall : ∀ n, InTopology twoBackEnds n := by
    have hinner : InTopology twoBackEnds 1 := .child .root List.mem_cons_self
    intro n
    fin_cases n
    · exact .root
    · exact hinner
    · exact .child hinner List.mem_cons_self
    · exact .child .root (List.mem_cons_of_mem _ List.mem_cons_self)
  obtain ⟨s, hrun, -, hrest⟩ := (decreases twoBackEnds).exists_rest
    ⟨initial_invariant twoBackEnds, initial_calm twoBackEnds⟩
  obtain ⟨hroot, hheard⟩ := (startup_completes hrun).2 hrest
  exact ⟨s, hrun, hroot, fun n hn => hheard n (hall n) hn⟩

end MRNet.Startup
