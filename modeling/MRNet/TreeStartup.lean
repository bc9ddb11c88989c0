import MRNet.Interleavings
import MRNet.RootedTrees

/-!
# The start of a tree

Every parent launches the processes that the topology gives it, one after another, and waits for
their reports before it reports itself. Back-ends may attach to a process that has none to launch.
Translation of `proc_LaunchSubTree`, of the exchange by which an internal node asks for it, and of
the reports. A time-out, a launch that fails and a wait that wakes up without a signal can come at
any time.
-/
namespace MRNet.Startup
open Forest

/-- All processes of a run, those that the topology has below each of them, in its order, and the
back-ends. -/
structure Topology (N : Type) where
  tree : ParentTree N
  launches : N → List N
  launches_nodup : ∀ n, (launches n).Nodup
  launches_child : ∀ n, ∀ c ∈ launches n, tree.parent c = some n
  isBackEnd : N → Bool
  backEnd_leaf : ∀ n c, isBackEnd n → tree.parent c ≠ some n
  root_frontEnd : isBackEnd tree.root = false
  attached : ∀ n c, tree.parent c = some n → c ∉ launches n → isBackEnd c ∧ launches n = []

inductive Phase (N : Type) where
  | absent
  | created
  /-- `PROT_LAUNCH_SUBTREE` is on its way to the parent. -/
  | requested
  /-- The launch packet is on its way to the child. -/
  | answered
  | launching (todo : List N)
  /-- The child is counted, but not created yet. -/
  | creating (c : N) (todo : List N)
  /-- In front of the condition of the loop. -/
  | waiting
  | sleeping (signalled : Bool)
  | waited (success : Bool)
  /-- `PROT_SUBTREE_INITDONE_RPT` is on its way to the parent. -/
  | reported (success : Bool)
  /-- The parent has processed the report. -/
  | heard (success : Bool)

structure NodeState (N : Type) where
  phase : Phase N
  numChildren : ℕ
  numChildrenReportedInit : ℕ

abbrev State (N : Type) := N → NodeState N

inductive Action (N : Type) where
  | start (n : N)
  | sendLaunchInfo (c : N)
  | procLaunchSubTree (n : N)
  | count (n : N)
  | create (n : N) (success : Bool)
  | launched (n : N)
  | check (n : N)
  | wake (n : N)
  | timeOut (n : N)
  | sendReport (n : N)
  | procReport (c : N)
  | attach (c : N)

variable {N : Type}

namespace Phase

/-- The launch packet is kept before the first launch. -/
def hasLaunchPkt : Phase N → Bool
  | .absent | .created | .requested | .answered => false
  | _ => true

def isAbsent : Phase N → Bool
  | .absent => true
  | _ => false

def isHeard : Phase N → Bool
  | .heard _ => true
  | _ => false

/-- The launches are over. -/
def isLaunched : Phase N → Bool
  | .waiting | .sleeping _ | .waited _ | .reported _ | .heard _ => true
  | _ => false

/-- What the wait returned. -/
def success? : Phase N → Option Bool
  | .waited success | .reported success | .heard success => some success
  | _ => none

def signal : Phase N → Phase N
  | .sleeping _ => .sleeping true
  | phase => phase

end Phase

/-- `ParentNode::proc_SubTreeInitDoneReport` -/
def procSubTreeInitDoneReport (x : NodeState N) : NodeState N :=
  if x.numChildrenReportedInit = x.numChildren then
    { x with
      numChildren := x.numChildren + 1
      numChildrenReportedInit := x.numChildrenReportedInit + 1 }
  else
    { x with
      numChildrenReportedInit := x.numChildrenReportedInit + 1
      phase := if x.numChildrenReportedInit + 1 = x.numChildren then x.phase.signal else x.phase }

variable [DecidableEq N]

namespace State

def setPhase (s : State N) (n : N) (phase : Phase N) : State N :=
  Function.update s n { s n with phase := phase }

/-- The front-end runs `proc_LaunchSubTree` first. -/
def initial (l : Topology N) : State N := fun n =>
  if n = l.tree.root then ⟨.launching (l.launches n), 0, 0⟩ else ⟨.absent, 0, 0⟩

end State

variable (l : Topology N)

/-- After the constructor a back-end reports, and another process asks for the launch packet. -/
def start (s : State N) (n : N) : Option (State N) :=
  match (s n).phase with
  | .created => some (s.setPhase n (if l.isBackEnd n then .reported true else .requested))
  | _ => none

def sendLaunchInfo (s : State N) (c : N) : Option (State N) :=
  match (s c).phase, l.tree.parent c with
  | .requested, some p => if (s p).phase.hasLaunchPkt then some (s.setPhase c .answered) else none
  | _, _ => none

def procLaunchSubTree (s : State N) (n : N) : Option (State N) :=
  match (s n).phase with
  | .answered => some (s.setPhase n (.launching (l.launches n)))
  | _ => none

/-- `_num_children++` -/
def count (s : State N) (n : N) : Option (State N) :=
  match (s n).phase with
  | .launching (c :: todo) => some (Function.update s n
      { s n with phase := .creating c todo, numChildren := (s n).numChildren + 1 })
  | _ => none

/-- `launch_InternalNode` or `launch_Application`. After a failure an internal node still waits;
the front-end gives up. -/
def create (s : State N) (n : N) (success : Bool) : Option (State N) :=
  match (s n).phase with
  | .creating c todo =>
      if success then some ((s.setPhase n (.launching todo)).setPhase c .created)
      else some (s.setPhase n (if n = l.tree.root then .waited false else .waiting))
  | _ => none

def launched (s : State N) (n : N) : Option (State N) :=
  match (s n).phase with
  | .launching [] => some (s.setPhase n .waiting)
  | _ => none

/-- The loop of `ParentNode::waitfor_SubTreeInitDoneReports`. -/
def check (s : State N) (n : N) : Option (State N) :=
  match (s n).phase with
  | .waiting => some (s.setPhase n
      (if (s n).numChildrenReportedInit < (s n).numChildren then .sleeping false else .waited true))
  | _ => none

def wake (s : State N) (n : N) : Option (State N) :=
  match (s n).phase with
  | .sleeping _ => some (s.setPhase n .waiting)
  | _ => none

/-- The reports are not counted again when the time is over. -/
def timeOut (s : State N) (n : N) : Option (State N) :=
  match (s n).phase with
  | .sleeping _ => some (s.setPhase n (.waited false))
  | _ => none

/-- An internal node reports in any case. -/
def sendReport (s : State N) (n : N) : Option (State N) :=
  match (s n).phase with
  | .waited success => if n = l.tree.root then none else some (s.setPhase n (.reported success))
  | _ => none

def procReport (s : State N) (c : N) : Option (State N) :=
  match (s c).phase, l.tree.parent c with
  | .reported success, some p => some
      (Function.update (s.setPhase c (.heard success)) p (procSubTreeInitDoneReport (s p)))
  | _, _ => none

/-- A back-end attaches to a process that runs. -/
def attach (s : State N) (c : N) : Option (State N) :=
  match (s c).phase, l.tree.parent c with
  | .absent, some p =>
      if c ∈ l.launches p ∨ (s p).phase.isAbsent then none else some (s.setPhase c .created)
  | _, _ => none

def step (s : State N) : Action N → Option (State N)
  | .start n => start l s n
  | .sendLaunchInfo c => sendLaunchInfo l s c
  | .procLaunchSubTree n => procLaunchSubTree l s n
  | .count n => count s n
  | .create n success => create l s n success
  | .launched n => launched s n
  | .check n => check s n
  | .wake n => wake s n
  | .timeOut n => timeOut s n
  | .sendReport n => sendReport l s n
  | .procReport c => procReport l s c
  | .attach c => attach l s c

variable {l} {s s' : State N}

/-- What a step does, and when it can be taken. -/
inductive Step (l : Topology N) (s : State N) : Action N → State N → Prop
  | start {n : N} (h : (s n).phase = .created) :
      Step l s (.start n) (s.setPhase n (if l.isBackEnd n then .reported true else .requested))
  | sendLaunchInfo {c p : N} (h : (s c).phase = .requested) (hp : l.tree.parent c = some p)
      (hpkt : (s p).phase.hasLaunchPkt = true) : Step l s (.sendLaunchInfo c) (s.setPhase c .answered)
  | procLaunchSubTree {n : N} (h : (s n).phase = .answered) :
      Step l s (.procLaunchSubTree n) (s.setPhase n (.launching (l.launches n)))
  | count {n c : N} {todo : List N} (h : (s n).phase = .launching (c :: todo)) :
      Step l s (.count n) (Function.update s n
        { s n with phase := .creating c todo, numChildren := (s n).numChildren + 1 })
  | create {n c : N} {todo : List N} (h : (s n).phase = .creating c todo) :
      Step l s (.create n true) ((s.setPhase n (.launching todo)).setPhase c .created)
  | createFails {n c : N} {todo : List N} (h : (s n).phase = .creating c todo) :
      Step l s (.create n false) (s.setPhase n (if n = l.tree.root then .waited false else .waiting))
  | launched {n : N} (h : (s n).phase = .launching []) : Step l s (.launched n) (s.setPhase n .waiting)
  | check {n : N} (h : (s n).phase = .waiting) : Step l s (.check n) (s.setPhase n
      (if (s n).numChildrenReportedInit < (s n).numChildren then .sleeping false else .waited true))
  | wake {n : N} {signalled : Bool} (h : (s n).phase = .sleeping signalled) :
      Step l s (.wake n) (s.setPhase n .waiting)
  | timeOut {n : N} {signalled : Bool} (h : (s n).phase = .sleeping signalled) :
      Step l s (.timeOut n) (s.setPhase n (.waited false))
  | sendReport {n : N} {success : Bool} (h : (s n).phase = .waited success) (hn : n ≠ l.tree.root) :
      Step l s (.sendReport n) (s.setPhase n (.reported success))
  | procReport {c p : N} {success : Bool} (h : (s c).phase = .reported success)
      (hp : l.tree.parent c = some p) : Step l s (.procReport c)
        (Function.update (s.setPhase c (.heard success)) p (procSubTreeInitDoneReport (s p)))
  | attach {c p : N} (h : (s c).phase = .absent) (hp : l.tree.parent c = some p)
      (hc : c ∉ l.launches p) (hlive : (s p).phase.isAbsent = false) :
      Step l s (.attach c) (s.setPhase c .created)

lemma step_of_eq_some {act : Action N} (h : step l s act = some s') : Step l s act s' := by
  cases act with
  | start n =>
      rw [step, Startup.start] at h
      cases hphase : (s n).phase <;> rw [hphase] at h <;> cases h
      exact .start hphase
  | sendLaunchInfo c =>
      rw [step, Startup.sendLaunchInfo] at h
      cases hphase : (s c).phase <;> rw [hphase] at h <;> try cases h
      cases hp : l.tree.parent c with
      | none =>
          rw [hp] at h
          cases h
      | some p =>
          rw [hp] at h
          by_cases hpkt : (s p).phase.hasLaunchPkt = true
          · cases (if_pos hpkt).symm.trans h
            exact .sendLaunchInfo hphase hp hpkt
          · cases (if_neg hpkt).symm.trans h
  | procLaunchSubTree n =>
      rw [step, Startup.procLaunchSubTree] at h
      cases hphase : (s n).phase <;> rw [hphase] at h <;> cases h
      exact .procLaunchSubTree hphase
  | count n =>
      rw [step, Startup.count] at h
      cases hphase : (s n).phase with
      | launching todo =>
          rw [hphase] at h
          cases todo <;> cases h
          exact .count hphase
      | _ =>
          rw [hphase] at h
          cases h
  | create n success =>
      rw [step, Startup.create] at h
      cases hphase : (s n).phase <;> rw [hphase] at h <;> try cases h
      cases success with
      | true =>
          cases h
          exact .create hphase
      | false =>
          cases h
          exact .createFails hphase
  | launched n =>
      rw [step, Startup.launched] at h
      cases hphase : (s n).phase with
      | launching todo =>
          rw [hphase] at h
          cases todo <;> cases h
          exact .launched hphase
      | _ =>
          rw [hphase] at h
          cases h
  | check n =>
      rw [step, Startup.check] at h
      cases hphase : (s n).phase <;> rw [hphase] at h <;> cases h
      exact .check hphase
  | wake n =>
      rw [step, Startup.wake] at h
      cases hphase : (s n).phase <;> rw [hphase] at h <;> cases h
      exact .wake hphase
  | timeOut n =>
      rw [step, Startup.timeOut] at h
      cases hphase : (s n).phase <;> rw [hphase] at h <;> cases h
      exact .timeOut hphase
  | sendReport n =>
      rw [step, Startup.sendReport] at h
      cases hphase : (s n).phase <;> rw [hphase] at h <;> try cases h
      by_cases hn : n = l.tree.root
      · cases (if_pos hn).symm.trans h
      · cases (if_neg hn).symm.trans h
        exact .sendReport hphase hn
  | procReport c =>
      rw [step, Startup.procReport] at h
      cases hphase : (s c).phase <;> rw [hphase] at h <;> try cases h
      cases hp : l.tree.parent c with
      | none =>
          rw [hp] at h
          cases h
      | some p =>
          rw [hp] at h
          cases h
          exact .procReport hphase hp
  | attach c =>
      rw [step, Startup.attach] at h
      cases hphase : (s c).phase <;> rw [hphase] at h <;> try cases h
      cases hp : l.tree.parent c with
      | none =>
          rw [hp] at h
          cases h
      | some p =>
          rw [hp] at h
          by_cases hc : c ∈ l.launches p ∨ (s p).phase.isAbsent = true
          · cases (if_pos hc).symm.trans h
          · cases (if_neg hc).symm.trans h
            rw [not_or, Bool.not_eq_true] at hc
            exact .attach hphase hp hc.1 hc.2

lemma Step.eq_some {act : Action N} (h : Step l s act s') : step l s act = some s' := by
  cases h with
  | start h => rw [step, Startup.start, h]
  | sendLaunchInfo h hp hpkt =>
      rw [step, Startup.sendLaunchInfo, h, hp]
      exact if_pos hpkt
  | procLaunchSubTree h => rw [step, Startup.procLaunchSubTree, h]
  | count h => rw [step, Startup.count, h]
  | create h =>
      rw [step, Startup.create, h]
      exact if_pos rfl
  | createFails h =>
      rw [step, Startup.create, h]
      exact if_neg Bool.false_ne_true
  | launched h => rw [step, Startup.launched, h]
  | check h => rw [step, Startup.check, h]
  | wake h => rw [step, Startup.wake, h]
  | timeOut h => rw [step, Startup.timeOut, h]
  | sendReport h hn =>
      rw [step, Startup.sendReport, h]
      exact if_neg hn
  | procReport h hp => rw [step, Startup.procReport, h, hp]
  | attach h hp hc hlive =>
      rw [step, Startup.attach, h, hp]
      exact if_neg (not_or.mpr ⟨hc, by rw [hlive]; exact Bool.false_ne_true⟩)

end MRNet.Startup
