import MRNet.Interleavings
import MRNet.ParentChoice

/-!
# Recovery from failures

When its parent fails, a process chooses a new one in its own topology and connects to it.
Translation of `recover_FromParentFailure` of `EventDetector.C` and of the branches of its main
loop around it, for all processes at once. The topologies in which they choose need not be the
same, and need not be right.
-/
namespace MRNet.Recovery
open Codec Relation MRNet.Topology Interleavings
open Forest (Link Rooted Below)
open WaitForAll (Rank)

structure State where
  alive : Rank → Bool
  /-- The process does not look for a parent, or accept children, any more. -/
  disabled : Rank → Bool
  /-- The parent that the process is connected to. -/
  connection : Rank → Option Rank

inductive Action where
  | fail (rank : Rank)
  /-- `PROT_EDT_REMOTE_SHUTDOWN` from the parent. -/
  | shutDown (rank : Rank)
  | recover (rank : Rank) (view : NetworkTopology) (sorts : Sorts)

namespace State

/-- The processes have been started in the topology. -/
def initial (t : NetworkTopology) : State where
  alive := fun rank => (t.findNode rank).isSome
  disabled := fun _ => false
  connection := fun rank => ((t.findNode rank).bind t.parentOf).bind t.rankOf

/-- The connections of a process end with it. -/
def fail (s : State) (rank : Rank) : State :=
  { s with
    alive := Function.update s.alive rank false
    connection := fun r => if r = rank then none else (s.connection r).filter (· ≠ rank) }

def disable (s : State) (rank : Rank) : State :=
  { s with disabled := Function.update s.disabled rank true }

/-- A process that is shut down closes the connection to its parent. -/
def shutDown (s : State) (rank : Rank) : State :=
  { s.disable rank with connection := Function.update s.connection rank none }

def connectTo (s : State) (rank newParentRank : Rank) : State :=
  { s with connection := Function.update s.connection rank (some newParentRank) }

/-- A process without parent that is not the front-end. -/
def Orphaned (s : State) (root rank : Rank) : Prop :=
  s.alive rank = true ∧ rank ≠ root ∧ s.connection rank = none

end State

/-- The rank that `find_NewParent` returns at the first attempt. -/
def newParent (sorts : Sorts) (rank : Rank) (view : NetworkTopology) : Option Rank :=
  match findNewParent sorts rank .wrs ⟨view, []⟩ 0 with
  | .ok (_, some adopter) => view.rankOf adopter
  | _ => none

/-- A process that finds no new parent, or cannot connect to it, disables itself. A parent that
is disabled closes the connection at once, and the process notices another failure. -/
def recoverFromParentFailure (s : State) (rank : Rank) (view : NetworkTopology) (sorts : Sorts) :
    State :=
  match newParent sorts rank view with
  | none => s.disable rank
  | some newParentRank =>
      if s.alive newParentRank then
        if s.disabled newParentRank then s else s.connectTo rank newParentRank
      else s.disable rank

/-- The front-end has no parent, and does not fail. -/
def step (root : Rank) (s : State) : Action → Option State
  | .fail rank => if rank ≠ root ∧ s.alive rank then some (s.fail rank) else none
  | .shutDown rank => if rank ≠ root ∧ s.alive rank then some (s.shutDown rank) else none
  | .recover rank view sorts =>
      if s.alive rank ∧ rank ≠ root ∧ s.connection rank = none ∧ s.disabled rank = false then
        some (recoverFromParentFailure s rank view sorts)
      else none

variable {root : Rank} {s s' : State} {t : NetworkTopology}

/-- What a step does, and when it can be taken. -/
inductive Step (root : Rank) (s : State) : Action → State → Prop
  | fail {rank : Rank} (hne : rank ≠ root) (halive : s.alive rank = true) :
      Step root s (.fail rank) (s.fail rank)
  | shutDown {rank : Rank} (hne : rank ≠ root) (halive : s.alive rank = true) :
      Step root s (.shutDown rank) (s.shutDown rank)
  | adopted {rank a : Rank} {view : NetworkTopology} {sorts : Sorts} (h : s.Orphaned root rank)
      (hnew : newParent sorts rank view = some a) (halive : s.alive a = true) :
      Step root s (.recover rank view sorts) (s.connectTo rank a)
  | refused {rank a : Rank} {view : NetworkTopology} {sorts : Sorts} (h : s.Orphaned root rank)
      (hnew : newParent sorts rank view = some a) (hdisabled : s.disabled a = true) :
      Step root s (.recover rank view sorts) s
  | disabled {rank : Rank} {view : NetworkTopology} {sorts : Sorts} (h : s.Orphaned root rank)
      (hnew : ∀ a, newParent sorts rank view = some a → s.alive a = false) :
      Step root s (.recover rank view sorts) (s.disable rank)

lemma step_of_eq_some {act : Action} (h : step root s act = some s') : Step root s act s' := by
  cases act with
  | fail rank =>
      rw [step] at h
      by_cases hcond : rank ≠ root ∧ s.alive rank = true
      · cases (if_pos hcond).symm.trans h
        exact .fail hcond.1 hcond.2
      · cases (if_neg hcond).symm.trans h
  | shutDown rank =>
      rw [step] at h
      by_cases hcond : rank ≠ root ∧ s.alive rank = true
      · cases (if_pos hcond).symm.trans h
        exact .shutDown hcond.1 hcond.2
      · cases (if_neg hcond).symm.trans h
  | recover rank view sorts =>
      rw [step] at h
      by_cases hcond : s.alive rank = true ∧ rank ≠ root ∧ s.connection rank = none ∧
          s.disabled rank = false
      · cases (if_pos hcond).symm.trans h
        have horphaned : s.Orphaned root rank := ⟨hcond.1, hcond.2.1, hcond.2.2.1⟩
        rw [recoverFromParentFailure]
        cases hnew : newParent sorts rank view with
        | none => exact .disabled horphaned fun a ha => by rw [hnew] at ha; cases ha
        | some a =>
            dsimp only
            split_ifs with halive hdisabled
            · exact .refused horphaned hnew hdisabled
            · exact .adopted horphaned hnew halive
            · refine .disabled horphaned fun a' ha' => ?_
              cases hnew.symm.trans ha'
              exact Bool.not_eq_true _ ▸ halive
      · cases (if_neg hcond).symm.trans h

lemma step_recover {rank : Rank} (h : s.Orphaned root rank) (hdisabled : s.disabled rank = false)
    (view : NetworkTopology) (sorts : Sorts) :
    step root s (.recover rank view sorts) = some (recoverFromParentFailure s rank view sorts) :=
  if_pos ⟨h.1, h.2.1, h.2.2, hdisabled⟩

/-- The choice is one of the adopters that the search has found. -/
lemma findNewParent_mem {sorts : Sorts} (hsorts : sorts.Permute) {rank : Rank} {choice : Choice}
    {a : Ptr} (h : findNewParent sorts rank .wrs ⟨t, []⟩ 0 = .ok (choice, some a)) :
    ∃ orphan adopters, t.findNode rank = some orphan ∧ t.adoptersOf orphan = .ok adopters ∧
      a ∈ adopters := by
  rw [findNewParent, if_neg (lt_irrefl 0)] at h
  cases horphan : t.findNode rank with
  | none =>
      rw [horphan] at h
      cases h
  | some orphan =>
      rw [horphan] at h
      obtain ⟨adopters, hadopters, h⟩ := bind_ok_iff.mp h
      refine ⟨orphan, adopters, rfl, hadopters, ?_⟩
      split_ifs at h
      · cases h
      · obtain ⟨⟨t', statistics, terms⟩, -, h⟩ := bind_ok_iff.mp h
        have hfirst := (Prod.mk.inj (Except.ok.inj h)).2
        exact (hsorts.byWrsKey statistics terms adopters).mem_iff.mp (List.mem_of_getElem? hfirst)

/-- The root of the topology is the front-end, and everything that is connected below the process
is below it in the topology too, as far as it is there. -/
structure Informed (root : Rank) (s : State) (rank : Rank) (view : NetworkTopology) : Prop where
  tree : ∃ top, Tree view top ∧ view.rankOf top = some root
  below : ∀ x px c, Below s.connection x rank → view.findNode x = some px →
    view.findNode rank = some c → Below view.parentOf px c

/-- The new parent is not below the process. -/
lemma newParent_not_below {rank a : Rank} {view : NetworkTopology} {sorts : Sorts}
    (hsorts : sorts.Permute) (hne : rank ≠ root) (hinformed : Informed root s rank view)
    (h : newParent sorts rank view = some a) : ¬Below s.connection a rank := by
  intro hbelow
  rw [newParent] at h
  cases hfound : findNewParent sorts rank .wrs ⟨view, []⟩ 0 with
  | error e =>
      rw [hfound] at h
      cases h
  | ok result =>
      obtain ⟨choice, adopter⟩ := result
      rw [hfound] at h
      cases adopter with
      | none => cases h
      | some adopter =>
          obtain ⟨orphan, adopters, horphan, hadopters, hmem⟩ := findNewParent_mem hsorts hfound
          obtain ⟨top, htree, htop⟩ := hinformed.tree
          have hranked : view.rankOf orphan = some rank := (htree.links.keyed rank orphan).mp horphan
          have hnotTop : orphan ≠ top := by
            rintro rfl
            exact hne (Option.some_inj.mp (hranked.symm.trans htop))
          obtain ⟨found, hfound', -, heligible, -⟩ := adoption_safe htree
            (NetworkTopology.live_iff_rankOf.mpr (by rw [hranked]; rfl)) hnotTop
          rw [NetworkTopology.adoptersOf, htree.isRoot] at hadopters
          cases hadopters.symm.trans hfound'
          exact (heligible adopter hmem).outside
            (hinformed.below a adopter orphan hbelow ((htree.links.keyed a adopter).mpr h) horphan)

end MRNet.Recovery
