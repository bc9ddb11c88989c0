import Mathlib.Logic.Function.Basic

/-!
# Interleavings

Runs of a system in which any of several parties takes the next step. What an action does to
a state is a partial function, as an action may be impossible in a state.
-/
namespace MRNet.Interleavings

variable {σ Act : Type}

/-- The states that are reached by steps that are all allowed in the state before them. -/
inductive Reaches (step : σ → Act → Option σ) (allowed : σ → Act → Prop) (start : σ) : σ → Prop
  | refl : Reaches step allowed start start
  | tail {s s' : σ} {act : Act} (h : Reaches step allowed start s) (hallowed : allowed s act)
      (hstep : step s act = some s') : Reaches step allowed start s'

/-- Every step is allowed. -/
def Any : σ → Act → Prop := fun _ _ => True

variable {step : σ → Act → Option σ} {allowed allowed' : σ → Act → Prop} {start s s' : σ}

namespace Reaches

/-- What holds at the start and is kept by the allowed steps holds in every state reached. -/
theorem keeps {I : σ → Prop} (h : Reaches step allowed start s) (hstart : I start)
    (hstep : ∀ {s s' act}, I s → allowed s act → step s act = some s' → I s') : I s := by
  induction h with
  | refl => exact hstart
  | tail _ hallowed hs ih => exact hstep ih hallowed hs

theorem trans (h : Reaches step allowed start s) (h' : Reaches step allowed s s') :
    Reaches step allowed start s' := by
  induction h' with
  | refl => exact h
  | tail _ hallowed hs ih => exact ih.tail hallowed hs

end Reaches

/-- The state after some actions. -/
def runSchedule (step : σ → Act → Option σ) (s : σ) (acts : List Act) : Option σ :=
  acts.foldlM step s

/-- All actions of a schedule are allowed. -/
def AllowedAll (step : σ → Act → Option σ) (allowed : σ → Act → Prop) : σ → List Act → Prop
  | _, [] => True
  | s, act :: acts => allowed s act ∧
      match step s act with
      | none => True
      | some s' => AllowedAll step allowed s' acts

theorem reaches_of_schedule {acts : List Act} (hallowed : AllowedAll step allowed start acts)
    (h : runSchedule step start acts = some s) : Reaches step allowed start s := by
  induction acts generalizing start with
  | nil =>
      cases h
      exact .refl
  | cons act acts ih =>
      rw [runSchedule, List.foldlM_cons] at h
      rw [AllowedAll] at hallowed
      cases hstep : step start act with
      | none =>
          rw [hstep] at h
          cases h
      | some s₁ =>
          rw [hstep] at h hallowed
          exact (Reaches.refl.tail hallowed.1 hstep).trans (ih hallowed.2 h)

theorem reaches_any {acts : List Act} (h : runSchedule step start acts = some s) :
    Reaches step Any start s := by
  refine reaches_of_schedule ?_ h
  clear h
  induction acts generalizing start with
  | nil => trivial
  | cons act acts ih =>
      refine ⟨trivial, ?_⟩
      cases step start act with
      | none => trivial
      | some s' => exact ih

end MRNet.Interleavings
