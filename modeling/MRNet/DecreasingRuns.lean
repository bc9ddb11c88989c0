import Mathlib.Tactic
import MRNet.Interleavings

/-!
# Runs that come to an end

Where the steps of a kind keep an invariant and make a measure smaller, only finitely many of them
can follow each other, and a state in which none is left can be reached from every state.
-/
namespace MRNet.Interleavings

variable {σ Act : Type}

structure Decreases (step : σ → Act → Option σ) (kind : σ → Act → Prop) (I : σ → Prop)
    (measure : σ → ℕ) : Prop where
  keeps : ∀ {s act s'}, I s → kind s act → step s act = some s' → I s'
  drops : ∀ {s act s'}, I s → kind s act → step s act = some s' → measure s' < measure s

/-- No step of the kind is left. -/
def Rests (step : σ → Act → Option σ) (kind : σ → Act → Prop) (s : σ) : Prop :=
  ∀ act, kind s act → step s act = none

variable {step : σ → Act → Option σ} {kind : σ → Act → Prop} {I : σ → Prop} {measure : σ → ℕ}
  {s s' : σ}

lemma allowedAll_of_forall {P : Act → Prop} {acts : List Act} (h : ∀ act ∈ acts, P act) :
    AllowedAll step (fun _ act => P act) s acts := by
  induction acts generalizing s with
  | nil => trivial
  | cons act acts ih =>
      refine ⟨h act List.mem_cons_self, ?_⟩
      cases step s act with
      | none => trivial
      | some s' => exact ih fun act hact => h act (List.mem_cons_of_mem _ hact)

namespace Decreases

theorem length_le (h : Decreases step kind I measure) (hI : I s) {acts : List Act}
    (hkind : AllowedAll step kind s acts) (hrun : runSchedule step s acts = some s') :
    acts.length ≤ measure s := by
  induction acts generalizing s with
  | nil => exact Nat.zero_le _
  | cons act acts ih =>
      rw [runSchedule, List.foldlM_cons] at hrun
      obtain ⟨s₁, hstep, hrest⟩ := Option.bind_eq_some_iff.mp hrun
      rw [AllowedAll, hstep] at hkind
      have hle := ih (h.keeps hI hkind.1 hstep) hkind.2 hrest
      have hlt := h.drops hI hkind.1 hstep
      rw [List.length_cons]
      omega

theorem exists_rest (h : Decreases step kind I measure) (hI : I s) :
    ∃ s', Reaches step kind s s' ∧ I s' ∧ Rests step kind s' := by
  induction hn : measure s using Nat.strong_induction_on generalizing s with
  | _ n ih =>
      by_cases hrest : Rests step kind s
      · exact ⟨s, .refl, hI, hrest⟩
      · rw [Rests] at hrest
        push Not at hrest
        obtain ⟨act, hkind, hsome⟩ := hrest
        obtain ⟨s₁, hstep⟩ := Option.ne_none_iff_exists'.mp hsome
        have hlt := h.drops hI hkind hstep
        obtain ⟨s', hrun, hI', hrest'⟩ := ih _ (hn ▸ hlt) (h.keeps hI hkind hstep) rfl
        exact ⟨s', (Reaches.refl.tail hkind hstep).trans hrun, hI', hrest'⟩

end Decreases

end MRNet.Interleavings
