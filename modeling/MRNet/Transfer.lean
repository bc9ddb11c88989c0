import Mathlib.Data.List.Basic
import Mathlib.Data.List.Nodup
import Mathlib.Data.List.Range
import Mathlib.Tactic

/-!
# Transfers in parts

A transfer hands a sequence over in steps. Each step takes some of the next items
and gives some of those behind them up for good. What was taken is a prefix of the
whole sequence exactly if nothing is taken after something was given up.
-/
namespace MRNet.Transfer

structure Step (α : Type*) where
  taken : List α
  dropped : List α

variable {α β : Type*}

def takenAll (steps : List (Step α)) : List α := steps.flatMap Step.taken

/-- Everything the steps went over, in order. -/
def passed (steps : List (Step α)) : List α := steps.flatMap fun s => s.taken ++ s.dropped

/-- Nothing is taken after something was dropped. -/
def Undisturbed (steps : List (Step α)) : Prop :=
  steps.Pairwise fun s t => s.dropped ≠ [] → t.taken = []

instance (steps : List (Step α)) : Decidable (Undisturbed steps) :=
  inferInstanceAs (Decidable (List.Pairwise _ _))

@[simp] theorem takenAll_nil : takenAll ([] : List (Step α)) = [] := rfl

@[simp] theorem passed_nil : passed ([] : List (Step α)) = [] := rfl

@[simp] theorem takenAll_cons (s : Step α) (steps : List (Step α)) :
    takenAll (s :: steps) = s.taken ++ takenAll steps := rfl

@[simp] theorem passed_cons (s : Step α) (steps : List (Step α)) :
    passed (s :: steps) = s.taken ++ s.dropped ++ passed steps := rfl

@[simp] theorem takenAll_append (l₁ l₂ : List (Step α)) :
    takenAll (l₁ ++ l₂) = takenAll l₁ ++ takenAll l₂ := List.flatMap_append

@[simp] theorem passed_append (l₁ l₂ : List (Step α)) :
    passed (l₁ ++ l₂) = passed l₁ ++ passed l₂ := List.flatMap_append

theorem takenAll_sublist_passed (steps : List (Step α)) :
    List.Sublist (takenAll steps) (passed steps) := by
  induction steps with
  | nil => exact List.Sublist.refl _
  | cons s steps ih =>
      rw [takenAll_cons, passed_cons]
      exact (List.sublist_append_left _ _).append ih

lemma takenAll_eq_nil {steps : List (Step α)} (h : ∀ s ∈ steps, s.taken = []) :
    takenAll steps = [] := by
  simpa [takenAll, List.flatMap_eq_nil_iff] using h

theorem Undisturbed.isPrefix {steps : List (Step α)} (h : Undisturbed steps) :
    takenAll steps <+: passed steps := by
  induction steps with
  | nil => exact List.prefix_refl _
  | cons s steps ih =>
      obtain ⟨hs, hrest⟩ := List.pairwise_cons.mp h
      rw [takenAll_cons, passed_cons]
      by_cases hd : s.dropped = []
      · rw [hd, List.append_nil]
        exact (List.prefix_append_right_inj _).mpr (ih hrest)
      · rw [takenAll_eq_nil fun t ht => hs t ht hd, List.append_nil, List.append_assoc]
        exact List.prefix_append _ _

/-- With distinct items the converse holds: a prefix shows that nothing was taken
after a gap. -/
theorem undisturbed_of_isPrefix {steps : List (Step α)} (hn : (passed steps).Nodup)
    (h : takenAll steps <+: passed steps) : Undisturbed steps := by
  induction steps with
  | nil => exact List.Pairwise.nil
  | cons s steps ih =>
      rw [passed_cons, List.append_assoc] at hn
      rw [takenAll_cons, passed_cons, List.append_assoc, List.prefix_append_right_inj] at h
      have hn' := (List.nodup_append.mp hn).2.1
      cases hd : s.dropped with
      | nil =>
          rw [hd, List.nil_append] at h hn'
          refine List.pairwise_cons.mpr ⟨fun t _ hne => absurd hd hne, ih hn' h⟩
      | cons x xs =>
          have hnil : takenAll steps = [] := by
            by_contra hne
            obtain ⟨y, ys, hy⟩ := List.exists_cons_of_ne_nil hne
            rw [hd, hy, List.cons_append, List.cons_prefix_cons] at h
            have hmem : y ∈ passed steps :=
              (takenAll_sublist_passed steps).subset (by rw [hy]; exact List.mem_cons_self)
            rw [hd] at hn'
            exact (List.nodup_append.mp hn').2.2 x List.mem_cons_self y hmem h.1.symm
          have hall : ∀ t ∈ steps, t.taken = [] := by
            simpa [takenAll, List.flatMap_eq_nil_iff] using hnil
          have hrest : Undisturbed steps :=
            List.pairwise_of_forall_mem_list fun a _ b hb _ => hall b hb
          exact List.pairwise_cons.mpr ⟨fun t ht _ => hall t ht, hrest⟩

def Step.map (f : α → β) (s : Step α) : Step β := ⟨s.taken.map f, s.dropped.map f⟩

theorem takenAll_map (f : α → β) (steps : List (Step α)) :
    takenAll (steps.map (Step.map f)) = (takenAll steps).map f := by
  simp [takenAll, List.flatMap_map, List.map_flatMap, Step.map]

/-- Whether a transfer is undisturbed does not depend on the items. -/
theorem undisturbed_map_iff (f : α → β) (steps : List (Step α)) :
    Undisturbed (steps.map (Step.map f)) ↔ Undisturbed steps := by
  simp [Undisturbed, List.pairwise_map, Step.map]

/-- A sequence of positions that is not an initial segment of the naturals has a
position out of place. -/
lemma exists_misplaced {l : List ℕ} {n : ℕ} (hl : l.length ≤ n) (h : ¬ l <+: List.range n) :
    ∃ i y : ℕ, l[i]? = some y ∧ y ≠ i := by
  by_contra hall
  push Not at hall
  apply h
  have heq : l = List.range l.length := by
    apply List.ext_getElem (by simp)
    intro i h₁ _
    rw [List.getElem_range]
    exact hall i _ (List.getElem?_eq_getElem h₁)
  rw [heq]
  exact List.prefix_iff_eq_take.mpr (by simp [List.take_range, hl])

end MRNet.Transfer
