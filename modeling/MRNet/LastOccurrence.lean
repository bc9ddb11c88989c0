import Mathlib.Data.List.Induction

/-!
# The last element with a property

What a list of events leads to may depend on the last event of some kind, where the kind of an
event depends on the events before it.
-/
namespace MRNet.LastOccurrence
variable {α : Type} {P : List α → α → Prop} {xs before before' after after' : List α} {x x' : α}

/-- No element has the property, given those before it. -/
def Never (P : List α → α → Prop) (xs : List α) : Prop :=
  ∀ before x after, xs = before ++ x :: after → ¬P before x

/-- The element has the property, given those before it, and no later one has. -/
structure Last (P : List α → α → Prop) (xs before : List α) (x : α) (after : List α) : Prop where
  split : xs = before ++ x :: after
  holds : P before x
  later : Never (fun mid => P (before ++ x :: mid)) after

/-- There is one last element. -/
lemma Last.unique (h : Last P xs before x after) (h' : Last P xs before' x' after') :
    before = before' ∧ x = x' ∧ after = after' := by
  have hsplit := h.split.symm.trans h'.split
  rcases List.append_eq_append_iff.mp hsplit with ⟨mid, rfl, hmid⟩ | ⟨mid, rfl, hmid⟩
  · cases mid with
    | nil =>
        cases hmid
        exact ⟨(List.append_nil _).symm, rfl, rfl⟩
    | cons y mid =>
        cases hmid
        exact absurd h'.holds (h.later mid x' after' rfl)
  · cases mid with
    | nil =>
        cases hmid
        exact ⟨List.append_nil _, rfl, rfl⟩
    | cons y mid =>
        cases hmid
        exact absurd h.holds (h'.later mid x after rfl)

end MRNet.LastOccurrence
