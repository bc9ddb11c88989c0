import Mathlib.Data.Finset.Card
import Mathlib.Data.List.Range
import Mathlib.Tactic

/-!
# Numbered work in the hands of workers

Pieces of work are numbered as they come. A worker without work takes the next piece, and hands it
over when it is done. The pieces that were handed over are listed in this order; the other ones
are in the hands of the workers.
-/
namespace MRNet.WorkInHand

variable {κ : Type} {workers : Finset κ} {count : ℕ} {order : List ℕ} {number : κ → Option ℕ}
  {c : κ} {k : ℕ}

structure Numbering (workers : Finset κ) (count : ℕ) (order : List ℕ) (number : κ → Option ℕ) :
    Prop where
  order_lt : ∀ k ∈ order, k < count
  number_lt : ∀ c ∈ workers, ∀ k, number c = some k → k < count
  nodup : order.Nodup
  undone : ∀ c ∈ workers, ∀ k, number c = some k → k ∉ order
  apart : ∀ c ∈ workers, ∀ c' ∈ workers, ∀ k, number c = some k → number c' = some k → c = c'
  all : ∀ k < count, k ∈ order ∨ ∃ c ∈ workers, number c = some k

namespace Numbering

lemma none (workers : Finset κ) : Numbering workers 0 [] fun _ => .none where
  order_lt := fun k hk => by cases hk
  number_lt := fun c _ k hk => by cases hk
  nodup := List.nodup_nil
  undone := fun c _ k hk => by cases hk
  apart := fun c _ c' _ k hk => by cases hk
  all := fun k hk => by cases hk

section Work
variable [DecidableEq κ]

/-- A worker takes the next piece. -/
lemma start (h : Numbering workers count order number) (hc : c ∈ workers)
    (hnone : number c = .none) :
    Numbering workers (count + 1) order (Function.update number c (some count)) := by
  have hself : Function.update number c (some count) c = some count := Function.update_self ..
  have hother : ∀ c' ≠ c, Function.update number c (some count) c' = number c' :=
    fun c' hne => Function.update_of_ne hne ..
  have hcases : ∀ c' ∈ workers, ∀ k, Function.update number c (some count) c' = some k →
      (c' = c ∧ k = count) ∨ (c' ≠ c ∧ number c' = some k ∧ k < count) := by
    intro c' hc' k hk
    by_cases hne : c' = c
    · subst hne
      rw [hself] at hk
      exact .inl ⟨rfl, (Option.some.inj hk).symm⟩
    · rw [hother c' hne] at hk
      exact .inr ⟨hne, hk, h.number_lt c' hc' k hk⟩
  refine ⟨fun k hk => Nat.lt_succ_of_lt (h.order_lt k hk), fun c' hc' k hk => ?_, h.nodup,
    fun c' hc' k hk hmem => ?_, fun c₁ h₁ c₂ h₂ k hk₁ hk₂ => ?_, fun k hk => ?_⟩
  · rcases hcases c' hc' k hk with ⟨-, rfl⟩ | ⟨-, -, hlt⟩
    · exact Nat.lt_succ_self _
    · exact Nat.lt_succ_of_lt hlt
  · rcases hcases c' hc' k hk with ⟨-, rfl⟩ | ⟨-, hk', -⟩
    · exact lt_irrefl _ (h.order_lt _ hmem)
    · exact h.undone c' hc' k hk' hmem
  · rcases hcases c₁ h₁ k hk₁ with ⟨rfl, rfl⟩ | ⟨-, hk₁', hlt₁⟩
    · rcases hcases c₂ h₂ _ hk₂ with ⟨rfl, -⟩ | ⟨-, -, hlt₂⟩
      · rfl
      · exact absurd hlt₂ (lt_irrefl _)
    · rcases hcases c₂ h₂ k hk₂ with ⟨-, rfl⟩ | ⟨-, hk₂', -⟩
      · exact absurd hlt₁ (lt_irrefl _)
      · exact h.apart c₁ h₁ c₂ h₂ k hk₁' hk₂'
  · rcases Nat.lt_succ_iff_lt_or_eq.mp hk with hlt | rfl
    · rcases h.all k hlt with hmem | ⟨c', hc', hk'⟩
      · exact .inl hmem
      · have hne : c' ≠ c := by
          rintro rfl
          rw [hnone] at hk'
          cases hk'
        exact .inr ⟨c', hc', (hother c' hne).trans hk'⟩
    · exact .inr ⟨c, hc, hself⟩

/-- A worker hands its piece over. -/
lemma finish (h : Numbering workers count order number) (hc : c ∈ workers)
    (hk : number c = some k) :
    Numbering workers count (order ++ [k]) (Function.update number c .none) := by
  have hcases : ∀ c' k', Function.update number c .none c' = some k' →
      c' ≠ c ∧ number c' = some k' := by
    intro c' k' hk'
    by_cases hne : c' = c
    · subst hne
      rw [Function.update_self] at hk'
      cases hk'
    · rw [Function.update_of_ne hne] at hk'
      exact ⟨hne, hk'⟩
  refine ⟨fun k' hmem => ?_, fun c' hc' k' hk' => h.number_lt c' hc' k' (hcases c' k' hk').2, ?_,
    fun c' hc' k' hk' hmem => ?_, fun c₁ h₁ c₂ h₂ k' hk₁ hk₂ => ?_, fun k' hlt => ?_⟩
  · rcases List.mem_append.mp hmem with hmem | hmem
    · exact h.order_lt k' hmem
    · rw [List.mem_singleton.mp hmem]
      exact h.number_lt c hc k hk
  · refine List.nodup_append.mpr ⟨h.nodup, List.nodup_singleton k, fun a ha b hb hab => ?_⟩
    rw [List.mem_singleton.mp hb] at hab
    exact h.undone c hc k hk (hab ▸ ha)
  · obtain ⟨hne, hk'⟩ := hcases c' k' hk'
    rcases List.mem_append.mp hmem with hmem | hmem
    · exact h.undone c' hc' k' hk' hmem
    · rw [List.mem_singleton.mp hmem] at hk'
      exact hne (h.apart c' hc' c hc k hk' hk)
  · exact h.apart c₁ h₁ c₂ h₂ k' (hcases c₁ k' hk₁).2 (hcases c₂ k' hk₂).2
  · rcases h.all k' hlt with hmem | ⟨c', hc', hk'⟩
    · exact .inl (List.mem_append_left _ hmem)
    · by_cases hne : c' = c
      · subst hne
        rw [hk] at hk'
        cases hk'
        exact .inl (List.mem_append_right _ List.mem_cons_self)
      · exact .inr ⟨c', hc', by rw [Function.update_of_ne hne, hk']⟩

end Work

/-- If only one worker has work, then the order is complete but for its piece. -/
lemma eq_of_single (h : Numbering workers count order number) (horder : order = List.range order.length)
    (hsingle : ∀ c' ∈ workers, number c' ≠ .none → c' = c) (hc : c ∈ workers)
    (hk : number c = some k) : k = order.length ∧ count = order.length + 1 := by
  have hmem : ∀ k', k' ∈ order ↔ k' < order.length := by
    intro k'
    rw [horder, List.mem_range, List.length_range]
  have hundone : ∀ k' < count, ¬k' < order.length → k' = k := by
    intro k' hlt hnot
    rcases h.all k' hlt with hk' | ⟨c', hc', hk'⟩
    · exact absurd ((hmem k').mp hk') hnot
    · obtain rfl := hsingle c' hc' (by rw [hk']; exact Option.some_ne_none k')
      exact Option.some.inj (hk'.symm.trans hk)
  have hge : ¬k < order.length := fun hlt => h.undone c hc k hk ((hmem k).mpr hlt)
  have hlt := h.number_lt c hc k hk
  have hfirst : order.length = k := hundone _ (by omega) (lt_irrefl _)
  have hlast : ¬order.length + 1 < count := by
    intro hmore
    have := hundone (order.length + 1) hmore (by omega)
    omega
  omega

end Numbering

end MRNet.WorkInHand
