import MRNet.Codec

/-!
# Runs with fuel

A loop whose end is not plain from its definition is given fuel. It returns if some amount of
fuel, and every larger one, gives the same result.
-/
namespace MRNet.Wire
open Codec

/-- A run that is given fuel for its loops. -/
abbrev Run (α : Type) := ExceptT Stop Option α

variable {α β : Type}

lemma run_bind_eq_pure {x : Run α} {f : α → Run β} {b : β} :
    x >>= f = pure b ↔ ∃ a, x = pure a ∧ f a = pure b := by
  constructor
  · intro h
    rcases x with _ | ⟨_ | a⟩
    · cases h
    · cases h
    · exact ⟨a, rfl, h⟩
  · rintro ⟨a, rfl, hf⟩
    rw [pure_bind, hf]

lemma lift_eq_pure {r : Outcome α} {a : α} : (liftM r : Run α) = pure a ↔ r = .ok a := by
  constructor
  · intro h
    exact Option.some.inj h
  · rintro rfl
    rfl

/-- With enough fuel the run comes to an end. -/
def Returns (m : ℕ → Run α) (a : α) : Prop := ∃ n, ∀ fuel ≥ n, m fuel = pure a

lemma Returns.of_pure (a : α) : Returns (fun _ => pure a) a := ⟨0, fun _ _ => rfl⟩

lemma Returns.unique {m : ℕ → Run α} {a b : α} (ha : Returns m a) (hb : Returns m b) : a = b := by
  obtain ⟨n, hn⟩ := ha
  obtain ⟨k, hk⟩ := hb
  have heq := (hn (max n k) (le_max_left n k)).symm.trans (hk (max n k) (le_max_right n k))
  cases heq
  rfl

lemma Returns.bind {m : ℕ → Run α} {f : ℕ → α → Run β} {a : α} {b : β} (h : Returns m a)
    (hf : Returns (fun fuel => f fuel a) b) : Returns (fun fuel => m fuel >>= f fuel) b := by
  obtain ⟨n, hn⟩ := h
  obtain ⟨k, hk⟩ := hf
  refine ⟨max n k, fun fuel hfuel => ?_⟩
  dsimp only
  rw [hn fuel (le_trans (le_max_left n k) hfuel), pure_bind]
  exact hk fuel (le_trans (le_max_right n k) hfuel)

lemma Returns.lift {r : Outcome α} {f : ℕ → α → Run β} {a : α} {b : β} (h : r = .ok a)
    (hf : Returns (fun fuel => f fuel a) b) :
    Returns (fun fuel => (liftM r : Run α) >>= f fuel) b :=
  Returns.bind ⟨0, fun _ _ => lift_eq_pure.mpr h⟩ hf

end MRNet.Wire
