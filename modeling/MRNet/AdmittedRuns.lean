import Mathlib.Data.List.Infix

/-!
# Runs and what they admit

A run performs operations one after the other until one of them fails. Where a good state is kept
by the operations that are admitted there, and the others leave the bounds, a run stays in bounds
exactly if all of its operations are admitted. The states of many objects are lists.
-/
namespace AdmittedRuns

variable {S O ε : Type}

def run (perform : S → O → Except ε S) (s : S) (ops : List O) : Except ε S := ops.foldlM perform s

/-- All operations of a run are admitted where they are performed. -/
def Admitted (perform : S → O → Except ε S) (Admits : S → O → Prop) (s : S) (ops : List O) : Prop :=
  ∀ pre op, pre ++ [op] <+: ops → ∀ s', run perform s pre = .ok s' → Admits s' op

/-- The outcome is a good state, or a failure that is in bounds. -/
def Keeps (Good : S → Prop) (InBounds : Except ε S → Prop) (r : Except ε S) : Prop :=
  (∃ s, r = .ok s ∧ Good s) ∨ ∃ e, r = .error e ∧ InBounds r

/-- What is admitted keeps the good states, and what is not leaves the bounds. -/
structure Monitored (perform : S → O → Except ε S) (Good : S → Prop) (Admits : S → O → Prop)
    (InBounds : Except ε S → Prop) : Prop where
  good : ∀ {s}, Good s → InBounds (.ok s)
  keeps : ∀ {s op}, Good s → Admits s op → Keeps Good InBounds (perform s op)
  leaves : ∀ {s op}, Good s → ¬Admits s op → ¬InBounds (perform s op)

variable {perform : S → O → Except ε S} {Good : S → Prop} {Admits : S → O → Prop}
    {InBounds : Except ε S → Prop} {s : S} {ops pre : List O}

lemma run_append (s : S) (ops : List O) (op : O) :
    run perform s (ops ++ [op]) = run perform s ops >>= fun s' => perform s' op := by
  rw [run, List.foldlM_append]
  simp [run]

lemma Admitted.before (h : Admitted perform Admits s ops) (hpre : pre <+: ops) :
    Admitted perform Admits s pre := fun p op hp => h p op (hp.trans hpre)

namespace Monitored

lemma inBounds (h : Monitored perform Good Admits InBounds) {r : Except ε S}
    (hr : Keeps Good InBounds r) : InBounds r := by
  rcases hr with ⟨s', rfl, hgood⟩ | ⟨e, -, hin⟩
  · exact h.good hgood
  · exact hin

lemma run_keeps (h : Monitored perform Good Admits InBounds) (hs : Good s)
    (hadmitted : Admitted perform Admits s ops) : Keeps Good InBounds (run perform s ops) := by
  induction ops using List.reverseRecOn with
  | nil => exact .inl ⟨s, rfl, hs⟩
  | append_singleton ops op ih =>
      rw [run_append]
      rcases ih (hadmitted.before (List.prefix_append ops [op])) with ⟨s', hrun, hs'⟩ | ⟨e, hrun, hin⟩
      · rw [hrun]
        exact h.keeps hs' (hadmitted ops op List.prefix_rfl s' hrun)
      · rw [hrun] at hin ⊢
        exact .inr ⟨e, rfl, hin⟩

lemma admitted_of_inBounds (h : Monitored perform Good Admits InBounds) (hs : Good s)
    (hbounds : ∀ pre, pre <+: ops → InBounds (run perform s pre)) :
    Admitted perform Admits s ops := by
  induction ops using List.reverseRecOn with
  | nil =>
      intro pre op hpre
      exact absurd (List.prefix_nil.mp hpre) (List.concat_ne_nil op pre)
  | append_singleton ops op ih =>
      have hbefore := ih fun pre hpre => hbounds pre (hpre.trans (List.prefix_append ops [op]))
      intro pre op' hpre s' hrun
      rcases List.prefix_concat_iff.mp hpre with heq | hpre
      · obtain ⟨rfl, hlast⟩ := List.append_inj' heq rfl
        obtain rfl := List.singleton_inj.mp hlast
        by_contra hadmits
        -- the states before were all good, so this operation leaves the bounds
        rcases h.run_keeps hs hbefore with ⟨t, hok, ht⟩ | ⟨e, herror, -⟩
        · obtain rfl := Except.ok.inj (hrun.symm.trans hok)
          have hin := hbounds _ List.prefix_rfl
          rw [run_append, hrun] at hin
          exact h.leaves ht hadmits hin
        · cases hrun.symm.trans herror
      · exact hbefore pre op' hpre s' hrun

theorem run_inBounds_iff (h : Monitored perform Good Admits InBounds) (hs : Good s) :
    (∀ pre, pre <+: ops → InBounds (run perform s pre)) ↔ Admitted perform Admits s ops :=
  ⟨h.admitted_of_inBounds hs, fun hadmitted _ hpre =>
    h.inBounds (h.run_keeps hs (hadmitted.before hpre))⟩

end Monitored

variable {σ : Type} {objects : List σ} {i : ℕ} {f : σ → Except ε σ} {a : σ}

/-- An object is replaced by what is made of it. The operation fails if there is no such
object. -/
def update (missing : ε) (objects : List σ) (i : ℕ) (f : σ → Except ε σ) : Except ε (List σ) :=
  match objects[i]? with
  | none => .error missing
  | some a => do
      let a ← f a
      return objects.set i a

lemma update_some {missing : ε} (ha : objects[i]? = some a) :
    update missing objects i f = f a >>= fun a => .ok (objects.set i a) := by
  simp only [update, ha]
  rfl

/-- One object is good. -/
lemma update_keeps {P : σ → Prop} {InBounds : Except ε (List σ) → Prop} {missing : ε}
    (h : ∀ a ∈ objects, P a) (hmissing : InBounds (.error missing))
    (hf : ∀ a, objects[i]? = some a → P a →
      (∃ b, f a = .ok b ∧ P b) ∨ ∃ e, f a = .error e ∧ InBounds (.error e)) :
    Keeps (fun objects => ∀ a ∈ objects, P a) InBounds (update missing objects i f) := by
  cases ha : objects[i]? with
  | none =>
      rw [update, ha]
      exact .inr ⟨missing, rfl, hmissing⟩
  | some a =>
      rw [update_some ha]
      rcases hf a ha (h a (List.mem_of_getElem? ha)) with ⟨b, hb, hgood⟩ | ⟨e, he, hin⟩
      · rw [hb]
        refine .inl ⟨objects.set i b, rfl, fun c hc => ?_⟩
        rcases List.mem_or_eq_of_mem_set hc with hc | rfl
        · exact h c hc
        · exact hgood
      · rw [he]
        exact .inr ⟨e, rfl, hin⟩

end AdmittedRuns
