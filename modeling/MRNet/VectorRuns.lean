import MRNet.AdmittedRuns
import MRNet.VectorErasure

/-!
# Runs of lightweight vectors

Any sequence of operations on any number of vectors. Stores and copies stay inside of the
allocated arrays as long as no element is taken from an empty vector, and none is put into a
vector that a copy has filled.
-/
namespace MRNet.LightweightVector
open Codec Buffers AdmittedRuns

/-- An operation on vectors that are known by the order in which they were made. -/
inductive Op where
  | newEmptyVector
  | pushBackElement (i : ℕ) (elem : Ptr)
  | popBackElement (i : ℕ)
  | copyVector (fromvec tovec : ℕ)
  | eraseElement (i : ℕ) (elem : Ptr)
  | clear (i : ℕ)

def perform (mem : Memory) (vs : List VectorT) : Op → Outcome (List VectorT)
  | .newEmptyVector => do
      let v ← newEmptyVectorT mem
      return vs ++ [v]
  | .pushBackElement i elem =>
      update .refused vs i fun v => LightweightVector.pushBackElement mem v elem
  | .popBackElement i => update .refused vs i fun v => do
      let (_, v) ← LightweightVector.popBackElement v
      return v
  | .copyVector fromvec tovec =>
      match vs[fromvec]? with
      | none => .error .refused
      | some v => update .refused vs tovec fun v' => LightweightVector.copyVector mem v v'
  | .eraseElement i elem => update .refused vs i fun v => LightweightVector.eraseElement v elem
  | .clear i => update .refused vs i fun v => return LightweightVector.clear v

/-- Sizes are within what is allocated, and no access was outside. -/
def InBounds : Outcome (List VectorT) → Prop
  | .ok vs => ∀ v ∈ vs, v.vec.length = v.allocSize.toNat ∧ v.size ≤ v.allocSize
  | .error stop => stop ≠ .fault .storePast ∧ stop ≠ .fault .readPast

/-- No element is taken from an empty vector, and none is put into a full one. -/
def Admits (vs : List VectorT) : Op → Prop
  | .popBackElement i => ∀ v, vs[i]? = some v → v.size ≠ 0
  | .pushBackElement i _ => ∀ v, vs[i]? = some v → v.size ≠ v.allocSize
  | _ => True

variable {mem : Memory} {vs vs' : List VectorT} {op : Op} {i : ℕ} {v : VectorT}

/-- Each vector has its elements. -/
def AllHold (vs : List VectorT) : Prop := ∀ v ∈ vs, ∃ l, v.Holds l

lemma AllHold.inBounds (h : AllHold vs) : InBounds (.ok vs) := by
  intro v hv
  obtain ⟨l, hl⟩ := h v hv
  exact ⟨hl.length_vec, hl.size_le⟩

lemma inBounds_of_harmless : InBounds (.error .refused) ∧ InBounds (.error (.fault .assertion)) :=
  ⟨⟨by decide, by decide⟩, by decide, by decide⟩

lemma update_holds {f : VectorT → Outcome VectorT} (h : AllHold vs)
    (hf : ∀ v l, vs[i]? = some v → v.Holds l → ∃ l', Makes (f v) l') :
    Keeps AllHold InBounds (update .refused vs i f) := by
  refine update_keeps h inBounds_of_harmless.1 fun v hv ⟨l, hl⟩ => ?_
  obtain ⟨l', hfail | ⟨v', hok, hv'⟩⟩ := hf v l hv hl
  · exact .inr ⟨_, hfail, inBounds_of_harmless.2⟩
  · exact .inl ⟨v', hok, l', hv'⟩

/-- One operation. -/
lemma perform_keeps (h : AllHold vs) (hadmits : Admits vs op) :
    Keeps AllHold InBounds (perform mem vs op) := by
  cases op with
  | newEmptyVector =>
      rcases newEmptyVectorT_makes mem with hfail | ⟨v, hok, hv⟩
      · rw [perform, hfail]
        exact .inr ⟨_, rfl, inBounds_of_harmless.2⟩
      · rw [perform, hok]
        refine .inl ⟨vs ++ [v], rfl, fun w hw => ?_⟩
        rcases List.mem_append.mp hw with hw | hw
        · exact h w hw
        · exact ⟨[], List.mem_singleton.mp hw ▸ hv⟩
  | pushBackElement i elem =>
      exact update_holds h fun v l hv hl => ⟨_, pushBackElement_makes mem hl (hadmits v hv) elem⟩
  | popBackElement i =>
      refine update_holds h fun v l hv hl => ?_
      have hne : l ≠ [] := by
        rintro rfl
        exact hadmits v hv (BitVec.eq_of_toNat_eq hl.size_eq)
      rw [← List.dropLast_append_getLast hne] at hl
      obtain ⟨hpop, hholds⟩ := popBackElement_ok hl
      exact ⟨_, .inr ⟨_, by rw [hpop]; rfl, hholds⟩⟩
  | copyVector fromvec tovec =>
      rw [perform]
      cases hfrom : vs[fromvec]? with
      | none => exact .inr ⟨_, rfl, inBounds_of_harmless.1⟩
      | some v =>
          obtain ⟨l, hl⟩ := h v (List.mem_of_getElem? hfrom)
          exact update_holds h fun v' l' _ hl' => ⟨l, copyVector_makes mem hl hl'⟩
  | eraseElement i elem =>
      refine update_holds h fun v l _ hl => ?_
      obtain ⟨v', hrun, hv'⟩ := eraseElement_spec hl elem
      exact ⟨_, .inr ⟨v', hrun, hv'⟩⟩
  | clear i => exact update_holds h fun v l _ hl => ⟨[], .inr ⟨_, rfl, clear_holds hl⟩⟩

/-- What is not admitted leaves the bounds. -/
lemma perform_leaves (h : AllHold vs) (hadmits : ¬Admits vs op) :
    ¬InBounds (perform mem vs op) := by
  cases op with
  | pushBackElement i elem =>
      simp only [Admits, not_forall, not_not] at hadmits
      obtain ⟨v, hv, hfull⟩ := hadmits
      obtain ⟨l, hl⟩ := h v (List.mem_of_getElem? hv)
      rw [perform, update_some hv, pushBackElement_full hl hfull]
      exact fun hin => hin.1 rfl
  | popBackElement i =>
      simp only [Admits, not_forall, not_not] at hadmits
      obtain ⟨v, hv, hempty⟩ := hadmits
      obtain ⟨l, hl⟩ := h v (List.mem_of_getElem? hv)
      have hnil : l = [] := List.length_eq_zero_iff.mp (by rw [← hl.size_eq, hempty]; rfl)
      subst hnil
      rw [perform, update_some hv, popBackElement_empty hl]
      intro hin
      have hlt := hl.alloc_lt
      have hmem := List.mem_set (List.getElem?_eq_some_iff.mp hv).1
        { v with size := BitVec.allOnes 64 }
      have hle := BitVec.le_def.mp (hin _ hmem).2
      rw [BitVec.toNat_allOnes] at hle
      dsimp only at hle
      omega
  | newEmptyVector | copyVector | eraseElement | clear => exact absurd trivial hadmits

lemma monitored (mem : Memory) : Monitored (perform mem) AllHold Admits InBounds :=
  ⟨AllHold.inBounds, perform_keeps, perform_leaves⟩

/-- The run stays in bounds exactly if each of its operations is admitted. -/
theorem vectors_inBounds_iff (mem : Memory) (ops : List Op) :
    (∀ pre, pre <+: ops → InBounds (run (perform mem) [] pre)) ↔
      Admitted (perform mem) Admits [] ops :=
  (monitored mem).run_inBounds_iff fun _ hv => absurd hv List.not_mem_nil

/-- A vector with 64 elements is copied to a new one, which has 64 cells, and then one more is
put there. -/
theorem vectors_not_inBounds : ¬∀ (mem : Memory) (ops pre : List Op), pre <+: ops →
    InBounds (run (perform mem) [] pre) := by
  intro hbounds
  have hwhole (mem : Memory) (ops : List Op) {r : Outcome (List VectorT)}
      (h : run (perform mem) [] ops = r) : InBounds r := h ▸ hbounds mem ops ops List.prefix_rfl
  have hrun : run (perform ⟨4096, by decide⟩) [] (.newEmptyVector :: .newEmptyVector ::
      (List.replicate 64 (.pushBackElement 0 7) ++ [.copyVector 0 1, .pushBackElement 1 7])) =
        .error (.fault .storePast) := by
    decide +kernel
  exact (hwhole _ _ hrun).1 rfl

end MRNet.LightweightVector
