import MRNet.LightweightVector
import Mathlib.Data.List.Infix

/-!
# Erasure from a lightweight vector

The elements behind an erased one move up by one place, and the scan goes on behind the place.
So the element that moved there is not looked at.
-/
namespace MRNet.LightweightVector
open Codec Buffers

section Scan
variable {α : Type} {e : α}

lemma pair_infix_cons {x : α} {l : List α} :
    [e, e] <:+: x :: l ↔ x = e ∧ l.head? = some e ∨ [e, e] <:+: l := by
  rw [List.infix_cons_iff, List.cons_prefix_cons, List.singleton_prefix_iff_head?_eq_some,
    eq_comm (a := e)]

variable [DecidableEq α]

/-- The element behind an erased one is kept. -/
def skimmed (e : α) : List α → List α
  | [] => []
  | [x] => if x = e then [] else [x]
  | x :: y :: l => if x = e then y :: skimmed e l else x :: skimmed e (y :: l)

lemma skimmed_cons_of_ne {x : α} (h : x ≠ e) (l : List α) :
    skimmed e (x :: l) = x :: skimmed e l := by
  cases l with
  | nil => exact if_neg h
  | cons y l => exact if_neg h

lemma skimmed_cons_self (l : List α) : skimmed e (e :: l) = l.take 1 ++ skimmed e (l.drop 1) := by
  cases l with
  | nil => exact if_pos rfl
  | cons y l => exact if_pos rfl

/-- All occurrences are gone unless there are two beside each other. -/
theorem skimmed_eq_filter_iff (l : List α) :
    skimmed e l = l.filter (· ≠ e) ↔ ¬[e, e] <:+: l := by
  induction l using skimmed.induct e with
  | case1 => simp [skimmed]
  | case2 => simp [skimmed, pair_infix_cons]
  | case3 x hx => simp [skimmed, pair_infix_cons, hx]
  | case4 y l ih =>
      rw [skimmed_cons_self, pair_infix_cons, pair_infix_cons]
      by_cases hy : y = e
      · subst hy
        have hkept : y ∉ (y :: y :: l).filter (· ≠ y) := by simp
        refine iff_of_false (fun heq => hkept (heq ▸ ?_)) (by simp)
        simp
      · rw [List.filter_cons_of_neg (by simp), List.filter_cons_of_pos (by simpa using hy)]
        simpa [hy] using ih
  | case5 x y l hx ih =>
      rw [skimmed_cons_of_ne hx, List.filter_cons_of_pos (by simpa using hx), List.cons_inj_right,
        ih, pair_infix_cons (x := x)]
      simp only [hx, false_and, false_or]

end Scan

variable {v : VectorT} {pre rest l : List Ptr} {elem x : Ptr} {i : BitVec 64} {fuel : ℕ}

lemma eraseLoop_done (h : v.size ≤ i) (hfuel : 0 < fuel) : eraseLoop elem fuel i v = .ok v := by
  obtain ⟨n, rfl⟩ := Nat.exists_eq_succ_of_ne_zero hfuel.ne'
  exact if_neg (BitVec.not_lt.mpr h)

/-- The elements behind the place are moved, or there are none. -/
lemma VectorT.Holds.shift (h : v.Holds (pre ++ x :: rest)) (hi : i.toNat = pre.length) :
    ∃ vec, VectorT.Holds { v with vec, size := v.size - 1 } (pre ++ rest) ∧
      ∀ f : Block Ptr → Outcome VectorT, (if i ≠ v.size - 1 then
        shiftElements v.vec v.size.toNat i.toNat >>= f else pure v.vec >>= f) = f vec := by
  obtain ⟨free, hvec⟩ := h.written
  have hsize := h.size_eq
  have hlen := h.length_vec
  have hle := h.length_le
  rw [List.length_append, List.length_cons] at hsize hle
  have hless : (v.size - 1).toNat = (pre ++ rest).length := by
    rw [List.length_append]
    bv_omega
  by_cases hlast : i = v.size - 1
  · have hnil : rest = [] := by
      rw [hlast, hless, List.length_append] at hi
      exact List.length_eq_zero_iff.mp (by omega)
    subst hnil
    exact ⟨v.vec, ⟨⟨some x :: free, by simp [hvec]⟩, hless, hlen, h.alloc_lt⟩,
      fun f => if_neg (not_not.mpr hlast)⟩
  · have htake : v.vec.take i.toNat = pre.map some := by
      rw [hvec, hi, List.map_append, List.append_assoc]
      exact List.take_left' (List.length_map _)
    have hdrop : v.vec.drop (i.toNat + 1) = rest.map some ++ free := by
      rw [hvec, hi, List.map_append, List.append_assoc, ← List.drop_drop,
        List.drop_left' (List.length_map _)]
      rfl
    have hmoved : v.size.toNat - (i.toNat + 1) = rest.length := by omega
    have hrun : shiftElements v.vec v.size.toNat i.toNat = .ok (v.vec.take i.toNat ++
        (v.vec.drop (i.toNat + 1)).take (v.size.toNat - (i.toNat + 1)) ++
          v.vec.drop (v.size.toNat - 1)) := if_neg (by omega)
    rw [htake, hdrop, hmoved, List.take_left' (List.length_map _), ← List.map_append] at hrun
    refine ⟨_, ⟨⟨v.vec.drop (v.size.toNat - 1), rfl⟩, hless, ?_, h.alloc_lt⟩, fun f => ?_⟩
    · rw [← hlen, List.length_append, List.length_map, List.length_append, List.length_drop]
      omega
    · rw [if_pos hlast, hrun]
      rfl

theorem eraseLoop_spec (h : v.Holds (pre ++ rest)) (hi : i.toNat = pre.length)
    (hfuel : rest.length < fuel) : ∃ v', eraseLoop elem fuel i v = .ok v' ∧
      v'.Holds (pre ++ skimmed elem rest) := by
  induction fuel generalizing v pre rest i with
  | zero => omega
  | succ fuel ih =>
      have hsize := h.size_eq
      have hlt := h.length_le.trans_lt h.alloc_lt
      rw [List.length_append] at hsize hlt
      have hnext : (i + 1).toNat = pre.length + 1 := by bv_omega
      cases rest with
      | nil =>
          have hend : v.size ≤ i := by
            rw [BitVec.le_def, hsize, hi]
            rfl
          exact ⟨v, eraseLoop_done hend (Nat.succ_pos fuel), h⟩
      | cons x rest =>
          rw [List.length_cons] at hsize hfuel hlt
          have hinside : i < v.size := by
            rw [BitVec.lt_def]
            omega
          have hread : readAt v.vec i.toNat = .ok x := h.readAt (by simp [hi])
          rw [eraseLoop, if_pos hinside, hread]
          change ∃ v', (if x = elem then _ else _) = _ ∧ _
          by_cases hx : x = elem
          · obtain ⟨vec, hholds, hshift⟩ := h.shift hi
            rw [if_pos hx, hshift, hx, skimmed_cons_self]
            cases rest with
            | nil =>
                refine ⟨_, eraseLoop_done ?_ (by simpa using hfuel), hholds⟩
                rw [BitVec.le_def, hholds.size_eq, hnext]
                simp
            | cons y rest =>
                have hpre : pre ++ y :: rest = pre ++ [y] ++ rest := by simp
                rw [hpre] at hholds
                obtain ⟨v', hrun, hv'⟩ := @ih _ _ _ (i + 1) hholds (by simpa using hnext) (by
                  rw [List.length_cons] at hfuel
                  omega)
                exact ⟨v', hrun, by simpa using hv'⟩
          · rw [if_neg hx, skimmed_cons_of_ne hx]
            have hpre : pre ++ x :: rest = pre ++ [x] ++ rest := by simp
            rw [hpre] at h
            obtain ⟨v', hrun, hv'⟩ := @ih _ _ _ (i + 1) h (by simpa using hnext) (by omega)
            exact ⟨v', hrun, by simpa using hv'⟩

theorem eraseElement_spec (h : v.Holds l) (elem : Ptr) :
    ∃ v', eraseElement v elem = .ok v' ∧ v'.Holds (skimmed elem l) :=
  @eraseLoop_spec v [] l elem 0 _ h rfl (by rw [h.size_eq]; exact Nat.lt_succ_self _)

lemma VectorT.Holds.unique {l' : List Ptr} (h : v.Holds l) (h' : v.Holds l') : l = l' := by
  have heq := h.take_eq
  rw [← h.size_eq, h'.size_eq, h'.take_eq] at heq
  exact (List.map_injective_iff.mpr (Option.some_injective _) heq).symm

/-- The elements that are not the given one, in their order. -/
def ErasedAll (v : VectorT) (l : List Ptr) (elem : Ptr) : Prop :=
  ∃ v', eraseElement v elem = .ok v' ∧ v'.Holds (l.filter (· ≠ elem)) ∧
    v'.size.toNat + l.count elem = v.size.toNat

/-- All occurrences are erased unless two of them are neighbours. -/
theorem eraseElement_all_iff (h : v.Holds l) (elem : Ptr) :
    ErasedAll v l elem ↔ ¬[elem, elem] <:+: l := by
  obtain ⟨v', hrun, hv'⟩ := eraseElement_spec h elem
  rw [← skimmed_eq_filter_iff]
  constructor
  · rintro ⟨w, hw, hholds, -⟩
    obtain rfl := Except.ok.inj (hrun.symm.trans hw)
    exact hv'.unique hholds
  · intro heq
    rw [heq] at hv'
    refine ⟨v', hrun, hv', ?_⟩
    have hsplit := List.length_eq_length_filter_add (l := l) (fun x => decide (x ≠ elem))
    have hcount : l.count elem = (l.filter fun x => !decide (x ≠ elem)).length := by
      rw [List.count_eq_length_filter]
      congr 2
      funext x
      simp [beq_eq_decide]
    rw [hv'.size_eq, h.size_eq, hsplit, hcount]

/-- Two of five elements are erased, and the others keep their order. -/
theorem eraseElement_all_apart :
    ErasedAll ⟨[some 3, some 7, some 5, some 7, some 9, none, none], 5, 7⟩ [3, 7, 5, 7, 9] 7 :=
  (eraseElement_all_iff ⟨⟨[none, none], rfl⟩, rfl, rfl, by decide⟩ 7).mpr (by decide)

/-- Of two equal elements beside each other one is left. -/
theorem eraseElement_not_all : ¬∀ (v : VectorT) (l : List Ptr) (elem : Ptr), v.Holds l →
    ErasedAll v l elem := by
  intro hall
  obtain ⟨v', hrun, hholds, -⟩ := hall ⟨[some 7, some 7], 2, 2⟩ [7, 7] 7
    ⟨⟨[], rfl⟩, rfl, rfl, by decide⟩
  have hsize := hholds.size_eq
  cases hrun
  exact absurd hsize (by decide)

end MRNet.LightweightVector
