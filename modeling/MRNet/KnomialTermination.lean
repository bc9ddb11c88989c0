import MRNet.KnomialRuns

/-!
# Termination of the k-nomial generator

A factor of one gives no node a child, and the rounds go on as long as there are free slots and
nodes are wanted. With every other factor a round places a node at least, and the runs end.
-/
namespace MRNet.TopologyFile
open Codec
open Wire (Run Returns)

namespace KnomialTree

variable {address : Name → ℕ} {hostNameMax : ℕ} {fe : FrontEnd hostNameMax} {spec : List Char}
  {k n : BitVec 32} {lists : HostLists} {target : ℕ}

/-- No child is given in a round. -/
lemma round_zero (separate : Bool) (target : ℕ) (used : List Name) {c : Cursor} (hne : c.avail ≠ []) :
    ∃ writes, round separate target 0 used c = .ok (writes, c) := by
  induction used with
  | nil => exact ⟨[], rfl⟩
  | cons parent used ih =>
      obtain ⟨writes, hwrites⟩ := ih
      by_cases hlt : c.placed < target
      · refine ⟨(parent, []) :: writes, ?_⟩
        simp [round, hlt, give, hne, hwrites, bind, Except.bind, pure, Except.pure]
      · exact ⟨[], by simp [round, hlt, pure, Except.pure]⟩

lemma grow_stuck (hostids : List Name) (backends : Option (List Name)) (fuel : ℕ)
    (rounds : List Writes) {c : Cursor} (hne : c.avail ≠ []) (hlt : c.placed < target)
    (htarget : target < 2 ^ 32) :
    grow hostids backends 1 target fuel rounds c = ExceptT.mk none := by
  induction fuel generalizing rounds with
  | zero => rfl
  | succ fuel ih =>
      have hinner : ¬target ≤ c.placed * (1 : BitVec 32).toNat % 2 ^ 32 := by
        have hone : (1 : BitVec 32).toNat = 1 := rfl
        rw [hone, Nat.mul_one, Nat.mod_eq_of_lt (hlt.trans htarget)]
        omega
      have hkids : ((1 : BitVec 32) - 1).toNat = 0 := rfl
      rw [grow, if_neg (by simp [hne, hlt])]
      simp only [if_neg hinner, hkids]
      obtain ⟨writes, hwrites⟩ := round_zero backends.isSome target
        (hostids.take (hostids.length - c.avail.length)) hne
      rw [hwrites]
      exact ih (rounds ++ [writes])

/-- The input on which the rounds do not end. -/
def Stuck (k n : BitVec 32) (offered internal : ℕ) : Prop :=
  k = 1 ∧ 2 ≤ n.toNat ∧ n.toNat ≤ offered ∧ 2 ≤ internal

lemma growAll_stuck (hostids : List Name) (backends : Option (List Name)) (hn : 2 ≤ n.toNat)
    (hlength : 2 ≤ hostids.length) (fuel : ℕ) :
    growAll hostids backends 1 n.toNat fuel = ExceptT.mk none := by
  refine grow_stuck hostids backends fuel [] ?_ (show 1 < n.toNat by omega) n.isLt
  rw [← List.length_pos_iff, List.length_tail]
  omega

/-- Only the root is internal. -/
lemma create_alone (hspec : parseSpec spec = some (k, n)) (hn : 2 ≤ n.toNat)
    (henough : n.toNat ≤ offered hostNameMax fe.host lists)
    (halone : (hostids hostNameMax fe.host lists).length ≤ 1) :
    Returns (create address fe spec lists) (some (.missing 1)) := by
  have hsep : (backends hostNameMax fe.host lists).isSome = true := by
    rw [Option.isSome_iff_ne_none]
    intro hnone
    have := enough_single henough hnone
    omega
  have hgrow : Returns (growAll (hostids hostNameMax fe.host lists)
      (backends hostNameMax fe.host lists) k n.toNat) (.grown [] 1) := by
    refine ⟨1, fun fuel hfuel => ?_⟩
    obtain ⟨fuel, rfl⟩ : ∃ f, fuel = f + 1 := ⟨fuel - 1, by omega⟩
    rw [growAll, ← List.drop_one]
    exact grow_exit (.inl (List.drop_eq_nil_iff.mpr halone))
  refine create_returns hspec henough hgrow ?_
  rw [funext fun fuel => show conclude address fe n lists fuel (.grown [] 1) = _ from
    if_pos ⟨hsep, show 1 < n.toNat by omega⟩]
  exact .of_pure _

lemma create_stuck (hspec : parseSpec spec = some (1, n)) (hn : 2 ≤ n.toNat)
    (henough : n.toNat ≤ offered hostNameMax fe.host lists)
    (hlength : 2 ≤ (hostids hostNameMax fe.host lists).length) :
    ¬∃ r, Returns (create address fe spec lists) r := by
  rintro ⟨r, bound, hbound⟩
  have hrun := hbound bound le_rfl
  rw [create_enough hspec henough, growAll_stuck _ _ hn hlength] at hrun
  cases hrun

/-- The constructors return unless the factor is one and a slot is left for a wanted node. -/
theorem create_terminates_iff (hspec : parseSpec spec = some (k, n)) (lists : HostLists)
    (fe : FrontEnd hostNameMax) (address : Name → ℕ) :
    (∃ r, Returns (create address fe spec lists) r) ↔
      ¬Stuck k n (offered hostNameMax fe.host lists)
        (hostids hostNameMax fe.host lists).length := by
  constructor
  · rintro hreturns ⟨rfl, hn, henough, hlength⟩
    exact create_stuck hspec hn henough hlength hreturns
  · intro hnot
    rcases Nat.lt_or_ge (offered hostNameMax fe.host lists) n.toNat with hfew | henough
    · exact ⟨_, 0, fun fuel _ => create_few hspec hfew⟩
    rcases Nat.lt_or_ge n.toNat 2 with hsmall | hn
    · obtain ⟨b, hb, -⟩ := create_small hspec henough (by omega) address
      exact ⟨_, hb⟩
    rcases Nat.lt_or_ge 1 (hostids hostNameMax fe.host lists).length with hlength | halone
    · have hone : k ≠ 1 := fun hone => hnot ⟨hone, hn, henough, hlength⟩
      have hkids : 0 < (k - 1).toNat := by
        refine Nat.pos_of_ne_zero fun hzero => hone ?_
        bv_omega
      rcases Nat.lt_or_ge (before (k - 1).toNat n.toNat)
        (hostids hostNameMax fe.host lists).length with hlast | hshort
      · by_cases hfalls : (backends hostNameMax fe.host lists).isSome = true ∧
            FallsShort (k - 1).toNat n.toNat (finalSlots hostNameMax fe.host k n lists)
        · exact ⟨_, create_fallsShort hspec henough hn hkids hlast hfalls.1 hfalls.2⟩
        · obtain ⟨b, hb, -⟩ := create_last hspec henough hn hkids hlast
            (fun hsep h => hfalls ⟨hsep, h⟩) address
          exact ⟨_, hb⟩
      · exact ⟨_, create_short hspec henough hn hkids hshort⟩
    · exact ⟨_, create_alone hspec hn henough halone⟩

theorem create_terminates_three : ∃ r, Returns (create (fun _ => 0)
    (⟨['f', 'e'], by decide⟩ : FrontEnd 64) ['2', '@', '3'] (.single [(['a'], 2)] 2)) r := by
  have hspec : parseSpec ['2', '@', '3'] = some (2, 3) := by decide
  refine (create_terminates_iff hspec _ _ _).mpr fun hstuck => ?_
  exact absurd hstuck.1 (by decide)

/-- Two nodes are wanted and there are two slots, but the root gets no child. -/
theorem create_not_terminates : parseSpec ['1', '@', '2'] = some (1, 2) ∧
    ¬∃ r, Returns (create (fun _ => 0) (⟨['f', 'e'], by decide⟩ : FrontEnd 64) ['1', '@', '2']
      (.single [(['a'], 1)] 1)) r := by
  have hspec : parseSpec ['1', '@', '2'] = some (1, 2) := by decide
  exact ⟨hspec, create_stuck hspec (by decide) (by decide) (by decide)⟩

end KnomialTree

end MRNet.TopologyFile
