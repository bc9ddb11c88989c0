import MRNet.KnomialTree
import Mathlib.Data.Nat.Log

/-!
# The rounds of a k-nomial tree

A round deals slots out to the nodes that have one. It is full as long as there are slots and
nodes are wanted: then as many nodes have a slot as a power of `k` tells. The last round is the
one behind which there are enough nodes.
-/
namespace MRNet.TopologyFile
open Codec
open Wire (Run Returns)

namespace KnomialTree

variable {target kids : ℕ} {used children : List Name} {c : Cursor}

lemma give_eq (target kids : ℕ) (c : Cursor) :
    let m := min kids (min c.avail.length (target - c.placed))
    give target kids c = (c.avail.take m, ⟨c.avail.drop m, c.placed + m⟩) := by
  induction kids generalizing c with
  | zero => simp [give]
  | succ kids ih =>
      obtain ⟨avail, placed⟩ := c
      cases avail with
      | nil => simp [give]
      | cons child avail =>
          by_cases hlt : placed < target
          · obtain ⟨m, hm⟩ : ∃ m, m = min kids (min avail.length (target - (placed + 1))) := ⟨_, rfl⟩
            have hsucc : min (kids + 1) (min (child :: avail).length (target - placed)) = m + 1 := by
              rw [List.length_cons]
              omega
            have hrest := ih (c := ⟨avail, placed + 1⟩)
            simp only [← hm] at hrest
            simp only [give, if_pos hlt, hrest, hsucc, List.take_succ_cons, List.drop_succ_cons]
            rw [Nat.add_assoc, Nat.add_comm 1]
          · have hzero : target - placed = 0 := by omega
            simp [give, hlt, hzero]

/-- Slots are dealt out, as many to each node as it may have. -/
def dealOut (kids : ℕ) : List Name → List Name → Writes
  | parent :: used, child :: more =>
      (parent, (child :: more).take kids) :: dealOut kids used ((child :: more).drop kids)
  | _, _ => []

lemma dealOut_cons {parent : Name} (hne : children ≠ []) :
    dealOut kids (parent :: used) children =
      (parent, children.take kids) :: dealOut kids used (children.drop kids) := by
  cases children with
  | nil => exact absurd rfl hne
  | cons child more => rfl

lemma dealOut_nil (used : List Name) : dealOut kids used [] = [] := by
  cases used <;> rfl

/-- Slots run out before a node has all its children: nodes are wanted still, or there are as
many as wanted, but the last parent is left with a part of its children. -/
def RunsOut (kids room wanted avail : ℕ) : Prop :=
  avail < room ∧ (avail < wanted ∨ avail = wanted ∧ ¬kids ∣ avail)

variable {room wanted avail : ℕ}

instance : Decidable (RunsOut kids room wanted avail) := inferInstanceAs (Decidable (_ ∧ _))

/-- One node is served with what it may have or what is wanted. -/
lemma runsOut_step (hnot : ¬(avail < kids ∧ avail ≤ wanted)) :
    RunsOut kids room (wanted - min kids wanted) (avail - min kids wanted) ↔
      RunsOut kids (room + kids) wanted avail := by
  unfold RunsOut
  by_cases hle : kids ≤ wanted
  · have hkids : kids ≤ avail := by omega
    have hdvd : kids ∣ avail - kids ↔ kids ∣ avail := Nat.dvd_sub_iff_left hkids dvd_rfl
    rw [Nat.min_eq_left hle, hdvd]
    omega
  · rw [Nat.min_eq_right (by omega), Nat.sub_self]
    omega

lemma dealOut_step {parent : Name} (hne : children ≠ []) (hkids : 0 < kids) (hwanted : 0 < wanted) :
    dealOut kids (parent :: used) (children.take (min (room + kids) wanted)) =
      (parent, children.take (min kids wanted)) ::
        dealOut kids used ((children.drop (min kids wanted)).take
          (min room (wanted - min kids wanted))) := by
  have htake : children.take (min (room + kids) wanted) ≠ [] := by
    simp only [ne_eq, List.take_eq_nil_iff, hne, or_false]
    omega
  rw [dealOut_cons htake, List.take_take, List.drop_take]
  congr 2
  · congr 1
    omega
  · by_cases hle : kids ≤ wanted
    · rw [Nat.min_eq_left hle]
      congr 1
      omega
    · have hzero : min (room + kids) wanted - kids = 0 := by omega
      have hzero' : wanted - min kids wanted = 0 := by omega
      rw [hzero, hzero', Nat.min_zero, List.take_zero, List.take_zero]

theorem round_eq (separate : Bool) (target : ℕ) (used : List Name) (c : Cursor)
    (hkids : 0 < kids) (hplaced : c.placed ≤ target)
    (henough : separate = false → target - c.placed ≤ c.avail.length) :
    let room := used.length * kids
    let wanted := target - c.placed
    round separate target kids used c =
      if separate = true ∧ RunsOut kids room wanted c.avail.length then
        .error (c.placed + c.avail.length)
      else .ok (dealOut kids used (c.avail.take (min room wanted)),
        ⟨c.avail.drop (min room wanted), c.placed + min room wanted⟩) := by
  induction used generalizing c with
  | nil => simp [round, RunsOut, dealOut, pure, Except.pure]
  | cons parent used ih =>
      obtain ⟨avail, placed⟩ := c
      dsimp only at hplaced henough ⊢
      rw [List.length_cons, Nat.succ_mul]
      by_cases hlt : placed < target
      · rw [round, if_pos hlt, give_eq]
        obtain ⟨m, hm⟩ : ∃ m, m = min kids (min avail.length (target - placed)) := ⟨_, rfl⟩
        simp only [← hm, List.drop_eq_nil_iff, List.length_take]
        by_cases hshort : separate = true ∧ avail.length < kids ∧ avail.length ≤ target - placed
        · obtain ⟨hsep, hfew, hle⟩ := hshort
          have hdvd : avail.length = target - placed → ¬kids ∣ avail.length := fun heq hdvd =>
            absurd (Nat.le_of_dvd (by omega) hdvd) (by omega)
          rw [if_pos ⟨hsep, by omega, by omega⟩, if_pos ⟨hsep, by omega, by omega⟩]
          congr 2
          omega
        · have hm' : m = min kids (target - placed) := by
            cases separate with
            | true => simp only [true_and] at hshort; omega
            | false => have := henough rfl; omega
          have hne : avail ≠ [] := by
            rintro rfl
            cases separate with
            | true => exact hshort ⟨rfl, hkids, Nat.zero_le _⟩
            | false => have := henough rfl; simp at this; omega
          rw [if_neg fun h => hshort ⟨h.1, by omega, by omega⟩]
          have hrest := ih ⟨avail.drop m, placed + m⟩ (by dsimp only; omega) fun hsep => by
            have := henough hsep
            simp only [List.length_drop]
            omega
          have hwanted : target - (placed + m) = target - placed - m := by omega
          have hcond : (separate = true ∧ RunsOut kids (used.length * kids) (target - placed - m)
              (avail.length - m)) ↔ separate = true ∧ RunsOut kids (used.length * kids + kids)
                (target - placed) avail.length :=
            and_congr_right fun hsep => hm' ▸ runsOut_step fun h => hshort ⟨hsep, h⟩
          have hall : m + min (used.length * kids) (target - placed - m) =
              min (used.length * kids + kids) (target - placed) := by omega
          simp only [List.length_drop, hwanted, List.drop_drop, Nat.add_assoc, hall, hcond] at hrest
          rw [hrest, dealOut_step hne hkids (by omega), ← hm']
          split_ifs
          · have hsum : placed + (m + (avail.length - m)) = placed + avail.length := by omega
            rw [hsum]
            rfl
          · rfl
      · have hzero : target - placed = 0 := by omega
        have hnot : ¬RunsOut kids (used.length * kids + kids) 0 avail.length := by
          rintro ⟨-, hfew | ⟨heq, hdvd⟩⟩
          · omega
          · exact hdvd (heq ▸ Nat.dvd_zero kids)
        rw [round, if_neg hlt, hzero, if_neg fun h => hnot h.2]
        simp [dealOut_nil, pure, Except.pure]

/-- The rounds before the last one. -/
def fullRounds (kids : ℕ) (hostids : List Name) (d : ℕ) : List Writes :=
  (List.range d).map fun i => dealOut kids (hostids.take ((kids + 1) ^ i))
    ((hostids.drop ((kids + 1) ^ i)).take ((kids + 1) ^ i * kids))

lemma fullRounds_succ (hostids : List Name) (d : ℕ) : fullRounds kids hostids (d + 1) =
    fullRounds kids hostids d ++ [dealOut kids (hostids.take ((kids + 1) ^ d))
      ((hostids.drop ((kids + 1) ^ d)).take ((kids + 1) ^ d * kids))] := by
  rw [fullRounds, List.range_succ, List.map_append]
  rfl

variable {hostids : List Name} {backends : Option (List Name)} {k : BitVec 32} {fuel p : ℕ}
  {rounds : List Writes}

/-- A factor of zero wraps to as many children as there are numbers. -/
lemma toNat_le (hk : (k - 1).toNat = kids) : k.toNat ≤ kids + 1 := by
  subst hk
  bv_omega

/-- The slots of the next round. -/
def nextSlots (backends : Option (List Name)) (k : BitVec 32) (target p : ℕ)
    (hostids : List Name) : List Name :=
  (if target ≤ p * k.toNat % 2 ^ 32 then backends else none).getD (hostids.drop p)

lemma nextSlots_inner (hk : (k - 1).toNat = kids) (hlt : p * (kids + 1) < target) :
    (if target ≤ p * k.toNat % 2 ^ 32 then backends else none) = none := by
  have hle := Nat.mul_le_mul_left p (toNat_le hk)
  have hmod := Nat.mod_le (p * k.toNat) (2 ^ 32)
  rw [if_neg (by omega)]

lemma grow_exit (h : hostids.drop p = [] ∨ target ≤ p) :
    grow hostids backends k target (fuel + 1) rounds ⟨hostids.drop p, p⟩ =
      pure (.grown rounds p) := by
  rw [grow, if_pos h]

lemma used_eq (hp : p ≤ hostids.length) :
    hostids.take (hostids.length - (hostids.drop p).length) = hostids.take p := by
  rw [List.length_drop]
  congr 1
  omega

/-- A round that is not the last one. -/
lemma grow_full (hk : (k - 1).toNat = kids) (hkids : 0 < kids) (hp : 0 < p)
    (hlt : p * (kids + 1) < target) (hle : p * (kids + 1) ≤ hostids.length)
    (hsingle : backends = none → target ≤ hostids.length) :
    grow hostids backends k target (fuel + 1) rounds ⟨hostids.drop p, p⟩ =
      grow hostids backends k target fuel
        (rounds ++ [dealOut kids (hostids.take p) ((hostids.drop p).take (p * kids))])
        ⟨hostids.drop (p * (kids + 1)), p * (kids + 1)⟩ := by
  have hmul : p * (kids + 1) = p + p * kids := by rw [Nat.mul_succ, Nat.add_comm]
  have hpos : 0 < p * kids := Nat.mul_pos hp hkids
  have hround := round_eq backends.isSome target (hostids.take p) ⟨hostids.drop p, p⟩ hkids
    (by dsimp only; omega) fun hnone => by
      have := hsingle (Option.isNone_iff_eq_none.mp (Option.isSome_eq_false_iff.mp hnone))
      simp only [List.length_drop]
      omega
  have hmin : min (p * kids) (target - p) = p * kids := by omega
  have henough : ¬(backends.isSome = true ∧
      RunsOut kids (p * kids) (target - p) (hostids.length - p)) := by
    rintro ⟨-, hout, -⟩
    omega
  simp only [List.length_take_of_le (show p ≤ hostids.length by omega), List.length_drop, hmin,
    henough, if_false, List.drop_drop] at hround
  rw [grow, if_neg (by simp only [List.drop_eq_nil_iff]; omega)]
  simp only [used_eq (show p ≤ hostids.length by omega), hk, nextSlots_inner hk hlt, hround, hmul]

lemma grow_run (hk : (k - 1).toNat = kids) (hkids : 0 < kids)
    (hsingle : backends = none → target ≤ hostids.length) (d fuel : ℕ)
    (hlt : (kids + 1) ^ d < target) (hle : (kids + 1) ^ d ≤ hostids.length) :
    grow hostids backends k target (fuel + d) [] ⟨hostids.drop 1, 1⟩ =
      grow hostids backends k target fuel (fullRounds kids hostids d)
        ⟨hostids.drop ((kids + 1) ^ d), (kids + 1) ^ d⟩ := by
  induction d generalizing fuel with
  | zero => rfl
  | succ d ih =>
      have hpow : (kids + 1) ^ (d + 1) = (kids + 1) ^ d * (kids + 1) := pow_succ ..
      have hgrows : (kids + 1) ^ d ≤ (kids + 1) ^ (d + 1) :=
        Nat.pow_le_pow_right (Nat.succ_pos kids) (Nat.le_succ d)
      rw [show fuel + (d + 1) = fuel + 1 + d by omega, ih (fuel + 1) (by omega) (by omega),
        grow_full hk hkids (Nat.pow_pos (Nat.succ_pos kids)) (hpow ▸ hlt) (hpow ▸ hle) hsingle,
        fullRounds_succ, ← hpow]

/-- The list of internal slots ends in a round that is not the last one. -/
lemma grow_short (hk : (k - 1).toNat = kids) (hkids : 0 < kids)
    (hlt : p * (kids + 1) < target) (hlast : p < hostids.length)
    (hfew : hostids.length < p * (kids + 1)) (hsep : backends.isSome = true) :
    grow hostids backends k target (fuel + 1) rounds ⟨hostids.drop p, p⟩ =
      pure (.missing hostids.length) := by
  have hmul : p * (kids + 1) = p + p * kids := by rw [Nat.mul_succ, Nat.add_comm]
  have hround := round_eq true target (hostids.take p) ⟨hostids.drop p, p⟩ hkids
    (by dsimp only; omega) (by simp)
  have hout : RunsOut kids (p * kids) (target - p) (hostids.length - p) :=
    ⟨by omega, .inl (by omega)⟩
  simp only [List.length_take_of_le hlast.le, List.length_drop, hout, true_and, if_true] at hround
  rw [grow, if_neg (by simp only [List.drop_eq_nil_iff]; omega)]
  simp only [used_eq hlast.le, hk, nextSlots_inner hk hlt, hsep, hround]
  rw [show p + (hostids.length - p) = hostids.length by omega]

/-- Where the last round runs out of slots. -/
lemma runsOut_last {n : ℕ} (hreach : wanted ≤ p * kids) :
    RunsOut kids (p * kids) wanted n ↔ n < wanted ∨ n = wanted ∧ ¬kids ∣ n := by
  refine ⟨And.right, fun h => ⟨?_, h⟩⟩
  rcases h with hfew | ⟨rfl, hdvd⟩
  · omega
  · exact lt_of_le_of_ne hreach fun heq => hdvd (heq ▸ Nat.dvd_mul_left kids p)

/-- The last round, and how it fails. -/
lemma grow_last (hk : (k - 1).toNat = kids) (hkids : 0 < kids) (hlt : p < target)
    (hreach : target ≤ p * (kids + 1)) (hlast : p < hostids.length)
    (hsingle : backends = none → target ≤ hostids.length) :
    let next := nextSlots backends k target p hostids
    grow hostids backends k target (fuel + 2) rounds ⟨hostids.drop p, p⟩ =
      if backends.isSome = true ∧ (next.length < target - p ∨
          next.length = target - p ∧ ¬kids ∣ next.length) then
        pure (.missing (p + next.length))
      else pure (.grown (rounds ++ [dealOut kids (hostids.take p) (next.take (target - p))])
        target) := by
  have hmul : p * (kids + 1) = p + p * kids := by rw [Nat.mul_succ, Nat.add_comm]
  have hmin : min (p * kids) (target - p) = target - p := by omega
  have hsum : p + (target - p) = target := by omega
  have hround (separate : Bool) (avail : List Name)
      (henough : separate = false → target - p ≤ avail.length) :
      round separate target kids (hostids.take p) ⟨avail, p⟩ = _ :=
    round_eq separate target (hostids.take p) ⟨avail, p⟩ hkids hlt.le henough
  have hout (n : ℕ) : RunsOut kids (p * kids) (target - p) n ↔
      n < target - p ∨ n = target - p ∧ ¬kids ∣ n := runsOut_last (by omega)
  simp only [List.length_take_of_le hlast.le, hmin, hsum, hout] at hround
  rw [grow, if_neg (by simp only [List.drop_eq_nil_iff]; omega)]
  simp only [used_eq hlast.le, hk, nextSlots]
  have hneed : backends = none → target - p ≤ (hostids.drop p).length := fun h => by
    have := hsingle h
    rw [List.length_drop]
    omega
  have hsel : (if target ≤ p * k.toNat % 2 ^ 32 then backends else none) = none ∨
      ∃ slots, backends = some slots ∧
        (if target ≤ p * k.toNat % 2 ^ 32 then backends else none) = some slots := by
    by_cases hleaf : target ≤ p * k.toNat % 2 ^ 32
    · rw [if_pos hleaf]
      cases backends with
      | none => exact .inl rfl
      | some slots => exact .inr ⟨slots, rfl, rfl⟩
    · exact .inl (if_neg hleaf)
  rcases hsel with hsel | ⟨slots, rfl, hsel⟩
  · simp only [hsel, Option.getD_none]
    rw [hround _ _ fun h => hneed (Option.isNone_iff_eq_none.mp (Option.isSome_eq_false_iff.mp h))]
    split_ifs
    · rfl
    · rw [List.drop_drop, hsum]
      exact grow_exit (.inr le_rfl)
  · simp only [hsel, Option.getD_some]
    rw [hround true slots fun h => absurd h.symm Bool.false_ne_true]
    by_cases hfew : slots.length < target - p ∨ slots.length = target - p ∧ ¬kids ∣ slots.length
    · rw [if_pos ⟨rfl, hfew⟩, if_pos ⟨rfl, hfew⟩]
    · rw [if_neg fun h => hfew h.2, if_neg fun h => hfew h.2]
      exact if_neg (Nat.lt_irrefl target)

/-- How many full rounds there are. -/
def fullDepth (kids target : ℕ) : ℕ := Nat.clog (kids + 1) target - 1

/-- The nodes that are there when the last round begins. -/
def before (kids target : ℕ) : ℕ := (kids + 1) ^ fullDepth kids target

lemma before_lt (hkids : 0 < kids) (htarget : 2 ≤ target) : before kids target < target :=
  Nat.pow_pred_clog_lt_self (Nat.succ_lt_succ hkids) htarget

lemma le_before_mul (hkids : 0 < kids) (htarget : 2 ≤ target) :
    target ≤ before kids target * (kids + 1) := by
  have hpos : 0 < Nat.clog (kids + 1) target := Nat.clog_pos (Nat.succ_lt_succ hkids) htarget
  rw [before, ← pow_succ, fullDepth, Nat.sub_add_cancel hpos]
  exact Nat.le_pow_clog (Nat.succ_lt_succ hkids) target

lemma before_pos (kids target : ℕ) : 0 < before kids target := Nat.pow_pos (Nat.succ_pos kids)

/-- The rounds, if the last one is reached and has enough slots. -/
def allRounds (kids target : ℕ) (hostids next : List Name) : List Writes :=
  fullRounds kids hostids (fullDepth kids target) ++
    [dealOut kids (hostids.take (before kids target)) (next.take (target - before kids target))]

/-- The slots of the last round. -/
def lastSlots (kids : ℕ) (backends : Option (List Name)) (k : BitVec 32) (target : ℕ)
    (hostids : List Name) : List Name :=
  nextSlots backends k target (before kids target) hostids

/-- The last round of two lists fails. -/
def FallsShort (kids target : ℕ) (next : List Name) : Prop :=
  next.length < target - before kids target ∨
    next.length = target - before kids target ∧ ¬kids ∣ next.length

instance : Decidable (FallsShort kids target next) := inferInstanceAs (Decidable (_ ∨ _))

section Returns
variable (hostids : List Name) (backends : Option (List Name)) (k : BitVec 32) (target : ℕ)

/-- The rounds from the root on. -/
def growAll (fuel : ℕ) : Run Growth := grow hostids backends k target fuel [] ⟨hostids.tail, 1⟩

end Returns

lemma growAll_small (htarget : target ≤ 1) :
    Returns (growAll hostids backends k target) (.grown [] 1) := by
  refine ⟨1, fun fuel hfuel => ?_⟩
  obtain ⟨fuel, rfl⟩ : ∃ f, fuel = f + 1 := ⟨fuel - 1, by omega⟩
  rw [growAll, ← List.drop_one]
  exact grow_exit (.inr htarget)

theorem growAll_last (hk : (k - 1).toNat = kids) (hkids : 0 < kids) (htarget : 2 ≤ target)
    (hlast : before kids target < hostids.length)
    (hsingle : backends = none → target ≤ hostids.length) :
    let next := lastSlots kids backends k target hostids
    Returns (growAll hostids backends k target)
      (if backends.isSome = true ∧ FallsShort kids target next then
        .missing (before kids target + next.length)
      else .grown (allRounds kids target hostids next) target) := by
  refine ⟨fullDepth kids target + 2, fun fuel hfuel => ?_⟩
  obtain ⟨fuel, rfl⟩ : ∃ f, fuel = f + 2 + fullDepth kids target :=
    ⟨fuel - (fullDepth kids target + 2), by omega⟩
  have hrun := grow_run hk hkids hsingle (fullDepth kids target) (fuel + 2)
    (before_lt hkids htarget) hlast.le
  have hend : grow hostids backends k target (fuel + 2)
      (fullRounds kids hostids (fullDepth kids target)) _ = _ :=
    grow_last hk hkids (before_lt hkids htarget) (le_before_mul hkids htarget) hlast hsingle
  rw [growAll, ← List.drop_one, hrun]
  by_cases hfall : backends.isSome = true ∧
      FallsShort kids target (lastSlots kids backends k target hostids)
  · rw [if_pos hfall]
    exact hend.trans (if_pos hfall)
  · rw [if_neg hfall]
    exact hend.trans (if_neg hfall)

/-- The list of internal slots may end before the last round. -/
theorem growAll_short (hk : (k - 1).toNat = kids) (hkids : 0 < kids) (htarget : 2 ≤ target)
    (hpos : 0 < hostids.length) (hshort : hostids.length ≤ before kids target)
    (hsep : backends.isSome = true) :
    Returns (growAll hostids backends k target) (.missing hostids.length) ∨
      ∃ rounds, Returns (growAll hostids backends k target) (.grown rounds hostids.length) := by
  have hbase : 1 < kids + 1 := Nat.succ_lt_succ hkids
  obtain ⟨i, hi⟩ : ∃ i, i = Nat.log (kids + 1) hostids.length := ⟨_, rfl⟩
  have hle : (kids + 1) ^ i ≤ hostids.length := hi ▸ Nat.pow_log_le_self _ (by omega)
  have hnext : hostids.length < (kids + 1) ^ (i + 1) := hi ▸ Nat.lt_pow_succ_log_self hbase _
  have hlt := before_lt hkids htarget
  have hsingle : backends = none → target ≤ hostids.length := fun h => by simp [h] at hsep
  have hrun (fuel : ℕ) : grow hostids backends k target (fuel + i) [] _ = _ :=
    grow_run hk hkids hsingle i fuel (by omega) hle
  rcases hle.lt_or_eq with hpart | hwhole
  · have hdepth : i < fullDepth kids target := by
      refine (Nat.pow_lt_pow_iff_right hbase).mp (hpart.trans_le ?_)
      exact hshort
    have hfull : (kids + 1) ^ (i + 1) ≤ before kids target :=
      Nat.pow_le_pow_right (Nat.succ_pos kids) hdepth
    refine .inl ⟨i + 1, fun fuel hfuel => ?_⟩
    obtain ⟨fuel, rfl⟩ : ∃ f, fuel = f + 1 + i := ⟨fuel - (i + 1), by omega⟩
    rw [growAll, ← List.drop_one, hrun]
    rw [pow_succ] at hnext hfull
    exact grow_short hk hkids (by omega) hpart hnext hsep
  · refine .inr ⟨fullRounds kids hostids i, i + 1, fun fuel hfuel => ?_⟩
    obtain ⟨fuel, rfl⟩ : ∃ f, fuel = f + 1 + i := ⟨fuel - (i + 1), by omega⟩
    rw [growAll, ← List.drop_one, hrun, hwhole]
    exact grow_exit (.inl (by simp))

end KnomialTree

end MRNet.TopologyFile
