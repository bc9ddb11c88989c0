import MRNet.AggregatedData

/-!
# Averages of performance data

When `TFILTER_AVG` divides the sum at every position by the number of ranks.
-/
namespace MRNet.Filters
open Codec Buffers Reductions

/-- The sum modulo `2 ^ 64` of the data at a position, each as often as there are ranks. -/
def sumAt (cs : List Contribution) (u : ℕ) : Datum :=
  ((column cs u).map fun x => BitVec.ofNat 64 x.1 * x.2).sum

/-- The quotient of what a sum stands for. It is truncated. -/
def quotient (type : MetricType) (sum : Datum) (n : ℕ) : Datum :=
  match type with
  | .int => BitVec.ofInt 64 (sum.toInt.tdiv n)
  | .uint | .float => BitVec.ofNat 64 (sum.toNat / n)

def averageAt (type : MetricType) (cs : List Contribution) (u : ℕ) : Datum :=
  quotient type (sumAt cs u) (contributingRanks cs)

/-- The data of the only output packet are the averages. -/
def SendsAverages (m : PerfMachine) (type : MetricType) (c : Contribution)
    (cs : List Contribution) (ipackets : List PerfPacket) : Prop :=
  ∃ p, m.filterPerfData type .avg c.toPerfNode ipackets = .ok [p] ∧
    p.data.elements = (List.range (longest (c :: cs))).map (averageAt type (c :: cs))

/-- A sum needs no division where the last contribution does not reach, and the number of ranks
is as good with 32 bits where it does. -/
structure Divided (type : MetricType) (cs : List Contribution) : Prop where
  fits : longest cs < 2 ^ 29
  uncovered : ∀ u, lastLength cs ≤ u → u < longest cs → contributingRanks cs = 1 ∨ sumAt cs u = 0
  divisor : lastLength cs ≠ 0 → contributingRanks cs % 2 ^ 32 ≠ 0
  covered : ∀ u < lastLength cs,
    quotient type (sumAt cs u) (contributingRanks cs % 2 ^ 32) = averageAt type cs u

lemma mem_column {cs : List Contribution} {u : ℕ} {x : ℕ × Datum} (h : x ∈ column cs u) :
    ∃ c ∈ cs, x.1 = c.rankCount ∧ c.data[u]? = some x.2 := by
  obtain ⟨c, hc, hx⟩ := List.mem_filterMap.mp h
  obtain ⟨v, hv, rfl⟩ := Option.map_eq_some_iff.mp hx
  exact ⟨c, hc, rfl, hv⟩

section Sums

variable {m : PerfMachine} {type : MetricType}

lemma aggregate_avg (htype : type ≠ .float) (nrank : BitVec 32) (ag v : Datum) :
    m.aggregate .avg type nrank ag v = ag + v * nrank.signExtend 64 := by
  cases type with
  | uint => rfl
  | int => rfl
  | float => exact absurd rfl htype

/-- What is left before the division. -/
lemma resultAt_avg (htype : type ≠ .float) (cs : List Contribution) (u : ℕ) :
    resultAt m type .avg cs u = sumAt cs u := by
  have hfold : ∀ (xs : List (ℕ × Datum)) (ag : Datum), (∀ x ∈ xs, x ∈ column cs u) →
      xs.foldl (fun ag x => m.aggregate .avg type (BitVec.ofNat 32 x.1) ag x.2) ag =
        ag + (xs.map fun x => BitVec.ofNat 64 x.1 * x.2).sum := by
    intro xs
    induction xs with
    | nil => exact fun ag _ => (BitVec.add_zero ag).symm
    | cons x xs ih =>
        intro ag hxs
        obtain ⟨hx, hrest⟩ := List.forall_mem_cons.mp hxs
        obtain ⟨c, -, hcount, -⟩ := mem_column hx
        rw [List.foldl_cons, ih _ hrest, aggregate_avg htype, hcount, c.signExtend_rankCount,
          List.map_cons, List.sum_cons, hcount, mul_comm x.2, add_assoc]
  rw [resultAt, hfold _ _ fun _ hx => hx]
  exact BitVec.zero_add _

lemma divide_eq (htype : type ≠ .float) (ag : Datum) (n : ℕ) :
    m.divide type ag (BitVec.ofNat 32 n) = quotient type ag (n % 2 ^ 32) := by
  have hwide : (BitVec.setWidth 64 (BitVec.ofNat 32 n)).toNat = n % 2 ^ 32 := by
    rw [BitVec.toNat_setWidth, BitVec.toNat_ofNat]
    omega
  cases type with
  | uint =>
      apply BitVec.eq_of_toNat_eq
      have hle := Nat.div_le_self ag.toNat (n % 2 ^ 32)
      rw [PerfMachine.divide, BitVec.udiv_eq, BitVec.toNat_udiv, hwide, quotient,
        BitVec.toNat_ofNat, Nat.mod_eq_of_lt (hle.trans_lt ag.isLt)]
  | int =>
      apply BitVec.eq_of_toInt_eq
      have hint : (BitVec.setWidth 64 (BitVec.ofNat 32 n)).toInt = ((n % 2 ^ 32 : ℕ) : ℤ) := by
        rw [BitVec.toInt_eq_toNat_of_lt (by omega), hwide]
      rw [PerfMachine.divide, BitVec.toInt_sdiv, hint, quotient, BitVec.toInt_ofInt]
  | float => exact absurd rfl htype

/-- A truncated quotient is not further from zero. -/
lemma toInt_ofInt_tdiv {n : ℕ} (hn : 0 < n) (sum : Datum) :
    (BitVec.ofInt 64 (sum.toInt.tdiv n)).toInt = sum.toInt.tdiv n := by
  have hlow := BitVec.le_toInt sum
  have hhigh := BitVec.toInt_lt (x := sum)
  have habs := Int.natAbs_tdiv_le_natAbs sum.toInt n
  have hpos : 0 ≤ sum.toInt → 0 ≤ sum.toInt.tdiv n := fun h => Int.tdiv_nonneg h (by omega)
  have hneg : sum.toInt ≤ 0 → sum.toInt.tdiv n ≤ 0 := by
    intro h
    rw [← neg_nonneg, ← Int.neg_tdiv]
    exact Int.tdiv_nonneg (by omega) (by omega)
  rw [BitVec.toInt_ofInt]
  exact Int.bmod_eq_of_le_mul_two (by push_cast; omega) (by push_cast; omega)

/-- Only a sum of zero is the same divided by more than one. -/
lemma quotient_eq_self {n : ℕ} (hn : 0 < n) (sum : Datum) :
    sum = quotient type sum n ↔ n = 1 ∨ sum = 0 := by
  have hnat : sum = BitVec.ofNat 64 (sum.toNat / n) ↔ n = 1 ∨ sum = 0 := by
    have hle := Nat.div_le_self sum.toNat n
    rw [← BitVec.toNat_inj, BitVec.toNat_ofNat, Nat.mod_eq_of_lt (hle.trans_lt sum.isLt), eq_comm,
      Nat.div_eq_self, or_comm]
    exact or_congr_right ⟨fun h => BitVec.eq_of_toNat_eq h, fun h => h ▸ rfl⟩
  cases type with
  | uint => exact hnat
  | float => exact hnat
  | int =>
      rw [quotient, ← BitVec.toInt_inj, toInt_ofInt_tdiv hn]
      constructor
      · intro heq
        have habs := congrArg Int.natAbs heq
        rw [Int.natAbs_tdiv, Int.natAbs_natCast] at habs
        rcases Nat.div_eq_self.mp habs.symm with hzero | hone
        · exact .inr (BitVec.eq_of_toInt_eq (Int.natAbs_eq_zero.mp hzero))
        · exact .inl hone
      · rintro (rfl | rfl)
        · exact (Int.tdiv_one _).symm
        · exact (Int.zero_tdiv _).symm

end Sums

/-- Some rank has data, if a position is covered. -/
lemma contributingRanks_pos {cs : List Contribution} (h : 0 < longest cs) :
    0 < contributingRanks cs := by
  induction cs using List.reverseRecOn with
  | nil => exact absurd h (lt_irrefl 0)
  | append_singleton cs c ih =>
      rw [longest_append] at h
      rw [contributingRanks_append]
      split_ifs with hdata
      · rw [hdata, List.length_nil, Nat.max_zero] at h
        exact ih h
      · exact Nat.add_pos_right _ c.rankCount_pos

lemma lastLength_le (cs : List Contribution) : lastLength cs ≤ longest cs := by
  induction cs using List.reverseRecOn with
  | nil => exact le_rfl
  | append_singleton cs c _ =>
      rw [lastLength_append, longest_append]
      exact le_max_right _ _

/-- The front of a list of values is divided. -/
lemma divided_eq_iff {r d : ℕ → Datum} {f : Datum → Datum} {k n : ℕ} (hk : k ≤ n) :
    (((List.range n).map r).take k).map f ++ ((List.range n).map r).drop k =
        (List.range n).map d ↔
      (∀ u < k, f (r u) = d u) ∧ ∀ u, k ≤ u → u < n → r u = d u := by
  have hfront : (((List.range n).map r).take k).map f ++ ((List.range n).map r).drop k =
      (List.range n).map fun u => if u < k then f (r u) else r u := by
    refine List.ext_getElem (by simp; omega) fun u h₁ h₂ => ?_
    rw [List.getElem_map, List.getElem_range]
    split_ifs with hu
    · rw [List.getElem_append_left (by simp; omega), List.getElem_map, List.getElem_take,
        List.getElem_map, List.getElem_range]
    · rw [List.getElem_append_right (by simp; omega), List.getElem_drop, List.getElem_map,
        List.getElem_range]
      congr 1
      simp
      omega
  rw [hfront, List.map_inj_left]
  constructor
  · intro h
    refine ⟨fun u hu => ?_, fun u hku hu => ?_⟩
    · rw [← h u (List.mem_range.mpr (by omega)), if_pos hu]
    · rw [← h u (List.mem_range.mpr hu), if_neg (by omega)]
  · rintro ⟨hlt, hge⟩ u hu
    split_ifs with hku
    · exact hlt u hku
    · exact hge u (not_lt.mp hku) (List.mem_range.mp hu)

section Division

variable {m : PerfMachine} {type : MetricType} {cs : List Contribution} {s : PerfState}

lemma average_ok_iff {aggrResults : List Datum} :
    m.average type .avg s = .ok aggrResults ↔ (s.dataLen ≠ 0 → s.totalNranks ≠ 0) ∧
      (s.aggrResults.take s.dataLen).map (m.divide type · s.totalNranks) ++
        s.aggrResults.drop s.dataLen = aggrResults := by
  unfold PerfMachine.average
  split_ifs with hdivide hzero
  · exact iff_of_false (fun h => nomatch h) fun h => h.1 hdivide.1 hzero
  · rw [and_iff_right fun _ => hzero]
    exact ⟨fun h => Except.ok.inj h, fun h => congrArg Except.ok h⟩
  · have hlen : s.dataLen = 0 := by
      by_contra hlen
      exact hdivide ⟨hlen, rfl⟩
    rw [hlen, List.take_zero, List.map_nil, List.nil_append, List.drop_zero,
      and_iff_right fun h => absurd rfl h]
    exact ⟨fun h => Except.ok.inj h, fun h => congrArg Except.ok h⟩

/-- The sums are divided as they should be, or need not be. -/
lemma average_averageAt_iff (htype : type ≠ .float) (hs : Aggregated m type .avg cs s)
    (hfits : longest cs < 2 ^ 29) :
    m.average type .avg s = .ok ((List.range (longest cs)).map (averageAt type cs)) ↔
      Divided type cs := by
  have hzero : s.totalNranks = 0 ↔ contributingRanks cs % 2 ^ 32 = 0 := by
    rw [hs.totalNranks, ofNat_eq_zero_iff, Nat.dvd_iff_mod_eq_zero]
  rw [average_ok_iff, hs.dataLen, hs.aggrResults, divided_eq_iff (lastLength_le cs), Ne, Ne, hzero]
  simp only [resultAt_avg htype, hs.totalNranks, divide_eq htype]
  constructor
  · rintro ⟨hdivisor, hcovered, huncovered⟩
    refine ⟨hfits, fun u hlast hu => ?_, hdivisor, hcovered⟩
    exact (quotient_eq_self (contributingRanks_pos (by omega)) _).mp (huncovered u hlast hu)
  · rintro ⟨-, huncovered, hdivisor, hcovered⟩
    refine ⟨hdivisor, hcovered, fun u hlast hu => ?_⟩
    exact (quotient_eq_self (contributingRanks_pos (by omega)) _).mpr (huncovered u hlast hu)

lemma sendsAverages_of_divided {c : Contribution} {first : PerfPacket} {rest : List PerfPacket}
    (htype : type ≠ .float) (hcs : List.Forall₂ Contribution.CarriedBy cs (first :: rest))
    (h : Divided type (c :: cs)) : SendsAverages m type c cs (first :: rest) := by
  have hlocal := length_le_longest (List.mem_cons_self (a := c) (l := cs))
  have hfits := h.fits
  obtain ⟨s, hs, hfilter⟩ := filterPerfData_aggregated m type
    (show Aggregation.avg ≠ .arrayConcat by decide) (hlocal.trans_lt (hfits.trans (by decide))) hcs
  have hlength : ((List.range (longest (c :: cs))).map (averageAt type (c :: cs))).length <
      2 ^ 29 := by
    rwa [List.length_map, List.length_range]
  obtain ⟨p, hp, hdata⟩ := aggregatedPacket_data hlength first s.totalNranks
  refine ⟨p, ?_, hdata⟩
  rw [hfilter, (average_averageAt_iff htype hs hfits).mpr h, ok_bind, hp]
  rfl

lemma divided_of_sendsAverages {c : Contribution} {first : PerfPacket} {rest : List PerfPacket}
    (htype : type ≠ .float) (hcs : List.Forall₂ Contribution.CarriedBy cs (first :: rest))
    (h : SendsAverages m type c cs (first :: rest)) : Divided type (c :: cs) := by
  obtain ⟨p, hp, hdata⟩ := h
  have hfits := length_of_filterPerfData (by decide) hp
  rw [hdata, List.length_map, List.length_range] at hfits
  have hlocal := length_le_longest (List.mem_cons_self (a := c) (l := cs))
  obtain ⟨s, hs, hfilter⟩ := filterPerfData_aggregated m type
    (show Aggregation.avg ≠ .arrayConcat by decide) (hlocal.trans_lt (hfits.trans (by decide))) hcs
  rw [hfilter] at hp
  obtain ⟨aggrResults, haverage, hp⟩ := bind_ok_iff.mp hp
  obtain ⟨packet, hpacket, hp⟩ := bind_ok_iff.mp hp
  cases hp
  obtain ⟨q, hq, hqdata⟩ :=
    aggregatedPacket_data (length_of_aggregatedPacket hpacket) first s.totalNranks
  cases hpacket.symm.trans hq
  rw [← hqdata, hdata] at haverage
  exact (average_averageAt_iff htype hs hfits).mp haverage

/-- The output has the averages if and only if the division, which is for the length of the last
contribution, is enough. -/
theorem sendsAverages_iff (m : PerfMachine) {type : MetricType} (htype : type ≠ .float)
    {c : Contribution} {cs : List Contribution} {first : PerfPacket} {rest : List PerfPacket}
    (hcs : List.Forall₂ Contribution.CarriedBy cs (first :: rest)) :
    SendsAverages m type c cs (first :: rest) ↔ Divided type (c :: cs) :=
  ⟨divided_of_sendsAverages htype hcs, sendsAverages_of_divided htype hcs⟩

end Division

/-- The last of two children has the longest data. -/
theorem sendsAverages_three :
    SendsAverages countingMachine .int (single 0 [4] (by decide))
      [single 1 [6] (by decide), single (-2) [4, -9] (by decide)]
      [childPacket .int 1 [6], childPacket .int (-2) [4, -9]] := by
  have hfirst := single_carriedBy .int 1 [6] (by decide) (by decide)
  have hsecond := single_carriedBy .int (-2) [4, -9] (by decide) (by decide)
  apply (sendsAverages_iff countingMachine (by decide) (.cons hfirst (.cons hsecond .nil))).mpr
  exact ⟨by decide, fun u hlast hu => absurd (hlast.trans_lt hu) (lt_irrefl 2), fun _ => by decide,
    by decide⟩

/-- The sum is not divided if the last child has no data. -/
theorem averages_not_divided :
    ¬∀ (m : PerfMachine) (type : MetricType), type ≠ .float →
      ∀ (c : Contribution) (cs : List Contribution) (ipackets : List PerfPacket),
        ipackets ≠ [] → List.Forall₂ Contribution.CarriedBy cs ipackets →
          SendsAverages m type c cs ipackets := by
  intro hall
  have hfirst := single_carriedBy .uint 1 [6] (by decide) (by decide)
  have hsecond := single_carriedBy .uint 2 [] (by decide) (by decide)
  have hsends := hall countingMachine .uint (by decide) (single 0 [4] (by decide)) _ _ (by simp)
    (.cons hfirst (.cons hsecond .nil))
  have hdivided := divided_of_sendsAverages (by decide) (.cons hfirst (.cons hsecond .nil)) hsends
  have hsum := hdivided.uncovered 0 (by decide) (by decide)
  revert hsum
  decide

end MRNet.Filters
