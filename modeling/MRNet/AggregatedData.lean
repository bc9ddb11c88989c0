import MRNet.CollectedData

/-!
# Aggregated performance data

What the loop of `tfilter_PerfData` leaves at each position, and which of it is sent.
-/
namespace MRNet.Filters
open Codec Buffers Reductions

/-- The data of a process or of a subtree. The number of ranks in a subtree is an `int`, and a
negative rank is the negative of one. -/
structure Contribution extends PerfNode where
  rank_ne : rank ≠ BitVec.intMin 32

namespace Contribution

def rankCount (c : Contribution) : ℕ := if c.rank.toInt < 0 then c.rank.toInt.natAbs else 1

/-- The packet brings the contribution. -/
structure CarriedBy (c : Contribution) (p : PerfPacket) : Prop where
  rank : p.ranks.elements[0]? = some c.rank
  data : p.data.elements = c.data

lemma rankCount_pos (c : Contribution) : 0 < c.rankCount := by
  unfold rankCount
  split_ifs <;> omega

/-- A number of ranks is an `int`. -/
lemma rankCount_lt (c : Contribution) : c.rankCount < 2 ^ 31 := by
  have hlow := BitVec.le_toInt c.rank
  have hne : c.rank.toInt ≠ -2 ^ 31 := fun h => c.rank_ne (BitVec.eq_of_toInt_eq h)
  unfold rankCount
  split_ifs
  · norm_num at hlow
    omega
  · decide

lemma nrank_eq (c : Contribution) :
    (if c.rank.slt 0 then -c.rank else 1) = BitVec.ofNat 32 c.rankCount := by
  have hslt : c.rank.slt 0 = true ↔ c.rank.toInt < 0 := by
    rw [BitVec.slt, decide_eq_true_eq]
    rfl
  unfold rankCount
  split_ifs with hneg htoInt htoInt
  · apply BitVec.eq_of_toInt_eq
    rw [BitVec.toInt_neg_of_ne_intMin c.rank_ne, ← BitVec.ofInt_natCast, Int.natCast_natAbs,
      abs_of_neg htoInt, ← BitVec.toInt_neg_of_ne_intMin c.rank_ne, BitVec.ofInt_toInt]
  · exact absurd (hslt.mp hneg) htoInt
  · exact absurd (hslt.mpr htoInt) hneg
  · rfl

/-- With its sign, the number is the same in 64 bits. -/
lemma signExtend_rankCount (c : Contribution) :
    (BitVec.ofNat 32 c.rankCount).signExtend 64 = BitVec.ofNat 64 c.rankCount := by
  have hlt := c.rankCount_lt
  have htoInt : (BitVec.ofNat 32 c.rankCount).toInt = c.rankCount := by
    rw [BitVec.toInt_eq_toNat_of_lt (by rw [BitVec.toNat_ofNat]; omega), BitVec.toNat_ofNat,
      Nat.mod_eq_of_lt (by omega)]
  rw [BitVec.signExtend, htoInt, BitVec.ofInt_natCast]

end Contribution

/-- The data at a position, each with the number of ranks that it is for. -/
def column (cs : List Contribution) (u : ℕ) : List (ℕ × Datum) :=
  cs.filterMap fun c => c.data[u]?.map fun v => (c.rankCount, v)

/-- The number of ranks with data. -/
def contributingRanks (cs : List Contribution) : ℕ :=
  (cs.map fun c => if c.data = [] then 0 else c.rankCount).sum

/-- The number of positions that are covered. -/
def longest (cs : List Contribution) : ℕ := (cs.map fun c => c.data.length).foldl max 0

/-- The number of positions that the last contribution covers. -/
def lastLength (cs : List Contribution) : ℕ := (cs.getLast?.map fun c => c.data.length).getD 0

section Append

variable (cs : List Contribution) (c : Contribution)

lemma column_append (u : ℕ) :
    column (cs ++ [c]) u = column cs u ++ (c.data[u]?.map fun v => (c.rankCount, v)).toList := by
  rw [column, List.filterMap_append, List.filterMap_cons, List.filterMap_nil]
  cases c.data[u]? <;> rfl

lemma contributingRanks_append :
    contributingRanks (cs ++ [c]) =
      contributingRanks cs + if c.data = [] then 0 else c.rankCount := by
  rw [contributingRanks, List.map_append, List.sum_append, List.map_singleton, List.sum_singleton]
  rfl

lemma longest_append : longest (cs ++ [c]) = max (longest cs) c.data.length := by
  rw [longest, List.map_append, List.foldl_append]
  rfl

lemma lastLength_append : lastLength (cs ++ [c]) = c.data.length := by
  rw [lastLength, List.getLast?_concat]
  rfl

end Append

/-- A position is covered by one of the contributions or by none. -/
lemma column_eq_nil_iff {cs : List Contribution} {u : ℕ} : column cs u = [] ↔ longest cs ≤ u := by
  induction cs using List.reverseRecOn with
  | nil => exact iff_of_true rfl (Nat.zero_le u)
  | append_singleton cs c ih =>
      rw [column_append, longest_append, List.append_eq_nil_iff, ih, max_le_iff,
        Option.toList_eq_nil_iff, Option.map_eq_none_iff, List.getElem?_eq_none_iff]

lemma length_le_longest {cs : List Contribution} {c : Contribution} (h : c ∈ cs) :
    c.data.length ≤ longest cs := by
  induction cs using List.reverseRecOn with
  | nil => cases h
  | append_singleton cs d ih =>
      rw [longest_append]
      rcases List.mem_append.mp h with hmem | hmem
      · exact (ih hmem).trans (le_max_left _ _)
      · rw [List.mem_singleton.mp hmem]
        exact le_max_right _ _

/-- One datum after the other is merged into what the position starts with. -/
def resultAt (m : PerfMachine) (type : MetricType) (aggrId : Aggregation)
    (cs : List Contribution) (u : ℕ) : Datum :=
  (column cs u).foldl (fun ag x => m.aggregate aggrId type (BitVec.ofNat 32 x.1) ag x.2)
    (PerfMachine.initial aggrId)

/-- What the loop has done with some contributions. -/
structure Aggregated (m : PerfMachine) (type : MetricType) (aggrId : Aggregation)
    (cs : List Contribution) (s : PerfState) : Prop where
  totalNranks : s.totalNranks = BitVec.ofNat 32 (contributingRanks cs)
  aggrResults : s.aggrResults = (List.range (longest cs)).map (resultAt m type aggrId cs)
  dataLen : s.dataLen = lastLength cs

section Loop

variable {m : PerfMachine} {type : MetricType} {aggrId : Aggregation}

lemma resultAt_append_of_lt {cs : List Contribution} {c : Contribution} {u : ℕ}
    (h : u < c.data.length) :
    resultAt m type aggrId (cs ++ [c]) u = m.aggregate aggrId type (BitVec.ofNat 32 c.rankCount)
      (resultAt m type aggrId cs u) c.data[u] := by
  rw [resultAt, column_append, List.getElem?_eq_getElem h, List.foldl_append]
  rfl

lemma resultAt_append_of_le {cs : List Contribution} {c : Contribution} {u : ℕ}
    (h : c.data.length ≤ u) :
    resultAt m type aggrId (cs ++ [c]) u = resultAt m type aggrId cs u := by
  rw [resultAt, column_append, List.getElem?_eq_none h, Option.map_none, Option.toList_none,
    List.append_nil]
  rfl

lemma resultAt_of_longest_le {cs : List Contribution} {u : ℕ} (h : longest cs ≤ u) :
    resultAt m type aggrId cs u = PerfMachine.initial aggrId := by
  rw [resultAt, column_eq_nil_iff.mpr h]
  rfl

/-- The results are made as long as the data, and the data are merged into the front. -/
lemma merge_eq {f : Datum → Datum → Datum} {r r' : ℕ → Datum} {init : Datum} {n : ℕ}
    {data : List Datum} (hinit : ∀ u, n ≤ u → r u = init)
    (hlt : ∀ u (h : u < data.length), r' u = f (r u) data[u])
    (hge : ∀ u, data.length ≤ u → r' u = r u) :
    List.zipWith f (((List.range n).map r ++ List.replicate (data.length - n) init).take
        data.length) data ++
      ((List.range n).map r ++ List.replicate (data.length - n) init).drop data.length =
        (List.range (max n data.length)).map r' := by
  have hpad : (List.range n).map r ++ List.replicate (data.length - n) init =
      (List.range (max n data.length)).map r := by
    refine List.ext_getElem (by simp; omega) fun u h₁ h₂ => ?_
    rw [List.getElem_map, List.getElem_range]
    by_cases hu : u < n
    · rw [List.getElem_append_left (by simpa using hu), List.getElem_map, List.getElem_range]
    · rw [List.getElem_append_right (by simpa using hu), List.getElem_replicate,
        hinit u (by omega)]
  rw [hpad]
  refine List.ext_getElem (by simp) fun u h₁ h₂ => ?_
  rw [List.getElem_map, List.getElem_range]
  by_cases hu : u < data.length
  · rw [List.getElem_append_left (by simp; omega), List.getElem_zipWith, List.getElem_take,
      List.getElem_map, List.getElem_range, hlt u hu]
  · rw [List.getElem_append_right (by simp; omega), List.getElem_drop, List.getElem_map,
      List.getElem_range, hge u (by omega)]
    congr 1
    simp
    omega

lemma aggregatePacket_aggregated {cs : List Contribution} {c : Contribution} {s : PerfState}
    {p : PerfPacket} (haggr : aggrId ≠ .arrayConcat) (hs : Aggregated m type aggrId cs s)
    (hp : c.CarriedBy p) :
    ∃ s', m.aggregatePacket type aggrId s p = .ok s' ∧ Aggregated m type aggrId (cs ++ [c]) s' := by
  rw [PerfMachine.aggregatePacket, hp.data]
  split_ifs with hzero
  · have hnil := List.eq_nil_of_length_eq_zero hzero
    refine ⟨_, rfl, ?_, ?_, ?_⟩
    · rw [contributingRanks_append, if_pos hnil, Nat.add_zero]
      exact hs.totalNranks
    · rw [longest_append, hzero, Nat.max_zero]
      refine hs.aggrResults.trans (List.map_congr_left fun u _ => ?_)
      rw [resultAt_append_of_le (by omega)]
    · rw [lastLength_append, hzero]
  · have hne : c.data ≠ [] := mt List.length_eq_zero_iff.mpr hzero
    have hrank : readArg p.ranks 0 = .ok c.rank := by
      rw [readArg, hp.rank]
      rfl
    rw [hrank, ok_bind, c.nrank_eq]
    refine ⟨_, rfl, ?_, ?_, ?_⟩
    · rw [contributingRanks_append, if_neg hne, BitVec.ofNat_add, hs.totalNranks]
    · rw [longest_append]
      have hlength : s.aggrResults.length = longest cs := by
        rw [hs.aggrResults, List.length_map, List.length_range]
      dsimp only
      rw [hlength, hs.aggrResults]
      exact merge_eq (fun u hu => resultAt_of_longest_le hu)
        (fun u hu => resultAt_append_of_lt hu) fun u hu => resultAt_append_of_le hu
    · rw [lastLength_append]

/-- The loop over the packets. -/
lemma aggregatePackets_aggregated {cs₀ cs : List Contribution} {ps : List PerfPacket}
    {s : PerfState} (haggr : aggrId ≠ .arrayConcat) (hs : Aggregated m type aggrId cs₀ s)
    (hps : List.Forall₂ Contribution.CarriedBy cs ps) :
    ∃ s', ps.foldlM (m.aggregatePacket type aggrId) s = .ok s' ∧
      Aggregated m type aggrId (cs₀ ++ cs) s' := by
  induction hps generalizing cs₀ s with
  | nil => exact ⟨s, rfl, by rwa [List.append_nil]⟩
  | @cons c p cs ps hp _ ih =>
      obtain ⟨s₁, hstep, hs₁⟩ := aggregatePacket_aggregated haggr hs hp
      obtain ⟨s', hrest, hs'⟩ := ih hs₁
      refine ⟨s', ?_, ?_⟩
      · rw [List.foldlM_cons, hstep, ok_bind, hrest]
      · rwa [List.append_assoc] at hs'

end Loop

/-- The block has the size of the results, as far as 32 bits can say it in bytes. -/
lemma length_of_aggregatedPacket {first p : PerfPacket} {totalNranks : BitVec 32}
    {aggrResults : List Datum} (h : aggregatedPacket first totalNranks aggrResults = .ok p) :
    aggrResults.length < 2 ^ 29 := by
  obtain ⟨data, hcopy, -⟩ := bind_ok_iff.mp h
  have hfits := (copyInto_ok hcopy).2.1
  have hsize := blockSize_lt (BitVec.ofNat 32 aggrResults.length)
  have hblock : (PerfArrays.allocate 1 (BitVec.ofNat 32 aggrResults.length)).data.length =
      (BitVec.ofNat 32 aggrResults.length * 8).toNat / 8 := List.length_replicate
  rw [hblock, Nat.zero_add] at hfits
  exact hfits.trans_lt hsize

lemma aggregatedPacket_data {aggrResults : List Datum} (h : aggrResults.length < 2 ^ 29)
    (first : PerfPacket) (totalNranks : BitVec 32) :
    ∃ p, aggregatedPacket first totalNranks aggrResults = .ok p ∧
      p.data.elements = aggrResults := by
  have hcopy : copyInto (filled [] aggrResults.length) 0 aggrResults aggrResults.length =
      .ok (filled aggrResults 0) := by
    have hstart : 0 = ([] : List Datum).length := rfl
    rw [copyInto_filled hstart le_rfl le_rfl, List.take_length, List.nil_append, Nat.sub_self]
  have hblock : (PerfArrays.allocate 1 (BitVec.ofNat 32 aggrResults.length)).data =
      filled [] aggrResults.length := by
    rw [PerfArrays.allocate, blockSize_eq h]
    rfl
  let arrays : PerfArrays := { PerfArrays.allocate 1 (BitVec.ofNat 32 aggrResults.length) with
    ranks := [some (-totalNranks)]
    nelems := [some (BitVec.ofNat 32 aggrResults.length)]
    data := filled aggrResults 0 }
  have hranks : arrays.ranks = filled [-totalNranks] 0 := rfl
  have hnelems : arrays.nelems = filled [BitVec.ofNat 32 aggrResults.length] 0 := rfl
  obtain ⟨p, hp, -, -, -, hdata⟩ := packet_filled hranks hnelems rfl rfl
    (by rw [List.length_singleton]; decide) (h.trans (by decide)) first
  refine ⟨p, ?_, hdata⟩
  rw [aggregatedPacket, hblock, hcopy, ok_bind]
  exact hp

section Filter

variable {m : PerfMachine} {type : MetricType} {aggrId : Aggregation}

/-- What is sent is never longer than a block can be. -/
lemma length_of_filterPerfData {n : PerfNode} {first p : PerfPacket} {rest : List PerfPacket}
    (haggr : aggrId ≠ .arrayConcat)
    (h : m.filterPerfData type aggrId n (first :: rest) = .ok [p]) :
    p.data.elements.length < 2 ^ 29 := by
  rw [filterPerfData_steps] at h
  obtain ⟨localData, -, h⟩ := bind_ok_iff.mp h
  obtain ⟨s, -, h⟩ := bind_ok_iff.mp h
  obtain ⟨aggrResults, -, h⟩ := bind_ok_iff.mp h
  obtain ⟨packet, hpacket, h⟩ := bind_ok_iff.mp h
  rw [newPacket, if_neg haggr] at hpacket
  have hlength := length_of_aggregatedPacket hpacket
  obtain ⟨q, hq, hdata⟩ := aggregatedPacket_data hlength first s.totalNranks
  cases h
  cases hpacket.symm.trans hq
  rw [hdata]
  exact hlength

lemma collectPerfData_carriedBy (type : MetricType) {c : Contribution} (aggrStrmId : BitVec 32)
    (h : c.data.length < 2 ^ 32) :
    ∃ p, collectPerfData type c.rank c.data aggrStrmId = .ok p ∧ c.CarriedBy p := by
  have hdata := ArrayArg.pass_elements (rfl : c.data.length = c.data.length) h
  rw [collectPerfData, collectArray_lt h]
  refine ⟨_, rfl, rfl, ?_⟩
  rw [toNat_ofNat_of_lt h]
  exact hdata

/-- The division and the packet are made of what the loop leaves. -/
lemma filterPerfData_aggregated (m : PerfMachine) (type : MetricType) {c : Contribution}
    {cs : List Contribution} {first : PerfPacket} {rest : List PerfPacket}
    (haggr : aggrId ≠ .arrayConcat) (hlocal : c.data.length < 2 ^ 32)
    (hcs : List.Forall₂ Contribution.CarriedBy cs (first :: rest)) :
    ∃ s, Aggregated m type aggrId (c :: cs) s ∧
      m.filterPerfData type aggrId c.toPerfNode (first :: rest) = (do
        let aggrResults ← m.average type aggrId s
        let packet ← aggregatedPacket first s.totalNranks aggrResults
        return [packet]) := by
  have hstart : Aggregated m type aggrId [] ⟨[], 0, 0, [], 0⟩ := ⟨rfl, rfl, rfl⟩
  obtain ⟨localData, hcollect, hcarried⟩ := collectPerfData_carriedBy type first.streamId hlocal
  obtain ⟨s, hloop, hs⟩ := aggregatePackets_aggregated haggr hstart (.cons hcarried hcs)
  refine ⟨s, hs, ?_⟩
  rw [filterPerfData_steps, hcollect, ok_bind, hloop, ok_bind]
  simp only [newPacket, if_neg haggr]

end Filter

/-- The contribution of a rank with its data. -/
def single (rank : BitVec 32) (data : List Datum) (h : rank ≠ BitVec.intMin 32) : Contribution :=
  ⟨⟨rank, data⟩, h⟩

/-- The packet of a child. -/
def childPacket (type : MetricType) (rank : BitVec 32) (data : List Datum) : PerfPacket where
  streamId := 9
  tag := protCollectPerfData
  fmtStr := type.fmt
  ranks := .pass [rank] 1
  nelems := .pass [BitVec.ofNat 32 data.length] 1
  data := .pass data data.length

lemma single_carriedBy (type : MetricType) (rank : BitVec 32) (data : List Datum)
    (h : rank ≠ BitVec.intMin 32) (hdata : data.length < 2 ^ 32) :
    (single rank data h).CarriedBy (childPacket type rank data) :=
  ⟨rfl, ArrayArg.pass_elements rfl hdata⟩

end MRNet.Filters
