import MRNet.PerformanceData

/-!
# Collected performance data

What the concatenation of performance data brings to the front-end.
-/
namespace MRNet.Filters
open Codec Buffers Reductions Std

/-- The data that a process sends. -/
def PerfNode.sent (n : PerfNode) : List Datum := if 2 ^ 32 ∣ n.data.length then [] else n.data

/-- The ranks of the processes that send data, with the data. -/
def rows (nodes : List PerfNode) : List (BitVec 32 × List Datum) :=
  (nodes.map fun n => (n.rank, n.sent)).filter fun row => row.2 ≠ []

lemma rows_append (xs ys : List PerfNode) : rows (xs ++ ys) = rows xs ++ rows ys := by
  rw [rows, List.map_append, List.filter_append]
  rfl

lemma rows_ne_nil {nodes : List PerfNode} {row : BitVec 32 × List Datum} (h : row ∈ rows nodes) :
    row.2 ≠ [] :=
  of_decide_eq_true (List.mem_filter.mp h).2

lemma rows_eq_nil {nodes : List PerfNode} (h : (rows nodes).flatMap Prod.snd = []) :
    rows nodes = [] := by
  rw [List.flatMap_eq_nil_iff] at h
  exact List.eq_nil_iff_forall_not_mem.mpr fun row hrow => rows_ne_nil hrow (h row hrow)

/-- The packet has some rows. -/
structure Encoded (type : MetricType) (p : PerfPacket) (rs : List (BitVec 32 × List Datum)) :
    Prop where
  fmtStr : p.fmtStr = type.fmt
  ranks : p.ranks.elements = rs.map Prod.fst
  nelems : p.nelems.elements = rs.map fun row => BitVec.ofNat 32 row.2.length
  data : p.data.elements = rs.flatMap Prod.snd

/-- A packet without data may have a rank. -/
structure CarriesData (type : MetricType) (nodes : List PerfNode) (p : PerfPacket) : Prop where
  fmtStr : p.fmtStr = type.fmt
  data : p.data.elements = (rows nodes).flatMap Prod.snd
  encoded : p.data.elements ≠ [] → Encoded type p (rows nodes)

lemma Encoded.carriesData {type : MetricType} {p : PerfPacket} {nodes : List PerfNode}
    (h : Encoded type p (rows nodes)) : CarriesData type nodes p :=
  ⟨h.fmtStr, h.data, fun _ => h⟩

lemma ofNat_eq_zero_iff (n : ℕ) : BitVec.ofNat 32 n = 0 ↔ 2 ^ 32 ∣ n := by
  rw [← BitVec.toNat_inj, BitVec.toNat_ofNat, Nat.dvd_iff_mod_eq_zero]
  rfl

lemma collectArray_multiple {data : List Datum} (h : 2 ^ 32 ∣ data.length) :
    collectArray data (BitVec.ofNat 32 data.length) = .ok [] := by
  rw [collectArray, if_pos ((ofNat_eq_zero_iff _).mpr h)]
  rfl

lemma toNat_ofNat_of_lt {n : ℕ} (h : n < 2 ^ 32) : (BitVec.ofNat 32 n).toNat = n := by
  rw [BitVec.toNat_ofNat, Nat.mod_eq_of_lt h]

lemma collectArray_lt {data : List Datum} (h : data.length < 2 ^ 32) :
    collectArray data (BitVec.ofNat 32 data.length) = .ok data := by
  unfold collectArray
  split_ifs with hzero
  · have hnil := Nat.eq_zero_of_dvd_of_lt ((ofNat_eq_zero_iff _).mp hzero) h
    rw [List.eq_nil_of_length_eq_zero hnil]
    rfl
  · have hstart : 0 = ([] : List Datum).length := rfl
    have hcopy := copyInto_filled hstart (Nat.le_refl data.length) (Nat.le_refl data.length)
    have hread := mapM_readAt_written data []
    rw [List.nil_append, List.take_length, Nat.sub_self] at hcopy
    rw [toNat_ofNat_of_lt h, allocate_eq_filled, hcopy, ok_bind]
    exact hread

lemma collectArray_ok {data dataArr : List Datum}
    (h : collectArray data (BitVec.ofNat 32 data.length) = .ok dataArr) :
    2 ^ 32 ∣ data.length ∨ data.length < 2 ^ 32 := by
  by_cases hdvd : 2 ^ 32 ∣ data.length
  · exact .inl hdvd
  · right
    rw [collectArray, if_neg (mt (ofNat_eq_zero_iff _).mp hdvd)] at h
    obtain ⟨block, hcopy, -⟩ := bind_ok_iff.mp h
    have hle := (copyInto_ok hcopy).2.1
    rw [allocate, List.length_replicate, BitVec.toNat_ofNat, Nat.zero_add] at hle
    exact hle.trans_lt (Nat.mod_lt _ (by decide))

lemma collectPerfData_carries (type : MetricType) (n : PerfNode) (aggrStrmId : BitVec 32)
    (h : 2 ^ 32 ∣ n.data.length ∨ n.data.length < 2 ^ 32) :
    ∃ p, collectPerfData type n.rank n.data aggrStrmId = .ok p ∧ CarriesData type [n] p := by
  have hrank : (ArrayArg.pass [n.rank] 1).elements = [n.rank] := rfl
  have hnelems : (ArrayArg.pass [BitVec.ofNat 32 n.data.length] 1).elements =
    [BitVec.ofNat 32 n.data.length] := rfl
  by_cases hdvd : 2 ^ 32 ∣ n.data.length
  · have hsent : n.sent = [] := if_pos hdvd
    have hrows : rows [n] = [] := by
      rw [rows, List.map_singleton, hsent]
      rfl
    have hdata : (ArrayArg.pass ([] : List Datum) (BitVec.ofNat 32 n.data.length).toNat).elements =
        [] := List.take_nil
    refine ⟨_, bind_ok_iff.mpr ⟨[], collectArray_multiple hdvd, rfl⟩, rfl, ?_, ?_⟩
    · rw [hrows]
      exact hdata
    · exact fun hne => absurd hdata hne
  · have hlt := h.resolve_left hdvd
    have hsent : n.sent = n.data := if_neg hdvd
    have hne : n.data ≠ [] := by
      intro hnil
      rw [hnil] at hdvd
      exact hdvd (dvd_zero _)
    have hrows : rows [n] = [(n.rank, n.data)] := by
      rw [rows, List.map_singleton, hsent]
      exact List.filter_eq_self.mpr (by simpa using hne)
    have hdata := ArrayArg.pass_elements (rfl : n.data.length = n.data.length) hlt
    refine ⟨_, bind_ok_iff.mpr ⟨n.data, collectArray_lt hlt, rfl⟩, Encoded.carriesData ?_⟩
    rw [hrows]
    refine ⟨rfl, hrank, hnelems, ?_⟩
    have hsize := toNat_ofNat_of_lt hlt
    simp only [hsize, hdata]
    exact (List.append_nil n.data).symm

/-- The packets whose arrays are noted. -/
def kept (ps : List PerfPacket) : List PerfPacket := ps.filter fun p => p.data.elements ≠ []

def dataTotal (ps : List PerfPacket) : ℕ := (ps.map fun p => p.data.elements.length).sum

def rankTotal (ps : List PerfPacket) : ℕ := (ps.map fun p => p.ranks.elements.length).sum

@[simp] lemma dataTotal_cons (p : PerfPacket) (ps : List PerfPacket) :
    dataTotal (p :: ps) = p.data.elements.length + dataTotal ps := rfl

@[simp] lemma rankTotal_cons (p : PerfPacket) (ps : List PerfPacket) :
    rankTotal (p :: ps) = p.ranks.elements.length + rankTotal ps := rfl

/-- The loop for the concatenation. -/
lemma aggregatePackets_concat (m : PerfMachine) (type : MetricType) (ps : List PerfPacket)
    (s : PerfState) :
    ∃ dataLen, ps.foldlM (m.aggregatePacket type .arrayConcat) s = .ok ⟨s.inputs ++ kept ps,
      s.totalNdatums + BitVec.ofNat 32 (dataTotal (kept ps)),
      s.totalNranks + BitVec.ofNat 32 (rankTotal (kept ps)), s.aggrResults, dataLen⟩ := by
  induction ps generalizing s with
  | nil => exact ⟨s.dataLen, by simp [kept, dataTotal, rankTotal]; rfl⟩
  | cons p ps ih =>
      by_cases hp : p.data.elements = []
      · have hlen : p.data.elements.length = 0 := List.length_eq_zero_iff.mpr hp
        have hkept : kept (p :: ps) = kept ps := by
          rw [kept, List.filter_cons_of_neg (by simpa using hp)]
          rfl
        have hstep : m.aggregatePacket type .arrayConcat s p = .ok { s with dataLen := 0 } := by
          rw [PerfMachine.aggregatePacket, if_pos hlen]
          rfl
        rw [List.foldlM_cons, hstep, ok_bind, hkept]
        exact ih _
      · have hlen : p.data.elements.length ≠ 0 := mt List.length_eq_zero_iff.mp hp
        have hkept : kept (p :: ps) = p :: kept ps := by
          rw [kept, List.filter_cons_of_pos (by simpa using hp)]
          rfl
        obtain ⟨dataLen, hrest⟩ := ih { s with
          inputs := s.inputs ++ [p]
          totalNdatums := s.totalNdatums + BitVec.ofNat 32 p.data.elements.length
          totalNranks := s.totalNranks + BitVec.ofNat 32 p.ranks.elements.length
          dataLen := p.data.elements.length }
        have hstep : m.aggregatePacket type .arrayConcat s p = .ok { s with
            inputs := s.inputs ++ [p]
            totalNdatums := s.totalNdatums + BitVec.ofNat 32 p.data.elements.length
            totalNranks := s.totalNranks + BitVec.ofNat 32 p.ranks.elements.length
            dataLen := p.data.elements.length } := by
          rw [PerfMachine.aggregatePacket, if_neg hlen, if_pos rfl]
          rfl
        refine ⟨dataLen, ?_⟩
        rw [List.foldlM_cons, hstep, ok_bind, hrest, hkept, dataTotal_cons, rankTotal_cons,
          BitVec.ofNat_add, BitVec.ofNat_add, List.append_assoc, BitVec.add_assoc, BitVec.add_assoc]
        rfl

/-- Blocks that are filled from the start. -/
structure PerfArrays.Filled (s : PerfArrays) (rs ns : List (BitVec 32)) (ds : List Datum)
    (freeRanks freeData : ℕ) : Prop where
  ranks : s.ranks = filled rs freeRanks
  currRank : s.currRank = rs.length
  nelems : s.nelems = filled ns freeRanks
  currNelems : s.currNelems = ns.length
  data : s.data = filled ds freeData
  currData : s.currData = ds.length

lemma copy_filled {p : PerfPacket} {s : PerfArrays} {ranks nelems : List (BitVec 32)}
    {data : List Datum} {freeRanks freeData : ℕ} (h : s.Filled ranks nelems data freeRanks freeData)
    (hnelems : p.nelems.elements.length = p.ranks.elements.length)
    (hranks : p.ranks.elements.length ≤ freeRanks) (hdata : p.data.elements.length ≤ freeData) :
    ∃ s', s.copy p = .ok s' ∧
      s'.Filled (ranks ++ p.ranks.elements) (nelems ++ p.nelems.elements)
        (data ++ p.data.elements) (freeRanks - p.ranks.elements.length)
        (freeData - p.data.elements.length) := by
  have hcopyRanks := copyInto_filled h.currRank le_rfl hranks
  have hcopyNelems := copyInto_filled h.currNelems le_rfl (hnelems ▸ hranks)
  have hcopyData := copyInto_filled h.currData le_rfl hdata
  rw [← h.ranks, List.take_length] at hcopyRanks
  rw [← h.nelems, List.take_length] at hcopyNelems
  rw [← h.data, List.take_length] at hcopyData
  refine ⟨_, bind_ok_iff.mpr ⟨_, hcopyRanks, bind_ok_iff.mpr ⟨_, hcopyNelems,
    bind_ok_iff.mpr ⟨_, hcopyData, rfl⟩⟩⟩, rfl, ?_, ?_, ?_, rfl, ?_⟩
  · rw [List.length_append, h.currRank]
  · rw [hnelems]
  · rw [List.length_append, h.currNelems]
  · rw [List.length_append, h.currData]

lemma copyAll_filled {ps : List PerfPacket} {s : PerfArrays} {ranks nelems : List (BitVec 32)}
    {data : List Datum} {freeRanks freeData : ℕ} (h : s.Filled ranks nelems data freeRanks freeData)
    (hnelems : ∀ p ∈ ps, p.nelems.elements.length = p.ranks.elements.length)
    (hranks : rankTotal ps ≤ freeRanks) (hdata : dataTotal ps ≤ freeData) :
    ∃ s', ps.foldlM PerfArrays.copy s = .ok s' ∧
      s'.Filled (ranks ++ ps.flatMap fun p => p.ranks.elements)
        (nelems ++ ps.flatMap fun p => p.nelems.elements)
        (data ++ ps.flatMap fun p => p.data.elements) (freeRanks - rankTotal ps)
        (freeData - dataTotal ps) := by
  induction ps generalizing s ranks nelems data freeRanks freeData with
  | nil =>
      refine ⟨s, rfl, ?_⟩
      simpa [rankTotal, dataTotal] using h
  | cons p ps ih =>
      obtain ⟨hp, hps⟩ := List.forall_mem_cons.mp hnelems
      rw [rankTotal_cons] at hranks
      rw [dataTotal_cons] at hdata
      obtain ⟨s₁, hcopy, hfilled⟩ := copy_filled h hp (by omega) (by omega)
      obtain ⟨s', hcopies, hfilled'⟩ := ih hfilled hps (by omega) (by omega)
      refine ⟨s', ?_, ?_⟩
      · rw [List.foldlM_cons, hcopy, ok_bind, hcopies]
      · rw [List.append_assoc, List.append_assoc, List.append_assoc, Nat.sub_sub, Nat.sub_sub]
          at hfilled'
        exact hfilled'

/-- Blocks that are full are passed as they are. -/
lemma packet_filled {s : PerfArrays} {rs ns : List (BitVec 32)} {ds : List Datum}
    (hranksFull : s.ranks = filled rs 0) (hnelemsFull : s.nelems = filled ns 0)
    (hdataFull : s.data = filled ds 0) (hlength : ns.length = rs.length)
    (hrs : rs.length < 2 ^ 32) (hds : ds.length < 2 ^ 32) (first : PerfPacket) :
    ∃ q, s.packet first (BitVec.ofNat 32 rs.length) (BitVec.ofNat 32 ds.length) = .ok q ∧
      q.fmtStr = first.fmtStr ∧ q.ranks.elements = rs ∧ q.nelems.elements = ns ∧
      q.data.elements = ds := by
  have hranks : (List.range rs.length).mapM (readAt s.ranks) = .ok rs := by
    rw [hranksFull]
    exact mapM_readAt_written rs []
  have hnelems : (List.range rs.length).mapM (readAt s.nelems) = .ok ns := by
    rw [hnelemsFull, ← hlength]
    exact mapM_readAt_written ns []
  have hdata : (List.range ds.length).mapM (readAt s.data) = .ok ds := by
    rw [hdataFull]
    exact mapM_readAt_written ds []
  refine ⟨⟨first.streamId, first.tag, first.fmtStr, .pass rs rs.length, .pass ns rs.length,
    .pass ds ds.length⟩, ?_, rfl, ArrayArg.pass_elements rfl hrs,
    ArrayArg.pass_elements hlength hrs, ArrayArg.pass_elements rfl hds⟩
  rw [PerfArrays.packet, toNat_ofNat_of_lt hrs, toNat_ofNat_of_lt hds, hranks, ok_bind, hnelems,
    ok_bind, hdata]
  rfl

lemma copyInto_length {α : Type} {block block' : Block α} {pos count : ℕ} {source : List α}
    (h : copyInto block pos source count = .ok block') : block'.length = block.length := by
  obtain ⟨hsource, hblock, rfl⟩ := copyInto_ok h
  rw [List.length_append, List.length_append, List.length_take, List.length_map, List.length_take,
    List.length_drop]
  omega

/-- All that is copied fits in the block. -/
lemma copyAll_fits {ps : List PerfPacket} {s s' : PerfArrays}
    (h : ps.foldlM PerfArrays.copy s = .ok s') (hs : s.currData ≤ s.data.length) :
    s.currData + dataTotal ps ≤ s.data.length := by
  induction ps generalizing s with
  | nil => exact hs
  | cons p ps ih =>
      rw [List.foldlM_cons] at h
      obtain ⟨s₁, hcopy, hcopies⟩ := bind_ok_iff.mp h
      obtain ⟨ranks, -, hcopy⟩ := bind_ok_iff.mp hcopy
      obtain ⟨nelems, -, hcopy⟩ := bind_ok_iff.mp hcopy
      obtain ⟨data, hdata, hcopy⟩ := bind_ok_iff.mp hcopy
      cases hcopy
      have hlength := copyInto_length hdata
      have hfits := (copyInto_ok hdata).2.1
      have hrest : s.currData + p.data.elements.length + dataTotal ps ≤ data.length :=
        ih hcopies (by rw [hlength]; exact hfits)
      rw [dataTotal_cons]
      omega

/-- The arrays of the packets that are kept are those of the rows. -/
lemma kept_rows {type : MetricType} {inputs : List (List PerfNode)} {ps : List PerfPacket}
    (h : List.Forall₂ (CarriesData type) inputs ps) :
    ((kept ps).flatMap fun p => p.ranks.elements) = (rows inputs.flatten).map Prod.fst ∧
      ((kept ps).flatMap fun p => p.nelems.elements) =
        (rows inputs.flatten).map (fun row => BitVec.ofNat 32 row.2.length) ∧
      ((kept ps).flatMap fun p => p.data.elements) = (rows inputs.flatten).flatMap Prod.snd ∧
      ∀ p ∈ kept ps, p.nelems.elements.length = p.ranks.elements.length := by
  induction h with
  | nil => exact ⟨rfl, rfl, rfl, fun p hp => nomatch hp⟩
  | @cons nodes p inputs ps hp _ ih =>
      obtain ⟨hranks, hnelems, hdata, hlengths⟩ := ih
      rw [List.flatten_cons, rows_append, List.map_append, List.map_append, List.flatMap_append,
        ← hranks, ← hnelems, ← hdata]
      by_cases hnil : p.data.elements = []
      · have hkept : kept (p :: ps) = kept ps := by
          rw [kept, List.filter_cons_of_neg (by simpa using hnil)]
          rfl
        have hrows : rows nodes = [] := rows_eq_nil (hp.data.symm.trans hnil)
        rw [hkept, hrows]
        exact ⟨rfl, rfl, rfl, hlengths⟩
      · have hkept : kept (p :: ps) = p :: kept ps := by
          rw [kept, List.filter_cons_of_pos (by simpa using hnil)]
          rfl
        have hencoded := hp.encoded hnil
        rw [hkept, List.flatMap_cons, List.flatMap_cons, List.flatMap_cons, hencoded.ranks,
          hencoded.nelems, hencoded.data]
        refine ⟨rfl, rfl, rfl, List.forall_mem_cons.mpr ⟨?_, hlengths⟩⟩
        rw [hencoded.nelems, hencoded.ranks, List.length_map, List.length_map]

/-- The number of data that the processes send. -/
def sentTotal (nodes : List PerfNode) : ℕ := ((rows nodes).flatMap Prod.snd).length

lemma length_rows_le (nodes : List PerfNode) : (rows nodes).length ≤ sentTotal nodes := by
  have hle : ∀ rs : List (BitVec 32 × List Datum), (∀ row ∈ rs, row.2 ≠ []) →
      rs.length ≤ (rs.flatMap Prod.snd).length := by
    intro rs hrs
    induction rs with
    | nil => exact le_rfl
    | cons row rs ih =>
        obtain ⟨hrow, hrest⟩ := List.forall_mem_cons.mp hrs
        have hpos := List.length_pos_iff.mpr hrow
        have htail := ih hrest
        rw [List.flatMap_cons, List.length_append, List.length_cons]
        omega
  exact hle (rows nodes) fun row hrow => rows_ne_nil hrow

lemma dataTotal_eq (ps : List PerfPacket) :
    dataTotal ps = (ps.flatMap fun p => p.data.elements).length := by
  rw [dataTotal, List.length_flatMap]

lemma rankTotal_eq (ps : List PerfPacket) :
    rankTotal ps = (ps.flatMap fun p => p.ranks.elements).length := by
  rw [rankTotal, List.length_flatMap]

/-- The size of the block in bytes is computed with 32 bits. -/
lemma blockSize_lt (n : BitVec 32) : (n * 8).toNat / 8 < 2 ^ 29 := by
  have hlt := (n * 8).isLt
  omega

lemma blockSize_eq {n : ℕ} (h : n < 2 ^ 29) : (BitVec.ofNat 32 n * 8).toNat / 8 = n := by
  have height : (8 : BitVec 32).toNat = 8 := rfl
  rw [BitVec.toNat_mul, toNat_ofNat_of_lt (by omega), height]
  omega

section Concat

variable {type : MetricType} {inputs : List (List PerfNode)} {ps : List PerfPacket}
  {first q : PerfPacket} {aggrResults : List Datum} {dataLen : ℕ}

lemma concatPacket_fits (h : List.Forall₂ (CarriesData type) inputs ps)
    (hok : concatPacket first ⟨kept ps, BitVec.ofNat 32 (dataTotal (kept ps)),
      BitVec.ofNat 32 (rankTotal (kept ps)), aggrResults, dataLen⟩ = .ok q) :
    sentTotal inputs.flatten < 2 ^ 29 := by
  obtain ⟨s, hcopy, -⟩ := bind_ok_iff.mp hok
  have hfits := copyAll_fits hcopy (Nat.zero_le _)
  have hsize := blockSize_lt (BitVec.ofNat 32 (dataTotal (kept ps)))
  have hblock : (PerfArrays.allocate (BitVec.ofNat 32 (rankTotal (kept ps)))
      (BitVec.ofNat 32 (dataTotal (kept ps)))).data.length =
        (BitVec.ofNat 32 (dataTotal (kept ps)) * 8).toNat / 8 := List.length_replicate
  have hstart : (PerfArrays.allocate (BitVec.ofNat 32 (rankTotal (kept ps)))
      (BitVec.ofNat 32 (dataTotal (kept ps)))).currData = 0 := rfl
  rw [hblock, hstart, Nat.zero_add] at hfits
  rw [sentTotal, ← (kept_rows h).2.2.1, ← dataTotal_eq]
  exact hfits.trans_lt hsize

lemma concatPacket_encoded (aggrResults : List Datum) (dataLen : ℕ)
    (h : List.Forall₂ (CarriesData type) inputs ps)
    (htotal : sentTotal inputs.flatten < 2 ^ 29) (hfirst : first.fmtStr = type.fmt) :
    ∃ q, concatPacket first ⟨kept ps, BitVec.ofNat 32 (dataTotal (kept ps)),
        BitVec.ofNat 32 (rankTotal (kept ps)), aggrResults, dataLen⟩ = .ok q ∧
      Encoded type q (rows inputs.flatten) := by
  obtain ⟨hranks, hnelems, hdata, hlengths⟩ := kept_rows h
  have hdataTotal : dataTotal (kept ps) = sentTotal inputs.flatten := by
    rw [dataTotal_eq, hdata, sentTotal]
  have hrankTotal : rankTotal (kept ps) = (rows inputs.flatten).length := by
    rw [rankTotal_eq, hranks, List.length_map]
  have hrows := (length_rows_le inputs.flatten).trans_lt htotal
  have hrankSize := toNat_ofNat_of_lt (n := (rows inputs.flatten).length) (by omega)
  have hdataSize := toNat_ofNat_of_lt (n := sentTotal inputs.flatten) (by omega)
  have hstart : (PerfArrays.allocate (BitVec.ofNat 32 (rows inputs.flatten).length)
      (BitVec.ofNat 32 (sentTotal inputs.flatten))).Filled [] [] [] (rows inputs.flatten).length
        (sentTotal inputs.flatten) := by
    refine ⟨?_, rfl, ?_, rfl, ?_, rfl⟩
    · rw [PerfArrays.allocate, hrankSize]
      rfl
    · rw [PerfArrays.allocate, hrankSize]
      rfl
    · rw [PerfArrays.allocate, blockSize_eq htotal]
      rfl
  obtain ⟨s, hcopy, hfilled⟩ := copyAll_filled hstart hlengths hrankTotal.le hdataTotal.le
  rw [hranks, hnelems, hdata, hrankTotal, hdataTotal, Nat.sub_self, Nat.sub_self, List.nil_append,
    List.nil_append, List.nil_append] at hfilled
  obtain ⟨q, hpacket, hfmt, hqranks, hqnelems, hqdata⟩ := packet_filled hfilled.ranks
    hfilled.nelems hfilled.data (by rw [List.length_map, List.length_map])
    (by rw [List.length_map]; omega)
    (by rw [← sentTotal]; omega) first
  rw [List.length_map, ← sentTotal] at hpacket
  refine ⟨q, ?_, hfmt.trans hfirst, hqranks, hqnelems, hqdata⟩
  rw [concatPacket, hrankTotal, hdataTotal, hcopy, ok_bind, hpacket]

end Concat

section Filter

variable {m : PerfMachine} {type : MetricType} {n : PerfNode} {inputs : List (List PerfNode)}
  {results : List PerfPacket}

/-- The filter collects, and aggregates what it collected and what it got. -/
lemma filterPerfData_steps (m : PerfMachine) (type : MetricType) (aggrId : Aggregation)
    (n : PerfNode) (first : PerfPacket) (rest : List PerfPacket) :
    m.filterPerfData type aggrId n (first :: rest) = (do
      let localData ← collectPerfData type n.rank n.data first.streamId
      let s ← (localData :: first :: rest).foldlM (m.aggregatePacket type aggrId) ⟨[], 0, 0, [], 0⟩
      let aggrResults ← m.average type aggrId s
      let packet ← newPacket aggrId first s aggrResults
      return [packet]) := by
  unfold PerfMachine.filterPerfData PerfMachine.tfilterPerfData
  rw [if_neg (by simp)]
  change (do
    let packets ← (do
      let localData ← collectPerfData type n.rank n.data first.streamId
      pure (localData :: first :: rest))
    let s ← packets.foldlM (m.aggregatePacket type aggrId) ⟨[], 0, 0, [], 0⟩
    let aggrResults ← m.average type aggrId s
    let packet ← newPacket aggrId first s aggrResults
    return [packet]) = _
  rw [bind_assoc]
  rfl

/-- For the concatenation, nothing is divided. -/
lemma filterPerfData_eq (m : PerfMachine) (type : MetricType) (n : PerfNode) (first : PerfPacket)
    (rest : List PerfPacket) :
    ∃ dataLen : PerfPacket → ℕ, m.filterPerfData type .arrayConcat n (first :: rest) = (do
      let localData ← collectPerfData type n.rank n.data first.streamId
      let packet ← concatPacket first ⟨kept (localData :: first :: rest),
        BitVec.ofNat 32 (dataTotal (kept (localData :: first :: rest))),
        BitVec.ofNat 32 (rankTotal (kept (localData :: first :: rest))), [], dataLen localData⟩
      return [packet]) := by
  have hstart : ∀ localData : PerfPacket, ∃ dataLen,
      (localData :: first :: rest).foldlM (m.aggregatePacket type .arrayConcat) ⟨[], 0, 0, [], 0⟩ =
        .ok ⟨kept (localData :: first :: rest),
          BitVec.ofNat 32 (dataTotal (kept (localData :: first :: rest))),
          BitVec.ofNat 32 (rankTotal (kept (localData :: first :: rest))), [], dataLen⟩ := by
    intro localData
    obtain ⟨dataLen, hloop⟩ :=
      aggregatePackets_concat m type (localData :: first :: rest) ⟨[], 0, 0, [], 0⟩
    exact ⟨dataLen, by simpa using hloop⟩
  choose dataLen hloop using hstart
  refine ⟨dataLen, ?_⟩
  rw [filterPerfData_steps]
  congr 1
  funext localData
  rw [hloop, ok_bind, PerfMachine.average, if_neg (by simp)]
  rfl

/-- The filter of a process returns for a number of data that fits in the block. -/
lemma filterPerfData_returns (hresults : List.Forall₂ (CarriesData type) inputs results)
    (hne : results ≠ []) (hdata : 2 ^ 32 ∣ n.data.length ∨ n.data.length < 2 ^ 32)
    (htotal : sentTotal (n :: inputs.flatten) < 2 ^ 29) :
    ∃ q, m.filterPerfData type .arrayConcat n results = .ok [q] ∧
      Encoded type q (rows (n :: inputs.flatten)) := by
  obtain ⟨first, rest, rfl⟩ := List.exists_cons_of_ne_nil hne
  obtain ⟨dataLen, heq⟩ := filterPerfData_eq m type n first rest
  obtain ⟨localData, hcollect, hcarries⟩ := collectPerfData_carries type n first.streamId hdata
  have hfirst : first.fmtStr = type.fmt := by
    cases hresults with
    | cons h _ => exact h.fmtStr
  obtain ⟨q, hq, hencoded⟩ :=
    concatPacket_encoded [] (dataLen localData) (hresults.cons hcarries) htotal hfirst
  refine ⟨q, ?_, hencoded⟩
  rw [heq, hcollect, ok_bind, hq]
  rfl

/-- If it returns, the number of data did fit. -/
lemma filterPerfData_ok (hresults : List.Forall₂ (CarriesData type) inputs results)
    (hne : results ≠ []) {qs : List PerfPacket}
    (hok : m.filterPerfData type .arrayConcat n results = .ok qs) :
    sentTotal (n :: inputs.flatten) < 2 ^ 29 ∧
      ∃ q, qs = [q] ∧ Encoded type q (rows (n :: inputs.flatten)) := by
  obtain ⟨first, rest, rfl⟩ := List.exists_cons_of_ne_nil hne
  obtain ⟨dataLen, heq⟩ := filterPerfData_eq m type n first rest
  have hpacket := hok
  rw [heq] at hpacket
  obtain ⟨localData, hcollect, hpacket⟩ := bind_ok_iff.mp hpacket
  obtain ⟨dataArr, harray, -⟩ := bind_ok_iff.mp hcollect
  have hdata := collectArray_ok harray
  obtain ⟨localData', hcollect', hcarries⟩ := collectPerfData_carries type n first.streamId hdata
  cases hcollect.symm.trans hcollect'
  obtain ⟨packet, hconcat, -⟩ := bind_ok_iff.mp hpacket
  have htotal : sentTotal (n :: inputs.flatten) < 2 ^ 29 :=
    concatPacket_fits (hresults.cons hcarries) hconcat
  obtain ⟨q, hq, hencoded⟩ := filterPerfData_returns (m := m) hresults hne hdata htotal
  cases hok.symm.trans hq
  exact ⟨htotal, q, rfl, hencoded⟩

end Filter

def insertRows (rs : List (BitVec 32 × List Datum)) (results : RankPerfDataMap) : RankPerfDataMap :=
  rs.foldl (fun results row => results.insert row.1 row.2) results

lemma insertRows_append (rs : List (BitVec 32 × List Datum)) (row : BitVec 32 × List Datum)
    (results : RankPerfDataMap) :
    insertRows (rs ++ [row]) results = (insertRows rs results).insert row.1 row.2 :=
  List.foldl_append

lemma unpackRank_row {type : MetricType} {p : PerfPacket}
    {rs before after : List (BitVec 32 × List Datum)}
    {row : BitVec 32 × List Datum} (h : Encoded type p rs) (hrs : rs = before ++ row :: after)
    (htotal : (rs.flatMap Prod.snd).length < 2 ^ 32) (results : RankPerfDataMap) :
    unpackRank p (results, BitVec.ofNat 32 (before.flatMap Prod.snd).length) before.length =
      .ok (results.insert row.1 row.2,
        BitVec.ofNat 32 ((before ++ [row]).flatMap Prod.snd).length) := by
  have hget : rs[before.length]? = some row := by
    rw [hrs, List.getElem?_append_right le_rfl, Nat.sub_self]
    rfl
  have hdata : p.data.elements = before.flatMap Prod.snd ++ (row.2 ++ after.flatMap Prod.snd) := by
    rw [h.data, hrs, List.flatMap_append, List.flatMap_cons]
  rw [← h.data, hdata, List.length_append, List.length_append] at htotal
  have hnelems : readArg p.nelems before.length = .ok (BitVec.ofNat 32 row.2.length) := by
    rw [readArg, h.nelems, List.getElem?_map, hget]
    rfl
  have hrank : readArg p.ranks before.length = .ok row.1 := by
    rw [readArg, h.ranks, List.getElem?_map, hget]
    rfl
  have hoffset := toNat_ofNat_of_lt (n := (before.flatMap Prod.snd).length) (by omega)
  have hcount := toNat_ofNat_of_lt (n := row.2.length) (by omega)
  have hrow : (List.range row.2.length).mapM (fun v => readArg p.data
      ((BitVec.ofNat 32 (before.flatMap Prod.snd).length).toNat + v)) = .ok row.2 := by
    rw [mapM_ok_iff, List.forall₂_iff_get]
    refine ⟨List.length_range, fun i hi hi' => ?_⟩
    rw [List.get_eq_getElem, List.get_eq_getElem, List.getElem_range, readArg, hoffset, hdata,
      List.getElem?_append_right (by omega), Nat.add_sub_cancel_left,
      List.getElem?_append_left hi', List.getElem?_eq_getElem hi']
    rfl
  rw [unpackRank, hnelems, ok_bind, hrank, ok_bind]
  simp only [hcount]
  rw [hrow, ok_bind, List.flatMap_append, List.length_append, List.flatMap_singleton,
    BitVec.ofNat_add]
  rfl

lemma unpackResults_encoded {type : MetricType} {p : PerfPacket}
    {rs : List (BitVec 32 × List Datum)} (h : Encoded type p rs)
    (htotal : (rs.flatMap Prod.snd).length < 2 ^ 32) (results : RankPerfDataMap) :
    unpackResults type p results = .ok (insertRows rs results) := by
  have hloop : ∀ before after, rs = before ++ after →
      (List.range before.length).foldlM (unpackRank p) (results, 0) = .ok
        (insertRows before results, BitVec.ofNat 32 (before.flatMap Prod.snd).length) := by
    intro before
    induction before using List.reverseRecOn with
    | nil => exact fun after _ => rfl
    | append_singleton before row ih =>
        intro after hafter
        rw [List.append_assoc, List.singleton_append] at hafter
        rw [List.length_append, List.length_singleton, List.range_succ, List.foldlM_append,
          ih _ hafter, ok_bind, List.foldlM_cons, unpackRank_row h hafter htotal, insertRows_append]
        rfl
  have hlength : p.ranks.elements.length = rs.length := by
    rw [h.ranks, List.length_map]
  rw [unpackResults, if_neg (not_not.mpr h.fmtStr), hlength, hloop rs [] (List.append_nil rs).symm]
  rfl

/-- With distinct ranks, no row is overwritten. -/
lemma getElem?_insertRows {rs : List (BitVec 32 × List Datum)} (hrs : (rs.map Prod.fst).Nodup)
    (r : BitVec 32) (v : List Datum) : (insertRows rs ∅)[r]? = some v ↔ (r, v) ∈ rs := by
  induction rs using List.reverseRecOn with
  | nil =>
      rw [insertRows, List.foldl_nil, TreeMap.getElem?_emptyc]
      simp
  | append_singleton rs row ih =>
      rw [List.map_append, List.nodup_append] at hrs
      obtain ⟨hnodup, -, hdisjoint⟩ := hrs
      rw [insertRows_append, TreeMap.getElem?_insert, List.mem_append, List.mem_singleton]
      split_ifs with hcmp
      · have hr : row.1 = r := LawfulEqCmp.eq_of_compare hcmp
        have hnot : (r, v) ∉ rs := by
          intro hmem
          exact hdisjoint r (List.mem_map_of_mem (f := Prod.fst) hmem) row.1
            (by simp) hr.symm
        constructor
        · rintro ⟨⟩
          exact .inr (by rw [← hr])
        · rintro (hmem | rfl)
          · exact absurd hmem hnot
          · rfl
      · have hne : (r, v) ≠ row := by
          rintro rfl
          exact hcmp ReflCmp.compare_self
        rw [ih hnodup]
        exact (or_iff_left hne).symm

/-- The keys are the ranks of the processes with data, and every vector is that of its process. -/
def HasAllData (nodes : List PerfNode) (results : RankPerfDataMap) : Prop :=
  ∀ r v, results[r]? = some v ↔ v ≠ [] ∧ ⟨r, v⟩ ∈ nodes

/-- The number of all data. -/
def dataCount (nodes : List PerfNode) : ℕ := (nodes.map fun n => n.data.length).sum

lemma rows_nodup {nodes : List PerfNode} (h : (nodes.map PerfNode.rank).Nodup) :
    ((rows nodes).map Prod.fst).Nodup := by
  have hsub :
      ((rows nodes).map Prod.fst).Sublist ((nodes.map fun n => (n.rank, n.sent)).map Prod.fst) :=
    List.filter_sublist.map Prod.fst
  rw [List.map_map] at hsub
  exact hsub.nodup h

lemma mem_rows {nodes : List PerfNode} {r : BitVec 32} {v : List Datum} :
    (r, v) ∈ rows nodes ↔ v ≠ [] ∧ ∃ n ∈ nodes, n.rank = r ∧ n.sent = v := by
  rw [rows, List.mem_filter, List.mem_map, decide_eq_true_eq, and_comm]
  simp only [Prod.mk.injEq]

lemma sentTotal_eq (nodes : List PerfNode) :
    sentTotal nodes = (nodes.map fun n => n.sent.length).sum := by
  induction nodes with
  | nil => rfl
  | cons n nodes ih =>
      have hcons : rows (n :: nodes) = rows [n] ++ rows nodes := rows_append [n] nodes
      have hone : sentTotal [n] = n.sent.length := by
        by_cases hsent : n.sent = []
        · simp [sentTotal, rows, hsent]
        · simp [sentTotal, rows, hsent]
      rw [sentTotal, hcons, List.flatMap_append, List.length_append, ← sentTotal, ← sentTotal, hone,
        ih, List.map_cons, List.sum_cons]

lemma sent_of_length_lt {n : PerfNode} (h : n.data.length < 2 ^ 32) : n.sent = n.data := by
  unfold PerfNode.sent
  split_ifs with hdvd
  · exact (List.eq_nil_of_length_eq_zero (Nat.eq_zero_of_dvd_of_lt hdvd h)).symm
  · rfl

/-- The map is complete if and only if the processes send what they have. -/
lemma hasAllData_iff {nodes : List PerfNode} (h : (nodes.map PerfNode.rank).Nodup) :
    HasAllData nodes (insertRows (rows nodes) ∅) ↔ ∀ n ∈ nodes, n.sent = n.data := by
  constructor
  · intro hall n hn
    by_cases hdata : n.data = []
    · exact sent_of_length_lt (by rw [hdata]; decide)
    · have hget := (hall n.rank n.data).mpr ⟨hdata, hn⟩
      rw [getElem?_insertRows (rows_nodup h), mem_rows] at hget
      obtain ⟨-, n', hn', hrank, hsent⟩ := hget
      rw [List.inj_on_of_nodup_map h hn' hn hrank] at hsent
      exact hsent
  · intro hsent r v
    rw [getElem?_insertRows (rows_nodup h), mem_rows]
    refine and_congr_right fun _ => ⟨?_, fun hmem => ⟨⟨r, v⟩, hmem, rfl, hsent _ hmem⟩⟩
    rintro ⟨n, hn, rfl, rfl⟩
    rw [hsent n hn]
    exact hn

lemma dataCount_eq {nodes : List PerfNode} (h : ∀ n ∈ nodes, n.sent = n.data) :
    dataCount nodes = sentTotal nodes := by
  rw [sentTotal_eq, dataCount]
  congr 1
  exact List.map_congr_left fun n hn => by rw [h n hn]

lemma dataCount_le {xs ys : List PerfNode} (h : xs.Sublist ys) : dataCount xs ≤ dataCount ys :=
  (h.map _).sum_le_sum fun _ _ => Nat.zero_le _

lemma sent_of_dataCount_lt {nodes : List PerfNode} (h : dataCount nodes < 2 ^ 29) :
    ∀ n ∈ nodes, n.sent = n.data := by
  intro n hn
  have hle := dataCount_le (List.singleton_sublist.mpr hn)
  have hone : dataCount [n] = n.data.length := List.sum_singleton
  exact sent_of_length_lt (by omega)

section Tree

variable {m : PerfMachine} {type : MetricType} {aggrStrmId : BitVec 32}

lemma sendPerfData_ok {n : PerfNode} {ps : List PerfPacket}
    (h : PerfMachine.sendPerfData type aggrStrmId n = .ok ps) :
    ∃ p, ps = [p] ∧ CarriesData type [n] p := by
  obtain ⟨p, hp, hps⟩ := bind_ok_iff.mp h
  obtain ⟨dataArr, harray, -⟩ := bind_ok_iff.mp hp
  obtain ⟨p', hp', hcarries⟩ := collectPerfData_carries type n aggrStrmId (collectArray_ok harray)
  cases hp.symm.trans hp'
  cases hps
  exact ⟨p, rfl, hcarries⟩

/-- A tree sends one packet, if it sends any. -/
lemma run_carriesData (t : SiteTree PerfNode) : ∀ ps,
    t.run (PerfMachine.sendPerfData type aggrStrmId) (m.filterPerfData type .arrayConcat) = .ok ps →
      ∃ p, ps = [p] ∧ CarriesData type t.labels p := by
  apply SiteTree.run_sound
  · exact fun n ps h => sendPerfData_ok h
  · intro n inputs results ps hresults hne hok
    obtain ⟨-, q, hps, hencoded⟩ := filterPerfData_ok hresults hne hok
    exact ⟨q, hps, hencoded.carriesData⟩

lemma data_of_dataCount_lt {n : PerfNode} {nodes : List PerfNode}
    (h : dataCount (n :: nodes) < 2 ^ 29) : n.data.length < 2 ^ 32 := by
  have hle := dataCount_le (List.singleton_sublist.mpr (List.mem_cons_self (a := n) (l := nodes)))
  have hone : dataCount [n] = n.data.length := List.sum_singleton
  omega

/-- A tree of a size that fits does send a packet. -/
lemma run_returns_packet (m : PerfMachine) (type : MetricType) (aggrStrmId : BitVec 32)
    (t : SiteTree PerfNode) (h : dataCount t.labels < 2 ^ 29) :
    ∃ p, t.run (PerfMachine.sendPerfData type aggrStrmId) (m.filterPerfData type .arrayConcat) =
      .ok [p] ∧ CarriesData type t.labels p := by
  apply SiteTree.run_returns (Q := fun nodes => dataCount nodes < 2 ^ 29)
  · exact fun hsub hlt => (dataCount_le hsub).trans_lt hlt
  · intro n hn
    obtain ⟨p, hp, hcarries⟩ :=
      collectPerfData_carries type n aggrStrmId (.inr (data_of_dataCount_lt hn))
    exact ⟨p, bind_ok_iff.mpr ⟨p, hp, rfl⟩, hcarries⟩
  · intro n inputs results hlt hresults hne
    have htotal : sentTotal (n :: inputs.flatten) < 2 ^ 29 := by
      rw [← dataCount_eq (sent_of_dataCount_lt hlt)]
      exact hlt
    obtain ⟨q, hq, hencoded⟩ :=
      filterPerfData_returns hresults hne (.inr (data_of_dataCount_lt hlt)) htotal
    exact ⟨q, hq, hencoded.carriesData⟩
  · exact h

/-- What the front-end unpacks are the rows of the tree. -/
lemma collectPerformanceData_rows {frontEnd : PerfNode} {first : SiteTree PerfNode}
    {others : List (SiteTree PerfNode)} {packets : List PerfPacket}
    (h : (SiteTree.node frontEnd first others).run (PerfMachine.sendPerfData type aggrStrmId)
      (m.filterPerfData type .arrayConcat) = .ok packets) :
    sentTotal (SiteTree.node frontEnd first others).labels < 2 ^ 29 ∧
      m.collectPerformanceData type .arrayConcat aggrStrmId (.node frontEnd first others) ∅ =
        .ok (insertRows (rows (SiteTree.node frontEnd first others).labels) ∅) := by
  obtain ⟨results, hresults, hne, hok⟩ :=
    SiteTree.run_node_sound (fun c _ => run_carriesData (m := m) c) h
  obtain ⟨htotal, q, rfl, hencoded⟩ := filterPerfData_ok hresults hne hok
  rw [← SiteTree.labels_node] at htotal hencoded
  refine ⟨htotal, ?_⟩
  rw [PerfMachine.collectPerformanceData, h, ok_bind]
  exact unpackResults_encoded hencoded (htotal.trans (by decide)) ∅

/-- A complete map fits in the block of the front-end. -/
lemma dataCount_lt_of_collected {frontEnd : PerfNode} {first : SiteTree PerfNode}
    {others : List (SiteTree PerfNode)} {results : RankPerfDataMap}
    (hdistinct : ((SiteTree.node frontEnd first others).labels.map PerfNode.rank).Nodup)
    (hcollect : m.collectPerformanceData type .arrayConcat aggrStrmId
      (.node frontEnd first others) ∅ = .ok results)
    (hall : HasAllData (SiteTree.node frontEnd first others).labels results) :
    dataCount (SiteTree.node frontEnd first others).labels < 2 ^ 29 := by
  obtain ⟨packets, hrun, -⟩ := bind_ok_iff.mp hcollect
  obtain ⟨htotal, hrows⟩ := collectPerformanceData_rows hrun
  cases hcollect.symm.trans hrows
  rw [dataCount_eq ((hasAllData_iff hdistinct).mp hall)]
  exact htotal

/-- The data of all processes come to the front-end in full, if and only if their number fits
in the block of the front-end. -/
theorem collectPerformanceData_iff (m : PerfMachine) (type : MetricType) (aggrStrmId : BitVec 32)
    (frontEnd : PerfNode) (first : SiteTree PerfNode) (others : List (SiteTree PerfNode))
    (hdistinct : ((SiteTree.node frontEnd first others).labels.map PerfNode.rank).Nodup) :
    (∃ results, m.collectPerformanceData type .arrayConcat aggrStrmId
        (.node frontEnd first others) ∅ = .ok results ∧
      HasAllData (SiteTree.node frontEnd first others).labels results) ↔
    dataCount (SiteTree.node frontEnd first others).labels < 2 ^ 29 := by
  constructor
  · rintro ⟨results, hcollect, hall⟩
    exact dataCount_lt_of_collected hdistinct hcollect hall
  · intro hlt
    obtain ⟨p, hrun, -⟩ := run_returns_packet m type aggrStrmId _ hlt
    obtain ⟨-, hrows⟩ := collectPerformanceData_rows hrun
    exact ⟨_, hrows, (hasAllData_iff hdistinct).mpr (sent_of_dataCount_lt hlt)⟩

end Tree

/-- The metrics of this machine are counted. -/
def countingMachine : PerfMachine where
  byteOrder := .little
  charSigned := true
  addFloat a _ := a
  ltFloat _ _ := false
  addDouble a _ := a
  ltDouble _ _ := false
  widen := BitVec.setWidth 64
  narrow := BitVec.setWidth 32
  scaleDouble v _ := v
  divideDouble v _ := v

/-- A process without data between the front-end and one of two back-ends. -/
theorem collectPerformanceData_three_ranks :
    let tree := SiteTree.node ⟨0, [5]⟩ (.node ⟨1, []⟩ (.leaf ⟨2, [7, 8]⟩) []) [.leaf ⟨3, []⟩]
    ∃ results, countingMachine.collectPerformanceData .uint .arrayConcat 9 tree ∅ = .ok results ∧
      HasAllData tree.labels results := by
  intro tree
  have hlabels : tree.labels = [⟨0, [5]⟩, ⟨1, []⟩, ⟨2, [7, 8]⟩, ⟨3, []⟩] := by
    simp [tree, SiteTree.labels]
  have hdistinct : (tree.labels.map PerfNode.rank).Nodup := by
    rw [hlabels]
    decide
  apply (collectPerformanceData_iff countingMachine .uint 9 _ _ _ hdistinct).mpr
  rw [hlabels]
  decide

/-- For `2 ^ 29` data, the size of the block in bytes is zero. -/
theorem large_data_not_collected :
    ¬∀ (m : PerfMachine) (type : MetricType) (aggrStrmId : BitVec 32) (frontEnd : PerfNode)
      (first : SiteTree PerfNode) (others : List (SiteTree PerfNode)),
      ((SiteTree.node frontEnd first others).labels.map PerfNode.rank).Nodup →
        ∃ results, m.collectPerformanceData type .arrayConcat aggrStrmId
            (.node frontEnd first others) ∅ = .ok results ∧
          HasAllData (SiteTree.node frontEnd first others).labels results := by
  intro hall
  obtain ⟨data, hlength⟩ : ∃ data : List Datum, data.length = 2 ^ 29 :=
    ⟨List.replicate (2 ^ 29) 0, List.length_replicate⟩
  have hlabels : (SiteTree.node (⟨0, []⟩ : PerfNode) (.leaf ⟨1, data⟩) []).labels =
      [⟨0, []⟩, ⟨1, data⟩] := by
    rw [SiteTree.labels, SiteTree.labels]
    rfl
  have hdistinct : ((SiteTree.node (⟨0, []⟩ : PerfNode)
      (.leaf ⟨1, data⟩) []).labels.map PerfNode.rank).Nodup := by
    rw [hlabels]
    simp
  obtain ⟨results, hcollect, hdata⟩ :=
    hall countingMachine .uint 9 ⟨0, []⟩ (.leaf ⟨1, data⟩) [] hdistinct
  have hlt := dataCount_lt_of_collected hdistinct hcollect hdata
  have hcount : dataCount [(⟨0, []⟩ : PerfNode), ⟨1, data⟩] = data.length := by
    simp [dataCount]
  rw [hlabels, hcount, hlength] at hlt
  exact lt_irrefl _ hlt

end MRNet.Filters
