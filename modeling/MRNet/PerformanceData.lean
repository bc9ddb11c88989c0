import MRNet.ReductionFilters

/-!
# Performance data

Translation of `Stream::collect_PerfData`, `tfilter_PerfData` and the unpacking loop of
`Stream::collect_PerformanceData`. A packet has the ranks of some nodes, the number of data of
each, and all the data.
-/
namespace MRNet.Filters
open NativeBytes Codec Buffers Reductions Std
open Wire (ascii)

/-- `perfdata_mettype_t` -/
inductive MetricType where
  | uint
  | int
  | float
  deriving DecidableEq

namespace MetricType

def fmt : MetricType → List Byte
  | uint => ascii ['%', 'a', 'd', ' ', '%', 'a', 'd', ' ', '%', 'a', 'u', 'l', 'd']
  | int => ascii ['%', 'a', 'd', ' ', '%', 'a', 'd', ' ', '%', 'a', 'l', 'd']
  | float => ascii ['%', 'a', 'd', ' ', '%', 'a', 'd', ' ', '%', 'a', 'l', 'f']

end MetricType

/-- The filters that data can be aggregated by. With any other number the data are left out. -/
inductive Aggregation where
  | min
  | max
  | sum
  | avg
  | arrayConcat
  | unknown
  deriving DecidableEq

/-- A `perfdata_t` is a union of eight bytes. -/
abbrev Datum := BitVec 64

structure PerfPacket where
  streamId : BitVec 32
  tag : BitVec 32
  fmtStr : List Byte
  ranks : ArrayArg (BitVec 32)
  nelems : ArrayArg (BitVec 32)
  data : ArrayArg Datum

/-- `PROT_COLLECT_PERFDATA` -/
def protCollectPerfData : BitVec 32 := 24

/-- The data are copied to a block for as many elements as fit in 32 bits. -/
def collectArray (data : List Datum) (numElems : BitVec 32) : Outcome (List Datum) :=
  if numElems = 0 then return []
  else do
    let block ← copyInto (allocate Datum numElems.toNat) 0 data data.length
    (List.range numElems.toNat).mapM (readAt block)

/-- The data are those that were taken from the manager. -/
def collectPerfData (type : MetricType) (myRank : BitVec 32) (data : List Datum)
    (aggrStrmId : BitVec 32) : Outcome PerfPacket := do
  let numElems := BitVec.ofNat 32 data.length
  let dataArr ← collectArray data numElems
  return ⟨aggrStrmId, protCollectPerfData, type.fmt, .pass [myRank] 1, .pass [numElems] 1,
    .pass dataArr numElems.toNat⟩

/-- The floating point operations of the averages. -/
structure PerfMachine extends Machine where
  /-- `dbl *= nrank` -/
  scaleDouble : Datum → BitVec 32 → Datum
  /-- `ag.d /= total_nranks` -/
  divideDouble : Datum → BitVec 32 → Datum

namespace PerfMachine

variable (m : PerfMachine)

/-- The value of `init`. -/
def initial : Aggregation → Datum
  | .min => BitVec.allOnes 64
  | _ => 0

def add (type : MetricType) (a b : Datum) : Datum :=
  match type with
  | .uint => m.toMachine.add .uint64 a b
  | .int => m.toMachine.add .int64 a b
  | .float => m.toMachine.add .double a b

def less (type : MetricType) (a b : Datum) : Bool :=
  match type with
  | .uint => m.toMachine.less .uint64 a b
  | .int => m.toMachine.less .int64 a b
  | .float => m.toMachine.less .double a b

/-- `nrank` is an `int` and is converted with its sign. -/
def scale (type : MetricType) (v : Datum) (nrank : BitVec 32) : Datum :=
  match type with
  | .uint | .int => v * nrank.signExtend 64
  | .float => m.scaleDouble v nrank

/-- `total_nranks` is unsigned. -/
def divide (type : MetricType) (ag : Datum) (totalNranks : BitVec 32) : Datum :=
  match type with
  | .uint => ag.udiv (totalNranks.setWidth 64)
  | .int => ag.sdiv (totalNranks.setWidth 64)
  | .float => m.divideDouble ag totalNranks

/-- What one datum does to the result at its position. -/
def aggregate (aggrId : Aggregation) (type : MetricType) (nrank : BitVec 32) (ag v : Datum) :
    Datum :=
  match aggrId with
  | .sum => m.add type ag v
  | .min => if m.less type ag v then ag else v
  | .max => if m.less type v ag then ag else v
  | .avg => m.add type ag (m.scale type v nrank)
  | .arrayConcat | .unknown => ag

end PerfMachine

/-- The variables of the loop over the packets. The arrays that are noted for the
concatenation are those of the packets in `inputs`. -/
structure PerfState where
  inputs : List PerfPacket
  totalNdatums : BitVec 32
  totalNranks : BitVec 32
  aggrResults : List Datum
  dataLen : ℕ

def readArg {α : Type} (a : ArrayArg α) (i : ℕ) : Outcome α :=
  match a.elements[i]? with
  | none => .error (.fault .readPast)
  | some x => return x

namespace PerfMachine

variable (m : PerfMachine)

/-- A negative rank is the number of ranks that were aggregated. -/
def aggregatePacket (type : MetricType) (aggrId : Aggregation) (s : PerfState)
    (curPacket : PerfPacket) : Outcome PerfState :=
  let dataLen := curPacket.data.elements.length
  if dataLen = 0 then return { s with dataLen := 0 }
  else if aggrId = .arrayConcat then
    return { s with
      inputs := s.inputs ++ [curPacket]
      totalNdatums := s.totalNdatums + BitVec.ofNat 32 dataLen
      totalNranks := s.totalNranks + BitVec.ofNat 32 curPacket.ranks.elements.length
      dataLen }
  else do
    let rank ← readArg curPacket.ranks 0
    let nrank := if rank.slt 0 then -rank else 1
    let aggrResults :=
      s.aggrResults ++ List.replicate (dataLen - s.aggrResults.length) (initial aggrId)
    return { s with
      totalNranks := s.totalNranks + nrank
      aggrResults :=
        List.zipWith (m.aggregate aggrId type nrank) (aggrResults.take dataLen)
          curPacket.data.elements ++ aggrResults.drop dataLen
      dataLen }

/-- The division is for as many positions as the last packet has data. A division by zero ends
the process like a failed assertion. -/
def average (type : MetricType) (aggrId : Aggregation) (s : PerfState) : Outcome (List Datum) :=
  if s.dataLen ≠ 0 ∧ aggrId = .avg then
    if s.totalNranks = 0 then .error (.fault .assertion)
    else return (s.aggrResults.take s.dataLen).map (m.divide type · s.totalNranks) ++
      s.aggrResults.drop s.dataLen
  else return s.aggrResults

end PerfMachine

/-- The blocks that are filled, with the number of elements that are in them. -/
structure PerfArrays where
  ranks : Block (BitVec 32)
  currRank : ℕ
  nelems : Block (BitVec 32)
  currNelems : ℕ
  data : Block Datum
  currData : ℕ

/-- The size in bytes of the block for the data is an `unsigned int`. -/
def PerfArrays.allocate (orankLen odataLen : BitVec 32) : PerfArrays where
  ranks := Buffers.allocate _ orankLen.toNat
  currRank := 0
  nelems := Buffers.allocate _ orankLen.toNat
  currNelems := 0
  data := Buffers.allocate _ ((odataLen * 8).toNat / 8)
  currData := 0

def PerfArrays.copy (s : PerfArrays) (p : PerfPacket) : Outcome PerfArrays := do
  let ranks ← copyInto s.ranks s.currRank p.ranks.elements p.ranks.elements.length
  let nelems ← copyInto s.nelems s.currNelems p.nelems.elements p.nelems.elements.length
  let data ← copyInto s.data s.currData p.data.elements p.data.elements.length
  return ⟨ranks, s.currRank + p.ranks.elements.length, nelems,
    s.currNelems + p.nelems.elements.length, data, s.currData + p.data.elements.length⟩

/-- The arrays with their lengths are passed to the constructor. -/
def PerfArrays.packet (s : PerfArrays) (first : PerfPacket) (orankLen odataLen : BitVec 32) :
    Outcome PerfPacket := do
  let orankArr ← (List.range orankLen.toNat).mapM (readAt s.ranks)
  let onelemsArr ← (List.range orankLen.toNat).mapM (readAt s.nelems)
  let odataArr ← (List.range odataLen.toNat).mapM (readAt s.data)
  return ⟨first.streamId, first.tag, first.fmtStr, .pass orankArr orankLen.toNat,
    .pass onelemsArr orankLen.toNat, .pass odataArr odataLen.toNat⟩

def concatPacket (first : PerfPacket) (s : PerfState) : Outcome PerfPacket := do
  let arrays ← s.inputs.foldlM PerfArrays.copy (.allocate s.totalNranks s.totalNdatums)
  arrays.packet first s.totalNranks s.totalNdatums

/-- The rank of an aggregated packet is the negative number of ranks. -/
def aggregatedPacket (first : PerfPacket) (totalNranks : BitVec 32) (aggrResults : List Datum) :
    Outcome PerfPacket := do
  let odataLen := BitVec.ofNat 32 aggrResults.length
  let s := PerfArrays.allocate 1 odataLen
  let data ← copyInto s.data 0 aggrResults aggrResults.length
  { s with ranks := [some (-totalNranks)], nelems := [some odataLen], data }.packet first 1 odataLen

def newPacket (aggrId : Aggregation) (first : PerfPacket) (s : PerfState)
    (aggrResults : List Datum) : Outcome PerfPacket :=
  if aggrId = .arrayConcat then concatPacket first s
  else aggregatedPacket first s.totalNranks aggrResults

/-- What the filter knows of the process: the parameters that are set, and the data of the
stream that they name, if it is there. -/
structure PerfSite where
  isBackEnd : Bool
  rank : BitVec 32
  params : Option (MetricType × Aggregation)
  stream : Option (List Datum)

namespace PerfMachine

variable (m : PerfMachine)

/-- Elsewhere than at back-ends, the data of the process itself come first. -/
def curPackets (site : PerfSite) (type : MetricType) (data : List Datum) (first : PerfPacket)
    (ipackets : List PerfPacket) : Outcome (List PerfPacket) :=
  if site.isBackEnd then return ipackets
  else do
    let localData ← collectPerfData type site.rank data first.streamId
    return localData :: ipackets

def tfilterPerfData (site : PerfSite) (ipackets : List PerfPacket) : Outcome (List PerfPacket) :=
  if ipackets.length = 1 ∧ site.isBackEnd then return ipackets
  else
    match site.params, site.stream, ipackets with
    | none, _, _ => return []
    | _, none, _ => return []
    | _, _, [] => .error (.fault .readPast)
    | some (type, aggrId), some data, first :: _ => do
        let packets ← curPackets site type data first ipackets
        let s ← packets.foldlM (m.aggregatePacket type aggrId) ⟨[], 0, 0, [], 0⟩
        let aggrResults ← m.average type aggrId s
        let packet ← newPacket aggrId first s aggrResults
        return [packet]

end PerfMachine

abbrev RankPerfDataMap := TreeMap (BitVec 32) (List Datum)

/-- The vector of a rank is cleared before it is filled. Data are taken one rank after the
other. -/
def unpackRank (p : PerfPacket) (s : RankPerfDataMap × BitVec 32) (u : ℕ) :
    Outcome (RankPerfDataMap × BitVec 32) := do
  let nelems ← readArg p.nelems u
  let rank ← readArg p.ranks u
  let rankData ← (List.range nelems.toNat).mapM fun v => readArg p.data (s.2.toNat + v)
  return (s.1.insert rank rankData, s.2 + nelems)

/-- Variables are set if the formats agree. -/
def unpackResults (type : MetricType) (p : PerfPacket) (results : RankPerfDataMap) :
    Outcome RankPerfDataMap :=
  if p.fmtStr ≠ type.fmt then .error (.fault .readPast)
  else do
    let s ← (List.range p.ranks.elements.length).foldlM (unpackRank p) (results, 0)
    return s.1

/-- A process with its data for the metric and the context. -/
structure PerfNode where
  rank : BitVec 32
  data : List Datum

namespace PerfMachine

variable (m : PerfMachine)

def sendPerfData (type : MetricType) (aggrStrmId : BitVec 32) (n : PerfNode) :
    Outcome (List PerfPacket) := do
  let p ← collectPerfData type n.rank n.data aggrStrmId
  return [p]

/-- The filter of a process that is not a back-end. -/
def filterPerfData (type : MetricType) (aggrId : Aggregation) (n : PerfNode)
    (ipackets : List PerfPacket) : Outcome (List PerfPacket) :=
  m.tfilterPerfData ⟨false, n.rank, some (type, aggrId), some n.data⟩ ipackets

/-- Without a packet, `recv` does not return. -/
def collectPerformanceData (type : MetricType) (aggrId : Aggregation) (aggrStrmId : BitVec 32)
    (tree : SiteTree PerfNode) (results : RankPerfDataMap) : Outcome RankPerfDataMap := do
  let packets ← tree.run (sendPerfData type aggrStrmId) (m.filterPerfData type aggrId)
  match packets with
  | [] => .error .refused
  | respPacket :: _ => unpackResults type respPacket results

end PerfMachine
end MRNet.Filters
