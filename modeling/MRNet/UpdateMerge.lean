import MRNet.Buffers
import MRNet.RoutingTable

/-!
# Merging update packets

Translation of `tfilter_TopoUpdate_common` with its packets: each brings five parallel
arrays, which are copied one after the other into five result arrays. The records are then
applied by their index, and the result arrays are those of the packet that is sent on.
-/
namespace MRNet.Routing
open Codec Buffers StreamPeers MRNet.Topology Network
open SerialGraph (Text Port unknownPort)
open WaitForAll (Rank)

/-- The arrays of an update packet as they are unpacked. -/
structure UpdateArrays where
  types : List (BitVec 32)
  parRanks : List Rank
  chldRanks : List Rank
  chldHosts : List Text
  chldPorts : List Port

structure UpdatePacket where
  streamId : BitVec 32
  tag : BitVec 32
  formatString : Text
  /-- Nothing if the packet cannot be unpacked. -/
  arrays : Option UpdateArrays

/-- The last of the five lengths that are stored in one variable. -/
def UpdateArrays.arrLen (a : UpdateArrays) : BitVec 32 := BitVec.ofNat 32 a.chldPorts.length

def UpdateType.ofInt (type : BitVec 32) : UpdateType :=
  if type = 0 then .newBE
  else if type = 1 then .removeRank
  else if type = 2 then .changeParent
  else if type = 3 then .changePort
  else if type = 4 then .newCP
  else .invalid

/-- A process with what the filter reads of it beside its state. -/
structure Site where
  net : Network
  wasShutdown : Bool
  localPort : Port

/-- The arrays that are kept, each with its length. -/
structure Gathered where
  arrays : List (UpdateArrays × BitVec 32)
  rarrLen : BitVec 32
  formatString : Text

/-- Back-ends have no listening port, their updates only start the wave on the stream. -/
def UpdateArrays.isDiscarded (a : UpdateArrays) (strmId : BitVec 32) : Bool :=
  decide (strmId = portStrmId) && decide (a.arrLen = 1) && decide (a.types[0]? = some 3) &&
    decide (a.chldPorts[0]? = some unknownPort)

def Gathered.push (s : Gathered) (a : UpdateArrays) (len : BitVec 32) : Gathered :=
  { s with arrays := s.arrays ++ [(a, len)], rarrLen := s.rarrLen + len }

def Gathered.packet (strmId : BitVec 32) (s : Gathered) (curPacket : UpdatePacket) : Gathered :=
  let s := { s with formatString := curPacket.formatString }
  match curPacket.arrays with
  | none => s
  | some a => if a.isDiscarded strmId then s else s.push a a.arrLen

/-- The port update of the local node. -/
def Site.localArrays (site : Site) : UpdateArrays :=
  ⟨[3], [Wire.unknownRank], [site.net.localRank], [['N', 'U', 'L', 'L']], [site.localPort]⟩

/-- An internal node with children adds its own port. The node is not tested before its
children are counted. -/
def Site.localUpdate (site : Site) (strmId : BitVec 32) : Outcome (Option UpdateArrays) :=
  if strmId = portStrmId ∧ site.net.role = .internal then
    match site.net.topology.findNode site.net.localRank with
    | none => .error (.fault .nullPointer)
    | some me => do
        let node ← site.net.topology.deref me
        return if node.children = [] then none else some site.localArrays
  else return none

def Gathered.pushLocal (s : Gathered) : Option UpdateArrays → Gathered
  | none => s
  | some a => s.push a 1

/-- The elements of a size whose bytes are counted in 32 bits. -/
def elements (n : BitVec 32) (size : ℕ) : ℕ := n.toNat * size % 2 ^ 32 / size

structure ResultArrays where
  types : Block (BitVec 32)
  parRanks : Block Rank
  chldRanks : Block Rank
  chldHosts : Block Text
  chldPorts : Block Port

namespace ResultArrays

def allocate (rarrLen : BitVec 32) : ResultArrays where
  types := Buffers.allocate _ (elements rarrLen 4)
  parRanks := Buffers.allocate _ (elements rarrLen 4)
  chldRanks := Buffers.allocate _ (elements rarrLen 4)
  chldHosts := Buffers.allocate _ (elements rarrLen 8)
  chldPorts := Buffers.allocate _ (elements rarrLen 2)

/-- The arrays of one packet, all to the same position. -/
def copyPacket (s : ResultArrays × BitVec 32) (x : UpdateArrays × BitVec 32) :
    Outcome (ResultArrays × BitVec 32) := do
  let (r, arrPos) := s
  let (a, len) := x
  let types ← copyInto r.types arrPos.toNat a.types (elements len 4)
  let parRanks ← copyInto r.parRanks arrPos.toNat a.parRanks (elements len 4)
  let chldRanks ← copyInto r.chldRanks arrPos.toNat a.chldRanks (elements len 4)
  let chldHosts ← copyInto r.chldHosts arrPos.toNat a.chldHosts (elements len 8)
  let chldPorts ← copyInto r.chldPorts arrPos.toNat a.chldPorts (elements len 2)
  return (⟨types, parRanks, chldRanks, chldHosts, chldPorts⟩, arrPos + len)

/-- What a packet made of the arrays holds. -/
def read (r : ResultArrays) (len : ℕ) : Outcome UpdateArrays := do
  let types ← (List.range len).mapM (readAt r.types)
  let parRanks ← (List.range len).mapM (readAt r.parRanks)
  let chldRanks ← (List.range len).mapM (readAt r.chldRanks)
  let chldHosts ← (List.range len).mapM (readAt r.chldHosts)
  let chldPorts ← (List.range len).mapM (readAt r.chldPorts)
  return ⟨types, parRanks, chldRanks, chldHosts, chldPorts⟩

end ResultArrays

structure Applying where
  net : Network
  newNodes : List Rank
  updateTable : Bool

/-- One turn of the loop. Only what the case needs is read. -/
def applyAt (upstream : Bool) (r : ResultArrays) (s : Applying) (i : ℕ) : Outcome Applying := do
  let type ← readAt r.types i
  match UpdateType.ofInt type with
  | .newBE => do
      let parRank ← readAt r.parRanks i
      let chldRank ← readAt r.chldRanks i
      let chldHost ← readAt r.chldHosts i
      let chldPort ← readAt r.chldPorts i
      let net ← s.net.updateAddBackEnd parRank chldRank chldHost chldPort upstream
      return ⟨net, s.newNodes ++ [chldRank], true⟩
  | .removeRank => do
      let parRank ← readAt r.parRanks i
      let chldRank ← readAt r.chldRanks i
      let net ← s.net.updateRemoveNode parRank chldRank upstream
      return { s with net := net }
  | .changeParent => do
      let parRank ← readAt r.parRanks i
      let chldRank ← readAt r.chldRanks i
      let net ← s.net.updateChangeParent parRank chldRank upstream
      return { s with net := net }
  | .changePort => do
      let chldRank ← readAt r.chldRanks i
      let chldPort ← readAt r.chldPorts i
      let net ← s.net.updateChangePort chldRank chldPort upstream
      return { s with net := net }
  | .newCP => do
      let parRank ← readAt r.parRanks i
      let chldRank ← readAt r.chldRanks i
      let chldHost ← readAt r.chldHosts i
      let chldPort ← readAt r.chldPorts i
      let net ← s.net.updateAddInternalNode parRank chldRank chldHost chldPort upstream
      return { s with net := net, updateTable := true }
  | .invalid => return s

/-- Nothing is sent on at the ends of a stream, but for the port stream. -/
def Site.genOutput (site : Site) (upstream : Bool) (strmId : BitVec 32) : Bool :=
  decide (strmId = portStrmId) ||
    (if upstream then decide (site.net.role ≠ .frontEnd) else decide (site.net.role ≠ .backEnd))

/-- `tfilter_TopoUpdate_common`: the state of the process, and the output packet. -/
def Site.tfilterTopoUpdateCommon (site : Site) (upstream : Bool) (ipackets : List UpdatePacket) :
    Outcome (Network × Option UpdatePacket) :=
  if site.wasShutdown then return (site.net, none)
  else
    match ipackets with
    | [] => .error (.fault .readPast)
    | first :: rest => do
        let strmId := first.streamId
        let gathered := (first :: rest).foldl (Gathered.packet strmId) ⟨[], 0, []⟩
        let mine ← site.localUpdate strmId
        let gathered := gathered.pushLocal mine
        let (r, _) ← gathered.arrays.foldlM ResultArrays.copyPacket
          (ResultArrays.allocate gathered.rarrLen, 0)
        let s ← (List.range gathered.rarrLen.toNat).foldlM (applyAt upstream r)
          ⟨site.net, [], false⟩
        let net ← s.net.updateRouterTable s.updateTable
        let update := upstream && !s.newNodes.isEmpty && decide (net.role ≠ .backEnd)
        let net := if update then net.updateTopoStreamPeers s.newNodes else net
        if site.genOutput upstream strmId then do
          let arrays ← r.read gathered.rarrLen.toNat
          return (net, some ⟨strmId, first.tag, gathered.formatString, some arrays⟩)
        else return (net, none)

/-- One record of the parallel arrays. -/
structure UpdateRecord where
  type : BitVec 32
  parRank : Rank
  chldRank : Rank
  chldHost : Text
  chldPort : Port

def UpdateRecord.toUpdate (x : UpdateRecord) : Update :=
  ⟨UpdateType.ofInt x.type, x.parRank, x.chldRank, x.chldHost, x.chldPort⟩

namespace UpdateArrays

def ofRecords (xs : List UpdateRecord) : UpdateArrays where
  types := xs.map UpdateRecord.type
  parRanks := xs.map UpdateRecord.parRank
  chldRanks := xs.map UpdateRecord.chldRank
  chldHosts := xs.map UpdateRecord.chldHost
  chldPorts := xs.map UpdateRecord.chldPort

def records (a : UpdateArrays) : List UpdateRecord :=
  ((a.types.zip a.parRanks).zip (a.chldRanks.zip (a.chldHosts.zip a.chldPorts))).map fun x =>
    ⟨x.1.1, x.1.2, x.2.1, x.2.2.1, x.2.2.2⟩

/-- The five arrays have one length. -/
structure Aligned (a : UpdateArrays) : Prop where
  parRanks : a.parRanks.length = a.types.length
  chldRanks : a.chldRanks.length = a.types.length
  chldHosts : a.chldHosts.length = a.types.length
  chldPorts : a.chldPorts.length = a.types.length

variable {a : UpdateArrays}

/-- Aligned arrays are those of their records. -/
lemma Aligned.ofRecords_records (h : Aligned a) : ofRecords a.records = a := by
  obtain ⟨types, parRanks, chldRanks, chldHosts, chldPorts⟩ := a
  obtain ⟨hpar, hchld, hhosts, hports⟩ := h
  dsimp only at hpar hchld hhosts hports
  simp only [ofRecords, records, List.map_map, UpdateArrays.mk.injEq]
  refine ⟨?_, ?_, ?_, ?_, ?_⟩ <;> apply List.ext_getElem <;>
    simp [hpar, hchld, hhosts, hports]

lemma Aligned.length_records (h : Aligned a) : a.records.length = a.chldPorts.length := by
  simp only [records, List.length_map, List.length_zip, h.parRanks, h.chldRanks, h.chldHosts,
    h.chldPorts, Nat.min_self]

end UpdateArrays

lemma elements_eq {n : BitVec 32} {size : ℕ} (hsize : 0 < size) (h : n.toNat * size < 2 ^ 32) :
    elements n size = n.toNat := by
  rw [elements, Nat.mod_eq_of_lt h, Nat.mul_div_cancel _ hsize]

namespace ResultArrays

/-- The first cells hold the records, and a number of cells is left. -/
def filled (xs : List UpdateRecord) (free : ℕ) : ResultArrays where
  types := Buffers.filled (xs.map UpdateRecord.type) free
  parRanks := Buffers.filled (xs.map UpdateRecord.parRank) free
  chldRanks := Buffers.filled (xs.map UpdateRecord.chldRank) free
  chldHosts := Buffers.filled (xs.map UpdateRecord.chldHost) free
  chldPorts := Buffers.filled (xs.map UpdateRecord.chldPort) free

lemma allocate_eq_filled {n : ℕ} (h : n < 2 ^ 29) : allocate (BitVec.ofNat 32 n) = filled [] n := by
  have hn : (BitVec.ofNat 32 n).toNat = n := by
    rw [BitVec.toNat_ofNat]
    omega
  have helements : ∀ size, 0 < size → size ≤ 8 → elements (BitVec.ofNat 32 n) size = n := by
    intro size hpos hle
    rw [elements_eq hpos, hn]
    rw [hn]
    calc n * size ≤ n * 8 := Nat.mul_le_mul_left n hle
      _ < 2 ^ 32 := by omega
  rw [allocate, helements 4 (by decide) (by decide), helements 8 (by decide) (by decide),
    helements 2 (by decide) (by decide)]
  rfl

/-- One field of the records of a packet follows that of the records copied before. -/
lemma copyInto_field {α : Type} (f : UpdateRecord → α) {done xs : List UpdateRecord} {free : ℕ}
    (hfree : xs.length ≤ free) :
    copyInto (Buffers.filled (done.map f) free) done.length (xs.map f) xs.length =
      .ok (Buffers.filled ((done ++ xs).map f) (free - xs.length)) := by
  rw [copyInto_filled (List.length_map f).symm (Nat.le_of_eq (List.length_map f).symm) hfree,
    List.map_append, List.take_of_length_le (Nat.le_of_eq (List.length_map f))]

lemma copyPacket_filled {done xs : List UpdateRecord} {free : ℕ}
    (hsmall : done.length + free < 2 ^ 29) (hfree : xs.length ≤ free) :
    copyPacket (filled done free, BitVec.ofNat 32 done.length)
        (UpdateArrays.ofRecords xs, BitVec.ofNat 32 xs.length) =
      .ok (filled (done ++ xs) (free - xs.length), BitVec.ofNat 32 (done ++ xs).length) := by
  have hpos : (BitVec.ofNat 32 done.length).toNat = done.length := by
    rw [BitVec.toNat_ofNat]
    omega
  have hlen : (BitVec.ofNat 32 xs.length).toNat = xs.length := by
    rw [BitVec.toNat_ofNat]
    omega
  have helements : ∀ size, 0 < size → size ≤ 8 →
      elements (BitVec.ofNat 32 xs.length) size = xs.length := by
    intro size hpos hle
    rw [elements_eq hpos, hlen]
    rw [hlen]
    calc xs.length * size ≤ xs.length * 8 := Nat.mul_le_mul_left _ hle
      _ < 2 ^ 32 := by omega
  unfold copyPacket
  simp only [filled, UpdateArrays.ofRecords, hpos, helements 4 (by decide) (by decide),
    helements 8 (by decide) (by decide), helements 2 (by decide) (by decide),
    copyInto_field _ hfree, ok_bind]
  rw [List.length_append, BitVec.ofNat_add]
  rfl

lemma copyPackets_filled {xss : List (List UpdateRecord)} {done : List UpdateRecord} {free : ℕ}
    (hsmall : done.length + free < 2 ^ 29) (hfree : xss.flatten.length ≤ free) :
    (xss.map fun xs => (UpdateArrays.ofRecords xs, BitVec.ofNat 32 xs.length)).foldlM copyPacket
        (filled done free, BitVec.ofNat 32 done.length) =
      .ok (filled (done ++ xss.flatten) (free - xss.flatten.length),
        BitVec.ofNat 32 (done ++ xss.flatten).length) := by
  induction xss generalizing done free with
  | nil => simp [pure, Except.pure]
  | cons xs xss ih =>
      have hlen : (xs ++ xss.flatten).length = xs.length + xss.flatten.length := List.length_append
      rw [List.flatten_cons] at hfree ⊢
      rw [List.map_cons, List.foldlM_cons, copyPacket_filled hsmall (by omega), ok_bind,
        ih (by rw [List.length_append]; omega) (by omega), List.append_assoc, hlen, Nat.sub_sub]

/-- Arrays of the length of all records are filled by them. -/
lemma copyPackets_allocate {xss : List (List UpdateRecord)} (h : xss.flatten.length < 2 ^ 29) :
    (xss.map fun xs => (UpdateArrays.ofRecords xs, BitVec.ofNat 32 xs.length)).foldlM copyPacket
        (allocate (BitVec.ofNat 32 xss.flatten.length), 0) =
      .ok (filled xss.flatten 0, BitVec.ofNat 32 xss.flatten.length) := by
  have hcopy := @copyPackets_filled xss [] xss.flatten.length
    (by rw [List.length_nil, Nat.zero_add]; exact h) le_rfl
  rw [List.nil_append, Nat.sub_self] at hcopy
  rw [allocate_eq_filled h]
  exact hcopy

lemma read_filled (xs : List UpdateRecord) :
    (filled xs 0).read xs.length = .ok (UpdateArrays.ofRecords xs) := by
  have hread : ∀ {α : Type} (f : UpdateRecord → α),
      (List.range xs.length).mapM (readAt (Buffers.filled (xs.map f) 0)) = .ok (xs.map f) := by
    intro α f
    have hmap := mapM_readAt_written (xs.map f) (List.replicate 0 none)
    rw [List.length_map] at hmap
    exact hmap
  simp only [read, filled, hread, ok_bind]
  rfl

end ResultArrays

/-- The accumulators of the loop after a record. -/
def applyRecord (upstream : Bool) (s : Applying) (x : UpdateRecord) : Outcome Applying := do
  let net ← applyUpdate upstream s.net x.toUpdate
  return ⟨net, if x.toUpdate.type = .newBE then s.newNodes ++ [x.chldRank] else s.newNodes,
    s.updateTable || x.toUpdate.isNew⟩

lemma applyAt_filled {upstream : Bool} {xs : List UpdateRecord} {x : UpdateRecord} {i : ℕ}
    (h : xs[i]? = some x) (s : Applying) :
    applyAt upstream (ResultArrays.filled xs 0) s i = applyRecord upstream s x := by
  have hread : ∀ {α : Type} (f : UpdateRecord → α),
      readAt (Buffers.filled (xs.map f) 0) i = .ok (f x) := by
    intro α f
    apply readAt_written
    rw [List.getElem?_map, h]
    rfl
  unfold applyAt applyRecord
  simp only [ResultArrays.filled, hread, ok_bind]
  cases htype : UpdateType.ofInt x.type with
  | newBE => simp [applyUpdate, UpdateRecord.toUpdate, htype, Update.isNew]
  | removeRank => simp [applyUpdate, UpdateRecord.toUpdate, htype, Update.isNew]
  | changeParent => simp [applyUpdate, UpdateRecord.toUpdate, htype, Update.isNew]
  | changePort => simp [applyUpdate, UpdateRecord.toUpdate, htype, Update.isNew]
  | newCP => simp [applyUpdate, UpdateRecord.toUpdate, htype, Update.isNew]
  | invalid => simp [applyUpdate, UpdateRecord.toUpdate, htype, Update.isNew]

lemma applyRecords_eq (upstream : Bool) (xs : List UpdateRecord) (s : Applying) :
    xs.foldlM (applyRecord upstream) s = (do
      let net ← (xs.map UpdateRecord.toUpdate).foldlM (applyUpdate upstream) s.net
      return ⟨net, s.newNodes ++ ((xs.map UpdateRecord.toUpdate).filter (·.type = .newBE)).map
          Update.chldRank, s.updateTable || (xs.map UpdateRecord.toUpdate).any Update.isNew⟩) := by
  induction xs generalizing s with
  | nil => simp
  | cons x xs ih =>
      rw [List.foldlM_cons, List.map_cons, List.foldlM_cons, applyRecord, bind_assoc, bind_assoc]
      congr 1
      ext1 net
      rw [pure_bind, ih]
      have hrank : x.toUpdate.chldRank = x.chldRank := rfl
      by_cases htype : x.toUpdate.type = .newBE
      · simp [htype, hrank, Bool.or_assoc]
      · simp [htype, Bool.or_assoc]

/-- The arrays of the packets that are not discarded. -/
def keptArrays (strmId : BitVec 32) (ipackets : List UpdatePacket) : List UpdateArrays :=
  ipackets.filterMap fun p => p.arrays.filter fun a => !a.isDiscarded strmId

/-- The records that are applied and sent on: those of the packets that are kept in their
order, and that of the local node. -/
def mergedRecords (strmId : BitVec 32) (ipackets : List UpdatePacket) (mine : Option UpdateArrays) :
    List UpdateRecord :=
  ((keptArrays strmId ipackets ++ mine.toList).map UpdateArrays.records).flatten

lemma gathered_eq (strmId : BitVec 32) (ipackets : List UpdatePacket) (s : Gathered) :
    (ipackets.foldl (Gathered.packet strmId) s).arrays =
        s.arrays ++ (keptArrays strmId ipackets).map (fun a => (a, a.arrLen)) ∧
      (ipackets.foldl (Gathered.packet strmId) s).rarrLen =
        s.rarrLen + BitVec.ofNat 32 ((keptArrays strmId ipackets).map (·.chldPorts.length)).sum := by
  induction ipackets generalizing s with
  | nil =>
      refine ⟨(List.append_nil _).symm, ?_⟩
      exact (BitVec.add_zero _).symm
  | cons p ipackets ih =>
      rw [List.foldl_cons, (ih _).1, (ih _).2]
      cases harrays : p.arrays with
      | none => simp [Gathered.packet, keptArrays, harrays]
      | some a =>
          cases hdiscard : a.isDiscarded strmId with
          | true => simp [Gathered.packet, keptArrays, harrays, hdiscard]
          | false =>
              have hkept : keptArrays strmId (p :: ipackets) = a :: keptArrays strmId ipackets := by
                apply List.filterMap_cons_some
                simp [harrays, hdiscard]
              have hpush : s.packet strmId p =
                  ⟨s.arrays ++ [(a, a.arrLen)], s.rarrLen + a.arrLen, p.formatString⟩ := by
                simp [Gathered.packet, harrays, hdiscard, Gathered.push]
              rw [hkept, hpush, List.map_cons, List.map_cons, List.sum_cons, BitVec.ofNat_add,
                ← BitVec.add_assoc, List.append_assoc]
              exact ⟨rfl, rfl⟩

lemma gathered_formatString (strmId : BitVec 32) (p : UpdatePacket) (ipackets : List UpdatePacket)
    (s : Gathered) : ((p :: ipackets).foldl (Gathered.packet strmId) s).formatString =
      ((p :: ipackets).getLast (List.cons_ne_nil _ _)).formatString := by
  have hstep : ∀ (s : Gathered) p, (s.packet strmId p).formatString = p.formatString := by
    intro s p
    unfold Gathered.packet
    cases p.arrays with
    | none => rfl
    | some a =>
        dsimp only
        split_ifs <;> rfl
  induction ipackets generalizing p s with
  | nil => exact hstep s p
  | cons q ipackets ih =>
      rw [List.foldl_cons, ih, List.getLast_cons (List.cons_ne_nil _ _)]

lemma mem_keptArrays {strmId : BitVec 32} {ipackets : List UpdatePacket} {a : UpdateArrays}
    (h : a ∈ keptArrays strmId ipackets) : ∃ p ∈ ipackets, p.arrays = some a := by
  obtain ⟨p, hp, hfilter⟩ := List.mem_filterMap.mp h
  exact ⟨p, hp, (Option.filter_eq_some_iff.mp hfilter).1⟩

/-- The arrays of the local node have one record. -/
lemma localUpdate_aligned {site : Site} {strmId : BitVec 32} {a : UpdateArrays}
    (h : site.localUpdate strmId = .ok (some a)) : a.Aligned ∧ a.arrLen = 1 := by
  have ha : a = site.localArrays := by
    unfold Site.localUpdate at h
    split_ifs at h
    · cases hfound : site.net.topology.findNode site.net.localRank with
      | none =>
          rw [hfound] at h
          cases h
      | some me =>
          rw [hfound] at h
          obtain ⟨node, -, hres⟩ := bind_ok_iff.mp h
          split_ifs at hres
          · cases hres
          · cases hres
            rfl
    · cases h
  subst ha
  exact ⟨⟨rfl, rfl, rfl, rfl⟩, rfl⟩

/-- What is gathered are the arrays of the merged records. -/
lemma gathered_records {strmId : BitVec 32} {ipackets : List UpdatePacket}
    {mine : Option UpdateArrays}
    (haligned : ∀ a ∈ keptArrays strmId ipackets, a.Aligned)
    (hmine : ∀ a, mine = some a → a.Aligned ∧ a.arrLen = 1) (formatString : Text) :
    let gathered := (ipackets.foldl (Gathered.packet strmId) ⟨[], 0, formatString⟩).pushLocal mine
    gathered.arrays = ((keptArrays strmId ipackets ++ mine.toList).map UpdateArrays.records).map
        (fun xs => (UpdateArrays.ofRecords xs, BitVec.ofNat 32 xs.length)) ∧
      gathered.rarrLen = BitVec.ofNat 32 (mergedRecords strmId ipackets mine).length := by
  have hpair : ∀ a : UpdateArrays, a.Aligned →
      (UpdateArrays.ofRecords a.records, BitVec.ofNat 32 a.records.length) = (a, a.arrLen) := by
    intro a ha
    rw [ha.ofRecords_records, ha.length_records, UpdateArrays.arrLen]
  have hpairs : ∀ as : List UpdateArrays, (∀ a ∈ as, a.Aligned) →
      (as.map UpdateArrays.records).map
        (fun xs => (UpdateArrays.ofRecords xs, BitVec.ofNat 32 xs.length)) =
      as.map fun a => (a, a.arrLen) := by
    intro as has
    rw [List.map_map]
    exact List.map_congr_left fun a ha => hpair a (has a ha)
  have hlength : (((keptArrays strmId ipackets).map UpdateArrays.records).flatten).length =
      ((keptArrays strmId ipackets).map (·.chldPorts.length)).sum := by
    rw [List.length_flatten, List.map_map]
    congr 1
    exact List.map_congr_left fun a ha => (haligned a ha).length_records
  obtain ⟨harrays, hlen⟩ := gathered_eq strmId ipackets ⟨[], 0, formatString⟩
  rw [List.nil_append] at harrays
  replace hlen := hlen.trans (BitVec.zero_add _)
  cases mine with
  | none =>
      rw [mergedRecords, Option.toList_none, List.append_nil, hpairs _ haligned, hlength]
      exact ⟨harrays, hlen⟩
  | some a =>
      obtain ⟨ha, hone⟩ := hmine a rfl
      have hlast : BitVec.ofNat 32 a.records.length = 1 := by
        rw [ha.length_records]
        exact hone
      rw [mergedRecords, Option.toList_some, List.map_append, List.map_append, List.flatten_append,
        hpairs _ haligned, List.length_append, hlength, BitVec.ofNat_add]
      refine ⟨?_, ?_⟩
      · simp only [Gathered.pushLocal, Gathered.push, harrays, List.map_cons, List.map_nil,
          hpair a ha, hone]
      · simp only [Gathered.pushLocal, Gathered.push, hlen, List.map_cons, List.map_nil,
          List.flatten_cons, List.flatten_nil, List.append_nil, hlast]

/-- Unless the network was shut down, the merged records are applied in order, each once, and
their arrays are those of the packet that is sent on. -/
theorem tfilterTopoUpdateCommon_merges {site : Site} (hup : site.wasShutdown = false)
    (upstream : Bool) {first : UpdatePacket} {rest : List UpdatePacket}
    (haligned : ∀ p ∈ first :: rest, ∀ a, p.arrays = some a → a.Aligned)
    (hsmall : ∀ mine, site.localUpdate first.streamId = .ok mine →
      (mergedRecords first.streamId (first :: rest) mine).length < 2 ^ 29) :
    site.tfilterTopoUpdateCommon upstream (first :: rest) = (do
      let mine ← site.localUpdate first.streamId
      let records := mergedRecords first.streamId (first :: rest) mine
      let net ← site.net.tfilterTopoUpdateCommon upstream (records.map UpdateRecord.toUpdate)
      return (net,
        if site.genOutput upstream first.streamId then
          some ⟨first.streamId, first.tag,
            ((first :: rest).getLast (List.cons_ne_nil _ _)).formatString,
            some (UpdateArrays.ofRecords records)⟩
        else none)) := by
  have hkept : ∀ a ∈ keptArrays first.streamId (first :: rest), a.Aligned := by
    intro a ha
    obtain ⟨p, hp, harrays⟩ := mem_keptArrays ha
    exact haligned p hp a harrays
  have hformat := gathered_formatString first.streamId first rest ⟨[], 0, []⟩
  unfold Site.tfilterTopoUpdateCommon
  rw [hup, if_neg Bool.false_ne_true]
  dsimp only
  cases hmine : site.localUpdate first.streamId with
  | error e => rfl
  | ok mine =>
      have hlocal : ∀ a, mine = some a → a.Aligned ∧ a.arrLen = 1 := by
        intro a ha
        subst ha
        exact localUpdate_aligned hmine
      obtain ⟨harrays, hlen⟩ := gathered_records hkept hlocal []
      have hcount := hsmall mine hmine
      have hcopy := ResultArrays.copyPackets_allocate hcount
      have htotal : (BitVec.ofNat 32 (mergedRecords first.streamId (first :: rest) mine).length).toNat
          = (mergedRecords first.streamId (first :: rest) mine).length := by
        rw [BitVec.toNat_ofNat]
        omega
      have hpush : ∀ s : Gathered, (s.pushLocal mine).formatString = s.formatString := by
        intro s
        cases mine <;> rfl
      simp only [ok_bind, harrays, hlen, hpush, hformat]
      rw [← mergedRecords] at hcopy
      rw [hcopy]
      simp only [ok_bind, htotal, ResultArrays.read_filled]
      rw [foldlM_range fun i x hx s => applyAt_filled hx s, applyRecords_eq,
        Network.tfilterTopoUpdateCommon]
      simp only [bind_assoc, pure_bind, List.nil_append, Bool.false_or]
      split_ifs <;> rfl

/-- A topology update packet of some records. -/
def updatePacket (xs : List UpdateRecord) : UpdatePacket :=
  ⟨topolStrmId, 0, ['%', 'a', 'd'], some (.ofRecords xs)⟩

theorem tfilterTopoUpdateCommon_merges_two_packets :
    ∃ net, (⟨startedFrontEnd, false, 1⟩ : Site).tfilterTopoUpdateCommon false
          [updatePacket [⟨4, 0, 1, ['b'], 2⟩], updatePacket [⟨0, 1, 2, ['c'], 0⟩]] =
        .ok (net, some (updatePacket [⟨4, 0, 1, ['b'], 2⟩, ⟨0, 1, 2, ['c'], 0⟩])) ∧
      net.getOutletNode 2 = some ⟨1, 0⟩ := by
  have haligned : ∀ xs, (UpdateArrays.ofRecords xs).Aligned := by
    intro xs
    constructor <;> simp [UpdateArrays.ofRecords]
  rw [tfilterTopoUpdateCommon_merges rfl]
  · exact ⟨_, rfl, rfl⟩
  · intro p hp a ha
    rw [List.mem_cons, List.mem_singleton] at hp
    rcases hp with rfl | rfl <;> cases ha <;> exact haligned _
  · intro mine hmine
    cases hmine
    decide

/-- After the shutdown a packet is neither applied nor sent on. -/
theorem shutdown_disregards :
    ¬∀ (site : Site) (upstream : Bool) (first : UpdatePacket) (rest : List UpdatePacket),
      (∀ p ∈ first :: rest, ∀ a, p.arrays = some a → a.Aligned) →
      ∀ mine, site.localUpdate first.streamId = .ok mine →
        (mergedRecords first.streamId (first :: rest) mine).length < 2 ^ 29 →
        ∀ net out, site.tfilterTopoUpdateCommon upstream (first :: rest) = .ok (net, out) →
          site.net.tfilterTopoUpdateCommon upstream
            ((mergedRecords first.streamId (first :: rest) mine).map UpdateRecord.toUpdate) =
              .ok net := by
  intro hall
  have happlied := hall ⟨startedFrontEnd, true, 1⟩ true (updatePacket [⟨4, 0, 1, ['b'], 2⟩]) []
    (by
      intro p hp a ha
      rw [List.mem_singleton] at hp
      subst hp
      cases ha
      exact ⟨rfl, rfl, rfl, rfl⟩)
    none rfl (by decide) startedFrontEnd none rfl
  obtain ⟨net, hnet, hfound⟩ : ∃ net : Network,
      startedFrontEnd.tfilterTopoUpdateCommon true [⟨.newCP, 0, 1, ['b'], 2⟩] = .ok net ∧
        (net.topology.findNode 1).isSome := ⟨_, rfl, rfl⟩
  have hsame : net = startedFrontEnd := by
    injection hnet.symm.trans happlied
  rw [hsame] at hfound
  exact absurd hfound (by decide)

end MRNet.Routing
