import MRNet.UpdateMerge

/-!
# Merging update packets at a lightweight back-end

Translation of `tfilter_TopoUpdate` of the lightweight library. The length of the last packet
stands for that of every packet, but for the array of the types.
-/
namespace MRNet.Routing.Lightweight
open Codec Buffers StreamPeers
open SerialGraph (Text Port)
open WaitForAll (Rank)

structure Unpacked where
  arrays : List (UpdateArrays × BitVec 32)
  arrLen : BitVec 32
  rarrayLen : BitVec 32
  formatString : Text

/-- The length is that of the last packet that was unpacked. -/
def Unpacked.packet (s : Unpacked) (curPacket : UpdatePacket) : Unpacked :=
  let s := { s with formatString := curPacket.formatString }
  match curPacket.arrays with
  | none => s
  | some a =>
      { s with
        arrays := s.arrays ++ [(a, a.arrLen)]
        arrLen := a.arrLen
        rarrayLen := s.rarrayLen + a.arrLen }

/-- The bytes are counted in the size of an address. -/
def allocate (rarrayLen : BitVec 32) : ResultArrays where
  types := Buffers.allocate _ rarrayLen.toNat
  parRanks := Buffers.allocate _ rarrayLen.toNat
  chldRanks := Buffers.allocate _ rarrayLen.toNat
  chldHosts := Buffers.allocate _ rarrayLen.toNat
  chldPorts := Buffers.allocate _ rarrayLen.toNat

structure Positions where
  int32Pos : BitVec 32
  uint32Pos : BitVec 32
  uint16Pos : BitVec 32
  charPos : BitVec 32

def Positions.advance (pos : Positions) (u : BitVec 32) : Positions where
  int32Pos := pos.int32Pos + u
  uint32Pos := pos.uint32Pos + u
  uint16Pos := pos.uint16Pos + u
  charPos := pos.charPos + u

/-- Only the types are copied with the length of their packet. -/
def copyPacket (arrLen : BitVec 32) (s : ResultArrays × Positions)
    (x : UpdateArrays × BitVec 32) : Outcome (ResultArrays × Positions) := do
  let (r, pos) := s
  let (a, arrLenLong) := x
  let types ← copyInto r.types pos.int32Pos.toNat a.types arrLenLong.toNat
  let u := arrLen
  let parRanks ← copyInto r.parRanks pos.uint32Pos.toNat a.parRanks u.toNat
  let chldRanks ← copyInto r.chldRanks pos.uint32Pos.toNat a.chldRanks u.toNat
  let chldHosts ← copyInto r.chldHosts pos.charPos.toNat a.chldHosts u.toNat
  let chldPorts ← copyInto r.chldPorts pos.uint16Pos.toNat a.chldPorts u.toNat
  return (⟨types, parRanks, chldRanks, chldHosts, chldPorts⟩, pos.advance u)

/-- A call of a function of `NetworkTopology`. -/
inductive TopologyCall where
  | addBackEnd (parRank chldRank : Rank) (chldHost : Text) (chldPort : Port)
  | removeNode (rank : Rank)
  | setParent (childRank newParentRank : Rank)
  | changePort (chldRank : Rank) (chldPort : Port)
  | addInternalNode (parRank chldRank : Rank) (chldHost : Text) (chldPort : Port)

section Filter

variable {σ : Type} (call : σ → TopologyCall → Outcome σ)

/-- One turn of the loop. -/
def applyAt (r : ResultArrays) (nt : σ) (i : ℕ) : Outcome σ := do
  let type ← readAt r.types i
  match UpdateType.ofInt type with
  | .newBE => do
      let parRank ← readAt r.parRanks i
      let chldRank ← readAt r.chldRanks i
      let chldHost ← readAt r.chldHosts i
      let chldPort ← readAt r.chldPorts i
      call nt (.addBackEnd parRank chldRank chldHost chldPort)
  | .removeRank => do
      let chldRank ← readAt r.chldRanks i
      call nt (.removeNode chldRank)
  | .changeParent => do
      let chldRank ← readAt r.chldRanks i
      let parRank ← readAt r.parRanks i
      call nt (.setParent chldRank parRank)
  | .changePort => do
      let chldRank ← readAt r.chldRanks i
      let chldPort ← readAt r.chldPorts i
      call nt (.changePort chldRank chldPort)
  | .newCP => do
      let parRank ← readAt r.parRanks i
      let chldRank ← readAt r.chldRanks i
      let chldHost ← readAt r.chldHosts i
      let chldPort ← readAt r.chldPorts i
      call nt (.addInternalNode parRank chldRank chldHost chldPort)
  | .invalid => return nt

/-- The result arrays, the topology and the output packet. -/
structure Filtered (σ : Type) where
  arrays : ResultArrays
  topology : σ
  out : Option UpdatePacket

def tfilterTopoUpdate (upstream : Bool) (nt : σ) (ipackets : List UpdatePacket) :
    Outcome (Filtered σ) := do
  let s := ipackets.foldl Unpacked.packet ⟨[], 0, 0, []⟩
  let (r, _) ← s.arrays.foldlM (copyPacket s.arrLen) (allocate s.rarrayLen, ⟨0, 0, 0, 0⟩)
  let nt ← (List.range s.arrLen.toNat).foldlM (applyAt call r) nt
  if upstream then
    match ipackets with
    | [] => .error (.fault .readPast)
    | first :: _ => do
        let arrays ← r.read s.rarrayLen.toNat
        return ⟨r, nt, some ⟨first.streamId, first.tag, s.formatString, some arrays⟩⟩
  else return ⟨r, nt, none⟩

end Filter

/-- The arrays of the packets that are unpacked. -/
def allArrays (ipackets : List UpdatePacket) : List UpdateArrays :=
  ipackets.filterMap UpdatePacket.arrays

/-- The records of all packets in their order. -/
def allRecords (ipackets : List UpdatePacket) : List UpdateRecord :=
  ((allArrays ipackets).map UpdateArrays.records).flatten

/-- The call that a record asks for. -/
def callOf (x : UpdateRecord) : Option TopologyCall :=
  match UpdateType.ofInt x.type with
  | .newBE => some (.addBackEnd x.parRank x.chldRank x.chldHost x.chldPort)
  | .removeRank => some (.removeNode x.chldRank)
  | .changeParent => some (.setParent x.chldRank x.parRank)
  | .changePort => some (.changePort x.chldRank x.chldPort)
  | .newCP => some (.addInternalNode x.parRank x.chldRank x.chldHost x.chldPort)
  | .invalid => none

/-- Every record is copied, applied and sent on, whatever the functions of the topology do. -/
def CopiesAll (upstream : Bool) (first : UpdatePacket) (rest : List UpdatePacket) : Prop :=
  ∀ (σ : Type) (call : σ → TopologyCall → Outcome σ) (nt : σ),
    tfilterTopoUpdate call upstream nt (first :: rest) = (do
      let records := allRecords (first :: rest)
      let nt ← (records.filterMap callOf).foldlM call nt
      return ⟨.filled records 0, nt,
        if upstream then
          some ⟨first.streamId, first.tag,
            ((first :: rest).getLast (List.cons_ne_nil _ _)).formatString,
            some (.ofRecords records)⟩
        else none⟩)

section Unpacking

variable {ipackets : List UpdatePacket} {strmId : BitVec 32}

/-- Off the port stream the other filter discards no packet. -/
lemma keptArrays_eq (hstrm : strmId ≠ portStrmId) (ipackets : List UpdatePacket) :
    keptArrays strmId ipackets = allArrays ipackets := by
  have hkeep : ∀ a : UpdateArrays, a.isDiscarded strmId = false := by
    intro a
    simp [UpdateArrays.isDiscarded, hstrm]
  unfold keptArrays allArrays
  congr 1
  ext1 p
  cases p.arrays with
  | none => rfl
  | some a => simp [hkeep]

/-- Off the port stream the arrays are gathered in the same way. -/
lemma unpacked_gathered (hstrm : strmId ≠ portStrmId) (ipackets : List UpdatePacket)
    (s : Unpacked) :
    let unpacked := ipackets.foldl Unpacked.packet s
    ipackets.foldl (Gathered.packet strmId) ⟨s.arrays, s.rarrayLen, s.formatString⟩ =
      ⟨unpacked.arrays, unpacked.rarrayLen, unpacked.formatString⟩ := by
  induction ipackets generalizing s with
  | nil => rfl
  | cons p ipackets ih =>
      have hpacket : Gathered.packet strmId ⟨s.arrays, s.rarrayLen, s.formatString⟩ p =
          ⟨(s.packet p).arrays, (s.packet p).rarrayLen, (s.packet p).formatString⟩ := by
        unfold Gathered.packet Unpacked.packet
        cases p.arrays with
        | none => rfl
        | some a => simp [UpdateArrays.isDiscarded, hstrm, Gathered.push]
      rw [List.foldl_cons, List.foldl_cons, hpacket]
      exact ih (s.packet p)

lemma unpacked_arrLen {n : BitVec 32} (h : ∀ a ∈ allArrays ipackets, a.arrLen = n)
    (s : Unpacked) :
    (ipackets.foldl Unpacked.packet s).arrLen = if allArrays ipackets = [] then s.arrLen else n := by
  induction ipackets generalizing s with
  | nil => rfl
  | cons p ipackets ih =>
      cases harrays : p.arrays with
      | none =>
          have hsame : allArrays (p :: ipackets) = allArrays ipackets :=
            List.filterMap_cons_none harrays
          have hpacket : (s.packet p).arrLen = s.arrLen := by
            simp [Unpacked.packet, harrays]
          rw [hsame] at h ⊢
          rw [List.foldl_cons, ih h, hpacket]
      | some a =>
          have hcons : allArrays (p :: ipackets) = a :: allArrays ipackets :=
            List.filterMap_cons_some harrays
          have hpacket : (s.packet p).arrLen = a.arrLen := by
            simp [Unpacked.packet, harrays]
          rw [hcons] at h ⊢
          rw [List.foldl_cons, ih (fun b hb => h b (List.mem_cons_of_mem a hb)), hpacket,
            h a List.mem_cons_self, ite_self, if_neg (List.cons_ne_nil _ _)]

/-- What is unpacked are the arrays of the records. -/
lemma unpacked_records (haligned : ∀ a ∈ allArrays ipackets, a.Aligned) :
    let unpacked := ipackets.foldl Unpacked.packet ⟨[], 0, 0, []⟩
    unpacked.arrays = ((allArrays ipackets).map UpdateArrays.records).map
        (fun xs => (UpdateArrays.ofRecords xs, BitVec.ofNat 32 xs.length)) ∧
      unpacked.rarrayLen = BitVec.ofNat 32 (allRecords ipackets).length := by
  have hstrm : topolStrmId ≠ portStrmId := by decide
  have hkept := keptArrays_eq hstrm ipackets
  have hgathered := @gathered_records topolStrmId ipackets none (by rw [hkept]; exact haligned)
    (by simp) []
  rw [mergedRecords, hkept, Option.toList_none, List.append_nil, Gathered.pushLocal,
    unpacked_gathered hstrm ipackets ⟨[], 0, 0, []⟩] at hgathered
  exact hgathered

lemma unpacked_formatString (p : UpdatePacket) (ipackets : List UpdatePacket) (s : Unpacked) :
    ((p :: ipackets).foldl Unpacked.packet s).formatString =
      ((p :: ipackets).getLast (List.cons_ne_nil _ _)).formatString := by
  have hstrm : topolStrmId ≠ portStrmId := by decide
  rw [← gathered_formatString topolStrmId p ipackets ⟨s.arrays, s.rarrayLen, s.formatString⟩,
    unpacked_gathered hstrm (p :: ipackets) s]

end Unpacking

/-- All positions are behind a number of records. -/
def Positions.behind (n : ℕ) : Positions where
  int32Pos := BitVec.ofNat 32 n
  uint32Pos := BitVec.ofNat 32 n
  uint16Pos := BitVec.ofNat 32 n
  charPos := BitVec.ofNat 32 n

lemma Positions.behind_advance (n u : ℕ) :
    (behind n).advance (BitVec.ofNat 32 u) = behind (n + u) := by
  rw [behind, behind, BitVec.ofNat_add]
  rfl

/-- A packet of the length that is used for it follows the records copied before. -/
lemma copyPacket_filled {done xs : List UpdateRecord} {free : ℕ}
    (hsmall : done.length + free < 2 ^ 32) (hfree : xs.length ≤ free) :
    copyPacket (BitVec.ofNat 32 xs.length) (.filled done free, .behind done.length)
        (UpdateArrays.ofRecords xs, BitVec.ofNat 32 xs.length) =
      .ok (.filled (done ++ xs) (free - xs.length), .behind (done ++ xs).length) := by
  have hpos : (BitVec.ofNat 32 done.length).toNat = done.length := by
    rw [BitVec.toNat_ofNat]
    omega
  have hlen : (BitVec.ofNat 32 xs.length).toNat = xs.length := by
    rw [BitVec.toNat_ofNat]
    omega
  unfold copyPacket
  rw [List.length_append, ← Positions.behind_advance]
  simp only [ResultArrays.filled, UpdateArrays.ofRecords, Positions.behind, hpos, hlen,
    ResultArrays.copyInto_field _ hfree, ok_bind]
  rfl

/-- Packets of one length are copied one after the other. -/
lemma copyPackets_filled {xss : List (List UpdateRecord)} {done : List UpdateRecord} {n free : ℕ}
    (hlength : ∀ xs ∈ xss, xs.length = n) (hsmall : done.length + free < 2 ^ 32)
    (hfree : xss.flatten.length ≤ free) :
    (xss.map fun xs => (UpdateArrays.ofRecords xs, BitVec.ofNat 32 xs.length)).foldlM
        (copyPacket (BitVec.ofNat 32 n)) (.filled done free, .behind done.length) =
      .ok (.filled (done ++ xss.flatten) (free - xss.flatten.length),
        .behind (done ++ xss.flatten).length) := by
  induction xss generalizing done free with
  | nil => simp [pure, Except.pure]
  | cons xs xss ih =>
      have hlen : (xs ++ xss.flatten).length = xs.length + xss.flatten.length := List.length_append
      have hn : xs.length = n := hlength xs List.mem_cons_self
      subst hn
      rw [List.flatten_cons] at hfree ⊢
      rw [List.map_cons, List.foldlM_cons, copyPacket_filled hsmall (by omega), ok_bind,
        ih (fun ys hys => hlength ys (List.mem_cons_of_mem xs hys))
          (by rw [List.length_append]; omega) (by omega), List.append_assoc, hlen, Nat.sub_sub]

/-- Whatever the lengths, the array of the parents grows by the one length. -/
lemma copyPackets_parRanks {xss : List (List UpdateRecord)} {u : BitVec 32} {done : List Rank}
    {free : ℕ} {r r' : ResultArrays} {pos pos' : Positions}
    (hsmall : done.length + free < 2 ^ 32) (hr : r.parRanks = Buffers.filled done free)
    (hpos : pos.uint32Pos = BitVec.ofNat 32 done.length)
    (h : (xss.map fun xs => (UpdateArrays.ofRecords xs, BitVec.ofNat 32 xs.length)).foldlM
      (copyPacket u) (r, pos) = .ok (r', pos')) :
    (∀ xs ∈ xss, u.toNat ≤ xs.length) ∧ xss.length * u.toNat ≤ free ∧
      ∃ done', r'.parRanks = Buffers.filled done' (free - xss.length * u.toNat) ∧
        done'.length = done.length + xss.length * u.toNat := by
  induction xss generalizing done free r pos with
  | nil =>
      cases h
      exact ⟨by simp, by simp, done, by simpa using hr, by simp⟩
  | cons xs xss ih =>
      rw [List.map_cons, List.foldlM_cons] at h
      obtain ⟨⟨r₁, pos₁⟩, hcopy, hrest⟩ := bind_ok_iff.mp h
      obtain ⟨types, -, hcopy⟩ := bind_ok_iff.mp hcopy
      obtain ⟨parRanks, hparRanks, hcopy⟩ := bind_ok_iff.mp hcopy
      obtain ⟨chldRanks, -, hcopy⟩ := bind_ok_iff.mp hcopy
      obtain ⟨chldHosts, -, hcopy⟩ := bind_ok_iff.mp hcopy
      obtain ⟨chldPorts, -, hcopy⟩ := bind_ok_iff.mp hcopy
      cases hcopy
      have hbehind : (BitVec.ofNat 32 done.length).toNat = done.length := by
        rw [BitVec.toNat_ofNat]
        omega
      rw [hr, hpos, hbehind] at hparRanks
      obtain ⟨hsource, hroom, -⟩ := copyInto_ok hparRanks
      rw [length_filled] at hroom
      rw [copyInto_filled rfl hsource (by omega)] at hparRanks
      cases hparRanks
      have htake : ((UpdateArrays.ofRecords xs).parRanks.take u.toNat).length = u.toNat := by
        rw [List.length_take]
        omega
      have hlen : (done ++ (UpdateArrays.ofRecords xs).parRanks.take u.toNat).length =
          done.length + u.toNat := by
        rw [List.length_append, htake]
      obtain ⟨hle, hfree, done', hr', hdone'⟩ := ih (by rw [hlen]; omega) rfl
        (by rw [hlen, BitVec.ofNat_add, BitVec.ofNat_toNat, BitVec.setWidth_eq, ← hpos]; rfl) hrest
      have hfirst : u.toNat ≤ xs.length := by
        rw [← List.length_map UpdateRecord.parRank]
        exact hsource
      rw [hlen] at hdone'
      rw [List.length_cons, Nat.succ_mul]
      refine ⟨List.forall_mem_cons.mpr ⟨hfirst, hle⟩, by omega, done', ?_, by omega⟩
      rw [hr', Nat.add_comm, Nat.sub_sub]

variable {σ : Type} {call : σ → TopologyCall → Outcome σ}

lemma applyAt_filled {xs : List UpdateRecord} {x : UpdateRecord} {i : ℕ} (h : xs[i]? = some x)
    (nt : σ) :
    applyAt call (.filled xs 0) nt i =
      match callOf x with
      | some c => call nt c
      | none => pure nt := by
  have hread : ∀ {α : Type} (f : UpdateRecord → α),
      readAt (Buffers.filled (xs.map f) 0) i = .ok (f x) := by
    intro α f
    apply readAt_written
    rw [List.getElem?_map, h]
    rfl
  unfold applyAt callOf
  simp only [ResultArrays.filled, hread, ok_bind]
  cases UpdateType.ofInt x.type <;> rfl

/-- The loop makes the calls of the first records. -/
lemma applyLoop_filled {xs : List UpdateRecord} {n : ℕ} (h : n ≤ xs.length) (nt : σ) :
    (List.range n).foldlM (applyAt call (.filled xs 0)) nt =
      ((xs.take n).filterMap callOf).foldlM call nt := by
  have hn : n = (xs.take n).length := by
    rw [List.length_take]
    omega
  rw [List.foldlM_filterMap]
  nth_rw 1 [hn]
  apply foldlM_range
  intro i x hx nt
  rw [List.getElem?_take] at hx
  split_ifs at hx
  rw [applyAt_filled hx]
  cases callOf x <;> rfl

/-- If all numbers are at least a bound and their sum is not more, they are the bound. -/
lemma eq_of_sum_eq {xs : List ℕ} {n : ℕ} (hle : ∀ x ∈ xs, n ≤ x) (hsum : xs.sum = xs.length * n) :
    ∀ x ∈ xs, x = n := by
  induction xs with
  | nil => simp
  | cons x xs ih =>
      have htail : ∀ y ∈ xs, n ≤ y := fun y hy => hle y (List.mem_cons_of_mem x hy)
      have hfirst : n ≤ x := hle x List.mem_cons_self
      have hrest : xs.length * n ≤ xs.sum := by
        rw [← smul_eq_mul]
        exact List.card_nsmul_le_sum xs n htail
      rw [List.sum_cons, List.length_cons, Nat.succ_mul] at hsum
      exact List.forall_mem_cons.mpr ⟨by omega, ih htail (by omega)⟩

lemma filled_injective {α : Type} {xs ys : List α} {m n : ℕ}
    (h : Buffers.filled xs m = Buffers.filled ys n) : m = n := by
  have hcount : ∀ (zs : List α) k, (Buffers.filled zs k).countP (·.isNone) = k := by
    intro zs k
    simp [Buffers.filled, List.countP_append, List.countP_replicate, List.countP_map, Function.comp_def]
  rw [← hcount xs m, h, hcount]

/-- The condition on the packets: they have one length, and only the first one has records
of a known type. -/
structure Uniform (as : List UpdateArrays) : Prop where
  small : ((as.map UpdateArrays.records).flatten).length < 2 ^ 32
  length : ∃ n, ∀ a ∈ as, a.records.length = n
  invalid : ∀ a ∈ as.tail, ∀ x ∈ a.records, UpdateType.ofInt x.type = .invalid

lemma callOf_eq_none {x : UpdateRecord} : callOf x = none ↔ UpdateType.ofInt x.type = .invalid := by
  unfold callOf
  cases UpdateType.ofInt x.type <;> simp

/-- The records of the first of some packets of one length. -/
lemma take_first {xss : List (List UpdateRecord)} {n : ℕ} (h : ∀ xs ∈ xss, xs.length = n) :
    xss.flatten.take n = xss.head?.getD [] ∧ xss.flatten.drop n = xss.tail.flatten := by
  cases xss with
  | nil => simp
  | cons xs xss =>
      have hn : n = xs.length := (h xs List.mem_cons_self).symm
      rw [List.flatten_cons]
      exact ⟨List.take_left' hn.symm, List.drop_left' hn.symm⟩

lemma allocate_eq_filled {n : ℕ} (h : n < 2 ^ 32) :
    allocate (BitVec.ofNat 32 n) = .filled [] n := by
  have hn : (BitVec.ofNat 32 n).toNat = n := by
    rw [BitVec.toNat_ofNat]
    omega
  rw [allocate, hn]
  rfl

section Packets

variable {upstream : Bool} {first : UpdatePacket} {rest : List UpdatePacket}

/-- The one length is that of every packet. -/
lemma Uniform.arrLen {ipackets : List UpdatePacket} (h : Uniform (allArrays ipackets))
    (haligned : ∀ a ∈ allArrays ipackets, a.Aligned) :
    ∃ n ≤ (allRecords ipackets).length,
      (∀ xs ∈ (allArrays ipackets).map UpdateArrays.records, xs.length = n) ∧
        (ipackets.foldl Unpacked.packet ⟨[], 0, 0, []⟩).arrLen = BitVec.ofNat 32 n := by
  obtain ⟨n, hn⟩ := h.length
  have harrLen : ∀ a ∈ allArrays ipackets, a.arrLen = BitVec.ofNat 32 n := by
    intro a ha
    rw [UpdateArrays.arrLen, ← (haligned a ha).length_records, hn a ha]
  rw [unpacked_arrLen harrLen]
  cases hall : allArrays ipackets with
  | nil => exact ⟨0, Nat.zero_le _, by simp, rfl⟩
  | cons a as =>
      rw [hall] at hn
      refine ⟨n, ?_, List.forall_mem_map.mpr hn, if_neg (List.cons_ne_nil a as)⟩
      rw [allRecords, hall, List.map_cons, List.flatten_cons, List.length_append,
        hn a List.mem_cons_self]
      exact Nat.le_add_right n _

/-- Behind the first packet no record asks for a call. -/
lemma Uniform.calls {as : List UpdateArrays} (h : Uniform as) {n : ℕ}
    (hn : ∀ xs ∈ as.map UpdateArrays.records, xs.length = n) :
    (((as.map UpdateArrays.records).flatten).take n).filterMap callOf =
      ((as.map UpdateArrays.records).flatten).filterMap callOf := by
  have hrest : (((as.map UpdateArrays.records).flatten).drop n).filterMap callOf = [] := by
    rw [(take_first hn).2, List.filterMap_eq_nil_iff]
    intro x hx
    obtain ⟨xs, hxs, hmem⟩ := List.mem_flatten.mp hx
    rw [← List.map_tail] at hxs
    obtain ⟨a, ha, rfl⟩ := List.mem_map.mp hxs
    exact callOf_eq_none.mpr (h.invalid a ha x hmem)
  conv_rhs => rw [← List.take_append_drop n (as.map UpdateArrays.records).flatten,
    List.filterMap_append, hrest, List.append_nil]

lemma copiesAll_of_uniform (haligned : ∀ a ∈ allArrays (first :: rest), a.Aligned)
    (h : Uniform (allArrays (first :: rest))) : CopiesAll upstream first rest := by
  intro σ call nt
  obtain ⟨harrays, hlen⟩ := unpacked_records haligned
  obtain ⟨n, hle, hn, harrLen⟩ := h.arrLen haligned
  have hsmall : (allRecords (first :: rest)).length < 2 ^ 32 := h.small
  have htoNat : ∀ {m : ℕ}, m < 2 ^ 32 → (BitVec.ofNat 32 m).toNat = m := by
    intro m hm
    rw [BitVec.toNat_ofNat]
    exact Nat.mod_eq_of_lt hm
  have hcopy := @copyPackets_filled _ [] n (allRecords (first :: rest)).length hn
    (by rw [List.length_nil, Nat.zero_add]; exact hsmall) le_rfl
  rw [List.nil_append, ← allRecords, Nat.sub_self] at hcopy
  unfold tfilterTopoUpdate
  simp only [harrays, hlen, harrLen, allocate_eq_filled hsmall, htoNat hsmall,
    htoNat (hle.trans_lt hsmall), unpacked_formatString]
  have hstart : (⟨0, 0, 0, 0⟩ : Positions) = .behind ([] : List UpdateRecord).length := rfl
  rw [hstart, hcopy]
  simp only [ok_bind, applyLoop_filled hle, ResultArrays.read_filled]
  have hcalls := h.calls hn
  rw [← allRecords] at hcalls
  rw [hcalls]
  cases upstream <;> rfl

lemma log_calls (calls done : List TopologyCall) :
    calls.foldlM (fun log c => (.ok (log ++ [c]) : Outcome (List TopologyCall))) done =
      .ok (done ++ calls) := by
  induction calls generalizing done with
  | nil => simp [pure, Except.pure]
  | cons c calls ih => rw [List.foldlM_cons, ok_bind, ih, List.append_assoc, List.singleton_append]

lemma tfilterTopoUpdate_ok {call : σ → TopologyCall → Outcome σ} {nt : σ}
    {ipackets : List UpdatePacket} {f : Filtered σ}
    (h : tfilterTopoUpdate call upstream nt ipackets = .ok f) :
    let s := ipackets.foldl Unpacked.packet ⟨[], 0, 0, []⟩
    (∃ pos, s.arrays.foldlM (copyPacket s.arrLen) (allocate s.rarrayLen, ⟨0, 0, 0, 0⟩) =
      .ok (f.arrays, pos)) ∧
      (List.range s.arrLen.toNat).foldlM (applyAt call f.arrays) nt = .ok f.topology := by
  obtain ⟨⟨r, pos⟩, hcopy, hrest⟩ := bind_ok_iff.mp h
  obtain ⟨nt', hloop, hrest⟩ := bind_ok_iff.mp hrest
  split_ifs at hrest with hup
  · cases ipackets with
    | nil => cases hrest
    | cons p ps =>
        obtain ⟨arrays, -, hrest⟩ := bind_ok_iff.mp hrest
        cases hrest
        exact ⟨⟨pos, hcopy⟩, hloop⟩
  · cases hrest
    exact ⟨⟨pos, hcopy⟩, hloop⟩

lemma uniform_of_copiesAll (haligned : ∀ a ∈ allArrays (first :: rest), a.Aligned)
    (h : CopiesAll upstream first rest) : Uniform (allArrays (first :: rest)) := by
  obtain ⟨harrays, hlen⟩ := unpacked_records haligned
  have hfilter := h (List TopologyCall) (fun log c => .ok (log ++ [c])) []
  simp only [log_calls, ok_bind, List.nil_append] at hfilter
  obtain ⟨⟨pos, hcopy⟩, hloop⟩ := tfilterTopoUpdate_ok hfilter
  generalize hu : ((first :: rest).foldl Unpacked.packet ⟨[], 0, 0, []⟩).arrLen = u at hcopy hloop
  dsimp only at hloop
  rw [harrays, hlen] at hcopy
  obtain ⟨hle, hroom, done, hdone, hlength⟩ := copyPackets_parRanks
    (by rw [List.length_nil, Nat.zero_add]; exact BitVec.isLt _)
    (Buffers.allocate_eq_filled (BitVec.ofNat 32 (allRecords (first :: rest)).length).toNat) rfl hcopy
  dsimp only [ResultArrays.filled] at hdone
  have hfree := filled_injective hdone
  have htotal : (allRecords (first :: rest)).length =
      ((allArrays (first :: rest)).map UpdateArrays.records).length * u.toNat := by
    have hblocks := congrArg List.length hdone
    rw [length_filled, length_filled, List.length_map, hlength, List.length_nil] at hblocks
    omega
  have hsmall : (allRecords (first :: rest)).length < 2 ^ 32 := by
    rw [htotal]
    exact hroom.trans_lt (BitVec.isLt _)
  have hn : ∀ xs ∈ (allArrays (first :: rest)).map UpdateArrays.records, xs.length = u.toNat := by
    have hsum := htotal
    rw [allRecords, List.length_flatten, ← List.length_map List.length] at hsum
    exact List.forall_mem_map.mp (eq_of_sum_eq (List.forall_mem_map.mpr hle) hsum)
  refine ⟨hsmall, ⟨u.toNat, List.forall_mem_map.mp hn⟩, ?_⟩
  intro a ha x hx
  have hone : u.toNat ≤ (allRecords (first :: rest)).length := by
    rw [htotal, List.length_map]
    exact Nat.le_mul_of_pos_left _ (List.length_pos_of_mem (List.mem_of_mem_tail ha))
  rw [applyLoop_filled hone, log_calls, List.nil_append] at hloop
  have hcalls : ((allRecords (first :: rest)).take u.toNat).filterMap callOf =
      (allRecords (first :: rest)).filterMap callOf := by
    injection hloop
  have hrest : ((allRecords (first :: rest)).drop u.toNat).filterMap callOf = [] := by
    nth_rw 2 [← List.take_append_drop u.toNat (allRecords (first :: rest))] at hcalls
    rw [List.filterMap_append] at hcalls
    exact List.self_eq_append_right.mp hcalls
  rw [allRecords, (take_first hn).2, ← List.map_tail, List.filterMap_eq_nil_iff] at hrest
  exact callOf_eq_none.mp (hrest x (List.mem_flatten.mpr ⟨_, List.mem_map_of_mem ha, hx⟩))

end Packets

/-- Every record of the packets is copied, applied and sent on if and only if the packets
have one length and no packet but the first has a record of a known type. -/
theorem copiesAll_iff (upstream : Bool) {first : UpdatePacket} {rest : List UpdatePacket}
    (haligned : ∀ p ∈ first :: rest, ∀ a, p.arrays = some a → a.Aligned) :
    CopiesAll upstream first rest ↔ Uniform (allArrays (first :: rest)) := by
  have hall : ∀ a ∈ allArrays (first :: rest), a.Aligned := by
    intro a ha
    obtain ⟨p, hp, harrays⟩ := List.mem_filterMap.mp ha
    exact haligned p hp a harrays
  exact ⟨uniform_of_copiesAll hall, copiesAll_of_uniform hall⟩

theorem copiesAll_iff_one_packet :
    CopiesAll true (updatePacket [⟨4, 0, 1, ['b'], 2⟩, ⟨0, 1, 2, ['c'], 0⟩]) [] := by
  refine (copiesAll_iff true ?_).mpr ⟨by decide, ⟨2, ?_⟩, ?_⟩
  · intro p hp a ha
    rw [List.mem_singleton] at hp
    subst hp
    cases ha
    exact ⟨rfl, rfl, rfl, rfl⟩
  · intro a ha
    cases List.mem_singleton.mp ha
    rfl
  · intro a ha
    cases ha

/-- Two records and one record: the parent of the third is stored as that of the second. -/
theorem shorter_last_misplaced :
    ¬∀ (upstream : Bool) (first : UpdatePacket) (rest : List UpdatePacket),
      (∀ p ∈ first :: rest, ∀ a, p.arrays = some a → a.Aligned) →
        CopiesAll upstream first rest := by
  intro hall
  have hcopies := hall false (updatePacket [⟨4, 0, 1, ['b'], 2⟩, ⟨0, 1, 2, ['c'], 0⟩])
    [updatePacket [⟨0, 7, 3, ['d'], 0⟩]] (by
      intro p hp a ha
      rw [List.mem_cons, List.mem_singleton] at hp
      rcases hp with rfl | rfl <;> cases ha <;> exact ⟨rfl, rfl, rfl, rfl⟩)
  have hequal := hcopies Unit (fun _ _ => .ok ()) ()
  obtain ⟨f, hf, hranks⟩ : ∃ f, tfilterTopoUpdate (fun _ _ => .ok ()) false ()
      [updatePacket [⟨4, 0, 1, ['b'], 2⟩, ⟨0, 1, 2, ['c'], 0⟩],
        updatePacket [⟨0, 7, 3, ['d'], 0⟩]] = .ok f ∧
      f.arrays.parRanks = [some 0, some 7, none] := ⟨_, rfl, rfl⟩
  rw [hf] at hequal
  injection hequal with hsame
  rw [hsame] at hranks
  exact absurd hranks (by decide)

end MRNet.Routing.Lightweight
