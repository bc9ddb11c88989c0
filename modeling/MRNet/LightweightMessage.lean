import MRNet.MessageForms

/-!
# Lightweight messages

Translation of `lightweight/Message.c`. A message has one packet, whose header and
data were encoded at construction. The receiver takes any number of packets. It
asserts its small allocations and those of the buffers, stops at the first buffer
that does not arrive, and adds each count to the total through an `int`.
-/
namespace MRNet.Wire.Lightweight
open NativeBytes Codec

section Send
variable (host : Host)

/-- The two buffers of a packet. -/
def Packet.ncbufs (p : Packet) : List NCBuf :=
  [⟨p.hdr, p.hdrLen.setWidth 64⟩, ⟨p.buf, p.bufLen⟩]

/-- `Message_send`: the buffers that are written one after the other. -/
def messageSend (packet : Option Packet) : Outcome (List (List Byte)) :=
  match packet with
  | none => return []
  | some packet => do
      let x := pdrmemCreate host .encode (pdrmemGetbo host)
      match host.malloc 5 with
      | none => .error (.fault .assertion)
      | some buf => do
          let (_, count) ← pdrUint32 x (some 1) ⟨buf, 1, 4⟩
          match host.malloc 17 with
          | none => .error (.fault .assertion)
          | some buf => do
              let (_, sizes) ← pdrVector (pdrUint64 x) (packet.ncbufs.map NCBuf.len) ⟨buf, 0, 17⟩
              let bufs ← packet.ncbufs.mapM NCBuf.bytes
              return count.block.set 0 (pdrmemGetbo host) :: sizes.block.take 17 :: bufs

end Send

structure Received where
  rc : ℤ
  packetsIn : List Packet
  rest : List Byte

section Recv
variable (host : Host)

/-- The packet count of `Message_recv`: there is none where it returns -1. -/
def recvCount (stream : List Byte) : Outcome (Option (BitVec 32) × List Byte) :=
  match host.malloc 5 with
  | none => .error (.fault .assertion)
  | some _ =>
      match mrnRecv stream 5 with
      | (none, stream) => return (none, stream)
      | (some buf, stream) => do
          let x := pdrmemCreate host .decode (buf.headD 0)
          let (numPackets, _) ← (pdrUint32 x (some 0)).attempt ⟨buf, 1, 4⟩
          return (numPackets, stream)

/-- The size vector, in the byte order of the receiver. -/
def recvSizes (numBuffers : BitVec 32) (stream : List Byte) :
    Outcome (Option (List (BitVec 64)) × List Byte) :=
  let bufLen := 8 * numBuffers.toNat + 1
  match host.malloc bufLen, host.malloc (8 * numBuffers.toNat) with
  | some _, some _ =>
      match mrnRecv stream bufLen with
      | (none, stream) => return (none, stream)
      | (some buf, stream) => do
          let x := pdrmemCreate host .decode (pdrmemGetbo host)
          let (sizes, _) ←
            (pdrVector (pdrUint64 x) (List.replicate numBuffers.toNat 0)).attempt ⟨buf, 0, bufLen⟩
          return (sizes, stream)
  | _, _ => return (none, stream)

/-- One buffer of the announced size. -/
def allocBuf (psz : BitVec 64) : Outcome (List Byte) :=
  match host.malloc psz.toNat with
  | none => .error (.fault .assertion)
  | some block => .ok block

/-- The receive loop over the buffers, with the total it adds up. The loop stops
where the stream ends, and leaves there what has arrived. -/
def recvBufs : List (List Byte) → List Byte → List (List Byte) × BitVec 64 × List Byte
  | [], stream => ([], 0, stream)
  | buf :: ncbufs, stream =>
      match mrnRecv stream buf.length with
      | (none, rest) => ((stream ++ buf.drop stream.length) :: ncbufs, 0, rest)
      | (some bytes, stream) =>
          let (ncbufs, recvTotal, stream) := recvBufs ncbufs stream
          (bytes :: ncbufs, (BitVec.ofNat 32 buf.length).signExtend 64 + recvTotal, stream)

/-- The last loop: the packets made, and whether it ended with a null pointer. The
length of a header is cut to 32 bits. -/
def makePackets (iinletRank : BitVec 32) : List (List Byte) → Outcome (List Packet × Bool)
  | [] => return ([], false)
  | [_] => .error (.fault .readPast)
  | hdr :: buf :: ncbufs => do
      match ← newPacket3 host (BitVec.ofNat 32 hdr.length) hdr (BitVec.ofNat 64 buf.length) buf
        iinletRank with
      | none => return ([], true)
      | some newPacket => do
          let (packets, failed) ← makePackets iinletRank ncbufs
          return (newPacket :: packets, failed)

/-- `Message_recv`. -/
def messageRecv (iinletRank : BitVec 32) (packetsIn : List Packet) (stream : List Byte) :
    Outcome Received := do
  match ← recvCount host stream with
  | (none, rest) => return ⟨-1, packetsIn, rest⟩
  | (some numPackets, stream) =>
      let numBuffers := numPackets * 2
      match ← recvSizes host numBuffers stream with
      | (none, rest) => return ⟨-1, packetsIn, rest⟩
      | (some packetSizes, stream) =>
          match host.malloc (16 * numBuffers.toNat) with
          | none => .error (.fault .assertion)
          | some _ => do
              let ncbufs ← packetSizes.mapM (allocBuf host)
              let totalBytes := packetSizes.sum
              let (ncbufs, recvTotal, rest) := recvBufs ncbufs stream
              if recvTotal ≠ totalBytes then return ⟨-1, packetsIn, rest⟩
              else do
                let (packets, failed) ← makePackets host iinletRank ncbufs
                return ⟨if failed then -1 else 0, packetsIn ++ packets, rest⟩

end Recv

/-- What `Message_send` writes is the message of the packet's bytes. -/
theorem messageSend_eq (host : Host) (ha : host.Allocates) {p : Packet} {hdr data : List Byte}
    (hhdr : NCBuf.bytes ⟨p.hdr, p.hdrLen.setWidth 64⟩ = .ok hdr)
    (hdata : NCBuf.bytes ⟨p.buf, p.bufLen⟩ = .ok data) :
    ∃ bufs pad, messageSend host (some p) = .ok bufs ∧
      bufs.flatten = messageForm host.bo [(hdr, data)] pad := by
  have hbytes : p.ncbufs.mapM NCBuf.bytes = .ok [hdr, data] :=
    mapM_ok_iff.mpr (.cons hhdr (.cons hdata .nil))
  have hlens : p.ncbufs.map NCBuf.len = (announce [(hdr, data)]).sizes := by
    simp [Packet.ncbufs, announce, bodyBufs, pairBufs, ← NCBuf.len_eq hhdr, ← NCBuf.len_eq hdata]
  obtain ⟨countBuf, hcb⟩ := Option.isSome_iff_exists.mp (ha 5)
  obtain ⟨sizesBuf, hsb⟩ := Option.isSome_iff_exists.mp (ha 17)
  obtain ⟨cs, hcount, hcs⟩ := packetCount_stored host 1 (host.malloc_length _ _ hcb)
  have hroom : 8 * (announce [(hdr, data)]).sizes.length + 1 ≤ sizesBuf.length :=
    (host.malloc_length _ _ hsb).ge
  obtain ⟨ss, pad, hsizes, hss⟩ := packetSizes_stored host (announce [(hdr, data)]).sizes hroom
  have hl : 8 * (announce [(hdr, data)]).sizes.length + 1 = 17 := rfl
  rw [hl] at hsizes hss
  have hsend : messageSend host (some p) = .ok [pdrmemGetbo host :: nativeBytes host.bo (1 : BitVec 32),
      (announce [(hdr, data)]).sizes.flatMap (nativeBytes host.bo) ++ [pad], hdr, data] := by
    rw [← hcs, ← hss]
    simp only [messageSend, hcb, hcount, ok_bind, hsb, hlens, hsizes, hbytes]
    rfl
  refine ⟨_, pad, hsend, ?_⟩
  simp [messageForm, headingForm, announce, bodyBufs, pairBufs, pdrmemGetbo]

/-- How often 2^32 is lost where a length goes through an `int`. -/
def castLoss (n : ℕ) : ℕ := (n + 2 ^ 31) / 2 ^ 32

lemma signExtend_add_castLoss (n : ℕ) :
    (BitVec.ofNat 32 n).signExtend 64 + BitVec.ofNat 64 (2 ^ 32 * castLoss n) =
      BitVec.ofNat 64 n := by
  apply BitVec.eq_of_toNat_eq
  rw [BitVec.toNat_add, BitVec.toNat_signExtend, BitVec.msb_eq_decide, BitVec.toNat_setWidth,
    BitVec.toNat_ofNat, BitVec.toNat_ofNat, BitVec.toNat_ofNat, castLoss]
  simp only [decide_eq_true_eq]
  split_ifs <;> omega

/-- The total is right exactly if what the casts lose is a multiple of 2^64. -/
theorem sum_signExtend_iff (lens : List ℕ) :
    (lens.map fun n => (BitVec.ofNat 32 n).signExtend 64).sum = (lens.map (BitVec.ofNat 64)).sum ↔
      2 ^ 32 ∣ (lens.map castLoss).sum := by
  have hadd : (lens.map fun n => (BitVec.ofNat 32 n).signExtend 64).sum +
      BitVec.ofNat 64 (2 ^ 32 * (lens.map castLoss).sum) = (lens.map (BitVec.ofNat 64)).sum := by
    induction lens with
    | nil => rfl
    | cons n lens ih =>
        simp only [List.map_cons, List.sum_cons, ← ih, ← signExtend_add_castLoss n]
        rw [Nat.mul_add, BitVec.ofNat_add]
        ac_rfl
  rw [← hadd, ← BitVec.toNat_inj, BitVec.toNat_add, BitVec.toNat_ofNat]
  have hlt := (lens.map fun n => (BitVec.ofNat 32 n).signExtend 64).sum.isLt
  omega

lemma allocBufs_granted (host : Host) (ha : host.Allocates) (bufs : List (List Byte))
    (hlt : ∀ bs ∈ bufs, bs.length < 2 ^ 64) :
    ∃ blocks, (bufs.map fun bs => BitVec.ofNat 64 bs.length).mapM (allocBuf host) = .ok blocks ∧
      blocks.map List.length = bufs.map List.length := by
  induction bufs with
  | nil => exact ⟨[], rfl, rfl⟩
  | cons bs bufs ih =>
      simp only [List.mem_cons, forall_eq_or_imp] at hlt
      obtain ⟨blocks, hrest, hlens⟩ := ih hlt.2
      obtain ⟨block, hblock⟩ := Option.isSome_iff_exists.mp (ha bs.length)
      have hfirst : allocBuf host (BitVec.ofNat 64 bs.length) = .ok block := by
        rw [allocBuf, toNat_ofNat_length hlt.1, hblock]
      refine ⟨block :: blocks, ?_, ?_⟩
      · rw [List.map_cons, List.mapM_cons, hfirst, ok_bind, hrest]
        rfl
      · rw [List.map_cons, List.map_cons, host.malloc_length _ _ hblock, hlens]

/-- Buffers of the right sizes are filled with the bytes that follow. -/
theorem recvBufs_filled {blocks bufs : List (List Byte)}
    (hl : blocks.map List.length = bufs.map List.length) (tl : List Byte) :
    recvBufs blocks (bufs.flatten ++ tl) =
      (bufs, ((bufs.map List.length).map fun n => (BitVec.ofNat 32 n).signExtend 64).sum, tl) := by
  induction bufs generalizing blocks with
  | nil =>
      obtain rfl := List.map_eq_nil_iff.mp hl
      rfl
  | cons bs bufs ih =>
      obtain ⟨block, blocks, rfl, hb, hrest⟩ := List.map_eq_cons_iff.mp hl
      rw [List.flatten_cons, List.append_assoc, recvBufs, hb, mrnRecv_append]
      simp only [ih hrest, List.map_cons, List.sum_cons]

section Receive
variable (host : Host) (iinletRank : BitVec 32)

/-- The packet that `new_Packet_t_3` makes of a header and its data. -/
def ReceivedAs (pair : List Byte × List Byte) (p : Packet) : Prop :=
  newPacket3 host (BitVec.ofNat 32 pair.1.length) pair.1 (BitVec.ofNat 64 pair.2.length) pair.2
    iinletRank = .ok (some p)

lemma makePackets_eq {pairs : List (List Byte × List Byte)} {ps : List Packet}
    (h : List.Forall₂ (ReceivedAs host iinletRank) pairs ps) :
    makePackets host iinletRank (bodyBufs pairs) = .ok (ps, false) := by
  induction h with
  | nil => rfl
  | @cons pair p pairs ps hp _ ih =>
      have hfirst : newPacket3 host (BitVec.ofNat 32 pair.1.length) pair.1
          (BitVec.ofNat 64 pair.2.length) pair.2 iinletRank = .ok (some p) := hp
      rw [bodyBufs, List.flatMap_cons, ← bodyBufs]
      simp only [pairBufs, List.cons_append, List.nil_append, makePackets, hfirst, ok_bind, ih]
      rfl

lemma recvCount_eq (ha : host.Allocates) (flag : Byte) (n : BitVec 32) (tl : List Byte) :
    recvCount host (flag :: (nativeBytes (decodeOrder host flag) n ++ tl)) = .ok (some n, tl) := by
  obtain ⟨block, hblock⟩ := Option.isSome_iff_exists.mp (ha 5)
  have hsplit := mrnRecv_append (flag :: nativeBytes (decodeOrder host flag) n) tl
  have hlen : (flag :: nativeBytes (decodeOrder host flag) n).length = 5 := by simp
  rw [hlen, List.cons_append] at hsplit
  obtain ⟨s, hget⟩ := packetCount_read host flag n
  simp only [recvCount, hblock, hsplit, List.headD_cons, Action.attempt_ok hget, ok_bind]
  rfl

lemma recvSizes_eq (ha : host.Allocates) {numBuffers : BitVec 32} {sizes : List (BitVec 64)}
    (hl : sizes.length = numBuffers.toNat) (pad : Byte) (body : List Byte) :
    recvSizes host numBuffers (sizes.flatMap (nativeBytes host.bo) ++ pad :: body) =
      .ok (some sizes, body) := by
  obtain ⟨block, hblock⟩ := Option.isSome_iff_exists.mp (ha (8 * numBuffers.toNat + 1))
  obtain ⟨words, hwords⟩ := Option.isSome_iff_exists.mp (ha (8 * numBuffers.toNat))
  obtain ⟨s, hget⟩ := packetSizes_read host sizes pad
  have hsplit := mrnRecv_sizes host sizes pad body
  rw [hl] at hget hsplit
  simp only [recvSizes, hblock, hwords, hsplit, Action.attempt_ok hget, ok_bind]
  rfl

/-- A message of a host with the same byte order is received as its packets if the
total comes out right, and not at all otherwise. -/
theorem messageRecv_message (ha : host.Allocates) {pairs : List (List Byte × List Byte)}
    {ps : List Packet} (hn : 2 * pairs.length < 2 ^ 32)
    (hlt : ∀ bs ∈ bodyBufs pairs, bs.length < 2 ^ 64)
    (h : List.Forall₂ (ReceivedAs host iinletRank) pairs ps) (packetsIn : List Packet)
    (pad : Byte) (tl : List Byte) :
    messageRecv host iinletRank packetsIn (messageForm host.bo pairs pad ++ tl) = .ok
      (if 2 ^ 32 ∣ (((bodyBufs pairs).map List.length).map castLoss).sum
        then ⟨0, packetsIn ++ ps, tl⟩ else ⟨-1, packetsIn, tl⟩) := by
  have hsl : (announce pairs).sizes.length = (BitVec.ofNat 32 pairs.length * 2).toNat := by
    rw [numBuffers_toNat hn, announce, List.length_map, bodyBufs_length]
  have hcount := recvCount_eq host ha (pdrByteorder host.bo) (BitVec.ofNat 32 pairs.length)
    ((announce pairs).sizes.flatMap (nativeBytes host.bo) ++ pad :: ((bodyBufs pairs).flatten ++ tl))
  have hsizes := recvSizes_eq host ha hsl pad ((bodyBufs pairs).flatten ++ tl)
  have hstream : messageForm host.bo pairs pad ++ tl = pdrByteorder host.bo ::
      (nativeBytes host.bo (BitVec.ofNat 32 pairs.length) ++
        ((announce pairs).sizes.flatMap (nativeBytes host.bo) ++
          pad :: ((bodyBufs pairs).flatten ++ tl))) := by
    simp [messageForm, headingForm, announce]
  rw [decodeOrder_pdrByteorder, ← hstream] at hcount
  obtain ⟨blocks, halloc, hlens⟩ := allocBufs_granted host ha _ hlt
  obtain ⟨table, htable⟩ := Option.isSome_iff_exists.mp
    (ha (16 * (BitVec.ofNat 32 pairs.length * 2).toNat))
  have hsum : (announce pairs).sizes.sum =
      (((bodyBufs pairs).map List.length).map (BitVec.ofNat 64)).sum := by
    rw [announce, List.map_map]
    rfl
  have htotal := sum_signExtend_iff ((bodyBufs pairs).map List.length)
  rw [← hsum] at htotal
  rw [messageRecv, hcount, ok_bind]
  dsimp only
  rw [hsizes, ok_bind]
  dsimp only
  rw [htable]
  dsimp only
  rw [show (announce pairs).sizes.mapM (allocBuf host) = .ok blocks from halloc, ok_bind,
    recvBufs_filled hlens]
  dsimp only
  by_cases hdvd : 2 ^ 32 ∣ (((bodyBufs pairs).map List.length).map castLoss).sum
  · rw [if_neg (not_not.mpr (htotal.mpr hdvd)), if_pos hdvd, makePackets_eq host iinletRank h]
    rfl
  · rw [if_pos (fun heq => hdvd (htotal.mp heq)), if_neg hdvd]
    rfl

end Receive

end MRNet.Wire.Lightweight
