import MRNet.Message

/-!
# The parts of a message

What each part of `send` and `recv` does: the bytes in front of the buffers, the
buffers of the packets, and the buffers as they are received.
-/
namespace MRNet.Wire
open NativeBytes Codec

/-- The part of a message in front of the buffers, with the count in one byte
order and the sizes in another. -/
def headingForm (countOrder sizesOrder : ByteOrder) (flag : Byte) (a : Announced) (pad : Byte) :
    List Byte :=
  flag :: (nativeBytes countOrder a.numPackets ++
    (a.sizes.flatMap (nativeBytes sizesOrder) ++ [pad]))

/-- What a receiver takes a stream for: a heading with as many sizes as the 32-bit
number of buffers says, and the rest. -/
def Framed (host : Host) (stream : List Byte) (a : Announced) (body : List Byte) : Prop :=
  a.sizes.length = (a.numPackets * 2).toNat ∧ ∃ flag pad,
    stream = headingForm (decodeOrder host flag) host.bo flag a pad ++ body

/-- The size vector has a buffer to be received in. -/
def VectorGranted (host : Host) (numPackets : BitVec 32) : Prop :=
  (numPackets * 2).toNat < messagePreallocLen ∨
    (host.malloc (8 * (numPackets * 2).toNat + 1)).isSome

/-- `packet_sizes` is not null. -/
def SizesGranted (host : Host) (numPackets : BitVec 32) : Prop :=
  (numPackets * 2).toNat < messagePreallocLen ∨ (host.malloc (8 * (numPackets * 2).toNat)).isSome

lemma mrnRecv_append (bs tl : List Byte) : mrnRecv (bs ++ tl) bs.length = (some bs, tl) := by
  simp [mrnRecv]

lemma mrnRecv_short {stream : List Byte} {count : ℕ} (h : stream.length < count) :
    mrnRecv stream count = (none, []) := by
  simp only [mrnRecv, if_neg (by omega : ¬count ≤ stream.length)]

section RecvSizes
variable (host : Host)

/-- Any five bytes are a flag and a count. -/
lemma packetCount_read (flag : Byte) (n : BitVec 32) :
    ∃ s, pdrUint32 (pdrmemCreate host .decode flag) (some 0)
      ⟨flag :: nativeBytes (decodeOrder host flag) n, 1, 4⟩ = .ok (n, s) := by
  have hvalid : Cursor.Valid ⟨flag :: nativeBytes (decodeOrder host flag) n, 1, 4⟩ := by
    simp [Cursor.Valid]
  exact ⟨_, (pdrUint32_scalar.decodes (pdrmemCreate_fetches host flag) 0).run_ok hvalid [] rfl
    (by simp [Cursor.rest])⟩

/-- The sizes are read in the byte order of the host. -/
lemma packetSizes_read (sizes : List (BitVec 64)) (pad : Byte) :
    ∃ s, pdrVector (pdrUint64 (pdrmemCreate host .decode (pdrmemGetbo host)))
      (List.replicate sizes.length 0)
      ⟨sizes.flatMap (nativeBytes host.bo) ++ [pad], 0, 8 * sizes.length + 1⟩ = .ok (sizes, s) := by
  have hlen : (sizes.flatMap (nativeBytes host.bo) ++ [pad]).length = 8 * sizes.length + 1 := by
    rw [List.length_append, flatMap_nativeBytes_length, List.length_singleton]
    omega
  have hvalid : Cursor.Valid
      ⟨sizes.flatMap (nativeBytes host.bo) ++ [pad], 0, 8 * sizes.length + 1⟩ := by
    simp only [Cursor.Valid, hlen]
    omega
  have hrest : Cursor.rest
      ⟨sizes.flatMap (nativeBytes host.bo) ++ [pad], 0, 8 * sizes.length + 1⟩ =
      sizes.flatMap (nativeBytes host.bo) ++ [pad] := by
    simp only [Cursor.rest, List.drop_zero]
    exact List.take_of_length_le hlen.le
  have hfetch := pdrmemCreate_fetches host (pdrmemGetbo host)
  rw [pdrmemGetbo, decodeOrder_pdrByteorder] at hfetch
  exact ⟨_, (pdrVector_decodes pdrUint64_scalar hfetch _).run_ok hvalid [pad]
    ⟨by rw [List.length_replicate], rfl⟩ hrest⟩

theorem recvSizes_count (flag : Byte) (n : BitVec 32) (tl : List Byte) :
    recvSizes host (flag :: (nativeBytes (decodeOrder host flag) n ++ tl)) =
      recvVector host n tl := by
  have hsplit := mrnRecv_append (flag :: nativeBytes (decodeOrder host flag) n) tl
  have hlen : (flag :: nativeBytes (decodeOrder host flag) n).length = 5 := by simp
  rw [hlen, List.cons_append] at hsplit
  obtain ⟨s, hget⟩ := packetCount_read host flag n
  simp only [recvSizes, hsplit, List.headD_cons, Action.attempt_ok hget, ok_bind]

lemma recvSizes_short {stream : List Byte} (h : stream.length < 5) :
    recvSizes host stream = .ok (none, []) := by
  simp only [recvSizes, mrnRecv_short h]
  rfl

/-- The size vector is cut off the stream with its byte of overhead. -/
lemma mrnRecv_sizes (sizes : List (BitVec 64)) (pad : Byte) (body : List Byte) :
    mrnRecv (sizes.flatMap (nativeBytes host.bo) ++ pad :: body) (8 * sizes.length + 1) =
      (some (sizes.flatMap (nativeBytes host.bo) ++ [pad]), body) := by
  have hlen : (sizes.flatMap (nativeBytes host.bo) ++ [pad]).length = 8 * sizes.length + 1 := by
    rw [List.length_append, flatMap_nativeBytes_length, List.length_singleton]
    omega
  have hsplit := mrnRecv_append (sizes.flatMap (nativeBytes host.bo) ++ [pad]) body
  rwa [hlen, List.append_assoc, List.singleton_append] at hsplit

lemma recvVector_eq {n : BitVec 32} {sizes : List (BitVec 64)}
    (hl : sizes.length = (n * 2).toNat) (hv : VectorGranted host n) (pad : Byte)
    (body : List Byte) :
    recvVector host n (sizes.flatMap (nativeBytes host.bo) ++ pad :: body) =
      if (n * 2).toNat < messagePreallocLen ∨ (host.malloc (8 * (n * 2).toNat)).isSome then
        .ok (some ⟨n, sizes⟩, body)
      else .error (.fault .nullPointer) := by
  obtain ⟨s, hget⟩ := packetSizes_read host sizes pad
  have hsplit := mrnRecv_sizes host sizes pad body
  rw [hl] at hget hsplit
  simp only [recvVector, decide_eq_true_eq, hsplit, Action.attempt_ok hget, ok_bind]
  exact if_pos hv

/-- A heading is read as what it announces. -/
theorem recvSizes_framed {stream body : List Byte} {a : Announced}
    (hf : Framed host stream a body) (hv : VectorGranted host a.numPackets)
    (hs : SizesGranted host a.numPackets) : recvSizes host stream = .ok (some a, body) := by
  obtain ⟨hl, flag, pad, rfl⟩ := hf
  simp only [headingForm, List.cons_append, List.append_assoc, List.nil_append]
  rw [recvSizes_count, recvVector_eq host hl hv]
  exact if_pos hs

/-- Without memory for `packet_sizes` the sizes are stored through a null pointer. -/
theorem recvSizes_fault {stream body : List Byte} {a : Announced}
    (hf : Framed host stream a body) (hv : VectorGranted host a.numPackets)
    (hs : ¬SizesGranted host a.numPackets) :
    recvSizes host stream = .error (.fault .nullPointer) := by
  obtain ⟨hl, flag, pad, rfl⟩ := hf
  simp only [headingForm, List.cons_append, List.append_assoc, List.nil_append]
  rw [recvSizes_count, recvVector_eq host hl hv]
  exact if_neg hs

/-- Every other stream announces nothing. -/
theorem recvSizes_unframed {stream : List Byte}
    (h : ∀ a body, Framed host stream a body → ¬VectorGranted host a.numPackets) :
    ∃ rest, recvSizes host stream = .ok (none, rest) := by
  by_cases h5 : stream.length < 5
  · exact ⟨[], recvSizes_short host h5⟩
  · obtain ⟨flag, bytes, rfl⟩ : ∃ flag bytes, stream = flag :: bytes := by
      cases stream with
      | nil => simp at h5
      | cons flag bytes => exact ⟨flag, bytes, rfl⟩
    rw [List.length_cons] at h5
    obtain ⟨words, hwl, hwords⟩ := exists_words (decodeOrder host flag) (w := 32) (by decide) 1
      (bytes.take 4) (by rw [List.length_take]; omega)
    obtain ⟨n, rfl⟩ := List.length_eq_one_iff.mp hwl
    have hbytes : bytes = nativeBytes (decodeOrder host flag) n ++ bytes.drop 4 := by
      rw [show nativeBytes (decodeOrder host flag) n = bytes.take 4 by simpa using hwords,
        List.take_append_drop]
    rw [hbytes] at h ⊢
    rw [recvSizes_count]
    by_cases hv : VectorGranted host n
    · by_cases hlong : 8 * (n * 2).toNat + 1 ≤ (bytes.drop 4).length
      · obtain ⟨sizes, hsl, hsizes⟩ := exists_words host.bo (w := 64) (by decide) (n * 2).toNat
          ((bytes.drop 4).take (8 * (n * 2).toNat)) (by rw [List.length_take]; omega)
        cases hrest : (bytes.drop 4).drop (8 * (n * 2).toNat) with
        | nil =>
            have hle := List.drop_eq_nil_iff.mp hrest
            omega
        | cons pad body =>
            refine absurd hv (h ⟨n, sizes⟩ body ⟨hsl, flag, pad, ?_⟩)
            have hcut := List.take_append_drop (8 * (n * 2).toNat) (bytes.drop 4)
            rw [hrest, ← hsizes] at hcut
            rw [← hcut]
            simp [headingForm]
      · refine ⟨[], ?_⟩
        simp only [recvVector, decide_eq_true_eq, mrnRecv_short (not_le.mp hlong)]
        exact if_pos hv
    · refine ⟨bytes.drop 4, ?_⟩
      simp only [recvVector, decide_eq_true_eq]
      exact if_neg hv

end RecvSizes

/-- A buffer that holds the given bytes. -/
def NCBuf.ofBytes (bs : List Byte) : NCBuf := ⟨some bs, BitVec.ofNat 64 bs.length⟩

lemma NCBuf.len_eq {b : NCBuf} {bs : List Byte} (h : b.bytes = .ok bs) :
    b.len = BitVec.ofNat 64 bs.length := by
  unfold NCBuf.bytes at h
  split_ifs at h with h0
  · cases h
    simpa using h0
  · cases hb : b.buf with
    | none => simp [hb] at h
    | some block =>
        simp only [hb] at h
        split_ifs at h with hle
        cases h
        rw [List.length_take, Nat.min_eq_left hle, BitVec.ofNat_toNat, BitVec.setWidth_eq]

lemma NCBuf.bytes_some {block : List Byte} {len : BitVec 64} (h : len.toNat ≤ block.length) :
    NCBuf.bytes ⟨some block, len⟩ = .ok (block.take len.toNat) := by
  by_cases h0 : len = 0
  · simp [NCBuf.bytes, h0]
  · simp only [NCBuf.bytes, if_neg h0, if_pos h]

lemma recvBuf_filled (host : Host) (ha : host.Allocates) {bs : List Byte}
    (hlt : bs.length < 2 ^ 64) (tl : List Byte) :
    recvBuf ⟨host.malloc bs.length, BitVec.ofNat 64 bs.length⟩ (bs ++ tl) =
      (.ofBytes bs, BitVec.ofNat 64 bs.length, tl) := by
  obtain ⟨block, hblock⟩ := Option.isSome_iff_exists.mp (ha bs.length)
  have hlen := host.malloc_length _ _ hblock
  have hn := toNat_ofNat_length hlt
  simp only [recvBuf, hblock]
  by_cases h0 : BitVec.ofNat 64 bs.length = 0
  · -- nothing to receive: the block of size 0 is the empty buffer already
    obtain rfl := (ofNat_length_eq_zero_iff hlt).mp h0
    obtain rfl : block = [] := List.eq_nil_of_length_eq_zero hlen
    rfl
  · rw [if_neg h0]
    simp [hn, NCBuf.ofBytes]

/-- Buffers of the announced sizes are filled with the bytes that follow. -/
theorem recvBufs_filled (host : Host) (ha : host.Allocates) {bufs : List (List Byte)}
    (hlt : ∀ bs ∈ bufs, bs.length < 2 ^ 64) (tl : List Byte) :
    recvBufs (allocBufs host (bufs.map fun bs => BitVec.ofNat 64 bs.length)) (bufs.flatten ++ tl) =
      (bufs.map .ofBytes, (bufs.map fun bs => BitVec.ofNat 64 bs.length).sum, tl) := by
  induction bufs with
  | nil => rfl
  | cons bs bufs ih =>
      simp only [List.mem_cons, forall_eq_or_imp] at hlt
      have hn := toNat_ofNat_length hlt.1
      have hfirst := recvBuf_filled host ha hlt.1 (bufs.flatten ++ tl)
      have hrest := ih hlt.2
      simp only [allocBufs, List.map_map, Function.comp_def] at hrest
      simp only [allocBufs, List.map_cons, List.map_map, Function.comp_def, List.flatten_cons,
        List.append_assoc, recvBufs, hn, hfirst, hrest, List.sum_cons]

/-- Receiving changes neither the length of a buffer nor whether it is there. -/
def NCBuf.shape (b : NCBuf) : BitVec 64 × Bool := (b.len, b.buf.isSome)

lemma recvBuf_shape (b : NCBuf) (stream : List Byte) : (recvBuf b stream).1.shape = b.shape := by
  unfold recvBuf
  cases hb : b.buf with
  | none => split_ifs <;> rfl
  | some block => split_ifs <;> simp [NCBuf.shape, hb]

theorem recvBufs_shape (bufs : List NCBuf) (stream : List Byte) :
    (recvBufs bufs stream).1.map NCBuf.shape = bufs.map NCBuf.shape := by
  induction bufs generalizing stream with
  | nil => rfl
  | cons b bufs ih =>
      simp only [recvBufs, List.map_cons, List.cons.injEq]
      exact ⟨recvBuf_shape b stream, ih _⟩

/-- The header bytes and the data bytes of a packet. -/
def Packet.bytes (p : Packet) : List Byte × List Byte :=
  ((p.hdr.getD []).take p.hdrLen.toNat, (p.buf.getD []).take p.bufLen.toNat)

/-- The buffers of a packet in `ncbufs`. -/
def Packet.ncbufs (p : Packet) : List NCBuf :=
  [⟨p.hdr, p.hdrLen.setWidth 64⟩, ⟨p.buf, p.bufLen⟩]

/-- The two buffers of a packet. -/
def pairBufs (b : List Byte × List Byte) : List (List Byte) := [b.1, b.2]

/-- With room for all packets the loop of `send` prepares each of them. -/
theorem gather_eq (host : Host) (ncbufsLen : ℕ) {sizesLen : ℕ} (i : ℕ) (pkts : List Packet)
    (hn : i + 2 * pkts.length + 2 ≤ ncbufsLen) (hs : i + 2 * pkts.length ≤ sizesLen) :
    gather host ncbufsLen sizesLen i pkts =
      (pkts.mapM (Packet.prepare host)).map fun qs => (qs, qs.flatMap Packet.ncbufs) := by
  induction pkts generalizing i with
  | nil => rfl
  | cons p pkts ih =>
      rw [List.length_cons] at hn hs
      have hrest := ih (i + 2) (by omega) (by omega)
      have hroom : i + 3 < ncbufsLen ∧ i + 1 < sizesLen := ⟨by omega, by omega⟩
      rw [gather, List.mapM_cons]
      cases p.prepare host with
      | error e => rfl
      | ok q =>
          simp only [ok_bind, if_pos hroom, hrest]
          cases pkts.mapM (Packet.prepare host) with
          | error e => rfl
          | ok qs => rfl

/-- Without it the loop does not return. -/
theorem gather_outside (host : Host) {ncbufsLen sizesLen : ℕ} (i : ℕ) {pkts : List Packet}
    (hn : pkts ≠ []) (hroom : ncbufsLen < i + 2 * pkts.length + 2) :
    ∀ r, gather host ncbufsLen sizesLen i pkts ≠ .ok r := by
  induction pkts generalizing i with
  | nil => exact absurd rfl hn
  | cons p pkts ih =>
      intro r hr
      rw [List.length_cons] at hroom
      rw [gather] at hr
      obtain ⟨q, -, hr⟩ := bind_ok_iff.mp hr
      split_ifs at hr with hin
      obtain ⟨rest, hrest, -⟩ := bind_ok_iff.mp hr
      cases pkts with
      | nil => simp at hroom; omega
      | cons p' pkts => exact ih (i + 2) (by simp) (by omega) rest hrest

/-- Header bytes that every receiver can read: fields with the flag of the byte
order they are written in. -/
def WellFormedHeader (hdr : List Byte) : Prop :=
  ∃ o fields fmt, hdr = headerForm o fields ∧ fields.byteorder = pdrByteorder o ∧
    fields.fmtStr = some (fmt ++ [0]) ∧
    26 + fmt.length + 4 * fields.destArr.data.length < 2 ^ 32

lemma WellFormedHeader.length {hdr : List Byte} (h : WellFormedHeader hdr) :
    26 ≤ hdr.length ∧ hdr.length < 2 ^ 32 := by
  obtain ⟨o, fields, fmt, rfl, -, hfmt, hfit⟩ := h
  rw [headerForm_length hfmt]
  omega

/-- The data of a packet is in its buffer. -/
def Packet.DataInPlace (p : Packet) : Prop :=
  p.bufLen = 0 ∨ ∃ block, p.buf = some block ∧ block.length = p.bufLen.toNat

/-- A packet whose header is encoded and whose buffers are in place. -/
structure Packet.Loaded (p : Packet) : Prop where
  header : ∃ hdr, p.hdr = some hdr ∧ p.hdrLen = BitVec.ofNat 32 hdr.length ∧ WellFormedHeader hdr
  data : p.DataInPlace

/-- A packet that can be sent: its header is encoded already, or can be. -/
structure Packet.Ready (p : Packet) : Prop where
  header : (p.hdrLen = 0 ∧ ∃ fmt, p.fmtStr = some (fmt ++ [0]) ∧ 0 ∉ fmt ∧
      26 + fmt.length + 4 * p.destArr.data.length < 2 ^ 32) ∨
    ∃ hdr, p.hdr = some hdr ∧ p.hdrLen = BitVec.ofNat 32 hdr.length ∧ WellFormedHeader hdr
  data : p.DataInPlace

/-- A fresh header is the form of the fields at the time of the encoding. -/
theorem encodePdrHeader_form (host : Host) (ha : host.Allocates) {p : Packet} {fmt : List Byte}
    (hfmt : p.fmtStr = some (fmt ++ [0])) (hz : 0 ∉ fmt)
    (hfit : 26 + fmt.length + 4 * p.destArr.data.length < 2 ^ 32) :
    p.encodePdrHeader host = .ok { p with
      toHeaderFields := p.announced host,
      hdrLen := BitVec.ofNat 32 (headerForm host.bo (p.announced host)).length,
      hdr := some (headerForm host.bo (p.announced host)) } := by
  have hlen : (headerForm host.bo (p.announced host)).length =
      26 + fmt.length + 4 * p.destArr.data.length := headerForm_length hfmt
  exact encodePdrHeader_eq host ha
    (sentHeader_eq_form hfmt hz (by unfold wrapstringMax; omega)) (by omega)

lemma WellFormedHeader.hdrLen_ne_zero {hdr : List Byte} (h : WellFormedHeader hdr) :
    BitVec.ofNat 32 hdr.length ≠ 0 := by
  obtain ⟨hpos, hlt⟩ := h.length
  rw [ne_eq, ofNat_length_eq_zero_iff hlt]
  rintro rfl
  simp at hpos

theorem Packet.Ready.prepare (host : Host) (ha : host.Allocates) {p : Packet} (h : p.Ready) :
    ∃ q, p.prepare host = .ok q ∧ q.Loaded := by
  rcases h.header with ⟨h0, fmt, hfmt, hz, hfit⟩ | ⟨hdr, hp, hlen, hwf⟩
  · rw [Packet.prepare, if_pos h0, encodePdrHeader_form host ha hfmt hz hfit]
    exact ⟨_, rfl, ⟨_, rfl, rfl, host.bo, p.announced host, fmt, rfl, rfl, hfmt, hfit⟩, h.data⟩
  · rw [Packet.prepare, if_neg (by rw [hlen]; exact hwf.hdrLen_ne_zero)]
    exact ⟨p, rfl, ⟨hdr, hp, hlen, hwf⟩, h.data⟩

section Loaded
variable {q : Packet} (h : q.Loaded)
include h

lemma Packet.Loaded.header_bytes : WellFormedHeader q.bytes.1 ∧ q.hdr = some q.bytes.1 ∧
    q.hdrLen = BitVec.ofNat 32 q.bytes.1.length := by
  obtain ⟨hdr, hp, hlen, hwf⟩ := h.header
  have hn := toNat_ofNat_length hwf.length.2
  have hb : q.bytes.1 = hdr := by simp [Packet.bytes, hp, hlen, hn]
  rw [hb]
  exact ⟨hwf, hp, hlen⟩

lemma Packet.Loaded.data_bytes : NCBuf.bytes ⟨q.buf, q.bufLen⟩ = .ok q.bytes.2 := by
  rcases h.data with h0 | ⟨block, hp, hlen⟩
  · simp [Packet.bytes, NCBuf.bytes, h0]
  · rw [hp, NCBuf.bytes_some hlen.ge, Packet.bytes, hp, Option.getD_some]

/-- The buffers of the packet are its bytes. -/
theorem Packet.Loaded.ncbufs : q.ncbufs.map NCBuf.len =
      (pairBufs q.bytes).map (fun bs => BitVec.ofNat 64 bs.length) ∧
    q.ncbufs.mapM NCBuf.bytes = .ok (pairBufs q.bytes) := by
  obtain ⟨hdr, hp, hlen, hwf⟩ := h.header
  have hdata := h.data_bytes
  have hw : (q.hdrLen.setWidth 64).toNat = q.hdrLen.toNat := by
    rw [BitVec.toNat_setWidth]
    omega
  have hn : q.hdrLen.toNat = hdr.length := by rw [hlen, toNat_ofNat_length hwf.length.2]
  have hhdr : NCBuf.bytes ⟨q.hdr, q.hdrLen.setWidth 64⟩ = .ok q.bytes.1 := by
    rw [hp, NCBuf.bytes_some (by omega), hw, Packet.bytes, hp, Option.getD_some]
  constructor
  · simp [Packet.ncbufs, pairBufs, ← NCBuf.len_eq hhdr, ← NCBuf.len_eq hdata]
  · exact mapM_ok_iff.mpr (.cons hhdr (.cons hdata .nil))

end Loaded

/-- All buffers of a message with the given header and data bytes. -/
def bodyBufs (pairs : List (List Byte × List Byte)) : List (List Byte) := pairs.flatMap pairBufs

/-- What the heading of such a message announces. -/
def announce (pairs : List (List Byte × List Byte)) : Announced :=
  ⟨BitVec.ofNat 32 pairs.length, (bodyBufs pairs).map fun bs => BitVec.ofNat 64 bs.length⟩

/-- The whole message, as a host of byte order `o` sends it. -/
def messageForm (o : ByteOrder) (pairs : List (List Byte × List Byte)) (pad : Byte) : List Byte :=
  headingForm o o (pdrByteorder o) (announce pairs) pad ++ (bodyBufs pairs).flatten

lemma bodyBufs_length (pairs : List (List Byte × List Byte)) :
    (bodyBufs pairs).length = 2 * pairs.length := by
  induction pairs with
  | nil => rfl
  | cons b pairs ih =>
      rw [bodyBufs, List.flatMap_cons, List.length_append, ← bodyBufs, ih, List.length_cons]
      simp only [pairBufs, List.length_cons, List.length_nil]
      omega

/-- The buffers of loaded packets are those of their bytes. -/
theorem loaded_ncbufs {qs : List Packet} (h : ∀ q ∈ qs, q.Loaded) :
    (qs.flatMap Packet.ncbufs).map NCBuf.len = (announce (qs.map Packet.bytes)).sizes ∧
    (qs.flatMap Packet.ncbufs).mapM NCBuf.bytes = .ok (bodyBufs (qs.map Packet.bytes)) := by
  induction qs with
  | nil => exact ⟨rfl, rfl⟩
  | cons q qs ih =>
      simp only [List.mem_cons, forall_eq_or_imp] at h
      obtain ⟨hlen, hbytes⟩ := h.1.ncbufs
      obtain ⟨hlens, hall⟩ := ih h.2
      constructor
      · rw [List.flatMap_cons, List.map_append, hlen, hlens]
        simp [announce, bodyBufs]
      · rw [List.flatMap_cons, List.mapM_append, hbytes, hall]
        rfl

section Heading
variable (host : Host)

lemma packetCount_stored (n : BitVec 32) {block : List Byte} (hl : block.length = 5) :
    ∃ s, pdrUint32 (pdrmemCreate host .encode (pdrmemGetbo host)) (some n) ⟨block, 1, 4⟩ =
        .ok (n, s) ∧
      s.block.set 0 (pdrmemGetbo host) = pdrmemGetbo host :: nativeBytes host.bo n := by
  rw [pdrmemCreate_encode]
  have hemit : memorySink.Emits _ n (nativeBytes host.bo n) :=
    pdrUint32_scalar.encodes (pdrmemOps_feeds host) n
  refine ⟨_, hemit.stores (by simp [Cursor.Valid, hl]) (by simp), ?_⟩
  obtain ⟨b, bs, rfl⟩ : ∃ b bs, block = b :: bs := List.exists_cons_of_length_eq_add_one hl
  have hbs : bs.length = 4 := by simpa using hl
  simp [Cursor.overwrite, hbs]

lemma packetSizes_stored (sizes : List (BitVec 64)) {block : List Byte}
    (hl : 8 * sizes.length + 1 ≤ block.length) :
    ∃ s pad, pdrVector (pdrUint64 (pdrmemCreate host .encode (pdrmemGetbo host))) sizes
        ⟨block, 0, 8 * sizes.length + 1⟩ = .ok (sizes, s) ∧
      s.block.take (8 * sizes.length + 1) = sizes.flatMap (nativeBytes host.bo) ++ [pad] := by
  rw [pdrmemCreate_encode]
  have hlen : (sizes.flatMap (nativeBytes host.bo)).length = 8 * sizes.length := by
    rw [flatMap_nativeBytes_length]
    omega
  have hemit : memorySink.Emits _ sizes (sizes.flatMap (nativeBytes host.bo)) :=
    pdrVector_encodes pdrUint64_scalar (pdrmemOps_feeds host) sizes
  have hrun := hemit.stores (s := ⟨block, 0, 8 * sizes.length + 1⟩)
    (by simp only [Cursor.Valid]; omega) (by simp only [hlen]; omega)
  obtain ⟨pad, tl, htl⟩ : ∃ pad tl, block.drop (8 * sizes.length) = pad :: tl := by
    apply List.exists_cons_of_length_pos
    rw [List.length_drop]
    omega
  refine ⟨_, pad, hrun, ?_⟩
  simp only [Cursor.overwrite, List.take_zero, List.nil_append, Nat.zero_add, hlen, htl]
  rw [← hlen, List.take_append, List.take_of_length_le (by omega), Nat.add_sub_cancel_left]
  simp

end Heading

lemma numBuffers_toNat {n : ℕ} (hn : 2 * n < 2 ^ 32) :
    (BitVec.ofNat 32 n * 2).toNat = 2 * n := by
  have h2 : (2 : BitVec 32).toNat = 2 := rfl
  rw [BitVec.toNat_mul, BitVec.toNat_ofNat, h2]
  omega

lemma numNcbufs_toNat {n : ℕ} (hn : 2 * n + 2 < 2 ^ 32) :
    (BitVec.ofNat 32 n * 2 + 2).toNat = 2 * n + 2 := by
  have h2 : (2 : BitVec 32).toNat = 2 := rfl
  rw [BitVec.toNat_add, numBuffers_toNat (by omega), h2]
  omega

/-- What `send` puts on the wire is the message of its packets' bytes. -/
theorem send_eq (host : Host) (ha : host.Allocates) {msg : Message} (hne : msg.packets ≠ [])
    (hn : 2 * msg.packets.length + 2 < 2 ^ 32) {qs : List Packet}
    (hq : msg.packets.mapM (Packet.prepare host) = .ok qs) (hload : ∀ q ∈ qs, q.Loaded) :
    ∃ s pad, msg.send host = .ok s ∧ s.packets = qs ∧
      s.wire = messageForm host.bo (qs.map Packet.bytes) pad := by
  have hbuf := numBuffers_toNat (by omega : 2 * msg.packets.length < 2 ^ 32)
  have hncbuf := numNcbufs_toNat hn
  obtain ⟨hlens, hbytes⟩ := loaded_ncbufs hload
  have hql := mapM_length hq
  have hsl : (announce (qs.map Packet.bytes)).sizes.length = 2 * msg.packets.length := by
    simp [announce, bodyBufs_length, hql]
  have hbl : 2 * msg.packets.length * 8 + 1 =
      8 * (announce (qs.map Packet.bytes)).sizes.length + 1 := by omega
  obtain ⟨cs, hcount, hcb⟩ := packetCount_stored host (BitVec.ofNat 32 msg.packets.length)
    msg.packetCountBuf_length
  -- whichever array `buf` is, it has room for the sizes
  obtain ⟨buf, sizesLen, hchoice, hsizes, hbroom, hroom⟩ : ∃ buf sizesLen,
      (if 2 * msg.packets.length + 2 < messagePreallocLen then some msg.packetSizesBuf
        else host.malloc (2 * msg.packets.length * 8 + 1)) = some buf ∧
      (if 2 * msg.packets.length + 2 < messagePreallocLen then some messagePreallocLen
        else (host.malloc (2 * msg.packets.length * 8)).map fun _ => 2 * msg.packets.length) =
        some sizesLen ∧
      8 * (announce (qs.map Packet.bytes)).sizes.length + 1 ≤ buf.length ∧
      2 * msg.packets.length ≤ sizesLen := by
    have hpl := msg.packetSizesBuf_length
    unfold messagePreallocLen at hpl ⊢
    split_ifs with hpre
    · exact ⟨_, _, rfl, rfl, by omega, by omega⟩
    · obtain ⟨buf, hb⟩ := Option.isSome_iff_exists.mp (ha (2 * msg.packets.length * 8 + 1))
      obtain ⟨sz, hz⟩ := Option.isSome_iff_exists.mp (ha (2 * msg.packets.length * 8))
      have hlen := host.malloc_length _ _ hb
      exact ⟨buf, 2 * msg.packets.length, hb, by rw [hz]; rfl, by omega, le_rfl⟩
  obtain ⟨ss, pad, hvec, hvb⟩ := packetSizes_stored host _ hbroom
  have hgather := gather_eq host (if 2 * msg.packets.length + 2 < messagePreallocLen
    then messagePreallocLen else 2 * msg.packets.length + 2) 0 msg.packets
    (by split_ifs <;> omega) (by simpa using hroom)
  rw [hq] at hgather
  rw [hbl] at hchoice
  refine ⟨⟨(pdrmemGetbo host :: nativeBytes host.bo (BitVec.ofNat 32 msg.packets.length)) ::
    ((announce (qs.map Packet.bytes)).sizes.flatMap (nativeBytes host.bo) ++ [pad]) ::
    bodyBufs (qs.map Packet.bytes), qs⟩, pad, ?_, rfl, ?_⟩
  · rw [← hcb, ← hvb]
    simp only [Message.send, if_neg hne, hbuf, hncbuf, decide_eq_true_eq, hchoice, hsizes, hgather,
      Except.map, ok_bind, hcount, hlens, hbl, hvec, hbytes]
    rfl
  · simp [Sent.wire, messageForm, headingForm, announce, hql]
    rfl

section Receive
variable (host : Host) (iinletRank : BitVec 32)

/-- The packet that `recv` makes of a header and its data. -/
def ReceivedAs (pair : List Byte × List Byte) (p : Packet) : Prop :=
  Packet.receive host (BitVec.ofNat 32 pair.1.length) (some pair.1)
      (BitVec.ofNat 64 pair.2.length) (some pair.2) iinletRank = .ok p ∧ p.hasError = false

/-- A header in its form is received with its fields. -/
theorem receivedAs_headerForm (ha : host.Allocates) {o : ByteOrder} {fields : HeaderFields}
    {fmt : List Byte} (hbo : fields.byteorder = pdrByteorder o)
    (hfmt : fields.fmtStr = some (fmt ++ [0]))
    (hfit : 26 + fmt.length + 4 * fields.destArr.data.length < 2 ^ 32) (data : List Byte) :
    ReceivedAs host iinletRank (headerForm o fields, data)
      { Packet.blank (BitVec.ofNat 32 (headerForm o fields).length) (some (headerForm o fields))
          (BitVec.ofNat 64 data.length) (some data) iinletRank with toHeaderFields := fields } := by
  have hread := headerForm_reads host ha hbo hfmt hfit
  have hne := WellFormedHeader.hdrLen_ne_zero ⟨o, fields, fmt, rfl, hbo, hfmt, hfit⟩
  exact ⟨receive_eq host hne hread.1 hread.2.1 _ _ _, rfl⟩

theorem WellFormedHeader.receivedAs (ha : host.Allocates) {pair : List Byte × List Byte}
    (hwf : WellFormedHeader pair.1) (hlt : pair.2.length < 2 ^ 64) :
    ∃ p, ReceivedAs host iinletRank pair p ∧ p.bytes = pair := by
  obtain ⟨hdr, data⟩ := pair
  have hn := toNat_ofNat_length hwf.length.2
  obtain ⟨o, fields, fmt, rfl, hbo, hfmt, hfit⟩ := hwf
  refine ⟨_, receivedAs_headerForm host iinletRank ha hbo hfmt hfit data, ?_⟩
  have hn' := toNat_ofNat_length hlt
  simp only [Packet.bytes, Packet.blank, Option.getD_some, hn, hn', List.take_length]

lemma publish_eq {pairs : List (List Byte × List Byte)} {ps : List Packet}
    (h : List.Forall₂ (ReceivedAs host iinletRank) pairs ps) (i : ℕ) :
    ∃ owned, publish host iinletRank pairs.length i ((bodyBufs pairs).map .ofBytes) =
      .ok ⟨ps, owned, [], false⟩ := by
  induction h generalizing i with
  | nil => exact ⟨[], rfl⟩
  | @cons pair p pairs ps hp _ ih =>
      obtain ⟨owned, hrest⟩ := ih (i + 2)
      have hw : (BitVec.ofNat 64 pair.1.length).setWidth 32 = BitVec.ofNat 32 pair.1.length :=
        BitVec.setWidth_ofNat_of_le (by decide) _
      refine ⟨held i [.ofBytes pair.1, .ofBytes pair.2] ++ owned, ?_⟩
      simp only [bodyBufs, List.flatMap_cons, pairBufs, List.cons_append, List.nil_append,
        List.map_cons, List.length_cons, publish, NCBuf.ofBytes, hw, hp.1, ok_bind, hp.2]
      rw [← bodyBufs, hrest]
      rfl

/-- The buffers of a message arrive whole at every host of the same byte order. -/
theorem recv_messageForm (ha : host.Allocates) {pairs : List (List Byte × List Byte)}
    (hn : 2 * pairs.length < 2 ^ 32) (hlt : ∀ bs ∈ bodyBufs pairs, bs.length < 2 ^ 64)
    (packetsIn : List Packet) (pad : Byte) (tl : List Byte) :
    recv host iinletRank packetsIn (messageForm host.bo pairs pad ++ tl) = do
      let p ← publish host iinletRank pairs.length 0 ((bodyBufs pairs).map .ofBytes)
      return ⟨if p.failed then -1 else 0, packetsIn ++ p.packets, tl,
        held 0 ((bodyBufs pairs).map .ofBytes), p.owned, p.released⟩ := by
  have hnum := numBuffers_toNat hn
  have hcount : (BitVec.ofNat 32 pairs.length).toNat = pairs.length := by
    rw [BitVec.toNat_ofNat]
    omega
  have hframed : Framed host (messageForm host.bo pairs pad ++ tl) (announce pairs)
      ((bodyBufs pairs).flatten ++ tl) := by
    refine ⟨?_, pdrByteorder host.bo, pad, ?_⟩
    · rw [announce, hnum, List.length_map, bodyBufs_length]
    · rw [decodeOrder_pdrByteorder, messageForm, List.append_assoc]
  have hsizes := recvSizes_framed host hframed (Or.inr (ha _)) (Or.inr (ha _))
  have hfill := recvBufs_filled host ha hlt tl
  simp only [recv, hsizes, ok_bind, announce, hfill, hcount, ne_eq, not_true_eq_false, if_false]

/-- A message is received as its packets. -/
theorem recv_message (ha : host.Allocates) {pairs : List (List Byte × List Byte)}
    {ps : List Packet} (hn : 2 * pairs.length < 2 ^ 32)
    (hlt : ∀ bs ∈ bodyBufs pairs, bs.length < 2 ^ 64)
    (h : List.Forall₂ (ReceivedAs host iinletRank) pairs ps) (packetsIn : List Packet)
    (pad : Byte) (tl : List Byte) :
    ∃ r, recv host iinletRank packetsIn (messageForm host.bo pairs pad ++ tl) = .ok r ∧
      r.rc = 0 ∧ r.packetsIn = packetsIn ++ ps ∧ r.rest = tl := by
  obtain ⟨owned, hpub⟩ := publish_eq host iinletRank h 0
  rw [recv_messageForm host iinletRank ha hn hlt, hpub]
  exact ⟨_, rfl, rfl, rfl, rfl⟩

end Receive

end MRNet.Wire
