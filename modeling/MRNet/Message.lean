import MRNet.PacketRoundTrip
import MRNet.SocketUtils

/-!
# Messages

Translation of `Message::send`, `Message::recv` and `SocketUtils::Recv`. A message
is a flag for the byte order and the packet count, the vector of the buffer sizes
with one byte of overhead, and then the header and data buffers of all packets.

The stream is what the peer sends before it closes the connection, and a `recv`
that meets its end takes what is there and fails. The ledger follows the buffers
allocated for a message by their index in `ncbufs`. Locks, timers and the exit of
the sending thread after a shutdown packet do not take part.
-/
namespace MRNet.Wire
open NativeBytes Codec

/-- `MESSAGE_PREALLOC_LEN`. -/
def messagePreallocLen : ℕ := 10

structure NCBuf where
  buf : Option (List Byte)
  len : BitVec 64
  deriving DecidableEq

/-- The bytes a write takes from a buffer: a null pointer is refused by the kernel. -/
def NCBuf.bytes (b : NCBuf) : Outcome (List Byte) :=
  if b.len = 0 then .ok []
  else
    match b.buf with
    | none => .error .refused
    | some block =>
        if b.len.toNat ≤ block.length then .ok (block.take b.len.toNat)
        else .error (.fault .readPast)

/-- The packets waiting in a message, and the two buffers that it reuses. -/
structure Message where
  packets : List Packet
  packetCountBuf : List Byte
  packetSizesBuf : List Byte
  packetCountBuf_length : packetCountBuf.length = 5
  packetSizesBuf_length : packetSizesBuf.length = 8 * messagePreallocLen + 1

/-- What `send` hands to `SocketUtils::Send`, with the packets after it. -/
structure Sent where
  bufs : List (List Byte)
  packets : List Packet

/-- The bytes on the wire once all buffers are written. -/
def Sent.wire (s : Sent) : List Byte := s.bufs.flatten

section Send
variable (host : Host)

/-- The lazy encoding of the header. -/
def Packet.prepare (p : Packet) : Outcome Packet :=
  if p.hdrLen = 0 then p.encodePdrHeader host else .ok p

/-- The packet loop of `send` from index `i`, for arrays with room for `ncbufsLen`
buffers and `sizesLen` sizes. An index leaves its array before it can wrap. -/
def gather (ncbufsLen sizesLen : ℕ) : ℕ → List Packet → Outcome (List Packet × List NCBuf)
  | _, [] => .ok ([], [])
  | i, curPacket :: pkts => do
      let curPacket ← curPacket.prepare host
      if i + 3 < ncbufsLen ∧ i + 1 < sizesLen then do
        let (pkts, ncbufs) ← gather ncbufsLen sizesLen (i + 2) pkts
        return (curPacket :: pkts, ⟨curPacket.hdr, curPacket.hdrLen.setWidth 64⟩ ::
          ⟨curPacket.buf, curPacket.bufLen⟩ :: ncbufs)
      else .error (.fault .storePast)

/-- A refusal is the return value -1. Packet counts are kept in 32 bits. -/
def Message.send (msg : Message) : Outcome Sent :=
  if msg.packets = [] then return ⟨[], []⟩
  else do
    let numPackets := BitVec.ofNat 32 msg.packets.length
    let numBuffers := numPackets * 2
    let numNcbufs := numBuffers + 2
    let bufLen := numBuffers.toNat * 8 + 1
    let prealloc : Bool := numNcbufs.toNat < messagePreallocLen
    let x := pdrmemCreate host .encode (pdrmemGetbo host)
    match if prealloc then some msg.packetSizesBuf else host.malloc bufLen,
      if prealloc then some messagePreallocLen
        else (host.malloc (numBuffers.toNat * 8)).map fun _ => numBuffers.toNat with
    | some buf, some sizesLen => do
        let (packets, ncbufs) ←
          gather host (if prealloc then messagePreallocLen else numNcbufs.toNat) sizesLen 0
            msg.packets
        let (_, count) ← pdrUint32 x (some numPackets) ⟨msg.packetCountBuf, 1, 4⟩
        let (_, sizes) ← pdrVector (pdrUint64 x) (ncbufs.map NCBuf.len) ⟨buf, 0, bufLen⟩
        let bufs ← ncbufs.mapM NCBuf.bytes
        return ⟨count.block.set 0 (pdrmemGetbo host) :: sizes.block.take bufLen :: bufs, packets⟩
    | _, _ => .error (.fault .nullPointer)

end Send

/-- `MRN_recv`: the bytes received, if there are enough of them, and what is left
of the stream. -/
def mrnRecv (stream : List Byte) (count : ℕ) : Option (List Byte) × List Byte :=
  if count ≤ stream.length then (some (stream.take count), stream.drop count) else (none, [])

/-- One `recv` of `SocketUtils::Recv`, with the count it adds. A null pointer is
refused by the kernel, with the stream as it was. -/
def recvBuf (b : NCBuf) (stream : List Byte) : NCBuf × BitVec 64 × List Byte :=
  if b.len = 0 then (b, 0, stream)
  else
    match b.buf with
    | none => (b, 0, stream)
    | some block =>
        if b.len.toNat ≤ stream.length then
          ({ b with buf := some (stream.take b.len.toNat) }, b.len, stream.drop b.len.toNat)
        else ({ b with buf := some (stream ++ block.drop stream.length) }, 0, [])

/-- `SocketUtils::Recv`: the buffers, the number of bytes received, the rest. -/
def recvBufs : List NCBuf → List Byte → List NCBuf × BitVec 64 × List Byte
  | [], stream => ([], 0, stream)
  | b :: bufs, stream =>
      let (b, rret, stream) := recvBuf b stream
      let (bufs, ret, stream) := recvBufs bufs stream
      (b :: bufs, rret + ret, stream)

/-- The indices of the buffers that are not null, from index `u`. -/
def held : ℕ → List NCBuf → List ℕ
  | _, [] => []
  | u, b :: bufs => if b.buf.isSome then u :: held (u + 1) bufs else held (u + 1) bufs

/-- What the first part of a message announces. -/
structure Announced where
  numPackets : BitVec 32
  sizes : List (BitVec 64)
  deriving DecidableEq

/-- The packets made from the buffers, the buffers they own, and those released
where a packet fails. -/
structure Published where
  packets : List Packet
  owned : List ℕ
  released : List ℕ
  failed : Bool

/-- The result of `recv` with the ledger of its buffers. -/
structure Received where
  rc : ℤ
  packetsIn : List Packet
  rest : List Byte
  allocated : List ℕ
  owned : List ℕ
  released : List ℕ

section Recv
variable (host : Host)

/-- The size vector of `recv`, which is read in the byte order of the receiver:
nothing is announced where `recv` returns -1. -/
def recvVector (numPackets : BitVec 32) (stream : List Byte) :
    Outcome (Option Announced × List Byte) :=
  let numBuffers := numPackets * 2
  let bufLen := 8 * numBuffers.toNat + 1
  let prealloc : Bool := numBuffers.toNat < messagePreallocLen
  if prealloc ∨ (host.malloc bufLen).isSome then
    match mrnRecv stream bufLen with
    | (none, stream) => return (none, stream)
    | (some buf, stream) =>
        if prealloc ∨ (host.malloc (8 * numBuffers.toNat)).isSome then do
          let x := pdrmemCreate host .decode (pdrmemGetbo host)
          match ← (pdrVector (pdrUint64 x) (List.replicate numBuffers.toNat 0)).attempt
            ⟨buf, 0, bufLen⟩ with
          | (none, _) => return (none, stream)
          | (some sizes, _) => return (some ⟨numPackets, sizes⟩, stream)
        else .error (.fault .nullPointer)
  else return (none, stream)

/-- The first part of `recv`, up to the sizes. The flag in front of the packet
count says how to read the count. -/
def recvSizes (stream : List Byte) : Outcome (Option Announced × List Byte) :=
  match mrnRecv stream 5 with
  | (none, stream) => return (none, stream)
  | (some countBuf, stream) => do
      let x := pdrmemCreate host .decode (countBuf.headD 0)
      match ← (pdrUint32 x (some 0)).attempt ⟨countBuf, 1, 4⟩ with
      | (none, _) => return (none, stream)
      | (some numPackets, _) => recvVector host numPackets stream

/-- The last loop of `recv`, over the `num_packets` packets still to make and the
buffers from index `i`. Where a packet fails it goes out of scope with its two
buffers, and then every buffer still in `ncbufs` is released. An index outside the
`num_buffers` entries is a fault. -/
def publish (iinletRank : BitVec 32) : ℕ → ℕ → List NCBuf → Outcome Published
  | 0, _, _ => return ⟨[], [], [], false⟩
  | todo + 1, i, h :: d :: ncbufs => do
      let newPacket ← Packet.receive host (h.len.setWidth 32) h.buf d.len d.buf iinletRank
      if newPacket.hasError then
        return ⟨[], [], held i [h, d] ++ held i (h :: d :: ncbufs), true⟩
      else do
        let r ← publish iinletRank todo (i + 2) ncbufs
        return { r with packets := newPacket :: r.packets, owned := held i [h, d] ++ r.owned }
  | _ + 1, _, _ => .error (.fault .readPast)

/-- The buffers as `recv` allocates them. -/
def allocBufs (sizes : List (BitVec 64)) : List NCBuf :=
  sizes.map fun len => ⟨host.malloc len.toNat, len⟩

def recv (iinletRank : BitVec 32) (packetsIn : List Packet) (stream : List Byte) :
    Outcome Received := do
  match ← recvSizes host stream with
  | (none, rest) => return ⟨-1, packetsIn, rest, [], [], []⟩
  | (some a, stream) =>
      let totalBytes := a.sizes.sum
      let (ncbufs, retval, rest) := recvBufs (allocBufs host a.sizes) stream
      let allocated := held 0 ncbufs
      if retval ≠ totalBytes then return ⟨-1, packetsIn, rest, allocated, [], allocated⟩
      else do
        let p ← publish host iinletRank a.numPackets.toNat 0 ncbufs
        return ⟨if p.failed then -1 else 0, packetsIn ++ p.packets, rest, allocated, p.owned,
          p.released⟩

end Recv

end MRNet.Wire
