import MRNet.PacketForms

/-!
# Lightweight packets

Translation of `lightweight/Packet.c`. The header procedure has no place for a
destination list: an encode sends an empty one and a decode drops what it reads.
Short arrays are bounded by `UINT32_MAX`, and short character arrays go through
`pdr_array`. Headers and data are encoded and decoded at construction.
-/
namespace MRNet.Wire.Lightweight
open NativeBytes Codec

structure HeaderFields where
  streamId : BitVec 32
  tag : BitVec 32
  srcRank : BitVec 32
  fmtStr : Option (List Byte)
  byteorder : Byte
  deriving DecidableEq

/-- The part of a header that both implementations have. -/
def HeaderFields.ofFull (pkt : Wire.HeaderFields) : HeaderFields :=
  ⟨pkt.streamId, pkt.tag, pkt.srcRank, pkt.fmtStr, pkt.byteorder⟩

/-- A lightweight header seen as a full one without destinations. -/
def HeaderFields.toFull (pkt : HeaderFields) : Wire.HeaderFields :=
  ⟨pkt.streamId, pkt.tag, pkt.srcRank, pkt.fmtStr, CArray.empty, pkt.byteorder⟩

section Procedures
variable (host : Host)

def packetPdrPacketHeader (x : PDR) (pkt : HeaderFields) : Action HeaderFields := do
  let streamId ← pdrUint32 x (some pkt.streamId)
  let tag ← pdrInt32 x (some pkt.tag)
  let srcRank ← pdrUint32 x (some pkt.srcRank)
  let fmtStr ← pdrWrapstring host x (some pkt.fmtStr)
  let _ ← pdrArray host x (CArray.empty : CArray (BitVec 32) 4) int32Max pdrUint32 0
  let byteorder ← pdrChar x (some pkt.byteorder)
  return ⟨streamId, tag, srcRank, fmtStr, byteorder⟩

/-- The switch of `Packet_pdr_packet_data`. -/
def packetPdrElement (x : PDR) : (type : DataType) → DataValue type → Action (DataValue type)
  | .unknown, _ => Action.stop (.fault .assertion)
  | .char, v | .uchar, v => pdrUchar x (some v)
  | .charArray, v | .ucharArray, v => pdrArray host x v uint32Max pdrUchar 0
  | .charLrgArray, v | .ucharLrgArray, v => pdrBytes host x v uint64Max
  | .int16, v | .uint16, v => pdrUint16 x (some v)
  | .int16Array, v | .uint16Array, v => pdrArray host x v uint32Max pdrUint16 0
  | .int16LrgArray, v | .uint16LrgArray, v => pdrArray host x v uint64Max pdrUint16 0
  | .int32, v | .uint32, v => pdrUint32 x (some v)
  | .int32LrgArray, v | .uint32LrgArray, v => pdrArray host x v uint64Max pdrUint32 0
  | .int32Array, v | .uint32Array, v => pdrArray host x v uint32Max pdrUint32 0
  | .int64, v | .uint64, v => pdrUint64 x (some v)
  | .int64Array, v | .uint64Array, v => pdrArray host x v uint32Max pdrUint64 0
  | .int64LrgArray, v | .uint64LrgArray, v => pdrArray host x v uint64Max pdrUint64 0
  | .float, v => pdrFloat x (some v)
  | .double, v => pdrDouble x (some v)
  | .floatArray, v => pdrArray host x v uint32Max pdrFloat 0
  | .floatLrgArray, v => pdrArray host x v uint64Max pdrFloat 0
  | .doubleLrgArray, v => pdrArray host x v uint64Max pdrDouble 0
  | .doubleArray, v => pdrArray host x v uint32Max pdrDouble 0
  | .stringLrgArray, v => pdrArray host x v uint64Max (pdrWrapstring host) none
  | .stringArray, v => pdrArray host x v uint32Max (pdrWrapstring host) none
  | .string, v => pdrWrapstring host x (some v)

/-- The tokens come from `strtok_r` on a copy of the format string. -/
def packetPdrPacketData (x : PDR) (fmtStr : Option (List Byte)) (elems : List DataElement) :
    Action (Bool × List DataElement) :=
  match fmtStr with
  | none => return (true, elems)
  | some block =>
      match cString block with
      | .error e => Action.stop e
      | .ok fmt =>
          match x.op with
          | .encode => do
              encodeLoop (packetPdrElement host x) (strtokTokens fmt delim) elems
              return (true, elems)
          | .decode => decodeLoop (packetPdrElement host x) (strtokTokens fmt delim) elems

end Procedures

structure Packet extends HeaderFields where
  hdr : Option (List Byte)
  hdrLen : BitVec 32
  buf : Option (List Byte)
  bufLen : BitVec 64
  inletRank : BitVec 32
  dataElements : List DataElement

/-- `Packet_construct`: the outcome `none` is a null pointer. The header is
written with its full size as space. -/
def packetConstruct (host : Host) (packet : Packet) : Outcome (Option Packet) := do
  let (_, hdrSz) ← pdrSizeof fun x => packetPdrPacketHeader host x packet.toHeaderFields
  if hdrSz = 0 then .error (.fault .assertion)
  else
    let packet : Packet := { packet with hdrLen := hdrSz.setWidth 32 }
    match host.malloc hdrSz.toNat with
    | none => return none
    | some block => do
        let (hdr, failed) ← encodeBlock host
          (fun x => packetPdrPacketHeader host x packet.toHeaderFields) block hdrSz.toNat
        if failed then return none
        else
          let packet : Packet := { packet with hdr := some hdr }
          let (done, bufSz) ←
            pdrSizeof fun x => packetPdrPacketData host x packet.fmtStr packet.dataElements
          if done ∧ bufSz = 0 then return some packet
          else if bufSz = 0 then .error (.fault .assertion)
          else
            let packet : Packet := { packet with bufLen := bufSz }
            match host.malloc bufSz.toNat with
            | none => return none
            | some block => do
                let (buf, failed) ← encodeBlock host
                  (fun x => packetPdrPacketData host x packet.fmtStr packet.dataElements)
                  block bufSz.toNat
                if failed then return none else return some { packet with buf := some buf }

/-- `new_Packet_t` with the elements its argument loop produced. -/
def newPacket (host : Host) (isrc istreamId itag : BitVec 32) (fmt : List Byte)
    (elems : List DataElement) : Outcome (Option Packet) :=
  packetConstruct host
    { streamId := istreamId, tag := itag, srcRank := isrc, fmtStr := some (fmt ++ [0]),
      byteorder := pdrmemGetbo host, hdr := none, hdrLen := 0, buf := none, bufLen := 0,
      inletRank := unknownRank, dataElements := elems }

/-- `new_Packet_t_3`: a header or data block that does not decode is reported but
the packet is returned all the same. What a refused header has set before is not
recorded. -/
def newPacket3 (host : Host) (ihdrLen : BitVec 32) (ihdr : List Byte) (ibufLen : BitVec 64)
    (ibuf : List Byte) (iinletRank : BitVec 32) : Outcome (Option Packet) :=
  if ihdrLen = 0 then return none
  else
    match ihdr[ihdrLen.toNat - 1]? with
    | none => .error (.fault .readPast)
    | some bo => do
        let blank : HeaderFields := ⟨0, 0, unknownRank, none, 0⟩
        let fields ←
          match packetPdrPacketHeader host (pdrmemCreate host .decode bo) blank
            ⟨ihdr, 0, ihdrLen.toNat⟩ with
          | .ok (fields, _) => pure fields
          | .error .refused => pure blank
          | .error (.fault f) => .error (.fault f)
        let packet : Packet :=
          { toHeaderFields := fields, hdr := some ihdr, hdrLen := ihdrLen, buf := some ibuf,
            bufLen := ibufLen, inletRank := iinletRank, dataElements := [] }
        if ibufLen = 0 then return some packet
        else do
          let ((_, elems), _) ←
            packetPdrPacketData host (pdrmemCreate host .decode fields.byteorder) fields.fmtStr []
              ⟨ibuf, 0, ibufLen.toNat⟩
          return some { packet with dataElements := elems }

section Encode
variable {k : Sink} {o : ByteOrder} {ops : PdrOps} (host : Host) (hf : Feeds k o ops)
include hf

theorem packetPdrPacketHeader_encodes (pkt : HeaderFields) :
    k.Encodes (packetPdrPacketHeader host ⟨.encode, ops⟩ pkt) pkt (sentHeader o pkt.toFull) := by
  have harr := pdrArray_encodes host hf (by decide) (CArray.empty : CArray (BitVec 32) 4) int32Max
    (0 : BitVec 32) (pdrUint32_scalar.encodes hf)
  exact (pdrUint32_scalar.encodes hf pkt.streamId).bind <|
    (pdrUint32_scalar.encodes hf pkt.tag).bind <|
    (pdrUint32_scalar.encodes hf pkt.srcRank).bind <|
    (pdrWrapstring_encodes host hf pkt.fmtStr).bind <| harr.bind <|
    Sink.Encodes.ret _ (pdrUchar_scalar.encodes hf pkt.byteorder)

theorem packetPdrElement_encodes (type : DataType) (v : DataValue type) :
    k.Encodes (packetPdrElement host ⟨.encode, ops⟩ type v) v (sentElement uint32Max o type v) := by
  have hbyte : ∀ b : Byte, k.Encodes (pdrUchar ⟨.encode, ops⟩ (some b)) b (some [b]) := by
    intro b
    simpa using pdrUchar_scalar.encodes hf b
  cases type with
  | unknown => exact Sink.Blocks.stop _
  | char | uchar => exact pdrUchar_scalar.encodes hf v
  | int16 | uint16 => exact pdrUint16_scalar.encodes hf v
  | int32 | uint32 => exact pdrUint32_scalar.encodes hf v
  | int64 | uint64 => exact pdrUint64_scalar.encodes hf v
  | float => exact pdrFloat_scalar.encodes hf v
  | double => exact pdrDouble_scalar.encodes hf v
  | charArray | ucharArray => exact pdrArray_encodes host hf (by decide) v _ 0 hbyte
  | charLrgArray | ucharLrgArray => exact pdrBytes_encodes host hf v _
  | int16Array | uint16Array | int16LrgArray | uint16LrgArray =>
      exact pdrArray_encodes host hf (by decide) v _ 0 (pdrUint16_scalar.encodes hf)
  | int32Array | uint32Array | int32LrgArray | uint32LrgArray =>
      exact pdrArray_encodes host hf (by decide) v _ 0 (pdrUint32_scalar.encodes hf)
  | int64Array | uint64Array | int64LrgArray | uint64LrgArray =>
      exact pdrArray_encodes host hf (by decide) v _ 0 (pdrUint64_scalar.encodes hf)
  | floatArray | floatLrgArray =>
      exact pdrArray_encodes host hf (by decide) v _ 0 (pdrFloat_scalar.encodes hf)
  | doubleArray | doubleLrgArray =>
      exact pdrArray_encodes host hf (by decide) v _ 0 (pdrDouble_scalar.encodes hf)
  | string => exact pdrWrapstring_encodes host hf v
  | stringArray | stringLrgArray =>
      exact pdrArray_encodes host hf (by decide) v _ none (pdrWrapstring_encodes host hf)

theorem packetPdrPacketData_encodes (fmtStr : Option (List Byte)) (elems : List DataElement) :
    k.Encodes (packetPdrPacketData host ⟨.encode, ops⟩ fmtStr elems) (true, elems)
      (sentData uint32Max o fmtStr elems) := by
  unfold packetPdrPacketData sentData
  cases fmtStr with
  | none => exact Sink.Emits.pure (true, elems)
  | some block =>
      dsimp only
      cases cString block with
      | error e => exact Sink.Blocks.stop _
      | ok fmt =>
          dsimp only
          rw [tokens_eq_strtokTokens]
          exact Sink.Encodes.ret (fun _ => (true, elems))
            (encodeLoop_encodes (packetPdrElement_encodes host hf) _ elems)

end Encode

section Decode
variable {o : ByteOrder} {ops : PdrOps} (host : Host) (hf : Fetches o ops)
include hf

/-- The destinations are read and dropped, so a header stands for all full ones
that agree with it elsewhere. -/
theorem packetPdrPacketHeader_decodes (pkt : HeaderFields) (hnull : pkt.fmtStr = none) :
    Decodes (packetPdrPacketHeader host ⟨.decode, ops⟩ pkt)
      (fun fields bs => ∃ full, fields = HeaderFields.ofFull full ∧ SlotOk host full.fmtStr ∧
        ArrayOk host 4 int32Max (fun _ => True) full.destArr.data ∧ bs = headerForm o full)
      (fun bs => ∃ words tl, words.length = 12 ∧ bs = words ++ tl ∧ EmptyStringHarm host o tl) := by
  have harr := pdrArray_decodes_words_short host hf pdrUint32_scalar
    (CArray.empty : CArray (BitVec 32) 4) (m := int32Max) (by decide) 0
  have hword := fun v : BitVec 32 => pdrUint32_scalar.decodes hf v
  unfold packetPdrPacketHeader
  rw [hnull]
  refine ((hword pkt.streamId).bind fun a => (hword pkt.tag).bind fun b =>
    (hword pkt.srcRank).bind fun c => (pdrWrapstring_decodes host hf).bind fun d =>
    harr.bind fun _ => (pdrUchar_scalar.decodes hf pkt.byteorder).bind fun f =>
    Decodes.pure (HeaderFields.mk a b c d f)).congr ?_ ?_
  · intro fields bs
    constructor
    · rintro ⟨a, _, _, rfl, ⟨b, _, _, rfl, ⟨c, _, _, rfl, ⟨d, _, _, ⟨hd, rfl⟩,
        ⟨e, _, _, ⟨he, rfl⟩, ⟨f, _, _, rfl, ⟨rfl, rfl⟩, rfl⟩, rfl⟩, rfl⟩, rfl⟩, rfl⟩, rfl⟩
      exact ⟨⟨a, b, c, d, e, f⟩, rfl, hd, he, by simp [headerForm]⟩
    · rintro ⟨full, rfl, hd, he, rfl⟩
      exact ⟨full.streamId, _, _, rfl, ⟨full.tag, _, _, rfl, ⟨full.srcRank, _, _, rfl,
        ⟨full.fmtStr, _, _, ⟨hd, rfl⟩, ⟨full.destArr, _, _, ⟨he, rfl⟩,
        ⟨full.byteorder, _, [], rfl, ⟨rfl, rfl⟩, rfl⟩, rfl⟩, rfl⟩, rfl⟩, rfl⟩,
        by simp [headerForm]⟩
  · intro bs
    constructor
    · rintro (h | ⟨a, _, _, rfl, rfl, h | ⟨b, _, _, rfl, rfl, h | ⟨c, _, tl, rfl, rfl, h⟩⟩⟩)
      · exact h.elim
      · exact h.elim
      · exact h.elim
      · refine ⟨nativeBytes o a ++ (nativeBytes o b ++ nativeBytes o c), tl, by simp, by simp, ?_⟩
        rcases h with h | ⟨d, _, tl', ⟨hd, rfl⟩, rfl, h | h⟩
        · exact h
        · exact h.elim
        · simp at h
    · rintro ⟨words, tl, hlen, rfl, h⟩
      obtain ⟨ws, hl, rfl⟩ := exists_words o (w := 32) (by decide) 3 words (by simpa using hlen)
      obtain ⟨a, b, c, rfl⟩ := List.length_eq_three.mp hl
      exact Or.inr ⟨a, _, nativeBytes o b ++ (nativeBytes o c ++ tl), rfl, by simp,
        Or.inr ⟨b, _, nativeBytes o c ++ tl, rfl, rfl, Or.inr ⟨c, _, tl, rfl, rfl, Or.inl h⟩⟩⟩

theorem packetPdrElement_decodes (type : DataType) :
    Decodes (packetPdrElement host ⟨.decode, ops⟩ type (DataValue.init type))
      (fun v bs => ElementOk host uint32Max type v ∧ bs = elementForm o type v)
      (ElementHarm host uint32Max o type) := by
  have hbytes : nativeBytes o (w := 8) = fun b => [b] := funext (nativeBytes_byte o)
  have hchars := fun a : CArray Byte 1 =>
    pdrArray_decodes_words_short host hf pdrUchar_scalar a (m := uint32Max) (by decide) 0
  rw [hbytes] at hchars
  cases type with
  | unknown => exact (Decodes.fault .assertion).congr (by simp [ElementOk]) (by simp [ElementHarm])
  | char | uchar => exact pdrUchar_scalar.decodes_any hf 0
  | int16 | uint16 => exact pdrUint16_scalar.decodes_any hf 0
  | int32 | uint32 => exact pdrUint32_scalar.decodes_any hf 0
  | int64 | uint64 => exact pdrUint64_scalar.decodes_any hf 0
  | float => exact pdrFloat_scalar.decodes_any hf 0
  | double => exact pdrDouble_scalar.decodes_any hf 0
  | charArray | ucharArray => exact hchars _
  | charLrgArray | ucharLrgArray => exact pdrBytes_decodes host hf _ _
  | int16Array | uint16Array =>
      exact pdrArray_decodes_words_short host hf pdrUint16_scalar _ (by decide) 0
  | int16LrgArray | uint16LrgArray =>
      exact pdrArray_decodes_words host hf pdrUint16_scalar _ (by decide) 0
  | int32Array | uint32Array =>
      exact pdrArray_decodes_words_short host hf pdrUint32_scalar _ (by decide) 0
  | int32LrgArray | uint32LrgArray =>
      exact pdrArray_decodes_words host hf pdrUint32_scalar _ (by decide) 0
  | int64Array | uint64Array =>
      exact pdrArray_decodes_words_short host hf pdrUint64_scalar _ (by decide) 0
  | int64LrgArray | uint64LrgArray =>
      exact pdrArray_decodes_words host hf pdrUint64_scalar _ (by decide) 0
  | floatArray =>
      exact pdrArray_decodes_words_short host hf pdrFloat_scalar _ (by decide) 0
  | floatLrgArray =>
      exact pdrArray_decodes_words host hf pdrFloat_scalar _ (by decide) 0
  | doubleArray =>
      exact pdrArray_decodes_words_short host hf pdrDouble_scalar _ (by decide) 0
  | doubleLrgArray =>
      exact pdrArray_decodes_words host hf pdrDouble_scalar _ (by decide) 0
  | string => exact pdrWrapstring_decodes host hf
  | stringArray | stringLrgArray => exact pdrArray_decodes_strings host hf _ _

end Decode

end MRNet.Wire.Lightweight
