import MRNet.Formats

/-!
# Packets

Translation of `Packet.C`: the header and data procedures, the lazy header
encoding, the data encoding of the constructors, the receive constructor and the
lazy data decoding. The vector of data elements is an argument of the
constructor, which in the source builds it from the caller's arguments. Locks,
timers and packet counts do not take part.
-/
namespace MRNet.Wire
open NativeBytes Codec

def int32Max : ℕ := 2 ^ 31 - 1
def uint32Max : ℕ := 2 ^ 32 - 1
def uint64Max : ℕ := 2 ^ 64 - 1

/-- `UnknownRank`, the rank `(Rank)-1`. -/
def unknownRank : BitVec 32 := BitVec.allOnes 32

/-- The fields that `pdr_packet_header` transfers. -/
structure HeaderFields where
  streamId : BitVec 32
  tag : BitVec 32
  srcRank : BitVec 32
  fmtStr : Option (List Byte)
  destArr : CArray (BitVec 32) 4
  byteorder : Byte
  deriving DecidableEq

/-- The string a `char*` points to. -/
def cString (block : List Byte) : Outcome (List Byte) := do
  let n ← strlen block
  return block.take n

section Loops
variable (element : (type : DataType) → DataValue type → Action (DataValue type))

/-- The format loop of an encode: token `i` takes `data_elements[i]`, whatever the
token says. -/
def encodeLoop : List (List Byte) → List DataElement → Action Unit
  | [], _ => return ()
  | _ :: _, [] => Action.stop (.fault .readPast)
  | _ :: toks, elem :: elems => do
      let _ ← element elem.type elem.val
      encodeLoop toks elems

/-- The format loop of a decode: the return value with the elements after the
call, to which those decoded before a failure have been added. -/
def decodeLoop : List (List Byte) → List DataElement → Action (Bool × List DataElement)
  | [], elems => return (true, elems)
  | curFmt :: toks, elems => do
      let type := fmt2Type curFmt
      match ← (element type (DataValue.init type)).attempt with
      | none => return (false, elems)
      | some val => decodeLoop toks (elems ++ [⟨type, val⟩])

end Loops

section Procedures
variable (host : Host)

def pdrPacketHeader (x : PDR) (pkt : HeaderFields) : Action HeaderFields := do
  let streamId ← pdrUint32 x (some pkt.streamId)
  let tag ← pdrInt32 x (some pkt.tag)
  let srcRank ← pdrUint32 x (some pkt.srcRank)
  let fmtStr ← pdrWrapstring host x (some pkt.fmtStr)
  let destArr ← pdrArray host x pkt.destArr uint64Max pdrUint32 0
  let byteorder ← pdrChar x (some pkt.byteorder)
  return ⟨streamId, tag, srcRank, fmtStr, destArr, byteorder⟩

/-- The switch of `pdr_packet_data` over the type of the current element. -/
def pdrElement (x : PDR) : (type : DataType) → DataValue type → Action (DataValue type)
  | .unknown, _ => Action.stop (.fault .assertion)
  | .char, v | .uchar, v => pdrUchar x (some v)
  | .charArray, v | .ucharArray, v => pdrBytes host x v int32Max
  | .charLrgArray, v | .ucharLrgArray, v => pdrBytes host x v uint64Max
  | .int16, v | .uint16, v => pdrUint16 x (some v)
  | .int16LrgArray, v | .uint16LrgArray, v => pdrArray host x v uint64Max pdrUint16 0
  | .int16Array, v | .uint16Array, v => pdrArray host x v int32Max pdrUint16 0
  | .int32, v | .uint32, v => pdrUint32 x (some v)
  | .int32LrgArray, v | .uint32LrgArray, v => pdrArray host x v uint64Max pdrUint32 0
  | .int32Array, v | .uint32Array, v => pdrArray host x v int32Max pdrUint32 0
  | .int64, v | .uint64, v => pdrUint64 x (some v)
  | .int64LrgArray, v | .uint64LrgArray, v => pdrArray host x v uint64Max pdrUint64 0
  | .int64Array, v | .uint64Array, v => pdrArray host x v int32Max pdrUint64 0
  | .float, v => pdrFloat x (some v)
  | .double, v => pdrDouble x (some v)
  | .floatLrgArray, v => pdrArray host x v uint64Max pdrFloat 0
  | .floatArray, v => pdrArray host x v int32Max pdrFloat 0
  | .doubleLrgArray, v => pdrArray host x v uint64Max pdrDouble 0
  | .doubleArray, v => pdrArray host x v int32Max pdrDouble 0
  | .stringLrgArray, v => pdrArray host x v uint64Max (pdrWrapstring host) none
  | .stringArray, v => pdrArray host x v int32Max (pdrWrapstring host) none
  | .string, v => pdrWrapstring host x (some v)

/-- `TRUE` is a result, with the elements after the call, and `FALSE` a refusal. -/
def pdrPacketData (x : PDR) (fmtStr : Option (List Byte)) (elems : List DataElement) :
    Action (List DataElement) :=
  match fmtStr with
  | none => return elems
  | some block =>
      match cString block with
      | .error e => Action.stop e
      | .ok fmt =>
          match x.op with
          | .encode => do
              encodeLoop (pdrElement host x) (Tokenizer.tokens fmt delim) elems
              return elems
          | .decode => do
              let (retval, elems) ←
                decodeLoop (pdrElement host x) (Tokenizer.tokens fmt delim) elems
              if retval then return elems else Action.stop .refused

/-- Encode into a new block, which is announced with `space` bytes: the block
after the encode, and whether it was refused. -/
def encodeBlock {α : Type} (func : PDR → Action α) (block : List Byte) (space : ℕ) :
    Outcome (List Byte × Bool) :=
  match func (pdrmemCreate host .encode (pdrmemGetbo host)) ⟨block, 0, space⟩ with
  | .ok (_, s) => .ok (s.block, false)
  | .error .refused => .ok (host.scrap block, true)
  | .error (.fault f) => .error (.fault f)

end Procedures

/-- A packet. `hdr` and `buf` are null or point to a block. -/
structure Packet extends HeaderFields where
  hdr : Option (List Byte)
  hdrLen : BitVec 32
  buf : Option (List Byte)
  bufLen : BitVec 64
  inletRank : BitVec 32
  dataElements : List DataElement
  decoded : Bool
  hasError : Bool

namespace Packet
variable (host : Host)

/-- The block has the 64-bit size, the announced space is the 32-bit `hdr_len`. -/
def encodePdrHeader (p : Packet) : Outcome Packet := do
  let p : Packet := { p with byteorder := pdrmemGetbo host }
  let (_, hdrSz) ← pdrSizeof fun x => pdrPacketHeader host x p.toHeaderFields
  let p : Packet := { p with hdrLen := hdrSz.setWidth 32 }
  if p.hdrLen = 0 then .error (.fault .assertion)
  else
    match host.malloc hdrSz.toNat with
    | none => return { p with hdr := none }
    | some block => do
        let (block, failed) ← encodeBlock host
          (fun x => pdrPacketHeader host x p.toHeaderFields) block p.hdrLen.toNat
        return { p with hdr := some block, hasError := p.hasError || failed }

def encodePdrData (p : Packet) : Outcome Packet :=
  if p.decoded = false then return p
  else do
    let (done, bufLen) ← pdrSizeof fun x => pdrPacketData host x p.fmtStr p.dataElements
    let p : Packet := { p with bufLen := bufLen }
    if bufLen = 0 ∧ done then return p
    else if bufLen = 0 then .error (.fault .assertion)
    else
      match host.malloc bufLen.toNat with
      | none => return { p with buf := none }
      | some block => do
          let (block, failed) ← encodeBlock host
            (fun x => pdrPacketData host x p.fmtStr p.dataElements) block bufLen.toNat
          return { p with buf := some block, hasError := p.hasError || failed }

/-- The byte order of the header is taken from its last byte. A refused header
leaves an error; which fields were set before it is not recorded. -/
def decodePdrHeader (p : Packet) : Outcome Packet :=
  if p.hdrLen = 0 then return p
  else
    match p.hdr with
    | none => .error (.fault .nullPointer)
    | some block =>
        match block[p.hdrLen.toNat - 1]? with
        | none => .error (.fault .readPast)
        | some bo =>
            match pdrPacketHeader host (pdrmemCreate host .decode bo) p.toHeaderFields
              ⟨block, 0, p.hdrLen.toNat⟩ with
            | .ok (fields, _) => return { p with toHeaderFields := fields }
            | .error .refused => return { p with hasError := true }
            | .error (.fault f) => .error (.fault f)

def decodePdrData (p : Packet) : Outcome Packet :=
  if p.decoded then return p
  else if p.bufLen = 0 then return { p with decoded := true }
  else
    match p.fmtStr with
    | none => return { p with decoded := true }
    | some block => do
        let fmt ← cString block
        match p.buf with
        | none => .error (.fault .nullPointer)
        | some buf => do
            let ((retval, elems), _) ←
              decodeLoop (pdrElement host (pdrmemCreate host .decode p.byteorder))
                (Tokenizer.tokens fmt delim) p.dataElements ⟨buf, 0, p.bufLen.toNat⟩
            if retval then return { p with dataElements := elems, decoded := true }
            else return { p with dataElements := elems, hasError := true }

/-- The constructors that take data: `fmt` is the string passed, if any, and
`elems` what the argument loop made of the arguments. -/
def create (srcRank streamId tag : BitVec 32) (fmt : Option (List Byte))
    (elems : List DataElement) : Outcome Packet :=
  let p : Packet :=
    { streamId := streamId, tag := tag, srcRank := srcRank, fmtStr := some [0],
      destArr := CArray.empty, byteorder := 0, hdr := none, hdrLen := 0, buf := none, bufLen := 0,
      inletRank := unknownRank, dataElements := [], decoded := true, hasError := false }
  match fmt with
  | none => return p
  | some fmt => encodePdrData host { p with fmtStr := some (fmt ++ [0]), dataElements := elems }

/-- The fields as the receive constructor initialises them. -/
def blank (ihdrLen : BitVec 32) (ihdr : Option (List Byte)) (ibufLen : BitVec 64)
    (ibuf : Option (List Byte)) (iinletRank : BitVec 32) : Packet :=
  { streamId := BitVec.allOnes 32, tag := BitVec.allOnes 32, srcRank := unknownRank,
    fmtStr := none, destArr := CArray.empty, byteorder := 0, hdr := ihdr, hdrLen := ihdrLen,
    buf := ibuf, bufLen := ibufLen, inletRank := iinletRank, dataElements := [],
    decoded := false, hasError := false }

/-- The receive constructor. -/
def receive (ihdrLen : BitVec 32) (ihdr : Option (List Byte)) (ibufLen : BitVec 64)
    (ibuf : Option (List Byte)) (iinletRank : BitVec 32) : Outcome Packet :=
  decodePdrHeader host (blank ihdrLen ihdr ibufLen ibuf iinletRank)

def setTag (p : Packet) (itag : BitVec 32) : Packet := { p with tag := itag }

def setStreamId (p : Packet) (istreamId : BitVec 32) : Packet := { p with streamId := istreamId }

def setSourceRank (p : Packet) (r : BitVec 32) : Packet := { p with srcRank := r }

def setDestinations (p : Packet) (bes : CArray (BitVec 32) 4) : Packet := { p with destArr := bes }

end Packet

end MRNet.Wire
