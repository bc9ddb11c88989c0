import MRNet.LightweightPacket

/-!
# Packets survive the wire

Data and headers written in one byte order are read back in any other, by the
full and by the lightweight implementation. Two limits of the format remain: a
string with its terminator has at most `wrapstringMax` bytes, and the length of a
header is a 32-bit number.
-/
namespace MRNet.Wire
open NativeBytes Codec

/-- The number of elements of an array value. -/
def DataValue.arrayLen : (type : DataType) → DataValue type → ℕ
  | .charArray, v | .ucharArray, v | .charLrgArray, v | .ucharLrgArray, v => (CArray.data v).length
  | .int16Array, v | .uint16Array, v | .int16LrgArray, v | .uint16LrgArray, v =>
      (CArray.data v).length
  | .int32Array, v | .uint32Array, v | .int32LrgArray, v | .uint32LrgArray, v | .floatArray, v
  | .floatLrgArray, v => (CArray.data v).length
  | .int64Array, v | .uint64Array, v | .int64LrgArray, v | .uint64LrgArray, v | .doubleArray, v
  | .doubleLrgArray, v => (CArray.data v).length
  | .stringArray, v | .stringLrgArray, v => (CArray.data v).length
  | _, _ => 0

/-- The string pointers in a value. -/
def DataValue.strings : (type : DataType) → DataValue type → List (Option (List Byte))
  | .string, v => [v]
  | .stringArray, v | .stringLrgArray, v => CArray.data v
  | _, _ => []

def DataType.isShortArray : DataType → Bool
  | .charArray | .ucharArray | .int16Array | .uint16Array | .int32Array | .uint32Array
  | .int64Array | .uint64Array | .floatArray | .doubleArray | .stringArray => true
  | _ => false

/-- A string with its terminator and no NUL inside. -/
def PlainString (sp : Option (List Byte)) : Prop := ∃ chars, sp = some (chars ++ [0]) ∧ 0 ∉ chars

/-- Strings are plain and short arrays have at most `short` elements. -/
def DataElement.WellFormed (short : ℕ) (e : DataElement) : Prop :=
  (e.type.isShortArray → DataValue.arrayLen e.type e.val ≤ short) ∧
    ∀ sp ∈ DataValue.strings e.type e.val, PlainString sp

/-- No string is longer than `pdr_wrapstring` admits. -/
def DataElement.ShortStrings (e : DataElement) : Prop :=
  ∀ block, some block ∈ DataValue.strings e.type e.val → block.length ≤ wrapstringMax

lemma sentWrapstring_eq_form {o : ByteOrder} {sp : Option (List Byte)} (hp : PlainString sp)
    (hs : ∀ block, sp = some block → block.length ≤ wrapstringMax) :
    sentWrapstring o sp = some (slotForm o sp) := by
  obtain ⟨chars, rfl, hz⟩ := hp
  have hl := hs _ rfl
  rw [List.length_append, List.length_singleton] at hl
  exact sentString_eq_form hz hl

lemma PlainString.slotOk {host : Host} (ha : host.Allocates) {sp : Option (List Byte)}
    (hp : PlainString sp) (hs : ∀ block, sp = some block → block.length ≤ wrapstringMax) :
    SlotOk host sp := by
  obtain ⟨chars, rfl, -⟩ := hp
  have hl := hs _ rfl
  refine ⟨by simp, ?_, ha _⟩
  unfold wrapstringMax at hl
  omega

/-- A well-formed element is sent as its form. -/
theorem sentElement_eq_form {short : ℕ} {o : ByteOrder} {e : DataElement}
    (hne : e.type ≠ .unknown) (hwf : e.WellFormed short) (hs : e.ShortStrings) :
    sentElement short o e.type e.val = some (elementForm o e.type e.val) := by
  obtain ⟨type, v⟩ := e
  obtain ⟨hlen, hplain⟩ := hwf
  cases type with
  | unknown => exact absurd rfl hne
  | char | uchar | int16 | uint16 | int32 | uint32 | int64 | uint64 | float | double => rfl
  | charArray | ucharArray | int16Array | uint16Array | int32Array | uint32Array | int64Array
  | uint64Array | floatArray | doubleArray =>
      exact sentArray_eq_form (hlen rfl) (fun _ _ => rfl)
  | charLrgArray | ucharLrgArray | int16LrgArray | uint16LrgArray | int32LrgArray
  | uint32LrgArray | int64LrgArray | uint64LrgArray | floatLrgArray | doubleLrgArray =>
      exact sentArray_eq_form (CArray.length_le v (by decide)) (fun _ _ => rfl)
  | string =>
      have hv : v ∈ DataValue.strings .string v := List.mem_singleton_self _
      exact sentWrapstring_eq_form (hplain v hv) fun block hb => hs block (hb ▸ hv)
  | stringArray =>
      exact sentArray_eq_form (hlen rfl) fun sp hsp =>
        sentWrapstring_eq_form (hplain sp hsp) fun block hb => hs block (hb ▸ hsp)
  | stringLrgArray =>
      exact sentArray_eq_form (CArray.length_le v (by decide)) fun sp hsp =>
        sentWrapstring_eq_form (hplain sp hsp) fun block hb => hs block (hb ▸ hsp)

/-- The receiver can rebuild a well-formed element. -/
theorem elementOk_of_wellFormed {short : ℕ} {host : Host} (ha : host.Allocates) {e : DataElement}
    (hne : e.type ≠ .unknown) (hwf : e.WellFormed short) (hs : e.ShortStrings) :
    ElementOk host short e.type e.val := by
  obtain ⟨type, v⟩ := e
  obtain ⟨hlen, hplain⟩ := hwf
  cases type with
  | unknown => exact absurd rfl hne
  | char | uchar | int16 | uint16 | int32 | uint32 | int64 | uint64 | float | double => trivial
  | charArray | ucharArray | int16Array | uint16Array | int32Array | uint32Array | int64Array
  | uint64Array | floatArray | doubleArray =>
      exact ⟨hlen rfl, by simp, fun _ => ha _⟩
  | charLrgArray | ucharLrgArray | int16LrgArray | uint16LrgArray | int32LrgArray
  | uint32LrgArray | int64LrgArray | uint64LrgArray | floatLrgArray | doubleLrgArray =>
      exact ⟨CArray.length_le v (by decide), by simp, fun _ => ha _⟩
  | string =>
      have hv : v ∈ DataValue.strings .string v := List.mem_singleton_self _
      exact (hplain v hv).slotOk ha fun block hb => hs block (hb ▸ hv)
  | stringArray =>
      exact ⟨hlen rfl, fun sp hsp => (hplain sp hsp).slotOk ha fun block hb => hs block (hb ▸ hsp),
        fun _ => ha _⟩
  | stringLrgArray =>
      exact ⟨CArray.length_le v (by decide),
        fun sp hsp => (hplain sp hsp).slotOk ha fun block hb => hs block (hb ▸ hsp), fun _ => ha _⟩

/-- The elements match the tokens of a format that is recognised throughout, and
all of them can be sent. -/
structure Sendable (short : ℕ) (fmt : List Byte) (elems : List DataElement) : Prop where
  plain : 0 ∉ fmt
  recognised : Recognised fmt
  matching : elems.map DataElement.type = (Tokenizer.tokens fmt delim).map fmt2Type
  wellFormed : ∀ e ∈ elems, e.WellFormed short

lemma cString_terminated {chars : List Byte} (hz : 0 ∉ chars) :
    cString (chars ++ [0]) = .ok chars := by
  have hi : (chars ++ [0]).idxOf 0 = chars.length := by
    rw [List.idxOf_append_of_notMem hz]
    simp
  have hlen : strlen (chars ++ [0]) = .ok chars.length := by rw [strlen, if_pos (by simp), hi]
  rw [cString, hlen]
  change Except.ok ((chars ++ [0]).take chars.length) = _
  rw [List.take_left]

lemma Sendable.known {short : ℕ} {fmt : List Byte} {elems : List DataElement}
    (h : Sendable short fmt elems) : ∀ e ∈ elems, e.type ≠ .unknown := by
  intro e he
  have hm : e.type ∈ (Tokenizer.tokens fmt delim).map fmt2Type := by
    rw [← h.matching]
    exact List.mem_map_of_mem he
  obtain ⟨tok, htok, hte⟩ := List.mem_map.mp hm
  rw [← hte]
  exact h.recognised tok htok

section Single
variable {fmt : List Byte} {e : DataElement} (hstr : DataValue.strings e.type e.val = [])
include hstr

/-- One element that is neither a string nor a short array. -/
lemma sendable_single (short : ℕ) (hz : 0 ∉ fmt) (hrec : Recognised fmt)
    (hmatch : [e.type] = (Tokenizer.tokens fmt delim).map fmt2Type)
    (hlong : e.type.isShortArray = false) : Sendable short fmt [e] := by
  refine ⟨hz, hrec, hmatch, fun e' he => ?_⟩
  rw [List.mem_singleton.mp he]
  refine ⟨fun h => ?_, ?_⟩
  · rw [hlong] at h
    cases h
  · rw [hstr]
    simp

lemma shortStrings_single : ∀ e' ∈ [e], e'.ShortStrings := by
  intro e' he block hb
  rw [List.mem_singleton.mp he, hstr] at hb
  cases hb

end Single

lemma sentElements_eq_form {short : ℕ} {o : ByteOrder} (toks : List (List Byte))
    (elems : List DataElement) (hl : elems.length = toks.length)
    (h : ∀ e ∈ elems, sentElement short o e.type e.val = some (elementForm o e.type e.val)) :
    sentElements short o toks elems = some (elementsForm o elems) := by
  induction toks generalizing elems with
  | nil =>
      obtain rfl := List.eq_nil_of_length_eq_zero hl
      rfl
  | cons tok toks ih =>
      obtain ⟨e, es, rfl⟩ := List.exists_cons_of_length_eq_add_one hl
      simp only [List.mem_cons, forall_eq_or_imp] at h
      rw [sentElements, h.1, ih es (by simpa using hl) h.2]
      rfl

/-- The data of a sendable packet is sent as the forms of its elements. -/
theorem Sendable.sentData_eq {short : ℕ} {fmt : List Byte} {elems : List DataElement}
    (h : Sendable short fmt elems) (hs : ∀ e ∈ elems, e.ShortStrings) (o : ByteOrder) :
    sentData short o (some (fmt ++ [0])) elems = some (elementsForm o elems) := by
  simp only [sentData, cString_terminated h.plain]
  refine sentElements_eq_form _ _ ?_ fun e he =>
    sentElement_eq_form (h.known e he) (h.wellFormed e he) (hs e he)
  simpa using congrArg List.length h.matching

theorem Sendable.elementsOk {short : ℕ} {host : Host} (ha : host.Allocates) {fmt : List Byte}
    {elems : List DataElement} (h : Sendable short fmt elems) (hs : ∀ e ∈ elems, e.ShortStrings) :
    ElementsOk host short (Tokenizer.tokens fmt delim) elems :=
  ⟨h.matching, fun e he => elementOk_of_wellFormed ha (h.known e he) (h.wellFormed e he) (hs e he)⟩

/-- Writing the elements into the block that the sizing pass asks for and reading
them back with the sender's byte order gives the same elements, and both passes
use the whole block. -/
def DataRoundTrips (sender receiver : Host) (fmt : List Byte) (elems : List DataElement) : Prop :=
  ∃ n : ℕ,
    pdrSizeof (fun x => pdrPacketData sender x (some (fmt ++ [0])) elems) =
      .ok (true, BitVec.ofNat 64 n) ∧
    ∀ block : List Byte, block.length = n → ∃ bytes : List Byte,
      pdrPacketData sender (pdrmemCreate sender .encode (pdrmemGetbo sender)) (some (fmt ++ [0]))
        elems ⟨block, 0, n⟩ = .ok (elems, ⟨bytes, n, 0⟩) ∧
      pdrPacketData receiver (pdrmemCreate receiver .decode (pdrmemGetbo sender))
        (some (fmt ++ [0])) [] ⟨bytes, 0, n⟩ = .ok (elems, ⟨bytes, n, 0⟩)

theorem pdrPacketData_round_trip (sender receiver : Host) (hr : receiver.Allocates)
    {fmt : List Byte} {elems : List DataElement} (h : Sendable int32Max fmt elems)
    (hs : ∀ e ∈ elems, e.ShortStrings) : DataRoundTrips sender receiver fmt elems := by
  have hsize := pdrPacketData_encodes sender (sizeofOps_feeds sender.bo) (some (fmt ++ [0])) elems
  have hput := pdrPacketData_encodes sender (pdrmemOps_feeds sender) (some (fmt ++ [0])) elems
  have hget := pdrPacketData_decodes receiver
    (pdrmemCreate_fetches receiver (pdrmemGetbo sender)) (cString_terminated h.plain) []
  rw [h.sentData_eq hs] at hsize hput
  rw [pdrmemGetbo, decodeOrder_pdrByteorder] at hget
  refine ⟨(elementsForm sender.bo elems).length, pdrSizeof_emits hsize, fun block hl =>
    ⟨elementsForm sender.bo elems, ?_, ?_⟩⟩
  · rw [pdrmemCreate_encode]
    exact Sink.Emits.fills hput hl
  · exact hget.consumes ⟨elems, rfl, h.elementsOk hr hs, rfl⟩

/-- A packet with a number and a string between machines of different byte order. -/
theorem pdrPacketData_round_trip_number_string :
    DataRoundTrips (Host.ample .little) (Host.ample .big) (ascii ['%', 'd', ' ', '%', 's'])
      [⟨.int32, (7 : BitVec 32)⟩, ⟨.string, some [97, 0]⟩] := by
  refine pdrPacketData_round_trip _ _ (Host.ample_allocates _) ⟨by decide, by decide, by decide, ?_⟩ ?_
  · intro e he
    simp only [List.mem_cons, List.not_mem_nil, or_false] at he
    rcases he with rfl | rfl
    · exact ⟨by decide, by simp [DataValue.strings]⟩
    · refine ⟨by decide, fun sp hsp => ⟨[97], ?_, by decide⟩⟩
      exact List.mem_singleton.mp hsp
  · intro e he
    simp only [List.mem_cons, List.not_mem_nil, or_false] at he
    rcases he with rfl | rfl
    · intro block hb
      cases hb
    · intro block hb
      cases List.mem_singleton.mp hb
      decide

section LongString
variable {chars : List Byte} (hz : 0 ∉ chars)
include hz

lemma sendable_string : Sendable int32Max (ascii ['%', 's']) [⟨.string, some (chars ++ [0])⟩] := by
  refine ⟨by decide, by decide, rfl, fun e he => ?_⟩
  rw [List.mem_singleton.mp he]
  refine ⟨fun h => ?_, fun sp hsp => ⟨chars, List.mem_singleton.mp hsp, hz⟩⟩
  cases h

/-- Beyond the limit of `pdr_wrapstring` not even the sizing pass succeeds. -/
lemma string_not_round_trip (hl : wrapstringMax < chars.length + 1) (sender receiver : Host) :
    ¬ DataRoundTrips sender receiver (ascii ['%', 's']) [⟨.string, some (chars ++ [0])⟩] := by
  rintro ⟨n, hn, -⟩
  have htok : Tokenizer.tokens (ascii ['%', 's']) delim = [ascii ['s']] := by decide
  have hsent : sentData int32Max sender.bo (some (ascii ['%', 's'] ++ [0]))
      [⟨.string, some (chars ++ [0])⟩] = none := by
    have hnone : sentElement int32Max sender.bo .string (some (chars ++ [0])) = none :=
      sentString_eq_none hz hl
    simp only [sentData, cString_terminated (show 0 ∉ ascii ['%', 's'] by decide), htok,
      sentElements, hnone]
    rfl
  have henc := pdrPacketData_encodes sender (sizeofOps_feeds sender.bo)
    (some (ascii ['%', 's'] ++ [0])) [⟨.string, some (chars ++ [0])⟩]
  rw [hsent] at henc
  exact pdrSizeof_blocks (f := fun x => pdrPacketData sender x _ _) henc _ hn

end LongString

/-- A string that is one character too long for `pdr_wrapstring`. -/
def longChars : List Byte := List.replicate (2 ^ 32 - 2) 97

theorem longChars_not_round_trip :
    Sendable int32Max (ascii ['%', 's']) [⟨.string, some (longChars ++ [0])⟩] ∧
      ¬ DataRoundTrips (Host.ample .little) (Host.ample .little) (ascii ['%', 's'])
        [⟨.string, some (longChars ++ [0])⟩] := by
  have hz : (0 : Byte) ∉ longChars := by
    intro h
    exact absurd (List.eq_of_mem_replicate h) (by decide)
  have hl : longChars.length = 2 ^ 32 - 2 := List.length_replicate
  exact ⟨sendable_string hz, string_not_round_trip hz (by rw [hl]; decide) _ _⟩

/-- A procedure that emits fewer than 2^64 bytes is sized, and then written into a
block of this size. -/
lemma sized_and_written (host : Host) (ha : host.Allocates) {α : Type} {f : PDR → Action α} {v : α}
    {bs : List Byte} (hsize : (countingSink 64).Emits (f ⟨.encode, sizeofOps⟩) v bs)
    (hput : memorySink.Emits (f ⟨.encode, pdrmemOps host⟩) v bs) (hlt : bs.length < 2 ^ 64) :
    pdrSizeof f = .ok (true, BitVec.ofNat 64 bs.length) ∧
      ∃ block, host.malloc (BitVec.ofNat 64 bs.length).toNat = some block ∧
        encodeBlock host f block (BitVec.ofNat 64 bs.length).toNat = .ok (bs, false) := by
  obtain ⟨block, hblock⟩ := Option.isSome_iff_exists.mp (ha bs.length)
  rw [toNat_ofNat_length hlt]
  refine ⟨pdrSizeof_emits hsize, block, hblock, ?_⟩
  simp only [encodeBlock, pdrmemCreate_encode, hput.fills (host.malloc_length _ _ hblock)]

/-- The fields of a packet as its header announces them: with the byte order of
the machine that encodes them. -/
def Packet.announced (sender : Host) (p : Packet) : HeaderFields :=
  { p.toHeaderFields with byteorder := pdrmemGetbo sender }

/-- The lazy encoding of a header that fits its 32-bit length. -/
theorem encodePdrHeader_eq (sender : Host) (hs : sender.Allocates) {p : Packet} {bs : List Byte}
    (hsent : sentHeader sender.bo (p.announced sender) = some bs) (hfit : bs.length < 2 ^ 32) :
    p.encodePdrHeader sender = .ok { p with
      toHeaderFields := p.announced sender, hdrLen := BitVec.ofNat 32 bs.length, hdr := some bs } := by
  have hsize := pdrPacketHeader_encodes sender (sizeofOps_feeds sender.bo) (p.announced sender)
  have hput := pdrPacketHeader_encodes sender (pdrmemOps_feeds sender) (p.announced sender)
  rw [hsent] at hsize hput
  have hpos := sentHeader_length hsent
  have hlt : bs.length < 2 ^ 64 := by omega
  obtain ⟨hsz, block, hblock, hwrite⟩ := sized_and_written sender hs
    (f := fun x => pdrPacketHeader sender x (p.announced sender)) hsize hput hlt
  have hn := toNat_ofNat_length hlt
  have hn' := toNat_ofNat_length hfit
  have hw : (BitVec.ofNat 64 bs.length).setWidth 32 = BitVec.ofNat 32 bs.length :=
    BitVec.setWidth_ofNat_of_le (by decide) _
  have hne : BitVec.ofNat 32 bs.length ≠ 0 := by
    rw [ne_eq, ofNat_length_eq_zero_iff hfit]
    rintro rfl
    simp at hpos
  rw [hn] at hblock hwrite
  unfold Packet.announced at hsz hwrite ⊢
  simp only [Packet.encodePdrHeader, hsz, ok_bind, hw, hn, hblock, hn', hwrite, if_neg hne,
    Bool.or_false]
  rfl

/-- A header that a receiver of either implementation reads in full: the byte
order taken from its last byte is the sender's, the fields come back, and all
`hdr_len` bytes are consumed. The lightweight one has no destination list. -/
def ReadsHeader (receiver : Host) (hdr : List Byte) (hdrLen : BitVec 32) (pkt : HeaderFields) :
    Prop :=
  hdr[hdrLen.toNat - 1]? = some pkt.byteorder ∧
  (∀ blank : HeaderFields, blank.fmtStr = none →
    pdrPacketHeader receiver (pdrmemCreate receiver .decode pkt.byteorder) blank
      ⟨hdr, 0, hdrLen.toNat⟩ = .ok (pkt, ⟨hdr, hdrLen.toNat, 0⟩)) ∧
  (∀ inletRank, ∃ r, Packet.receive receiver hdrLen (some hdr) 0 none inletRank = .ok r ∧
    r.toHeaderFields = pkt ∧ r.hasError = false) ∧
  ∀ blank : Lightweight.HeaderFields, blank.fmtStr = none →
    Lightweight.packetPdrPacketHeader receiver (pdrmemCreate receiver .decode pkt.byteorder) blank
      ⟨hdr, 0, hdrLen.toNat⟩ = .ok (.ofFull pkt, ⟨hdr, hdrLen.toNat, 0⟩)

/-- The header bytes of a packet, encoded by the sender, are read by the receiver. -/
def HeaderRoundTrips (sender receiver : Host) (p : Packet) : Prop :=
  ∃ q hdr, p.encodePdrHeader sender = .ok q ∧ q.hdr = some hdr ∧
    ReadsHeader receiver hdr q.hdrLen (p.announced sender)

/-- What the receive constructor makes of a header that can be read. -/
lemma receive_eq (receiver : Host) {hdr : List Byte} {hdrLen : BitVec 32} {pkt : HeaderFields}
    (hne : hdrLen ≠ 0) (hlast : hdr[hdrLen.toNat - 1]? = some pkt.byteorder)
    (hget : ∀ blank : HeaderFields, blank.fmtStr = none →
      pdrPacketHeader receiver (pdrmemCreate receiver .decode pkt.byteorder) blank
        ⟨hdr, 0, hdrLen.toNat⟩ = .ok (pkt, ⟨hdr, hdrLen.toNat, 0⟩))
    (bufLen : BitVec 64) (buf : Option (List Byte)) (inletRank : BitVec 32) :
    Packet.receive receiver hdrLen (some hdr) bufLen buf inletRank = .ok
      { Packet.blank hdrLen (some hdr) bufLen buf inletRank with toHeaderFields := pkt } := by
  simp only [Packet.receive, Packet.decodePdrHeader, Packet.blank, if_neg hne, hlast]
  rw [hget _ rfl]
  rfl

/-- The form of a header is read in full by every receiver. -/
theorem headerForm_reads (receiver : Host) (hr : receiver.Allocates) {o : ByteOrder}
    {pkt : HeaderFields} {chars : List Byte} (hbo : pkt.byteorder = pdrByteorder o)
    (hfmt : pkt.fmtStr = some (chars ++ [0]))
    (hfit : 26 + chars.length + 4 * pkt.destArr.data.length < 2 ^ 32) :
    ReadsHeader receiver (headerForm o pkt) (BitVec.ofNat 32 (headerForm o pkt).length) pkt := by
  have hlen := headerForm_length (o := o) hfmt
  have hlt : (headerForm o pkt).length < 2 ^ 32 := by omega
  have hn := toNat_ofNat_length hlt
  have hne : BitVec.ofNat 32 (headerForm o pkt).length ≠ 0 := by
    rw [ne_eq, ofNat_length_eq_zero_iff hlt]
    intro hnil
    rw [hnil, List.length_nil] at hlen
    omega
  have hlast : (headerForm o pkt)[(headerForm o pkt).length - 1]? = some pkt.byteorder := by
    rw [← List.getLast?_eq_getElem?, headerForm_getLast]
  have hslot : SlotOk receiver pkt.fmtStr := by
    rw [hfmt]
    exact ⟨by simp, by simp; omega, hr _⟩
  have hok : HeaderOk receiver pkt :=
    ⟨hslot, pkt.destArr.length_le (by decide), by simp, fun _ => hr _⟩
  have hget : ∀ blank : HeaderFields, blank.fmtStr = none →
      pdrPacketHeader receiver (pdrmemCreate receiver .decode pkt.byteorder) blank
        ⟨headerForm o pkt, 0, (headerForm o pkt).length⟩ =
      .ok (pkt, ⟨headerForm o pkt, (headerForm o pkt).length, 0⟩) := by
    intro blank hnull
    have hd := pdrPacketHeader_decodes receiver
      (pdrmemCreate_fetches receiver pkt.byteorder) blank hnull
    rw [hbo, decodeOrder_pdrByteorder] at hd
    rw [hbo]
    exact hd.consumes ⟨hok, rfl⟩
  rw [ReadsHeader, hn]
  refine ⟨hlast, hget, fun inletRank => ?_, fun blank hnull => ?_⟩
  · exact ⟨_, receive_eq receiver hne (by rw [hn]; exact hlast) (by rw [hn]; exact hget) 0 none
      inletRank, rfl, rfl⟩
  · have hd := Lightweight.packetPdrPacketHeader_decodes receiver
      (pdrmemCreate_fetches receiver pkt.byteorder) blank hnull
    rw [hbo, decodeOrder_pdrByteorder] at hd
    rw [hbo]
    exact hd.consumes ⟨pkt, rfl, hslot, ⟨by unfold int32Max; omega, by simp, fun _ => hr _⟩, rfl⟩

/-- A header that is read has room in the `hdr_len` bytes. -/
lemma pdrPacketHeader_room (receiver : Host) {bo : Byte} {blank pkt : HeaderFields}
    {hdr chars : List Byte} {n : ℕ} {s : Cursor} (hn : n ≤ hdr.length)
    (hnull : blank.fmtStr = none)
    (h : pdrPacketHeader receiver (pdrmemCreate receiver .decode bo) blank ⟨hdr, 0, n⟩ =
      .ok (pkt, s)) (hfmt : pkt.fmtStr = some (chars ++ [0])) :
    26 + chars.length + 4 * pkt.destArr.data.length ≤ n := by
  have hvalid : Cursor.Valid ⟨hdr, 0, n⟩ := by
    simp only [Cursor.Valid]
    omega
  have hd := pdrPacketHeader_decodes receiver (pdrmemCreate_fetches receiver bo) blank hnull
  obtain ⟨bs, ⟨-, rfl⟩, hpre, -⟩ := (hd.ok_iff _ hvalid _ _).mp h
  have hle := hpre.length_le
  rwa [headerForm_length hfmt, Cursor.rest_length hvalid] at hle

/-- The bytes a receiver consumes are no more than `hdr_len` can say. -/
lemma ReadsHeader.length_lt {receiver : Host} {hdr : List Byte} {hdrLen : BitVec 32}
    {pkt : HeaderFields} {chars : List Byte} (h : ReadsHeader receiver hdr hdrLen pkt)
    (hfmt : pkt.fmtStr = some (chars ++ [0])) :
    26 + chars.length + 4 * pkt.destArr.data.length < 2 ^ 32 := by
  obtain ⟨hlast, hget, -, -⟩ := h
  have hlt := (List.getElem?_eq_some_iff.mp hlast).1
  have hroom := pdrPacketHeader_room receiver (by omega) rfl
    (hget ⟨0, 0, 0, none, CArray.empty, 0⟩ rfl) hfmt
  have hlen := hdrLen.isLt
  omega

/-- A header survives the wire exactly if its length is a 32-bit number. -/
theorem encodePdrHeader_round_trip (sender receiver : Host) (hs : sender.Allocates)
    (hr : receiver.Allocates) {p : Packet} {fmt : List Byte} (hfmt : p.fmtStr = some (fmt ++ [0]))
    (hz : 0 ∉ fmt) :
    HeaderRoundTrips sender receiver p ↔
      26 + fmt.length + 4 * p.destArr.data.length < 2 ^ 32 := by
  constructor
  · rintro ⟨q, hdr, -, -, hread⟩
    exact hread.length_lt hfmt
  · intro hfit
    have hlen : (headerForm sender.bo (p.announced sender)).length =
        26 + fmt.length + 4 * p.destArr.data.length := headerForm_length hfmt
    have hsent : sentHeader sender.bo (p.announced sender) =
        some (headerForm sender.bo (p.announced sender)) :=
      sentHeader_eq_form hfmt hz (by unfold wrapstringMax; omega)
    exact ⟨_, _, encodePdrHeader_eq sender hs hsent (by omega), rfl,
      headerForm_reads receiver hr rfl hfmt hfit⟩

/-- A packet without data, for a given format string and destination list. -/
def bareHeader (fmt : List Byte) (dests : CArray (BitVec 32) 4) : Packet :=
  { streamId := 1, tag := 100, srcRank := 0, fmtStr := some (fmt ++ [0]), destArr := dests,
    byteorder := 0, hdr := none, hdrLen := 0, buf := none, bufLen := 0, inletRank := unknownRank,
    dataElements := [], decoded := true, hasError := false }

theorem bareHeader_round_trip :
    HeaderRoundTrips (Host.ample .big) (Host.ample .little)
      (bareHeader (ascii ['%', 'd']) ⟨[3, 4], by decide⟩) :=
  (encodePdrHeader_round_trip _ _ (Host.ample_allocates _) (Host.ample_allocates _) rfl
    (by decide)).mpr (by decide)

lemma bareHeader_length_lt {sender receiver : Host} {fmt : List Byte} {dests : CArray (BitVec 32) 4}
    (h : HeaderRoundTrips sender receiver (bareHeader fmt dests)) :
    26 + fmt.length + 4 * dests.data.length < 2 ^ 32 := by
  obtain ⟨q, hdr, -, -, hread⟩ := h
  exact hread.length_lt rfl

/-- Destinations whose ranks alone fill 2^32 bytes. -/
def manyDestinations : CArray (BitVec 32) 4 where
  data := List.replicate (2 ^ 30) 1
  fits := by rw [List.length_replicate]; decide

theorem manyDestinations_not_round_trip :
    manyDestinations.data.length ≤ int32Max ∧
      ¬ HeaderRoundTrips (Host.ample .little) (Host.ample .little)
        (bareHeader [] manyDestinations) := by
  have hl : manyDestinations.data.length = 2 ^ 30 := List.length_replicate
  refine ⟨by rw [hl]; decide, fun h => ?_⟩
  have hlt := bareHeader_length_lt h
  rw [hl] at hlt
  omega

end MRNet.Wire
