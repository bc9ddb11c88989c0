import MRNet.LightweightMessage

/-!
# What a packet says

The content of a packet is the same for both implementations: three words, a format
string and the elements. Its bytes spell it, and the constructors of both sides
write and read these bytes.
-/
namespace MRNet.Wire
open NativeBytes Codec

lemma Sendable.mono {short short' : ℕ} (hle : short ≤ short') {fmt : List Byte}
    {elems : List DataElement} (h : Sendable short fmt elems) : Sendable short' fmt elems :=
  ⟨h.plain, h.recognised, h.matching, fun e he =>
    ⟨fun hshort => ((h.wellFormed e he).1 hshort).trans hle, (h.wellFormed e he).2⟩⟩

lemma ElementOk.arrayLen_le {host : Host} {short : ℕ} {type : DataType} {v : DataValue type}
    (h : ElementOk host short type v) (hshort : type.isShortArray = true) :
    DataValue.arrayLen type v ≤ short := by
  cases type with
  | charArray | ucharArray | int16Array | uint16Array | int32Array | uint32Array | int64Array
  | uint64Array | floatArray | doubleArray | stringArray => exact h.1
  | _ => cases hshort

lemma elementForm_ne_nil {short : ℕ} {o : ByteOrder} {e : DataElement} (hne : e.type ≠ .unknown)
    (hwf : e.WellFormed short) : elementForm o e.type e.val ≠ [] := by
  obtain ⟨type, v⟩ := e
  intro h
  have hlen := congrArg List.length h
  cases type with
  | unknown => exact hne rfl
  | string =>
      obtain ⟨chars, hchars, -⟩ := hwf.2 v (List.mem_singleton_self _)
      simp only [elementForm, hchars, slotForm, stringForm, List.length_append,
        nativeBytes_length, List.length_nil] at hlen
      omega
  | char | uchar => exact absurd ((nativeBytes_length o (w := 8) v).symm.trans hlen) (by decide)
  | int16 | uint16 => exact absurd ((nativeBytes_length o (w := 16) v).symm.trans hlen) (by decide)
  | int32 | uint32 | float =>
      exact absurd ((nativeBytes_length o (w := 32) v).symm.trans hlen) (by decide)
  | int64 | uint64 | double =>
      exact absurd ((nativeBytes_length o (w := 64) v).symm.trans hlen) (by decide)
  | _ =>
      simp only [elementForm, arrayForm, List.length_append, nativeBytes_length,
        List.length_nil] at hlen
      omega

/-- Only a packet without elements has no data. -/
lemma Sendable.eq_nil_of_form {short : ℕ} {fmt : List Byte} {elems : List DataElement}
    (h : Sendable short fmt elems) {o : ByteOrder} (hnil : elementsForm o elems = []) :
    elems = [] := by
  cases elems with
  | nil => rfl
  | cons e es =>
      have he : e ∈ e :: es := by simp
      simp only [elementsForm, List.flatMap_cons, List.append_eq_nil_iff] at hnil
      exact absurd hnil.1 (elementForm_ne_nil (h.known e he) (h.wellFormed e he))

/-- What a packet says, in either implementation. -/
structure Content where
  streamId : BitVec 32
  tag : BitVec 32
  srcRank : BitVec 32
  fmtStr : Option (List Byte)
  elems : List DataElement

def HeaderFields.content (fields : HeaderFields) (elems : List DataElement) : Content :=
  ⟨fields.streamId, fields.tag, fields.srcRank, fields.fmtStr, elems⟩

def Packet.content (p : Packet) : Content := p.toHeaderFields.content p.dataElements

def Lightweight.Packet.content (p : Lightweight.Packet) : Content :=
  p.toHeaderFields.toFull.content p.dataElements

/-- Header and data bytes that spell a content. -/
structure Spells (short : ℕ) (o : ByteOrder) (fields : HeaderFields) (fmt : List Byte)
    (elems : List DataElement) (pair : List Byte × List Byte) : Prop where
  header : pair.1 = headerForm o fields
  byteorder : fields.byteorder = pdrByteorder o
  fmtStr : fields.fmtStr = some (fmt ++ [0])
  fits : 26 + fmt.length + 4 * fields.destArr.data.length < 2 ^ 32
  sendable : Sendable short fmt elems
  shortStrings : ∀ e ∈ elems, e.ShortStrings
  data : pair.2 = elementsForm o elems
  length : pair.2.length < 2 ^ 64

/-- What the lazy decoding of the full implementation does without an error. -/
lemma decodePdrData_ok_iff (host : Host) {p q : Packet} {fmt data : List Byte}
    (hdec : p.decoded = false)
    (herr : p.hasError = false) (hfmt : p.fmtStr = some (fmt ++ [0])) (hz : 0 ∉ fmt)
    (hbuf : p.buf = some data) (h0 : p.bufLen ≠ 0) :
    (p.decodePdrData host = .ok q ∧ q.hasError = false) ↔
      ∃ elems s, decodeLoop (pdrElement host (pdrmemCreate host .decode p.byteorder))
          (Tokenizer.tokens fmt delim) p.dataElements ⟨data, 0, p.bufLen.toNat⟩ =
            .ok ((true, elems), s) ∧ q = { p with dataElements := elems, decoded := true } := by
  simp only [Packet.decodePdrData, hdec, Bool.false_eq_true, if_false, if_neg h0, hfmt,
    cString_terminated hz, ok_bind, hbuf, bind_ok_iff]
  constructor
  · rintro ⟨⟨⟨⟨retval, elems⟩, s⟩, hloop, hq⟩, hq'⟩
    cases retval with
    | false =>
        cases hq
        cases hq'
    | true =>
        cases hq
        exact ⟨elems, s, hloop, rfl⟩
  · rintro ⟨elems, s, hloop, rfl⟩
    exact ⟨⟨_, hloop, rfl⟩, herr⟩

section Receivers
variable (host : Host) (ha : host.Allocates) (iinletRank : BitVec 32)
include ha

/-- The data loop of a receiver reads the elements back. -/
lemma decodeLoop_elementsForm {short : ℕ} {o : ByteOrder}
    {element : (type : DataType) → DataValue type → Action (DataValue type)}
    (helem : ∀ type, Decodes (element type (DataValue.init type))
      (fun v bs => ElementOk host short type v ∧ bs = elementForm o type v)
      (ElementHarm host short o type)) {fmt : List Byte} {elems : List DataElement}
    (h : Sendable short fmt elems) (hs : ∀ e ∈ elems, e.ShortStrings) :
    ∃ s, decodeLoop element (Tokenizer.tokens fmt delim) []
      ⟨elementsForm o elems, 0, (elementsForm o elems).length⟩ = .ok ((true, elems), s) :=
  ⟨_, (decodeLoop_true_iff helem (Cursor.ofBlock_valid _)).mpr
    ⟨elems, rfl, h.elementsOk ha hs, by rw [Cursor.ofBlock_rest], rfl⟩⟩

/-- The lightweight constructor makes of the bytes what they spell. -/
theorem Lightweight.receivedAs_spelled {o : ByteOrder} {fields : Wire.HeaderFields} {fmt : List Byte}
    {elems : List DataElement} {pair : List Byte × List Byte}
    (h : Spells uint32Max o fields fmt elems pair) :
    ∃ p, Lightweight.ReceivedAs host iinletRank pair p ∧ p.content = fields.content elems := by
  obtain ⟨hdr, data⟩ := pair
  obtain ⟨rfl, hbo, hfmt, hfit, hsend, hstr, rfl, hlt⟩ := h
  dsimp only at hlt
  obtain ⟨hlast, -, -, hget⟩ := headerForm_reads host ha hbo hfmt hfit
  have hne := WellFormedHeader.hdrLen_ne_zero ⟨o, fields, fmt, rfl, hbo, hfmt, hfit⟩
  have hn := toNat_ofNat_length hlt
  simp only [Lightweight.ReceivedAs, Lightweight.newPacket3, if_neg hne, hlast,
    hget ⟨0, 0, unknownRank, none, 0⟩ rfl]
  by_cases h0 : BitVec.ofNat 64 (elementsForm o elems).length = 0
  · obtain rfl := hsend.eq_nil_of_form ((ofNat_length_eq_zero_iff hlt).mp h0)
    exact ⟨_, rfl, rfl⟩
  · have helem := Lightweight.packetPdrElement_decodes host
      (pdrmemCreate_fetches host fields.byteorder)
    rw [hbo, decodeOrder_pdrByteorder] at helem
    obtain ⟨s, hloop⟩ := decodeLoop_elementsForm host ha helem hsend hstr
    have hdata : Lightweight.packetPdrPacketData host
        (pdrmemCreate host .decode (pdrByteorder o)) (some (fmt ++ [0])) []
        ⟨elementsForm o elems, 0, (elementsForm o elems).length⟩ = .ok ((true, elems), s) := by
      simp only [Lightweight.packetPdrPacketData, cString_terminated hsend.plain,
        ← tokens_eq_strtokTokens]
      exact hloop
    refine ⟨⟨.ofFull fields, some (headerForm o fields), BitVec.ofNat 32 (headerForm o fields).length,
      some (elementsForm o elems), BitVec.ofNat 64 (elementsForm o elems).length, iinletRank, elems⟩,
      ?_, rfl⟩
    simp only [pure_bind, if_neg h0, Lightweight.HeaderFields.ofFull, hbo, hfmt, hn, hdata, ok_bind]
    rfl

/-- So do the receive constructor and the lazy decoding of the full implementation. -/
theorem receivedAs_spelled {o : ByteOrder} {fields : HeaderFields} {fmt : List Byte}
    {elems : List DataElement} {pair : List Byte × List Byte}
    (h : Spells int32Max o fields fmt elems pair) :
    ∃ p q, ReceivedAs host iinletRank pair p ∧ p.decodePdrData host = .ok q ∧
      q.hasError = false ∧ q.content = fields.content elems := by
  obtain ⟨hdr, data⟩ := pair
  obtain ⟨rfl, hbo, hfmt, hfit, hsend, hstr, rfl, hlt⟩ := h
  dsimp only at hlt
  have hn := toNat_ofNat_length hlt
  have hrecv := receivedAs_headerForm host iinletRank ha hbo hfmt hfit (elementsForm o elems)
  by_cases h0 : BitVec.ofNat 64 (elementsForm o elems).length = 0
  · obtain rfl := hsend.eq_nil_of_form ((ofNat_length_eq_zero_iff hlt).mp h0)
    exact ⟨_, _, hrecv, rfl, rfl, rfl⟩
  · have helem := pdrElement_decodes host (pdrmemCreate_fetches host fields.byteorder)
    rw [hbo, decodeOrder_pdrByteorder, ← hbo] at helem
    obtain ⟨s, hloop⟩ := decodeLoop_elementsForm host ha helem hsend hstr
    rw [← hn] at hloop
    have hdecode := (decodePdrData_ok_iff host (p :=
      { Packet.blank (BitVec.ofNat 32 (headerForm o fields).length) (some (headerForm o fields))
          (BitVec.ofNat 64 (elementsForm o elems).length) (some (elementsForm o elems))
          iinletRank with toHeaderFields := fields }) rfl rfl hfmt hsend.plain rfl h0).mpr
      ⟨elems, s, hloop, rfl⟩
    exact ⟨_, _, hrecv, hdecode.1, hdecode.2, rfl⟩

end Receivers

/-- A buffer with the encoding of elements that match a format. Without data the
pointer may be null. -/
structure Encoded (short : ℕ) (o : ByteOrder) (fmt : List Byte) (elems : List DataElement)
    (b : NCBuf) : Prop where
  sendable : Sendable short fmt elems
  shortStrings : ∀ e ∈ elems, e.ShortStrings
  length : b.len.toNat = (elementsForm o elems).length
  bytes : elementsForm o elems ≠ [] → b.buf = some (elementsForm o elems)

/-- A header in its form, with its length and its own byte order as the flag. -/
structure HeaderBytes (o : ByteOrder) (fields : HeaderFields) (hdr : Option (List Byte))
    (hdrLen : BitVec 32) : Prop where
  form : hdr = some (headerForm o fields)
  length : hdrLen = BitVec.ofNat 32 (headerForm o fields).length
  byteorder : fields.byteorder = pdrByteorder o

/-- A packet of the full implementation whose data buffer holds the elements. Its
header is not encoded yet, or was at some time since. -/
structure Packet.Carries (host : Host) (p : Packet) (elems : List DataElement) : Prop where
  sound : p.hasError = false
  encoded : ∃ o fmt, p.fmtStr = some (fmt ++ [0]) ∧
    Encoded int32Max o fmt elems ⟨p.buf, p.bufLen⟩ ∧
    (p.hdrLen = 0 ∧ o = host.bo ∨ ∃ fields, HeaderBytes o fields p.hdr p.hdrLen ∧
      fields.fmtStr = p.fmtStr ∧ (headerForm o fields).length < 2 ^ 32)

/-- The length of a packet's header once it is encoded. -/
def Packet.headerSize (p : Packet) : ℕ :=
  if p.hdrLen = 0 then 25 + (p.fmtStr.getD []).length + 4 * p.destArr.data.length
  else p.hdrLen.toNat

/-- No field has changed since the header was encoded. -/
def Packet.HeaderCurrent (p : Packet) : Prop :=
  p.hdrLen = 0 ∨ ∃ o dests, p.hdr = some
    (headerForm o { p.toHeaderFields with destArr := dests, byteorder := pdrByteorder o })

/-- A lightweight packet whose data buffer holds the elements. Its header was
encoded at construction, without destinations, or received. -/
structure Lightweight.Packet.Carries (p : Lightweight.Packet) (elems : List DataElement) :
    Prop where
  encoded : ∃ o fmt fields, p.fmtStr = some (fmt ++ [0]) ∧
    Encoded uint32Max o fmt elems ⟨p.buf, p.bufLen⟩ ∧ HeaderBytes o fields p.hdr p.hdrLen ∧
    fields.fmtStr = p.fmtStr ∧
    (fields.destArr.data = [] ∨ (headerForm o fields).length < 2 ^ 32)

def Lightweight.Packet.HeaderCurrent (p : Lightweight.Packet) : Prop :=
  ∃ o dests, p.hdr = some
    (headerForm o { p.toHeaderFields.toFull with destArr := dests, byteorder := pdrByteorder o })

/-- Header bytes determine the fields they were written from. -/
theorem headerForm_injective {o o' : ByteOrder} {f f' : HeaderFields} {fmt : List Byte}
    (h : headerForm o f = headerForm o' f') (hbo : f.byteorder = pdrByteorder o)
    (hbo' : f'.byteorder = pdrByteorder o') (hfmt : f.fmtStr = some (fmt ++ [0]))
    (hfmt' : f'.fmtStr = f.fmtStr) (hfit : (headerForm o f).length < 2 ^ 32) : f = f' := by
  have hlen := hfit
  rw [headerForm_length hfmt] at hlen
  have hlen' := hfit
  rw [h, headerForm_length (hfmt'.trans hfmt)] at hlen'
  -- any receiver reads both from the same bytes
  obtain ⟨hlast, hget, -⟩ := headerForm_reads _ (Host.ample_allocates o) hbo hfmt hlen
  obtain ⟨hlast', hget', -⟩ :=
    headerForm_reads _ (Host.ample_allocates o) hbo' (hfmt'.trans hfmt) hlen'
  rw [← h] at hlast' hget'
  have hflag : f.byteorder = f'.byteorder := Option.some.inj (hlast.symm.trans hlast')
  have hread := hget ⟨0, 0, 0, none, CArray.empty, 0⟩ rfl
  rw [hflag, hget' _ rfl] at hread
  cases hread
  rfl

/-- A format string that `pdr_wrapstring` refuses makes no header. -/
lemma sentHeader_eq_none {o : ByteOrder} {pkt : HeaderFields} {chars : List Byte}
    (hfmt : pkt.fmtStr = some (chars ++ [0])) (hz : 0 ∉ chars)
    (hl : wrapstringMax < chars.length + 1) : sentHeader o pkt = none := by
  have hstr : sentWrapstring o pkt.fmtStr = none := by
    rw [hfmt]
    exact sentString_eq_none hz hl
  simp [sentHeader, hstr, sentThen, sentWord]

/-- A header encoded without an error has fewer than 2^32 bytes. -/
theorem encodePdrHeader_fits (host : Host) (ha : host.Allocates) {p q : Packet} {fmt : List Byte}
    (hfmt : p.fmtStr = some (fmt ++ [0])) (hz : 0 ∉ fmt) (h : p.encodePdrHeader host = .ok q)
    (herr : q.hasError = false) : 26 + fmt.length + 4 * p.destArr.data.length < 2 ^ 32 := by
  have hput := pdrPacketHeader_encodes host (pdrmemOps_feeds host) (p.announced host)
  have hlen : (headerForm host.bo (p.announced host)).length =
      26 + fmt.length + 4 * p.destArr.data.length := headerForm_length hfmt
  unfold Packet.encodePdrHeader at h
  obtain ⟨⟨done, hdrSz⟩, -, h⟩ := bind_ok_iff.mp h
  dsimp only at h
  split_ifs at h
  obtain ⟨block, hblock⟩ := Option.isSome_iff_exists.mp (ha hdrSz.toNat)
  rw [hblock] at h
  obtain ⟨⟨block', failed⟩, hwrite, h⟩ := bind_ok_iff.mp h
  cases h
  obtain rfl : failed = false := by simpa using (Bool.or_eq_false_iff.mp herr).2
  -- the write succeeded within the 32-bit space
  have hlt := (hdrSz.setWidth 32).isLt
  have hvalid : Cursor.Valid ⟨block, 0, (hdrSz.setWidth 32).toNat⟩ := by
    have hle : hdrSz.toNat % 2 ^ 32 ≤ hdrSz.toNat := Nat.mod_le _ _
    simp only [Cursor.Valid, host.malloc_length _ _ hblock, BitVec.toNat_setWidth]
    omega
  obtain ⟨r, hr⟩ : ∃ r, pdrPacketHeader host ⟨.encode, pdrmemOps host⟩ (p.announced host)
      ⟨block, 0, (hdrSz.setWidth 32).toNat⟩ = .ok r := by
    unfold encodeBlock at hwrite
    rw [pdrmemCreate_encode] at hwrite
    split at hwrite
    · exact ⟨_, by assumption⟩
    · cases hwrite
    · cases hwrite
  by_cases hl : fmt.length + 1 ≤ wrapstringMax
  · rw [show sentHeader host.bo (p.announced host) = _ from sentHeader_eq_form hfmt hz hl] at hput
    by_contra hunfit
    rw [Sink.Emits.refuses hput hvalid (by dsimp only; omega)] at hr
    cases hr
  · rw [show sentHeader host.bo (p.announced host) = _ from
      sentHeader_eq_none hfmt hz (not_le.mp hl)] at hput
    exact absurd hr (hput _ hvalid r)

lemma Encoded.ncbuf {short : ℕ} {o : ByteOrder} {fmt : List Byte} {elems : List DataElement}
    {b : NCBuf} (h : Encoded short o fmt elems b) : b.bytes = .ok (elementsForm o elems) := by
  obtain ⟨buf, len⟩ := b
  have hlen : len.toNat = (elementsForm o elems).length := h.length
  by_cases hnil : elementsForm o elems = []
  · rw [hnil, List.length_nil] at hlen
    have h0 : len = 0 := BitVec.eq_of_toNat_eq hlen
    rw [hnil, NCBuf.bytes, if_pos h0]
  · obtain rfl : buf = some (elementsForm o elems) := h.bytes hnil
    rw [NCBuf.bytes_some hlen.le, hlen, List.take_length]

/-- A packet with its header and data in place is loaded, and its bytes spell what
they were written from. -/
lemma Encoded.loaded {short : ℕ} {o : ByteOrder} {fields : HeaderFields} {fmt : List Byte}
    {elems : List DataElement} {q : Packet} (h : Encoded short o fmt elems ⟨q.buf, q.bufLen⟩)
    (hhdr : HeaderBytes o fields q.hdr q.hdrLen) (hfmt : fields.fmtStr = some (fmt ++ [0]))
    (hfit : (headerForm o fields).length < 2 ^ 32) :
    q.Loaded ∧ Spells short o fields fmt elems q.bytes := by
  have hlen : q.bufLen.toNat = (elementsForm o elems).length := h.length
  have hwf : WellFormedHeader (headerForm o fields) :=
    ⟨o, fields, fmt, rfl, hhdr.byteorder, hfmt, by rw [← headerForm_length hfmt]; exact hfit⟩
  have hplace : q.DataInPlace := by
    by_cases hnil : elementsForm o elems = []
    · rw [hnil, List.length_nil] at hlen
      exact Or.inl (BitVec.eq_of_toNat_eq hlen)
    · exact Or.inr ⟨_, h.bytes hnil, hlen.symm⟩
  have hload : q.Loaded := ⟨⟨_, hhdr.form, hhdr.length, hwf⟩, hplace⟩
  have hheader : q.bytes.1 = headerForm o fields :=
    Option.some.inj (hload.header_bytes.2.1.symm.trans hhdr.form)
  have hdata : q.bytes.2 = elementsForm o elems :=
    Except.ok.inj (hload.data_bytes.symm.trans h.ncbuf)
  have hlt := q.bufLen.isLt
  rw [headerForm_length hfmt] at hfit
  exact ⟨hload, hheader, hhdr.byteorder, hfmt, hfit, h.sendable, h.shortStrings, hdata,
    by rw [hdata]; omega⟩

lemma HeaderBytes.hdrLen_ne_zero {o : ByteOrder} {fields : HeaderFields} {hdr : Option (List Byte)}
    {hdrLen : BitVec 32} {fmt : List Byte} (h : HeaderBytes o fields hdr hdrLen)
    (hfmt : fields.fmtStr = some (fmt ++ [0])) (hfit : (headerForm o fields).length < 2 ^ 32) :
    hdrLen ≠ 0 := by
  rw [h.length]
  exact WellFormedHeader.hdrLen_ne_zero
    ⟨o, fields, fmt, rfl, h.byteorder, hfmt, by rw [← headerForm_length hfmt]; exact hfit⟩

/-- Header bytes have the content of some fields exactly if they are the form of
these fields, up to destinations and byte order. -/
lemma HeaderBytes.content_eq_iff {o : ByteOrder} {fields own : HeaderFields}
    {hdr : Option (List Byte)} {hdrLen : BitVec 32} {fmt : List Byte} {elems : List DataElement}
    (h : HeaderBytes o fields hdr hdrLen) (hsame : fields.fmtStr = own.fmtStr)
    (hfmt : own.fmtStr = some (fmt ++ [0])) (hfit : (headerForm o fields).length < 2 ^ 32) :
    fields.content elems = own.content elems ↔ ∃ o' dests, hdr = some
      (headerForm o' { own with destArr := dests, byteorder := pdrByteorder o' }) := by
  constructor
  · intro hcontent
    refine ⟨o, fields.destArr, ?_⟩
    rw [h.form, ← h.byteorder]
    refine congrArg (fun f => some (headerForm o f)) ?_
    obtain ⟨_, _, _, _, _, _⟩ := fields
    cases hcontent
    rfl
  · rintro ⟨o', dests, hcur⟩
    rw [headerForm_injective (Option.some.inj (h.form.symm.trans hcur)) h.byteorder rfl
      (hsame.trans hfmt) hsame.symm hfit]
    rfl

section Prepare
variable (host : Host) (ha : host.Allocates) {p : Packet} {elems : List DataElement}
  (h : p.Carries host elems)
include ha h

lemma Packet.Carries.header (hfit : p.headerSize < 2 ^ 32) :
    ∃ q o fields fmt, p.prepare host = .ok q ∧ q.hasError = false ∧ q.bufLen = p.bufLen ∧
      Encoded int32Max o fmt elems ⟨q.buf, q.bufLen⟩ ∧ HeaderBytes o fields q.hdr q.hdrLen ∧
      fields.fmtStr = some (fmt ++ [0]) ∧ (headerForm o fields).length = p.headerSize ∧
      (fields.content elems = p.toHeaderFields.content elems ↔ p.HeaderCurrent) := by
  obtain ⟨o, fmt, hfmt, henc, ⟨h0, rfl⟩ | ⟨fields, hbytes, hsame, hlt⟩⟩ := h.encoded
  · have hform : (headerForm host.bo (p.announced host)).length =
        26 + fmt.length + 4 * p.destArr.data.length := headerForm_length hfmt
    have hsize : p.headerSize = 26 + fmt.length + 4 * p.destArr.data.length := by
      rw [Packet.headerSize, if_pos h0, hfmt, Option.getD_some, List.length_append,
        List.length_singleton]
      omega
    have hprep : p.prepare host = .ok _ := (if_pos h0).trans
      (encodePdrHeader_form host ha hfmt henc.sendable.plain (by rw [← hsize]; exact hfit))
    exact ⟨_, host.bo, p.announced host, fmt, hprep, h.sound, rfl, henc, ⟨rfl, rfl, rfl⟩, hfmt,
      hform.trans hsize.symm, fun _ => Or.inl h0, fun _ => rfl⟩
  · have hfields := hsame.trans hfmt
    have hpos := hbytes.hdrLen_ne_zero hfields hlt
    have hn := toNat_ofNat_length hlt
    rw [← hbytes.length] at hn
    refine ⟨p, o, fields, fmt, ?_, h.sound, rfl, henc, hbytes, hfields, ?_, ?_⟩
    · rw [Packet.prepare, if_neg hpos]
    · rw [Packet.headerSize, if_neg hpos, hn]
    · rw [hbytes.content_eq_iff hsame hfmt hlt, Packet.HeaderCurrent]
      exact (or_iff_right hpos).symm

/-- What becomes of a packet in `Message::send`: bytes that spell the content of its
header, which is its own as long as the header is current. -/
theorem Packet.Carries.prepare (hfit : p.headerSize < 2 ^ 32) :
    ∃ q o fields fmt, p.prepare host = .ok q ∧ q.hasError = false ∧ q.Loaded ∧
      Spells int32Max o fields fmt elems q.bytes ∧
      (pairBufs q.bytes).map List.length = [p.headerSize, p.bufLen.toNat] ∧
      (fields.content elems = p.toHeaderFields.content elems ↔ p.HeaderCurrent) := by
  obtain ⟨q, o, fields, fmt, hq, herr, hbuf, henc, hbytes, hfmt, hlen, hcur⟩ := h.header host ha hfit
  obtain ⟨hload, hspell⟩ := henc.loaded hbytes hfmt (by rw [hlen]; exact hfit)
  refine ⟨q, o, fields, fmt, hq, herr, hload, hspell, ?_, hcur⟩
  rw [pairBufs, List.map_cons, List.map_singleton, hspell.header, hspell.data, hlen, ← hbuf,
    ← henc.length]

end Prepare

/-- The buffer sizes of a message. -/
def bufferSizes (packets : List Packet) : List ℕ :=
  packets.flatMap fun p => [p.headerSize, p.bufLen.toNat]

/-- A packet is constructed of elements that can be sent, whether or not there is memory for their
encoding. -/
lemma create_ok (host : Host) (srcRank streamId tag : BitVec 32) {fmt : List Byte}
    {elems : List DataElement} (hs : ∀ e ∈ elems, e.ShortStrings)
    (hlt : (elementsForm host.bo elems).length < 2 ^ 64) (h : Sendable int32Max fmt elems) :
    ∃ p, Packet.create host srcRank streamId tag (some fmt) elems = .ok p := by
  have hsize := pdrPacketData_encodes host (sizeofOps_feeds host.bo) (some (fmt ++ [0])) elems
  have hput := pdrPacketData_encodes host (pdrmemOps_feeds host) (some (fmt ++ [0])) elems
  rw [h.sentData_eq hs] at hsize hput
  have hsz := @pdrSizeof_emits _ (fun x => pdrPacketData host x (some (fmt ++ [0])) elems) _ _ hsize
  have hn := toNat_ofNat_length hlt
  by_cases hzero : BitVec.ofNat 64 (elementsForm host.bo elems).length = 0
  · simp only [Packet.create, Packet.encodePdrData, hsz, ok_bind, hzero]
    exact ⟨_, rfl⟩
  cases hblock : host.malloc (BitVec.ofNat 64 (elementsForm host.bo elems).length).toNat with
  | none =>
      simp only [Packet.create, Packet.encodePdrData, hsz, ok_bind, hzero, hblock]
      exact ⟨_, rfl⟩
  | some block =>
      have hblockLen := host.malloc_length _ _ hblock
      rw [hn] at hblockLen
      have hwrite : encodeBlock host (fun x => pdrPacketData host x (some (fmt ++ [0])) elems) block
          (BitVec.ofNat 64 (elementsForm host.bo elems).length).toNat =
            .ok (elementsForm host.bo elems, false) := by
        simp only [encodeBlock, pdrmemCreate_encode, hn, Sink.Emits.fills hput hblockLen]
      simp only [Packet.create, Packet.encodePdrData, hsz, ok_bind, hzero, hblock, hwrite]
      exact ⟨_, rfl⟩

/-- The encoding leaves the fields as they were set. -/
lemma create_fields {host : Host} {srcRank streamId tag : BitVec 32} {fmt : List Byte}
    {elems : List DataElement} {q : Packet}
    (h : Packet.create host srcRank streamId tag (some fmt) elems = .ok q) :
    q.streamId = streamId ∧ q.fmtStr = some (fmt ++ [0]) ∧ q.dataElements = elems := by
  simp only [Packet.create, Packet.encodePdrData] at h
  obtain ⟨⟨done, bufLen⟩, -, h⟩ := bind_ok_iff.mp h
  dsimp only at h
  split_ifs at h
  · cases h
    exact ⟨rfl, rfl, rfl⟩
  · split at h
    · cases h
      exact ⟨rfl, rfl, rfl⟩
    · obtain ⟨⟨block, failed⟩, -, h⟩ := bind_ok_iff.mp h
      cases h
      exact ⟨rfl, rfl, rfl⟩

section Constructors
variable (host : Host) (ha : host.Allocates) (srcRank streamId tag : BitVec 32) {fmt : List Byte}
  {elems : List DataElement} (hs : ∀ e ∈ elems, e.ShortStrings)
  (hlt : (elementsForm host.bo elems).length < 2 ^ 64)
include ha hs hlt

/-- A constructed packet carries the elements it was made from. -/
theorem create_carries (h : Sendable int32Max fmt elems) :
    ∃ p, Packet.create host srcRank streamId tag (some fmt) elems = .ok p ∧ p.Carries host elems ∧
      p.HeaderCurrent ∧
      bufferSizes [p] = [26 + fmt.length, (elementsForm host.bo elems).length] ∧
      p.toHeaderFields.content elems = ⟨streamId, tag, srcRank, some (fmt ++ [0]), elems⟩ := by
  have hsize := pdrPacketData_encodes host (sizeofOps_feeds host.bo) (some (fmt ++ [0])) elems
  have hput := pdrPacketData_encodes host (pdrmemOps_feeds host) (some (fmt ++ [0])) elems
  rw [h.sentData_eq hs] at hsize hput
  obtain ⟨hsz, block, hblock, hwrite⟩ := sized_and_written host ha
    (f := fun x => pdrPacketData host x (some (fmt ++ [0])) elems) hsize hput hlt
  have h0 := ofNat_length_eq_zero_iff hlt
  have hheader : 25 + (fmt ++ [0]).length + 4 * 0 = 26 + fmt.length := by
    rw [List.length_append, List.length_singleton]
    omega
  by_cases hnil : elementsForm host.bo elems = []
  · simp only [Packet.create, Packet.encodePdrData, hsz, ok_bind, h0.mpr hnil]
    refine ⟨_, rfl, ⟨rfl, host.bo, fmt, rfl, ⟨h, hs, ?_, absurd hnil⟩, Or.inl ⟨rfl, rfl⟩⟩,
      Or.inl rfl, ?_, rfl⟩
    · rw [hnil]
      rfl
    · rw [hnil, ← hheader]
      rfl
  · simp only [Packet.create, Packet.encodePdrData, hsz, ok_bind, mt h0.mp hnil, hblock, hwrite]
    refine ⟨_, rfl, ⟨rfl, host.bo, fmt, rfl, ⟨h, hs, toNat_ofNat_length hlt, fun _ => rfl⟩,
      Or.inl ⟨rfl, rfl⟩⟩, Or.inl rfl, ?_, rfl⟩
    rw [← hheader]
    conv_rhs => rw [← toNat_ofNat_length hlt]
    rfl

/-- So does a new lightweight packet, and its header is current. -/
theorem newPacket_carries (h : Sendable uint32Max fmt elems)
    (hfmt : fmt.length + 1 ≤ wrapstringMax) :
    ∃ p, Lightweight.newPacket host srcRank streamId tag fmt elems = .ok (some p) ∧
      p.Carries elems ∧ p.HeaderCurrent ∧ (∀ hdr, p.hdr = some hdr → hdr.length = 26 + fmt.length) ∧
      p.toHeaderFields.toFull.content elems =
        ⟨streamId, tag, srcRank, some (fmt ++ [0]), elems⟩ := by
  let fields : Lightweight.HeaderFields := ⟨streamId, tag, srcRank, some (fmt ++ [0]), pdrmemGetbo host⟩
  have hhsize := Lightweight.packetPdrPacketHeader_encodes host (sizeofOps_feeds host.bo) fields
  have hhput := Lightweight.packetPdrPacketHeader_encodes host (pdrmemOps_feeds host) fields
  have hsize := Lightweight.packetPdrPacketData_encodes host (sizeofOps_feeds host.bo)
    (some (fmt ++ [0])) elems
  have hput := Lightweight.packetPdrPacketData_encodes host (pdrmemOps_feeds host)
    (some (fmt ++ [0])) elems
  rw [h.sentData_eq hs] at hsize hput
  rw [sentHeader_eq_form rfl h.plain hfmt] at hhsize hhput
  have hhlen : (headerForm host.bo fields.toFull).length = 26 + fmt.length := headerForm_length rfl
  have hhlt : (headerForm host.bo fields.toFull).length < 2 ^ 64 := by
    unfold wrapstringMax at hfmt
    omega
  obtain ⟨hhsz, hdrBlock, hhblock, hhwrite⟩ := sized_and_written host ha
    (f := fun x => Lightweight.packetPdrPacketHeader host x fields) hhsize hhput hhlt
  obtain ⟨hsz, block, hblock, hwrite⟩ := sized_and_written host ha
    (f := fun x => Lightweight.packetPdrPacketData host x (some (fmt ++ [0])) elems) hsize hput hlt
  have h0 := ofNat_length_eq_zero_iff hlt
  have hne : BitVec.ofNat 64 (headerForm host.bo fields.toFull).length ≠ 0 := by
    rw [ne_eq, ofNat_length_eq_zero_iff hhlt]
    intro hnil
    rw [hnil, List.length_nil] at hhlen
    omega
  have hcur : ∃ o dests, some (headerForm host.bo fields.toFull) = some (headerForm o
      { fields.toFull with destArr := dests, byteorder := pdrByteorder o }) :=
    ⟨host.bo, CArray.empty, rfl⟩
  have hbytes : HeaderBytes host.bo fields.toFull (some (headerForm host.bo fields.toFull))
      ((BitVec.ofNat 64 (headerForm host.bo fields.toFull).length).setWidth 32) :=
    ⟨rfl, BitVec.setWidth_ofNat_of_le (by decide) _, rfl⟩
  have hlen : ∀ hdr, some (headerForm host.bo fields.toFull) = some hdr →
      hdr.length = 26 + fmt.length := by
    rintro _ ⟨⟩
    exact hhlen
  simp only [fields] at hhsz hhblock hhwrite hne
  by_cases hnil : elementsForm host.bo elems = []
  · simp only [Lightweight.newPacket, Lightweight.packetConstruct, hhsz, ok_bind, if_neg hne, hhblock,
      hhwrite, hsz, h0.mpr hnil]
    refine ⟨_, rfl, ⟨host.bo, fmt, fields.toFull, rfl, ⟨h, hs, ?_, absurd hnil⟩, hbytes, rfl,
      Or.inl rfl⟩, hcur, hlen, rfl⟩
    rw [hnil]
    rfl
  · simp only [Lightweight.newPacket, Lightweight.packetConstruct, hhsz, ok_bind, if_neg hne, hhblock,
      hhwrite, hsz, mt h0.mp hnil, and_false, if_false, hblock, hwrite]
    exact ⟨_, rfl, ⟨host.bo, fmt, fields.toFull, rfl, ⟨h, hs, toNat_ofNat_length hlt, fun _ => rfl⟩,
      hbytes, rfl, Or.inl rfl⟩, hcur, hlen, rfl⟩

end Constructors
end MRNet.Wire
