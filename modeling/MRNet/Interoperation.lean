import MRNet.PacketContents
import MRNet.MessageFraming

/-!
# The two implementations on one wire

Messages between a node of the full and one of the lightweight implementation. The
bytes of a packet spell its content in the same way on both sides; what remains are
the places where a length is cut: the buffer total of the lightweight receiver goes
through an `int`, header lengths have 32 bits, and a short array has up to
`UINT32_MAX` elements on one side and `INT32_MAX` on the other.
-/
namespace MRNet.Wire
open NativeBytes Codec

/-- What the lightweight node receives from the bytes that `Message::send` puts on
the wire are the contents of the packets, and nothing is left over. -/
def ReachesLightweight (cpp lw : Host) (iinletRank : BitVec 32) (msg : Message)
    (elems : List (List DataElement)) : Prop :=
  ∃ s, msg.send cpp = .ok s ∧ (∀ q ∈ s.packets, q.hasError = false) ∧
    ∀ packetsIn, ∃ r new, Lightweight.messageRecv lw iinletRank packetsIn s.wire = .ok r ∧
      r.packetsIn = packetsIn ++ new ∧ r.rest = [] ∧
      new.map Lightweight.Packet.content =
        List.zipWith (fun p es => p.toHeaderFields.content es) msg.packets elems

/-- What a node of the full implementation receives from the bytes of `Message_send`
is one packet, which decodes to the content of the packet sent. -/
def ReachesFull (lw cpp : Host) (iinletRank : BitVec 32) (p : Lightweight.Packet)
    (elems : List DataElement) : Prop :=
  ∃ bufs, Lightweight.messageSend lw (some p) = .ok bufs ∧
    ∀ packetsIn, ∃ r new q, recv cpp iinletRank packetsIn bufs.flatten = .ok r ∧
      r.packetsIn = packetsIn ++ [new] ∧ r.rest = [] ∧ new.decodePdrData cpp = .ok q ∧
      q.hasError = false ∧ q.content = p.toHeaderFields.toFull.content elems

/-- A list of packets that the lightweight receiver takes as they are. -/
structure Transferable (packets : List Packet) : Prop where
  count : 2 * packets.length + 2 < 2 ^ 32
  headers : ∀ p ∈ packets, p.headerSize < 2 ^ 32
  current : ∀ p ∈ packets, p.HeaderCurrent
  total : 2 ^ 32 ∣ ((bufferSizes packets).map Lightweight.castLoss).sum

/-- A successful `send` has prepared its packets. -/
lemma send_prepares (host : Host) {msg : Message} {s : Sent} (hne : msg.packets ≠ [])
    (hn : 2 * msg.packets.length + 2 < 2 ^ 32) (h : msg.send host = .ok s) :
    msg.packets.mapM (Packet.prepare host) = .ok s.packets := by
  have hbuf := numBuffers_toNat (by omega : 2 * msg.packets.length < 2 ^ 32)
  have hncbuf := numNcbufs_toNat hn
  simp only [Message.send, if_neg hne, hbuf, hncbuf, decide_eq_true_eq] at h
  split at h
  · rename_i buf sizesLen _ hsizes
    obtain ⟨⟨packets, ncbufs⟩, hgather, h⟩ := bind_ok_iff.mp h
    have hroom : 2 * msg.packets.length ≤ sizesLen := by
      unfold messagePreallocLen at hsizes
      split_ifs at hsizes with hpre
      · cases hsizes
        omega
      · obtain ⟨_, -, rfl⟩ := Option.map_eq_some_iff.mp hsizes
        rfl
    rw [gather_eq host _ 0 _ (by split_ifs <;> omega) (by omega)] at hgather
    cases hprep : msg.packets.mapM (Packet.prepare host) with
    | error e =>
        rw [hprep] at hgather
        cases hgather
    | ok qs =>
        rw [hprep] at hgather
        cases hgather
        obtain ⟨_, -, h⟩ := bind_ok_iff.mp h
        obtain ⟨_, -, h⟩ := bind_ok_iff.mp h
        obtain ⟨_, -, h⟩ := bind_ok_iff.mp h
        cases h
        rfl
  · cases h

section ToLightweight
variable {cpp lw : Host} (hcpp : cpp.Allocates) (hlw : lw.Allocates) (iinletRank : BitVec 32)

include hcpp in
lemma prepare_all {packets : List Packet} {elems : List (List DataElement)}
    (h : List.Forall₂ (Packet.Carries cpp) packets elems)
    (hfit : ∀ p ∈ packets, p.headerSize < 2 ^ 32) :
    ∃ qs contents, packets.mapM (Packet.prepare cpp) = .ok qs ∧
      (∀ q ∈ qs, q.hasError = false ∧ q.Loaded) ∧
      List.Forall₂ (fun q c => ∃ o fields fmt es, Spells int32Max o fields fmt es (Packet.bytes q) ∧
        c = fields.content es) qs contents ∧
      (bodyBufs (qs.map Packet.bytes)).map List.length = bufferSizes packets ∧
      (contents = List.zipWith (fun p es => p.toHeaderFields.content es) packets elems ↔
        ∀ p ∈ packets, p.HeaderCurrent) := by
  induction h with
  | nil => exact ⟨[], [], rfl, by simp, .nil, rfl, by simp⟩
  | @cons p es packets elems hp _ ih =>
      simp only [List.mem_cons, forall_eq_or_imp] at hfit
      obtain ⟨qs, contents, hqs, hload, hspell, hlens, hcur⟩ := ih hfit.2
      obtain ⟨q, o, fields, fmt, hq, herr, hq', hs, hl, hc⟩ := hp.prepare cpp hcpp hfit.1
      refine ⟨q :: qs, fields.content es :: contents, ?_, ?_,
        .cons ⟨o, fields, fmt, es, hs, rfl⟩ hspell,
        ?_, ?_⟩
      · rw [List.mapM_cons, hq, ok_bind, hqs]
        rfl
      · simpa using ⟨⟨herr, hq'⟩, hload⟩
      · simp only [bodyBufs, List.map_cons, List.flatMap_cons, List.map_append] at hlens ⊢
        rw [hl, hlens]
        rfl
      · simp only [List.zipWith_cons_cons, List.cons.injEq, hc, hcur, List.mem_cons,
          forall_eq_or_imp]

include hlw in
lemma received_all {pairs : List (List Byte × List Byte)} {contents : List Content}
    (h : List.Forall₂ (fun pair c => ∃ o fields fmt es, Spells int32Max o fields fmt es pair ∧
      c = fields.content es) pairs contents) :
    ∃ ps, List.Forall₂ (Lightweight.ReceivedAs lw iinletRank) pairs ps ∧
      ps.map Lightweight.Packet.content = contents := by
  induction h with
  | nil => exact ⟨[], .nil, rfl⟩
  | cons hp _ ih =>
      obtain ⟨ps, hps, hcontents⟩ := ih
      obtain ⟨o, fields, fmt, es, hspell, rfl⟩ := hp
      have hwide : Spells uint32Max o fields fmt es _ :=
        { hspell with sendable := hspell.sendable.mono (by decide) }
      obtain ⟨p, hrecv, hcontent⟩ := Lightweight.receivedAs_spelled lw hlw iinletRank hwide
      exact ⟨p :: ps, .cons hrecv hps, by rw [List.map_cons, hcontent, hcontents]⟩

variable {msg : Message} {elems : List (List DataElement)}
  (h : List.Forall₂ (Packet.Carries cpp) msg.packets elems)
include h

include hcpp in
/-- A message that is sent without an error has headers of fewer than 2^32 bytes. -/
lemma headers_fit {s : Sent} (hprep : msg.packets.mapM (Packet.prepare cpp) = .ok s.packets)
    (herr : ∀ q ∈ s.packets, q.hasError = false) : ∀ p ∈ msg.packets, p.headerSize < 2 ^ 32 := by
  intro p hp
  obtain ⟨q, hq, hpq⟩ := forall₂_exists_of_mem (mapM_ok_iff.mp hprep) hp
  obtain ⟨es, -, hcarry⟩ := forall₂_exists_of_mem h hp
  obtain ⟨o, fmt, hfmt, henc, -⟩ := hcarry.encoded
  by_cases h0 : p.hdrLen = 0
  · rw [Packet.prepare, if_pos h0] at hpq
    have hfit := encodePdrHeader_fits cpp hcpp hfmt henc.sendable.plain hpq (herr q hq)
    rw [Packet.headerSize, if_pos h0, hfmt, Option.getD_some, List.length_append,
      List.length_singleton]
    omega
  · rw [Packet.headerSize, if_neg h0]
    exact p.hdrLen.isLt

include hcpp hlw in
/-- What the lightweight node makes of a message whose headers fit. -/
theorem messageRecv_sent (hbo : cpp.bo = lw.bo) (hne : msg.packets ≠ [])
    (hn : 2 * msg.packets.length + 2 < 2 ^ 32) (hfit : ∀ p ∈ msg.packets, p.headerSize < 2 ^ 32) :
    ∃ s contents, msg.send cpp = .ok s ∧ (∀ q ∈ s.packets, q.hasError = false) ∧
      (contents = List.zipWith (fun p es => p.toHeaderFields.content es) msg.packets elems ↔
        ∀ p ∈ msg.packets, p.HeaderCurrent) ∧ ∃ new : List Lightweight.Packet,
      new.map Lightweight.Packet.content = contents ∧
      ∀ packetsIn, Lightweight.messageRecv lw iinletRank packetsIn s.wire = .ok
        (if 2 ^ 32 ∣ ((bufferSizes msg.packets).map Lightweight.castLoss).sum
          then ⟨0, packetsIn ++ new, []⟩ else ⟨-1, packetsIn, []⟩) := by
  obtain ⟨qs, contents, hqs, hload, hspell, hlens, hcur⟩ := prepare_all hcpp h hfit
  obtain ⟨s, pad, hsend, rfl, hwire⟩ := send_eq cpp hcpp hne hn hqs fun q hq => (hload q hq).2
  obtain ⟨new, hnew, hcontents⟩ := received_all hlw iinletRank
    (List.forall₂_map_left_iff.mpr hspell)
  refine ⟨s, contents, hsend, fun q hq => (hload q hq).1, hcur, new, hcontents, fun packetsIn => ?_⟩
  have hrecv := Lightweight.messageRecv_message lw iinletRank hlw
    (by rw [List.length_map, mapM_length hqs]; omega)
    (loaded_length_lt fun q hq => (hload q hq).2) hnew packetsIn pad []
  rw [List.append_nil, hlens, ← hbo, ← hwire] at hrecv
  exact hrecv

include hcpp hlw in
/-- The contents arrive exactly if the packets are transferable. -/
theorem reachesLightweight_iff (hbo : cpp.bo = lw.bo) :
    ReachesLightweight cpp lw iinletRank msg elems ↔
      msg.packets = [] ∨ Transferable msg.packets := by
  constructor
  · rintro ⟨s, hsend, herr, hrecv⟩
    refine or_iff_not_imp_left.mpr fun hne => ?_
    have hn : 2 * msg.packets.length + 2 < 2 ^ 32 := by
      by_contra hn
      exact send_outside cpp (not_lt.mp hn) s hsend
    have hfit := headers_fit hcpp h (send_prepares cpp hne hn hsend) herr
    obtain ⟨s', contents, hsend', -, hcur, new, hnew, hrun⟩ :=
      messageRecv_sent hcpp hlw iinletRank h hbo hne hn hfit
    rw [hsend] at hsend'
    cases hsend'
    obtain ⟨r, new', hr, hin, -, hcontents⟩ := hrecv []
    rw [hrun] at hr
    split_ifs at hr with htotal
    · cases hr
      simp only [List.nil_append] at hin
      rw [← hin, hnew] at hcontents
      exact ⟨hn, hfit, hcur.mp hcontents, htotal⟩
    · cases hr
      simp only [List.nil_append] at hin
      rw [← hin] at hcontents
      have hlen := congrArg List.length hcontents
      rw [List.length_map, List.length_nil, List.length_zipWith, ← h.length_eq, Nat.min_self] at hlen
      exact absurd (List.eq_nil_of_length_eq_zero hlen.symm) hne
  · rintro hcond
    by_cases hempty : msg.packets = []
    · obtain ⟨block, hblock⟩ := Option.isSome_iff_exists.mp (hlw 5)
      have hclosed : ∀ packetsIn, Lightweight.messageRecv lw iinletRank packetsIn [] =
          .ok ⟨-1, packetsIn, []⟩ := by
        intro packetsIn
        simp only [Lightweight.messageRecv, Lightweight.recvCount, hblock]
        rfl
      exact ⟨⟨[], []⟩, by rw [Message.send, if_pos hempty]; rfl, by simp, fun packetsIn =>
        ⟨_, [], hclosed packetsIn, by simp, rfl, by rw [hempty]; rfl⟩⟩
    · obtain ⟨hn, hfit, hcurrent, htotal⟩ := hcond.resolve_left hempty
      obtain ⟨s, contents, hsend, herr, hcur, new, hnew, hrun⟩ :=
        messageRecv_sent hcpp hlw iinletRank h hbo hempty hn hfit
      refine ⟨s, hsend, herr, fun packetsIn => ⟨_, new, hrun packetsIn, ?_, ?_, ?_⟩⟩
      · rw [if_pos htotal]
      · rw [if_pos htotal]
      · rw [hnew]
        exact hcur.mpr hcurrent

end ToLightweight
/-- The lazy decoding leaves the header fields alone. -/
lemma decodePdrData_fields {host : Host} {p q : Packet} (h : p.decodePdrData host = .ok q) :
    q.toHeaderFields = p.toHeaderFields := by
  unfold Packet.decodePdrData at h
  split_ifs at h
  · cases h
    rfl
  · cases h
    rfl
  · split at h
    · cases h
      rfl
    · obtain ⟨fmt, -, h⟩ := bind_ok_iff.mp h
      split at h
      · cases h
      · obtain ⟨⟨⟨retval, elems⟩, s⟩, -, h⟩ := bind_ok_iff.mp h
        dsimp only at h
        split_ifs at h <;> (cases h; rfl)

/-- A received packet with a format string has its header within `hdr_len` bytes. -/
lemma receive_room {host : Host} {hdrLen : BitVec 32} {hdr : List Byte} {bufLen : BitVec 64}
    {buf : Option (List Byte)} {iinletRank : BitVec 32} {p : Packet} {fmt : List Byte}
    (h : Packet.receive host hdrLen (some hdr) bufLen buf iinletRank = .ok p)
    (hfmt : p.fmtStr = some (fmt ++ [0])) : 26 + fmt.length ≤ hdrLen.toNat := by
  unfold Packet.receive Packet.decodePdrHeader at h
  split_ifs at h
  · cases h
    cases hfmt
  · simp only [Packet.blank] at h
    split at h
    · cases h
    · rename_i bo hlast
      have hlt := (List.getElem?_eq_some_iff.mp hlast).1
      split at h
      · rename_i fields s hget
        cases h
        have hroom := pdrPacketHeader_room host (by omega) rfl hget hfmt
        omega
      · cases h
        cases hfmt
      · cases h

/-- A message of one packet is received as that packet or not at all. -/
lemma recv_single {host : Host} (ha : host.Allocates) {iinletRank : BitVec 32}
    {pair : List Byte × List Byte} (hlt : ∀ bs ∈ bodyBufs [pair], bs.length < 2 ^ 64) {pad : Byte}
    {packetsIn : List Packet} {r : Received} {new : Packet}
    (h : recv host iinletRank packetsIn (messageForm host.bo [pair] pad) = .ok r)
    (hnew : r.packetsIn = packetsIn ++ [new]) : ReceivedAs host iinletRank pair new := by
  have hone : 2 * [pair].length < 2 ^ 32 := by simp
  have hform := recv_messageForm host iinletRank ha hone hlt packetsIn pad []
  rw [List.append_nil, h] at hform
  obtain ⟨p, hpub, hr⟩ := bind_ok_iff.mp hform.symm
  cases hr
  have hpackets : p.packets = [new] := by simpa using hnew
  simp only [List.length_singleton, bodyBufs, List.flatMap_singleton, pairBufs, List.map_cons,
    List.map_nil, publish, NCBuf.ofBytes,
    BitVec.setWidth_ofNat_of_le (by decide : 32 ≤ 64)] at hpub
  obtain ⟨newPacket, hrecv, hpub⟩ := bind_ok_iff.mp hpub
  split_ifs at hpub with herr
  · cases hpub
    cases hpackets
  · obtain ⟨rest, hrest, hpub⟩ := bind_ok_iff.mp hpub
    cases hrest
    cases hpub
    cases hpackets
    exact ⟨hrecv, Bool.eq_false_iff.mpr herr⟩

/-- A lightweight packet that the full implementation takes as it is. -/
structure Lightweight.Packet.Transferable (p : Lightweight.Packet) (elems : List DataElement) :
    Prop where
  header : ∀ hdr, p.hdr = some hdr → hdr.length < 2 ^ 32
  current : p.HeaderCurrent
  arrays : ∀ e ∈ elems, e.type.isShortArray → DataValue.arrayLen e.type e.val ≤ int32Max

section ToFull
variable {lw cpp : Host} (hlw : lw.Allocates) (hcpp : cpp.Allocates) (iinletRank : BitVec 32)
  {p : Lightweight.Packet} {elems : List DataElement}

/-- The header as far as `hdr_len` says, and the data. -/
lemma messageSend_bytes (hlw : lw.Allocates) {o : ByteOrder} {fields : HeaderFields}
    {fmt : List Byte} {short : ℕ} (henc : Encoded short o fmt elems ⟨p.buf, p.bufLen⟩)
    (hbytes : HeaderBytes o fields p.hdr p.hdrLen) :
    ∃ bufs pad, Lightweight.messageSend lw (some p) = .ok bufs ∧ bufs.flatten = messageForm lw.bo
      [((headerForm o fields).take p.hdrLen.toNat, elementsForm o elems)] pad := by
  refine Lightweight.messageSend_eq lw hlw ?_ henc.ncbuf
  have hw : (p.hdrLen.setWidth 64).toNat = p.hdrLen.toNat := by
    rw [BitVec.toNat_setWidth]
    omega
  have hle : p.hdrLen.toNat ≤ (headerForm o fields).length := by
    rw [hbytes.length, BitVec.toNat_ofNat]
    exact Nat.mod_le _ _
  rw [hbytes.form, NCBuf.bytes_some (by omega), hw]

lemma pair_length_lt {o : ByteOrder} {fields : HeaderFields} {fmt : List Byte} {short : ℕ}
    (henc : Encoded short o fmt elems ⟨p.buf, p.bufLen⟩) :
    ∀ bs ∈ bodyBufs [((headerForm o fields).take p.hdrLen.toNat, elementsForm o elems)],
      bs.length < 2 ^ 64 := by
  have hlen : p.bufLen.toNat = (elementsForm o elems).length := henc.length
  have hlt := p.bufLen.isLt
  have hlt' := p.hdrLen.isLt
  intro bs hbs
  simp only [bodyBufs, List.flatMap_singleton, pairBufs, List.mem_cons, List.not_mem_nil,
    or_false] at hbs
  rcases hbs with rfl | rfl
  · rw [List.length_take]
    omega
  · omega

/-- The short arrays of elements that the full implementation has decoded. -/
lemma decoded_arrays {p q : Packet} {fmt data : List Byte} (hdec : p.decoded = false)
    (herr : p.hasError = false) (hfmt : p.fmtStr = some (fmt ++ [0])) (hz : 0 ∉ fmt)
    (hbuf : p.buf = some data) (h0 : p.bufLen ≠ 0) (hlen : p.bufLen.toNat = data.length)
    (hnone : p.dataElements = []) (h : p.decodePdrData cpp = .ok q) (hq : q.hasError = false) :
    ∀ e ∈ q.dataElements, e.type.isShortArray → DataValue.arrayLen e.type e.val ≤ int32Max := by
  obtain ⟨es, s, hloop, rfl⟩ := (decodePdrData_ok_iff cpp hdec herr hfmt hz hbuf h0).mp ⟨h, hq⟩
  have hvalid : Cursor.Valid ⟨data, 0, p.bufLen.toNat⟩ := by simp [Cursor.Valid, hlen]
  obtain ⟨new, hes, hok, -⟩ := (decodeLoop_true_iff
    (pdrElement_decodes cpp (pdrmemCreate_fetches cpp p.byteorder)) hvalid).mp hloop
  rw [hnone, List.nil_append] at hes
  subst hes
  intro e he hshort
  exact (hok.2 e he).arrayLen_le hshort

include hlw hcpp

/-- A packet that arrives had a header of fewer than 2^32 bytes. -/
lemma ReachesFull.header_lt (h : p.Carries elems) (hbo : lw.bo = cpp.bo)
    (hr : ReachesFull lw cpp iinletRank p elems) :
    ∀ hdr, p.hdr = some hdr → hdr.length < 2 ^ 32 := by
  obtain ⟨o, fmt, fields, hfmt, henc, hbytes, hsame, hroom⟩ := h.encoded
  obtain ⟨bufs, pad, hsend, hwire⟩ := messageSend_bytes hlw henc hbytes
  obtain ⟨bufs', hsend', hrecv⟩ := hr
  rw [hsend] at hsend'
  cases hsend'
  obtain ⟨r, new, q, hrun, hin, -, hdec, -, hcontent⟩ := hrecv []
  rw [hwire, hbo] at hrun
  have hra := recv_single hcpp (pair_length_lt henc) hrun hin
  have hnew : new.fmtStr = some (fmt ++ [0]) := by
    rw [← hfmt, ← decodePdrData_fields hdec]
    exact congrArg Content.fmtStr hcontent
  have hle := receive_room hra.1 hnew
  have hlt := (BitVec.ofNat 32 ((headerForm o fields).take p.hdrLen.toNat).length).isLt
  intro hdr hhdr
  obtain rfl : headerForm o fields = hdr := Option.some.inj (hbytes.form.symm.trans hhdr)
  rcases hroom with hnone | hfit
  · rw [headerForm_length (hsame.trans hfmt), hnone, List.length_nil]
    omega
  · exact hfit

/-- The content arrives exactly if the packet is transferable. -/
theorem reachesFull_iff (h : p.Carries elems) (hbo : lw.bo = cpp.bo) :
    ReachesFull lw cpp iinletRank p elems ↔ p.Transferable elems := by
  obtain ⟨o, fmt, fields, hfmt, henc, hbytes, hsame, -⟩ := h.encoded
  obtain ⟨bufs, pad, hsend, hwire⟩ := messageSend_bytes hlw henc hbytes
  have hfields := hsame.trans hfmt
  have hlen : p.bufLen.toNat = (elementsForm o elems).length := henc.length
  have hlt := p.bufLen.isLt
  -- a header that fits is sent whole
  have hwhole (hfit : (headerForm o fields).length < 2 ^ 32) :
      (headerForm o fields).take p.hdrLen.toNat = headerForm o fields := by
    rw [hbytes.length, toNat_ofNat_length hfit, List.take_length]
  have hpair : ∀ bs ∈ bodyBufs [((headerForm o fields).take p.hdrLen.toNat, elementsForm o elems)],
      bs.length < 2 ^ 64 := pair_length_lt henc
  constructor
  · intro hr
    have hhdr := hr.header_lt hlw hcpp iinletRank h hbo
    have hfit := hhdr _ hbytes.form
    obtain ⟨bufs', hsend', hrecv⟩ := hr
    rw [hsend] at hsend'
    cases hsend'
    obtain ⟨r, new, q, hrun, hin, -, hdec, herr, hcontent⟩ := hrecv []
    rw [hwire, hbo] at hrun
    have hra := recv_single hcpp hpair hrun hin
    rw [hwhole hfit] at hra
    rw [headerForm_length hfields] at hfit
    have hra' := receivedAs_headerForm cpp iinletRank hcpp hbytes.byteorder hfields hfit
      (elementsForm o elems)
    obtain rfl := Except.ok.inj (hra.1.symm.trans hra'.1)
    have helems : q.dataElements = elems := congrArg Content.elems hcontent
    refine ⟨hhdr, ?_, ?_⟩
    · rw [Packet.content, decodePdrData_fields hdec, helems] at hcontent
      exact (hbytes.content_eq_iff hsame hfmt (hhdr _ hbytes.form)).mp hcontent
    · by_cases hnil : elementsForm o elems = []
      · rw [henc.sendable.eq_nil_of_form hnil]
        simp
      · have h0 : BitVec.ofNat 64 (elementsForm o elems).length ≠ 0 := by
          rw [ne_eq, ofNat_length_eq_zero_iff (by omega)]
          exact hnil
        rw [← helems]
        exact decoded_arrays rfl rfl hfields henc.sendable.plain rfl h0
          (toNat_ofNat_length (by omega)) rfl hdec herr
  · rintro ⟨hhdr, hcur, harr⟩
    have hfit := hhdr _ hbytes.form
    have hcontent : fields.content elems = p.toHeaderFields.toFull.content elems :=
      (hbytes.content_eq_iff hsame hfmt hfit).mpr hcur
    rw [hwhole hfit] at hwire hpair
    have hspell : Spells int32Max o fields fmt elems (headerForm o fields, elementsForm o elems) := by
      refine ⟨rfl, hbytes.byteorder, hfields, ?_, ?_, henc.shortStrings, rfl, ?_⟩
      · rw [← headerForm_length hfields]
        exact hfit
      · exact ⟨henc.sendable.plain, henc.sendable.recognised, henc.sendable.matching, fun e he =>
          ⟨harr e he, (henc.sendable.wellFormed e he).2⟩⟩
      · dsimp only
        omega
    obtain ⟨new, q, hra, hdec, herr, hq⟩ := receivedAs_spelled cpp hcpp iinletRank hspell
    refine ⟨bufs, hsend, fun packetsIn => ?_⟩
    obtain ⟨r, hrun, -, hin, hrest⟩ := recv_message cpp iinletRank hcpp (by simp) hpair
      (.cons hra .nil) packetsIn pad []
    rw [List.append_nil, ← hbo, ← hwire] at hrun
    exact ⟨r, new, q, hrun, hin, hrest, hdec, herr, hq.trans hcontent⟩

end ToFull
/-- Between nodes of one byte order the contents of the packets of a message, and
that of a lightweight packet, arrive exactly if they are transferable. -/
theorem implementations_interoperate {cpp lw : Host} (hcpp : cpp.Allocates) (hlw : lw.Allocates)
    (hbo : cpp.bo = lw.bo) (iinletRank : BitVec 32) {msg : Message}
    {elems : List (List DataElement)} (h : List.Forall₂ (Packet.Carries cpp) msg.packets elems)
    {p : Lightweight.Packet} {es : List DataElement} (hp : p.Carries es) :
    (ReachesLightweight cpp lw iinletRank msg elems ↔
      msg.packets = [] ∨ Transferable msg.packets) ∧
    (ReachesFull lw cpp iinletRank p es ↔ p.Transferable es) :=
  ⟨reachesLightweight_iff hcpp hlw iinletRank h hbo, reachesFull_iff hlw hcpp iinletRank hp hbo.symm⟩

lemma castLoss_mul_le (n : ℕ) : Lightweight.castLoss n * 2 ^ 31 ≤ n := by
  unfold Lightweight.castLoss
  omega

/-- In a message of fewer than 2^63 bytes the total is right exactly if each buffer
has fewer than 2^31. -/
theorem total_iff_small {lens : List ℕ} (hsum : lens.sum < 2 ^ 63) :
    2 ^ 32 ∣ (lens.map Lightweight.castLoss).sum ↔ ∀ n ∈ lens, n < 2 ^ 31 := by
  have hle : (lens.map Lightweight.castLoss).sum * 2 ^ 31 ≤ lens.sum := by
    clear hsum
    induction lens with
    | nil => simp
    | cons n lens ih =>
        rw [List.map_cons, List.sum_cons, List.sum_cons, Nat.add_mul]
        exact Nat.add_le_add (castLoss_mul_le n) ih
  have hzero : ∀ n, Lightweight.castLoss n = 0 ↔ n < 2 ^ 31 := by
    intro n
    unfold Lightweight.castLoss
    omega
  constructor
  · intro hdvd n hn
    have hsum0 : (lens.map Lightweight.castLoss).sum = 0 :=
      Nat.eq_zero_of_dvd_of_lt hdvd (by omega)
    exact (hzero n).mp (List.sum_eq_zero_iff.mp hsum0 _ (List.mem_map_of_mem hn))
  · intro h
    have hsum0 : (lens.map Lightweight.castLoss).sum = 0 := by
      rw [List.sum_eq_zero_iff]
      intro k hk
      obtain ⟨n, hn, rfl⟩ := List.mem_map.mp hk
      exact (hzero n).mpr (h n hn)
    rw [hsum0]
    exact dvd_zero _

/-- A message with one packet. -/
lemma transferable_single {p : Packet} (hcur : p.HeaderCurrent)
    (hsum : (bufferSizes [p]).sum < 2 ^ 32)
    (hsmall : ∀ n ∈ bufferSizes [p], n < 2 ^ 31) : Transferable [p] where
  count := by simp
  headers := by
    intro p' hp
    rw [List.mem_singleton.mp hp]
    have hlt := hsmall p.headerSize (by simp [bufferSizes])
    omega
  current := by
    intro p' hp
    rw [List.mem_singleton.mp hp]
    exact hcur
  total := (total_iff_small (by omega)).mpr hsmall

/-- The number 7 from a node of each implementation to the other. -/
theorem implementations_interoperate_number : ∃ p q,
    Packet.create (Host.ample .little) 0 1 100 (some (ascii ['%', 'd']))
      [⟨.int32, (7 : BitVec 32)⟩] = .ok p ∧
    Lightweight.newPacket (Host.ample .little) 3 1 100 (ascii ['%', 'd'])
      [⟨.int32, (7 : BitVec 32)⟩] = .ok (some q) ∧
    ReachesLightweight (Host.ample .little) (Host.ample .little) 0 (Message.of [p])
      [[⟨.int32, (7 : BitVec 32)⟩]] ∧
    ReachesFull (Host.ample .little) (Host.ample .little) 0 q [⟨.int32, (7 : BitVec 32)⟩] := by
  have ha := Host.ample_allocates .little
  have hsend (short : ℕ) : Sendable short (ascii ['%', 'd']) [⟨.int32, (7 : BitVec 32)⟩] :=
    sendable_single rfl short (by decide) (by decide) rfl rfl
  have hs : ∀ e ∈ [(⟨.int32, (7 : BitVec 32)⟩ : DataElement)], e.ShortStrings :=
    shortStrings_single rfl
  have hlt : (elementsForm .little [⟨.int32, (7 : BitVec 32)⟩]).length < 2 ^ 64 := by decide
  obtain ⟨p, hp, hcarry, hcur, hsizes, -⟩ :=
    create_carries (Host.ample .little) ha 0 1 100 hs hlt (hsend _)
  obtain ⟨q, hq, hcarry', hcur', hlen, -⟩ :=
    newPacket_carries (Host.ample .little) ha 3 1 100 hs hlt (hsend _) (by decide)
  have hall : List.Forall₂ (Packet.Carries (Host.ample .little)) (Message.of [p]).packets
      [[⟨.int32, (7 : BitVec 32)⟩]] := .cons hcarry .nil
  obtain ⟨hdown, hup⟩ := implementations_interoperate ha ha rfl 0 hall hcarry'
  refine ⟨p, q, hp, hq, hdown.mpr (Or.inr (transferable_single hcur ?_ ?_)), hup.mpr ⟨?_, hcur', ?_⟩⟩
  · rw [hsizes]
    decide
  · rw [hsizes]
    decide
  · intro hdr hhdr
    rw [hlen hdr hhdr]
    decide
  · intro e he hshort
    rw [List.mem_singleton.mp he] at hshort
    cases hshort

/-- A character array that goes through an `int` as a negative number. -/
def wideBytes : CArray Byte 1 where
  data := List.replicate (2 ^ 31) 0
  fits := by rw [List.length_replicate]; decide

lemma elementsForm_chars_length {o : ByteOrder} {v : CArray Byte 1} {n : ℕ}
    (hn : v.data.length = n) : (elementsForm o [⟨.charLrgArray, v⟩]).length = n + 8 := by
  have hform : elementsForm o [⟨.charLrgArray, v⟩] = arrayForm o (fun b => [b]) v.data ++ [] := rfl
  rw [hform, arrayForm, List.append_nil, List.length_append, nativeBytes_length]
  simp [hn]
  omega

theorem wideBytes_not_reached : ∃ p,
    Packet.create (Host.ample .little) 0 1 100 (some (ascii ['%', 'A', 'c']))
      [⟨.charLrgArray, wideBytes⟩] = .ok p ∧
    ¬ ReachesLightweight (Host.ample .little) (Host.ample .little) 0 (Message.of [p])
      [[⟨.charLrgArray, wideBytes⟩]] := by
  have ha := Host.ample_allocates .little
  have hlen : (elementsForm .little [⟨.charLrgArray, wideBytes⟩]).length = 2 ^ 31 + 8 :=
    elementsForm_chars_length (by exact List.length_replicate)
  have hlt : (elementsForm .little [⟨.charLrgArray, wideBytes⟩]).length < 2 ^ 64 := by
    rw [hlen]
    decide
  obtain ⟨p, hp, hcarry, -, hsizes, -⟩ := create_carries (Host.ample .little) ha 0 1 100
    (shortStrings_single rfl) hlt
    (sendable_single rfl _ (by decide) (by decide : Recognised (ascii ['%', 'A', 'c'])) rfl rfl)
  refine ⟨p, hp, fun hreach => ?_⟩
  have hall : List.Forall₂ (Packet.Carries (Host.ample .little)) (Message.of [p]).packets
      [[⟨.charLrgArray, wideBytes⟩]] := .cons hcarry .nil
  have hcond := (reachesLightweight_iff ha ha 0 hall rfl).mp hreach
  have htotal := (hcond.resolve_left (List.cons_ne_nil _ _)).total
  rw [Message.of, hsizes.trans (congrArg (fun n => [29, n]) hlen)] at htotal
  revert htotal
  decide

end MRNet.Wire
