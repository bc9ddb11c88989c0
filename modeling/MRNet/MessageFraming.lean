import MRNet.MessageForms

/-!
# Framing between hosts

A message survives the way from one host to another exactly if the byte orders
agree: the count carries a flag, but the sizes are read in the receiver's order.
-/
namespace MRNet.Wire
open NativeBytes Codec

/-- What is received from the bytes that `send` puts on the wire are the header and
data bytes of the packets sent, and nothing is left over. -/
def FramingRoundTrips (sender receiver : Host) (iinletRank : BitVec 32) (msg : Message) : Prop :=
  ∃ s, msg.send sender = .ok s ∧ msg.packets.mapM (Packet.prepare sender) = .ok s.packets ∧
    ∀ packetsIn, ∃ r new, recv receiver iinletRank packetsIn s.wire = .ok r ∧
      r.packetsIn = packetsIn ++ new ∧ new.map Packet.bytes = s.packets.map Packet.bytes ∧
      r.rest = []

/-- With 2^31 - 1 packets or more the buffers do not fit in `ncbufs`. -/
lemma send_outside (host : Host) {msg : Message} (hn : 2 ^ 32 ≤ 2 * msg.packets.length + 2) :
    ∀ s, msg.send host ≠ .ok s := by
  intro s hsend
  have hne : msg.packets ≠ [] := by
    intro h
    simp [h] at hn
  have hlt := (BitVec.ofNat 32 msg.packets.length * 2 + 2).isLt
  rw [Message.send, if_neg hne] at hsend
  dsimp only at hsend
  split at hsend
  · obtain ⟨g, hg, -⟩ := bind_ok_iff.mp hsend
    refine gather_outside host 0 hne ?_ g hg
    unfold messagePreallocLen
    split_ifs <;> omega
  · cases hsend

/-- All packets of a message can be prepared. -/
lemma mapM_prepare (host : Host) (ha : host.Allocates) {pkts : List Packet}
    (h : ∀ p ∈ pkts, p.Ready) :
    ∃ qs, pkts.mapM (Packet.prepare host) = .ok qs ∧ ∀ q ∈ qs, q.Loaded := by
  obtain ⟨qs, hq⟩ := forall₂_of_exists fun p hp => (h p hp).prepare host ha
  refine ⟨qs, mapM_ok_iff.mpr (hq.imp fun _ _ h => h.1), fun q hmem => ?_⟩
  obtain ⟨p, -, -, hload⟩ := forall₂_exists_of_mem hq.flip hmem
  exact hload

lemma loaded_length_lt {qs : List Packet} (h : ∀ q ∈ qs, q.Loaded) :
    ∀ bs ∈ bodyBufs (qs.map Packet.bytes), bs.length < 2 ^ 64 := by
  intro bs hbs
  simp only [bodyBufs, List.mem_flatMap, List.mem_map, pairBufs, List.mem_cons,
    List.not_mem_nil, or_false] at hbs
  obtain ⟨_, ⟨q, hq, rfl⟩, rfl | rfl⟩ := hbs
  · have hl := (h q hq).header_bytes.1.length
    omega
  · rcases (h q hq).data with h0 | ⟨block, hp, hlen⟩
    · simp [Packet.bytes, h0]
    · have hlt := q.bufLen.isLt
      simp [Packet.bytes, hp, hlen]
      omega

/-- Loaded packets are received with their bytes. -/
lemma received_pairs (receiver : Host) (hr : receiver.Allocates) (iinletRank : BitVec 32)
    {qs : List Packet} (h : ∀ q ∈ qs, q.Loaded) :
    ∃ ps, List.Forall₂ (ReceivedAs receiver iinletRank) (qs.map Packet.bytes) ps ∧
      ps.map Packet.bytes = qs.map Packet.bytes := by
  have hall : ∀ pair ∈ qs.map Packet.bytes, ∃ p,
      ReceivedAs receiver iinletRank pair p ∧ pair = p.bytes := by
    intro pair hpair
    obtain ⟨q, hq, rfl⟩ := List.mem_map.mp hpair
    have hlt : q.bytes.2.length < 2 ^ 64 :=
      loaded_length_lt h _ (List.mem_flatMap.mpr ⟨q.bytes, hpair, by simp [pairBufs]⟩)
    obtain ⟨p, hp, hb⟩ := (h q hq).header_bytes.1.receivedAs receiver iinletRank hr hlt
    exact ⟨p, hp, hb.symm⟩
  obtain ⟨ps, hps⟩ := forall₂_of_exists hall
  have heq : List.Forall₂ Eq (qs.map Packet.bytes) (ps.map Packet.bytes) :=
    List.forall₂_map_right_iff.mpr (hps.imp fun _ _ h => h.2)
  rw [List.forall₂_eq_eq_eq] at heq
  exact ⟨ps, hps.imp fun _ _ h => h.1, heq.symm⟩

/-- A size whose low 32 bits are 0 gives a packet without a header. -/
lemma publish_headless (host : Host) (iinletRank : BitVec 32) {h : NCBuf} {bufs : List NCBuf}
    (h0 : h.len.setWidth 32 = 0) {todo i : ℕ} {p : Published}
    (hp : publish host iinletRank todo i (h :: bufs) = .ok p) :
    ∀ q ∈ p.packets.head?, q.bytes.1 = [] := by
  cases todo with
  | zero =>
      cases hp
      simp
  | succ todo =>
      cases bufs with
      | nil => cases hp
      | cons d bufs =>
          have hrecv : Packet.receive host (h.len.setWidth 32) h.buf d.len d.buf iinletRank =
              .ok (Packet.blank 0 h.buf d.len d.buf iinletRank) := by rw [h0]; rfl
          rw [publish, hrecv, ok_bind, if_neg (by simp [Packet.blank])] at hp
          obtain ⟨r, -, hr⟩ := bind_ok_iff.mp hp
          cases hr
          simp [Packet.blank, Packet.bytes]

/-- Where the low 32 bits of the first size are 0, the first packet, if there is
one, has no header. -/
theorem recv_headless (host : Host) (ha : host.Allocates) (iinletRank : BitVec 32)
    {stream body : List Byte} {n : BitVec 32} {size : BitVec 64} {sizes : List (BitVec 64)}
    (hf : Framed host stream ⟨n, size :: sizes⟩ body) (h0 : size.setWidth 32 = 0)
    {packetsIn : List Packet} {r : Received}
    (hr : recv host iinletRank packetsIn stream = .ok r) :
    ∃ new, r.packetsIn = packetsIn ++ new ∧ ∀ q ∈ new.head?, q.bytes.1 = [] := by
  rw [recv, recvSizes_framed host hf (Or.inr (ha _)) (Or.inr (ha _)), ok_bind] at hr
  obtain ⟨b, bufs, hbufs, hlen⟩ : ∃ b bufs, (recvBufs (allocBufs host (size :: sizes)) body).1 =
      b :: bufs ∧ b.len = size := by
    have hshape := recvBufs_shape (allocBufs host (size :: sizes)) body
    generalize (recvBufs (allocBufs host (size :: sizes)) body).1 = filled at hshape ⊢
    cases filled with
    | nil => simp [allocBufs] at hshape
    | cons b bufs =>
        simp only [allocBufs, List.map_cons, List.cons.injEq] at hshape
        exact ⟨b, bufs, rfl, congrArg Prod.fst hshape.1⟩
  dsimp only at hr
  split_ifs at hr with htotal
  · cases hr
    exact ⟨[], by simp, by simp⟩
  · obtain ⟨p, hp, hr⟩ := bind_ok_iff.mp hr
    cases hr
    rw [hbufs] at hp
    exact ⟨p.packets, rfl, publish_headless host iinletRank (by rw [hlen]; exact h0) hp⟩

/-- The sizes as a receiver of the other byte order takes them. -/
lemma framed_flip (receiver : Host) {o : ByteOrder} (ho : receiver.bo = o.flip)
    (pairs : List (List Byte × List Byte)) (hn : 2 * pairs.length < 2 ^ 32) (pad : Byte) :
    Framed receiver (messageForm o pairs pad)
      ⟨BitVec.ofNat 32 pairs.length, (announce pairs).sizes.map fun size =>
        nativeValue o.flip 64 (nativeBytes o size)⟩ (bodyBufs pairs).flatten := by
  have hflat : ∀ sizes : List (BitVec 64),
      (sizes.map fun size => nativeValue o.flip 64 (nativeBytes o size)).flatMap
        (nativeBytes o.flip) = sizes.flatMap (nativeBytes o) := by
    intro sizes
    rw [List.flatMap_map]
    refine congrArg (fun f => List.flatMap f sizes) (funext fun size => ?_)
    exact nativeBytes_nativeValue _ (by decide) _ (nativeBytes_length _ _)
  refine ⟨?_, pdrByteorder o, pad, ?_⟩
  · rw [numBuffers_toNat hn, List.length_map, announce, List.length_map, bodyBufs_length]
  · rw [messageForm, headingForm, headingForm, decodeOrder_pdrByteorder, ho, hflat]
    rfl

section RoundTrip
variable {sender receiver : Host} (hs : sender.Allocates) (hr : receiver.Allocates)
  (iinletRank : BitVec 32) {msg : Message} (hready : ∀ p ∈ msg.packets, p.Ready)
include hs hr hready

/-- Between hosts of different byte order the first header is lost. -/
lemma FramingRoundTrips.orders_agree (h : FramingRoundTrips sender receiver iinletRank msg)
    (hne : msg.packets ≠ []) (hn : 2 * msg.packets.length + 2 < 2 ^ 32) :
    sender.bo = receiver.bo := by
  by_contra hbo
  obtain ⟨s, hsend, hprep, hrecv⟩ := h
  obtain ⟨qs, hq, hload⟩ := mapM_prepare sender hs hready
  have hql := mapM_length hq
  obtain ⟨s', pad, hsend', hs', hwire⟩ := send_eq sender hs hne hn hq hload
  rw [hsend] at hsend'
  cases hsend'
  obtain ⟨r, new, hrun, hin, hbytes, -⟩ := hrecv []
  cases qs with
  | nil => exact hne (List.eq_nil_of_length_eq_zero hql.symm)
  | cons q qs =>
      -- the first size is below 2^32, so that the half of it that is kept is 0
      have hhdr := (hload q (by simp)).header_bytes.1.length
      have hfr := framed_flip receiver (o := sender.bo)
        (ByteOrder.eq_flip_of_ne (Ne.symm hbo)) ((q :: qs).map Packet.bytes)
        (by rw [List.length_map, hql]; omega) pad
      rw [← hwire] at hfr
      obtain ⟨new', hin', hhead⟩ := recv_headless receiver hr iinletRank hfr
        (nativeValue_flip_low sender.bo (by rw [toNat_ofNat_length (by omega)]; omega)) hrun
      rw [hin] at hin'
      obtain rfl : new = new' := by simpa using hin'
      rw [hs'] at hbytes
      cases new with
      | nil => simp at hbytes
      | cons p new =>
          simp only [List.map_cons, List.cons.injEq] at hbytes
          have hempty := hhead p (by simp)
          rw [hbytes.1] at hempty
          rw [hempty] at hhdr
          simp at hhdr

lemma framingRoundTrips_of_agree (hbo : sender.bo = receiver.bo) (hne : msg.packets ≠ [])
    (hn : 2 * msg.packets.length + 2 < 2 ^ 32) :
    FramingRoundTrips sender receiver iinletRank msg := by
  obtain ⟨qs, hq, hload⟩ := mapM_prepare sender hs hready
  have hql := mapM_length hq
  obtain ⟨s, pad, hsend, hs', hwire⟩ := send_eq sender hs hne hn hq hload
  have hlt := loaded_length_lt hload
  obtain ⟨ps, hps, hbytes⟩ := received_pairs receiver hr iinletRank hload
  refine ⟨s, hsend, by rw [hs']; exact hq, fun packetsIn => ?_⟩
  obtain ⟨r, hrun, -, hin, hrest⟩ := recv_message receiver iinletRank hr
    (by rw [List.length_map, hql]; omega) hlt hps packetsIn pad []
  rw [List.append_nil, ← hbo, ← hwire] at hrun
  exact ⟨r, ps, hrun, hin, by rw [hbytes, hs'], hrest⟩

/-- Messages survive the wire exactly between hosts of one byte order, as long as
the number of buffers fits in 32 bits. -/
theorem framing_round_trip : FramingRoundTrips sender receiver iinletRank msg ↔
    msg.packets = [] ∨ (sender.bo = receiver.bo ∧ 2 * msg.packets.length + 2 < 2 ^ 32) := by
  constructor
  · intro h
    refine or_iff_not_imp_left.mpr fun hne => ?_
    have hn : 2 * msg.packets.length + 2 < 2 ^ 32 := by
      obtain ⟨s, hsend, -⟩ := h
      by_contra hn
      exact send_outside sender (not_lt.mp hn) s hsend
    exact ⟨h.orders_agree hs hr iinletRank hready hne hn, hn⟩
  · intro h
    by_cases hempty : msg.packets = []
    · have hshort : ∀ packetsIn, recv receiver iinletRank packetsIn [] =
          .ok ⟨-1, packetsIn, [], [], [], []⟩ := fun _ => rfl
      exact ⟨⟨[], []⟩, by rw [Message.send, if_pos hempty]; rfl, by rw [hempty]; rfl,
        fun packetsIn => ⟨_, [], hshort packetsIn, by simp, rfl, rfl⟩⟩
    · obtain ⟨hbo, hn⟩ := h.resolve_left hempty
      exact framingRoundTrips_of_agree hs hr iinletRank hready hbo hempty hn

end RoundTrip

/-- A message with the given packets in buffers that were never used. -/
def Message.of (packets : List Packet) : Message where
  packets := packets
  packetCountBuf := List.replicate 5 0
  packetSizesBuf := List.replicate (8 * messagePreallocLen + 1) 0
  packetCountBuf_length := List.length_replicate
  packetSizesBuf_length := List.length_replicate

lemma bareHeader_ready (fmt : List Byte) (hz : 0 ∉ fmt) (dests : CArray (BitVec 32) 4)
    (hfit : 26 + fmt.length + 4 * dests.data.length < 2 ^ 32) : (bareHeader fmt dests).Ready :=
  ⟨Or.inl ⟨rfl, fmt, rfl, hz, hfit⟩, Or.inl rfl⟩

lemma bareMessage_ready :
    ∀ p ∈ (Message.of [bareHeader [] CArray.empty]).packets, p.Ready := by
  intro p hp
  rw [Message.of, List.mem_singleton] at hp
  rw [hp]
  exact bareHeader_ready [] (by simp) _ (by decide)

/-- An integer for two destinations, two strings in their encoded form, and a packet without data. -/
def mixedMessage : Message := Message.of
  [{ bareHeader (ascii ['%', 'd']) ⟨[3, 4], by decide⟩ with buf := some [1, 2, 3, 4], bufLen := 4 },
    { bareHeader (ascii ['%', 's', ' ', '%', 's']) CArray.empty with
      buf := some [2, 0, 0, 0, 97, 0, 1, 0, 0, 0, 0], bufLen := 11 },
    bareHeader [] CArray.empty]

lemma mixedMessage_ready : ∀ p ∈ mixedMessage.packets, p.Ready := by
  intro p hp
  rcases List.mem_cons.mp hp with rfl | hp
  · exact ⟨(bareHeader_ready (ascii ['%', 'd']) (by decide) _ (by decide)).header,
      .inr ⟨_, rfl, by decide⟩⟩
  rcases List.mem_cons.mp hp with rfl | hp
  · exact ⟨(bareHeader_ready (ascii ['%', 's', ' ', '%', 's']) (by decide) _ (by decide)).header,
      .inr ⟨_, rfl, by decide⟩⟩
  rw [List.mem_singleton.mp hp]
  exact bareHeader_ready [] (by simp) _ (by decide)

/-- Three packets, two of them with data. -/
theorem framing_round_trip_mixed : FramingRoundTrips (Host.ample .little) (Host.ample .little) 7
    mixedMessage :=
  (framing_round_trip (Host.ample_allocates _) (Host.ample_allocates _) 7 mixedMessage_ready).mpr
    (Or.inr ⟨rfl, by decide⟩)

theorem framing_not_round_trip : ¬ FramingRoundTrips (Host.ample .little) (Host.ample .big) 7
    (Message.of [bareHeader [] CArray.empty]) := by
  intro h
  have hbo := h.orders_agree (Host.ample_allocates _) (Host.ample_allocates _) 7 bareMessage_ready
    (by simp [Message.of]) (by decide)
  cases hbo

end MRNet.Wire
