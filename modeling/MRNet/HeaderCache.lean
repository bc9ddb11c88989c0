import MRNet.MessageForms

/-!
# The cached header of a packet

A packet encodes its header when it is first sent and keeps the bytes. The setters
and the two functions that send a packet change the fields and leave the bytes as
they are. The runs here are those of one packet object: its operations in any
order, and the calls of `Message::send` that find it in their queue.
-/
namespace MRNet.Wire.HeaderCache
open NativeBytes Codec

/-- The node the packet is sent from. -/
structure Node where
  host : Host
  localRank : BitVec 32
  isFrontEnd : Bool

/-- `networkSend` is `Network::send` and `streamSend` is `Stream::send` of a stream
with the given id. Both add the packet to the messages of `outlets` peers, which
`messageSend` then sends one at a time. -/
inductive Op where
  | setTag (itag : BitVec 32)
  | setStreamId (istreamId : BitVec 32)
  | setDestinations (bes : CArray (BitVec 32) 4)
  | networkSend (ibe : BitVec 32) (outlets : ℕ)
  | streamSend (id : BitVec 32) (outlets : ℕ)
  | messageSend

structure State where
  packet : Packet
  queued : ℕ

/-- Header bytes on the wire, with the packet at the time they are sent. -/
structure Emission where
  hdr : List Byte
  packet : Packet

/-- The destination list of `Network::send`. -/
def oneDestination (ibe : BitVec 32) : CArray (BitVec 32) 4 := ⟨[ibe], by simp⟩

section Model
variable (node : Node)

def networkSend (p : Packet) (ibe : BitVec 32) : Packet :=
  (p.setDestinations (oneDestination ibe)).setSourceRank node.localRank

def streamSend (p : Packet) (id : BitVec 32) : Packet :=
  (p.setSourceRank node.localRank).setStreamId id

def step (s : State) : Op → Outcome (State × List Emission)
  | .setTag itag => return ({ s with packet := s.packet.setTag itag }, [])
  | .setStreamId id => return ({ s with packet := s.packet.setStreamId id }, [])
  | .setDestinations bes => return ({ s with packet := s.packet.setDestinations bes }, [])
  | .networkSend ibe outlets =>
      if node.isFrontEnd then return (⟨networkSend node s.packet ibe, s.queued + outlets⟩, [])
      else return (s, [])
  | .streamSend id outlets =>
      if s.packet.hasError then return (s, [])
      else return (⟨streamSend node s.packet id, s.queued + outlets⟩, [])
  | .messageSend =>
      if s.queued = 0 then return (s, [])
      else do
        let packet ← s.packet.prepare node.host
        return (⟨packet, s.queued - 1⟩, [⟨packet.bytes.1, packet⟩])

def run : List Op → State → Outcome (State × List Emission)
  | [], s => return (s, [])
  | op :: ops, s => do
      let (s, es) ← step node s op
      let (s, es') ← run ops s
      return (s, es ++ es')

end Model

/-- The header decodes to the fields that the packet has when it is sent. -/
def Current (receiver : Host) (e : Emission) : Prop :=
  ∃ r, Packet.receive receiver (BitVec.ofNat 32 e.hdr.length) (some e.hdr) 0 none unknownRank =
      .ok r ∧ r.hasError = false ∧
    (r.streamId, r.tag, r.srcRank, r.fmtStr, r.destArr) =
      (e.packet.streamId, e.packet.tag, e.packet.srcRank, e.packet.fmtStr, e.packet.destArr)

/-- A step that changes no field of a packet that has its header bytes already, and
encodes no header of 2^32 bytes or more. -/
def Harmless (node : Node) (s : State) : Op → Prop
  | .setTag itag => s.packet.hdrLen = 0 ∨ itag = s.packet.tag
  | .setStreamId id => s.packet.hdrLen = 0 ∨ id = s.packet.streamId
  | .setDestinations bes => s.packet.hdrLen = 0 ∨ bes = s.packet.destArr
  | .networkSend ibe _ => node.isFrontEnd = false ∨ s.packet.hdrLen = 0 ∨
      (oneDestination ibe = s.packet.destArr ∧ node.localRank = s.packet.srcRank)
  | .streamSend id _ => s.packet.hasError = true ∨ s.packet.hdrLen = 0 ∨
      (node.localRank = s.packet.srcRank ∧ id = s.packet.streamId)
  | .messageSend => s.queued = 0 ∨ s.packet.hdrLen ≠ 0 ∨
      25 + (s.packet.fmtStr.getD []).length + 4 * s.packet.destArr.data.length < 2 ^ 32

/-- The invariant: there are no header bytes yet, or they are the form of the fields. -/
def CacheCurrent (p : Packet) : Prop :=
  (p.hdrLen = 0 ∧ ∃ fmt, p.fmtStr = some (fmt ++ [0]) ∧ 0 ∉ fmt) ∨
  ∃ o fmt, p.byteorder = pdrByteorder o ∧ p.fmtStr = some (fmt ++ [0]) ∧
    26 + fmt.length + 4 * p.destArr.data.length < 2 ^ 32 ∧
    p.hdr = some (headerForm o p.toHeaderFields) ∧
    p.hdrLen = BitVec.ofNat 32 (headerForm o p.toHeaderFields).length

/-- The setters keep the format string and the header bytes. -/
lemma CacheCurrent.update {p q : Packet} (h : CacheCurrent p) (hlen : q.hdrLen = p.hdrLen)
    (hfmt : q.fmtStr = p.fmtStr) (hsame : p.hdrLen = 0 ∨ q = p) : CacheCurrent q := by
  rcases hsame with h0 | rfl
  · rcases h with ⟨-, hplain⟩ | ⟨o, fmt, hbo, hf, hlt, -, hl⟩
    · exact Or.inl ⟨by rw [hlen, h0], by rw [hfmt]; exact hplain⟩
    · have hne := WellFormedHeader.hdrLen_ne_zero ⟨o, p.toHeaderFields, fmt, rfl, hbo, hf, hlt⟩
      exact absurd (hl.symm.trans h0) hne
  · exact h

/-- A front-end on a little-endian machine. -/
def frontEnd : Node := ⟨Host.ample .little, 0, true⟩

/-- Header bytes of other fields are stale for every receiver. -/
lemma not_current_of_changed {p q : Packet} (h : CacheCurrent p) (hne : p.hdrLen ≠ 0)
    (hhdr : q.hdr = p.hdr) (hlen : q.hdrLen = p.hdrLen)
    (hdiff : (p.streamId, p.tag, p.srcRank, p.fmtStr, p.destArr) ≠
      (q.streamId, q.tag, q.srcRank, q.fmtStr, q.destArr))
    {receiver : Host} (hr : receiver.Allocates) : ¬ Current receiver ⟨q.bytes.1, q⟩ := by
  rintro ⟨r, hrun, -, hsame⟩
  obtain ⟨o, fmt, hbo, hfmt, hfit, hp, hpl⟩ := h.resolve_left fun h0 => hne h0.1
  obtain ⟨-, -, hread, -⟩ := headerForm_reads receiver hr hbo hfmt hfit
  obtain ⟨r', hrun', hfields, -⟩ := hread unknownRank
  have hn : (BitVec.ofNat 32 (headerForm o p.toHeaderFields).length).toNat = _ :=
    toNat_ofNat_length (by rw [headerForm_length hfmt]; exact hfit)
  have hbytes : q.bytes.1 = headerForm o p.toHeaderFields := by
    rw [Packet.bytes, hhdr, hlen, hp, hpl, hn, Option.getD_some, List.take_length]
  dsimp only at hrun
  rw [hbytes, hrun'] at hrun
  cases hrun
  apply hdiff
  rw [← hsame, hfields]

/-- After a step that is not harmless, the packet is stale if it is sent next. -/
theorem step_stale {node : Node} {s s' : State} (h : CacheCurrent s.packet) {op : Op}
    {es : List Emission} (hstep : step node s op = .ok (s', es)) (hop : ¬Harmless node s op)
    (hset : op ≠ .messageSend) {receiver : Host} (hr : receiver.Allocates) :
    s'.packet.prepare node.host = .ok s'.packet ∧
      ¬ Current receiver ⟨s'.packet.bytes.1, s'.packet⟩ := by
  -- every such step keeps the header bytes and changes a field
  obtain ⟨hne, hhdr, hlen, hdiff⟩ : s.packet.hdrLen ≠ 0 ∧ s'.packet.hdr = s.packet.hdr ∧
      s'.packet.hdrLen = s.packet.hdrLen ∧
      (s.packet.streamId, s.packet.tag, s.packet.srcRank, s.packet.fmtStr, s.packet.destArr) ≠
        (s'.packet.streamId, s'.packet.tag, s'.packet.srcRank, s'.packet.fmtStr,
          s'.packet.destArr) := by
    cases op with
    | setTag itag =>
        cases hstep
        obtain ⟨hne, hd⟩ := not_or.mp hop
        exact ⟨hne, rfl, rfl, fun e => hd (by injection e with _ e; injection e with e; exact e.symm)⟩
    | setStreamId id =>
        cases hstep
        obtain ⟨hne, hd⟩ := not_or.mp hop
        exact ⟨hne, rfl, rfl, fun e => hd (by injection e with e; exact e.symm)⟩
    | setDestinations bes =>
        cases hstep
        obtain ⟨hne, hd⟩ := not_or.mp hop
        refine ⟨hne, rfl, rfl, fun e => hd ?_⟩
        simp only [Prod.mk.injEq] at e
        exact e.2.2.2.2.symm
    | networkSend ibe outlets =>
        simp only [Harmless, not_or, Bool.not_eq_false] at hop
        obtain ⟨hfe, hne, hd⟩ := hop
        rw [step, if_pos hfe] at hstep
        cases hstep
        refine ⟨hne, rfl, rfl, fun e => hd ?_⟩
        simp only [Prod.mk.injEq] at e
        exact ⟨e.2.2.2.2.symm, e.2.2.1.symm⟩
    | streamSend id outlets =>
        simp only [Harmless, not_or] at hop
        obtain ⟨herr, hne, hd⟩ := hop
        rw [step, if_neg herr] at hstep
        cases hstep
        refine ⟨hne, rfl, rfl, fun e => hd ?_⟩
        simp only [Prod.mk.injEq] at e
        exact ⟨e.2.2.1.symm, e.1.symm⟩
    | messageSend => exact absurd rfl hset
  exact ⟨by rw [Packet.prepare, if_neg (by rw [hlen]; exact hne)],
    not_current_of_changed h hne hhdr hlen hdiff hr⟩

end MRNet.Wire.HeaderCache
