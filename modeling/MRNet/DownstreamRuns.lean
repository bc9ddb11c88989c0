import MRNet.DownstreamStreams

/-!
# The same streams at all nodes

What a node sends to a child for an item keeps the streams of the child like its own: the child
finds the stream of every packet, and the two have the same parameters if the child is on the
stream.
-/
namespace MRNet.Downstream
open Forest FifoTree StreamPeers Relay
open Wire (Packet)
open WaitForAll (Rank)

variable {N S : Type} {net : Network N S} {n c p : N} {s s' sp sc : NodeState N S}

/-- The stream that a packet from the parent is about. -/
def Message.streamId? : Message → Option (BitVec 32)
  | .newStream _ _ _ => none
  | .filterParams _ packet => some packet.streamId
  | .deleteStream id => some id
  | .data packet => some packet.streamId

/-- If the front-end can make the stream, then all nodes can. -/
def Agreed (net : Network N S) (filters : Filters) : Prop :=
  (net.filterIds net.tree.root filters).InRange → ∀ n, (net.filterIds n filters).InRange

/-- A filter makes packets on the stream that it is run on. -/
def StaysOnStream (net : Network N S) : Prop := ∀ n id filter packet storage params,
  net.filterFunc n id = some filter → ∀ q ∈ (filter [packet] storage params).2,
    q.streamId = packet.streamId

/-- An id for a stream of the user. -/
def UserId (id : BitVec 32) : Prop := userStrmBaseId ≤ id

/-- An item that a node can handle in a state: calls at the front-end, and packets elsewhere, for
streams that are there. -/
def Fits (net : Network N S) (n : N) (s : NodeState N S) : Item → Prop
  | .call (.newStream _ filters) => n = net.tree.root ∧ UserId s.nextUserStreamId ∧ Agreed net filters
  | .call _ => n = net.tree.root
  | .message (.newStream id _ filters) =>
      n ≠ net.tree.root ∧ UserId id ∧ ∀ m, (net.filterIds m filters).InRange
  | .message message =>
      n ≠ net.tree.root ∧ ∀ id, message.streamId? = some id → UserId id ∧ (s.streams id).isSome

lemma UserId.ne_topol {id : BitVec 32} (h : UserId id) : id ≠ topolStrmId := by
  rintro rfl
  exact absurd (show userStrmBaseId ≤ topolStrmId from h) (by decide)

lemma UserId.isUserStreamId {id : BitVec 32} (h : UserId id) : Network.isUserStreamId id = true := by
  rw [Network.isUserStreamId, decide_eq_true (show userStrmBaseId ≤ id from h), Bool.true_or]

@[simp] lemma set_streams (id : BitVec 32) (stream : Option (Stream N S)) :
    (s.set id stream).streams = Function.update s.streams id stream := rfl

lemma pushPacket_fst (stream : Stream N S) (packet : Packet) :
    ∃ storage, (net.pushPacket n stream packet).1 = { stream with storage := storage } := by
  rw [Network.pushPacket]
  cases net.filterFunc n stream.dsFilterId with
  | none => exact ⟨stream.storage, rfl⟩
  | some filter => exact ⟨_, rfl⟩

lemma pushPacket_onStream (hstays : StaysOnStream net) {stream : Stream N S} {packet q : Packet}
    (hq : q ∈ (net.pushPacket n stream packet).2) : q.streamId = packet.streamId := by
  rw [Network.pushPacket] at hq
  cases hfilter : net.filterFunc n stream.dsFilterId with
  | none =>
      rw [hfilter] at hq
      rw [List.mem_singleton.mp hq]
  | some filter =>
      rw [hfilter] at hq
      exact hstays n _ filter packet _ _ hfilter q hq

lemma backEnd_of_parent (hcp : net.tree.parent c = some p) : net.backEnd p = false := by
  rw [Bool.eq_false_iff]
  exact fun hback => net.backEnd_leaf p c hback hcp

/-- The node is on the way to a back-end of the stream. -/
def OnStream (net : Network N S) (n : N) (backends : List Rank) : Prop :=
  backends = [] ∨ ∃ d, net.rank d ∈ backends ∧ Below net.tree.parent d n

lemma OnStream.up {backends : List Rank} (h : OnStream net c backends)
    (hcp : net.tree.parent c = some p) : OnStream net p backends := by
  rcases h with hnil | ⟨d, hd, hbelow⟩
  · exact .inl hnil
  · exact .inr ⟨d, hd, hbelow.tail hcp⟩

/-- The entry of a child for a stream of its parent. -/
structure Alike (net : Network N S) (c : N) (stream stream' : Stream N S) : Prop where
  endPoints : net.backEnd c = false → stream'.endPoints = stream.endPoints
  params : c ∈ stream.peers → stream'.params = stream.params
  isOpen : stream'.wasClosed = false

/-- A child has the streams of its parent, and otherwise only streams that were closed. -/
structure Mirrors (net : Network N S) (c : N) (sp sc : NodeState N S) : Prop where
  present : ∀ id stream, sp.streams id = some stream →
    ∃ stream', sc.streams id = some stream' ∧ Alike net c stream stream'
  absent : ∀ id stream', sp.streams id = none → sc.streams id = some stream' →
    net.backEnd c = true ∧ stream'.wasClosed = true

namespace Mirrors

lemma initial : Mirrors net c NodeState.initial NodeState.initial where
  present := fun _ _ h => by cases h
  absent := fun _ _ _ h => by cases h

/-- The two change their entries for one stream. -/
lemma update {sp' sc' : NodeState N S} {id : BitVec 32} {entry entry' : Option (Stream N S)}
    (h : Mirrors net c sp sc) (hp : sp'.streams = Function.update sp.streams id entry)
    (hc : sc'.streams = Function.update sc.streams id entry')
    (hpresent : ∀ stream, entry = some stream → ∃ stream', entry' = some stream' ∧
      Alike net c stream stream')
    (habsent : ∀ stream', entry = none → entry' = some stream' →
      net.backEnd c = true ∧ stream'.wasClosed = true) : Mirrors net c sp' sc' where
  present := by
    intro id' stream hstream
    rw [hp] at hstream
    rw [hc]
    by_cases hid : id' = id
    · subst hid
      rw [Function.update_self] at hstream
      rw [Function.update_self]
      exact hpresent stream hstream
    · rw [Function.update_of_ne hid] at hstream
      rw [Function.update_of_ne hid]
      exact h.present id' stream hstream
  absent := by
    intro id' stream' hnone hstream'
    rw [hp] at hnone
    rw [hc] at hstream'
    by_cases hid : id' = id
    · subst hid
      rw [Function.update_self] at hnone hstream'
      exact habsent stream' hnone hstream'
    · rw [Function.update_of_ne hid] at hnone hstream'
      exact h.absent id' stream' hnone hstream'

end Mirrors

/-- A stream that the front-end makes. -/
structure Creation where
  id : BitVec 32
  backends : List Rank
  filters : Filters

/-- The stream that an item makes at a node. -/
def creation (net : Network N S) (n : N) (s : NodeState N S) : Item → List Creation
  | .call (.newStream backends filters) =>
      if (net.filterIds n filters).InRange then [⟨s.nextUserStreamId, backends, filters⟩] else []
  | .message (.newStream id backends filters) => [⟨id, backends, filters⟩]
  | _ => []

variable [DecidableEq N]

lemma pushDown_next (packet : Packet) :
    (net.pushDown n s packet).1.nextUserStreamId = s.nextUserStreamId := by
  rw [Network.pushDown]
  cases s.streams packet.streamId with
  | none => rfl
  | some stream => rfl

lemma pushDown_onStream (hstays : StaysOnStream net) (packet : Packet) :
    ∀ x ∈ (net.pushDown n s packet).2 c, ∃ q, x = .message (.data q) ∧
      q.streamId = packet.streamId := by
  intro x hx
  rw [Network.pushDown] at hx
  cases hs : s.streams packet.streamId with
  | none =>
      rw [hs] at hx
      cases hx
  | some stream =>
      rw [hs] at hx
      obtain ⟨q, hq, hx⟩ := List.mem_flatMap.mp hx
      exact ⟨q, List.eq_of_mem_replicate hx, pushPacket_onStream hstays hq⟩

variable [Fintype N]

/-- What a node with children does for an item, seen from one child, and the stream that it
makes. -/
inductive Effect (net : Network N S) (n c : N) (s : NodeState N S) :
    NodeState N S → List Item → List Creation → Prop
  | nothing {s' : NodeState N S} (h : s'.streams = s.streams) : Effect net n c s s' [] []
  | created {s' : NodeState N S} {id : BitVec 32} {backends : List Rank} {filters : Filters}
      (hid : UserId id) (hin : ∀ m, (net.filterIds m filters).InRange)
      (h : s'.streams = (net.newStream n s id backends (net.filterIds n filters)).streams) :
      Effect net n c s s' [.message (.newStream id backends filters)] [⟨id, backends, filters⟩]
  | params {s' : NodeState N S} {type : FilterType} {packet : Packet} {stream : Stream N S}
      (hs : s.streams packet.streamId = some stream)
      (h : s'.streams = Function.update s.streams packet.streamId
        (some { stream with params := Function.update stream.params type (some packet) })) :
      Effect net n c s s' (if c ∈ stream.peers then [.message (.filterParams type packet)] else []) []
  | deleted {s' : NodeState N S} {id : BitVec 32} {stream : Stream N S}
      (hs : s.streams id = some stream) (h : s'.streams = Function.update s.streams id none) :
      Effect net n c s s' [.message (.deleteStream id)] []
  | pushed {s' : NodeState N S} {id : BitVec 32} {stream : Stream N S} {storage : S}
      {items : List Item} (hs : s.streams id = some stream)
      (h : s'.streams = Function.update s.streams id (some { stream with storage := storage }))
      (hitems : ∀ x ∈ items, ∃ q, x = .message (.data q) ∧ q.streamId = id) :
      Effect net n c s s' items []

lemma procNewStream_effect {s₀ : NodeState N S} {id : BitVec 32} {backends : List Rank}
    {filters : Filters} (hs : s₀.streams = s.streams) (hid : UserId id)
    (hin : (net.filterIds n filters).InRange → ∀ m, (net.filterIds m filters).InRange) :
    Effect net n c s (net.procNewStream n s₀ id backends filters).1
      ((net.procNewStream n s₀ id backends filters).2 c)
      (if (net.filterIds n filters).InRange then [⟨id, backends, filters⟩] else []) := by
  rw [Network.procNewStream]
  by_cases hrange : (net.filterIds n filters).InRange
  · rw [if_pos hrange, if_pos hrange, if_neg hid.ne_topol]
    refine .created hid (hin hrange) ?_
    rw [Network.newStream, Network.newStream, set_streams, set_streams, hs]
  · rw [if_neg hrange, if_neg hrange]
    exact .nothing hs

lemma procFilterParams_effect {type : FilterType} {packet : Packet}
    (hs : (s.streams packet.streamId).isSome) :
    Effect net n c s (Network.procFilterParams s type packet).1
      ((Network.procFilterParams s type packet).2 c) [] := by
  obtain ⟨stream, hstream⟩ := Option.isSome_iff_exists.mp hs
  rw [Network.procFilterParams, hstream]
  exact .params hstream rfl

lemma pushDown_effect (hstays : StaysOnStream net) {packet : Packet}
    (hs : (s.streams packet.streamId).isSome) :
    Effect net n c s (net.pushDown n s packet).1 ((net.pushDown n s packet).2 c) [] := by
  obtain ⟨stream, hstream⟩ := Option.isSome_iff_exists.mp hs
  obtain ⟨storage, hstorage⟩ : ∃ storage, (net.pushPacket n stream packet).1 =
      { stream with storage := storage } := pushPacket_fst stream packet
  refine Effect.pushed hstream (show _ = Function.update s.streams packet.streamId
    (some { stream with storage := storage }) from ?_) (pushDown_onStream hstays packet)
  rw [Network.pushDown, hstream]
  show Function.update s.streams packet.streamId (some (net.pushPacket n stream packet).1) = _
  rw [hstorage]

/-- What a node that is no back-end does for an item that it can handle. -/
lemma parent_effect (hstays : StaysOnStream net) (hback : net.backEnd n = false) {x : Item}
    (h : Fits net n s x) :
    Effect net n c s (net.handle n s x).1 ((net.handle n s x).2 c) (creation net n s x) := by
  cases x with
  | call call =>
      have hroot : n = net.tree.root := by
        cases call with
        | newStream backends filters => exact h.1
        | setFilterParameters type id params => exact h
        | send id packet => exact h
        | delete id => exact h
      rw [Network.handle, if_pos hroot]
      cases call with
      | newStream backends filters =>
          refine procNewStream_effect (s := s) rfl h.2.1 fun hin => h.2.2 ?_
          rwa [← hroot]
      | setFilterParameters type id params =>
          rw [Network.frontEnd]
          cases hid : s.streams id with
          | none => exact .nothing rfl
          | some stream =>
              refine procFilterParams_effect ?_
              show (s.streams id).isSome
              rw [hid]
              rfl
      | send id packet =>
          cases hid : s.streams id with
          | none =>
              rw [Network.frontEnd, hid]
              exact .nothing rfl
          | some stream =>
              have hsend : net.frontEnd n s (.send id packet) =
                  if stream.wasClosed then (s, fun _ => [])
                  else net.pushDown n s (packet.setStreamId id) := by
                rw [Network.frontEnd, hid]
              rw [hsend]
              by_cases hclosed : stream.wasClosed = true
              · rw [if_pos hclosed]
                exact .nothing rfl
              · rw [if_neg hclosed]
                refine pushDown_effect hstays ?_
                show (s.streams id).isSome
                rw [hid]
                rfl
      | delete id =>
          rw [Network.frontEnd]
          cases hid : s.streams id with
          | none => exact .nothing rfl
          | some stream => exact .deleted hid rfl
  | message message =>
      have hroot : n ≠ net.tree.root := by
        cases message with
        | newStream id backends filters => exact h.1
        | filterParams type packet => exact h.1
        | deleteStream id => exact h.1
        | data packet => exact h.1
      rw [Network.handle, if_neg hroot, if_neg (by rw [hback]; exact Bool.false_ne_true)]
      cases message with
      | newStream id backends filters =>
          have hmade : creation net n s (.message (.newStream id backends filters)) =
              if (net.filterIds n filters).InRange then [⟨id, backends, filters⟩] else [] :=
            (if_pos (h.2.2 n)).symm
          rw [hmade]
          exact procNewStream_effect rfl h.2.1 fun _ => h.2.2
      | filterParams type packet => exact procFilterParams_effect (h.2 _ rfl).2
      | deleteStream id =>
          obtain ⟨stream, hstream⟩ := Option.isSome_iff_exists.mp (h.2 _ rfl).2
          exact .deleted hstream rfl
      | data packet => exact pushDown_effect hstays (h.2 _ rfl).2

lemma child_newStream (hc : c ≠ net.tree.root) {id : BitVec 32} {backends : List Rank}
    {filters : Filters} (hid : UserId id) (hin : (net.filterIds c filters).InRange) :
    (net.handle c s (.message (.newStream id backends filters))).1 =
      net.newStream c s id backends (net.filterIds c filters) := by
  rw [Network.handle, if_neg hc]
  cases hback : net.backEnd c with
  | true => exact if_pos hin
  | false =>
      show (net.procNewStream c s id backends filters).1 = _
      rw [Network.procNewStream, if_pos hin, if_neg hid.ne_topol]

lemma child_filterParams (hc : c ≠ net.tree.root) {type : FilterType} {packet : Packet}
    {stream : Stream N S} (hs : s.streams packet.streamId = some stream) :
    (net.handle c s (.message (.filterParams type packet))).1 = s.set packet.streamId (some
      { stream with params := Function.update stream.params type (some packet) }) := by
  rw [Network.handle, if_neg hc]
  cases hback : net.backEnd c with
  | true =>
      show net.backEndNode c s (.filterParams type packet) = _
      rw [Network.backEndNode, hs]
  | false =>
      show (Network.procFilterParams s type packet).1 = _
      rw [Network.procFilterParams, hs]

lemma child_deleteStream (hc : c ≠ net.tree.root) {id : BitVec 32} {stream : Stream N S}
    (hid : UserId id) (hs : s.streams id = some stream) :
    (net.handle c s (.message (.deleteStream id))).1 = s.set id
      (if net.backEnd c then some { stream with wasClosed := true } else none) := by
  rw [Network.handle, if_neg hc]
  cases hback : net.backEnd c with
  | true =>
      show net.backEndNode c s (.deleteStream id) = _
      rw [Network.backEndNode, hs]
      exact if_pos hid.isUserStreamId
  | false => rfl

lemma child_data (hc : c ≠ net.tree.root) {packet : Packet} {stream : Stream N S}
    (hs : s.streams packet.streamId = some stream) : ∃ storage buffer,
      (net.handle c s (.message (.data packet))).1 = s.set packet.streamId (some
        { stream with storage := storage, incomingPacketBuffer := buffer }) := by
  obtain ⟨storage, hstorage⟩ : ∃ storage, (net.pushPacket c stream packet).1 =
      { stream with storage := storage } := pushPacket_fst stream packet
  rw [Network.handle, if_neg hc]
  cases hback : net.backEnd c with
  | true =>
      refine ⟨storage, stream.incomingPacketBuffer ++ (net.pushPacket c stream packet).2, ?_⟩
      have hback : net.backEndNode c s (.data packet) = s.set packet.streamId (some
          { (net.pushPacket c stream packet).1 with
            incomingPacketBuffer := (net.pushPacket c stream packet).1.incomingPacketBuffer ++
              (net.pushPacket c stream packet).2 }) := by
        rw [Network.backEndNode, hs]
      exact hback.trans (by rw [hstorage])
  | false =>
      refine ⟨storage, stream.incomingPacketBuffer, ?_⟩
      show (net.pushDown c s packet).1 = _
      rw [Network.pushDown, hs]
      show s.set packet.streamId (some (net.pushPacket c stream packet).1) = _
      rw [hstorage]

/-- Packets on a stream that both have. -/
lemma Mirrors.data (h : Mirrors net c sp sc) (hc : c ≠ net.tree.root) {id : BitVec 32}
    (hid : UserId id) (hs : (sp.streams id).isSome) {items : List Item}
    (hitems : ∀ x ∈ items, ∃ q, x = .message (.data q) ∧ q.streamId = id) :
    net.relay.AlwaysFrom (Fits net) c sc items ∧ Mirrors net c sp (net.relay.run c sc items) := by
  induction items generalizing sc with
  | nil => exact ⟨trivial, h⟩
  | cons x items ih =>
      obtain ⟨q, rfl, hq⟩ := hitems x List.mem_cons_self
      obtain ⟨stream, hstream⟩ := Option.isSome_iff_exists.mp hs
      obtain ⟨stream', hstream', halike⟩ := h.present id stream hstream
      rw [← hq] at hstream hstream'
      obtain ⟨storage, buffer, hnext⟩ := child_data hc hstream'
      have hsame : sp.streams = Function.update sp.streams q.streamId (some stream) := by
        rw [← hstream, Function.update_eq_self]
      have hmirrors : Mirrors net c sp (net.relay.handle c sc (.message (.data q))).1 := by
        refine h.update hsame (congrArg NodeState.streams hnext) ?_ ?_
        · rintro _ ⟨⟩
          exact ⟨_, rfl, halike.endPoints, halike.params, halike.isOpen⟩
        · rintro _ ⟨⟩
      obtain ⟨halways, hrun⟩ := ih hmirrors fun x hx => hitems x (List.mem_cons_of_mem _ hx)
      refine ⟨⟨⟨hc, ?_⟩, halways⟩, hrun⟩
      rintro _ ⟨⟩
      rw [hstream']
      exact ⟨hq ▸ hid, rfl⟩

/-- What a parent does for an item, and then the child for what it is sent. -/
theorem Mirrors.effect (h : Mirrors net c sp sc) (hc : c ≠ net.tree.root)
    (hp : net.backEnd p = false) {items : List Item}
    {sp' : NodeState N S} {made : List Creation} (hids : ∀ id, (sp.streams id).isSome → UserId id)
    (heffect : Effect net p c sp sp' items made) :
    net.relay.AlwaysFrom (Fits net) c sc items ∧ Mirrors net c sp' (net.relay.run c sc items) := by
  cases heffect with
  | nothing hs => exact ⟨trivial, fun id => by rw [hs]; exact h.present id,
      fun id => by rw [hs]; exact h.absent id⟩
  | @created id backends filters hid hin hs =>
      refine ⟨⟨⟨hc, hid, hin⟩, trivial⟩, ?_⟩
      refine h.update hs (congrArg NodeState.streams (child_newStream hc hid (hin c))) ?_ ?_
      · rintro _ ⟨⟩
        refine ⟨_, rfl, fun hback => ?_, fun _ => rfl, rfl⟩
        show (if net.backEnd c then [] else backends) = if net.backEnd p then [] else backends
        rw [hback, hp]
      · rintro _ ⟨⟩
  | @params type packet stream hs hstreams =>
      obtain ⟨stream', hstream', halike⟩ := h.present _ stream hs
      by_cases hpeer : c ∈ stream.peers
      · rw [if_pos hpeer]
        refine ⟨⟨⟨hc, ?_⟩, trivial⟩, ?_⟩
        · rintro _ ⟨⟩
          rw [hstream']
          exact ⟨hids _ (by rw [hs]; rfl), rfl⟩
        · refine h.update hstreams
            (congrArg NodeState.streams (child_filterParams hc hstream')) ?_ ?_
          · rintro _ ⟨⟩
            refine ⟨_, rfl, halike.endPoints, fun _ => ?_, halike.isOpen⟩
            show Function.update stream'.params type _ = _
            rw [halike.params hpeer]
          · rintro _ ⟨⟩
      · rw [if_neg hpeer]
        refine ⟨trivial, ?_⟩
        have hsame : sc.streams = Function.update sc.streams packet.streamId (some stream') := by
          rw [← hstream', Function.update_eq_self]
        refine h.update hstreams hsame ?_ ?_
        · rintro _ ⟨⟩
          exact ⟨_, rfl, halike.endPoints, fun hin => absurd hin hpeer, halike.isOpen⟩
        · rintro _ ⟨⟩
  | @deleted id stream hs hstreams =>
      obtain ⟨stream', hstream', halike⟩ := h.present id stream hs
      have hid := hids id (by rw [hs]; rfl)
      refine ⟨⟨⟨hc, ?_⟩, trivial⟩, ?_⟩
      · rintro _ ⟨⟩
        rw [hstream']
        exact ⟨hid, rfl⟩
      · refine h.update hstreams
          (congrArg NodeState.streams (child_deleteStream hc hid hstream')) ?_ ?_
        · rintro _ ⟨⟩
        · intro stream'' _ hentry
          by_cases hback : net.backEnd c = true
          · rw [if_pos hback] at hentry
            cases hentry
            exact ⟨hback, rfl⟩
          · rw [if_neg hback] at hentry
            cases hentry
  | @pushed id stream storage items hs hstreams hitems =>
      obtain ⟨stream', hstream', halike⟩ := h.present id stream hs
      have hsame : sc.streams = Function.update sc.streams id (some stream') := by
        rw [← hstream', Function.update_eq_self]
      have hmirrors : Mirrors net c sp' sc := by
        refine h.update hstreams hsame ?_ ?_
        · rintro _ ⟨⟩
          exact ⟨_, rfl, halike.endPoints, halike.params, halike.isOpen⟩
        · rintro _ ⟨⟩
      refine hmirrors.data hc (hids id (by rw [hs]; rfl)) ?_ hitems
      rw [hstreams, Function.update_self]
      rfl

lemma Effect.userIds {sp' : NodeState N S} {items : List Item} {made : List Creation}
    (heffect : Effect net p c sp sp' items made)
    (hids : ∀ id, (sp.streams id).isSome → UserId id) :
    ∀ id, (sp'.streams id).isSome → UserId id := by
  have hupdate : ∀ {id : BitVec 32} {entry : Option (Stream N S)}, UserId id →
      sp'.streams = Function.update sp.streams id entry →
      ∀ id', (sp'.streams id').isSome → UserId id' := by
    intro id entry hid hstreams id' hsome
    by_cases hne : id' = id
    · rw [hne]
      exact hid
    · rw [hstreams, Function.update_of_ne hne] at hsome
      exact hids id' hsome
  cases heffect with
  | nothing hs =>
      intro id hsome
      rw [hs] at hsome
      exact hids id hsome
  | created hid _ hs => exact hupdate hid hs
  | params hs hstreams => exact hupdate (hids _ (by rw [hs]; rfl)) hstreams
  | deleted hs hstreams => exact hupdate (hids _ (by rw [hs]; rfl)) hstreams
  | pushed hs hstreams _ => exact hupdate (hids _ (by rw [hs]; rfl)) hstreams

/-- What a parent can handle leads to what its children can handle, and their streams stay
alike. -/
theorem mirrors_outputs (hstays : StaysOnStream net) (hcp : net.tree.parent c = some p)
    {xs : List Item} (h : net.relay.Always (Fits net) p xs) :
    (∀ id, ((net.relay.state p xs).streams id).isSome → UserId id) ∧
      net.relay.Always (Fits net) c (net.relay.outputs p c xs) ∧
      Mirrors net c (net.relay.state p xs) (net.relay.state c (net.relay.outputs p c xs)) := by
  have hc : c ≠ net.tree.root := ParentTree.ne_root_of_parent hcp
  have hback := backEnd_of_parent hcp
  induction xs using List.reverseRecOn with
  | nil =>
      refine ⟨fun id hsome => ?_, trivial, Mirrors.initial⟩
      cases hsome
  | append_singleton xs x ih =>
      obtain ⟨hxs, hx, -⟩ := always_append.mp h
      obtain ⟨hids, halways, hmirrors⟩ := ih hxs
      have heffect : Effect net p c (net.relay.state p xs) (net.relay.handle p _ x).1
          ((net.relay.handle p _ x).2 c) (creation net p _ x) := parent_effect hstays hback hx
      obtain ⟨hnext, hrun⟩ := hmirrors.effect hc hback hids heffect
      rw [outputs_append, state_append, state_append]
      exact ⟨heffect.userIds hids, always_append.mpr ⟨halways, hnext⟩, hrun⟩

/-- The calls of a front-end that does not run out of ids for its streams. -/
structure Session (net : Network N S) (calls : List Call) : Prop where
  ids : userStrmBaseId.toNat + calls.length < 2 ^ 32
  agreed : ∀ backends filters, Call.newStream backends filters ∈ calls → Agreed net filters

lemma procNewStream_next (id : BitVec 32) (backends : List Rank) (filters : Filters) :
    (net.procNewStream n s id backends filters).1.nextUserStreamId = s.nextUserStreamId := by
  rw [Network.procNewStream]
  split_ifs <;> rfl

/-- The ids are given in turn. -/
lemma frontEnd_next (call : Call) : (net.frontEnd n s call).1.nextUserStreamId = s.nextUserStreamId ∨
    (net.frontEnd n s call).1.nextUserStreamId = s.nextUserStreamId + 1 := by
  cases call with
  | newStream backends filters => exact .inr (procNewStream_next _ _ _)
  | setFilterParameters type id params =>
      left
      rw [Network.frontEnd]
      cases s.streams id with
      | none => rfl
      | some stream =>
          show (Network.procFilterParams s type _).1.nextUserStreamId = _
          rw [Network.procFilterParams]
          cases s.streams (Network.newPacket id params).streamId with
          | none => rfl
          | some stream => rfl
  | send id packet =>
      left
      cases hid : s.streams id with
      | none => rw [Network.frontEnd, hid]
      | some stream =>
          have hsend : net.frontEnd n s (.send id packet) =
              if stream.wasClosed then (s, fun _ => [])
              else net.pushDown n s (packet.setStreamId id) := by
            rw [Network.frontEnd, hid]
          rw [hsend]
          by_cases hclosed : stream.wasClosed = true
          · rw [if_pos hclosed]
          · rw [if_neg hclosed]
            exact pushDown_next _
  | delete id =>
      left
      rw [Network.frontEnd]
      cases s.streams id with
      | none => rfl
      | some stream => rfl

/-- The front-end can make all the calls of a session. -/
lemma always_calls {calls : List Call}
    (hids : s.nextUserStreamId.toNat + calls.length < 2 ^ 32) (hnext : UserId s.nextUserStreamId)
    (hagreed : ∀ backends filters, Call.newStream backends filters ∈ calls → Agreed net filters) :
    net.relay.AlwaysFrom (Fits net) net.tree.root s (calls.map .call) := by
  induction calls generalizing s with
  | nil => trivial
  | cons call calls ih =>
      refine ⟨?_, ?_⟩
      · cases call with
        | newStream backends filters => exact ⟨rfl, hnext, hagreed _ _ List.mem_cons_self⟩
        | setFilterParameters type id params => rfl
        | send id packet => rfl
        | delete id => rfl
      · have hhandle : net.relay.handle net.tree.root s (.call call) =
            net.frontEnd net.tree.root s call := if_pos rfl
        rw [hhandle]
        rw [List.length_cons] at hids
        have hsucc : (s.nextUserStreamId + 1).toNat = s.nextUserStreamId.toNat + 1 := by
          have hone : (1 : BitVec 32).toNat = 1 := rfl
          rw [BitVec.toNat_add, hone]
          exact Nat.mod_eq_of_lt (by omega)
        have hor : (net.frontEnd net.tree.root s call).1.nextUserStreamId = s.nextUserStreamId ∨
            (net.frontEnd net.tree.root s call).1.nextUserStreamId = s.nextUserStreamId + 1 :=
          frontEnd_next call
        apply ih
        · rcases hor with h | h
          · rw [h]
            omega
          · rw [h, hsucc]
            omega
        · rcases hor with h | h
          · rw [h]
            exact hnext
          · have hle : userStrmBaseId.toNat ≤ s.nextUserStreamId.toNat := hnext
            rw [h]
            show userStrmBaseId.toNat ≤ (s.nextUserStreamId + 1).toNat
            omega
        · exact fun backends filters hmem => hagreed backends filters (List.mem_cons_of_mem _ hmem)

lemma Session.always {calls : List Call} (h : Session net calls) :
    net.relay.Always (Fits net) net.tree.root (calls.map .call) :=
  always_calls h.ids (le_refl userStrmBaseId) h.agreed

/-- The child of a node is on the way to a rank. -/
def leadsTo (n : Fin 4) (r : Rank) (c : Fin 4) : Bool :=
  ParentTree.twoLeaves.parent c = some n ∧
    ∃ d : Fin 4, BitVec.ofNat 32 d = r ∧ c ∈ ParentTree.aboveInTwoLeaves d

lemma leadsTo_iff {n c : Fin 4} {r : Rank} :
    (List.finRange 4).find? (leadsTo n r) = some c ↔ ParentTree.twoLeaves.parent c = some n ∧
      ∃ d : Fin 4, BitVec.ofNat 32 d = r ∧ Below ParentTree.twoLeaves.parent d c := by
  have hone : ∀ n d c c' : Fin 4, ParentTree.twoLeaves.parent c = some n →
      ParentTree.twoLeaves.parent c' = some n → c ∈ ParentTree.aboveInTwoLeaves d →
      c' ∈ ParentTree.aboveInTwoLeaves d → c = c' := by decide
  have hrank : ∀ d d' : Fin 4, BitVec.ofNat 32 d = BitVec.ofNat 32 d' → d = d' := by decide
  simp only [ParentTree.twoLeaves_below_iff]
  constructor
  · intro h
    have hleads : leadsTo n r c = true := List.find?_some h
    exact of_decide_eq_true hleads
  · rintro ⟨hc, d, rfl, habove⟩
    cases hfind : (List.finRange 4).find? (leadsTo n (BitVec.ofNat 32 d)) with
    | none =>
        have hnone := List.find?_eq_none.mp hfind c (List.mem_finRange c)
        exact absurd (decide_eq_true ⟨hc, d, rfl, habove⟩) hnone
    | some c' =>
        have hleads : leadsTo n (BitVec.ofNat 32 d) c' = true := List.find?_some hfind
        obtain ⟨hc', d', hd', habove'⟩ := of_decide_eq_true hleads
        obtain rfl := hrank d' d hd'
        rw [hone n d' c c' hc hc' habove habove']

lemma ofNat_injective : Function.Injective fun n : Fin 4 => BitVec.ofNat 32 n := by decide

def countPackets : FilterFunc ℕ := fun packets storage _ => (storage + 1, packets)

/-- A front-end 0 with an internal node 1 and the back-ends 2 and 3. The filter 7 hands the packets
on and counts them. -/
def twoBackEnds : Network (Fin 4) ℕ where
  tree := .twoLeaves
  backEnd := ParentTree.isLeafInTwoLeaves
  backEnd_leaf := ParentTree.childless_of_isLeafInTwoLeaves
  root_frontEnd := ParentTree.root_not_isLeafInTwoLeaves
  rank := fun n => BitVec.ofNat 32 n
  rank_injective := ofNat_injective
  getOutletNode := fun n r => (List.finRange 4).find? (leadsTo n r)
  outlet_iff := fun _ _ _ => leadsTo_iff
  filterFunc := fun _ id => if id = 7 then some countPackets else none
  initialStorage := 0
  tfilterNull := 0
  sfilterWaitForAll := 1

lemma twoBackEnds_stays : StaysOnStream twoBackEnds := by
  intro n id filter packet storage params h q hq
  replace h : (if id = 7 then some countPackets else none) = some filter := h
  by_cases hid : id = 7
  · cases (if_pos hid).symm.trans h
    rw [List.mem_singleton.mp hq]
  · cases (if_neg hid).symm.trans h

/-- A packet of a stream in the session. -/
def numbered (tag : BitVec 32) : Packet := (WaitForAll.arrival 0 tag).setStreamId userStrmBaseId

/-- A stream to both back-ends, and one to the lower one, with the filter 7 and a parameter for it.
Packets on both, and the second stream is deleted. -/
def twoStreams : List Call :=
  [.newStream [2, 3] (.ids ⟨0, 1, 0⟩), .newStream [2] (.ids ⟨0, 1, 7⟩),
    .setFilterParameters .downstreamTrans (userStrmBaseId + 1) (WaitForAll.arrival 0 3),
    .send userStrmBaseId (WaitForAll.arrival 0 10),
    .send (userStrmBaseId + 1) (WaitForAll.arrival 0 20),
    .send userStrmBaseId (WaitForAll.arrival 0 30), .delete (userStrmBaseId + 1)]

lemma session_twoStreams : Session twoBackEnds twoStreams where
  ids := by decide
  agreed := by
    have hall : ∀ call ∈ twoStreams, ∀ backends filters, call = .newStream backends filters →
        ∃ ids, filters = .ids ids := by
      simp [twoStreams]
    intro backends filters h hin n
    obtain ⟨ids, rfl⟩ := hall _ h backends filters rfl
    exact hin

end MRNet.Downstream
