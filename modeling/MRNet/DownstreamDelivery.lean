import MRNet.DownstreamResults

/-!
# Packets on their way down

A stream without downstream filters gives the back-ends what the front-end sends on it, in the
same order.
-/
namespace MRNet.Downstream
open Forest FifoTree StreamPeers Relay Interleavings
open Wire (Packet)
open WaitForAll (Rank)

variable {N S : Type} {net : Network N S} {n c p : N} {s s' sp sc : NodeState N S}
  {calls : List Call}

/-- The packet that an item puts on a stream at a node. -/
def pushed (id : BitVec 32) (s : NodeState N S) : Item → List Packet
  | .call (.send id' packet) =>
      match s.streams id' with
      | none => []
      | some stream => if id' = id ∧ stream.wasClosed = false then [packet.setStreamId id'] else []
  | .message (.data packet) => if packet.streamId = id then [packet] else []
  | _ => []

lemma pushed_send {id id' : BitVec 32} {packet : Packet} {stream : Stream N S}
    (hs : s.streams id' = some stream) : pushed id s (.call (.send id' packet)) =
      if id' = id ∧ stream.wasClosed = false then [packet.setStreamId id'] else [] := by
  rw [pushed, hs]

/-- The buffer of a stream holds the packets, if the stream is there. -/
structure Received (s : NodeState N S) (made : List Creation) (id : BitVec 32)
    (packets : List Packet) : Prop where
  buffer : ∀ stream, s.streams id = some stream → stream.incomingPacketBuffer = packets
  absent : s.streams id = none → packets = []
  present : ∀ m ∈ made, (s.streams m.id).isSome

/-- A step that changes one entry. -/
lemma Received.update {made more : List Creation} {id id' : BitVec 32} {packets new : List Packet}
    {stream : Stream N S} (h : Received s made id packets)
    (hstreams : s'.streams = Function.update s.streams id' (some stream))
    (hmore : ∀ m ∈ more, m.id = id')
    (hself : id' = id → stream.incomingPacketBuffer = packets ++ new)
    (hother : id' ≠ id → new = []) : Received s' (made ++ more) id (packets ++ new) where
  buffer := by
    intro stream' hstream'
    rw [hstreams] at hstream'
    by_cases hid : id' = id
    · subst hid
      rw [Function.update_self] at hstream'
      rw [← Option.some.inj hstream', hself rfl]
    · rw [Function.update_of_ne (Ne.symm hid)] at hstream'
      rw [hother hid, List.append_nil]
      exact h.buffer stream' hstream'
  absent := by
    intro hnone
    rw [hstreams] at hnone
    by_cases hid : id' = id
    · subst hid
      rw [Function.update_self] at hnone
      cases hnone
    · rw [Function.update_of_ne (Ne.symm hid)] at hnone
      rw [hother hid, List.append_nil]
      exact h.absent hnone
  present := by
    intro m hm
    rw [hstreams]
    by_cases hid : m.id = id'
    · rw [hid, Function.update_self]
      rfl
    · rw [Function.update_of_ne hid]
      rcases List.mem_append.mp hm with hold | hnew
      · exact h.present m hold
      · exact absurd (hmore m hnew) hid

lemma pushPacket_null {packet : Packet} {stream : Stream N S}
    (hnull : net.filterFunc n stream.dsFilterId = none) :
    net.pushPacket n stream packet = (stream, [packet]) := by
  rw [Network.pushPacket, hnull]

variable [DecidableEq N]

/-- Without a filter function a packet goes to the peers as it is. -/
lemma pushDown_null {packet : Packet} {stream : Stream N S}
    (hs : s.streams packet.streamId = some stream)
    (hnull : net.filterFunc n stream.dsFilterId = none)
    (hdests : Routing.getDestinations packet = none) :
    (net.pushDown n s packet).2 c =
      if c ∈ stream.peers then [.message (.data packet)] else [] := by
  have hsame : s.set packet.streamId (some stream) = s := by
    rw [NodeState.set, ← hs, Function.update_eq_self]
  rw [Network.pushDown, hs]
  show net.sendPacketsToChildren n (s.set packet.streamId (some (net.pushPacket n stream packet).1))
    (net.pushPacket n stream packet).2 c = _
  rw [pushPacket_null hnull, hsame, Network.sendPacketsToChildren, List.flatMap_cons, List.flatMap_nil,
    List.append_nil, Network.copies, hdests, hs]
  show List.replicate (if c ∈ stream.peers then 1 else 0) _ = _
  split_ifs <;> rfl

variable [Fintype N]

/-- What was put on a stream at a node. -/
def pushedOn (net : Network N S) (n : N) (id : BitVec 32) (xs : List Item) : List Packet :=
  net.relay.collect (pushed id) n xs

/-- What the front-end sends on a stream in a session. -/
def sent (net : Network N S) (calls : List Call) (id : BitVec 32) : List Packet :=
  pushedOn net net.tree.root id (calls.map .call)

/-- Items without packets on the stream. -/
lemma collect_pushed_other {id id' : BitVec 32} {s₁ : NodeState N S} (hne : id' ≠ id)
    {items : List Item} (hitems : ∀ x ∈ items, ∃ q, x = .message (.data q) ∧ q.streamId = id') :
    net.relay.collectFrom (pushed id) c s₁ items = [] := by
  induction items generalizing s₁ with
  | nil => rfl
  | cons x items ih =>
      obtain ⟨q, rfl, hq⟩ := hitems x List.mem_cons_self
      have hnone : pushed id s₁ (.message (.data q)) = [] := if_neg (hq ▸ hne)
      rw [collectFrom, hnone, ih fun x hx => hitems x (List.mem_cons_of_mem _ hx)]
      rfl

/-- What goes to a child of a packet that is pushed down. -/
lemma collect_pushDown (hstays : StaysOnStream net) {id : BitVec 32} {s₁ : NodeState N S}
    {packet : Packet} {stream : Stream N S} {peers : Finset N}
    (hs : s.streams packet.streamId = some stream)
    (hentry : packet.streamId = id → net.filterFunc p stream.dsFilterId = none ∧
      stream.peers = peers ∧ Routing.getDestinations packet = none) :
    net.relay.collectFrom (pushed id) c s₁ ((net.pushDown p s packet).2 c) =
      if c ∈ peers then (if packet.streamId = id then [packet] else []) else [] := by
  by_cases hid : packet.streamId = id
  · obtain ⟨hnull, hpeers, hdests⟩ := hentry hid
    rw [pushDown_null hs hnull hdests, hpeers, if_pos hid]
    by_cases hc : c ∈ peers
    · rw [if_pos hc, if_pos hc]
      show pushed id s₁ (.message (.data packet)) ++ [] = [packet]
      rw [List.append_nil]
      exact if_pos hid
    · rw [if_neg hc, if_neg hc]
      rfl
  · rw [collect_pushed_other hid (pushDown_onStream hstays packet), if_neg hid, ite_self]

lemma collect_procNewStream {id id' : BitVec 32} {s₁ : NodeState N S} (backends : List Rank)
    (filters : Filters) : net.relay.collectFrom (pushed id) c s₁
      ((net.procNewStream p s id' backends filters).2 c) = [] := by
  rw [Network.procNewStream]
  split_ifs <;> rfl

lemma collect_procFilterParams {id : BitVec 32} {s₁ : NodeState N S} (type : FilterType)
    (packet : Packet) : net.relay.collectFrom (pushed id) c s₁
      ((Network.procFilterParams s type packet).2 c) = [] := by
  rw [Network.procFilterParams]
  cases s.streams packet.streamId with
  | none => rfl
  | some stream =>
      show net.relay.collectFrom (pushed id) c s₁ (ite _ _ _) = []
      split_ifs <;> rfl

/-- What goes to a child of what is put on a stream without a filter function. -/
lemma collect_outputs (hstays : StaysOnStream net) {id : BitVec 32} {s₁ : NodeState N S} {x : Item}
    {peers : Finset N} (hx : Fits net p s x) (hback : net.backEnd p = false)
    (hentry : ∀ stream, s.streams id = some stream →
      net.filterFunc p stream.dsFilterId = none ∧ stream.peers = peers)
    (hdests : ∀ q ∈ pushed id s x, Routing.getDestinations q = none) :
    net.relay.collectFrom (pushed id) c s₁ ((net.handle p s x).2 c) =
      if c ∈ peers then pushed id s x else [] := by
  cases x with
  | call call =>
      have hroot : p = net.tree.root := by
        cases call with
        | newStream backends filters => exact hx.1
        | setFilterParameters type id params => exact hx
        | send id packet => exact hx
        | delete id => exact hx
      rw [Network.handle, if_pos hroot]
      cases call with
      | newStream backends filters =>
          refine (collect_procNewStream _ _).trans ?_
          exact (ite_self _).symm
      | setFilterParameters type id' params =>
          refine Eq.trans ?_ (ite_self _).symm
          rw [Network.frontEnd]
          cases s.streams id' with
          | none => rfl
          | some stream => exact collect_procFilterParams _ _
      | send id' packet =>
          cases hid : s.streams id' with
          | none =>
              have hnone : pushed id s (.call (.send id' packet)) = [] := by rw [pushed, hid]
              rw [hnone, ite_self, Network.frontEnd, hid]
              rfl
          | some stream =>
              have hsend : net.frontEnd p s (.send id' packet) =
                  if stream.wasClosed then (s, fun _ => [])
                  else net.pushDown p s (packet.setStreamId id') := by
                rw [Network.frontEnd, hid]
              rw [pushed_send hid] at hdests
              rw [hsend, pushed_send hid]
              cases hclosed : stream.wasClosed with
              | true =>
                  have hnone : (if id' = id ∧ true = false then [packet.setStreamId id'] else []) =
                      ([] : List Packet) := if_neg fun h => Bool.noConfusion h.2
                  rw [if_pos rfl, hnone, ite_self]
                  rfl
              | false =>
                  rw [hclosed] at hdests
                  have hsame : (if id' = id ∧ false = false then [packet.setStreamId id'] else []) =
                      if id' = id then [packet.setStreamId id'] else [] := by
                    simp only [and_true]
                  rw [hsame] at hdests
                  rw [if_neg Bool.false_ne_true, hsame]
                  refine collect_pushDown hstays
                    (show s.streams (packet.setStreamId id').streamId = _ from hid)
                    fun heq => ?_
                  have heq' : id' = id := heq
                  rw [if_pos heq'] at hdests
                  obtain ⟨hnull, hpeers⟩ := hentry stream (heq' ▸ hid)
                  exact ⟨hnull, hpeers, hdests _ List.mem_cons_self⟩
      | delete id' =>
          refine Eq.trans ?_ (ite_self _).symm
          rw [Network.frontEnd]
          cases s.streams id' with
          | none => rfl
          | some stream => rfl
  | message message =>
      have hroot : p ≠ net.tree.root := by
        cases message with
        | newStream id backends filters => exact hx.1
        | filterParams type packet => exact hx.1
        | deleteStream id => exact hx.1
        | data packet => exact hx.1
      rw [Network.handle, if_neg hroot, if_neg (by rw [hback]; exact Bool.false_ne_true)]
      cases message with
      | newStream id' backends filters =>
          refine (collect_procNewStream _ _).trans ?_
          exact (ite_self _).symm
      | filterParams type packet =>
          refine (collect_procFilterParams _ _).trans ?_
          exact (ite_self _).symm
      | deleteStream id' => exact (ite_self _).symm
      | data packet =>
          obtain ⟨stream, hstream⟩ := Option.isSome_iff_exists.mp (hx.2 _ rfl).2
          refine collect_pushDown hstays hstream fun heq => ?_
          obtain ⟨hnull, hpeers⟩ := hentry stream (heq ▸ hstream)
          refine ⟨hnull, hpeers, hdests packet ?_⟩
          rw [pushed, if_pos heq]
          exact List.mem_cons_self

/-- A node hands to its peers what is put on a stream without filter functions. -/
lemma pushedOn_outputs (hstays : StaysOnStream net) (hcp : net.tree.parent c = some p)
    {xs : List Item} (h : net.relay.Always (Fits net) p xs) {m : Creation}
    (honly : ∀ m' ∈ creations net p xs, m'.id = m.id → m' = m)
    (hnull : net.filterFunc p (net.filterIds p m.filters).ds.toNat = none)
    (hdests : ∀ q ∈ pushedOn net p m.id xs, Routing.getDestinations q = none) :
    pushedOn net c m.id (net.relay.outputs p c xs) =
      if c ∈ net.peers p m.backends then pushedOn net p m.id xs else [] := by
  have hback := backEnd_of_parent hcp
  induction xs using List.reverseRecOn with
  | nil => exact (ite_self _).symm
  | append_singleton xs x ih =>
      obtain ⟨hxs, hx, -⟩ := always_append.mp h
      rw [creations, collect_append] at honly
      rw [pushedOn, collect_append] at hdests
      have hentry : ∀ stream, (net.relay.state p xs).streams m.id = some stream →
          net.filterFunc p stream.dsFilterId = none ∧ stream.peers = net.peers p m.backends := by
        intro stream hstream
        obtain ⟨m', hm', hid, hmade⟩ := entries_state hstays hxs m.id stream hstream
        obtain rfl := honly m' (List.mem_append_left _ hm') hid
        rw [hmade.ds, hmade.peers, hback]
        exact ⟨hnull, rfl⟩
      have hstep : net.relay.collectFrom (pushed m.id) c
          (net.relay.state c (net.relay.outputs p c xs))
          ((net.handle p (net.relay.state p xs) x).2 c) =
            if c ∈ net.peers p m.backends then pushed m.id (net.relay.state p xs) x else [] :=
        collect_outputs hstays hx hback hentry fun q hq => hdests q (List.mem_append_right _ hq)
      have hbefore := ih hxs (fun m' hm' => honly m' (List.mem_append_left _ hm'))
        fun q hq => hdests q (List.mem_append_left _ hq)
      rw [outputs_append, pushedOn, pushedOn, collect, collectFrom_append, collect_append]
      refine (congrArg₂ (· ++ ·) hbefore hstep).trans ?_
      split_ifs <;> rfl

/-- What is sent is one of the packets of the calls. -/
lemma exists_send {id : BitVec 32} {q : Packet} (hq : q ∈ sent net calls id) :
    ∃ packet, Call.send id packet ∈ calls ∧ q = packet.setStreamId id := by
  have hmem : ∀ {xs : List Call} {s : NodeState N S},
      q ∈ net.relay.collectFrom (pushed id) net.tree.root s (xs.map .call) →
      ∃ packet, Call.send id packet ∈ xs ∧ q = packet.setStreamId id := by
    intro xs
    induction xs with
    | nil => exact fun h => by cases h
    | cons call xs ih =>
        intro s h
        rcases List.mem_append.mp h with hcall | hlater
        · cases call with
          | send id' packet =>
              cases hs : s.streams id' with
              | none =>
                  rw [pushed, hs] at hcall
                  cases hcall
              | some stream =>
                  rw [pushed_send hs] at hcall
                  by_cases hopen : id' = id ∧ stream.wasClosed = false
                  · rw [if_pos hopen, hopen.1] at hcall
                    rw [hopen.1]
                    exact ⟨packet, List.mem_cons_self, List.mem_singleton.mp hcall⟩
                  · rw [if_neg hopen] at hcall
                    cases hcall
          | newStream backends filters => cases hcall
          | setFilterParameters type id' params => cases hcall
          | delete id' => cases hcall
        · obtain ⟨packet, hpacket, heq⟩ := ih hlater
          exact ⟨packet, List.mem_cons_of_mem _ hpacket, heq⟩
  exact hmem hq

/-- A stream without filter functions takes what is sent on it to the nodes that are on it. -/
lemma pushedOn_feed (hstays : StaysOnStream net) (hsession : Session net calls) {m : Creation}
    (hm : m ∈ made net calls)
    (hnull : ∀ n, net.filterFunc n (net.filterIds n m.filters).ds.toNat = none)
    (hdests : ∀ packet, Call.send m.id packet ∈ calls → Routing.getDestinations packet = none)
    {xs : List Item} (h : net.relay.Feeds (calls.map .call) n xs) :
    (OnStream net n m.backends → pushedOn net n m.id xs = sent net calls m.id) ∧
      (n ≠ net.tree.root → ¬ OnStream net n m.backends → pushedOn net n m.id xs = []) := by
  induction h with
  | root => exact ⟨fun _ => rfl, fun hne => absurd rfl hne⟩
  | @child c p xs hcp hp ih =>
      have halways := hp.always hsession.always fun hcp hxs => (mirrors_outputs hstays hcp hxs).2.1
      have honly : ∀ m' ∈ creations net p xs, m'.id = m.id → m' = m := by
        intro m' hm' hid
        rw [creations_feed hstays hsession hp] at hm'
        exact made_unique hsession hm' hm hid
      have hplain : ∀ q ∈ pushedOn net p m.id xs, q ∈ sent net calls m.id := by
        intro q hq
        by_cases hon : OnStream net p m.backends
        · rwa [ih.1 hon] at hq
        · by_cases hroot : p = net.tree.root
          · subst hroot
            rwa [hp.unique .root] at hq
          · rw [ih.2 hroot hon] at hq
            cases hq
      have hnext := pushedOn_outputs hstays hcp halways honly (hnull p) fun q hq => by
        obtain ⟨packet, hpacket, rfl⟩ := exists_send (hplain q hq)
        exact hdests packet hpacket
      rw [hnext]
      refine ⟨fun hon => ?_, fun _ hoff => if_neg fun hpeer => hoff ?_⟩
      · rw [if_pos ((mem_peers_iff hcp _).mpr hon), ih.1 (hon.up hcp)]
      · exact (mem_peers_iff hcp _).mp hpeer

lemma backEnd_null (hroot : n ≠ net.tree.root) (hback : net.backEnd n = true) {packet : Packet}
    {stream : Stream N S} (hs : s.streams packet.streamId = some stream)
    (hnull : net.filterFunc n stream.dsFilterId = none) :
    (net.handle n s (.message (.data packet))).1 = s.set packet.streamId (some
      { stream with incomingPacketBuffer := stream.incomingPacketBuffer ++ [packet] }) := by
  rw [Network.handle, if_neg hroot, if_pos hback]
  show net.backEndNode n s (.data packet) = _
  rw [Network.backEndNode, hs]
  show s.set packet.streamId (some
    { (net.pushPacket n stream packet).1 with
      incomingPacketBuffer := (net.pushPacket n stream packet).1.incomingPacketBuffer ++
        (net.pushPacket n stream packet).2 }) = _
  rw [pushPacket_null hnull]

/-- A back-end keeps the packets of a stream without a filter function in their order. -/
lemma received_state (hback : net.backEnd n = true) {id : BitVec 32} {xs : List Item}
    (hstays : StaysOnStream net) (h : net.relay.Always (Fits net) n xs)
    (hnodup : ((creations net n xs).map Creation.id).Nodup)
    (hnull : ∀ m ∈ creations net n xs, m.id = id →
      net.filterFunc n (net.filterIds n m.filters).ds.toNat = none) :
    Received (net.relay.state n xs) (creations net n xs) id (pushedOn net n id xs) := by
  have hroot : n ≠ net.tree.root := by
    rintro rfl
    rw [net.root_frontEnd] at hback
    cases hback
  induction xs using List.reverseRecOn with
  | nil =>
      refine ⟨fun _ hs => ?_, fun _ => rfl, fun m hm => ?_⟩
      · cases hs
      · cases hm
  | append_singleton xs x ih =>
      obtain ⟨hxs, hx, -⟩ := always_append.mp h
      have hmade : creations net n (xs ++ [x]) =
          creations net n xs ++ creation net n (net.relay.state n xs) x := collect_append xs x
      rw [hmade] at hnodup hnull
      have hbefore := ih hxs (by rw [List.map_append] at hnodup; exact hnodup.of_append_left)
        fun m hm => hnull m (List.mem_append_left _ hm)
      have hentries := entries_state hstays hxs
      rw [hmade, pushedOn, collect_append, state_append]
      show Received (net.handle n (net.relay.state n xs) x).1 _ _
        (pushedOn net n id xs ++ pushed id (net.relay.state n xs) x)
      cases x with
      | call call =>
          cases call with
          | newStream backends filters => exact absurd hx.1 hroot
          | setFilterParameters type id params => exact absurd hx hroot
          | send id packet => exact absurd hx hroot
          | delete id => exact absurd hx hroot
      | message message =>
          cases message with
          | newStream id' backends filters =>
              rw [child_newStream hroot hx.2.1 (hx.2.2 n)]
              refine hbefore.update rfl (fun m hm => ?_) (fun hid => ?_) fun _ => rfl
              · rw [List.mem_singleton.mp hm]
              · have hnone : (net.relay.state n xs).streams id' = none := by
                  cases hs : (net.relay.state n xs).streams id' with
                  | none => rfl
                  | some stream =>
                      obtain ⟨m, hm, hmid, -⟩ := hentries id' stream hs
                      rw [List.map_append] at hnodup
                      refine absurd ?_ (List.disjoint_of_nodup_append hnodup
                        (List.mem_map_of_mem hm))
                      rw [hmid]
                      exact List.mem_cons_self
                rw [hbefore.absent (hid ▸ hnone)]
                rfl
          | filterParams type packet =>
              obtain ⟨stream, hstream⟩ := Option.isSome_iff_exists.mp (hx.2 _ rfl).2
              rw [child_filterParams hroot hstream]
              refine hbefore.update (set_streams _ _) (fun m hm => by cases hm) (fun hid => ?_)
                fun _ => rfl
              exact (hbefore.buffer stream (hid ▸ hstream)).trans (List.append_nil _).symm
          | deleteStream id' =>
              obtain ⟨hid', hsome⟩ := hx.2 _ rfl
              obtain ⟨stream, hstream⟩ := Option.isSome_iff_exists.mp hsome
              rw [child_deleteStream hroot hid' hstream, if_pos hback]
              refine hbefore.update (set_streams _ _) (fun m hm => by cases hm) (fun hid => ?_)
                fun _ => rfl
              exact (hbefore.buffer stream (hid ▸ hstream)).trans (List.append_nil _).symm
          | data packet =>
              obtain ⟨stream, hstream⟩ := Option.isSome_iff_exists.mp (hx.2 _ rfl).2
              by_cases hid : packet.streamId = id
              · obtain ⟨m, hm, hmid, hmade⟩ := hentries _ stream hstream
                have hfilter : net.filterFunc n stream.dsFilterId = none := by
                  rw [hmade.ds]
                  exact hnull m (List.mem_append_left _ hm) (hmid.trans hid)
                rw [backEnd_null hroot hback hstream hfilter, pushed, if_pos hid]
                refine hbefore.update (set_streams _ _) (fun m hm => by cases hm) (fun _ => ?_)
                  fun hne => absurd hid hne
                exact congrArg (· ++ [packet]) (hbefore.buffer stream (hid ▸ hstream))
              · obtain ⟨storage, buffer, hnext⟩ := child_data hroot hstream
                rw [hnext, pushed, if_neg hid]
                exact hbefore.update (set_streams _ _) (fun m hm => by cases hm)
                  (fun h => absurd h hid) fun _ => rfl

/-- In every run of a session the back-ends on a stream without downstream filters have been given
the first packets that were sent on it, in their order, and the other back-ends have been given
none. When all packets are taken, they have been given all of them. -/
theorem sent_is_received (hstays : StaysOnStream net) (hsession : Session net calls)
    {m : Creation} (hm : m ∈ made net calls)
    (hnull : ∀ n, net.filterFunc n (net.filterIds n m.filters).ds.toNat = none)
    (hdests : ∀ packet, Call.send m.id packet ∈ calls → Routing.getDestinations packet = none)
    {s : FifoTree.State N Item (NodeState N S)}
    (hrun : Reaches net.relay.step Any (net.relay.start (calls.map .call)) s) {r : N}
    (hback : net.backEnd r = true) :
    (∀ stream, (s.node r).streams m.id = some stream →
      (OnStream net r m.backends → stream.incomingPacketBuffer <+: sent net calls m.id) ∧
      (¬ OnStream net r m.backends → stream.incomingPacketBuffer = [])) ∧
    ((∀ n, s.queue n = []) → ∃ stream, (s.node r).streams m.id = some stream ∧
      (OnStream net r m.backends → stream.incomingPacketBuffer = sent net calls m.id)) := by
  have hroot : r ≠ net.tree.root := by
    rintro rfl
    rw [net.root_frontEnd] at hback
    cases hback
  obtain ⟨taken, htaken⟩ := exists_accounted hrun
  obtain ⟨given, hgiven⟩ := Feeds.exists_feed net.relay (calls.map .call) r
  have halways : net.relay.Always (Fits net) r given :=
    hgiven.always hsession.always fun hcp hxs => (mirrors_outputs hstays hcp hxs).2.1
  have hmade : creations net r given = made net calls := creations_feed hstays hsession hgiven
  obtain ⟨hon, hoff⟩ := pushedOn_feed hstays hsession hm hnull hdests hgiven
  have htook : taken r <+: given := (List.prefix_append _ _).trans (htaken.prefix_feed hgiven)
  have hcreated : creations net r (taken r) <+: made net calls := hmade ▸ collect_prefix htook
  have hpushed : pushedOn net r m.id (taken r) <+: pushedOn net r m.id given := collect_prefix htook
  have hreceived : Received (s.node r) (creations net r (taken r)) m.id
      (pushedOn net r m.id (taken r)) := by
    rw [htaken.node r]
    refine received_state hback hstays ?_ ?_ fun m' hm' hid => ?_
    · obtain ⟨more, rfl⟩ := htook
      exact (always_append.mp halways).1
    · exact (nodup_made hsession).sublist (hcreated.sublist.map _)
    · rw [made_unique hsession (hcreated.subset hm') hm hid]
      exact hnull r
  refine ⟨fun stream hstream => ⟨fun h => ?_, fun h => ?_⟩, fun hrest => ?_⟩
  · rw [hreceived.buffer stream hstream, ← hon h]
    exact hpushed
  · rw [hreceived.buffer stream hstream]
    exact List.prefix_nil.mp (hoff hroot h ▸ hpushed)
  · rw [htaken.eq_feed hrest hgiven] at hreceived
    obtain ⟨stream, hstream⟩ := Option.isSome_iff_exists.mp (hreceived.present m (hmade ▸ hm))
    exact ⟨stream, hstream, fun h => (hreceived.buffer stream hstream).trans (hon h)⟩

theorem sent_is_received_twoBackEnds : ∃ s,
    Reaches twoBackEnds.relay.step Any (twoBackEnds.relay.start (twoStreams.map .call)) s ∧
    (∀ n, s.queue n = []) ∧ ∀ r, twoBackEnds.backEnd r = true →
      ∃ stream, (s.node r).streams userStrmBaseId = some stream ∧
        stream.incomingPacketBuffer = [numbered 10, numbered 30] := by
  obtain ⟨s, hrun, hrest⟩ := exists_rest twoBackEnds.relay (twoStreams.map .call)
  have hmade : ⟨userStrmBaseId, [2, 3], .ids ⟨0, 1, 0⟩⟩ ∈ made twoBackEnds twoStreams :=
    List.mem_cons_self
  have hdests : ∀ packet, Call.send userStrmBaseId packet ∈ twoStreams →
      Routing.getDestinations packet = none := by
    intro packet h
    have hsent : packet = WaitForAll.arrival 0 10 ∨ packet = WaitForAll.arrival 0 30 := by
      simpa [twoStreams] using h
    rcases hsent with rfl | rfl <;> rfl
  have hon : ∀ r, twoBackEnds.backEnd r = true → OnStream twoBackEnds r [2, 3] := by
    have hrank : ∀ r, twoBackEnds.backEnd r = true → twoBackEnds.rank r ∈ ([2, 3] : List Rank) := by
      decide
    exact fun r hr => .inr ⟨r, hrank r hr, .refl⟩
  refine ⟨s, hrun, hrest, fun r hr => ?_⟩
  obtain ⟨-, hall⟩ := sent_is_received twoBackEnds_stays session_twoStreams hmade (fun _ => rfl)
    hdests hrun hr
  obtain ⟨stream, hstream, hbuffer⟩ := hall hrest
  exact ⟨stream, hstream, hbuffer (hon r hr)⟩

end MRNet.Downstream
