import MRNet.DownstreamRuns

/-!
# What a session leads to

In whatever order the nodes take their steps, every packet finds its stream, and in the end all
nodes have the streams of the front-end with its parameters.
-/
namespace MRNet.Downstream
open Forest FifoTree StreamPeers Relay Interleavings
open Wire (Packet)
open WaitForAll (Rank)

variable {N S : Type} [Fintype N] [DecidableEq N] {net : Network N S} {n c p : N}
  {s s' sp sc : NodeState N S} {calls : List Call}

/-- In every run of a session the stream of a packet is there when a node takes the packet. -/
theorem streams_found (hstays : StaysOnStream net) (hsession : Session net calls)
    {s : FifoTree.State N Item (NodeState N S)}
    (hrun : Reaches net.relay.step Any (net.relay.start (calls.map .call)) s) {message : Message}
    {rest : List Item} (hqueue : s.queue n = .message message :: rest) :
    ∀ id, message.streamId? = some id → ((s.node n).streams id).isSome := by
  have hfits := next_satisfies hsession.always
    (fun hcp hxs => (mirrors_outputs hstays hcp hxs).2.1) hrun hqueue
  cases message with
  | newStream id backends filters => rintro _ ⟨⟩
  | filterParams type packet => exact fun id hid => (hfits.2 id hid).2
  | deleteStream id => exact fun id hid => (hfits.2 id hid).2
  | data packet => exact fun id hid => (hfits.2 id hid).2

/-- A packet gets to the lower back-end while the front-end still has calls to make. -/
theorem streams_found_twoBackEnds : ∃ s rest,
    Reaches twoBackEnds.relay.step Any (twoBackEnds.relay.start (twoStreams.map .call)) s ∧
    s.queue 0 ≠ [] ∧ s.queue 2 = .message (.data (numbered 10)) :: rest ∧
    ((s.node 2).streams userStrmBaseId).isSome := by
  obtain ⟨s, hrun⟩ : ∃ s, runSchedule twoBackEnds.relay.step
      (twoBackEnds.relay.start (twoStreams.map .call)) [0, 0, 1, 0, 0, 1, 2, 1, 1, 2, 2] = some s :=
    ⟨_, rfl⟩
  have hstate : s.queue 0 ≠ [] ∧ s.queue 2 = [.message (.data (numbered 10))] := by
    cases hrun
    exact ⟨List.cons_ne_nil _ _, rfl⟩
  obtain ⟨hcalls, hqueue⟩ := hstate
  exact ⟨s, [], reaches_any hrun, hcalls, hqueue, streams_found twoBackEnds_stays
    session_twoStreams (reaches_any hrun) hqueue _ rfl⟩

def creations (net : Network N S) (n : N) (xs : List Item) : List Creation :=
  net.relay.collect (creation net n) n xs

/-- The streams that the front-end makes in a session. -/
def made (net : Network N S) (calls : List Call) : List Creation :=
  creations net net.tree.root (calls.map .call)

lemma Effect.collect_creation {s₁ : NodeState N S} {items : List Item} {made : List Creation}
    (heffect : Effect net p c sp sp' items made) :
    net.relay.collectFrom (creation net c) c s₁ items = made := by
  cases heffect with
  | nothing _ => rfl
  | created _ _ _ => rfl
  | params _ _ => split_ifs <;> rfl
  | deleted _ _ => rfl
  | pushed _ _ hitems =>
      clear * - hitems
      induction items generalizing s₁ with
      | nil => rfl
      | cons x items ih =>
          obtain ⟨q, rfl, -⟩ := hitems x List.mem_cons_self
          exact ih fun x hx => hitems x (List.mem_cons_of_mem _ hx)

/-- The same streams are made at a child. -/
lemma creations_outputs (hstays : StaysOnStream net) (hcp : net.tree.parent c = some p)
    {xs : List Item} (h : net.relay.Always (Fits net) p xs) :
    creations net c (net.relay.outputs p c xs) = creations net p xs := by
  have hback := backEnd_of_parent hcp
  induction xs using List.reverseRecOn with
  | nil => rfl
  | append_singleton xs x ih =>
      obtain ⟨hxs, hx, -⟩ := always_append.mp h
      have heffect : Effect net p c (net.relay.state p xs) (net.relay.handle p _ x).1
          ((net.relay.handle p _ x).2 c) (creation net p _ x) := parent_effect hstays hback hx
      rw [outputs_append, creations, creations, collect, collectFrom_append, collect_append,
        heffect.collect_creation]
      exact congrArg (· ++ _) (ih hxs)

lemma creations_feed (hstays : StaysOnStream net) (hsession : Session net calls) {xs : List Item}
    (h : net.relay.Feeds (calls.map .call) n xs) : creations net n xs = made net calls := by
  induction h with
  | root => rfl
  | child hcp hp ih =>
      rw [← ih]
      exact creations_outputs hstays hcp
        (hp.always hsession.always fun hcp hxs => (mirrors_outputs hstays hcp hxs).2.1)

/-- A call makes at most one stream, with the next id. -/
lemma creation_call (call : Call) : creation net net.tree.root s (.call call) = [] ∨
    ∃ m, creation net net.tree.root s (.call call) = [m] ∧ m.id = s.nextUserStreamId ∧
      (net.frontEnd net.tree.root s call).1.nextUserStreamId = s.nextUserStreamId + 1 := by
  cases call with
  | newStream backends filters =>
      by_cases hin : (net.filterIds net.tree.root filters).InRange
      · exact .inr ⟨_, if_pos hin, rfl, procNewStream_next _ _ _⟩
      · exact .inl (if_neg hin)
  | setFilterParameters type id params => exact .inl rfl
  | send id packet => exact .inl rfl
  | delete id => exact .inl rfl

/-- No id is given twice. -/
lemma nodup_calls {calls : List Call} (hids : s.nextUserStreamId.toNat + calls.length < 2 ^ 32) :
    ((net.relay.collectFrom (creation net net.tree.root) net.tree.root s
      (calls.map .call)).map Creation.id).Nodup ∧
    ∀ m ∈ net.relay.collectFrom (creation net net.tree.root) net.tree.root s (calls.map .call),
      s.nextUserStreamId.toNat ≤ m.id.toNat := by
  induction calls generalizing s with
  | nil => exact ⟨.nil, fun m hm => by cases hm⟩
  | cons call calls ih =>
      have hhandle : net.relay.handle net.tree.root s (.call call) =
          net.frontEnd net.tree.root s call := if_pos rfl
      rw [List.length_cons] at hids
      have hsucc : (s.nextUserStreamId + 1).toNat = s.nextUserStreamId.toNat + 1 := by
        have hone : (1 : BitVec 32).toNat = 1 := rfl
        rw [BitVec.toNat_add, hone]
        exact Nat.mod_eq_of_lt (by omega)
      have hnext : (net.frontEnd net.tree.root s call).1.nextUserStreamId.toNat + calls.length <
          2 ^ 32 ∧ s.nextUserStreamId.toNat ≤
            (net.frontEnd net.tree.root s call).1.nextUserStreamId.toNat := by
        have hor : (net.frontEnd net.tree.root s call).1.nextUserStreamId = s.nextUserStreamId ∨
            (net.frontEnd net.tree.root s call).1.nextUserStreamId = s.nextUserStreamId + 1 :=
          frontEnd_next call
        rcases hor with h | h
        · rw [h]
          omega
        · rw [h, hsucc]
          omega
      obtain ⟨hnodup, hle⟩ := ih hnext.1
      rw [List.map_cons, collectFrom, hhandle]
      have hor : creation net net.tree.root s (.call call) = [] ∨
          ∃ m, creation net net.tree.root s (.call call) = [m] ∧ m.id = s.nextUserStreamId ∧
            (net.frontEnd net.tree.root s call).1.nextUserStreamId = s.nextUserStreamId + 1 :=
        creation_call call
      rcases hor with hnone | ⟨m, hone, hid, hmore⟩
      · rw [hnone, List.nil_append]
        exact ⟨hnodup, fun m hm => hnext.2.trans (hle m hm)⟩
      · rw [hone, List.singleton_append]
        refine ⟨?_, fun m' hm' => ?_⟩
        · refine List.nodup_cons.mpr ⟨fun hmem => ?_, hnodup⟩
          obtain ⟨m', hm', heq⟩ := List.mem_map.mp hmem
          have hlater := hle m' hm'
          rw [hmore, hsucc, heq, hid] at hlater
          omega
        · rcases List.mem_cons.mp hm' with rfl | hm'
          · rw [hid]
          · exact hnext.2.trans (hle m' hm')

lemma nodup_made (hsession : Session net calls) : ((made net calls).map Creation.id).Nodup :=
  (nodup_calls hsession.ids).1

lemma made_unique (hsession : Session net calls) {m m' : Creation} (hm : m ∈ made net calls)
    (hm' : m' ∈ made net calls) (hid : m.id = m'.id) : m = m' :=
  List.inj_on_of_nodup_map (nodup_made hsession) hm hm' hid

/-- The entry is that of the creation. -/
structure MadeBy (net : Network N S) (n : N) (made : Creation) (stream : Stream N S) : Prop where
  us : stream.usFilterId = (net.filterIds n made.filters).us.toNat
  sync : stream.syncFilterId = (net.filterIds n made.filters).sync.toNat
  ds : stream.dsFilterId = (net.filterIds n made.filters).ds.toNat
  peers : stream.peers = if net.backEnd n then ∅ else net.peers n made.backends

/-- The entries of a node are those of streams that were made there. -/
def Entries (net : Network N S) (n : N) (s : NodeState N S) (made : List Creation) : Prop :=
  ∀ id stream, s.streams id = some stream → ∃ m ∈ made, m.id = id ∧ MadeBy net n m stream

lemma madeBy_newStream {id : BitVec 32} {backends : List Rank} {filters : Filters}
    {stream : Stream N S} (h : (net.newStream n s id backends (net.filterIds n filters)).streams id =
      some stream) : MadeBy net n ⟨id, backends, filters⟩ stream := by
  rw [Network.newStream, set_streams, Function.update_self] at h
  cases h
  exact ⟨rfl, rfl, rfl, rfl⟩

namespace Entries
variable {made more : List Creation}

/-- An entry changes, but not in what it is made with. -/
lemma update (h : Entries net n s made) {id : BitVec 32} {stream : Stream N S}
    {entry : Option (Stream N S)} (hs : s.streams id = some stream)
    (hstreams : s'.streams = Function.update s.streams id entry)
    (hentry : ∀ stream', entry = some stream' → stream'.usFilterId = stream.usFilterId ∧
      stream'.syncFilterId = stream.syncFilterId ∧ stream'.dsFilterId = stream.dsFilterId ∧
      stream'.peers = stream.peers) : Entries net n s' made := by
  intro id' stream' hstream'
  rw [hstreams] at hstream'
  by_cases hid : id' = id
  · subst hid
    rw [Function.update_self] at hstream'
    obtain ⟨hus, hsync, hds, hpeers⟩ := hentry stream' hstream'
    obtain ⟨m, hm, hmid, hmade⟩ := h id' stream hs
    exact ⟨m, hm, hmid, hus.trans hmade.us, hsync.trans hmade.sync, hds.trans hmade.ds,
      hpeers.trans hmade.peers⟩
  · rw [Function.update_of_ne hid] at hstream'
    exact h id' stream' hstream'

lemma created (h : Entries net n s made) {id : BitVec 32} {backends : List Rank} {filters : Filters}
    (hstreams : s'.streams =
      (net.newStream n s id backends (net.filterIds n filters)).streams) :
    Entries net n s' (made ++ [⟨id, backends, filters⟩]) := by
  intro id' stream' hstream'
  rw [hstreams] at hstream'
  by_cases hid : id' = id
  · subst hid
    exact ⟨_, List.mem_append_right _ List.mem_cons_self, rfl, madeBy_newStream hstream'⟩
  · rw [Network.newStream, set_streams, Function.update_of_ne hid] at hstream'
    obtain ⟨m, hm, hmid, hmade⟩ := h id' stream' hstream'
    exact ⟨m, List.mem_append_left _ hm, hmid, hmade⟩

lemma effect (h : Entries net n s made) {items : List Item} (heffect : Effect net n c s s' items more) :
    Entries net n s' (made ++ more) := by
  cases heffect with
  | nothing hs =>
      intro id stream hstream
      rw [hs] at hstream
      rw [List.append_nil]
      exact h id stream hstream
  | created _ _ hstreams => exact h.created hstreams
  | params hs hstreams =>
      rw [List.append_nil]
      refine h.update hs hstreams ?_
      rintro _ ⟨⟩
      exact ⟨rfl, rfl, rfl, rfl⟩
  | deleted hs hstreams =>
      rw [List.append_nil]
      refine h.update hs hstreams ?_
      rintro _ ⟨⟩
  | pushed hs hstreams _ =>
      rw [List.append_nil]
      refine h.update hs hstreams ?_
      rintro _ ⟨⟩
      exact ⟨rfl, rfl, rfl, rfl⟩

end Entries

/-- The entries of a back-end change like those of a node with children. -/
lemma Entries.backEnd {made : List Creation} (h : Entries net n s made)
    (hback : net.backEnd n = true) {x : Item} (hx : Fits net n s x) :
    Entries net n (net.handle n s x).1 (made ++ creation net n s x) := by
  have hroot : n ≠ net.tree.root := by
    rintro rfl
    rw [net.root_frontEnd] at hback
    cases hback
  cases x with
  | call call =>
      cases call with
      | newStream backends filters => exact absurd hx.1 hroot
      | setFilterParameters type id params => exact absurd hx hroot
      | send id packet => exact absurd hx hroot
      | delete id => exact absurd hx hroot
  | message message =>
      cases message with
      | newStream id backends filters =>
          rw [child_newStream hroot hx.2.1 (hx.2.2 n)]
          exact h.created rfl
      | filterParams type packet =>
          obtain ⟨stream, hstream⟩ := Option.isSome_iff_exists.mp (hx.2 _ rfl).2
          show Entries net n _ (made ++ [])
          rw [child_filterParams hroot hstream, List.append_nil]
          refine h.update hstream (set_streams _ _) ?_
          rintro _ ⟨⟩
          exact ⟨rfl, rfl, rfl, rfl⟩
      | deleteStream id =>
          obtain ⟨hid, hsome⟩ := hx.2 _ rfl
          obtain ⟨stream, hstream⟩ := Option.isSome_iff_exists.mp hsome
          show Entries net n _ (made ++ [])
          rw [child_deleteStream hroot hid hstream, if_pos hback, List.append_nil]
          refine h.update hstream (set_streams _ _) ?_
          rintro _ ⟨⟩
          exact ⟨rfl, rfl, rfl, rfl⟩
      | data packet =>
          obtain ⟨stream, hstream⟩ := Option.isSome_iff_exists.mp (hx.2 _ rfl).2
          obtain ⟨storage, buffer, hnext⟩ := child_data hroot hstream
          show Entries net n _ (made ++ [])
          rw [hnext, List.append_nil]
          refine h.update hstream (set_streams _ _) ?_
          rintro _ ⟨⟩
          exact ⟨rfl, rfl, rfl, rfl⟩

/-- The streams of the children of a node are those it was given. -/
lemma entries_state (hstays : StaysOnStream net) {xs : List Item}
    (h : net.relay.Always (Fits net) n xs) :
    Entries net n (net.relay.state n xs) (creations net n xs) := by
  induction xs using List.reverseRecOn with
  | nil => exact fun id stream hstream => by cases hstream
  | append_singleton xs x ih =>
      obtain ⟨hxs, hx, -⟩ := always_append.mp h
      have hnext : Entries net n (net.handle n (net.relay.state n xs) x).1
          (creations net n xs ++ creation net n (net.relay.state n xs) x) := by
        cases hback : net.backEnd n with
        | true => exact (ih hxs).backEnd hback hx
        | false => exact (ih hxs).effect (parent_effect (c := n) hstays hback hx)
      rw [state_append, creations, collect_append]
      exact hnext

/-- The children on a stream are its peers. -/
lemma mem_peers_iff (hcp : net.tree.parent c = some p) (backends : List Rank) :
    c ∈ net.peers p backends ↔ OnStream net c backends := by
  cases backends with
  | nil => exact iff_of_true (ParentTree.mem_children.mpr hcp) (.inl rfl)
  | cons r rs =>
      rw [Network.peers, List.mem_toFinset, List.mem_filterMap]
      constructor
      · rintro ⟨b, hb, houtlet⟩
        obtain ⟨-, d, rfl, hbelow⟩ := (net.outlet_iff p b c).mp houtlet
        exact .inr ⟨d, hb, hbelow⟩
      · rintro (hnil | ⟨d, hd, hbelow⟩)
        · cases hnil
        · exact ⟨net.rank d, hd, (net.outlet_iff p _ c).mpr ⟨hcp, d, rfl, hbelow⟩⟩

/-- When all packets are taken, all nodes have the streams of the front-end, with the filters that
they were made with and the parameters that the front-end set. Of the other ones only the
back-ends keep any, and these are closed. -/
theorem streams_replicated (hstays : StaysOnStream net) (hsession : Session net calls)
    {s : FifoTree.State N Item (NodeState N S)}
    (hrun : Reaches net.relay.step Any (net.relay.start (calls.map .call)) s)
    (hrest : ∀ n, s.queue n = []) (id : BitVec 32) :
    (∀ stream, (s.node net.tree.root).streams id = some stream → ∃ m ∈ made net calls, m.id = id ∧
      ∀ n, n ≠ net.tree.root → ∃ stream', (s.node n).streams id = some stream' ∧
        MadeBy net n m stream' ∧ stream'.wasClosed = false ∧
        (OnStream net n m.backends → stream'.params = stream.params)) ∧
    ((s.node net.tree.root).streams id = none → ∀ n stream', (s.node n).streams id = some stream' →
      net.backEnd n = true ∧ stream'.wasClosed = true) := by
  obtain ⟨taken, htaken⟩ := exists_accounted hrun
  have hchild : ∀ {c p xs}, net.tree.parent c = some p → net.relay.Always (Fits net) p xs →
      net.relay.Always (Fits net) c (net.relay.outputs p c xs) :=
    fun hcp hxs => (mirrors_outputs hstays hcp hxs).2.1
  have hfeed : ∀ n, net.relay.Feeds (calls.map .call) n (taken n) := by
    intro n
    obtain ⟨given, hgiven⟩ := Feeds.exists_feed net.relay (calls.map .call) n
    rw [htaken.eq_feed hrest hgiven]
    exact hgiven
  have halways : ∀ n, net.relay.Always (Fits net) n (taken n) :=
    fun n => (hfeed n).always hsession.always hchild
  have hentries : ∀ n, Entries net n (s.node n) (made net calls) := by
    intro n
    rw [htaken.node n, ← creations_feed hstays hsession (hfeed n)]
    exact entries_state hstays (halways n)
  have hmirrors : ∀ {c p}, net.tree.parent c = some p → Mirrors net c (s.node p) (s.node c) := by
    intro c p hcp
    have hsent : taken c = net.relay.outputs p c (taken p) := by
      rw [← htaken.child hcp, hrest c, List.append_nil]
    rw [htaken.node p, htaken.node c, hsent]
    exact (mirrors_outputs hstays hcp (halways p)).2.2
  refine ⟨fun stream hstream => ?_, fun hnone n => ?_⟩
  · obtain ⟨m, hm, hmid, -⟩ := hentries net.tree.root id stream hstream
    refine ⟨m, hm, hmid, fun n hn => ?_⟩
    have hall : ∃ stream', (s.node n).streams id = some stream' ∧
        (n ≠ net.tree.root → stream'.wasClosed = false) ∧
        (OnStream net n m.backends → stream'.params = stream.params) := by
      clear hn
      refine net.tree.down_induction (P := fun n => ∃ stream', (s.node n).streams id = some stream' ∧
        (n ≠ net.tree.root → stream'.wasClosed = false) ∧
        (OnStream net n m.backends → stream'.params = stream.params))
        ⟨stream, hstream, fun h => absurd rfl h, fun _ => rfl⟩ (fun c p hcp ih => ?_) n
      obtain ⟨stream₁, hstream₁, -, hparams₁⟩ := ih
      obtain ⟨stream₂, hstream₂, halike⟩ := (hmirrors hcp).present id stream₁ hstream₁
      refine ⟨stream₂, hstream₂, fun _ => halike.isOpen, fun hon => ?_⟩
      obtain ⟨m₁, hm₁, hmid₁, hmade₁⟩ := hentries p id stream₁ hstream₁
      obtain rfl := made_unique hsession hm₁ hm (hmid₁.trans hmid.symm)
      have hpeer : c ∈ stream₁.peers := by
        rw [hmade₁.peers, backEnd_of_parent hcp]
        exact (mem_peers_iff hcp _).mpr hon
      rw [halike.params hpeer, hparams₁ (hon.up hcp)]
    obtain ⟨stream', hstream', hopen, hparams⟩ := hall
    obtain ⟨m', hm', hmid', hmade'⟩ := hentries n id stream' hstream'
    obtain rfl := made_unique hsession hm' hm (hmid'.trans hmid.symm)
    exact ⟨stream', hstream', hmade', hopen hn, hparams⟩
  · have hall : (∀ stream', (s.node n).streams id = some stream' → net.backEnd n = true ∧
        stream'.wasClosed = true) := by
      refine net.tree.down_induction (P := fun n => ∀ stream', (s.node n).streams id = some stream' →
        net.backEnd n = true ∧ stream'.wasClosed = true) (fun stream' hstream' => ?_)
        (fun c p hcp ih stream' hstream' => ?_) n
      · rw [hnone] at hstream'
        cases hstream'
      · have hgone : (s.node p).streams id = none := by
          cases hp : (s.node p).streams id with
          | none => rfl
          | some stream₁ =>
              have hback := (ih stream₁ hp).1
              rw [backEnd_of_parent hcp] at hback
              cases hback
        exact (hmirrors hcp).absent id stream' hgone hstream'
    exact hall

theorem streams_replicated_twoBackEnds : ∃ s,
    Reaches twoBackEnds.relay.step Any (twoBackEnds.relay.start (twoStreams.map .call)) s ∧
    ((s.node 0).streams userStrmBaseId).isSome ∧
    (s.node 0).streams (userStrmBaseId + 1) = none ∧ ∀ id,
      (∀ stream, (s.node 0).streams id = some stream → ∃ m ∈ made twoBackEnds twoStreams, m.id = id ∧
        ∀ n, n ≠ 0 → ∃ stream', (s.node n).streams id = some stream' ∧
          MadeBy twoBackEnds n m stream' ∧ stream'.wasClosed = false ∧
          (OnStream twoBackEnds n m.backends → stream'.params = stream.params)) ∧
      ((s.node 0).streams id = none → ∀ n stream', (s.node n).streams id = some stream' →
        twoBackEnds.backEnd n = true ∧ stream'.wasClosed = true) := by
  obtain ⟨s, hrun, hrest⟩ := exists_rest twoBackEnds.relay (twoStreams.map .call)
  obtain ⟨taken, htaken⟩ := exists_accounted hrun
  have hroot : s.node 0 = twoBackEnds.relay.state 0 (twoStreams.map .call) := by
    rw [htaken.node 0, ← htaken.eq_feed hrest .root]
    rfl
  refine ⟨s, hrun, ?_, ?_, streams_replicated twoBackEnds_stays session_twoStreams hrun hrest⟩
  · rw [hroot]
    rfl
  · rw [hroot]
    rfl

end MRNet.Downstream
