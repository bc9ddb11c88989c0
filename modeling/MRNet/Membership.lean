import MRNet.StreamPeers

/-!
# WaitForAll under changes of membership

The peers of the stream, the routing table and the topology change between the calls
of `sfilterWaitForAll`. The filter compares the number of the ranks that are ready
with the number of the peers, so a wave is complete as long as every rank with
buffered packets is a peer of the stream or has failed.
-/
namespace MRNet.Membership
open Codec Wire WaitForAll StreamPeers
open Waves (received)

/-- A node with one stream that is synchronized by WaitForAll. -/
structure Site where
  stream : StreamPeers.Stream
  frontEnd : Bool
  recoverFromFailures : Bool
  getOutletNode : Rank → Option PeerNode
  nodeFailed : Rank → Bool
  localStorage : Option WfaState

inductive Event where
  | arrival (packet : Packet)
  | topology (nodeFailed : Rank → Bool)
  | routing (getOutletNode : Rank → Option PeerNode)
  | removeNode (rank : Rank)
  | recomputeChildrenNodes
  | addStreamPeer (rank : Rank)

namespace Site

/-- What the filter sees of the node. -/
def network (site : Site) : WaitForAll.Network where
  getStream := fun id =>
    if id = site.stream.id then some ⟨site.stream.peers.map PeerNode.rank⟩ else none
  nodeFailed := site.nodeFailed

def call (site : Site) (packet : Packet) : Outcome (Option WfaState × List Packet) :=
  sfilterWaitForAll site.network site.localStorage [packet]

def step (site : Site) : Event → Outcome Site
  | .arrival packet => do
      let (localStorage, _) ← site.call packet
      return { site with localStorage := localStorage }
  | .topology nodeFailed => return { site with nodeFailed := nodeFailed }
  | .routing getOutletNode => return { site with getOutletNode := getOutletNode }
  | .removeNode rank =>
      return { site with
        stream := site.stream.removeNode site.frontEnd site.recoverFromFailures rank }
  | .recomputeChildrenNodes =>
      return { site with stream := site.stream.recomputeChildrenNodes site.getOutletNode }
  | .addStreamPeer rank =>
      return { site with stream := site.stream.addStreamPeer site.getOutletNode rank }

/-- Events in their order. -/
def run (site : Site) : List Event → Outcome Site
  | [] => return site
  | event :: events => do
      let site ← site.step event
      site.run events

def queue (site : Site) (r : Rank) : List Packet := (stateOf site.localStorage).queue r

/-- A rank whose buffered packets are due in a wave, or about to be discarded. -/
def Accounted (site : Site) (r : Rank) : Prop :=
  r ∈ site.stream.getChildRanks ∨ site.nodeFailed r = true

/-- The condition on one event: a packet that is buffered comes from a peer, and no
other event takes a rank with buffered packets off the peers while it is alive. -/
def Allowed (site : Site) : Event → Prop
  | .arrival packet => packet.streamId = site.stream.id → packet.inletRank ≠ unknownRank →
      site.Accounted packet.inletRank
  | event => ∀ next, site.step event = .ok next → ∀ r, site.queue r ≠ [] → site.Accounted r →
      next.Accounted r

/-- Every event of a run is allowed in the state it meets. -/
def AllowedRun (site : Site) : List Event → Prop
  | [] => True
  | event :: events => site.Allowed event ∧
      ∀ next, site.step event = .ok next → next.AllowedRun events

end Site

/-- The call with a packet emits a wave. A packet of unknown inlet is passed on and is
no wave. -/
def EmitsWave (site : Site) (packet : Packet) (wave : List Packet) : Prop :=
  packet.inletRank ≠ unknownRank ∧ wave ≠ [] ∧
    ∃ storage, site.call packet = .ok (storage, wave)

/-- Every peer contributes one packet, and nobody else contributes any. -/
def CompleteWave (stream : StreamPeers.Stream) (wave : List Packet) : Prop :=
  ∀ r, (received Packet.inletRank wave r).length = if r ∈ stream.getChildRanks then 1 else 0

/-- What holds between the events: nobody but peers and failed nodes has packets in the
buffer, and each packet is in the slot of its inlet. -/
structure Balanced (site : Site) : Prop where
  ready : ReadyExact (stateOf site.localStorage)
  inlet : ∀ r, ∀ p ∈ site.queue r, p.inletRank = r
  accounted : ∀ r, site.queue r ≠ [] → site.Accounted r

/-- The buffer when the filter counts the ready ranks. -/
def placed (site : Site) (p : Packet) : WfaState :=
  let state := recoverState site.network site.localStorage
  if site.nodeFailed p.inletRank then state else state.place p

lemma call_other (site : Site) {p : Packet} (h : p.streamId ≠ site.stream.id) :
    site.call p = .ok (site.localStorage, []) := by
  simp only [Site.call, sfilterWaitForAll, Site.network, if_neg h]
  rfl

lemma call_unknown (site : Site) {p : Packet} (hid : p.streamId = site.stream.id)
    (h : p.inletRank = unknownRank) :
    site.call p = .ok (some (recoverState site.network site.localStorage), [p]) := by
  simp only [Site.call, sfilterWaitForAll, List.length_singleton, decide_true, placeAll, h, hid,
    Site.network]
  rfl

lemma call_known (site : Site) {p : Packet} (hid : p.streamId = site.stream.id)
    (h : p.inletRank ≠ unknownRank) :
    site.call p =
      let state := placed site p
      if state.readyPeers.card < site.stream.getChildRanks.card then .ok (some state, [])
      else
        let wave := popWave state.packetsByRank.keys.sort state
        .ok (some wave.1, wave.2) := by
  have hplace : placeAll site.network true [p] (recoverState site.network site.localStorage) =
      (placed site p, none) := by
    unfold placed
    by_cases hfail : site.nodeFailed p.inletRank
    · simp [placeAll, h, hfail, Site.network]
    · simp [placeAll, h, hfail, Site.network]
  have hstream : site.network.getStream p.streamId =
      some ⟨site.stream.peers.map PeerNode.rank⟩ := if_pos hid
  simp only [Site.call, sfilterWaitForAll, hstream, List.length_singleton, decide_true, hplace]
  rfl

namespace Balanced
variable {site : Site} (h : Balanced site)
include h

/-- What is left at the start of a call. -/
lemma recovered (r : Rank) : (recoverState site.network site.localStorage).queue r =
    if site.nodeFailed r then [] else site.queue r :=
  (recoverState_spec site.network h.ready).1 r

lemma placed_ready (p : Packet) : ReadyExact (placed site p) := by
  have hready := (recoverState_spec site.network h.ready).2
  unfold placed
  dsimp only
  split_ifs
  · exact hready
  · exact hready.place p

/-- Every packet in the buffer is one of before, or the one that has come in. -/
lemma mem_placed {p q : Packet} {r : Rank} (hq : q ∈ (placed site p).queue r) :
    site.nodeFailed r = false ∧ (q ∈ site.queue r ∨ q = p ∧ p.inletRank = r) := by
  have hold : q ∈ (recoverState site.network site.localStorage).queue r →
      site.nodeFailed r = false ∧ q ∈ site.queue r := by
    intro hmem
    rw [h.recovered r] at hmem
    cases hfail : site.nodeFailed r with
    | true => simp [hfail] at hmem
    | false => exact ⟨rfl, by simpa [hfail] using hmem⟩
  unfold placed at hq
  dsimp only at hq
  split_ifs at hq with hfail
  · exact ⟨(hold hq).1, .inl (hold hq).2⟩
  · rw [queue_place] at hq
    split_ifs at hq with hr
    · rcases List.mem_append.mp hq with hmem | hnew
      · exact ⟨(hold hmem).1, .inl (hold hmem).2⟩
      · exact ⟨by rw [← hr]; simpa using hfail, .inr ⟨List.mem_singleton.mp hnew, hr⟩⟩
    · exact ⟨(hold hq).1, .inl (hold hq).2⟩

lemma inlet_placed {p q : Packet} {r : Rank} (hq : q ∈ (placed site p).queue r) :
    q.inletRank = r := by
  rcases (h.mem_placed hq).2 with hmem | ⟨hqp, hr⟩
  · exact h.inlet r q hmem
  · rw [hqp, hr]

/-- After an allowed arrival only peers have packets in the buffer. -/
lemma peer_of_placed {p : Packet} (hp : site.Accounted p.inletRank) {r : Rank}
    (hr : (placed site p).queue r ≠ []) : r ∈ site.stream.getChildRanks := by
  obtain ⟨q, hq⟩ := List.exists_mem_of_ne_nil _ hr
  obtain ⟨halive, hwhere⟩ := h.mem_placed hq
  have hacc : site.Accounted r := by
    rcases hwhere with hmem | ⟨-, hinlet⟩
    · exact h.accounted r (List.ne_nil_of_mem hmem)
    · exact hinlet ▸ hp
  rcases hacc with hpeer | hfail
  · exact hpeer
  · rw [halive] at hfail
    cases hfail

/-- A wave that is emitted after an allowed arrival is complete. -/
theorem completeWave {p : Packet} (hp : site.Accounted p.inletRank)
    (hcard : ¬(placed site p).readyPeers.card < site.stream.getChildRanks.card) :
    CompleteWave site.stream
      (popWave (placed site p).packetsByRank.keys.sort (placed site p)).2 := by
  have hready := h.placed_ready p
  have hpeers : (placed site p).readyPeers = site.stream.getChildRanks := by
    apply Finset.eq_of_subset_of_card_le
    · intro r hr
      exact h.peer_of_placed hp ((hready r).mp hr)
    · exact not_lt.mp hcard
  intro r
  rw [received_popWave hready fun r q hq => h.inlet_placed hq, ← hpeers]
  by_cases hr : (placed site p).queue r = []
  · have hout : r ∉ (placed site p).readyPeers := fun hin => (hready r).mp hin hr
    simp [hr, hout]
  · obtain ⟨q, rest, hq⟩ := List.exists_cons_of_ne_nil hr
    rw [if_pos ((hready r).mpr hr), hq]
    rfl

/-- The buffer after an allowed arrival holds packets of peers only. -/
lemma of_placed {p : Packet} (hp : site.Accounted p.inletRank) {state : WfaState}
    (hready : ReadyExact state) (hsub : ∀ r, state.queue r ⊆ (placed site p).queue r) :
    Balanced { site with localStorage := some state } where
  ready := hready
  inlet := fun r q hq => h.inlet_placed (hsub r hq)
  accounted := fun r hr => by
    obtain ⟨q, hq⟩ := List.exists_mem_of_ne_nil _ hr
    exact .inl (h.peer_of_placed hp (List.ne_nil_of_mem (hsub r hq)))

/-- An allowed arrival keeps the balance. -/
theorem arrival {p : Packet} (hp : site.Allowed (.arrival p)) {next : Site}
    (hnext : site.step (.arrival p) = .ok next) : Balanced next := by
  obtain ⟨⟨storage, out⟩, hcall, hres⟩ := bind_ok_iff.mp hnext
  cases hres
  by_cases hid : p.streamId = site.stream.id
  · by_cases hknown : p.inletRank = unknownRank
    · rw [call_unknown site hid hknown] at hcall
      cases hcall
      obtain ⟨hqueue, hready⟩ := recoverState_spec site.network h.ready
      have hsub : ∀ r, (recoverState site.network site.localStorage).queue r ⊆ site.queue r := by
        intro r
        rw [h.recovered r]
        split_ifs <;> simp
      refine ⟨hready, fun r q hq => h.inlet r q (hsub r hq), fun r hr => ?_⟩
      obtain ⟨q, hq⟩ := List.exists_mem_of_ne_nil _ hr
      exact h.accounted r (List.ne_nil_of_mem (hsub r hq))
    · have hacc := hp hid hknown
      rw [call_known site hid hknown] at hcall
      dsimp only at hcall
      split_ifs at hcall with hcard
      · cases hcall
        exact h.of_placed hacc (h.placed_ready p) fun r => List.Subset.refl _
      · cases hcall
        have hready := h.placed_ready p
        have hnd := Finset.sort_nodup (placed site p).packetsByRank.keys (· ≤ ·)
        refine h.of_placed hacc (popWave_spec hnd _ hready).2.2.2 fun r => ?_
        rw [queue_popWave hready r]
        exact List.tail_subset _
  · rw [call_other site hid] at hcall
    cases hcall
    exact h

/-- An event that leaves the buffer alone keeps the balance if it keeps the accounts. -/
lemma of_storage_eq {next : Site} (hstorage : next.localStorage = site.localStorage)
    (hacc : ∀ r, site.queue r ≠ [] → site.Accounted r → next.Accounted r) : Balanced next := by
  have hqueue : next.queue = site.queue := by
    funext r
    rw [Site.queue, hstorage]
    rfl
  refine ⟨hstorage ▸ h.ready, fun r q hq => h.inlet r q (hqueue ▸ hq), fun r hr => ?_⟩
  rw [hqueue] at hr
  exact hacc r hr (h.accounted r hr)

/-- One allowed event keeps the balance. -/
theorem step {event : Event} (hallowed : site.Allowed event) {next : Site}
    (hnext : site.step event = .ok next) : Balanced next := by
  cases event with
  | arrival p => exact h.arrival hallowed hnext
  | topology nodeFailed =>
      refine h.of_storage_eq ?_ (hallowed next hnext)
      cases hnext
      rfl
  | routing getOutletNode =>
      refine h.of_storage_eq ?_ (hallowed next hnext)
      cases hnext
      rfl
  | removeNode rank =>
      refine h.of_storage_eq ?_ (hallowed next hnext)
      cases hnext
      rfl
  | recomputeChildrenNodes =>
      refine h.of_storage_eq ?_ (hallowed next hnext)
      cases hnext
      rfl
  | addStreamPeer rank =>
      refine h.of_storage_eq ?_ (hallowed next hnext)
      cases hnext
      rfl

/-- A run of allowed events keeps the balance. -/
theorem run {events : List Event} (hallowed : site.AllowedRun events) {last : Site}
    (hlast : site.run events = .ok last) : Balanced last := by
  induction events generalizing site with
  | nil =>
      cases hlast
      exact h
  | cons event events ih =>
      obtain ⟨next, hstep, hrest⟩ := bind_ok_iff.mp hlast
      exact ih (h.step hallowed.1 hstep) (hallowed.2 next hstep) hrest

/-- A wave is emitted by the last branch of a call only. -/
theorem emitted_completeWave {p : Packet} (hp : site.Allowed (.arrival p)) {wave : List Packet}
    (hwave : EmitsWave site p wave) : CompleteWave site.stream wave := by
  obtain ⟨hknown, hne, storage, hcall⟩ := hwave
  by_cases hid : p.streamId = site.stream.id
  · rw [call_known site hid hknown] at hcall
    dsimp only at hcall
    split_ifs at hcall with hcard
    · cases hcall
      exact absurd rfl hne
    · cases hcall
      exact h.completeWave (hp hid hknown) hcard
  · rw [call_other site hid] at hcall
    cases hcall
    exact absurd rfl hne

end Balanced

lemma Site.AllowedRun.append {site : Site} {events more : List Event}
    (h : site.AllowedRun (events ++ more)) {last : Site} (hlast : site.run events = .ok last) :
    site.AllowedRun events ∧ last.AllowedRun more := by
  induction events generalizing site with
  | nil =>
      cases hlast
      exact ⟨trivial, h⟩
  | cons event events ih =>
      obtain ⟨next, hstep, hrest⟩ := bind_ok_iff.mp hlast
      obtain ⟨hfirst, hmore⟩ := ih (h.2 next hstep) hrest
      refine ⟨⟨h.1, fun next' hstep' => ?_⟩, hmore⟩
      rw [hstep] at hstep'
      cases hstep'
      exact hfirst

/-- Before the first call nothing is buffered. -/
lemma balanced_empty {site : Site} (h : site.localStorage = none) : Balanced site := by
  have hnil : ∀ r, site.queue r = [] := by
    intro r
    rw [Site.queue, h]
    rfl
  refine ⟨?_, fun r q hq => ?_, fun r hr => absurd (hnil r) hr⟩
  · intro r
    rw [h]
    simp [stateOf, WfaState.empty, WfaState.queue]
  · rw [hnil r] at hq
    cases hq

/-- The end-point 11 is reached over the child 1, the end-point 12 over the child 2. -/
def beforeMove : Site where
  stream := ⟨userStrmBaseId, [11, 12], [⟨1, 0⟩, ⟨2, 0⟩], false⟩
  frontEnd := false
  recoverFromFailures := true
  getOutletNode := fun r => if r = 11 then some ⟨1, 0⟩ else some ⟨2, 0⟩
  nodeFailed := fun _ => false
  localStorage := none

/-- The buffer with a packet of the child 1 and one of the child 2. -/
def bothPlaced : WfaState := (WfaState.empty.place (userPacket 1 10)).place (userPacket 2 20)

lemma queue_bothPlaced (r : Rank) : bothPlaced.queue r =
    if r = 1 then [userPacket 1 10] else if r = 2 then [userPacket 2 20] else [] := by
  have hempty : WfaState.empty.queue r = [] := rfl
  rw [bothPlaced, queue_place, queue_place, hempty]
  change (if (2 : Rank) = r then (if (1 : Rank) = r then _ else _) ++ _ else
    if (1 : Rank) = r then _ else _) = _
  by_cases h1 : r = 1
  · subst h1
    rfl
  · by_cases h2 : r = 2
    · subst h2
      rfl
    · rw [if_neg (Ne.symm h2), if_neg (Ne.symm h1), if_neg h1, if_neg h2]

lemma ready_bothPlaced : ReadyExact bothPlaced := by
  have hempty : ReadyExact WfaState.empty := by
    intro r
    simp [WfaState.empty, WfaState.queue]
  exact (hempty.place (userPacket 1 10)).place (userPacket 2 20)

lemma received_bothPlaced (r : Rank) :
    received Packet.inletRank (popWave bothPlaced.packetsByRank.keys.sort bothPlaced).2 r =
      (bothPlaced.queue r).take 1 := by
  refine received_popWave ready_bothPlaced (fun r q hq => ?_) r
  rw [queue_bothPlaced] at hq
  split_ifs at hq with h1 h2
  · rw [List.mem_singleton.mp hq, h1]
    rfl
  · rw [List.mem_singleton.mp hq, h2]
    rfl
  · cases hq

/-- Both packets are in the wave that is taken from the buffer. -/
lemma wave_bothPlaced_ne_nil : (popWave bothPlaced.packetsByRank.keys.sort bothPlaced).2 ≠ [] := by
  intro hnil
  have hone := received_bothPlaced 1
  rw [hnil, queue_bothPlaced] at hone
  cases hone

/-- A node that has the packet of the child 1 in the buffer and gets that of the child 2. -/
lemma emitsWave_bothPlaced {site : Site} (hid : site.stream.id = userStrmBaseId)
    (hone : site.nodeFailed 1 = false) (htwo : site.nodeFailed 2 = false)
    (hstorage : site.localStorage = some (WfaState.empty.place (userPacket 1 10)))
    (hcard : site.stream.getChildRanks.card = 2) :
    EmitsWave site (userPacket 2 20)
      (popWave bothPlaced.packetsByRank.keys.sort bothPlaced).2 := by
  have hplaced : placed site (userPacket 2 20) = bothPlaced := by
    have hrecover : recoverState site.network site.localStorage =
        WfaState.empty.place (userPacket 1 10) := by
      rw [hstorage]
      refine discardFailed_none _ _ fun r hr => ?_
      rw [Finset.mem_sort, Finmap.mem_keys, WfaState.place, Finmap.mem_insert] at hr
      rw [hr.resolve_right Finmap.notMem_empty]
      exact hone
    have halive : site.nodeFailed (userPacket 2 20).inletRank = false := htwo
    rw [placed, hrecover, halive]
    rfl
  refine ⟨by decide, wave_bothPlaced_ne_nil,
    some (popWave bothPlaced.packetsByRank.keys.sort bothPlaced).1, ?_⟩
  rw [call_known site hid.symm (by decide), hplaced, hcard]
  rfl

/-- The node 1 sends a packet. -/
lemma call_beforeMove : beforeMove.call (userPacket 1 10) =
    .ok (some (WfaState.empty.place (userPacket 1 10)), []) := by
  have hplaced : placed beforeMove (userPacket 1 10) = WfaState.empty.place (userPacket 1 10) := rfl
  rw [call_known beforeMove rfl (by decide), hplaced]
  rfl

/-- The end-points 11 and 13 are reached over the children 1 and 3. -/
def beforeFailure : Site where
  stream := ⟨userStrmBaseId, [11, 13], [⟨1, 0⟩, ⟨3, 0⟩], false⟩
  frontEnd := false
  recoverFromFailures := true
  getOutletNode := fun r => if r = 11 then some ⟨1, 0⟩ else some ⟨3, 0⟩
  nodeFailed := fun _ => false
  localStorage := none

/-- The table when the end-point 13 is reached over the child 2. -/
def adoptedTable (r : Rank) : Option PeerNode := if r = 11 then some ⟨1, 0⟩ else some ⟨2, 0⟩

/-- A site of the run below, with what its events change. -/
def adoptionSite (peers : List PeerNode) (getOutletNode : Rank → Option PeerNode)
    (packet : Packet) : Site where
  stream := ⟨userStrmBaseId, [11, 13], peers, false⟩
  frontEnd := false
  recoverFromFailures := true
  getOutletNode := getOutletNode
  nodeFailed := fun r => decide (r = 3)
  localStorage := some (WfaState.empty.place packet)

/-- The node 3 sends a packet and fails. The node 2 takes its end-point and becomes a peer. Then
the node 1 sends a packet. -/
def adoption : List Event := [.arrival (userPacket 3 30), .topology fun r => decide (r = 3),
  .removeNode 3, .routing adoptedTable, .addStreamPeer 13, .arrival (userPacket 1 10)]

def afterAdoption : Site := adoptionSite [⟨2, 0⟩, ⟨1, 0⟩] adoptedTable (userPacket 1 10)

lemma call_beforeFailure : beforeFailure.call (userPacket 3 30) =
    .ok (some (WfaState.empty.place (userPacket 3 30)), []) := by
  have hplaced : placed beforeFailure (userPacket 3 30) = WfaState.empty.place (userPacket 3 30) :=
    rfl
  rw [call_known beforeFailure rfl (by decide), hplaced]
  rfl

/-- The packet of the failed node is discarded. -/
lemma discardFailed_three {net : WaitForAll.Network} (hthree : net.nodeFailed 3 = true) :
    recoverState net (some (WfaState.empty.place (userPacket 3 30))) = WfaState.empty := by
  have hkeys : (WfaState.empty.place (userPacket 3 30)).packetsByRank.keys.sort = [3] := by
    have hset : (WfaState.empty.place (userPacket 3 30)).packetsByRank.keys = {3} := rfl
    rw [hset, Finset.sort_singleton]
  have hslots : (WfaState.empty.place (userPacket 3 30)).packetsByRank.erase 3 = ∅ := by
    refine Finmap.ext_lookup fun r => ?_
    by_cases hr : r = 3
    · rw [hr, Finmap.lookup_erase, Finmap.lookup_empty]
    · rw [Finmap.lookup_erase_ne hr]
      exact Finmap.lookup_insert_of_ne _ hr
  have hready : (WfaState.empty.place (userPacket 3 30)).readyPeers.erase 3 = ∅ := rfl
  rw [recoverState, hkeys, discardFailed, if_pos hthree, hslots, hready]
  rfl

lemma call_adopted : (adoptionSite [⟨2, 0⟩, ⟨1, 0⟩] adoptedTable (userPacket 3 30)).call
    (userPacket 1 10) = .ok (some (WfaState.empty.place (userPacket 1 10)), []) := by
  have hplaced : placed (adoptionSite [⟨2, 0⟩, ⟨1, 0⟩] adoptedTable (userPacket 3 30))
      (userPacket 1 10) = WfaState.empty.place (userPacket 1 10) := by
    have hstorage : (adoptionSite [⟨2, 0⟩, ⟨1, 0⟩] adoptedTable (userPacket 3 30)).localStorage =
        some (WfaState.empty.place (userPacket 3 30)) := rfl
    rw [placed, hstorage, discardFailed_three rfl]
    rfl
  rw [call_known _ rfl (by decide), hplaced]
  rfl

lemma Site.AllowedRun.cons {site : Site} {event : Event} {events : List Event} (next : Site)
    (hallowed : site.Allowed event) (hstep : site.step event = .ok next)
    (hrest : next.AllowedRun events) : site.AllowedRun (event :: events) :=
  ⟨hallowed, fun _ hnext => Except.ok.inj (hstep.symm.trans hnext) ▸ hrest⟩

/-- Nobody but the failed node has packets in the buffer. -/
lemma adoptionSite_kept {peers peers' : List PeerNode} {table table' : Rank → Option PeerNode}
    {r : Rank} (hqueue : (adoptionSite peers table (userPacket 3 30)).queue r ≠ []) :
    (adoptionSite peers' table' (userPacket 3 30)).Accounted r := by
  have hr : r = 3 := by
    by_contra hne
    apply hqueue
    change (WfaState.empty.place (userPacket 3 30)).queue r = []
    have hinlet : (userPacket 3 30).inletRank = 3 := rfl
    rw [queue_place, hinlet, if_neg (Ne.symm hne)]
    rfl
  rw [hr]
  exact .inr rfl

/-- Every event of the run is allowed. -/
lemma adoption_allowed {events : List Event} (hrest : afterAdoption.AllowedRun events) :
    beforeFailure.AllowedRun (adoption ++ events) := by
  have hafter : (adoptionSite [⟨2, 0⟩, ⟨1, 0⟩] adoptedTable (userPacket 3 30)).step
      (.arrival (userPacket 1 10)) = .ok afterAdoption := by
    simp only [Site.step, call_adopted, ok_bind]
    rfl
  have hfirst : beforeFailure.step (.arrival (userPacket 3 30)) = .ok
      { beforeFailure with localStorage := some (WfaState.empty.place (userPacket 3 30)) } := by
    simp only [Site.step, call_beforeFailure, ok_bind]
    rfl
  refine .cons _ (fun _ _ => .inl (by decide)) hfirst ?_
  refine .cons (adoptionSite [⟨1, 0⟩, ⟨3, 0⟩] beforeFailure.getOutletNode (userPacket 3 30))
    (fun next hnext r _ hr => ?_) rfl ?_
  · cases hnext
    exact .inl (hr.resolve_right Bool.false_ne_true)
  refine .cons (adoptionSite [⟨1, 0⟩] beforeFailure.getOutletNode (userPacket 3 30))
    (fun next hnext r hr _ => ?_) rfl ?_
  · cases hnext
    exact adoptionSite_kept hr
  refine .cons (adoptionSite [⟨1, 0⟩] adoptedTable (userPacket 3 30))
    (fun next hnext r hr _ => ?_) rfl ?_
  · cases hnext
    exact adoptionSite_kept hr
  refine .cons (adoptionSite [⟨2, 0⟩, ⟨1, 0⟩] adoptedTable (userPacket 3 30))
    (fun next hnext r hr _ => ?_) rfl ?_
  · cases hnext
    exact adoptionSite_kept hr
  exact .cons _ (fun _ _ => .inl (by decide)) hafter hrest

lemma run_adoption : beforeFailure.run adoption = .ok afterAdoption := by
  have hafter : (adoptionSite [⟨2, 0⟩, ⟨1, 0⟩] adoptedTable (userPacket 3 30)).run
      [.arrival (userPacket 1 10)] = .ok afterAdoption := by
    simp only [Site.run, Site.step, call_adopted, ok_bind]
    rfl
  simp only [adoption, Site.run, Site.step, call_beforeFailure, ok_bind]
  exact hafter

/-- In every run of allowed events every wave that is emitted is complete. -/
theorem run_waves_complete {site : Site} (hstart : site.localStorage = none)
    {events : List Event} {p : Packet} (hallowed : site.AllowedRun (events ++ [.arrival p]))
    {reached : Site} (hrun : site.run events = .ok reached) {wave : List Packet}
    (hwave : EmitsWave reached p wave) : CompleteWave reached.stream wave := by
  obtain ⟨hbefore, hcall⟩ := hallowed.append hrun
  exact ((balanced_empty hstart).run hbefore hrun).emitted_completeWave hcall.1 hwave

/-- After the adoption a packet of the new peer sets off a wave of the two peers, without the
packet of the failed node. -/
theorem run_waves_complete_adoption : ∃ (reached : Site) (wave : List Packet),
    beforeFailure.run adoption = .ok reached ∧
    EmitsWave reached (userPacket 2 20) wave ∧ CompleteWave reached.stream wave := by
  have hwave : EmitsWave afterAdoption (userPacket 2 20) _ :=
    emitsWave_bothPlaced rfl rfl rfl rfl (by decide)
  have hallowed : beforeFailure.AllowedRun (adoption ++ [.arrival (userPacket 2 20)]) :=
    adoption_allowed ⟨fun _ _ => .inl (by decide), fun _ _ => trivial⟩
  exact ⟨_, _, run_adoption, hwave, run_waves_complete rfl hallowed run_adoption hwave⟩

/-- The table when the end-point 11 is reached over the child 3. -/
def movedTable (r : Rank) : Option PeerNode := if r = 11 then some ⟨3, 0⟩ else some ⟨2, 0⟩

/-- The node 1 sends a packet, then its end-point moves below the node 3. -/
def move : List Event := [.arrival (userPacket 1 10), .routing movedTable, .recomputeChildrenNodes]

/-- The child 1 is off the peers with its packet in the buffer. -/
def afterMove : Site where
  stream := ⟨userStrmBaseId, [11, 12], [⟨2, 0⟩, ⟨3, 0⟩], false⟩
  frontEnd := false
  recoverFromFailures := true
  getOutletNode := movedTable
  nodeFailed := fun _ => false
  localStorage := some (WfaState.empty.place (userPacket 1 10))

lemma run_move : beforeMove.run move = .ok afterMove := by
  simp only [move, Site.run, Site.step, call_beforeMove, ok_bind]
  rfl

/-- The packet of the child 2 sets off a wave that lacks the peer 3. -/
theorem wave_of_departed_rank : ∃ (site : Site) (events : List Event) (p : Packet)
    (reached : Site) (wave : List Packet), site.localStorage = none ∧
    site.run events = .ok reached ∧ EmitsWave reached p wave ∧
    ¬CompleteWave reached.stream wave := by
  refine ⟨beforeMove, move, userPacket 2 20, afterMove, _, rfl, run_move,
    emitsWave_bothPlaced rfl rfl rfl rfl (by decide), fun hcomplete => ?_⟩
  have hthree := hcomplete 3
  rw [received_bothPlaced, queue_bothPlaced] at hthree
  cases hthree

end MRNet.Membership
