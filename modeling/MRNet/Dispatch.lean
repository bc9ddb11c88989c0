import MRNet.Routing

/-!
# Dispatch of filter outputs

A push on a stream gives two lists of packets: one goes on in the direction of travel and
one goes back. Translation of the routines that hand them over, each for the roles it is
run in, and the exact condition under which every packet goes where it should. A packet for
the children goes over the connections that `send_PacketToChildren` chooses.
-/
namespace MRNet.Dispatch
open Codec Wire StreamPeers
open Routing (Network Role getDestinations)
open WaitForAll (Rank)

/-- A packet is queued to the parent or to a child, or added to the incoming packets of the
stream. -/
inductive Delivery where
  | parent (packet : Packet)
  | child (peer : PeerNode) (packet : Packet)
  | incoming (packet : Packet)

/-- What `push_Packet` gives for a packet, or for none after a timeout, that travels
upstream or downstream. The filters of the stream are arbitrary. -/
abbrev PushPacket := Option Packet → Bool → List Packet × List Packet

section Routines
variable (net : Network) (pushPacket : PushPacket)

/-- A node without a parent waits for the next one. -/
def sendPacketsToParent (ipackets : List Packet) : Outcome (List Delivery) :=
  if net.role.isLocalNodeChild then return ipackets.map .parent else .error (.fault .assertion)

/-- Nothing is sent of a packet for which -1 is returned. -/
def copies (packet : Packet) : List Delivery :=
  ((net.sendPacketToChildren packet).getD []).map fun peer => .child peer packet

/-- What `send_PacketToChildren` returns is not looked at. -/
def sendPacketsToChildren (ipackets : List Packet) : Outcome (List Delivery) :=
  if net.role.isLocalNodeParent then return ipackets.flatMap (copies net)
  else .error (.fault .assertion)

/-- `if( ! packets.empty() )` in front of a hand-over. -/
def unlessEmpty (packets : List Packet) (handOver : Outcome (List Delivery)) :
    Outcome (List Delivery) :=
  if packets = [] then return [] else handOver

/-- The ids of the back-ends take the fast path past the filters. -/
def filterPacket (ipacket : Packet) (upstream : Bool) : List Packet × List Packet :=
  if ipacket.streamId < ctlStrmId then ([ipacket], []) else pushPacket (some ipacket) upstream

/-- `opackets` is empty when the reverse packets are handed over. -/
def sendAux (closed : Bool) (ipacket : Packet) (upstream internal : Bool) :
    Outcome (List Delivery) :=
  if closed then return []
  else do
    let (opackets, opacketsReverse) := filterPacket pushPacket ipacket upstream
    let sent ← unlessEmpty opackets
      (if upstream then sendPacketsToParent net opackets
      else sendPacketsToChildren net opackets)
    let opackets := []
    let back ← unlessEmpty opacketsReverse
      (if !internal then return opacketsReverse.map .incoming
      else if upstream then sendPacketsToParent net opackets
      else sendPacketsToChildren net opacketsReverse)
    return sent ++ back

/-- `Stream::send`. -/
def send (closed : Bool) (ipacket : Packet) : Outcome (List Delivery) :=
  let upstream := decide (net.role ≠ .frontEnd)
  sendAux net pushPacket closed ipacket upstream false

/-- `Stream::send_internal`; internal sends always go upstream. -/
def sendInternal (closed : Bool) (ipacket : Packet) : Outcome (List Delivery) :=
  sendAux net pushPacket closed ipacket true true

/-- `FrontEndNode::proc_DataFromChildren` on a stream that is found. -/
def frontEndProcDataFromChildren (ipacket : Packet) : Outcome (List Delivery) := do
  let (packets, reversePackets) := filterPacket pushPacket ipacket true
  let back ← unlessEmpty reversePackets (sendPacketsToChildren net reversePackets)
  return packets.map .incoming ++ back

/-- `InternalNode::proc_DataFromParent` on a stream that is found. -/
def internalProcDataFromParent (ipacket : Packet) : Outcome (List Delivery) := do
  let (packets, reversePackets) := filterPacket pushPacket ipacket false
  let sent ← unlessEmpty packets (sendPacketsToChildren net packets)
  let back ← unlessEmpty reversePackets (sendPacketsToParent net packets)
  return sent ++ back

/-- `InternalNode::proc_DataFromChildren` on a stream that is found. -/
def internalProcDataFromChildren (ipacket : Packet) : Outcome (List Delivery) := do
  let (packets, reversePackets) := filterPacket pushPacket ipacket true
  let sent ← unlessEmpty packets (sendPacketsToParent net packets)
  let back ← unlessEmpty reversePackets (sendPacketsToChildren net reversePackets)
  return sent ++ back

/-- `BackEndNode::proc_DataFromParent` on a stream that is found. There is no fast path. -/
def backEndProcDataFromParent (ipacket : Packet) : Outcome (List Delivery) := do
  let (opackets, opacketsReverse) := pushPacket (some ipacket) false
  let back ← unlessEmpty opacketsReverse (sendPacketsToParent net opacketsReverse)
  return back ++ opackets.map .incoming

/-- The part of `EventDetector::handle_Timeout` for one stream. `opackets` is empty when
the reverse packets are handed over. -/
def handleTimeout : Outcome (List Delivery) := do
  let (opackets, opacketsRev) := pushPacket none true
  let sent ← unlessEmpty opackets
    (if net.role = .frontEnd then return opackets.map .incoming
    else sendPacketsToParent net opackets)
  let opackets := []
  let back ← unlessEmpty opacketsRev
    (if net.role = .backEnd then return opacketsRev.map .incoming
    else sendPacketsToChildren net opackets)
  return sent ++ back

end Routines

/-- How a push comes about. -/
inductive Occasion where
  | fromParent (packet : Packet)
  | fromChildren (packet : Packet)
  | sent (closed : Bool) (packet : Packet)
  | timeout

/-- The routine that a node of each role runs. A front-end has no parent, and a back-end
has no children. -/
def dispatch (pushPacket : PushPacket) (net : Network) (occasion : Occasion) :
    Option (Outcome (List Delivery)) :=
  match net.role, occasion with
  | .frontEnd, .fromParent _ => none
  | .frontEnd, .fromChildren p => some (frontEndProcDataFromChildren net pushPacket p)
  | .frontEnd, .sent closed p => some (send net pushPacket closed p)
  | .internal, .fromParent p => some (internalProcDataFromParent net pushPacket p)
  | .internal, .fromChildren p => some (internalProcDataFromChildren net pushPacket p)
  | .internal, .sent closed p => some (sendInternal net pushPacket closed p)
  | .backEnd, .fromParent p => some (backEndProcDataFromParent net pushPacket p)
  | .backEnd, .fromChildren _ => none
  | .backEnd, .sent closed p => some (send net pushPacket closed p)
  | _, .timeout => some (handleTimeout net pushPacket)

/-- The direction of travel. -/
def goingUpstream : Role → Occasion → Bool
  | _, .fromParent _ => false
  | _, .fromChildren _ => true
  | role, .sent _ _ => decide (role ≠ .frontEnd)
  | _, .timeout => true

/-- The forward list and the reverse list of a push. Nothing is pushed on a closed stream
that is sent on. -/
def outputs (pushPacket : PushPacket) (role : Role) : Occasion → List Packet × List Packet
  | .fromParent p =>
      if role = .backEnd then pushPacket (some p) false else filterPacket pushPacket p false
  | .fromChildren p => filterPacket pushPacket p true
  | .sent closed p =>
      if closed then ([], []) else filterPacket pushPacket p (decide (role ≠ .frontEnd))
  | .timeout => pushPacket none true

/-- The children that a packet is for: the one through which its back-end is reached, those
through which its destinations are reached, or the peers of its stream other than its inlet. -/
def addressees (net : Network) (packet : Packet) : List PeerNode :=
  if packet.streamId = ctlStrmId then
    net.children.filter fun peer => peer.rank ≠ packet.inletRank
  else if packet.streamId < ctlStrmId then (net.getOutletNode packet.streamId).toList
  else
    match getDestinations packet, net.getStream packet.streamId with
    | some dests, _ => (dests.filterMap net.getOutletNode).dedup
    | none, some strm => strm.peers.filter fun peer => peer.rank ≠ packet.inletRank
    | none, none => []

/-- One hop upstream or downstream; at the end of the tree it is the incoming buffer. -/
def hop (role : Role) (children : Packet → List Delivery) (upstream : Bool) (packet : Packet) :
    List Delivery :=
  if upstream then if role = .frontEnd then [.incoming packet] else [.parent packet]
  else if role = .backEnd then [.incoming packet] else children packet

/-- A copy for every child that the packet is for. -/
def addressed (net : Network) (packet : Packet) : List Delivery :=
  (addressees net packet).map fun peer => .child peer packet

/-- Every packet of the forward list goes one hop on, every packet of the reverse list one
hop back. -/
def expected (pushPacket : PushPacket) (net : Network) (occasion : Occasion) : List Delivery :=
  let (forward, reverse) := outputs pushPacket net.role occasion
  let upstream := goingUpstream net.role occasion
  forward.flatMap (hop net.role (addressed net) upstream) ++
    reverse.flatMap (hop net.role (addressed net) !upstream)

/-- The packets that are for the children. -/
def downward (pushPacket : PushPacket) (net : Network) (occasion : Occasion) : List Packet :=
  let (forward, reverse) := outputs pushPacket net.role occasion
  if net.role = .backEnd then []
  else if goingUpstream net.role occasion then reverse else forward

/-- The routine delivers what is expected, in whatever order, and nothing else; every packet
for the children is for some child. -/
def DeliversExactly (pushPacket : PushPacket) (net : Network) (occasion : Occasion) : Prop :=
  ∀ routine, dispatch pushPacket net occasion = some routine →
    (∀ p ∈ downward pushPacket net occasion, addressees net p ≠ []) ∧
      ∃ deliveries, routine = .ok deliveries ∧
        deliveries.Perm (expected pushPacket net occasion)

/-- A packet for the children reaches some child, and two of its destinations are not reached
through the same one. -/
def Reaches (net : Network) (packet : Packet) : Prop :=
  if packet.streamId = ctlStrmId then ∃ peer ∈ net.children, peer.rank ≠ packet.inletRank
  else if packet.streamId < ctlStrmId then net.getOutletNode packet.streamId ≠ none
  else
    match getDestinations packet, net.getStream packet.streamId with
    | some dests, _ => (∃ d ∈ dests, net.getOutletNode d ≠ none) ∧
        dests.Pairwise fun d d' => ∀ peer, net.getOutletNode d = some peer →
          net.getOutletNode d' ≠ some peer
    | none, some strm => ∃ peer ∈ strm.peers, peer.rank ≠ packet.inletRank
    | none, none => False

/-- The lists for which the routine does what it should. -/
def Served (pushPacket : PushPacket) (net : Network) (occasion : Occasion) : Prop :=
  let (forward, reverse) := outputs pushPacket net.role occasion
  match net.role, occasion with
  | .frontEnd, .sent _ _ => ∀ p ∈ forward, Reaches net p
  | .frontEnd, .fromChildren _ | .internal, .fromChildren _ => ∀ p ∈ reverse, Reaches net p
  | .internal, .fromParent _ =>
      (∀ p ∈ forward, Reaches net p) ∧ (reverse = [] ∨ forward.Perm reverse)
  | .internal, .sent _ _ | .frontEnd, .timeout | .internal, .timeout => reverse = []
  | .backEnd, _ | .frontEnd, .fromParent _ => True

/-- The deliveries of a routine for the two lists of a push. -/
def delivered (net : Network) (forward reverse : List Packet) (occasion : Occasion) :
    List Delivery :=
  match net.role, occasion with
  | .internal, .fromParent _ =>
      forward.flatMap (copies net) ++ if reverse = [] then [] else forward.map .parent
  | .internal, .sent _ _ | .internal, .timeout => forward.map .parent
  | .frontEnd, .timeout => forward.map .incoming
  | .frontEnd, .sent _ _ => forward.flatMap (copies net) ++ reverse.map .incoming
  | .frontEnd, .fromChildren _ => forward.map .incoming ++ reverse.flatMap (copies net)
  | .internal, .fromChildren _ => forward.map .parent ++ reverse.flatMap (copies net)
  | .backEnd, .fromParent _ => reverse.map .parent ++ forward.map .incoming
  | .backEnd, .sent _ _ | .backEnd, .timeout => forward.map .parent ++ reverse.map .incoming
  | .frontEnd, .fromParent _ | .backEnd, .fromChildren _ => []

section HandOver
variable {net : Network}

lemma sendPacketsToParent_ok (h : net.role ≠ .frontEnd) (ps : List Packet) :
    sendPacketsToParent net ps = .ok (ps.map .parent) := by
  have hchild : net.role.isLocalNodeChild = true := by
    cases hrole : net.role with
    | frontEnd => exact absurd hrole h
    | internal => rfl
    | backEnd => rfl
  rw [sendPacketsToParent, if_pos hchild]
  rfl

lemma sendPacketsToChildren_ok (h : net.role ≠ .backEnd) (ps : List Packet) :
    sendPacketsToChildren net ps = .ok (ps.flatMap (copies net)) := by
  have hparent : net.role.isLocalNodeParent = true := by
    cases hrole : net.role with
    | frontEnd => rfl
    | internal => rfl
    | backEnd => exact absurd hrole h
  rw [sendPacketsToChildren, if_pos hparent]
  rfl

lemma unlessEmpty_ok (ps : List Packet) (ds : List Delivery) :
    unlessEmpty ps (.ok ds) = .ok (if ps = [] then [] else ds) := by
  unfold unlessEmpty
  split_ifs <;> rfl

lemma ite_map (f : Packet → Delivery) (ps : List Packet) :
    (if ps = [] then [] else ps.map f) = ps.map f := by
  cases ps <;> rfl

lemma ite_flatMap (f : Packet → List Delivery) (ps : List Packet) :
    (if ps = [] then [] else ps.flatMap f) = ps.flatMap f := by
  cases ps <;> rfl

end HandOver

section Forms
variable {net : Network} {pushPacket : PushPacket} {forward reverse : List Packet}

lemma sendAux_open {p : Packet} {upstream internal : Bool}
    (h : filterPacket pushPacket p upstream = (forward, reverse)) :
    sendAux net pushPacket false p upstream internal = do
      let sent ← unlessEmpty forward
        (if upstream then sendPacketsToParent net forward else sendPacketsToChildren net forward)
      let back ← unlessEmpty reverse
        (if !internal then .ok (reverse.map .incoming)
        else if upstream then sendPacketsToParent net []
        else sendPacketsToChildren net reverse)
      return sent ++ back := by
  rw [sendAux, h]
  rfl

lemma send_open {p : Packet}
    (h : filterPacket pushPacket p (decide (net.role ≠ .frontEnd)) = (forward, reverse)) :
    send net pushPacket false p = .ok ((if net.role = .frontEnd then forward.flatMap (copies net)
      else forward.map .parent) ++ reverse.map .incoming) := by
  refine (sendAux_open h).trans ?_
  by_cases hrole : net.role = .frontEnd
  · have hdown := fun ps => @sendPacketsToChildren_ok net (by rw [hrole]; decide) ps
    simp [hrole, hdown, unlessEmpty_ok, ite_map, ite_flatMap, pure, Except.pure]
  · simp [hrole, sendPacketsToParent_ok hrole, unlessEmpty_ok, ite_map, pure, Except.pure]

lemma sendInternal_open {p : Packet} (hrole : net.role ≠ .frontEnd)
    (h : filterPacket pushPacket p true = (forward, reverse)) :
    sendInternal net pushPacket false p = .ok (forward.map .parent) := by
  refine (sendAux_open h).trans ?_
  simp [sendPacketsToParent_ok hrole, unlessEmpty_ok, ite_map, pure, Except.pure]

lemma handleTimeout_eq (h : pushPacket none true = (forward, reverse)) :
    handleTimeout net pushPacket = .ok ((if net.role = .frontEnd then forward.map .incoming
      else forward.map .parent) ++ if net.role = .backEnd then reverse.map .incoming else []) := by
  simp only [handleTimeout, h]
  cases hrole : net.role with
  | frontEnd =>
      have hdown := fun ps => @sendPacketsToChildren_ok net (by rw [hrole]; decide) ps
      simp [hdown, unlessEmpty_ok, ite_map, pure, Except.pure]
  | internal =>
      have hdown := fun ps => @sendPacketsToChildren_ok net (by rw [hrole]; decide) ps
      have hup := fun ps => @sendPacketsToParent_ok net (by rw [hrole]; decide) ps
      simp [hdown, hup, unlessEmpty_ok, ite_map, pure, Except.pure]
  | backEnd =>
      have hup := fun ps => @sendPacketsToParent_ok net (by rw [hrole]; decide) ps
      simp [hup, unlessEmpty_ok, ite_map, pure, Except.pure]

/-- Every routine returns, with these deliveries. -/
theorem dispatch_delivered {occasion : Occasion} {routine : Outcome (List Delivery)}
    (h : dispatch pushPacket net occasion = some routine)
    (hout : outputs pushPacket net.role occasion = (forward, reverse)) :
    routine = .ok (delivered net forward reverse occasion) := by
  have hup := fun (hne : net.role ≠ .frontEnd) ps => @sendPacketsToParent_ok net hne ps
  have hdown := fun (hne : net.role ≠ .backEnd) ps => @sendPacketsToChildren_ok net hne ps
  unfold dispatch at h
  unfold delivered
  cases occasion with
  | fromParent p =>
      cases hrole : net.role with
      | frontEnd =>
          rw [hrole] at h
          cases h
      | internal =>
          rw [hrole] at h hout hup hdown
          cases h
          have hfilter : filterPacket pushPacket p false = (forward, reverse) := hout
          simp only [internalProcDataFromParent, hfilter, hup (by decide), hdown (by decide),
            unlessEmpty_ok, ite_flatMap, ok_bind]
          rfl
      | backEnd =>
          rw [hrole] at h hout hup
          cases h
          have hpush : pushPacket (some p) false = (forward, reverse) := hout
          simp only [backEndProcDataFromParent, hpush, hup (by decide), unlessEmpty_ok, ite_map,
            ok_bind]
          rfl
  | fromChildren p =>
      have hfilter : filterPacket pushPacket p true = (forward, reverse) := hout
      cases hrole : net.role with
      | frontEnd =>
          rw [hrole] at h hdown
          cases h
          simp only [frontEndProcDataFromChildren, hfilter, hdown (by decide), unlessEmpty_ok,
            ite_flatMap, ok_bind]
          rfl
      | internal =>
          rw [hrole] at h hup hdown
          cases h
          simp only [internalProcDataFromChildren, hfilter, hup (by decide), hdown (by decide),
            unlessEmpty_ok, ite_map, ite_flatMap, ok_bind]
          rfl
      | backEnd =>
          rw [hrole] at h
          cases h
  | sent closed p =>
      cases closed with
      | true =>
          cases hout
          cases hrole : net.role <;> rw [hrole] at h <;> cases h <;> rfl
      | false =>
          have hfilter : filterPacket pushPacket p (decide (net.role ≠ .frontEnd)) =
              (forward, reverse) := hout
          have hsend := send_open hfilter
          cases hrole : net.role with
          | frontEnd =>
              rw [hrole] at h hsend
              cases h
              exact hsend
          | internal =>
              rw [hrole] at h hfilter
              cases h
              exact sendInternal_open (by rw [hrole]; decide) hfilter
          | backEnd =>
              rw [hrole] at h hsend
              cases h
              exact hsend
  | timeout =>
      have hpush : pushPacket none true = (forward, reverse) := hout
      have htimeout := @handleTimeout_eq net pushPacket forward reverse hpush
      cases hrole : net.role <;> rw [hrole] at h htimeout <;> cases h
      · exact htimeout.trans (congrArg _ (List.append_nil _))
      · exact htimeout.trans (congrArg _ (List.append_nil _))
      · exact htimeout

end Forms

section Copies
variable {net : Network}

/-- The outlets that are sent a packet once. -/
lemma nodup_filterMap_iff (f : Rank → Option PeerNode) (dests : List Rank) :
    (dests.filterMap f).Nodup ↔
      dests.Pairwise fun d d' => ∀ peer, f d = some peer → f d' ≠ some peer := by
  rw [List.Nodup, List.pairwise_filterMap]
  apply iff_of_eq
  congr 1
  funext d d'
  simp only [eq_iff_iff]
  constructor
  · intro h peer hd hd'
    exact h peer hd peer hd' rfl
  · rintro h peer hd peer' hd' rfl
    exact h peer hd hd'

/-- A packet reaches some child, and each child once, exactly if its address does. -/
lemma reaches_iff (net : Network) (p : Packet) :
    Reaches net p ↔ addressees net p ≠ [] ∧ copies net p = addressed net p := by
  have hne : ∀ {peers : List PeerNode}, (∃ peer ∈ peers, peer.rank ≠ p.inletRank) ↔
      (peers.filter fun peer => peer.rank ≠ p.inletRank) ≠ [] := by
    intro peers
    rw [Ne, List.filter_eq_nil_iff]
    simp
  unfold Reaches copies addressed addressees Network.sendPacketToChildren
  split_ifs with hctl hlt
  · exact hne.trans (and_iff_left rfl).symm
  · refine Iff.trans ?_ (and_iff_left rfl).symm
    cases net.getOutletNode p.streamId <;> simp
  · cases getDestinations p with
    | some dests =>
        have hinj : Function.Injective fun peer => Delivery.child peer p :=
          fun _ _ h => (Delivery.child.inj h).1
        have hsome : (∃ d ∈ dests, net.getOutletNode d ≠ none) ↔
            (dests.filterMap net.getOutletNode).dedup ≠ [] := by
          rw [Ne, List.dedup_eq_nil, List.filterMap_eq_nil_iff]
          simp
        refine and_congr hsome ?_
        rw [← nodup_filterMap_iff, ← List.dedup_eq_self, eq_comm]
        exact (hinj.list_map.eq_iff).symm
    | none =>
        cases hstrm : net.getStream p.streamId with
        | none => simp
        | some strm => exact hne.trans (and_iff_left rfl).symm

/-- Every child that a packet is for gets a copy. -/
lemma addressed_sublist (net : Network) (p : Packet) :
    (addressed net p).Sublist (copies net p) := by
  unfold copies addressed addressees Network.sendPacketToChildren
  apply List.Sublist.map
  split_ifs with hctl hlt
  · exact List.Sublist.refl _
  · exact List.Sublist.refl _
  · cases getDestinations p with
    | some dests => exact List.dedup_sublist _
    | none =>
        cases hstrm : net.getStream p.streamId with
        | none => exact List.Sublist.refl _
        | some strm => exact List.Sublist.refl _

/-- Copies too many are not made up for by another packet. -/
lemma copies_perm_iff (ps : List Packet) :
    (ps.flatMap (copies net)).Perm (ps.flatMap (addressed net)) ↔
      ∀ p ∈ ps, copies net p = addressed net p := by
  constructor
  · intro h
    by_contra hne
    push Not at hne
    obtain ⟨p, hp, hne⟩ := hne
    have hlt : (addressed net p).length < (copies net p).length := by
      apply lt_of_le_of_ne (addressed_sublist net p).length_le
      intro hlen
      exact hne ((addressed_sublist net p).eq_of_length hlen).symm
    have hsum := List.sum_lt_sum (fun p => (addressed net p).length)
      (fun p => (copies net p).length) (fun q _ => (addressed_sublist net q).length_le)
      ⟨p, hp, hlt⟩
    have hlength := h.length_eq
    rw [List.length_flatMap, List.length_flatMap] at hlength
    exact hsum.ne' hlength
  · intro h
    rw [List.flatMap_congr h]

/-- All packets for the children go where they should exactly if each of them reaches its
children. -/
lemma all_reach_iff (ps : List Packet) :
    ((∀ p ∈ ps, addressees net p ≠ []) ∧
        (ps.flatMap (copies net)).Perm (ps.flatMap (addressed net))) ↔
      ∀ p ∈ ps, Reaches net p := by
  rw [copies_perm_iff, ← forall₂_and]
  exact forall₂_congr fun p _ => (reaches_iff net p).symm

lemma all_reach_before_iff (ps : List Packet) {back back' : List Delivery} (h : back' = back) :
    ((∀ p ∈ ps, addressees net p ≠ []) ∧
        (ps.flatMap (copies net) ++ back).Perm (ps.flatMap (addressed net) ++ back')) ↔
      ∀ p ∈ ps, Reaches net p := by
  rw [h, List.perm_append_right_iff, all_reach_iff]

lemma all_reach_after_iff {sent sent' : List Delivery} (h : sent' = sent) (ps : List Packet) :
    ((∀ p ∈ ps, addressees net p ≠ []) ∧
        (sent ++ ps.flatMap (copies net)).Perm (sent' ++ ps.flatMap (addressed net))) ↔
      ∀ p ∈ ps, Reaches net p := by
  rw [h, List.perm_append_left_iff, all_reach_iff]

/-- Packets that are for some child are missed. -/
lemma none_lost_iff {sent sent' : List Delivery} (h : sent' = sent) (ps : List Packet) :
    ((∀ p ∈ ps, addressees net p ≠ []) ∧ sent.Perm (sent' ++ ps.flatMap (addressed net))) ↔
      ps = [] := by
  rw [h]
  constructor
  · rintro ⟨hne, hperm⟩
    have hlength := hperm.length_eq
    rw [List.length_append] at hlength
    have hnil : ps.flatMap (addressed net) = [] := List.length_eq_zero_iff.mp (by omega)
    rw [List.flatMap_eq_nil_iff] at hnil
    rw [List.eq_nil_iff_forall_not_mem]
    exact fun p hp => hne p hp (List.map_eq_nil_iff.mp (hnil p hp))
  · rintro rfl
    simp

/-- Lists of which one has a property and the other does not. -/
lemma perm_append_iff {α : Type} (f : α → Bool) {as as' bs bs' : List α}
    (has : ∀ a ∈ as, f a) (has' : ∀ a ∈ as', f a) (hbs : ∀ b ∈ bs, ¬f b) (hbs' : ∀ b ∈ bs', ¬f b) :
    (as ++ bs).Perm (as' ++ bs') ↔ as.Perm as' ∧ bs.Perm bs' := by
  constructor
  · intro h
    have hyes := h.filter f
    have hno := h.filter fun a => !f a
    simp only [List.filter_append] at hyes hno
    rw [List.filter_eq_self.mpr has, List.filter_eq_self.mpr has', List.filter_eq_nil_iff.mpr hbs,
      List.filter_eq_nil_iff.mpr hbs', List.append_nil, List.append_nil] at hyes
    rw [List.filter_eq_nil_iff.mpr (by simpa using has), List.filter_eq_self.mpr (by simpa using hbs),
      List.filter_eq_nil_iff.mpr (by simpa using has'),
      List.filter_eq_self.mpr (by simpa using hbs')] at hno
    exact ⟨hyes, hno⟩
  · rintro ⟨has, hbs⟩
    exact has.append hbs

/-- In place of the answers the packets themselves go to the parent. -/
lemma swapped_iff (forward reverse : List Packet) :
    ((∀ p ∈ forward, addressees net p ≠ []) ∧
        (forward.flatMap (copies net) ++ if reverse = [] then [] else forward.map Delivery.parent).Perm
          (forward.flatMap (addressed net) ++ reverse.map Delivery.parent)) ↔
      (∀ p ∈ forward, Reaches net p) ∧ (reverse = [] ∨ forward.Perm reverse) := by
  let toChild : Delivery → Bool
    | .child _ _ => true
    | .parent _ | .incoming _ => false
  have hcopies : ∀ d ∈ forward.flatMap (copies net), toChild d := by
    intro d hd
    obtain ⟨p, -, hd⟩ := List.mem_flatMap.mp hd
    obtain ⟨peer, -, rfl⟩ := List.mem_map.mp hd
    rfl
  have haddressed : ∀ d ∈ forward.flatMap (addressed net), toChild d := by
    intro d hd
    obtain ⟨p, -, hd⟩ := List.mem_flatMap.mp hd
    obtain ⟨peer, -, rfl⟩ := List.mem_map.mp hd
    rfl
  have hparent : ∀ (ps : List Packet), ∀ d ∈ ps.map Delivery.parent, ¬toChild d := by
    intro ps d hd
    obtain ⟨p, -, rfl⟩ := List.mem_map.mp hd
    exact Bool.false_ne_true
  have hback : ∀ d ∈ (if reverse = [] then [] else forward.map Delivery.parent), ¬toChild d := by
    split_ifs
    · exact fun d hd => nomatch hd
    · exact hparent forward
  rw [perm_append_iff toChild hcopies haddressed hback (hparent reverse), ← and_assoc,
    all_reach_iff]
  apply and_congr_right
  intro _
  split_ifs with hnil
  · simp [hnil]
  · rw [List.map_perm_map_iff fun _ _ h => Delivery.parent.inj h, or_iff_right hnil]

end Copies

section Served
variable {net : Network} {pushPacket : PushPacket} {forward reverse : List Packet}

/-- The deliveries are those expected exactly if the lists are served. -/
theorem delivered_perm_iff {occasion : Occasion} {routine : Outcome (List Delivery)}
    (h : dispatch pushPacket net occasion = some routine)
    (hout : outputs pushPacket net.role occasion = (forward, reverse)) :
    ((∀ p ∈ downward pushPacket net occasion, addressees net p ≠ []) ∧
        (delivered net forward reverse occasion).Perm (expected pushPacket net occasion)) ↔
      Served pushPacket net occasion := by
  have hmap : ∀ (f : Packet → Delivery) (ps : List Packet), (ps.flatMap fun p => [f p]) = ps.map f :=
    fun f ps => List.flatMap_pure_eq_map f ps
  have hends : ∀ (f g : Packet → Delivery), (forward.map f ++ reverse.map g).Perm
      ((forward.flatMap fun p => [f p]) ++ reverse.flatMap fun p => [g p]) := by
    intro f g
    rw [hmap, hmap]
  unfold dispatch at h
  unfold downward expected Served delivered
  rw [hout]
  cases occasion with
  | fromParent p =>
      cases hrole : net.role with
      | frontEnd =>
          rw [hrole] at h
          cases h
      | internal =>
          have hboth := @swapped_iff net forward reverse
          rw [← hmap _ reverse] at hboth
          exact hboth
      | backEnd =>
          exact iff_of_true ⟨fun p hp => (nomatch hp),
            List.perm_append_comm.trans (hends .incoming .parent)⟩ trivial
  | fromChildren p =>
      cases hrole : net.role with
      | frontEnd => exact all_reach_after_iff (hmap .incoming forward) reverse
      | internal => exact all_reach_after_iff (hmap .parent forward) reverse
      | backEnd =>
          rw [hrole] at h
          cases h
  | sent closed p =>
      cases hrole : net.role with
      | frontEnd => exact all_reach_before_iff forward (hmap .incoming reverse)
      | internal => exact none_lost_iff (hmap .parent forward) reverse
      | backEnd => exact iff_of_true ⟨fun p hp => (nomatch hp), hends .parent .incoming⟩ trivial
  | timeout =>
      cases hrole : net.role with
      | frontEnd => exact none_lost_iff (hmap .incoming forward) reverse
      | internal => exact none_lost_iff (hmap .parent forward) reverse
      | backEnd => exact iff_of_true ⟨fun p hp => (nomatch hp), hends .parent .incoming⟩ trivial

end Served

/-- Where there is no such push, nothing is asked of the lists. -/
lemma served_of_dispatch_eq_none {pushPacket : PushPacket} {net : Network} {occasion : Occasion}
    (h : dispatch pushPacket net occasion = none) : Served pushPacket net occasion := by
  unfold dispatch at h
  unfold Served
  cases hrole : net.role <;> cases occasion <;> rw [hrole] at h <;> cases h <;> trivial

/-- A push is delivered as it should be exactly if its lists are served. -/
theorem deliversExactly_iff_served (pushPacket : PushPacket) (net : Network)
    (occasion : Occasion) :
    DeliversExactly pushPacket net occasion ↔ Served pushPacket net occasion := by
  obtain ⟨forward, reverse, hout⟩ : ∃ forward reverse,
      outputs pushPacket net.role occasion = (forward, reverse) := ⟨_, _, rfl⟩
  cases hroutine : dispatch pushPacket net occasion with
  | none =>
      refine iff_of_true (fun routine hsome => ?_) (served_of_dispatch_eq_none hroutine)
      rw [hroutine] at hsome
      cases hsome
  | some routine =>
      have hdelivered := dispatch_delivered hroutine hout
      rw [← delivered_perm_iff hroutine hout]
      constructor
      · intro h
        obtain ⟨hne, deliveries, hok, hperm⟩ := h routine hroutine
        rw [hdelivered] at hok
        cases hok
        exact ⟨hne, hperm⟩
      · rintro ⟨hne, hperm⟩ routine' hroutine'
        rw [hroutine] at hroutine'
        cases hroutine'
        exact ⟨hne, _, hdelivered, hperm⟩

/-- A filter that sends an answer back for what comes down, and lets everything pass. -/
def answering : PushPacket := fun ipacket upstream =>
  match ipacket with
  | none => ([], [])
  | some p => ([p], if upstream then [] else [p.setTag 99])

/-- An internal node between the front-end and two back-ends, with a stream to both. -/
def betweenNode : Network where
  localRank := 1
  role := .internal
  recoverFromFailures := true
  shuttingDown := false
  parent := some ⟨0, 0⟩
  children := [⟨2, 1⟩, ⟨3, 2⟩]
  topology := Topology.NetworkTopology.empty
  table := ∅
  streams := [⟨userStrmBaseId, [2, 3], [⟨2, 1⟩, ⟨3, 2⟩], false⟩]
  internalStreams := []
  updatesBuffer := []
  events := []

/-- The answer of an internal node to its parent is lost, and the packet itself goes up in
its place. -/
theorem answer_not_delivered :
    ¬DeliversExactly answering betweenNode (.fromParent (userPacket 0 10)) := by
  intro h
  obtain ⟨-, deliveries, hok, hperm⟩ := h _ rfl
  have hdelivered : internalProcDataFromParent betweenNode answering (userPacket 0 10) =
      .ok ([userPacket 0 10].flatMap (copies betweenNode) ++ [.parent (userPacket 0 10)]) :=
    @dispatch_delivered betweenNode answering _ _ (.fromParent (userPacket 0 10)) _ rfl rfl
  rw [hdelivered] at hok
  cases hok
  have hmem := hperm.subset (List.mem_append_right _ (List.mem_singleton_self _))
  rcases List.mem_append.mp hmem with hdown | hup
  · obtain ⟨p, -, hdown⟩ := List.mem_flatMap.mp hdown
    obtain ⟨peer, -, hpeer⟩ := List.mem_map.mp hdown
    cases hpeer
  · have hanswer := Delivery.parent.inj (List.mem_singleton.mp hup)
    have htag : (10 : BitVec 32) = 99 := congrArg (fun p : Packet => p.tag) hanswer
    exact absurd htag (by decide)

end MRNet.Dispatch
