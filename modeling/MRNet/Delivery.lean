import MRNet.Forwarding

/-!
# What reaches the back-ends

A packet without destinations reaches the end-points of its stream once each. A packet with
destinations reaches them once each only if no two of them are below the same child of the
front-end: the whole list goes along with every copy.
-/
namespace MRNet.Routing
open Codec Relation Wire StreamPeers MRNet.Topology
open Forest (Link Below)
open WaitForAll (Rank)

variable {t : NetworkTopology} {root : Ptr} {nets : Rank → Network}

/-- The node of the rank is a back-end. -/
def IsBackEnd (t : NetworkTopology) (nets : Rank → Network) (r : Rank) : Prop :=
  (∃ q, t.rankOf q = some r) ∧ (nets r).role = .backEnd

/-- The node holds what a front-end has made itself. -/
def Fresh (packet : Packet) : Prop := packet.inletRank = unknownRank

lemma live_of_rank {q : Ptr} {r : Rank} (hq : t.rankOf q = some r) : t.Live q := by
  rw [NetworkTopology.live_iff_rankOf, hq]
  rfl

namespace Deployment
variable (h : Deployment t root nets)
include h

/-- Only a back-end itself is in its subtree. -/
lemma within_backEnd {q : Ptr} {r d : Rank} (hq : t.rankOf q = some r)
    (hrole : (nets r).role = .backEnd) : Within t d q ↔ d = r := by
  constructor
  · rintro ⟨x, hx, hbelow⟩
    rcases ReflTransGen.cases_tail hbelow with heq | ⟨c, -, hc⟩
    · subst heq
      rw [NetworkTopology.findNode, h.links.keyed, hq] at hx
      exact (Option.some.inj hx).symm
    · exact absurd hc (h.backEnd q r hq hrole c)
  · rintro rfl
    refine ⟨q, ?_, ReflTransGen.refl⟩
    rw [NetworkTopology.findNode, h.links.keyed]
    exact hq

/-- The targets among the back-ends get one copy each, and the other back-ends none. -/
lemma backEnds_once {targets : List Rank} {packet : Packet} {rootRank : Rank}
    (hroot : t.rankOf root = some rootRank) (hfresh : Fresh packet)
    (honce : ArrivesOnce t nets targets packet t.levels root) :
    ∃ reached, arrivals nets t.levels rootRank packet = .ok reached ∧
      ∀ r, IsBackEnd t nets r → reached.count r = if r ∈ targets then 1 else 0 := by
  have habove : FromAbove t root unknownRank := fun c _ => h.known c
  obtain ⟨reached, harrivals, hcount⟩ := honce rootRank unknownRank hroot habove
  rw [← hfresh] at harrivals
  refine ⟨reached, harrivals, ?_⟩
  rintro r ⟨⟨q, hq⟩, hrole⟩
  have hne : q ≠ root := by
    rintro rfl
    rw [(h.frontEnd q r hq).mpr rfl] at hrole
    cases hrole
  have hpasses : Passes t targets root q ↔ r ∈ targets := by
    unfold Passes
    simp only [h.within_backEnd hq hrole]
    constructor
    · rintro (heq | ⟨-, d, hd, rfl⟩)
      · exact absurd heq hne
      · exact hd
    · exact fun hr => .inr ⟨h.connected q (live_of_rank hq), r, hr, rfl⟩
  split_ifs with hr
  · exact (hcount q r hq).1 (hpasses.mpr hr)
  · exact (hcount q r hq).2 fun hpass => hr (hpasses.mp hpass)

/-- A packet to the peers of its stream. -/
lemma arrivesOnce_peers {packet : Packet} (hgt : ctlStrmId < packet.streamId)
    (hdests : getDestinations packet = none)
    (htracks : ∀ p r, t.rankOf p = some r → (nets r).Tracks) {endPoints : List Rank}
    (hstream : ∀ p r, t.rankOf p = some r → ∃ strm,
      (nets r).getStream packet.streamId = some strm ∧ strm.closed = false ∧
        strm.peers = Stream.outlets (nets r).getOutletNode endPoints) :
    ArrivesOnce t nets endPoints packet t.levels root := by
  apply h.arrivesOnce h.root_live
  intro x r inlet _ hx hinlet
  obtain ⟨strm, hstrm, hclosed, hpeers⟩ := hstream x r hx
  have hforward : (nets r).forward { packet with inletRank := inlet } =
      .ok (Stream.outlets (nets r).getOutletNode endPoints) :=
    h.forward_peers { packet with inletRank := inlet } hx (htracks x r hx) hgt hdests hinlet hstrm
      hclosed hpeers
  exact ⟨_, hforward, h.sendsOnce_peers hx (htracks x r hx) endPoints⟩

/-- A packet to a list of ranks of which every child of the front-end has at most one in its
subtree. -/
lemma arrivesOnce_targets {packet : Packet} {targets : List Rank}
    (hopen : ∀ p r, t.rankOf p = some r → Passes t targets root p →
      (packet.streamId < ctlStrmId ∧ (nets r).role = .internal) ∨
        ∃ strm, (nets r).getStream packet.streamId = some strm ∧ strm.closed = false)
    (htracks : ∀ p r, t.rankOf p = some r → (nets r).Tracks)
    (htargets : (packet.streamId < ctlStrmId ∧ targets = [packet.streamId]) ∨
      (ctlStrmId < packet.streamId ∧ getDestinations packet = some targets))
    (hnodup : targets.Nodup)
    (hsingle : ∀ d₁ ∈ targets, ∀ d₂ ∈ targets, ∀ c, Link t.parentOf c root → Within t d₁ c →
      Within t d₂ c → d₁ = d₂) :
    ArrivesOnce t nets targets packet t.levels root := by
  apply h.arrivesOnce h.root_live
  intro x r inlet hpasses hx _
  have hforward : (nets r).forward { packet with inletRank := inlet } =
      .ok (targets.filterMap (nets r).getOutletNode) :=
    h.forward_targets { packet with inletRank := inlet } hx (htracks x r hx)
      (hopen x r hx hpasses) htargets
  refine ⟨_, hforward, ?_⟩
  apply h.sendsOnce_targets hx (htracks x r hx) hnodup
  intro d₁ hd₁ d₂ hd₂ c hc hwithin₁ hwithin₂
  -- The way up from the child ends with a child of the front-end.
  obtain ⟨c₀, hc₀, hbelow⟩ : ∃ c₀, Link t.parentOf c₀ root ∧ Below t.parentOf c c₀ := by
    have hup : TransGen (Link t.parentOf) c root :=
      TransGen.head' hc (h.connected x (live_of_rank hx))
    obtain ⟨c₀, hbelow, hc₀⟩ := TransGen.tail'_iff.mp hup
    exact ⟨c₀, hc₀, hbelow⟩
  have hup : ∀ {d}, Within t d c → Within t d c₀ := by
    rintro d ⟨q, hq, hqc⟩
    exact ⟨q, hq, hqc.trans hbelow⟩
  exact hsingle d₁ hd₁ d₂ hd₂ c₀ hc₀ (hup hwithin₁) (hup hwithin₂)

end Deployment

/-- Two back-ends below the rank 1, and one below the front-end. -/
def twoLevels : Outcome NetworkTopology := do
  let t ← Network.addNode (.create ['a'] 1 0 false) 0 1 ['b'] 2 false
  let t ← Network.addNode t 1 2 ['c'] 0 true
  let t ← Network.addNode t 1 3 ['d'] 0 true
  Network.addNode t 0 4 ['e'] 0 true

/-- The process at a rank of the tree, before its table is built. -/
def processAt (t : NetworkTopology) (endPoints : List Rank) (r : Rank) : Network :=
  { startedFrontEnd with
    localRank := r
    role := if r = 0 then .frontEnd else if r = 1 then .internal else .backEnd
    parent := if r = 0 then none else if r = 2 ∨ r = 3 then some ⟨1, 0⟩ else some ⟨0, 0⟩
    children := if r = 0 then [⟨1, 0⟩, ⟨4, 1⟩] else if r = 1 then [⟨2, 0⟩, ⟨3, 1⟩] else []
    topology := t
    streams := [⟨userStrmBaseId, endPoints, [], false⟩] }

/-- The process at a rank of the tree. -/
def routedAt (t : NetworkTopology) (endPoints : List Rank) (r : Rank) : Network :=
  match (processAt t endPoints r).updateTable with
  | .ok net => net.updateStreams
  | .error _ => processAt t endPoints r

lemma routedAt_eq (t : NetworkTopology) (endPoints : List Rank) (r : Rank) : ∃ table streams,
    routedAt t endPoints r = { processAt t endPoints r with table := table, streams := streams } := by
  unfold routedAt
  cases hupdate : (processAt t endPoints r).updateTable with
  | error e => exact ⟨_, _, rfl⟩
  | ok net =>
      rw [updateTable_eq hupdate]
      exact ⟨_, _, rfl⟩

/-- The nodes and links of the tree. -/
structure TwoLevels (t : NetworkTopology) : Prop where
  links : Links t
  parents : [0, 1, 2, 3, 4].map t.parentOf = [none, some 0, some 1, some 1, some 0]
  ranks : [0, 1, 2, 3, 4].map t.rankOf = [some 0, some 1, some 2, some 3, some 4]
  keys : ∀ p, t.Live p → p ∈ [0, 1, 2, 3, 4]
  tables : ∀ endPoints, ∀ r ∈ ([0, 1, 2, 3, 4] : List Rank),
    { routedAt t endPoints r with table := ∅ }.updateTable = .ok (routedAt t endPoints r)
  streams : ∀ endPoints, ∀ r ∈ ([0, 1, 2, 3, 4] : List Rank),
    (routedAt t endPoints r).getStream userStrmBaseId =
      some (Stream.recomputeChildrenNodes (routedAt t endPoints r).getOutletNode
        ⟨userStrmBaseId, endPoints, [], false⟩)

lemma twoLevels_spec : ∃ t, twoLevels = .ok t ∧ TwoLevels t := by
  obtain ⟨t, ht, hkeys, hparents, hranks, htables, hstreams⟩ : ∃ t, twoLevels = .ok t ∧
      t.heap.keys = {0, 1, 2, 3, 4} ∧
      [0, 1, 2, 3, 4].map t.parentOf = [none, some 0, some 1, some 1, some 0] ∧
      [0, 1, 2, 3, 4].map t.rankOf = [some 0, some 1, some 2, some 3, some 4] ∧
      (∀ endPoints, ∀ r ∈ ([0, 1, 2, 3, 4] : List Rank),
        { routedAt t endPoints r with table := ∅ }.updateTable = .ok (routedAt t endPoints r)) ∧
      ∀ endPoints, ∀ r ∈ ([0, 1, 2, 3, 4] : List Rank),
        (routedAt t endPoints r).getStream userStrmBaseId =
          some (Stream.recomputeChildrenNodes (routedAt t endPoints r).getOutletNode
            ⟨userStrmBaseId, endPoints, [], false⟩) := by
    refine ⟨_, rfl, by decide, rfl, rfl, fun endPoints r hr => ?_, fun endPoints r hr => ?_⟩
    · fin_cases hr <;> rfl
    · fin_cases hr <;> rfl
  obtain ⟨t₁, h₁, hrest⟩ := bind_ok_iff.mp ht
  obtain ⟨t₂, h₂, hrest⟩ := bind_ok_iff.mp hrest
  obtain ⟨t₃, h₃, h₄⟩ := bind_ok_iff.mp hrest
  have hlinks := addNode_links (addNode_links (addNode_links (addNode_links
    (links_create ['a'] 1 0 false) h₁) h₂) h₃) h₄
  refine ⟨t, ht, hlinks, hparents, hranks, fun p hp => ?_, htables, hstreams⟩
  have hmem := Finmap.mem_keys.mpr hp
  rw [hkeys] at hmem
  simpa using hmem

namespace TwoLevels
variable {t : NetworkTopology} (h : TwoLevels t)
include h

lemma rank_cases {p : Ptr} {r : Rank} (hp : t.rankOf p = some r) :
    (p = 0 ∧ r = 0) ∨ (p = 1 ∧ r = 1) ∨ (p = 2 ∧ r = 2) ∨ (p = 3 ∧ r = 3) ∨ (p = 4 ∧ r = 4) := by
  have hmem := h.keys p (live_of_rank hp)
  have hranks := h.ranks
  simp only [List.map_cons, List.map_nil, List.cons.injEq, and_true] at hranks
  obtain ⟨h0, h1, h2, h3, h4⟩ := hranks
  fin_cases hmem <;> simp_all

lemma rank_mem {p : Ptr} {r : Rank} (hp : t.rankOf p = some r) :
    r ∈ ([0, 1, 2, 3, 4] : List Rank) := by
  rcases h.rank_cases hp with ⟨-, rfl⟩ | ⟨-, rfl⟩ | ⟨-, rfl⟩ | ⟨-, rfl⟩ | ⟨-, rfl⟩ <;> simp

lemma link_cases {c p : Ptr} (hc : Link t.parentOf c p) :
    (c = 1 ∧ p = 0) ∨ (c = 2 ∧ p = 1) ∨ (c = 3 ∧ p = 1) ∨ (c = 4 ∧ p = 0) := by
  have hmem := h.keys c (NetworkTopology.live_of_parentOf hc)
  have hparents := h.parents
  simp only [List.map_cons, List.map_nil, List.cons.injEq, and_true] at hparents
  obtain ⟨h0, h1, h2, h3, h4⟩ := hparents
  unfold Link at hc
  fin_cases hmem <;> simp_all

theorem deployment (endPoints : List Rank) : Deployment t 0 (routedAt t endPoints) := by
  have hranks := h.ranks
  have hparents := h.parents
  simp only [List.map_cons, List.map_nil, List.cons.injEq, and_true] at hranks hparents
  obtain ⟨r0, r1, r2, r3, r4⟩ := hranks
  obtain ⟨p0, p1, p2, p3, p4⟩ := hparents
  refine ⟨h.links, live_of_rank r0, p0, ?_, ?_, ?_, ?_, ?_, ?_, ?_⟩
  · intro p hp
    have hmem := h.keys p hp
    have below1 : Below t.parentOf 1 0 := ReflTransGen.single p1
    fin_cases hmem
    · exact ReflTransGen.refl
    · exact below1
    · exact ReflTransGen.head p2 below1
    · exact ReflTransGen.head p3 below1
    · exact ReflTransGen.single p4
  · intro p hp
    rcases h.rank_cases hp with ⟨-, hr⟩ | ⟨-, hr⟩ | ⟨-, hr⟩ | ⟨-, hr⟩ | ⟨-, hr⟩ <;> cases hr
  · intro p r _
    obtain ⟨table, streams, heq⟩ := routedAt_eq t endPoints r
    rw [heq]
    rfl
  · intro p r _
    obtain ⟨table, streams, heq⟩ := routedAt_eq t endPoints r
    rw [heq]
    rfl
  · intro p r hp
    obtain ⟨table, streams, heq⟩ := routedAt_eq t endPoints r
    rw [heq]
    rcases h.rank_cases hp with ⟨rfl, rfl⟩ | ⟨rfl, rfl⟩ | ⟨rfl, rfl⟩ | ⟨rfl, rfl⟩ | ⟨rfl, rfl⟩ <;>
      simp [processAt]
  · intro p r hp hrole c hc
    obtain ⟨table, streams, heq⟩ := routedAt_eq t endPoints r
    rw [heq] at hrole
    rcases h.link_cases hc with ⟨-, rfl⟩ | ⟨-, rfl⟩ | ⟨-, rfl⟩ | ⟨-, rfl⟩ <;>
      rcases h.rank_cases hp with ⟨hp, rfl⟩ | ⟨hp, rfl⟩ | ⟨hp, rfl⟩ | ⟨hp, rfl⟩ | ⟨hp, rfl⟩ <;>
      simp_all [processAt]
  · intro p r c rc hp hc hrc
    obtain ⟨table, streams, heq⟩ := routedAt_eq t endPoints r
    rw [heq]
    rcases h.link_cases hc with ⟨rfl, rfl⟩ | ⟨rfl, rfl⟩ | ⟨rfl, rfl⟩ | ⟨rfl, rfl⟩
    · cases r0.symm.trans hp
      cases r1.symm.trans hrc
      rfl
    · cases r1.symm.trans hp
      cases r2.symm.trans hrc
      rfl
    · cases r1.symm.trans hp
      cases r3.symm.trans hrc
      rfl
    · cases r0.symm.trans hp
      cases r4.symm.trans hrc
      rfl

end TwoLevels

lemma getDestinations_of_nil {packet : Packet} (h : packet.destArr.data = []) :
    getDestinations packet = none := by
  have hlen : packet.destArr.arrayLen = 0 := by
    rw [CArray.arrayLen, h]
    rfl
  rw [getDestinations, if_pos hlen]

/-- A packet without destinations that the front-end sends on a stream reaches every
end-point in the tree once, and no back-end that is not an end-point. -/
theorem broadcast_once (h : Deployment t root nets) {rootRank : Rank}
    (hroot : t.rankOf root = some rootRank)
    (htables : ∀ p r, t.rankOf p = some r → ∃ before : Network, before.updateTable = .ok (nets r))
    {packet : Packet} (hfresh : Fresh packet) (hgt : ctlStrmId < packet.streamId)
    (hdests : packet.destArr.data = []) {endPoints : List Rank}
    (hstream : ∀ p r, t.rankOf p = some r → ∃ strm : Stream,
      strm.closed = false ∧ strm.endPoints = endPoints ∧
        (nets r).getStream packet.streamId =
          some (strm.recomputeChildrenNodes (nets r).getOutletNode)) :
    ∃ reached, arrivals nets t.levels rootRank packet = .ok reached ∧
      (∀ e ∈ endPoints, (t.findNode e).isSome → reached.count e = 1) ∧
      ∀ r, IsBackEnd t nets r → r ∉ endPoints → reached.count r = 0 := by
  have htracks : ∀ p r, t.rankOf p = some r → (nets r).Tracks := by
    intro p r hp
    obtain ⟨before, hupdate⟩ := htables p r hp
    have htop : before.topology = t := by
      rw [← h.topology p r hp, updateTable_eq hupdate]
    exact updateTable_tracks (htop ▸ h.links) hupdate
  have honce : ArrivesOnce t nets endPoints packet t.levels root := by
    apply h.arrivesOnce_peers hgt (getDestinations_of_nil hdests) htracks
    intro p r hp
    obtain ⟨strm, hclosed, hend, hget⟩ := hstream p r hp
    have hopen : ¬strm.closed = true := by simp [hclosed]
    refine ⟨_, hget, ?_, ?_⟩
    · rw [Stream.recomputeChildrenNodes, if_neg hopen]
      exact hclosed
    · rw [Stream.recomputeChildrenNodes, if_neg hopen, ← hend]
  obtain ⟨reached, harrivals, hbackEnds⟩ := h.backEnds_once hroot hfresh honce
  refine ⟨reached, harrivals, fun e he hfound => ?_, fun r hr hnot => ?_⟩
  · obtain ⟨x, hx⟩ := Option.isSome_iff_exists.mp hfound
    obtain ⟨hlive, hrank⟩ := h.links.live_of_findNode hx
    obtain ⟨reached', harrivals', hcount⟩ :=
      honce rootRank unknownRank hroot fun c _ => h.known c
    rw [← hfresh, harrivals] at harrivals'
    cases harrivals'
    exact (hcount x e hrank).1 (.inr ⟨h.connected x hlive, e, he, x, hx, ReflTransGen.refl⟩)
  · rw [hbackEnds r hr, if_neg hnot]

/-- A packet of the front-end to the back-ends 2 and 4 passes the rank 1. -/
theorem broadcast_once_two_levels : ∃ t, twoLevels = .ok t ∧
    ∃ reached, arrivals (routedAt t [2, 4]) t.levels 0 (userPacket unknownRank 10) = .ok reached ∧
      (∀ e ∈ ([2, 4] : List Rank), (t.findNode e).isSome → reached.count e = 1) ∧
      ∀ r, IsBackEnd t (routedAt t [2, 4]) r → r ∉ ([2, 4] : List Rank) →
        reached.count r = 0 := by
  obtain ⟨t, ht, h⟩ := twoLevels_spec
  refine ⟨t, ht, ?_⟩
  apply broadcast_once (h.deployment [2, 4]) (List.cons.inj h.ranks).1
  · exact fun p r hp => ⟨_, h.tables [2, 4] r (h.rank_mem hp)⟩
  · rfl
  · decide
  · rfl
  · exact fun p r hp => ⟨_, rfl, rfl, h.streams [2, 4] r (h.rank_mem hp)⟩

local instance : LawfulBEq Rank := inferInstance

/-- Every destination gets one copy, and no other back-end gets any. -/
def MulticastExact (t : NetworkTopology) (nets : Rank → Network) (rootRank : Rank)
    (packet : Packet) : Prop :=
  ∃ reached, arrivals nets t.levels rootRank packet = .ok reached ∧
    ∀ r, IsBackEnd t nets r → reached.count r = if r ∈ packet.destArr.data then 1 else 0

/-- The stream is open at the nodes that have it, and its peers there are the outlets of its
end-points. A stream to a single back-end is one of the front-end and of that back-end. -/
def StreamReady (t : NetworkTopology) (nets : Rank → Network) (id : BitVec 32)
    (endPoints : List Rank) : Prop :=
  ∀ p r, t.rankOf p = some r →
    (ctlStrmId < id ∨ (nets r).role = .frontEnd ∨ ((nets r).role = .backEnd ∧ r = id)) →
      ∃ strm, (nets r).getStream id = some strm ∧ strm.closed = false ∧
        strm.peers = Stream.outlets (nets r).getOutletNode endPoints

/-- The destinations for which one copy each is made. A stream to a single back-end ignores
the list, and an empty list stands for the end-points of the stream. -/
def Separated (t : NetworkTopology) (root : Ptr) (nets : Rank → Network) (id : BitVec 32)
    (endPoints dests : List Rank) : Prop :=
  if id < ctlStrmId then ∀ r, IsBackEnd t nets r → (r = id ↔ r ∈ dests)
  else if dests = [] then ∀ r, IsBackEnd t nets r → r ∉ endPoints
  else ∀ d₁ ∈ dests, ∀ d₂ ∈ dests, ∀ c, Link t.parentOf c root → Within t d₁ c →
    Within t d₂ c → d₁ = d₂

lemma StreamReady.open {id : BitVec 32} {endPoints : List Rank}
    (h : StreamReady t nets id endPoints) {p : Ptr} {r : Rank} (hp : t.rankOf p = some r)
    (hhas : ctlStrmId < id ∨ (nets r).role = .frontEnd ∨ ((nets r).role = .backEnd ∧ r = id)) :
    ∃ strm, (nets r).getStream id = some strm ∧ strm.closed = false := by
  obtain ⟨strm, hstrm, hclosed, -⟩ := h p r hp hhas
  exact ⟨strm, hstrm, hclosed⟩

/-- The ids of user streams are below or above the one of the control stream. -/
lemma isUserStreamId_cases {id : BitVec 32} (h : Network.isUserStreamId id = true) :
    id < ctlStrmId ∨ ctlStrmId < id := by
  have hbase : ctlStrmId < userStrmBaseId := by decide
  simp only [Network.isUserStreamId, Bool.or_eq_true, decide_eq_true_eq] at h
  rcases h with hge | hlt
  · exact .inr (lt_of_lt_of_le hbase hge)
  · exact .inl hlt

lemma getDestinations_of_ne_nil {packet : Packet} (hne : packet.destArr.data ≠ [])
    (hlen : packet.destArr.data.length < 2 ^ 32) :
    getDestinations packet = some packet.destArr.data := by
  have hpos : 0 < packet.destArr.data.length := List.length_pos_iff.mpr hne
  have hnum : packet.destArr.arrayLen.toNat = packet.destArr.data.length := by
    rw [CArray.arrayLen, BitVec.toNat_ofNat]
    omega
  have hcut : (packet.destArr.arrayLen.setWidth 32).toNat = packet.destArr.data.length := by
    rw [BitVec.toNat_setWidth, hnum]
    omega
  have hnonzero : packet.destArr.arrayLen ≠ 0 := by
    intro hzero
    rw [hzero] at hnum
    simp at hnum
    omega
  rw [getDestinations, if_neg hnonzero, hcut, List.take_length]

/-- There are fewer ranks below a node than ranks. -/
lemma length_lt_of_nodup {ranks : List Rank} {r : Rank} (hnodup : ranks.Nodup) (hr : r ∉ ranks) :
    ranks.length < 2 ^ 32 := by
  have hall : (r :: ranks).Nodup := List.nodup_cons.mpr ⟨hr, hnodup⟩
  have hfin : ((r :: ranks).map BitVec.toFin).Nodup := by
    apply hall.map
    intro a b hab
    exact BitVec.eq_of_toFin_eq hab
  have hcard := hfin.length_le_card
  rw [Fintype.card_fin, List.length_map, List.length_cons] at hcard
  omega

namespace Deployment
variable (h : Deployment t root nets)
include h

/-- Copies for some targets are exact if these are the destinations. -/
lemma multicastExact_iff {targets : List Rank} {packet : Packet} {rootRank : Rank}
    (hroot : t.rankOf root = some rootRank) (hfresh : Fresh packet)
    (honce : ArrivesOnce t nets targets packet t.levels root) :
    MulticastExact t nets rootRank packet ↔
      ∀ r, IsBackEnd t nets r → (r ∈ targets ↔ r ∈ packet.destArr.data) := by
  obtain ⟨reached, harrivals, hcount⟩ := h.backEnds_once hroot hfresh honce
  constructor
  · rintro ⟨reached', harrivals', hcount'⟩ r hr
    rw [harrivals] at harrivals'
    cases harrivals'
    have heq := (hcount r hr).symm.trans (hcount' r hr)
    split_ifs at heq with htarget hdest hdest
    · exact iff_of_true htarget hdest
    · exact iff_of_false htarget hdest
  · intro hiff
    refine ⟨reached, harrivals, fun r hr => ?_⟩
    rw [hcount r hr]
    simp only [hiff r hr]

/-- A packet of a stream to a single back-end, whatever destinations it has. -/
lemma arrivesOnce_single {packet : Packet} (hlt : packet.streamId < ctlStrmId)
    {endPoints : List Rank} (hready : StreamReady t nets packet.streamId endPoints)
    (htracks : ∀ p r, t.rankOf p = some r → (nets r).Tracks) :
    ArrivesOnce t nets [packet.streamId] packet t.levels root := by
  refine h.arrivesOnce_targets ?_ htracks (.inl ⟨hlt, rfl⟩) (List.nodup_singleton _) ?_
  · intro p r hp hpasses
    cases hrole : (nets r).role with
    | frontEnd => exact .inr (hready.open hp (.inr (.inl hrole)))
    | internal => exact .inl ⟨hlt, rfl⟩
    | backEnd =>
        -- Among the back-ends, only the one of the stream is on the way.
        rcases hpasses with rfl | ⟨-, d, hd, hwithin⟩
        · rw [(h.frontEnd p r hp).mpr rfl] at hrole
          cases hrole
        · rw [h.within_backEnd hp hrole, List.mem_singleton.mp hd] at hwithin
          exact .inr (hready.open hp (.inr (.inr ⟨hrole, hwithin.symm⟩)))
  · intro d₁ hd₁ d₂ hd₂ _ _ _ _
    rw [List.mem_singleton.mp hd₁, List.mem_singleton.mp hd₂]

/-- A copy with the whole list comes to every destination below a node. -/
lemma destination_reached {packet : Packet}
    (hopen : ∀ p r, t.rankOf p = some r →
      ∃ strm, (nets r).getStream packet.streamId = some strm ∧ strm.closed = false)
    (htracks : ∀ p r, t.rankOf p = some r → (nets r).Tracks)
    (hgt : ctlStrmId < packet.streamId) {dests : List Rank}
    (hdests : getDestinations packet = some dests) {d : Rank} (hd : d ∈ dests) {n : ℕ} {x : Ptr}
    {r inlet : Rank} (hx : t.rankOf x = some r) (hwithin : Within t d x) {reached : List Rank}
    (harrivals : arrivals nets n r { packet with inletRank := inlet } = .ok reached) :
    d ∈ reached := by
  induction n generalizing x r inlet reached with
  | zero => cases harrivals
  | succ n ih =>
      obtain ⟨peers, hpeers, hrest⟩ := bind_ok_iff.mp harrivals
      obtain ⟨parts, hparts, hres⟩ := bind_ok_iff.mp hrest
      cases hres
      have hforward := h.forward_targets { packet with inletRank := inlet } hx (htracks x r hx)
        (.inr (hopen x r hx)) (.inr ⟨hgt, hdests⟩)
      rw [hpeers] at hforward
      cases hforward
      obtain ⟨q, hq, hbelow⟩ := hwithin
      rcases ReflTransGen.cases_tail hbelow with heq | ⟨c, hqc, hc⟩
      · subst heq
        rw [NetworkTopology.findNode, h.links.keyed, hx] at hq
        cases hq
        exact List.mem_cons_self
      · obtain ⟨peer, hpeer⟩ := h.connects hx hc
        have hout := (h.outlet_iff hx (htracks x r hx) d peer).mpr ⟨c, hpeer, q, hq, hqc⟩
        obtain ⟨part, hpart, hcall⟩ := forall₂_exists_of_mem (mapM_ok_iff.mp hparts)
          (List.mem_filterMap.mpr ⟨d, hd, hout⟩)
        have hmem := ih hpeer.rank ⟨q, hq, hqc⟩ hcall
        exact List.mem_cons_of_mem _ (List.mem_flatten.mpr ⟨part, hpart, hmem⟩)

/-- Two destinations below one child of the front-end get two copies. -/
lemma two_copies {packet : Packet} {rootRank : Rank} (hroot : t.rankOf root = some rootRank)
    (hopen : ∀ p r, t.rankOf p = some r →
      ∃ strm, (nets r).getStream packet.streamId = some strm ∧ strm.closed = false)
    (htracks : ∀ p r, t.rankOf p = some r → (nets r).Tracks)
    (hgt : ctlStrmId < packet.streamId) {dests : List Rank}
    (hdests : getDestinations packet = some dests) {d₁ d₂ : Rank} (hd₁ : d₁ ∈ dests)
    (hd₂ : d₂ ∈ dests) (hne : d₁ ≠ d₂) {c : Ptr} (hc : Link t.parentOf c root)
    (hwithin₁ : Within t d₁ c) (hwithin₂ : Within t d₂ c) {n : ℕ} {reached : List Rank}
    (harrivals : arrivals nets n rootRank packet = .ok reached) : 2 ≤ reached.count d₁ := by
  cases n with
  | zero => cases harrivals
  | succ n =>
      obtain ⟨peers, hpeers, hrest⟩ := bind_ok_iff.mp harrivals
      obtain ⟨parts, hparts, hres⟩ := bind_ok_iff.mp hrest
      cases hres
      have hforward := h.forward_targets packet hroot (htracks root rootRank hroot)
        (.inr (hopen root rootRank hroot)) (.inr ⟨hgt, hdests⟩)
      rw [hpeers] at hforward
      cases hforward
      obtain ⟨peer, hpeer⟩ := h.connects hroot hc
      have hout : ∀ {d}, Within t d c → (nets rootRank).getOutletNode d = some peer := by
        intro d hwithin
        exact (h.outlet_iff hroot (htracks root rootRank hroot) d peer).mpr ⟨c, hpeer, hwithin⟩
      have hcopies : List.Forall₂ (fun p part => decide (p = peer) = true → d₁ ∈ part)
          (dests.filterMap (nets rootRank).getOutletNode) parts := by
        apply (mapM_ok_iff.mp hparts).imp
        intro p part hcall hp
        rw [of_decide_eq_true hp] at hcall
        exact h.destination_reached hopen htracks hgt hdests hd₁ hpeer.rank hwithin₁ hcall
      have htwo : 2 ≤ (dests.filterMap (nets rootRank).getOutletNode).countP
          fun p => decide (p = peer) := by
        have hsub : [d₁, d₂].Subperm dests := by
          apply List.subperm_of_subset (by simpa using hne)
          simp [hd₁, hd₂]
        rw [List.countP_filterMap]
        have hle := hsub.countP_le fun d =>
          (((nets rootRank).getOutletNode d).map fun p => decide (p = peer)).getD false
        simpa [hout hwithin₁, hout hwithin₂] using hle
      calc 2 ≤ _ := htwo
        _ ≤ parts.flatten.count d₁ := countP_le_count_flatten hcopies
        _ ≤ (rootRank :: parts.flatten).count d₁ := List.count_le_count_cons

end Deployment

/-- The front-end is no back-end. -/
lemma Deployment.not_isBackEnd_root (h : Deployment t root nets) {rootRank : Rank}
    (hroot : t.rankOf root = some rootRank) : ¬IsBackEnd t nets rootRank := by
  rintro ⟨-, hrole⟩
  rw [(h.frontEnd root rootRank hroot).mpr rfl] at hrole
  cases hrole

/-- A packet that the front-end sends with a list of back-ends reaches exactly these, once
each, if and only if no two of them are below the same child of the front-end. -/
theorem multicast_exact_iff (h : Deployment t root nets) {rootRank : Rank}
    (hroot : t.rankOf root = some rootRank)
    (htracks : ∀ p r, t.rankOf p = some r → (nets r).Tracks) {packet : Packet}
    (hfresh : Fresh packet) (huser : Network.isUserStreamId packet.streamId = true)
    {endPoints : List Rank} (hready : StreamReady t nets packet.streamId endPoints)
    (hnodup : packet.destArr.data.Nodup)
    (hbackEnds : ∀ d ∈ packet.destArr.data, IsBackEnd t nets d) :
    MulticastExact t nets rootRank packet ↔
      Separated t root nets packet.streamId endPoints packet.destArr.data := by
  unfold Separated
  rcases isUserStreamId_cases huser with hlt | hgt
  · have honce : ArrivesOnce t nets [packet.streamId] packet t.levels root :=
      h.arrivesOnce_single hlt hready htracks
    rw [if_pos hlt, h.multicastExact_iff hroot hfresh honce]
    simp only [List.mem_singleton]
  · rw [if_neg (not_lt_of_gt hgt)]
    have hopen : ∀ p r, t.rankOf p = some r →
        ∃ strm, (nets r).getStream packet.streamId = some strm ∧ strm.closed = false :=
      fun p r hp => hready.open hp (.inl hgt)
    split_ifs with hnil
    · have honce : ArrivesOnce t nets endPoints packet t.levels root := by
        apply h.arrivesOnce_peers hgt (getDestinations_of_nil hnil) htracks
        exact fun p r hp => hready p r hp (.inl hgt)
      rw [h.multicastExact_iff hroot hfresh honce, hnil]
      simp
    · have hroot_notin : rootRank ∉ packet.destArr.data := fun hmem =>
        h.not_isBackEnd_root hroot (hbackEnds rootRank hmem)
      have hdests := getDestinations_of_ne_nil hnil (length_lt_of_nodup hnodup hroot_notin)
      constructor
      · rintro ⟨reached, harrivals, hcount⟩ d₁ hd₁ d₂ hd₂ c hc hwithin₁ hwithin₂
        by_contra hne
        have htwo := h.two_copies hroot hopen htracks hgt hdests hd₁ hd₂ hne hc hwithin₁
          hwithin₂ harrivals
        rw [hcount d₁ (hbackEnds d₁ hd₁), if_pos hd₁] at htwo
        omega
      · intro hsingle
        have honce := h.arrivesOnce_targets (fun p r hp _ => .inr (hopen p r hp)) htracks
          (.inr ⟨hgt, hdests⟩) hnodup hsingle
        rw [h.multicastExact_iff hroot hfresh honce]
        exact fun _ _ => Iff.rfl

/-- A packet on a stream to all three back-ends, with destinations. -/
def directedPacket (dests : CArray (BitVec 32) 4) : Packet :=
  (userPacket unknownRank 10).setDestinations dests

lemma TwoLevels.ready {t : NetworkTopology} (h : TwoLevels t) (endPoints : List Rank) :
    StreamReady t (routedAt t endPoints) userStrmBaseId endPoints :=
  fun _ r hp _ => ⟨_, h.streams endPoints r (h.rank_mem hp), rfl, rfl⟩

lemma TwoLevels.tracks {t : NetworkTopology} (h : TwoLevels t) (endPoints : List Rank) {p : Ptr}
    {r : Rank} (hp : t.rankOf p = some r) : (routedAt t endPoints r).Tracks := by
  have hlinks : Links (routedAt t endPoints r).topology := by
    rw [(h.deployment endPoints).topology p r hp]
    exact h.links
  exact updateTable_tracks hlinks (h.tables endPoints r (h.rank_mem hp))

lemma TwoLevels.isBackEnd {t : NetworkTopology} (h : TwoLevels t) (endPoints : List Rank)
    {r : Rank} (hr : r ∈ ([2, 3, 4] : List Rank)) : IsBackEnd t (routedAt t endPoints) r := by
  have hranks := h.ranks
  simp only [List.map_cons, List.map_nil, List.cons.injEq, and_true] at hranks
  obtain ⟨-, -, r2, r3, r4⟩ := hranks
  obtain ⟨table, streams, heq⟩ := routedAt_eq t endPoints r
  unfold IsBackEnd
  rw [heq]
  fin_cases hr
  · exact ⟨⟨2, r2⟩, rfl⟩
  · exact ⟨⟨3, r3⟩, rfl⟩
  · exact ⟨⟨4, r4⟩, rfl⟩

/-- The back-ends 2 and 4 are below different children of the front-end. -/
theorem multicast_exact_two_levels : ∃ t, twoLevels = .ok t ∧
    MulticastExact t (routedAt t [2, 3, 4]) 0 (directedPacket ⟨[2, 4], by decide⟩) ∧
    Separated t 0 (routedAt t [2, 3, 4]) userStrmBaseId [2, 3, 4] [2, 4] := by
  obtain ⟨t, ht, h⟩ := twoLevels_spec
  have hfresh : Fresh (directedPacket ⟨[2, 4], by decide⟩) := rfl
  have hbackEnds : ∀ d ∈ ([2, 4] : List Rank), IsBackEnd t (routedAt t [2, 3, 4]) d := by
    intro d hd
    apply h.isBackEnd
    fin_cases hd <;> simp
  have hiff := multicast_exact_iff (h.deployment [2, 3, 4]) (List.cons.inj h.ranks).1
    (fun p r hp => h.tracks [2, 3, 4] hp) hfresh (by decide) (h.ready [2, 3, 4]) (by decide)
    hbackEnds
  have hexact : MulticastExact t (routedAt t [2, 3, 4]) 0 (directedPacket ⟨[2, 4], by decide⟩) := by
    obtain ⟨t', ht', hreached⟩ : ∃ t', twoLevels = .ok t' ∧
        arrivals (routedAt t' [2, 3, 4]) t'.levels 0 (directedPacket ⟨[2, 4], by decide⟩) =
          .ok [0, 1, 2, 4] := ⟨_, rfl, rfl⟩
    cases ht'.symm.trans ht
    refine ⟨_, hreached, ?_⟩
    rintro r ⟨⟨p, hp⟩, hrole⟩
    obtain ⟨table, streams, heq⟩ := routedAt_eq t [2, 3, 4] r
    rw [heq] at hrole
    rcases h.rank_cases hp with ⟨-, rfl⟩ | ⟨-, rfl⟩ | ⟨-, rfl⟩ | ⟨-, rfl⟩ | ⟨-, rfl⟩
    · cases hrole
    · cases hrole
    · rfl
    · rfl
    · rfl
  exact ⟨t, ht, hexact, hiff.mp hexact⟩

/-- The back-ends 2 and 3 are both below the rank 1, which is sent two copies and sends two
on for each of them. -/
theorem shared_child_two_copies : ∃ t, twoLevels = .ok t ∧
    Deployment t 0 (routedAt t [2, 3, 4]) ∧
    (∀ p r, t.rankOf p = some r → (routedAt t [2, 3, 4] r).Tracks) ∧
    StreamReady t (routedAt t [2, 3, 4]) userStrmBaseId [2, 3, 4] ∧
    (∀ d ∈ ([2, 3] : List Rank), IsBackEnd t (routedAt t [2, 3, 4]) d) ∧
    ¬MulticastExact t (routedAt t [2, 3, 4]) 0 (directedPacket ⟨[2, 3], by decide⟩) := by
  obtain ⟨t, ht, h⟩ := twoLevels_spec
  have hbackEnds : ∀ d ∈ ([2, 3] : List Rank), IsBackEnd t (routedAt t [2, 3, 4]) d := by
    intro d hd
    apply h.isBackEnd
    fin_cases hd <;> simp
  refine ⟨t, ht, h.deployment [2, 3, 4], fun p r hp => h.tracks [2, 3, 4] hp, h.ready [2, 3, 4],
    hbackEnds, ?_⟩
  obtain ⟨t', ht', hreached⟩ : ∃ t', twoLevels = .ok t' ∧
      arrivals (routedAt t' [2, 3, 4]) t'.levels 0 (directedPacket ⟨[2, 3], by decide⟩) =
        .ok [0, 1, 2, 3, 1, 2, 3] := ⟨_, rfl, rfl⟩
  cases ht'.symm.trans ht
  rintro ⟨reached, harrivals, hcount⟩
  cases hreached.symm.trans harrivals
  cases hcount 2 (hbackEnds 2 (by simp))

end MRNet.Routing
