import MRNet.Dispatch
import MRNet.TopologyUpdates

/-!
# Packets on their way down

A packet that the front-end sends is handed on from node to node, by the routines of the
nodes. The filters of the stream pass the packet through.
-/
namespace MRNet.Routing
open Codec Relation Wire StreamPeers MRNet.Topology
open Dispatch (Delivery PushPacket)
open Forest (Link Below)
open WaitForAll (Rank)

/-- The filter that hands on what it gets. -/
def passThrough : PushPacket := fun packet _ => (packet.toList, [])

namespace Network

/-- The routine that a node runs for a packet on its way down. -/
def procDataFromParent (net : Network) (ipacket : Packet) : Outcome (List Delivery) :=
  match net.role, net.getStream ipacket.streamId with
  | .frontEnd, some strm => Dispatch.send net passThrough strm.closed ipacket
  | .frontEnd, none => .error .refused
  | .internal, none =>
      if ipacket.streamId > ctlStrmId then .error .refused
      else Dispatch.internalProcDataFromParent net passThrough ipacket
  | .internal, some _ => Dispatch.internalProcDataFromParent net passThrough ipacket
  | .backEnd, some _ => Dispatch.backEndProcDataFromParent net passThrough ipacket
  | .backEnd, none => .error .refused

/-- The connections over which a node hands a packet on. -/
def forward (net : Network) (ipacket : Packet) : Outcome (List PeerNode) := do
  let deliveries ← net.procDataFromParent ipacket
  return deliveries.filterMap fun delivery =>
    match delivery with
    | .child peer _ => some peer
    | .parent _ | .incoming _ => none

end Network

/-- The ranks at which a copy of the packet arrives, starting with the node that has it. A
copy that goes over a connection arrives at the rank of the peer, with the sender as its
inlet. -/
def arrivals (nets : Rank → Network) : ℕ → Rank → Packet → Outcome (List Rank)
  | 0, _, _ => .error (.fault .storePast)
  | levels + 1, rank, ipacket => do
      let outlets ← (nets rank).forward ipacket
      let parts ← outlets.mapM fun peer =>
        arrivals nets levels peer.rank { ipacket with inletRank := rank }
      return rank :: parts.flatten

/-- Every node of a tree runs a process that knows the tree and is connected to its
children. The front-end is at the root, and no back-end has children. -/
structure Deployment (t : NetworkTopology) (root : Ptr) (nets : Rank → Network) : Prop where
  links : Links t
  root_live : t.Live root
  root_parentless : t.parentOf root = none
  connected : ∀ p, t.Live p → Below t.parentOf p root
  /-- `UnknownRank` is the rank of no node. -/
  known : ∀ p, t.rankOf p ≠ some unknownRank
  localRank : ∀ p r, t.rankOf p = some r → (nets r).localRank = r
  topology : ∀ p r, t.rankOf p = some r → (nets r).topology = t
  frontEnd : ∀ p r, t.rankOf p = some r → ((nets r).role = .frontEnd ↔ p = root)
  backEnd : ∀ p r, t.rankOf p = some r → (nets r).role = .backEnd → ∀ c, ¬Link t.parentOf c p
  peers_live : ∀ p r c rc, t.rankOf p = some r → Link t.parentOf c p → t.rankOf c = some rc →
    ((nets r).livePeer rc).isSome

section Deployed
variable {t : NetworkTopology} {root : Ptr} {nets : Rank → Network}

/-- The process at a node sends to the child over the peer. -/
def Connects (t : NetworkTopology) (nets : Rank → Network) (p c : Ptr) (peer : PeerNode) : Prop :=
  ∃ r rc, t.rankOf p = some r ∧ Link t.parentOf c p ∧ t.rankOf c = some rc ∧
    (nets r).livePeer rc = some peer

lemma livePeer_rank {net : Network} {r : Rank} {peer : PeerNode}
    (h : net.livePeer r = some peer) : peer.rank = r := by
  have hchild : ∀ {peer}, (net.children.find? fun peer => peer.rank = r) = some peer →
      peer.rank = r := by
    intro peer hfind
    simpa using List.find?_some hfind
  unfold Network.livePeer at h
  cases hparent : (if net.role.isLocalNodeChild then net.parent else none) with
  | none =>
      rw [hparent] at h
      exact hchild h
  | some parent =>
      rw [hparent] at h
      dsimp only at h
      split_ifs at h with heq
      · cases h
        exact heq
      · exact hchild h

lemma Connects.rank {p c : Ptr} {peer : PeerNode} (h : Connects t nets p c peer) :
    t.rankOf c = some peer.rank := by
  obtain ⟨r, rc, -, -, hrc, hpeer⟩ := h
  rw [livePeer_rank hpeer]
  exact hrc

namespace Deployment
variable (h : Deployment t root nets)
include h

lemma rank_injective {p q : Ptr} {r : Rank} (hp : t.rankOf p = some r) (hq : t.rankOf q = some r) :
    p = q := by
  rw [← h.links.keyed] at hp hq
  exact Option.some.inj (hp.symm.trans hq)

lemma grounded : Grounded t := by
  refine ⟨h.links, fun p => ?_⟩
  by_cases hp : t.Live p
  · induction h.connected p hp using ReflTransGen.head_induction_on with
    | refl => exact .root h.root_parentless
    | @head x y hxy _ ih => exact .link hxy (ih (h.links.parent_live hxy))
  · apply Forest.Rooted.root
    by_contra hne
    obtain ⟨q, hq⟩ := Option.ne_none_iff_exists'.mp hne
    exact hp (NetworkTopology.live_of_parentOf hq)

lemma connects {p c : Ptr} {r : Rank} (hp : t.rankOf p = some r) (hc : Link t.parentOf c p) :
    ∃ peer, Connects t nets p c peer := by
  obtain ⟨rc, hrc⟩ := Option.isSome_iff_exists.mp
    (NetworkTopology.live_iff_rankOf.mp (NetworkTopology.live_of_parentOf hc))
  obtain ⟨peer, hpeer⟩ := Option.isSome_iff_exists.mp (h.peers_live p r c rc hp hc hrc)
  exact ⟨peer, r, rc, hp, hc, hrc, hpeer⟩

/-- Different children have different connections. -/
lemma connects_injective {p c c' : Ptr} {peer : PeerNode} (hc : Connects t nets p c peer)
    (hc' : Connects t nets p c' peer) : c = c' :=
  h.rank_injective hc.rank hc'.rank

/-- With a table that tracks the topology, the outlet of a rank is the connection to the
child in whose subtree it is. -/
lemma outlet_iff {p : Ptr} {r : Rank} (hp : t.rankOf p = some r) (htracks : (nets r).Tracks)
    (d : Rank) (peer : PeerNode) : (nets r).getOutletNode d = some peer ↔
      ∃ c, Connects t nets p c peer ∧ Within t d c := by
  have htop := h.topology p r hp
  have hlocal : (nets r).topology.findNode (nets r).localRank = some p := by
    rw [htop, h.localRank p r hp, NetworkTopology.findNode, h.links.keyed]
    exact hp
  rw [htracks]
  constructor
  · rintro ⟨l, c, hl, hc, hwithin, rc, hrc, hpeer⟩
    rw [hlocal] at hl
    cases hl
    rw [htop] at hc hwithin hrc
    exact ⟨c, ⟨r, rc, hp, hc, hrc, hpeer⟩, hwithin⟩
  · rintro ⟨c, ⟨r', rc, hp', hc, hrc, hpeer⟩, hwithin⟩
    rw [hp] at hp'
    cases hp'
    rw [← htop] at hc hwithin hrc
    exact ⟨p, c, hlocal, hc, hwithin, rc, hrc, hpeer⟩

end Deployment

/-- Among the parts of a list, only the one of a single element has a copy. -/
lemma count_flatten_of_unique {α β : Type} [DecidableEq β] {R : α → Prop} {x : β} {as : List α}
    {parts : List (List β)} (hparts : List.Forall₂ (fun a part =>
      (R a → part.count x = 1) ∧ (¬R a → part.count x = 0)) as parts) (hnodup : as.Nodup)
    (hunique : ∀ a ∈ as, ∀ b ∈ as, R a → R b → a = b) :
    ((∃ a ∈ as, R a) → parts.flatten.count x = 1) ∧
      ((∀ a ∈ as, ¬R a) → parts.flatten.count x = 0) := by
  induction hparts with
  | nil => simp
  | @cons a part as parts hpart _ ih =>
      obtain ⟨hnotin, hnodup⟩ := List.nodup_cons.mp hnodup
      obtain ⟨hone, hnone⟩ := ih hnodup fun b hb c hc =>
        hunique b (List.mem_cons_of_mem _ hb) c (List.mem_cons_of_mem _ hc)
      rw [List.flatten_cons, List.count_append]
      by_cases ha : R a
      · have hrest : ∀ b ∈ as, ¬R b := by
          intro b hb hR
          have heq := hunique a List.mem_cons_self b (List.mem_cons_of_mem _ hb) ha hR
          exact hnotin (heq ▸ hb)
        rw [hpart.1 ha, hnone hrest]
        exact ⟨fun _ => rfl, fun hall => absurd ha (hall a List.mem_cons_self)⟩
      · rw [hpart.2 ha, Nat.zero_add]
        constructor
        · rintro ⟨b, hb, hR⟩
          rcases List.mem_cons.mp hb with rfl | hb
          · exact absurd hR ha
          · exact hone ⟨b, hb, hR⟩
        · exact fun hall => hnone fun b hb => hall b (List.mem_cons_of_mem _ hb)

/-- Copies in the parts of several elements add up. -/
lemma countP_le_count_flatten {α β : Type} [DecidableEq β] {R : α → Bool} {x : β} {as : List α}
    {parts : List (List β)} (hparts : List.Forall₂ (fun a part => R a = true → x ∈ part) as parts) :
    as.countP R ≤ parts.flatten.count x := by
  induction hparts with
  | nil => simp
  | @cons a part as parts hpart _ ih =>
      rw [List.flatten_cons, List.count_append, List.countP_cons]
      split_ifs with ha
      · have hpos := List.count_pos_iff.mpr (hpart ha)
        omega
      · omega

/-- A copy that starts at `p` should pass `q`. -/
def Passes (t : NetworkTopology) (targets : List Rank) (p q : Ptr) : Prop :=
  q = p ∨ (Below t.parentOf q p ∧ ∃ d ∈ targets, Within t d q)

/-- One copy goes to every child that has a target in its subtree, and no other. -/
def SendsOnce (t : NetworkTopology) (nets : Rank → Network) (targets : List Rank) (p : Ptr)
    (peers : List PeerNode) : Prop :=
  peers.Nodup ∧ ∀ peer, peer ∈ peers ↔
    ∃ c, Connects t nets p c peer ∧ ∃ d ∈ targets, Within t d c

/-- The inlet of a packet is no child. -/
def FromAbove (t : NetworkTopology) (p : Ptr) (inlet : Rank) : Prop :=
  ∀ c, Link t.parentOf c p → t.rankOf c ≠ some inlet

/-- One copy passes every node on the way from a node, and no other node. -/
def ArrivesOnce (t : NetworkTopology) (nets : Rank → Network) (targets : List Rank)
    (packet : Packet) (n : ℕ) (p : Ptr) : Prop :=
  ∀ r inlet, t.rankOf p = some r → FromAbove t p inlet →
    ∃ reached, arrivals nets n r { packet with inletRank := inlet } = .ok reached ∧
      ∀ q rq, t.rankOf q = some rq → (Passes t targets p q → reached.count rq = 1) ∧
        (¬Passes t targets p q → reached.count rq = 0)

lemma Connects.unique {p c : Ptr} {peer peer' : PeerNode} (h : Connects t nets p c peer)
    (h' : Connects t nets p c peer') : peer = peer' := by
  obtain ⟨r, rc, hr, -, hrc, hpeer⟩ := h
  obtain ⟨r', rc', hr', -, hrc', hpeer'⟩ := h'
  rw [hr] at hr'
  cases hr'
  rw [hrc] at hrc'
  cases hrc'
  exact Option.some.inj (hpeer.symm.trans hpeer')

lemma Connects.link {p c : Ptr} {peer : PeerNode} (h : Connects t nets p c peer) :
    Link t.parentOf c p := by
  obtain ⟨-, -, -, hlink, -⟩ := h
  exact hlink

namespace Deployment
variable (h : Deployment t root nets)
include h

lemma not_circular (p : Ptr) : ¬TransGen (Link t.parentOf) p p :=
  (h.grounded.rooted p).not_circular

lemma fromAbove_child {p c : Ptr} {r : Rank} (hp : t.rankOf p = some r)
    (hc : Link t.parentOf c p) : FromAbove t c r := by
  intro g hg hrank
  have heq := h.rank_injective hrank hp
  subst heq
  exact h.not_circular g (TransGen.head hg (TransGen.single hc))

/-- The part of a copy that goes to the child. -/
lemma passes_child {targets : List Rank} {p q c : Ptr} (hc : Link t.parentOf c p)
    (htarget : ∃ d ∈ targets, Within t d c) (hpass : Passes t targets c q) :
    q ≠ p ∧ Passes t targets p q ∧ Below t.parentOf q c := by
  have hbelow : Below t.parentOf q c := by
    rcases hpass with rfl | ⟨hbelow, -⟩
    · exact ReflTransGen.refl
    · exact hbelow
  refine ⟨?_, .inr ⟨hbelow.tail hc, ?_⟩, hbelow⟩
  · rintro rfl
    exact h.not_circular q (TransGen.tail' hbelow hc)
  · rcases hpass with rfl | ⟨-, htarget'⟩
    · exact htarget
    · exact htarget'

/-- A node hands on one copy to each child on the way. -/
lemma arrivesOnce_step {targets : List Rank} {packet : Packet} {n : ℕ} {x : Ptr}
    (hforward : ∀ r inlet, t.rankOf x = some r → FromAbove t x inlet →
      ∃ peers, (nets r).forward { packet with inletRank := inlet } = .ok peers ∧
        SendsOnce t nets targets x peers)
    (hchildren : ∀ c, Link t.parentOf c x → (∃ d ∈ targets, Within t d c) →
      ArrivesOnce t nets targets packet n c) :
    ArrivesOnce t nets targets packet (n + 1) x := by
  intro r inlet hr hinlet
  obtain ⟨peers, hpeers, hnodup, hmem⟩ := hforward r inlet hr hinlet
  have hchild : ∀ {peer c}, Connects t nets x c peer → (∃ d ∈ targets, Within t d c) →
      ∃ part, arrivals nets n peer.rank { packet with inletRank := r } = .ok part ∧
        ∀ q rq, t.rankOf q = some rq → (Passes t targets c q → part.count rq = 1) ∧
          (¬Passes t targets c q → part.count rq = 0) := by
    intro peer c hc htarget
    exact hchildren c hc.link htarget peer.rank r hc.rank (h.fromAbove_child hr hc.link)
  obtain ⟨parts, hparts⟩ : ∃ parts, peers.mapM (fun peer =>
      arrivals nets n peer.rank { packet with inletRank := r }) = .ok parts := by
    simp only [mapM_ok_iff]
    apply forall₂_of_exists
    intro peer hpeer
    obtain ⟨c, hc, htarget⟩ := (hmem peer).mp hpeer
    obtain ⟨part, hpart, -⟩ := hchild hc htarget
    exact ⟨part, hpart⟩
  refine ⟨r :: parts.flatten, bind_ok_iff.mpr ⟨peers, hpeers, bind_ok_iff.mpr
    ⟨parts, hparts, rfl⟩⟩, fun q rq hq => ?_⟩
  -- The copy of a peer passes `q` if it goes to the child with `q` in its subtree.
  let Via (peer : PeerNode) : Prop := ∃ c, Connects t nets x c peer ∧ Passes t targets c q
  have hvia : ∀ {peer}, peer ∈ peers → Via peer →
      q ≠ x ∧ Passes t targets x q ∧ ∃ c, Connects t nets x c peer ∧ Below t.parentOf q c := by
    rintro peer hpeer ⟨c, hc, hpass⟩
    obtain ⟨c', hc', htarget⟩ := (hmem peer).mp hpeer
    have heq := h.connects_injective hc hc'
    subst heq
    obtain ⟨hne, hpass', hbelow⟩ := h.passes_child hc.link htarget hpass
    exact ⟨hne, hpass', c, hc, hbelow⟩
  have hcount : List.Forall₂ (fun peer part =>
      (Via peer → part.count rq = 1) ∧ (¬Via peer → part.count rq = 0)) peers parts := by
    have hcalls := (List.forall₂_and_left (p := (· ∈ peers)) peers parts).mpr
      ⟨fun peer hpeer => hpeer, mapM_ok_iff.mp hparts⟩
    apply hcalls.imp
    rintro peer part ⟨hpeer, hcall⟩
    obtain ⟨c, hc, htarget⟩ := (hmem peer).mp hpeer
    obtain ⟨part', hpart', hpasses⟩ := hchild hc htarget
    rw [hcall] at hpart'
    cases hpart'
    constructor
    · rintro ⟨c', hc', hpass⟩
      rw [h.connects_injective hc' hc] at hpass
      exact (hpasses q rq hq).1 hpass
    · intro hno
      exact (hpasses q rq hq).2 fun hpass => hno ⟨c, hc, hpass⟩
  obtain ⟨hone, hnone⟩ := count_flatten_of_unique hcount hnodup (by
    intro a ha b hb hva hvb
    obtain ⟨-, -, c, hc, hqc⟩ := hvia ha hva
    obtain ⟨-, -, c', hc', hqc'⟩ := hvia hb hvb
    have heq := Forest.child_unique (h.not_circular c) (h.not_circular c') hc.link hc'.link
      hqc hqc'
    subst heq
    exact hc.unique hc')
  by_cases hqx : q = x
  · subst hqx
    rw [hr] at hq
    cases hq
    rw [List.count_cons_self, hnone fun peer hpeer hv => (hvia hpeer hv).1 rfl]
    exact ⟨fun _ => rfl, fun hno => absurd (.inl rfl) hno⟩
  · have hrq : r ≠ rq := by
      rintro rfl
      exact hqx (h.rank_injective hq hr)
    rw [List.count_cons_of_ne hrq]
    constructor
    · rintro (heq | ⟨hbelow, d, hd, hwithin⟩)
      · exact absurd heq hqx
      · apply hone
        rcases ReflTransGen.cases_tail hbelow with heq | ⟨c, hqc, hc⟩
        · exact absurd heq.symm hqx
        · obtain ⟨peer, hpeer⟩ := h.connects hr hc
          obtain ⟨dp, hdp, hdq⟩ := hwithin
          refine ⟨peer, (hmem peer).mpr ⟨c, hpeer, d, hd, dp, hdp, hdq.trans hqc⟩, c, hpeer,
            .inr ⟨hqc, d, hd, dp, hdp, hdq⟩⟩
    · intro hno
      exact hnone fun peer hpeer hv => hno (hvia hpeer hv).2.1

/-- If every node on the way hands on one copy to each child on the way, then one copy
passes every node on the way. -/
theorem arrivesOnce {targets : List Rank} {packet : Packet} {p : Ptr} (hp : t.Live p)
    (hforward : ∀ x r inlet, Passes t targets p x → t.rankOf x = some r → FromAbove t x inlet →
      ∃ peers, (nets r).forward { packet with inletRank := inlet } = .ok peers ∧
        SendsOnce t nets targets x peers) :
    ArrivesOnce t nets targets packet t.levels p := by
  have hpasses : Passes t targets p p → ArrivesOnce t nets targets packet t.levels p := by
    apply levels_induction h.links hp (h.grounded.wellFounded.apply p)
      (P := fun n x => Passes t targets p x → ArrivesOnce t nets targets packet n x)
    intro n x node hnode hchildren hx
    apply h.arrivesOnce_step fun r inlet => hforward x r inlet hx
    intro c hc htarget
    have hbelow : Below t.parentOf x p := by
      rcases hx with rfl | ⟨hbelow, -⟩
      · exact ReflTransGen.refl
      · exact hbelow
    exact hchildren c ((mem_childrenOf_iff h.links hnode c).mpr hc)
      (.inr ⟨ReflTransGen.head hc hbelow, htarget⟩)
  exact hpasses (.inl rfl)

end Deployment

lemma filterPacket_passThrough (packet : Packet) (upstream : Bool) :
    Dispatch.filterPacket passThrough packet upstream = ([packet], []) := by
  unfold Dispatch.filterPacket
  split_ifs <;> rfl

/-- A node with children hands the packet on to them, and a back-end keeps it. -/
lemma forward_eq {net : Network} {packet : Packet}
    (hopen : (packet.streamId < ctlStrmId ∧ net.role = .internal) ∨
      ∃ strm, net.getStream packet.streamId = some strm ∧ strm.closed = false) :
    net.forward packet =
      .ok (if net.role = .backEnd then [] else (net.sendPacketToChildren packet).getD []) := by
  have hcopies : ∀ deliveries, net.procDataFromParent packet = .ok deliveries →
      deliveries = Dispatch.copies net packet →
      net.forward packet = .ok ((net.sendPacketToChildren packet).getD []) := by
    rintro _ hproc rfl
    rw [Network.forward, hproc, ok_bind, Dispatch.copies, List.filterMap_map]
    exact congrArg Except.ok List.filterMap_some
  have hone : [packet].flatMap (Dispatch.copies net) ++ [] = Dispatch.copies net packet := by simp
  have hfilter := filterPacket_passThrough packet false
  cases hrole : net.role with
  | frontEnd =>
      rcases hopen with ⟨-, hinternal⟩ | ⟨strm, hstrm, hclosed⟩
      · rw [hrole] at hinternal
        cases hinternal
      · rw [if_neg (by simp)]
        refine hcopies _ ?_ hone
        have hfrontEnd := filterPacket_passThrough packet (decide (net.role ≠ .frontEnd))
        have hsend := Dispatch.send_open hfrontEnd
        rw [if_pos hrole] at hsend
        simp only [Network.procDataFromParent, hrole, hstrm, hclosed]
        exact hsend
  | internal =>
      have hdispatch : Dispatch.dispatch passThrough net (.fromParent packet) =
          some (Dispatch.internalProcDataFromParent net passThrough packet) := by
        unfold Dispatch.dispatch
        rw [hrole]
      have hinternal := @Dispatch.dispatch_delivered net passThrough [packet] []
        (.fromParent packet) _ hdispatch (by rw [hrole]; exact hfilter)
      unfold Dispatch.delivered at hinternal
      rw [hrole] at hinternal
      rw [if_neg (by simp)]
      refine hcopies _ ?_ hone
      rcases hopen with ⟨hbackEnd, -⟩ | ⟨strm, hstrm, -⟩
      · cases hstrm : net.getStream packet.streamId with
        | none =>
            have hnot : ¬packet.streamId > ctlStrmId := not_lt_of_ge (le_of_lt hbackEnd)
            simp only [Network.procDataFromParent, hrole, hstrm, if_neg hnot]
            exact hinternal
        | some strm =>
            simp only [Network.procDataFromParent, hrole, hstrm]
            exact hinternal
      · simp only [Network.procDataFromParent, hrole, hstrm]
        exact hinternal
  | backEnd =>
      rcases hopen with ⟨-, hinternal⟩ | ⟨strm, hstrm, -⟩
      · rw [hrole] at hinternal
        cases hinternal
      · have hdispatch : Dispatch.dispatch passThrough net (.fromParent packet) =
            some (Dispatch.backEndProcDataFromParent net passThrough packet) := by
          unfold Dispatch.dispatch
          rw [hrole]
        have hkept := @Dispatch.dispatch_delivered net passThrough [packet] []
          (.fromParent packet) _ hdispatch (by rw [hrole]; rfl)
        unfold Dispatch.delivered at hkept
        rw [hrole] at hkept
        have hproc : net.procDataFromParent packet = .ok [.incoming packet] := by
          simp only [Network.procDataFromParent, hrole, hstrm]
          exact hkept
        rw [if_pos rfl, Network.forward, hproc]
        rfl

namespace Deployment
variable (h : Deployment t root nets)
include h

/-- A back-end has no outlets. -/
lemma outlet_backEnd {p : Ptr} {r : Rank} (hp : t.rankOf p = some r) (htracks : (nets r).Tracks)
    (hrole : (nets r).role = .backEnd) (d : Rank) : (nets r).getOutletNode d = none := by
  by_contra hne
  obtain ⟨peer, hpeer⟩ := Option.ne_none_iff_exists'.mp hne
  obtain ⟨c, hc, -⟩ := (h.outlet_iff hp htracks d peer).mp hpeer
  exact h.backEnd p r hp hrole c hc.link

/-- Copies for a list of ranks: the destinations of the packet, or the single back-end of
the stream. -/
lemma forward_targets (packet : Packet) {p : Ptr} {r : Rank} (hp : t.rankOf p = some r)
    (htracks : (nets r).Tracks)
    (hopen : (packet.streamId < ctlStrmId ∧ (nets r).role = .internal) ∨
      ∃ strm, (nets r).getStream packet.streamId = some strm ∧ strm.closed = false)
    {targets : List Rank} (htargets : (packet.streamId < ctlStrmId ∧ targets = [packet.streamId]) ∨
      (ctlStrmId < packet.streamId ∧ getDestinations packet = some targets)) :
    (nets r).forward packet = .ok (targets.filterMap (nets r).getOutletNode) := by
  rw [forward_eq hopen]
  split_ifs with hrole
  · rw [List.filterMap_eq_nil_iff.mpr fun d _ => h.outlet_backEnd hp htracks hrole d]
  · unfold Network.sendPacketToChildren
    rcases htargets with ⟨hlt, rfl⟩ | ⟨hgt, hdests⟩
    · rw [if_neg (ne_of_lt hlt), if_pos hlt]
      cases hout : (nets r).getOutletNode packet.streamId with
      | none => simp [hout]
      | some peer => simp [hout]
    · rw [if_neg (ne_of_gt hgt), if_neg (not_lt_of_gt hgt), hdests]
      rfl

/-- Copies for the peers of the stream, none of which is the inlet. -/
lemma forward_peers (packet : Packet) {p : Ptr} {r : Rank} (hp : t.rankOf p = some r)
    (htracks : (nets r).Tracks) (hgt : ctlStrmId < packet.streamId)
    (hdests : getDestinations packet = none) (hinlet : FromAbove t p packet.inletRank)
    {strm : Stream} (hstrm : (nets r).getStream packet.streamId = some strm)
    (hclosed : strm.closed = false) {endPoints : List Rank}
    (hpeers : strm.peers = Stream.outlets (nets r).getOutletNode endPoints) :
    (nets r).forward packet = .ok (Stream.outlets (nets r).getOutletNode endPoints) := by
  rw [forward_eq (.inr ⟨strm, hstrm, hclosed⟩)]
  have houtlet : ∀ peer ∈ Stream.outlets (nets r).getOutletNode endPoints,
      ∃ c, Connects t nets p c peer := by
    intro peer hpeer
    obtain ⟨e, -, hout⟩ := (Stream.mem_outlets _ _ _).mp hpeer
    obtain ⟨c, hc, -⟩ := (h.outlet_iff hp htracks e peer).mp hout
    exact ⟨c, hc⟩
  split_ifs with hrole
  · have hnil : Stream.outlets (nets r).getOutletNode endPoints = [] := by
      rw [List.eq_nil_iff_forall_not_mem]
      intro peer hpeer
      obtain ⟨c, hc⟩ := houtlet peer hpeer
      exact h.backEnd p r hp hrole c hc.link
    rw [hnil]
  · have hfilter : Routing.Stream.sendToChildren strm packet =
        Stream.outlets (nets r).getOutletNode endPoints := by
      rw [Routing.Stream.sendToChildren, hpeers, List.filter_eq_self]
      intro peer hpeer
      obtain ⟨c, hc⟩ := houtlet peer hpeer
      have hne : peer.rank ≠ packet.inletRank := by
        intro heq
        exact hinlet c hc.link (heq ▸ hc.rank)
      simpa using hne
    rw [Network.sendPacketToChildren, if_neg (ne_of_gt hgt), if_neg (not_lt_of_gt hgt), hdests,
      hstrm]
    show Except.ok (Routing.Stream.sendToChildren strm packet) = _
    rw [hfilter]

/-- The peers of the stream get one copy each. -/
lemma sendsOnce_peers {p : Ptr} {r : Rank} (hp : t.rankOf p = some r)
    (htracks : (nets r).Tracks) (endPoints : List Rank) :
    SendsOnce t nets endPoints p (Stream.outlets (nets r).getOutletNode endPoints) := by
  refine ⟨Stream.nodup_outlets _ _, fun peer => ?_⟩
  rw [Stream.mem_outlets]
  simp only [h.outlet_iff hp htracks]
  constructor
  · rintro ⟨e, he, c, hc, hwithin⟩
    exact ⟨c, hc, e, he, hwithin⟩
  · rintro ⟨c, hc, e, he, hwithin⟩
    exact ⟨e, he, c, hc, hwithin⟩

/-- A list with at most one rank in the subtree of each child makes at most one copy for
each. -/
lemma sendsOnce_targets {p : Ptr} {r : Rank} (hp : t.rankOf p = some r)
    (htracks : (nets r).Tracks) {targets : List Rank} (hnodup : targets.Nodup)
    (hsingle : ∀ d₁ ∈ targets, ∀ d₂ ∈ targets, ∀ c, Link t.parentOf c p → Within t d₁ c →
      Within t d₂ c → d₁ = d₂) :
    SendsOnce t nets targets p (targets.filterMap (nets r).getOutletNode) := by
  constructor
  · have hmem : targets.Pairwise fun d₁ d₂ => d₁ ∈ targets ∧ d₂ ∈ targets ∧ d₁ ≠ d₂ :=
      List.Pairwise.and_mem.mp hnodup
    refine List.Pairwise.filterMap _ ?_ hmem
    rintro d₁ d₂ ⟨hd₁, hd₂, hne⟩ peer hout₁ peer' hout₂ rfl
    obtain ⟨c, hc, hwithin₁⟩ := (h.outlet_iff hp htracks d₁ peer).mp hout₁
    obtain ⟨c', hc', hwithin₂⟩ := (h.outlet_iff hp htracks d₂ peer).mp hout₂
    rw [h.connects_injective hc' hc] at hwithin₂
    exact hne (hsingle d₁ hd₁ d₂ hd₂ c hc.link hwithin₁ hwithin₂)
  · intro peer
    rw [List.mem_filterMap]
    simp only [h.outlet_iff hp htracks]
    constructor
    · rintro ⟨d, hd, c, hc, hdc⟩
      exact ⟨c, hc, d, hd, hdc⟩
    · rintro ⟨c, hc, d, hd, hdc⟩
      exact ⟨d, hd, c, hc, hdc⟩

end Deployment

end Deployed

end MRNet.Routing
