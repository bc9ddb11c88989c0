import MRNet.Routing

/-!
# The routing table and the topology

The table tracks the topology if it gives for every rank the connection to the child of the
local node in whose subtree the rank is. A rebuilt table does; an update that is applied
without rebuilding it must not concern a rank that is routed.
-/
namespace MRNet.Routing
open Codec Relation StreamPeers MRNet.Topology
open Forest (Link Below)
open WaitForAll (Rank)

/-- The rank is in the subtree of a node. -/
def Within (t : NetworkTopology) (r : Rank) (c : Ptr) : Prop :=
  ∃ d, t.findNode r = some d ∧ Below t.parentOf d c

namespace Network

/-- The connection to a rank, if there is one. -/
def livePeer (net : Network) (irank : Rank) : Option PeerNode :=
  let child := net.children.find? fun peer => peer.rank = irank
  match if net.role.isLocalNodeChild then net.parent else none with
  | none => child
  | some parent => if parent.rank = irank then some parent else child

/-- The peer is the one of a node. -/
def PeerOf (net : Network) (c : Ptr) (peer : PeerNode) : Prop :=
  ∃ r, net.topology.rankOf c = some r ∧ net.livePeer r = some peer

/-- The peer is the one of the child of the local node in whose subtree the rank is. -/
def Leads (net : Network) (r : Rank) (peer : PeerNode) : Prop :=
  ∃ l c, net.topology.findNode net.localRank = some l ∧ Link net.topology.parentOf c l ∧
    Within net.topology r c ∧ net.PeerOf c peer

/-- The null peer stands for every rank to which no peer leads. -/
def Tracks (net : Network) : Prop :=
  ∀ r peer, net.getOutletNode r = some peer ↔ net.Leads r peer

end Network

open Network

variable {net net' : Network}

lemma livePeer_of_getPeerNode {r : Rank} {peer : Option PeerNode}
    (h : net.getPeerNode r = .ok peer) : net.livePeer r = peer := by
  unfold Network.getPeerNode at h
  unfold Network.livePeer
  cases hrole : net.role.isLocalNodeChild with
  | false =>
      rw [hrole] at h
      exact Except.ok.inj h
  | true =>
      rw [hrole] at h
      cases hparent : net.parent with
      | none =>
          rw [hparent] at h
          cases h
      | some parent =>
          rw [hparent] at h
          exact Except.ok.inj h

/-- Some ranks are given one outlet. -/
lemma foldl_insert_lookup (nodes : List Node) (outlet : PeerNode)
    (table : Finmap fun _ : Rank => PeerNode) (r : Rank) :
    (nodes.foldl (fun table node => table.insert node.rank outlet) table).lookup r =
      if r ∈ nodes.map Node.rank then some outlet else table.lookup r := by
  induction nodes generalizing table with
  | nil => simp
  | cons node nodes ih =>
      rw [List.foldl_cons, ih, List.map_cons]
      by_cases hr : r = node.rank
      · rw [hr, Finmap.lookup_insert]
        simp
      · rw [Finmap.lookup_insert_of_ne _ hr]
        simp [hr]

/-- The ranks of a node and of everything below it. -/
lemma mem_subtree_ranks (hlinks : Links net.topology) {c : Ptr} {node : Node}
    (hnode : net.topology.deref c = .ok node) {n : ℕ} {ds : List Ptr}
    (hds : net.topology.getDescendants n c = .ok ds) {nodes : List Node}
    (hnodes : ds.mapM net.topology.deref = .ok nodes) (r : Rank) :
    r ∈ (node :: nodes).map Node.rank ↔ Within net.topology r c := by
  have hrank : ∀ {d node}, net.topology.deref d = .ok node →
      (node.rank = r ↔ net.topology.findNode r = some d) := by
    intro d node hd
    rw [NetworkTopology.findNode, hlinks.keyed, NetworkTopology.rankOf, deref_ok_iff.mp hd,
      Option.map_some, Option.some.injEq]
  rw [List.mem_map]
  constructor
  · rintro ⟨node', hmem, hr⟩
    rcases List.mem_cons.mp hmem with rfl | hmem
    · exact ⟨c, (hrank hnode).mp hr, ReflTransGen.refl⟩
    · obtain ⟨d, hd, hderef⟩ := (mem_mapM_iff hnodes).mp hmem
      exact ⟨d, (hrank hderef).mp hr, ((mem_getDescendants hlinks hds d).mp hd).to_reflTransGen⟩
  · rintro ⟨d, hd, hbelow⟩
    rcases reflTransGen_iff_eq_or_transGen.mp hbelow with heq | hbelow
    · subst heq
      exact ⟨node, List.mem_cons_self, (hrank hnode).mpr hd⟩
    · obtain ⟨node', hmem, hderef⟩ := forall₂_exists_of_mem (mapM_ok_iff.mp hnodes)
        ((mem_getDescendants hlinks hds d).mpr hbelow)
      exact ⟨node', List.mem_cons_of_mem _ hmem, (hrank hderef).mpr hd⟩

/-- What one round of the loop over the children does. -/
lemma routeChild_spec (hlinks : Links net.topology) {c : Ptr}
    {table table' : Finmap fun _ : Rank => PeerNode}
    (h : net.routeChild table c = .ok table') :
    ((∀ peer, ¬net.PeerOf c peer) ∧ table' = table) ∨
      ∃ outlet, (∀ peer, net.PeerOf c peer ↔ peer = outlet) ∧
        Acc (Link net.topology.parentOf) c ∧
        (∀ r, Within net.topology r c → table'.lookup r = some outlet) ∧
        ∀ r, ¬Within net.topology r c → table'.lookup r = table.lookup r := by
  obtain ⟨node, hnode, h⟩ := bind_ok_iff.mp h
  obtain ⟨curOutlet, hpeer, h⟩ := bind_ok_iff.mp h
  have hpeerOf : ∀ peer, net.PeerOf c peer ↔ curOutlet = some peer := by
    intro peer
    rw [Network.PeerOf, NetworkTopology.rankOf, deref_ok_iff.mp hnode]
    simp [livePeer_of_getPeerNode hpeer]
  cases curOutlet with
  | none =>
      cases h
      exact .inl ⟨fun peer => by rw [hpeerOf]; simp, rfl⟩
  | some outlet =>
      obtain ⟨ds, hds, h⟩ := bind_ok_iff.mp h
      obtain ⟨nodes, hnodes, hres⟩ := bind_ok_iff.mp h
      cases hres
      have hmem := mem_subtree_ranks hlinks hnode hds hnodes
      refine .inr ⟨outlet, fun peer => ?_, acc_of_getDescendants hlinks hds, fun r hr => ?_,
        fun r hr => ?_⟩
      · rw [hpeerOf, Option.some.injEq, eq_comm]
      · rw [foldl_insert_lookup, if_pos ((hmem r).mpr hr)]
      · rw [foldl_insert_lookup, if_neg fun hin => hr ((hmem r).mp hin)]

/-- The loop over the children. Subtrees that were entered have no rank in common. -/
lemma routeChildren_spec (hlinks : Links net.topology) {l : Ptr} (done : List Ptr) {cs : List Ptr}
    {table table' : Finmap fun _ : Rank => PeerNode}
    (hcs : ∀ c ∈ cs, Link net.topology.parentOf c l)
    (hdone : ∀ c ∈ done, Link net.topology.parentOf c l ∧ Acc (Link net.topology.parentOf) c)
    (htable : ∀ r peer, table.lookup r = some peer ↔
      ∃ c ∈ done, Within net.topology r c ∧ net.PeerOf c peer)
    (h : cs.foldlM net.routeChild table = .ok table') (r : Rank) (peer : PeerNode) :
    table'.lookup r = some peer ↔
      ∃ c, (c ∈ done ∨ c ∈ cs) ∧ Within net.topology r c ∧ net.PeerOf c peer := by
  induction cs generalizing done table with
  | nil =>
      cases h
      rw [htable]
      simp
  | cons c cs ih =>
      rw [List.foldlM_cons] at h
      obtain ⟨table₁, h₁, htail⟩ := bind_ok_iff.mp h
      have hrest : ∀ c' ∈ cs, Link net.topology.parentOf c' l :=
        fun c' hc' => hcs c' (List.mem_cons_of_mem _ hc')
      rcases routeChild_spec hlinks h₁ with ⟨hnone, heq⟩ | ⟨outlet, hpeer, hacc, hin, hout⟩
      · rw [heq] at htail
        rw [ih _ hrest hdone htable htail]
        apply exists_congr
        intro c'
        rw [List.mem_cons]
        constructor
        · rintro ⟨hmem, hwithin⟩
          exact ⟨hmem.imp id .inr, hwithin⟩
        · rintro ⟨hmem | rfl | hmem, hwithin⟩
          · exact ⟨.inl hmem, hwithin⟩
          · exact absurd hwithin.2 (hnone peer)
          · exact ⟨.inr hmem, hwithin⟩
      · have hc := hcs c List.mem_cons_self
        have hdone₁ : ∀ c' ∈ c :: done,
            Link net.topology.parentOf c' l ∧ Acc (Link net.topology.parentOf) c' := by
          intro c' hc'
          rcases List.mem_cons.mp hc' with rfl | hc'
          · exact ⟨hc, hacc⟩
          · exact hdone c' hc'
        have htable₁ : ∀ r peer, table₁.lookup r = some peer ↔
            ∃ c' ∈ c :: done, Within net.topology r c' ∧ net.PeerOf c' peer := by
          intro r peer
          simp only [List.exists_mem_cons_iff]
          by_cases hr : Within net.topology r c
          · rw [hin r hr, Option.some.injEq]
            constructor
            · rintro rfl
              exact .inl ⟨hr, (hpeer _).mpr rfl⟩
            · rintro (⟨-, hp⟩ | ⟨c', hc', ⟨d', hd', hbelow'⟩, hp⟩)
              · exact ((hpeer peer).mp hp).symm
              · obtain ⟨d, hd, hbelow⟩ := hr
                rw [hd] at hd'
                cases hd'
                obtain ⟨hlink', hacc'⟩ := hdone c' hc'
                have hsame : c' = c := Forest.child_unique (Forest.not_circular_of_acc hacc')
                  (Forest.not_circular_of_acc hacc) hlink' hc hbelow' hbelow
                subst hsame
                exact ((hpeer peer).mp hp).symm
          · rw [hout r hr, htable]
            simp [hr]
        rw [ih _ hrest hdone₁ htable₁ htail]
        apply exists_congr
        intro c'
        simp only [List.mem_cons]
        tauto

/-- Nothing but the table is changed. -/
lemma updateTable_eq (h : net.updateTable = .ok net') : net' = { net with table := net'.table } := by
  unfold Network.updateTable at h
  cases hl : net.topology.findNode net.localRank with
  | none =>
      rw [hl] at h
      cases h
      rfl
  | some l =>
      rw [hl] at h
      obtain ⟨node, -, h⟩ := bind_ok_iff.mp h
      obtain ⟨table, -, hres⟩ := bind_ok_iff.mp h
      cases hres
      rfl

/-- A table that was rebuilt tracks the topology. -/
theorem updateTable_tracks (hlinks : Links net.topology) (h : net.updateTable = .ok net') :
    net'.Tracks := by
  unfold Network.updateTable at h
  intro r peer
  cases hl : net.topology.findNode net.localRank with
  | none =>
      rw [hl] at h
      cases h
      rw [Network.getOutletNode, Finmap.lookup_empty]
      constructor
      · intro hnone
        cases hnone
      · rintro ⟨l, c, hl', -⟩
        rw [hl] at hl'
        cases hl'
  | some l =>
      rw [hl] at h
      obtain ⟨node, hnode, h⟩ := bind_ok_iff.mp h
      obtain ⟨table, htable, hres⟩ := bind_ok_iff.mp h
      cases hres
      have hchild := mem_childrenOf_iff hlinks hnode
      have hlookup := routeChildren_spec hlinks [] (fun c hc => (hchild c).mp hc)
        (by simp) (by simp) htable r peer
      rw [Network.getOutletNode, hlookup]
      constructor
      · rintro ⟨c, hc, hwithin, hpeer⟩
        simp only [List.not_mem_nil, false_or] at hc
        exact ⟨l, c, hl, (hchild c).mp hc, hwithin, hpeer⟩
      · rintro ⟨l', c, hl', hc, hwithin, hpeer⟩
        rw [hl] at hl'
        cases hl'
        exact ⟨c, .inr ((hchild c).mpr hc), hwithin, hpeer⟩

lemma updateRouterTable_eq {iupdate : Bool} (h : net.updateRouterTable iupdate = .ok net') :
    net' = { net with table := net'.table } := by
  unfold Network.updateRouterTable at h
  split_ifs at h
  · exact updateTable_eq h
  · cases h
    rfl

/-- Nothing has changed that the routing depends on. -/
structure SameRouting (net net' : Network) : Prop where
  localRank : net'.localRank = net.localRank
  role : net'.role = net.role
  shuttingDown : net'.shuttingDown = net.shuttingDown
  parent : net'.parent = net.parent
  children : net'.children = net.children
  topology : net'.topology = net.topology
  table : net'.table = net.table

namespace SameRouting

lemma refl (net : Network) : SameRouting net net := ⟨rfl, rfl, rfl, rfl, rfl, rfl, rfl⟩

lemma trans {net'' : Network} (h : SameRouting net net') (h' : SameRouting net' net'') :
    SameRouting net net'' where
  localRank := h'.localRank.trans h.localRank
  role := h'.role.trans h.role
  shuttingDown := h'.shuttingDown.trans h.shuttingDown
  parent := h'.parent.trans h.parent
  children := h'.children.trans h.children
  topology := h'.topology.trans h.topology
  table := h'.table.trans h.table

lemma livePeer (h : SameRouting net net') : net'.livePeer = net.livePeer := by
  ext1 r
  unfold Network.livePeer
  rw [h.role, h.parent, h.children]

end SameRouting

lemma sameRouting_report (net : Network) (upstream : Bool) (u : Update) (event : Option EventType) :
    SameRouting net (net.report upstream u event) := by
  unfold Network.report
  split_ifs <;> exact ⟨rfl, rfl, rfl, rfl, rfl, rfl, rfl⟩

lemma sameRouting_mapTopolStream (net : Network) (f : Stream → Stream) :
    SameRouting net (net.mapTopolStream f) := ⟨rfl, rfl, rfl, rfl, rfl, rfl, rfl⟩

lemma sameRouting_updateStreams (net : Network) : SameRouting net net.updateStreams :=
  ⟨rfl, rfl, rfl, rfl, rfl, rfl, rfl⟩

/-- What `applyUpdate` can do to the topology, the table and the connections. -/
inductive Applied (net : Network) (u : Update) (net' : Network) : Prop
  | ignored
      (hwhy : net.shuttingDown = true ∨ u.type = .changePort ∨ u.type = .invalid)
      (hsame : SameRouting net net')
  | added (hshut : net.shuttingDown = false) (hnew : u.isNew = true) {t : NetworkTopology}
      {isBackEnd : Bool}
      (hadd : addNode net.topology u.parRank u.chldRank u.chldHost u.chldPort isBackEnd = .ok t)
      (hsame : SameRouting { net with topology := t } net')
  | removedHere (hshut : net.shuttingDown = false) (htype : u.type = .removeRank)
      (hpar : u.parRank = net.localRank) {t : NetworkTopology} {found : Bool} {net₁ : Network}
      (hremove : net.topology.removeNode u.chldRank = .ok (t, found))
      (hupdate : { net.deletePeerNode u.chldRank with topology := t }.updateRouterTable found =
        .ok net₁)
      (hsame : SameRouting net₁ net')
  | removedElsewhere (hshut : net.shuttingDown = false) (htype : u.type = .removeRank)
      (hpar : u.parRank ≠ net.localRank) {t : NetworkTopology} {found : Bool}
      (hremove : net.topology.removeNode u.chldRank = .ok (t, found))
      (hsame : SameRouting { net with topology := t } net')
  | reparented (hshut : net.shuttingDown = false) (htype : u.type = .changeParent)
      {t : NetworkTopology} {result : NetworkTopology.Reparented} {net₁ : Network}
      (hset : net.topology.setParent u.chldRank u.parRank = .ok (t, result))
      (hupdate : { net with topology := t }.updateRouterTable
        (decide (result = NetworkTopology.Reparented.moved)) = .ok net₁)
      (hsame : SameRouting net₁ net')
  | portChanged (htype : u.type = .changePort) {t : NetworkTopology} {p : Ptr}
      (hport : net.topology.modify p (·.setPort u.chldPort) = .ok t)
      (hsame : SameRouting { net with topology := t } net')

/-- Nothing but the connections changes. -/
lemma deletePeerNode_eq (net : Network) (r : Rank) :
    ∃ parent children, net.deletePeerNode r = { net with parent := parent, children := children } := by
  unfold Network.deletePeerNode
  dsimp only
  split_ifs
  · exact ⟨none, net.children, rfl⟩
  · cases net.children.find? fun peer => peer.rank = r with
    | none => exact ⟨net.parent, net.children, rfl⟩
    | some peer => exact ⟨net.parent, net.children.erase peer, rfl⟩

lemma find_erase_of_not {α : Type} [DecidableEq α] {p : α → Bool} {a : α} (ha : p a = false)
    (xs : List α) : (xs.erase a).find? p = xs.find? p := by
  induction xs with
  | nil => rfl
  | cons x xs ih =>
      by_cases hx : x = a
      · rw [hx, List.erase_cons_head, List.find?_cons, ha]
      · rw [List.erase_cons_tail (by simpa using hx), List.find?_cons, List.find?_cons, ih]

/-- The connections to other ranks stay. -/
lemma deletePeerNode_livePeer (net : Network) {r r' : Rank} (hne : r' ≠ r) :
    (net.deletePeerNode r).livePeer r' = net.livePeer r' := by
  unfold Network.deletePeerNode
  dsimp only
  split_ifs with hparent
  · rw [Bool.and_eq_true] at hparent
    obtain ⟨hchild, hany⟩ := hparent
    unfold Network.livePeer
    cases hp : net.parent with
    | none => simp
    | some parent =>
        have hrank : parent.rank = r := by simpa [hp] using hany
        simp [hchild, hrank, Ne.symm hne]
  · cases hfind : net.children.find? fun peer => peer.rank = r with
    | none => rfl
    | some peer =>
        have hrank : peer.rank = r := by simpa using List.find?_some hfind
        have hdiff : decide (peer.rank = r') = false := by simp [hrank, Ne.symm hne]
        unfold Network.livePeer
        dsimp only
        rw [find_erase_of_not (p := fun peer : PeerNode => decide (peer.rank = r')) hdiff]

lemma removeNode_cases {r : Rank} (h : net.removeNode r true = .ok net') :
    ∃ t found net₁, net.topology.removeNode r = .ok (t, found) ∧
      { net.deletePeerNode r with topology := t }.updateRouterTable found = .ok net₁ ∧
      SameRouting net₁ net' := by
  obtain ⟨⟨t, found⟩, hremove, h⟩ := bind_ok_iff.mp h
  obtain ⟨net₁, hupdate, hres⟩ := bind_ok_iff.mp h
  cases hres
  obtain ⟨parent, children, heq⟩ := deletePeerNode_eq net r
  have htopology : (net.deletePeerNode r).topology = net.topology := by rw [heq]
  rw [htopology] at hremove
  rw [Bool.and_true] at hupdate
  exact ⟨t, found, net₁, hremove, hupdate, rfl, rfl, rfl, rfl, rfl, rfl, rfl⟩

lemma changeParent_cases {rc rp : Rank} (h : net.changeParent rc rp = .ok net') :
    ∃ t result net₁, net.topology.setParent rc rp = .ok (t, result) ∧
      { net with topology := t }.updateRouterTable
        (decide (result = NetworkTopology.Reparented.moved)) = .ok net₁ ∧
      SameRouting net₁ net' := by
  obtain ⟨⟨t, result⟩, hset, h⟩ := bind_ok_iff.mp h
  obtain ⟨net₁, hupdate, hres⟩ := bind_ok_iff.mp h
  cases hres
  refine ⟨t, result, net₁, hset, hupdate, ?_⟩
  split_ifs
  · exact sameRouting_updateStreams net₁
  · exact SameRouting.refl net₁

theorem applyUpdate_cases {upstream : Bool} {u : Update}
    (h : applyUpdate upstream net u = .ok net') : Applied net u net' := by
  have hreport := fun net u event => sameRouting_report net upstream u event
  unfold Network.applyUpdate at h
  cases htype : u.type with
  | newBE =>
      simp only [htype, Network.updateAddBackEnd] at h
      split_ifs at h with hshut
      · cases h
        exact .ignored (.inl hshut) (.refl net)
      · obtain ⟨t, hadd, hres⟩ := bind_ok_iff.mp h
        cases hres
        refine .added (by simpa using hshut) (by simp [Update.isNew, htype]) hadd ?_
        exact (sameRouting_mapTopolStream _ _).trans (hreport _ _ _)
  | removeRank =>
      simp only [htype, Network.updateRemoveNode] at h
      split_ifs at h with hshut hpar
      · cases h
        exact .ignored (.inl hshut) (.refl net)
      · obtain ⟨net₁, hremove, hres⟩ := bind_ok_iff.mp h
        cases hres
        obtain ⟨t, found, net₂, hremove, hupdate, hsame⟩ := removeNode_cases hremove
        exact .removedHere (by simpa using hshut) htype hpar hremove hupdate
          (hsame.trans (hreport _ _ _))
      · obtain ⟨⟨t, found⟩, hremove, hres⟩ := bind_ok_iff.mp h
        cases hres
        exact .removedElsewhere (by simpa using hshut) htype hpar hremove (hreport _ _ _)
  | changeParent =>
      simp only [htype, Network.updateChangeParent] at h
      split_ifs at h with hshut
      · cases h
        exact .ignored (.inl hshut) (.refl net)
      · obtain ⟨net₁, hchange, hres⟩ := bind_ok_iff.mp h
        cases hres
        obtain ⟨t, result, net₂, hset, hupdate, hsame⟩ := changeParent_cases hchange
        exact .reparented (by simpa using hshut) htype hset hupdate
          (hsame.trans (hreport _ _ _))
  | changePort =>
      simp only [htype, Network.updateChangePort] at h
      split_ifs at h with hshut hport
      · cases h
        exact .ignored (.inl hshut) (.refl net)
      · cases h
        exact .ignored (.inr (.inl htype)) (.refl net)
      · cases hnode : net.topology.findNode u.chldRank with
        | none =>
            rw [hnode] at h
            cases h
        | some node =>
            rw [hnode] at h
            obtain ⟨t, hmodify, hres⟩ := bind_ok_iff.mp h
            cases hres
            exact .portChanged htype hmodify (hreport _ _ _)
  | newCP =>
      simp only [htype, Network.updateAddInternalNode] at h
      split_ifs at h with hshut
      · cases h
        exact .ignored (.inl hshut) (.refl net)
      · obtain ⟨t, hadd, hres⟩ := bind_ok_iff.mp h
        cases hres
        exact .added (by simpa using hshut) (by simp [Update.isNew, htype]) hadd (hreport _ _ _)
  | invalid =>
      simp only [htype] at h
      cases h
      exact .ignored (.inr (.inr htype)) (.refl net)

/-- Where the local node, its links and its connections stay, so does what the table should
say. -/
lemma Network.Tracks.congr (h : net.Tracks) (htable : net'.table = net.table)
    (hleads : ∀ r peer, net'.Leads r peer ↔ net.Leads r peer) : net'.Tracks := by
  intro r peer
  rw [hleads, ← h, Network.getOutletNode, htable]
  rfl

lemma leads_congr (hlocal : net'.localRank = net.localRank)
    (hnodes : net'.topology.nodes = net.topology.nodes)
    (hrank : net'.topology.rankOf = net.topology.rankOf)
    (hparent : net'.topology.parentOf = net.topology.parentOf)
    (hpeer : ∀ c r, net.topology.rankOf c = some r → net'.livePeer r = net.livePeer r) (r : Rank)
    (peer : PeerNode) : net'.Leads r peer ↔ net.Leads r peer := by
  have hpeerOf : ∀ c, net'.PeerOf c peer ↔ net.PeerOf c peer := by
    intro c
    rw [Network.PeerOf, Network.PeerOf, hrank]
    apply exists_congr
    intro r
    apply and_congr_right
    intro hr
    rw [hpeer c r hr]
  unfold Network.Leads Within NetworkTopology.findNode
  rw [hlocal]
  simp only [hnodes, hparent, hpeerOf]

lemma SameRouting.tracks (hsame : SameRouting net net') (h : net.Tracks) : net'.Tracks := by
  apply h.congr hsame.table
  apply leads_congr hsame.localRank
  · rw [hsame.topology]
  · rw [hsame.topology]
  · rw [hsame.topology]
  · intro c r _
    rw [hsame.livePeer]

/-- The record takes a node that is routed out of the topology, and the table stays. -/
def Network.Strands (net : Network) (u : Update) : Prop :=
  net.shuttingDown = false ∧ u.type = .removeRank ∧ u.parRank ≠ net.localRank ∧
    (net.topology.findNode u.chldRank).isSome ∧
    ((net.getOutletNode u.chldRank).isSome ∨ (u.chldRank = net.localRank ∧ net.table ≠ ∅))

/-- The record makes the node rebuild its table at once. -/
def Network.Rebuilds (net : Network) (u : Update) : Prop :=
  net.shuttingDown = false ∧
    ((u.type = .removeRank ∧ u.parRank = net.localRank ∧
        (net.topology.findNode u.chldRank).isSome) ∨
      (u.type = .changeParent ∧ ∃ c p, net.topology.findNode u.chldRank = some c ∧
        net.topology.findNode u.parRank = some p ∧ net.topology.parentOf c ≠ some p))

/-- A node that is not routed leaves the topology. -/
lemma leads_removed {t : NetworkTopology} {p : Ptr} {r : Rank} (htracks : net.Tracks)
    (hlinks : Links net.topology) (hp : net.topology.findNode r = some p)
    (hremoved : Removed net.topology t p) (hout : net.getOutletNode r = none)
    (hlocal : r ≠ net.localRank ∨ net.table = ∅) (r' : Rank) (peer : PeerNode) :
    { net with topology := t }.Leads r' peer ↔ net.Leads r' peer := by
  have hrankP := (hlinks.live_of_findNode hp).2
  have hfind : ∀ r' q, t.findNode r' = some q ↔ net.topology.findNode r' = some q ∧ q ≠ p := by
    intro r' q
    rw [NetworkTopology.findNode, hremoved.nodes, NetworkTopology.findNode]
    by_cases hr : r' = r
    · have hsome : net.topology.nodes.lookup r = some p := hp
      rw [hr, if_pos hrankP, hsome]
      simp [eq_comm]
    · rw [if_neg (by rw [hrankP]; simpa using Ne.symm hr)]
      constructor
      · intro hq
        refine ⟨hq, ?_⟩
        rintro rfl
        rw [hlinks.keyed, hrankP] at hq
        exact hr (Option.some.inj hq).symm
      · exact And.left
  have hlink : ∀ {a b}, Link t.parentOf a b → Link net.topology.parentOf a b := by
    intro a b hab
    rw [Link, hremoved.parentOf] at hab
    split_ifs at hab
    exact hab
  have hkept : ∀ {a b}, Link net.topology.parentOf a b → a ≠ p → b ≠ p → Link t.parentOf a b := by
    intro a b hab ha hb
    rw [Link, hremoved.parentOf, if_neg]
    · exact hab
    · rintro (ha' | hb')
      · exact ha ha'
      · rw [Link, hb'] at hab
        exact hb (Option.some.inj hab).symm
  have hrank : ∀ c, c ≠ p → t.rankOf c = net.topology.rankOf c := by
    intro c hc
    rw [hremoved.rankOf, Function.update_of_ne hc]
  have hpeer : { net with topology := t }.livePeer = net.livePeer := rfl
  constructor
  · rintro ⟨l, c, hl, hc, ⟨d, hd, hbelow⟩, rc, hrc, hrcpeer⟩
    have hc' := hlink hc
    have hne : c ≠ p := by
      rintro rfl
      rw [hremoved.rankOf, Function.update_self] at hrc
      cases hrc
    refine ⟨l, c, ((hfind _ _).mp hl).1, hc', ⟨d, ((hfind _ _).mp hd).1, ?_⟩, rc, ?_, hrcpeer⟩
    · exact ReflTransGen.mono (fun _ _ => hlink) _ _ hbelow
    · rw [← hrank c hne]
      exact hrc
  · rintro ⟨l, c, hl, hc, ⟨d, hd, hbelow⟩, rc, hrc, hrcpeer⟩
    -- The removed node is not on the way from the rank up to the local node.
    have hnotBelow : ¬Below net.topology.parentOf p c := by
      intro hpc
      have hleads := (htracks r peer).mpr ⟨l, c, hl, hc, ⟨p, hp, hpc⟩, rc, hrc, hrcpeer⟩
      rw [hout] at hleads
      cases hleads
    have hlne : l ≠ p := by
      rintro rfl
      rcases hlocal with hr | hempty
      · apply hr
        rw [(hlinks.live_of_findNode hl).2] at hrankP
        exact (Option.some.inj hrankP).symm
      · have hleads := (htracks r' peer).mpr ⟨l, c, hl, hc, ⟨d, hd, hbelow⟩, rc, hrc, hrcpeer⟩
        rw [Network.getOutletNode, hempty, Finmap.lookup_empty] at hleads
        cases hleads
    have hway : ∀ x, Below net.topology.parentOf x c → x ≠ p := by
      rintro x hx rfl
      exact hnotBelow hx
    have hcne := hway c ReflTransGen.refl
    have hclimb : ∀ x, Below net.topology.parentOf x c → Below t.parentOf x c := by
      intro x hx
      induction hx using ReflTransGen.head_induction_on with
      | refl => exact ReflTransGen.refl
      | @head x y hxy hyc ih =>
          exact ReflTransGen.head (hkept hxy (hway x (ReflTransGen.head hxy hyc)) (hway y hyc)) ih
    exact ⟨l, c, (hfind _ _).mpr ⟨hl, hlne⟩, hkept hc hcne hlne,
      ⟨d, (hfind _ _).mpr ⟨hd, hway d hbelow⟩, hclimb d hbelow⟩, rc, (hrank c hcne).trans hrc,
      hrcpeer⟩

lemma addNode_links {t t' : NetworkTopology} (hlinks : Links t) {parRank chldRank : Rank}
    {chldHost : SerialGraph.Text} {chldPort : SerialGraph.Port} {isBackEnd : Bool}
    (h : addNode t parRank chldRank chldHost chldPort isBackEnd = .ok t') : Links t' := by
  unfold addNode at h
  cases hfound : t.findNode chldRank with
  | some node =>
      rw [hfound] at h
      cases h
      exact hlinks
  | none =>
      rw [hfound] at h
      obtain ⟨⟨t₁, result⟩, hset, hres⟩ := bind_ok_iff.mp h
      cases hres
      exact (hlinks.newNode chldHost chldPort isBackEnd hfound).setParent hset

/-- What a record does to the topology. -/
lemma Applied.topology {u : Update} (h : Applied net u net') :
    net'.localRank = net.localRank ∧ net'.shuttingDown = net.shuttingDown ∧
      (net'.topology = net.topology ∨
        (net.shuttingDown = false ∧ u.isNew = true ∧ ∃ isBackEnd,
          addNode net.topology u.parRank u.chldRank u.chldHost u.chldPort isBackEnd =
            .ok net'.topology) ∨
        (∃ found, net.topology.removeNode u.chldRank = .ok (net'.topology, found)) ∨
        (net.shuttingDown = false ∧ u.type = .changeParent ∧ ∃ result,
          net.topology.setParent u.chldRank u.parRank = .ok (net'.topology, result)) ∨
        ∃ p, net.topology.modify p (·.setPort u.chldPort) = .ok net'.topology) := by
  cases h with
  | ignored hwhy hsame => exact ⟨hsame.localRank, hsame.shuttingDown, .inl hsame.topology⟩
  | @added hshut hnew t isBackEnd hadd hsame =>
      refine ⟨hsame.localRank, hsame.shuttingDown, .inr (.inl ⟨hshut, hnew, isBackEnd, ?_⟩)⟩
      rw [hsame.topology]
      exact hadd
  | @removedHere hshut htype hpar t found net₁ hremove hupdate hsame =>
      obtain ⟨parent, children, hdelete⟩ := deletePeerNode_eq net u.chldRank
      have heq := updateRouterTable_eq hupdate
      rw [hdelete] at heq
      refine ⟨hsame.localRank.trans (by rw [heq]), hsame.shuttingDown.trans (by rw [heq]),
        .inr (.inr (.inl ⟨found, ?_⟩))⟩
      rw [hsame.topology, heq]
      exact hremove
  | @removedElsewhere hshut htype hpar t found hremove hsame =>
      refine ⟨hsame.localRank, hsame.shuttingDown, .inr (.inr (.inl ⟨found, ?_⟩))⟩
      rw [hsame.topology]
      exact hremove
  | @reparented hshut htype t result net₁ hset hupdate hsame =>
      have heq := updateRouterTable_eq hupdate
      refine ⟨hsame.localRank.trans (by rw [heq]), hsame.shuttingDown.trans (by rw [heq]),
        .inr (.inr (.inr (.inl ⟨hshut, htype, result, ?_⟩)))⟩
      rw [hsame.topology, heq]
      exact hset
  | @portChanged htype t p hport hsame =>
      refine ⟨hsame.localRank, hsame.shuttingDown, .inr (.inr (.inr (.inr ⟨p, ?_⟩)))⟩
      rw [hsame.topology]
      exact hport

/-- Setting a port concerns no link. -/
lemma modify_setPort_links {t t' : NetworkTopology} (hlinks : Links t) {p : Ptr}
    {port : SerialGraph.Port} (h : t.modify p (·.setPort port) = .ok t') : Links t' := by
  obtain ⟨hnodes, horphans, hnext⟩ := modify_rest h
  have hrank : t'.rankOf = t.rankOf := modify_rankOf h fun _ => rfl
  have hparent : t'.parentOf = t.parentOf := modify_parentOf h fun _ => rfl
  have hchildren : t'.childrenOf = t.childrenOf := modify_childrenOf h fun _ => rfl
  constructor
  · rw [hnodes, hrank]
    exact hlinks.keyed
  · rw [hchildren, hparent]
    exact hlinks.answered
  · rw [horphans, hparent]
    intro o ho
    exact ⟨(modify_live h o).mpr (hlinks.orphans o ho).1, (hlinks.orphans o ho).2⟩
  · rw [hnext]
    intro q hq
    exact hlinks.fresh q ((modify_live h q).mp hq)

lemma Applied.links {u : Update} (h : Applied net u net') (hlinks : Links net.topology) :
    Links net'.topology := by
  obtain ⟨-, -, heq | ⟨-, -, _, hadd⟩ | ⟨_, hremove⟩ | ⟨-, -, _, hset⟩ | ⟨_, hport⟩⟩ := h.topology
  · rw [heq]
    exact hlinks
  · exact addNode_links hlinks hadd
  · exact hlinks.removeNode hremove
  · exact hlinks.setParent hset
  · exact modify_setPort_links hlinks hport

lemma Applied.rebuilt {u : Update} (h : Applied net u net') (hlinks : Links net.topology)
    (hrebuilds : net.Rebuilds u) : net'.Tracks := by
  obtain ⟨hup, hkind⟩ := hrebuilds
  cases h with
  | ignored hwhy hsame =>
      rcases hwhy with hshut | htype | htype
      · rw [hup] at hshut
        cases hshut
      · simp [htype] at hkind
      · simp [htype] at hkind
  | added hshut hnew hadd hsame =>
      rcases hkind with ⟨htype, -⟩ | ⟨htype, -⟩ <;> simp [Update.isNew, htype] at hnew
  | removedHere hshut htype hpar hremove hupdate hsame =>
      have hfound : (net.topology.findNode u.chldRank).isSome := by
        simpa [htype, hpar] using hkind
      rcases removeNode_spec hlinks hremove with ⟨-, hnone, -⟩ | ⟨rfl, p, -, hremoved⟩
      · simp [hnone] at hfound
      · exact hsame.tracks (updateTable_tracks (hlinks.removed hremoved) hupdate)
  | removedElsewhere hshut htype hpar hremove hsame => simp [htype, hpar] at hkind
  | reparented hshut htype hset hupdate hsame =>
      obtain ⟨c, p, hc, hp, hne⟩ : ∃ c p, net.topology.findNode u.chldRank = some c ∧
          net.topology.findNode u.parRank = some p ∧ net.topology.parentOf c ≠ some p := by
        simpa [htype] using hkind
      rcases setParent_spec hlinks hset with ⟨-, -, hsameParent⟩ | ⟨rfl, c, p, -, -, -, hmoved⟩
      · exact absurd (hsameParent c p hc hp) hne
      · exact hsame.tracks (updateTable_tracks (hlinks.moved hmoved) hupdate)
  | portChanged htype hport hsame => simp [htype] at hkind

/-- `Network::remove_Node` rebuilds the table if the node was known; if it was not, its
connection was no outlet. -/
lemma removedHere_tracks (hlinks : Links net.topology) (htracks : net.Tracks) {r : Rank}
    {t : NetworkTopology} {found : Bool} (hremove : net.topology.removeNode r = .ok (t, found))
    (hupdate : { net.deletePeerNode r with topology := t }.updateRouterTable found = .ok net') :
    net'.Tracks := by
  rcases removeNode_spec hlinks hremove with ⟨rfl, hnone, rfl⟩ | ⟨rfl, p, -, hremoved⟩
  · cases hupdate
    obtain ⟨parent, children, heq⟩ := deletePeerNode_eq net r
    apply htracks.congr (by rw [heq])
    apply leads_congr
    · rw [heq]
    · rfl
    · rfl
    · rfl
    · intro c r' hr'
      apply deletePeerNode_livePeer
      rintro rfl
      rw [← hlinks.keyed] at hr'
      rw [NetworkTopology.findNode, hr'] at hnone
      cases hnone
  · exact updateTable_tracks (hlinks.removed hremoved) hupdate

/-- `set_Parent` rebuilds the table if it has changed a link. -/
lemma reparented_tracks (hlinks : Links net.topology) (htracks : net.Tracks) {rc rp : Rank}
    {t : NetworkTopology} {result : NetworkTopology.Reparented}
    (hset : net.topology.setParent rc rp = .ok (t, result))
    (hupdate : { net with topology := t }.updateRouterTable
      (decide (result = NetworkTopology.Reparented.moved)) = .ok net') : net'.Tracks := by
  rcases setParent_spec hlinks hset with ⟨hne, rfl, -⟩ | ⟨rfl, c, p, -, -, -, hmoved⟩
  · rw [decide_eq_false hne] at hupdate
    cases hupdate
    exact htracks
  · exact updateTable_tracks (hlinks.moved hmoved) hupdate

lemma Applied.tracks {u : Update} (h : Applied net u net') (hlinks : Links net.topology)
    (htracks : net.Tracks) (hold : u.isNew = false) (hstrands : ¬net.Strands u) : net'.Tracks := by
  cases h with
  | ignored hwhy hsame => exact hsame.tracks htracks
  | added hshut hnew hadd hsame =>
      rw [hold] at hnew
      cases hnew
  | removedHere hshut htype hpar hremove hupdate hsame =>
      exact hsame.tracks (removedHere_tracks hlinks htracks hremove hupdate)
  | removedElsewhere hshut htype hpar hremove hsame =>
      rcases removeNode_spec hlinks hremove with ⟨-, -, rfl⟩ | ⟨-, p, hp, hremoved⟩
      · exact hsame.tracks htracks
      · apply hsame.tracks
        have hnot : ¬((net.getOutletNode u.chldRank).isSome ∨
            (u.chldRank = net.localRank ∧ net.table ≠ ∅)) := by
          intro hrouted
          exact hstrands ⟨hshut, htype, hpar, by rw [hp]; rfl, hrouted⟩
        rw [not_or, Option.not_isSome_iff_eq_none, not_and_or, not_ne_iff] at hnot
        exact htracks.congr rfl
          (leads_removed htracks hlinks hp hremoved hnot.1 hnot.2)
  | reparented hshut htype hset hupdate hsame =>
      exact hsame.tracks (reparented_tracks hlinks htracks hset hupdate)
  | portChanged htype hport hsame =>
      apply hsame.tracks
      apply htracks.congr
      · rfl
      · apply leads_congr
        · rfl
        · exact (modify_rest hport).1
        · exact modify_rankOf hport fun _ => rfl
        · exact modify_parentOf hport fun _ => rfl
        · exact fun _ _ _ => rfl

/-- No record of the list strands a rank without a later one that rebuilds the table. The
table is current in front of the list if `current` holds. -/
def Settled (upstream : Bool) : Prop → Network → List Update → Prop
  | current, _, [] => current
  | current, net, u :: us => ∀ net', applyUpdate upstream net u = .ok net' →
      Settled upstream (net.Rebuilds u ∨ (current ∧ ¬net.Strands u)) net' us

/-- The condition on a list: a new node, for which the table is rebuilt in the end, or no
rank that stays stranded. -/
def Network.Refreshes (net : Network) (upstream : Bool) (us : List Update) : Prop :=
  us.any Update.isNew = true ∨ Settled upstream True net us

lemma records_links {upstream : Bool} {us : List Update} (hlinks : Links net.topology)
    (h : us.foldlM (applyUpdate upstream) net = .ok net') : Links net'.topology :=
  foldlM_keeps (I := fun net => Links net.topology)
    (fun _ _ {_ _} hl hu => (applyUpdate_cases hu).links hl) hlinks h

lemma records_tracks {upstream : Bool} {us : List Update} {current : Prop}
    (hlinks : Links net.topology) (htracks : current → net.Tracks)
    (hold : ∀ u ∈ us, u.isNew = false) (hsettled : Settled upstream current net us)
    (h : us.foldlM (applyUpdate upstream) net = .ok net') : net'.Tracks := by
  induction us generalizing net current with
  | nil =>
      cases h
      exact htracks hsettled
  | cons u us ih =>
      rw [List.foldlM_cons] at h
      obtain ⟨net₁, h₁, h⟩ := bind_ok_iff.mp h
      have happlied := applyUpdate_cases h₁
      apply ih (happlied.links hlinks) _ (fun v hv => hold v (List.mem_cons_of_mem _ hv))
        (hsettled net₁ h₁) h
      rintro (hrebuilds | ⟨hcurrent, hstrands⟩)
      · exact happlied.rebuilt hlinks hrebuilds
      · exact happlied.tracks hlinks (htracks hcurrent) (hold u List.mem_cons_self) hstrands

/-- What is left to do after the records concerns no link. -/
lemma tfilterTopoUpdateCommon_records {upstream : Bool} {us : List Update}
    (h : net.tfilterTopoUpdateCommon upstream us = .ok net') :
    ∃ net₁ net₂, us.foldlM (applyUpdate upstream) net = .ok net₁ ∧
      net₁.updateRouterTable (us.any Update.isNew) = .ok net₂ ∧ SameRouting net₂ net' := by
  obtain ⟨net₁, hrecords, h⟩ := bind_ok_iff.mp h
  obtain ⟨net₂, hupdate, hres⟩ := bind_ok_iff.mp h
  cases hres
  refine ⟨net₁, net₂, hrecords, hupdate, ?_⟩
  split_ifs
  · exact sameRouting_mapTopolStream _ _
  · exact SameRouting.refl net₂

lemma tfilterTopoUpdateCommon_links {upstream : Bool} {us : List Update}
    (hlinks : Links net.topology) (h : net.tfilterTopoUpdateCommon upstream us = .ok net') :
    Links net'.topology := by
  obtain ⟨net₁, net₂, hrecords, hupdate, hsame⟩ := tfilterTopoUpdateCommon_records h
  have hlinks₁ := records_links hlinks hrecords
  rw [hsame.topology, updateRouterTable_eq hupdate]
  exact hlinks₁

/-- After a list that meets the condition the table tracks the topology. -/
lemma tfilterTopoUpdateCommon_tracks {upstream : Bool} {us : List Update}
    (hlinks : Links net.topology) (htracks : net.Tracks) (hrefreshes : net.Refreshes upstream us)
    (h : net.tfilterTopoUpdateCommon upstream us = .ok net') : net'.Tracks := by
  obtain ⟨net₁, net₂, hrecords, hupdate, hsame⟩ := tfilterTopoUpdateCommon_records h
  apply hsame.tracks
  cases hnew : us.any Update.isNew with
  | true =>
      rw [hnew] at hupdate
      exact updateTable_tracks (records_links hlinks hrecords) hupdate
  | false =>
      rw [hnew] at hupdate
      cases hupdate
      have hsettled : Settled upstream True net us := by
        simpa [Network.Refreshes, hnew] using hrefreshes
      exact records_tracks hlinks (fun _ => htracks) (by simpa using hnew) hsettled hrecords

/-- The states after a sequence of lists that all meet a condition on the state in front of
the list. -/
inductive Run (Meets : Network → Bool → List Update → Prop) (net : Network) : Network → Prop
  | start : Run Meets net net
  | list {net₁ net₂ : Network} (hrun : Run Meets net net₁) {upstream : Bool} {us : List Update}
      (hmeets : Meets net₁ upstream us)
      (hlist : net₁.tfilterTopoUpdateCommon upstream us = .ok net₂) : Run Meets net net₂

/-- In every run whose lists meet the condition, the table tracks the topology after every
list. -/
theorem run_tracks (hlinks : Links net.topology) (htracks : net.Tracks)
    (hrun : Run Network.Refreshes net net') : net'.Tracks := by
  have hboth : Links net'.topology ∧ net'.Tracks := by
    induction hrun with
    | start => exact ⟨hlinks, htracks⟩
    | list _ hmeets hlist ih =>
        exact ⟨tfilterTopoUpdateCommon_links ih.1 hlist,
          tfilterTopoUpdateCommon_tracks ih.1 ih.2 hmeets hlist⟩
  exact hboth.2

/-- A front-end with a connection to the rank 1 that knows no node but itself. -/
def startedFrontEnd : Network where
  localRank := 0
  role := .frontEnd
  recoverFromFailures := true
  shuttingDown := false
  parent := none
  children := [⟨1, 0⟩]
  topology := .create ['a'] 1 0 false
  table := ∅
  streams := []
  internalStreams := []
  updatesBuffer := []
  events := []

/-- The rank 1 below the front-end, and a back-end below it. -/
def firstNodes : List Update := [⟨.newCP, 0, 1, ['b'], 2⟩, ⟨.newBE, 1, 2, ['c'], 0⟩]

lemma startedFrontEnd_links : Links startedFrontEnd.topology := links_create ['a'] 1 0 false

lemma startedFrontEnd_tracks : startedFrontEnd.Tracks :=
  updateTable_tracks startedFrontEnd_links (rfl : startedFrontEnd.updateTable = .ok startedFrontEnd)

theorem run_tracks_first_nodes :
    ∃ net, Run Network.Refreshes startedFrontEnd net ∧ net.getOutletNode 2 = some ⟨1, 0⟩ ∧
      net.Tracks := by
  obtain ⟨net, hlist, hrouted⟩ : ∃ net,
      startedFrontEnd.tfilterTopoUpdateCommon true firstNodes = .ok net ∧
        net.getOutletNode 2 = some ⟨1, 0⟩ := ⟨_, rfl, rfl⟩
  have hrun : Run Network.Refreshes startedFrontEnd net := Run.start.list (.inl rfl) hlist
  exact ⟨net, hrun, hrouted,
    run_tracks startedFrontEnd_links startedFrontEnd_tracks hrun⟩

/-- The back-end fails at the rank 1; the front-end still routes it. -/
theorem removal_elsewhere_stranded :
    ¬∀ (net net' : Network) (upstream : Bool) (us : List Update), Links net.topology →
      net.Tracks → net.tfilterTopoUpdateCommon upstream us = .ok net' → net'.Tracks := by
  intro hall
  obtain ⟨net, net', hfirst, hremove, hrouted, hgone⟩ : ∃ net net',
      startedFrontEnd.tfilterTopoUpdateCommon true firstNodes = .ok net ∧
        net.tfilterTopoUpdateCommon true [⟨.removeRank, 1, 2, [], 0⟩] = .ok net' ∧
        net'.getOutletNode 2 = some ⟨1, 0⟩ ∧ net'.topology.findNode 2 = none :=
    ⟨_, _, rfl, rfl, rfl, rfl⟩
  have hlinks := tfilterTopoUpdateCommon_links startedFrontEnd_links hfirst
  have htracks := tfilterTopoUpdateCommon_tracks startedFrontEnd_links startedFrontEnd_tracks
    (.inl rfl) hfirst
  have htracks' := hall net net' true _ hlinks htracks hremove
  obtain ⟨l, c, -, -, ⟨d, hd, -⟩, -⟩ := (htracks' 2 ⟨1, 0⟩).mp hrouted
  rw [hgone] at hd
  cases hd

end MRNet.Routing
