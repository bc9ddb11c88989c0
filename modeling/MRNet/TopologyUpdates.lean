import MRNet.RoutingTable

/-!
# Updates and cycles

A received parent change is applied without a look at the ancestors of the new parent. As
long as no node is moved below its own subtree, the parent links stay a forest, and the
recursions over subtrees end.
-/
namespace MRNet.Routing
open Codec Relation MRNet.Topology
open Forest (Link Rooted Below)
open SerialGraph (Text Port)
open WaitForAll (Rank)
open Network

variable {net net' : Network} {t t' : NetworkTopology}

/-- The record hangs no node below its own subtree. -/
def Network.Admits (net : Network) (u : Update) : Prop :=
  net.shuttingDown = false →
    (u.isNew = true → net.topology.findNode u.chldRank = none → u.parRank ≠ u.chldRank) ∧
    (u.type = .changeParent → ∀ c p, net.topology.findNode u.chldRank = some c →
      net.topology.findNode u.parRank = some p → ¬Below net.topology.parentOf p c)

/-- An address that is not in use has nothing below it. -/
lemma not_below_nextPtr (hlinks : Links t) {p : Ptr} (hp : t.Live p) :
    ¬Below t.parentOf p t.nextPtr := by
  intro hbelow
  rcases ReflTransGen.cases_tail hbelow with heq | ⟨q, -, hq⟩
  · exact hlinks.not_live_nextPtr (heq ▸ hp)
  · exact hlinks.not_live_nextPtr (hlinks.parent_live hq)

lemma addNode_rooted (hlinks : Links t) (hrooted : ∀ p, Rooted t.parentOf p)
    {parRank chldRank : Rank} {chldHost : Text} {chldPort : Port} {isBackEnd : Bool}
    (hne : t.findNode chldRank = none → parRank ≠ chldRank)
    (h : addNode t parRank chldRank chldHost chldPort isBackEnd = .ok t') (p : Ptr) :
    Rooted t'.parentOf p := by
  unfold addNode at h
  cases hfound : t.findNode chldRank with
  | some node =>
      rw [hfound] at h
      cases h
      exact hrooted p
  | none =>
      rw [hfound] at h
      obtain ⟨⟨t₁, result⟩, hset, hres⟩ := bind_ok_iff.mp h
      cases hres
      have hcreated : Created t (t.newNode chldHost chldPort chldRank isBackEnd) chldRank :=
        created_of_newObject hlinks chldHost chldPort chldRank isBackEnd rfl rfl rfl rfl
      have hlinks₁ := hlinks.created hfound hcreated
      rcases setParent_spec hlinks₁ hset with ⟨-, rfl, -⟩ | ⟨-, c, q, hc, hq, -, hmoved⟩
      · rw [hcreated.parentOf]
        exact hrooted p
      · rw [NetworkTopology.findNode, hcreated.nodes] at hc hq
        rw [Finmap.lookup_insert] at hc
        rw [Finmap.lookup_insert_of_ne _ (hne hfound)] at hq
        cases hc
        rw [hmoved.parentOf, hcreated.parentOf]
        have hlive := (hlinks.live_of_findNode hq).1
        exact (hrooted q).move (not_below_nextPtr hlinks hlive) (hrooted p)

lemma Applied.rooted {u : Update} (h : Applied net u net') (hlinks : Links net.topology)
    (hrooted : ∀ p, Rooted net.topology.parentOf p) (hadmits : net.Admits u) (p : Ptr) :
    Rooted net'.topology.parentOf p := by
  obtain ⟨-, -, heq | ⟨hshut, hnew, _, hadd⟩ | ⟨_, hremove⟩ | ⟨hshut, htype, _, hset⟩ |
    ⟨_, hport⟩⟩ := h.topology
  · rw [heq]
    exact hrooted p
  · exact addNode_rooted hlinks hrooted ((hadmits hshut).1 hnew) hadd p
  · exact removeNode_rooted hlinks hrooted hremove p
  · exact setParent_rooted hlinks hrooted ((hadmits hshut).2 htype) hset p
  · have hparent : net'.topology.parentOf = net.topology.parentOf :=
      modify_parentOf hport fun _ => rfl
    rw [hparent]
    exact hrooted p

/-- Every record of a list is admitted by the state in front of it. -/
def Network.AdmitsAll : Network → Bool → List Update → Prop
  | _, _, [] => True
  | net, upstream, u :: us => net.Admits u ∧
      ∀ net', applyUpdate upstream net u = .ok net' → net'.AdmitsAll upstream us

/-- The parent links are a forest. -/
structure Grounded (t : NetworkTopology) : Prop where
  links : Links t
  rooted : ∀ p, Rooted t.parentOf p

lemma records_grounded {upstream : Bool} {us : List Update} (h : Grounded net.topology)
    (hadmits : net.AdmitsAll upstream us)
    (hrecords : us.foldlM (applyUpdate upstream) net = .ok net') : Grounded net'.topology := by
  induction us generalizing net with
  | nil =>
      cases hrecords
      exact h
  | cons u us ih =>
      rw [List.foldlM_cons] at hrecords
      obtain ⟨net₁, h₁, hrecords⟩ := bind_ok_iff.mp hrecords
      have happlied := applyUpdate_cases h₁
      obtain ⟨hmeets, hrest⟩ := hadmits
      exact ih ⟨happlied.links h.links, happlied.rooted h.links h.rooted hmeets⟩ (hrest net₁ h₁)
        hrecords

lemma tfilterTopoUpdateCommon_grounded {upstream : Bool} {us : List Update}
    (h : Grounded net.topology) (hadmits : net.AdmitsAll upstream us)
    (hlist : net.tfilterTopoUpdateCommon upstream us = .ok net') : Grounded net'.topology := by
  obtain ⟨net₁, net₂, hrecords, hupdate, hsame⟩ := tfilterTopoUpdateCommon_records hlist
  have hgrounded := records_grounded h hadmits hrecords
  rw [hsame.topology, updateRouterTable_eq hupdate]
  exact hgrounded

/-- The three recursions over subtrees end at a node. -/
structure Ends (t : NetworkTopology) (p : Ptr) : Prop where
  getDescendants : ∃ ds, t.getDescendants t.levels p = .ok ds
  findSubTreeHeight : ∃ r, NetworkTopology.findSubTreeHeight t.levels p t = .ok r
  serialize : ∀ graph, ∃ graph', t.serialize t.levels p graph = .ok graph'

lemma Grounded.wellFounded (h : Grounded t) : WellFounded (Link t.parentOf) :=
  wellFounded_of_rooted h.rooted

lemma Grounded.ends (h : Grounded t) {p : Ptr} (hp : t.Live p) : Ends t p := by
  have hacc := h.wellFounded.apply p
  constructor
  · exact getDescendants_returns h.links hp hacc
  · exact findSubTreeHeight_returns h.links hp hacc
  · exact serialize_returns h.links hp hacc

/-- In every run whose records are admitted, following the parent links ends from every node,
and so do the recursions over its subtree. -/
theorem run_rooted (h : Grounded net.topology) (hrun : Run Network.AdmitsAll net net') :
    (∀ p, Rooted net'.topology.parentOf p) ∧
      ∀ p, net'.topology.Live p → Ends net'.topology p := by
  have hgrounded : Grounded net'.topology := by
    induction hrun with
    | start => exact h
    | list _ hmeets hlist ih => exact tfilterTopoUpdateCommon_grounded ih hmeets hlist
  exact ⟨hgrounded.rooted, fun p hp => hgrounded.ends hp⟩

/-- A single node. -/
lemma grounded_create (hostName : Text) (port : Port) (rank : Rank) (isBackEnd : Bool) :
    Grounded (NetworkTopology.create hostName port rank isBackEnd) := by
  refine ⟨links_create hostName port rank isBackEnd, fun p => Rooted.root ?_⟩
  have hcreated : Created NetworkTopology.empty
      (NetworkTopology.create hostName port rank isBackEnd) rank :=
    created_of_newObject links_empty hostName port rank isBackEnd rfl rfl rfl rfl
  rw [hcreated.parentOf]
  rfl

lemma firstNodes_admitted : startedFrontEnd.AdmitsAll true firstNodes := by
  simp [Network.AdmitsAll, firstNodes, Network.Admits]

theorem run_rooted_first_nodes :
    ∃ net, Run Network.AdmitsAll startedFrontEnd net ∧ net.topology.parentOf 2 = some 1 ∧
      (∀ p, Rooted net.topology.parentOf p) ∧
      ∀ p, net.topology.Live p → Ends net.topology p := by
  obtain ⟨net, hlist, hparent⟩ : ∃ net,
      startedFrontEnd.tfilterTopoUpdateCommon true firstNodes = .ok net ∧
        net.topology.parentOf 2 = some 1 := ⟨_, rfl, rfl⟩
  have hrun : Run Network.AdmitsAll startedFrontEnd net := Run.start.list firstNodes_admitted hlist
  exact ⟨net, hrun, hparent, run_rooted (grounded_create ['a'] 1 0 false) hrun⟩

/-- The inner node of a chain is moved below its own child. -/
theorem parent_below_child_circular :
    ∃ (net net' : Network) (us : List Update), Grounded net.topology ∧
      net.tfilterTopoUpdateCommon true us = .ok net' ∧
      ∃ p, net'.topology.Live p ∧ ¬Rooted net'.topology.parentOf p ∧
        ∀ n ds, net'.topology.getDescendants n p ≠ .ok ds := by
  obtain ⟨net, net', hfirst, hmove, hparent₁, hparent₂⟩ : ∃ net net',
      startedFrontEnd.tfilterTopoUpdateCommon true firstNodes = .ok net ∧
        net.tfilterTopoUpdateCommon true [⟨.changeParent, 2, 1, [], 0⟩] = .ok net' ∧
        net'.topology.parentOf 1 = some 2 ∧ net'.topology.parentOf 2 = some 1 :=
    ⟨_, _, rfl, rfl, rfl, rfl⟩
  have hstart : Grounded startedFrontEnd.topology := grounded_create ['a'] 1 0 false
  have hgrounded := tfilterTopoUpdateCommon_grounded hstart firstNodes_admitted hfirst
  have hlinks' := tfilterTopoUpdateCommon_links hgrounded.links hmove
  have hloop : TransGen (Link net'.topology.parentOf) 1 1 :=
    TransGen.head hparent₁ (TransGen.single hparent₂)
  refine ⟨net, net', _, hgrounded, hmove, 1, NetworkTopology.live_of_parentOf hparent₁,
    fun hrooted => hrooted.not_circular hloop, fun n ds hds => ?_⟩
  exact Forest.not_circular_of_acc (acc_of_getDescendants hlinks' hds) hloop

end MRNet.Routing
