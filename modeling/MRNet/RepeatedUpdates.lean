import MRNet.RecordUpdates
import MRNet.RoutingTable

/-!
# Updates that are applied twice

The part of an update that concerns the topology changes what is known of the ranks, and
nothing else of it is read by the next one. So lists that may be repeated on the ranks may be
repeated on a topology.
-/
namespace MRNet.Routing
open Codec MRNet.Topology
open SerialGraph (Text Port unknownPort)
open WaitForAll (Rank)

/-- What the `update_` members of `NetworkTopology` do with the nodes and their links. -/
def updateTopology (t : NetworkTopology) (u : Update) : Outcome NetworkTopology :=
  match u.type with
  | .newBE => Network.addNode t u.parRank u.chldRank u.chldHost u.chldPort true
  | .removeRank => do
      let (t, _) ← t.removeNode u.chldRank
      return t
  | .changeParent => do
      let (t, _) ← t.setParent u.chldRank u.parRank
      return t
  | .changePort =>
      if u.chldPort = unknownPort then return t
      else
        match t.findNode u.chldRank with
        | none => .error (.fault .nullPointer)
        | some updateNode => t.modify updateNode (·.setPort u.chldPort)
  | .newCP => Network.addNode t u.parRank u.chldRank u.chldHost u.chldPort false
  | .invalid => return t

/-- Unless it is shutting down, a process does this with its topology. -/
theorem applyUpdate_topology {net net' : Network} {upstream : Bool} {u : Update}
    (hup : net.shuttingDown = false) (h : Network.applyUpdate upstream net u = .ok net') :
    updateTopology net.topology u = .ok net'.topology ∧ net'.shuttingDown = false := by
  have hreport := fun net u event => sameRouting_report net upstream u event
  have hdone : ∀ {t : NetworkTopology} {net₁ : Network}, SameRouting net₁ net' →
      net₁.topology = t → net₁.shuttingDown = false →
        (.ok t : Outcome NetworkTopology) = .ok net'.topology ∧ net'.shuttingDown = false := by
    intro t net₁ hsame ht hup₁
    rw [hsame.topology, hsame.shuttingDown, ht]
    exact ⟨rfl, hup₁⟩
  have hnot : ¬net.shuttingDown = true := by
    rw [hup]
    exact Bool.false_ne_true
  unfold Network.applyUpdate at h
  unfold updateTopology
  cases htype : u.type with
  | newBE =>
      simp only [htype, Network.updateAddBackEnd, if_neg hnot] at h
      obtain ⟨t, hadd, hres⟩ := bind_ok_iff.mp h
      cases hres
      simp only [hadd]
      exact hdone ((sameRouting_mapTopolStream _ _).trans (hreport _ _ _)) rfl hup
  | removeRank =>
      simp only [htype, Network.updateRemoveNode, if_neg hnot] at h
      split_ifs at h with hpar
      · obtain ⟨net₁, hremove, hres⟩ := bind_ok_iff.mp h
        cases hres
        obtain ⟨t, found, net₂, hremove, hupdate, hsame⟩ := removeNode_cases hremove
        obtain ⟨parent, children, heq⟩ := deletePeerNode_eq net u.chldRank
        have hnet₂ := updateRouterTable_eq hupdate
        simp only [hremove, ok_bind]
        refine hdone (hsame.trans (hreport _ _ _)) ?_ ?_
        · rw [hnet₂]
        · rw [hnet₂, heq]
          exact hup
      · obtain ⟨⟨t, found⟩, hremove, hres⟩ := bind_ok_iff.mp h
        cases hres
        simp only [hremove, ok_bind]
        exact hdone (hreport _ _ _) rfl hup
  | changeParent =>
      simp only [htype, Network.updateChangeParent, if_neg hnot] at h
      obtain ⟨net₁, hchange, hres⟩ := bind_ok_iff.mp h
      cases hres
      obtain ⟨t, result, net₂, hset, hupdate, hsame⟩ := changeParent_cases hchange
      have hnet₂ := updateRouterTable_eq hupdate
      simp only [hset, ok_bind]
      refine hdone (hsame.trans (hreport _ _ _)) ?_ ?_
      · rw [hnet₂]
      · rw [hnet₂]
        exact hup
  | changePort =>
      simp only [htype, Network.updateChangePort, if_neg hnot] at h
      dsimp only
      split_ifs at h ⊢ with hport
      · cases h
        exact hdone (.refl _) rfl hup
      · cases hnode : net.topology.findNode u.chldRank with
        | none =>
            rw [hnode] at h
            cases h
        | some node =>
            rw [hnode] at h
            obtain ⟨t, hmodify, hres⟩ := bind_ok_iff.mp h
            cases hres
            simp only [hmodify]
            exact hdone (hreport _ _ _) rfl hup
  | newCP =>
      simp only [htype, Network.updateAddInternalNode, if_neg hnot] at h
      obtain ⟨t, hadd, hres⟩ := bind_ok_iff.mp h
      cases hres
      simp only [hadd]
      exact hdone (hreport _ _ _) rfl hup
  | invalid =>
      simp only [htype] at h
      cases h
      exact hdone (.refl _) rfl hup

variable {t t' : NetworkTopology} {u : Update}

/-- Consistent links, and no parent that is a back-end. -/
structure Sound (t : NetworkTopology) : Prop where
  links : Links t
  known : t.record.ParentsKnown

lemma setParent_reparent (hlinks : Links t) {rc rp : Rank} {res : NetworkTopology.Reparented}
    (h : t.setParent rc rp = .ok (t', res)) : t'.record = t.record.reparent rc rp := by
  unfold Records.reparent
  rcases setParent_record hlinks h with ⟨rfl, hsame⟩ | ⟨hmoved, x, hx, hrp, hne⟩
  · rw [if_pos]
    by_cases hrc : t'.record rc = none
    · exact .inl hrc
    · by_cases hrp : t'.record rp = none
      · exact .inr (.inl hrp)
      · obtain ⟨x, hx⟩ := Option.ne_none_iff_exists'.mp hrc
        refine .inr (.inr ?_)
        rw [hx]
        exact hsame x hx hrp
  · rw [if_neg, hmoved]
    rintro (hnone | hnone | hlinked)
    · rw [hx] at hnone
      cases hnone
    · exact hrp hnone
    · rw [hx] at hlinked
      exact hne hlinked

lemma addNode_add (hlinks : Links t) {rp rc : Rank} {hostName : Text} {port : Port}
    {isBackEnd : Bool} (h : Network.addNode t rp rc hostName port isBackEnd = .ok t') :
    t'.record = t.record.add rp rc hostName port isBackEnd := by
  unfold Network.addNode at h
  unfold Records.add
  cases hfound : t.findNode rc with
  | some node =>
      rw [hfound] at h
      cases h
      rw [if_neg]
      rw [record_eq_none_iff hlinks, hfound]
      exact Option.some_ne_none node
  | none =>
      rw [hfound] at h
      obtain ⟨⟨t₁, res⟩, hset, hres⟩ := bind_ok_iff.mp h
      cases hres
      rw [if_pos ((record_eq_none_iff hlinks rc).mpr hfound), ← newNode_record hlinks]
      exact setParent_reparent (hlinks.newNode hostName port isBackEnd hfound) hset

lemma removeNode_remove (hlinks : Links t) {r : Rank} {found : Bool}
    (h : t.removeNode r = .ok (t', found)) :
    t'.record = if t.record r = none then t.record else t.record.remove r := by
  rcases Topology.removeNode_cases hlinks h with ⟨hnone, rfl⟩ | ⟨p, hp, hremoved, hobjects⟩
  · rw [if_pos ((record_eq_none_iff hlinks r).mpr hnone)]
  · rw [if_neg, record_removed hlinks hp hremoved hobjects]
    rw [record_eq_none_iff hlinks, hp]
    exact Option.some_ne_none p

lemma modify_setPort (hlinks : Links t) {r : Rank} {p : Ptr} {port : Port}
    (hp : t.findNode r = some p) (h : t.modify p (·.setPort port) = .ok t') :
    t'.record = t.record.setPort r port := by
  have hrank : t'.rankOf = t.rankOf := modify_rankOf h fun _ => rfl
  have hparent : t'.parentOf = t.parentOf := modify_parentOf h fun _ => rfl
  have hflag : t'.flagOf = t.flagOf := modify_view_eq h fun _ => rfl
  have hfind : t'.findNode = t.findNode := by
    ext1 r'
    rw [NetworkTopology.findNode, (modify_rest h).1]
    rfl
  ext1 r'
  cases hr : t.findNode r' with
  | none =>
      have hnone : t.record r' = none := (record_eq_none_iff hlinks r').mpr hr
      have hne : r' ≠ r := by
        rintro rfl
        rw [hp] at hr
        cases hr
      rw [Records.setPort, Function.update_of_ne hne, hnone, NetworkTopology.record, hfind, hr]
      rfl
  | some q =>
      have hqp := hlinks.findNode_eq_iff hr hp
      obtain ⟨hostName, oldPort, isBackEnd, hplace, hflag₀⟩ :=
        views_of_live (hlinks.live_of_findNode hr).1
      have hplace' : t'.placeOf q = some (hostName, if r' = r then port else oldPort) := by
        rw [NetworkTopology.placeOf, NetworkTopology.view] at hplace
        obtain ⟨node, hnode, hnames⟩ := Option.map_eq_some_iff.mp hplace
        cases hnames
        rw [NetworkTopology.placeOf, modify_view h]
        simp only [hqp]
        split_ifs
        · exact view_of_lookup _ hnode
        · exact view_of_lookup _ hnode
      have hflag' : t'.flagOf q = some isBackEnd := by
        rw [hflag, hflag₀]
      have hold : t.record r' = _ := (record_of_found hr).trans (recordOf_of_views hplace hflag₀)
      rw [Records.setPort_of_some hold, record_of_found (by rw [hfind, hr]),
        recordOf_of_views hplace' hflag', hrank, hparent]

/-- A record changes the topology as it changes what is known of the ranks. -/
theorem Sound.update (h : Sound t) (hu : updateTopology t u = .ok t') :
    Sound t' ∧ t'.record = t.record.update u ∧ t.record.Accepts u := by
  suffices hall : Links t' ∧ t'.record = t.record.update u ∧ t.record.Accepts u by
    obtain ⟨hlinks, hrecord, haccepts⟩ := hall
    refine ⟨⟨hlinks, ?_⟩, hrecord, haccepts⟩
    rw [hrecord]
    exact h.known.update u
  have haccepts : u.type ≠ .changePort → t.record.Accepts u := fun hne hsets => absurd hsets.1 hne
  unfold updateTopology at hu
  unfold Records.update
  cases htype : u.type with
  | newBE =>
      simp only [htype] at hu
      exact ⟨addNode_links h.links hu, addNode_add h.links hu, haccepts (by simp [htype])⟩
  | removeRank =>
      simp only [htype] at hu
      obtain ⟨⟨t₁, found⟩, hremove, hres⟩ := bind_ok_iff.mp hu
      cases hres
      exact ⟨h.links.removeNode hremove, removeNode_remove h.links hremove,
        haccepts (by simp [htype])⟩
  | changeParent =>
      simp only [htype] at hu
      obtain ⟨⟨t₁, res⟩, hset, hres⟩ := bind_ok_iff.mp hu
      cases hres
      exact ⟨h.links.setParent hset, setParent_reparent h.links hset, haccepts (by simp [htype])⟩
  | changePort =>
      simp only [htype] at hu
      dsimp only
      split_ifs at hu ⊢ with hport
      · cases hu
        exact ⟨h.links, rfl, fun hsets => absurd hport hsets.2.2⟩
      · cases hnode : t.findNode u.chldRank with
        | none =>
            rw [hnode] at hu
            cases hu
        | some node =>
            rw [hnode] at hu
            refine ⟨modify_setPort_links h.links hu, modify_setPort h.links hnode hu, fun _ => ?_⟩
            rw [ne_eq, record_eq_none_iff h.links, hnode]
            exact Option.some_ne_none node
  | newCP =>
      simp only [htype] at hu
      exact ⟨addNode_links h.links hu, addNode_add h.links hu, haccepts (by simp [htype])⟩
  | invalid =>
      simp only [htype] at hu
      cases hu
      exact ⟨h.links, rfl, haccepts (by simp [htype])⟩

variable {us : List Update}

lemma Sound.updates (h : Sound t) (hus : us.foldlM updateTopology t = .ok t') :
    Sound t' ∧ t'.record = t.record.updates us ∧ t.record.AcceptsAll us := by
  induction us generalizing t with
  | nil =>
      cases hus
      refine ⟨h, rfl, ?_⟩
      intro before u after hsplit
      simp at hsplit
  | cons u us ih =>
      rw [List.foldlM_cons] at hus
      obtain ⟨t₁, hu, hus⟩ := bind_ok_iff.mp hus
      obtain ⟨h₁, hrecord, haccepts⟩ := h.update hu
      obtain ⟨h', hrecord', hall⟩ := ih h₁ hus
      rw [hrecord] at hrecord' hall
      refine ⟨h', hrecord', ?_⟩
      intro before v after hsplit
      cases before with
      | nil =>
          cases hsplit
          exact haccepts
      | cons w before =>
          cases hsplit
          exact hall before v after rfl

/-- A pass of a process that is not shutting down does this with its topology. -/
theorem tfilterTopoUpdateCommon_topology {net net' : Network} {upstream : Bool}
    (hup : net.shuttingDown = false) (h : net.tfilterTopoUpdateCommon upstream us = .ok net') :
    us.foldlM updateTopology net.topology = .ok net'.topology ∧ net'.shuttingDown = false := by
  obtain ⟨net₁, net₂, hrecords, hupdate, hsame⟩ := tfilterTopoUpdateCommon_records h
  have hnet₂ := updateRouterTable_eq hupdate
  have hpass : us.foldlM updateTopology net.topology = .ok net₁.topology ∧
      net₁.shuttingDown = false := by
    clear h hsame hnet₂ hupdate
    induction us generalizing net with
    | nil =>
        cases hrecords
        exact ⟨rfl, hup⟩
    | cons u us ih =>
        rw [List.foldlM_cons] at hrecords ⊢
        obtain ⟨net₀, hu, hrecords⟩ := bind_ok_iff.mp hrecords
        obtain ⟨htopology, hup₀⟩ := applyUpdate_topology hup hu
        rw [htopology, ok_bind]
        exact ih hup₀ hrecords
  rw [hsame.topology, hsame.shuttingDown, hnet₂]
  exact hpass

end MRNet.Routing
