import MRNet.Adoption
import MRNet.GraphText
import MRNet.TopologyRecords

/-!
# The text of a topology

A topology without orphans is written as a graph, and a topology that is reset to the text
of the graph says the same of every rank.
-/
namespace MRNet.Topology
open Codec Relation
open SerialGraph (Text Port Graph Legible)
open WaitForAll (Rank)
open Forest (Link Rooted Below)

namespace NetworkTopology

def getTopologyString (t : NetworkTopology) : Outcome Text :=
  match t.root with
  | none => .error (.fault .nullPointer)
  | some root => t.serialize t.levels root []

end NetworkTopology

open NetworkTopology

variable {t t' s s' : NetworkTopology}

/-- The ranks of a graph, and what its text says of each. -/
def graphRecords : Graph → Option Rank → List (Rank × Record)
  | ⟨hostName, port, rank, isBackEnd, children⟩, parent =>
      (rank, ⟨hostName, port, isBackEnd, parent⟩) ::
        (children.map fun c => graphRecords c (some rank)).flatten

lemma graphRecords_eq (g : Graph) (parent : Option Rank) :
    graphRecords g parent = (g.rank, ⟨g.hostName, g.port, g.isBackEnd, parent⟩) ::
      (g.children.map fun c => graphRecords c (some g.rank)).flatten := by
  cases g
  rw [graphRecords]

/-- A node that can be read back from a text: it has a name, and is a leaf if it is a
back-end. -/
structure Readable (g : Graph) : Prop where
  legible : Legible g.hostName
  named : g.hostName ≠ []
  leaf : g.isBackEnd = true → g.children = []

def AllReadable (g : Graph) : Prop := ∀ s ∈ g.subgraphs, Readable s

/-- A node whose record can be read back but for the port. -/
structure Sound (g : Graph) : Prop where
  legible : Legible g.hostName
  leaf : g.isBackEnd = true → g.children = []

def AllSound (g : Graph) : Prop := ∀ s ∈ g.subgraphs, Sound s

lemma AllSound.isLegible {g : Graph} (h : AllSound g) : g.IsLegible :=
  fun s hs => (h s hs).legible

lemma AllSound.root {g : Graph} (h : AllSound g) : Sound g := by
  apply h g
  rw [Graph.subgraphs_eq]
  exact List.mem_cons_self

lemma AllSound.child {g c : Graph} (h : AllSound g) (hc : c ∈ g.children) : AllSound c :=
  fun s hs => h s (Graph.subgraphs_child hc hs)

lemma AllReadable.allSound {g : Graph} (h : AllReadable g) : AllSound g :=
  fun s hs => ⟨(h s hs).legible, (h s hs).leaf⟩

/-- What is read of a graph. -/
def readRecords (g : Graph) (parent : Option Rank) : List (Rank × Record) :=
  graphRecords g.asRead parent

lemma readRecords_eq (g : Graph) (parent : Option Rank) :
    readRecords g parent = (g.rank, ⟨g.hostName, g.readPort, g.isBackEnd, parent⟩) ::
      (g.children.map fun c => readRecords c (some g.rank)).flatten := by
  rw [readRecords, Graph.asRead_eq, graphRecords, List.map_map]
  rfl

lemma readRecords_of_readable {g : Graph} (h : AllReadable g) (parent : Option Rank) :
    readRecords g parent = graphRecords g parent := by
  rw [readRecords, Graph.asRead_of_named fun s hs => (h s hs).named]

/-- The records are entered one after the other. -/
def register (ρ : Records) (xs : List (Rank × Record)) : Records :=
  xs.foldl (fun ρ x => Function.update ρ x.1 (some x.2)) ρ

lemma register_append (ρ : Records) (xs ys : List (Rank × Record)) :
    register ρ (xs ++ ys) = register (register ρ xs) ys :=
  List.foldl_append

lemma register_of_not_mem {ρ : Records} {xs : List (Rank × Record)} {r : Rank}
    (h : r ∉ xs.map Prod.fst) : register ρ xs r = ρ r := by
  induction xs generalizing ρ with
  | nil => rfl
  | cons x xs ih =>
      rw [List.map_cons, List.mem_cons, not_or] at h
      show register (Function.update ρ x.1 (some x.2)) xs r = ρ r
      rw [ih h.2, Function.update_of_ne h.1]

lemma register_of_mem {ρ : Records} {xs : List (Rank × Record)} {r : Rank} {x : Record}
    (hnodup : (xs.map Prod.fst).Nodup) (h : (r, x) ∈ xs) : register ρ xs r = some x := by
  induction xs generalizing ρ with
  | nil => cases h
  | cons y xs ih =>
      obtain ⟨hnot, hnodup⟩ := List.nodup_cons.mp hnodup
      show register (Function.update ρ y.1 (some y.2)) xs r = some x
      rcases List.mem_cons.mp h with rfl | hmem
      · rw [register_of_not_mem hnot, Function.update_self]
      · exact ih hnodup hmem

/-- The ranks of the list were attached, each with its record. -/
structure Attached (s s' : NetworkTopology) (xs : List (Rank × Record)) : Prop where
  links : Links s'
  found : ∀ r p, s.findNode r = some p → s'.findNode r = some p
  record : s'.record = register s.record xs

lemma Attached.refl (h : Links s) : Attached s s [] := ⟨h, fun _ _ hp => hp, rfl⟩

lemma Attached.trans {s'' : NetworkTopology} {xs ys : List (Rank × Record)}
    (h : Attached s s' xs) (h' : Attached s' s'' ys) : Attached s s'' (xs ++ ys) := by
  refine ⟨h'.links, fun r p hp => h'.found r p (h.found r p hp), ?_⟩
  rw [h'.record, h.record, register_append]

lemma Attached.record_eq {xs : List (Rank × Record)} (h : Attached s s' xs) {r : Rank}
    (hr : r ∉ xs.map Prod.fst) : s'.record r = s.record r := by
  rw [h.record, register_of_not_mem hr]

/-- A new node is linked to one that is no back-end. -/
lemma create_move {ρ : Records} {r rp : Rank} {hostName : Text} {port : Port} {isBackEnd : Bool}
    {x : Record} (hne : rp ≠ r) (hx : ρ rp = some x) (hinner : x.isBackEnd = false) :
    (ρ.create r hostName port isBackEnd).move r rp =
      Function.update ρ r (some ⟨hostName, port, isBackEnd, some rp⟩) := by
  ext1 r'
  rw [Records.move, Records.create]
  by_cases hr : r' = r
  · rw [hr, Function.update_self, Function.update_self, Option.map_some, if_neg (Ne.symm hne),
      if_pos rfl]
  · rw [Function.update_of_ne hr, Function.update_of_ne hr]
    by_cases hrp : r' = rp
    · rw [hrp, hx, Option.map_some, if_pos rfl, if_neg hne, ← hinner]
    · simp [hr, hrp]

lemma addGraphRoot_text {g : Graph} (hg : Sound g) (hlinks : Links s) {inode : Ptr} {ri : Rank}
    (hinode : s.findNode ri = some inode) {x : Record} (hx : s.record ri = some x)
    (hinner : x.isBackEnd = false) (hfresh : s.findNode g.rank = none) :
    ∃ s' c, s.addGraphRoot inode g.text = .ok (s', c) ∧ s'.findNode g.rank = some c ∧
      Attached s s' [(g.rank, ⟨g.hostName, g.readPort, g.isBackEnd, some ri⟩)] := by
  have hrank := Graph.getRootRank_text hg.legible.noColon
  have hhost := Graph.getRootHostName_text hg.legible.noColon
  have hport := Graph.getRootPort_read hg.legible.noColon
  have hflag := Graph.isRootBackEnd_text hg.legible.noColon
  have hlive := (hlinks.live_of_findNode hinode).1
  have hne : ri ≠ g.rank := by
    intro heq
    rw [heq, hfresh] at hinode
    cases hinode
  obtain ⟨s', c, hadd⟩ := addGraphRoot_returns hlinks hlive hhost hport hrank hflag
  refine ⟨s', c, hadd, ?_⟩
  obtain ⟨r, ri', s₁, isBackEnd, res, hr, hri', hgrafted, -, hset⟩ :=
    addGraphRoot_cases hlinks hlive hadd
  cases hrank.symm.trans hr
  cases (hlinks.live_of_findNode hinode).2.symm.trans hri'
  have hlinking := hgrafted.linking hlinks hlive hri' isBackEnd
  obtain ⟨hheap, hnodes, -⟩ := enlist_rest s₁ c isBackEnd
  have hrecord₁ : (enlist s₁ c isBackEnd).record =
      s.record.create g.rank g.hostName g.readPort g.isBackEnd := by
    rw [record_congr hheap hnodes]
    cases hgrafted with
    | known hfound =>
        rw [hfresh] at hfound
        cases hfound
    | made _ _ hhost' hport' hflag' =>
        cases hhost.symm.trans hhost'
        cases hport.symm.trans hport'
        cases hflag.symm.trans hflag'
        exact record_created hlinks (created_grafted hlinks inode _ _ _ _) rfl
  have hfind : ∀ r, s'.findNode r = s₁.findNode r := by
    intro r
    rw [findNode, setParent_nodes hlinking.links hset, hnodes]
    rfl
  have hnew : s₁.findNode g.rank = some c := (hgrafted.links hlinks).2.1
  refine ⟨(hfind g.rank).trans hnew, hlinking.links.setParent hset, fun r p hp => ?_, ?_⟩
  · rw [hfind]
    exact hgrafted.found hp
  · rcases setParent_record hlinking.links hset with ⟨-, hsame⟩ | ⟨hrecord, -⟩
    · -- The new node has no parent yet.
      have hlinked := hsame ⟨g.hostName, g.readPort, g.isBackEnd, none⟩
      rw [hrecord₁, Records.create, Function.update_self, Function.update_of_ne hne, hx] at hlinked
      cases hlinked rfl (Option.some_ne_none x)
    · rw [hrecord, hrecord₁, create_move hne hx hinner]
      rfl

/-- What is to be read is new, and the node that it is attached to is no back-end. -/
structure Attachable (s : NetworkTopology) (inode : Ptr) (ri : Rank) (xs : List (Rank × Record)) :
    Prop where
  links : Links s
  found : s.findNode ri = some inode
  inner : ∃ x, s.record ri = some x ∧ x.isBackEnd = false
  fresh : ∀ r ∈ xs.map Prod.fst, s.findNode r = none
  nodup : (xs.map Prod.fst).Nodup

/-- After the first records the others can still be attached. -/
lemma Attachable.after {inode : Ptr} {ri : Rank} {xs ys : List (Rank × Record)}
    (h : Attachable s inode ri (xs ++ ys)) (hxs : Attached s s' xs) :
    Attachable s' inode ri ys := by
  have hfresh := h.fresh
  have hnodup := h.nodup
  rw [List.map_append] at hfresh hnodup
  obtain ⟨-, hys, hdisjoint⟩ := List.nodup_append'.mp hnodup
  have hri : ri ∉ xs.map Prod.fst := by
    intro hmem
    have hnone := hfresh ri (List.mem_append_left _ hmem)
    rw [h.found] at hnone
    cases hnone
  obtain ⟨x, hx, hinner⟩ := h.inner
  refine ⟨hxs.links, hxs.found ri inode h.found, ⟨x, ?_, hinner⟩, fun r hr => ?_, hys⟩
  · rw [hxs.record_eq hri, hx]
  · rw [← record_eq_none_iff hxs.links, hxs.record_eq (fun hmem => hdisjoint hmem hr),
      record_eq_none_iff h.links]
    exact hfresh r (List.mem_append_right _ hr)

lemma Attachable.first {inode : Ptr} {ri : Rank} {xs ys : List (Rank × Record)}
    (h : Attachable s inode ri (xs ++ ys)) : Attachable s inode ri xs := by
  have hfresh := h.fresh
  have hnodup := h.nodup
  rw [List.map_append] at hfresh hnodup
  exact ⟨h.links, h.found, h.inner, fun r hr => hfresh r (List.mem_append_left _ hr),
    (List.nodup_append'.mp hnodup).1⟩

/-- The loop over the children of a node. -/
lemma addGraphs_text {gs : List Graph} {inode : Ptr} {ri : Rank}
    (hadd : ∀ g ∈ gs, ∀ {s}, Attachable s inode ri (readRecords g (some ri)) →
      ∃ s', s.addGraph inode g.text = .ok s' ∧ Attached s s' (readRecords g (some ri)))
    (h : Attachable s inode ri (gs.map fun g => readRecords g (some ri)).flatten) :
    ∃ s', (gs.map Graph.text).foldlM (fun s kid => s.addGraph inode kid) s = .ok s' ∧
      Attached s s' (gs.map fun g => readRecords g (some ri)).flatten := by
  induction gs generalizing s with
  | nil => exact ⟨s, rfl, .refl h.links⟩
  | cons g gs ih =>
      rw [List.map_cons, List.map_cons, List.flatten_cons]
      rw [List.map_cons, List.flatten_cons] at h
      obtain ⟨s₁, h₁, hfirst⟩ := hadd g List.mem_cons_self h.first
      obtain ⟨s', h', hrest⟩ := ih (fun c hc => hadd c (List.mem_cons_of_mem _ hc)) (h.after hfirst)
      refine ⟨s', ?_, hfirst.trans hrest⟩
      rw [List.foldlM_cons, h₁]
      exact h'

/-- The children of a node that was just entered. A back-end has none. -/
lemma addChildren_text {g : Graph} (hleaf : g.isBackEnd = true → g.children = [])
    (hadd : ∀ d ∈ g.children, ∀ {s c}, Attachable s c g.rank (readRecords d (some g.rank)) →
      ∃ s', s.addGraph c d.text = .ok s' ∧ Attached s s' (readRecords d (some g.rank)))
    (hlinks : Links s) {c : Ptr} (hc : s.findNode g.rank = some c) {parent : Option Rank}
    (hrecord : s.record g.rank = some ⟨g.hostName, g.readPort, g.isBackEnd, parent⟩)
    (hfresh : ∀ r ∈ (g.children.map fun d => readRecords d (some g.rank)).flatten.map Prod.fst,
      s.findNode r = none)
    (hnodup : ((g.children.map fun d => readRecords d (some g.rank)).flatten.map Prod.fst).Nodup) :
    ∃ s', (g.children.map Graph.text).foldlM (fun s kid => s.addGraph c kid) s = .ok s' ∧
      Attached s s' (g.children.map fun d => readRecords d (some g.rank)).flatten := by
  cases hflag : g.isBackEnd with
  | true =>
      rw [hleaf hflag]
      exact ⟨s, rfl, .refl hlinks⟩
  | false =>
      apply addGraphs_text fun d hd {_} hs => hadd d hd hs
      exact ⟨hlinks, hc, ⟨_, hrecord, hflag⟩, hfresh, hnodup⟩

/-- Attaching the text of a graph enters its records. -/
theorem addGraph_text {g : Graph} (hg : AllSound g) {inode : Ptr} {ri : Rank}
    (h : Attachable s inode ri (readRecords g (some ri))) :
    ∃ s', s.addGraph inode g.text = .ok s' ∧ Attached s s' (readRecords g (some ri)) := by
  induction g generalizing s inode ri with
  | node g ih =>
      rw [readRecords_eq, ← List.singleton_append] at h
      obtain ⟨x, hx, hinner⟩ := h.inner
      have hfresh : s.findNode g.rank = none := h.fresh g.rank List.mem_cons_self
      obtain ⟨s₁, c, hroot, hc, hfirst⟩ :=
        addGraphRoot_text hg.root h.links h.found hx hinner hfresh
      have hafter := h.after hfirst
      have hrecord : s₁.record g.rank = some ⟨g.hostName, g.readPort, g.isBackEnd, some ri⟩ := by
        rw [hfirst.record]
        exact register_of_mem (by simp) List.mem_cons_self
      obtain ⟨s', hs', hrest⟩ := addChildren_text hg.root.leaf
        (fun d hd {_ _} hs => ih d hd (hg.child hd) hs) hfirst.links hc hrecord hafter.fresh
        hafter.nodup
      refine ⟨s', ?_, ?_⟩
      · rw [addGraph_eq, hroot, ok_bind]
        dsimp only
        rw [Graph.getChildren_text hg.isLegible, ok_bind]
        exact hs'
      · rw [readRecords_eq, ← List.singleton_append]
        exact hfirst.trans hrest

/-- The name of the root may hold a closing bracket: nothing is read behind it but the
children. -/
structure SoundRoot (g : Graph) : Prop where
  noColon : ':' ∉ g.hostName
  noOpening : '[' ∉ g.hostName
  leaf : g.isBackEnd = true → g.children = []
  children : ∀ c ∈ g.children, AllSound c

lemma AllSound.soundRoot {g : Graph} (h : AllSound g) : SoundRoot g :=
  ⟨h.root.legible.noColon, h.root.legible.noOpening, h.root.leaf, fun _ hc => h.child hc⟩

/-- A topology that is reset to the text of a graph says of the ranks what is read of the
graph. -/
theorem reset_read {g : Graph} (hg : SoundRoot g) (hlinks : Links s)
    (hnodup : ((readRecords g none).map Prod.fst).Nodup) :
    ∃ s', s.reset g.text = .ok s' ∧ Links s' ∧
      s'.record = register (fun _ => none) (readRecords g none) := by
  have hne : g.text ≠ [] := by
    rw [Graph.text_eq]
    exact List.cons_ne_nil _ _
  have hclear : Links s.clear := links_of_heap_empty (clear_heap hlinks) rfl rfl
  have hnone : s.clear.record = fun _ => none := by
    ext1 r
    rfl
  have hfresh : s.clear.findNode g.rank = none := rfl
  let s₁ : NetworkTopology := {
    s.clear.newObject (Node.create g.hostName g.readPort g.rank g.isBackEnd) with
      root := some s.clear.nextPtr, nodes := s.clear.nodes.insert g.rank s.clear.nextPtr }
  have hroot : resetRoot s g.text = .ok (s₁, s.clear.nextPtr) := by
    unfold resetRoot
    rw [Graph.getRootHostName_text hg.noColon, Graph.getRootPort_read hg.noColon,
      Graph.getRootRank_text hg.noColon, Graph.isRootBackEnd_text hg.noColon]
    rfl
  have hcreated : Created s.clear s₁ g.rank :=
    created_of_newObject hclear _ _ _ _ rfl rfl rfl rfl
  have hlinks₁ : Links s₁ := hclear.created hfresh hcreated
  have hrecord : s₁.record = register (fun _ => none)
      [(g.rank, ⟨g.hostName, g.readPort, g.isBackEnd, none⟩)] := by
    rw [record_created hclear hcreated rfl, hnone]
    rfl
  have hfound : s₁.findNode g.rank = some s.clear.nextPtr := Finmap.lookup_insert _
  rw [readRecords_eq, List.map_cons] at hnodup
  obtain ⟨hnot, hnodup⟩ := List.nodup_cons.mp hnodup
  have hown : s₁.record g.rank = some ⟨g.hostName, g.readPort, g.isBackEnd, none⟩ := by
    rw [hrecord]
    exact register_of_mem (by simp) List.mem_cons_self
  obtain ⟨s', hs', hattached⟩ := addChildren_text hg.leaf
    (fun d hd {_ _} hs => addGraph_text (hg.children _ hd) hs) hlinks₁ hfound hown
    (fun r hr => by
      have hne : r ≠ g.rank := fun heq => hnot (heq ▸ hr)
      exact Finmap.lookup_insert_of_ne _ hne) hnodup
  refine ⟨s', ?_, hattached.links, ?_⟩
  · rw [reset_eq s hne, hroot, ok_bind]
    dsimp only
    rw [Graph.getChildren_root hg.noOpening fun c hc => (hg.children c hc).isLegible, ok_bind]
    exact hs'
  · rw [hattached.record, hrecord, ← register_append, List.singleton_append, ← readRecords_eq]

/-- A topology that is reset to the text of a graph says of the ranks what the graph does. -/
theorem reset_text {g : Graph} (hg : AllReadable g) (hlinks : Links s)
    (hnodup : ((graphRecords g none).map Prod.fst).Nodup) :
    ∃ s', s.reset g.text = .ok s' ∧ Links s' ∧
      s'.record = register (fun _ => none) (graphRecords g none) := by
  rw [← readRecords_of_readable hg] at hnodup ⊢
  exact reset_read hg.allSound.soundRoot hlinks hnodup

/-- No node but the root is without a parent, the host names can be told from what is around
them, and back-ends are leaves. -/
structure Writable (t : NetworkTopology) (root : Ptr) : Prop extends Tree t root where
  connected : ∀ p, t.Live p → p ≠ root → (t.parentOf p).isSome
  legible : ∀ p hostName port, t.placeOf p = some (hostName, port) →
    Legible hostName ∧ hostName ≠ []
  leaves : ∀ p, t.flagOf p = some true → t.childrenOf p = []

/-- The graph says of the nodes below `p` what the topology does. -/
structure Describes (t : NetworkTopology) (p : Ptr) (g : Graph) : Prop where
  readable : AllReadable g
  records : ∃ ptrs : List Ptr, ptrs.Nodup ∧ (∀ q, q ∈ ptrs ↔ Below t.parentOf q p) ∧
    List.Forall₂ (fun q x => t.rankOf q = some x.1 ∧ t.recordOf q = some x.2) ptrs
      (graphRecords g ((t.parentOf p).bind t.rankOf))

lemma exists_graphs {cs : List Ptr} {parts : List Text}
    (h : List.Forall₂ (fun c part => ∃ g : Graph, part = g.text ∧ Describes t c g) cs parts) :
    ∃ gs : List Graph, parts = gs.map Graph.text ∧ List.Forall₂ (Describes t) cs gs := by
  induction h with
  | nil => exact ⟨[], rfl, .nil⟩
  | cons hpart _ ih =>
      obtain ⟨g, rfl, hg⟩ := hpart
      obtain ⟨gs, rfl, hgs⟩ := ih
      exact ⟨g :: gs, rfl, .cons hg hgs⟩

/-- The records of the children are those of the nodes below them. -/
lemma children_records {q : Ptr} {r : Rank} (hr : t.rankOf q = some r) {cs : List Ptr}
    {gs : List Graph} (hlinks : ∀ c ∈ cs, Link t.parentOf c q)
    (h : List.Forall₂ (Describes t) cs gs) :
    ∃ parts : List (List Ptr),
      List.Forall₂ (fun c part => part.Nodup ∧ ∀ a, a ∈ part ↔ Below t.parentOf a c) cs parts ∧
      List.Forall₂ (fun q x => t.rankOf q = some x.1 ∧ t.recordOf q = some x.2) parts.flatten
        (gs.map fun g => graphRecords g (some r)).flatten := by
  induction h with
  | nil => exact ⟨[], .nil, .nil⟩
  | @cons c g cs gs hg _ ih =>
      obtain ⟨ptrs, hnodup, hmem, hrecords⟩ := hg.records
      obtain ⟨parts, hparts, hrest⟩ := ih fun d hd => hlinks d (List.mem_cons_of_mem _ hd)
      have hparent : (t.parentOf c).bind t.rankOf = some r := by
        rw [hlinks c List.mem_cons_self]
        exact hr
      rw [hparent] at hrecords
      refine ⟨ptrs :: parts, .cons ⟨hnodup, hmem⟩ hparts, ?_⟩
      rw [List.flatten_cons, List.map_cons, List.flatten_cons]
      exact List.rel_append hrecords hrest

lemma Writable.describes {root : Ptr} (h : Writable t root) {q : Ptr} {node : Node}
    (hnode : t.deref q = .ok node) {gs : List Graph}
    (hgs : List.Forall₂ (Describes t) node.children gs) :
    Describes t q ⟨node.hostName, node.port, node.rank, node.isBackEnd, gs⟩ := by
  have hlookup := deref_ok_iff.mp hnode
  have hrank : t.rankOf q = some node.rank := view_of_lookup Node.rank hlookup
  have hlink : ∀ c ∈ node.children, Link t.parentOf c q := fun c hc =>
    (mem_childrenOf_iff h.links hnode c).mp hc
  constructor
  · intro s hs
    rw [Graph.subgraphs_eq] at hs
    rcases List.mem_cons.mp hs with rfl | hmem
    · obtain ⟨hlegible, hnamed⟩ := h.legible q node.hostName node.port
        (view_of_lookup (fun node => (node.hostName, node.port)) hlookup)
      refine ⟨hlegible, hnamed, fun hflag => ?_⟩
      have hleaf : node.children = [] := by
        rw [← childrenOf_eq_of_deref hnode]
        apply h.leaves
        rw [← hflag]
        exact view_of_lookup Node.isBackEnd hlookup
      rw [hleaf] at hgs
      cases hgs
      rfl
    · obtain ⟨part, hpart, hs⟩ := List.mem_flatten.mp hmem
      obtain ⟨g, hg, rfl⟩ := List.mem_map.mp hpart
      obtain ⟨c, -, hdescribes⟩ := forall₂_exists_of_mem hgs.flip hg
      exact hdescribes.readable s hs
  · obtain ⟨parts, hparts, hrecords⟩ := children_records hrank hlink hgs
    have hbelow : ∀ a, a ∈ parts.flatten ↔ TransGen (Link t.parentOf) a q := by
      intro a
      rw [List.mem_flatten, TransGen.tail'_iff]
      constructor
      · rintro ⟨part, hpart, ha⟩
        obtain ⟨c, hc, -, hmem⟩ := forall₂_exists_of_mem hparts.flip hpart
        exact ⟨c, (hmem a).mp ha, hlink c hc⟩
      · rintro ⟨c, hac, hc⟩
        obtain ⟨part, hpart, -, hmem⟩ := forall₂_exists_of_mem hparts
          ((mem_childrenOf_iff h.links hnode c).mpr hc)
        exact ⟨part, hpart, (hmem a).mpr hac⟩
    refine ⟨q :: parts.flatten, List.nodup_cons.mpr ⟨fun hmem => ?_, ?_⟩, fun a => ?_, ?_⟩
    · exact (h.rooted q).not_circular ((hbelow q).mp hmem)
    · have hnodup := h.childSets q
      rw [childrenOf_eq_of_deref hnode] at hnodup
      apply adopters_nodup hnodup fun c hc => ⟨hlink c hc, (h.rooted c).not_circular⟩
      exact hparts.imp fun c part hpart => ⟨hpart.1, fun a ha => (hpart.2 a).mp ha⟩
    · rw [List.mem_cons, hbelow, Below, reflTransGen_iff_eq_or_transGen, eq_comm]
    · rw [graphRecords_eq]
      refine .cons ⟨hrank, ?_⟩ hrecords
      rw [recordOf, hlookup, Option.map_some, parentOf_of_deref hnode]

theorem serialize_text {root : Ptr} (h : Writable t root) {p : Ptr} (hp : t.Live p)
    (graph : Text) : ∃ g : Graph, t.serialize t.levels p graph = .ok (graph ++ g.text) ∧
      Describes t p g := by
  revert graph
  apply levels_induction h.links hp ((wellFounded_of_rooted h.rooted).apply p)
    (P := fun n p => ∀ graph, ∃ g : Graph, t.serialize n p graph = .ok (graph ++ g.text) ∧
      Describes t p g)
  intro n q node hnode hchildren graph
  obtain ⟨parts, hloop, hparts⟩ := foldlM_appends
    (P := fun c part => ∃ g : Graph, part = g.text ∧ Describes t c g)
    (f := fun graph child => t.serialize n child graph)
    (fun c hc graph => by
      obtain ⟨g, hserialize, hg⟩ := hchildren c hc graph
      exact ⟨g.text, hserialize, g, rfl, hg⟩)
    (SerialGraph.addSubTreeRoot graph node.hostName node.port node.rank)
  obtain ⟨gs, rfl, hgs⟩ := exists_graphs hparts
  refine ⟨_, ?_, h.describes hnode hgs⟩
  rw [NetworkTopology.serialize, hnode, ok_bind]
  split_ifs with hflag
  · have hleaf : node.children = [] := by
      rw [← childrenOf_eq_of_deref hnode]
      apply h.leaves
      rw [← hflag]
      exact view_of_lookup Node.isBackEnd (deref_ok_iff.mp hnode)
    rw [hleaf] at hgs
    cases hgs
    simp [SerialGraph.addLeaf, SerialGraph.nodeText, Graph.text_eq, Graph.body, Graph.label, hflag,
      pure, Except.pure]
  · dsimp only
    rw [hloop, ok_bind]
    simp [SerialGraph.endSubTree, SerialGraph.addSubTreeRoot, SerialGraph.nodeText, Graph.text_eq,
      Graph.body, Graph.label, hflag, pure, Except.pure]

lemma Writable.all_below {root : Ptr} (h : Writable t root) {p : Ptr} (hp : t.Live p) :
    Below t.parentOf p root := by
  induction h.rooted p with
  | @root p hnone =>
      by_cases heq : p = root
      · exact heq ▸ ReflTransGen.refl
      · have hsome := h.connected p hp heq
        rw [hnone] at hsome
        cases hsome
  | @link p q hlink _ ih => exact ReflTransGen.head hlink (ih (h.links.parent_live hlink))

/-- The records of the graph are those of the topology. -/
lemma Writable.register_eq {root : Ptr} (h : Writable t root) {g : Graph}
    (hg : Describes t root g) :
    ((graphRecords g none).map Prod.fst).Nodup ∧
      register (fun _ => none) (graphRecords g none) = t.record := by
  obtain ⟨ptrs, hnodup, hmem, hrecords⟩ := hg.records
  rw [h.parentless] at hrecords
  change List.Forall₂ _ ptrs (graphRecords g none) at hrecords
  have hranks : ((graphRecords g none).map Prod.fst).Nodup := by
    have hmap : ptrs.map t.rankOf = ((graphRecords g none).map Prod.fst).map some := by
      rw [← List.forall₂_eq_eq_eq, List.forall₂_map_left_iff, List.forall₂_map_right_iff,
        List.forall₂_map_right_iff]
      exact hrecords.imp fun q x hx => hx.1
    have hsome : (((graphRecords g none).map Prod.fst).map some).Nodup := by
      rw [← hmap]
      apply hnodup.map_on
      intro q hq q' hq' heq
      obtain ⟨x, -, hrank, -⟩ := forall₂_exists_of_mem hrecords hq
      have hfound := (h.links.keyed x.1 q).mpr hrank
      rw [(h.links.keyed x.1 q').mpr (heq ▸ hrank)] at hfound
      exact (Option.some_inj.mp hfound).symm
    exact hsome.of_map
  refine ⟨hranks, ?_⟩
  ext1 r
  cases hr : t.findNode r with
  | none =>
      have hnot : r ∉ (graphRecords g none).map Prod.fst := by
        intro hmem
        obtain ⟨x, hx, rfl⟩ := List.mem_map.mp hmem
        obtain ⟨q, -, hrank, -⟩ := forall₂_exists_of_mem hrecords.flip hx
        rw [findNode, (h.links.keyed x.1 q).mpr hrank] at hr
        cases hr
      rw [register_of_not_mem hnot, (record_eq_none_iff h.links r).mpr hr]
  | some q =>
      obtain ⟨hlive, hrank⟩ := h.links.live_of_findNode hr
      obtain ⟨x, hx, hrank', hrecord⟩ :=
        forall₂_exists_of_mem hrecords ((hmem q).mpr (h.all_below hlive))
      cases hrank.symm.trans hrank'
      rw [record_of_found hr, hrecord]
      exact register_of_mem hranks hx

/-- A topology without orphans is read back from its text, by whatever topology is reset to
it. -/
theorem topologyString_round_trip {root : Ptr} (h : Writable t root) (hs : Links s) :
    ∃ topol s', t.getTopologyString = .ok topol ∧ s.reset topol = .ok s' ∧
      s'.record = t.record := by
  obtain ⟨g, hserialize, hg⟩ := serialize_text h h.live []
  obtain ⟨hnodup, hregister⟩ := h.register_eq hg
  obtain ⟨s', hreset, -, hrecord⟩ := reset_text hg.readable hs hnodup
  refine ⟨g.text, s', ?_, hreset, hrecord.trans hregister⟩
  rw [getTopologyString, h.isRoot]
  exact hserialize

/-- A root with one back-end, read into an empty topology. -/
theorem topologyString_round_trip_leaf : ∃ t topol s', Writable t 0 ∧
    t.record 1 = some ⟨['b'], 2, true, some 0⟩ ∧ t.getTopologyString = .ok topol ∧
    NetworkTopology.empty.reset topol = .ok s' ∧ s'.record = t.record := by
  have hkids : SerialGraph.getChildren leafText = .ok [] := rfl
  obtain ⟨t, hadd, hnodes, hroot, hparents, hplaces, hflag, hrecord⟩ : ∃ t,
      (NetworkTopology.create ['a'] 1 0 false).addSubGraph 0 leafText = .ok (t, true) ∧
        t.nodes = (Finmap.insert 0 0 ∅ : Finmap fun _ : Rank => Ptr).insert 1 1 ∧
        t.root = some 0 ∧ (t.parentOf 0 = none ∧ t.parentOf 1 = some 0) ∧
        (t.placeOf 0 = some (['a'], 1) ∧ t.placeOf 1 = some (['b'], 2)) ∧
        (t.flagOf 0 = some false ∧ t.childrenOf 1 = []) ∧
        t.record 1 = some ⟨['b'], 2, true, some 0⟩ := by
    simp only [addSubGraph, addGraph_childless _ _ hkids]
    exact ⟨_, rfl, rfl, rfl, ⟨rfl, rfl⟩, ⟨rfl, rfl⟩, ⟨rfl, rfl⟩, rfl⟩
  have hreach := (Reachable.create ['a'] 1 0 false).addSubGraph hadd
  have hled := led_childless .start hkids rfl rfl hadd
  have hascends := hled.ascends (.create ['a'] 1 0 false)
  have hlive : ∀ p, t.Live p → p = 0 ∨ p = 1 := by
    intro p hp
    obtain ⟨r, hr⟩ := Option.isSome_iff_exists.mp (live_iff_rankOf.mp hp)
    have hfound := (hreach.links.keyed r p).mpr hr
    rw [hnodes] at hfound
    by_cases h₁ : r = 1
    · rw [h₁, Finmap.lookup_insert] at hfound
      exact .inr (Option.some_inj.mp hfound).symm
    · rw [Finmap.lookup_insert_of_ne _ h₁] at hfound
      by_cases h₀ : r = 0
      · rw [h₀, Finmap.lookup_insert] at hfound
        exact .inl (Option.some_inj.mp hfound).symm
      · rw [Finmap.lookup_insert_of_ne _ h₀, Finmap.lookup_empty] at hfound
        cases hfound
  have hwritable : Writable t 0 := by
    refine ⟨⟨hreach.links, hreach.childSets, hascends.rooted, live_of_flagOf hflag.1, hparents.1,
      hroot⟩, fun p hp hne => ?_, fun p hostName port hplace => ?_, fun p hp => ?_⟩
    · rw [(hlive p hp).resolve_left hne, hparents.2]
      rfl
    · have hp : t.Live p := by
        rw [live_iff_view fun node => (node.hostName, node.port)]
        exact Option.isSome_iff_exists.mpr ⟨_, hplace⟩
      rcases hlive p hp with rfl | rfl
      · cases hplaces.1.symm.trans hplace
        exact ⟨⟨by decide, by decide, by decide⟩, by decide⟩
      · cases hplaces.2.symm.trans hplace
        exact ⟨⟨by decide, by decide, by decide⟩, by decide⟩
    · rcases hlive p (live_of_flagOf hp) with rfl | rfl
      · cases hflag.1.symm.trans hp
      · exact hflag.2
  obtain ⟨topol, s', hstring, hreset, hsame⟩ := topologyString_round_trip hwritable links_empty
  exact ⟨t, topol, s', hwritable, hrecord, hstring, hreset, hsame⟩

end MRNet.Topology
