import MRNet.BalancedShape

/-!
# What is built of a specification

The places are known from the host lists and the sizes of the levels. With them, the runs of
the constructors are known: no tree, an index out of range, or a tree with the edges between
the levels. The tree is as specified if the nodes have names of their own.
-/
namespace MRNet.TopologyFile
open Codec DepthFirst
open Wire (Run Returns)
open SerialGraph (Text)
open Std (TreeMap)

namespace HostLists

def internal : HostLists → HostList
  | single hosts _ => hosts
  | separate _ internal _ _ => internal

/-- The hosts for the leaves, when the places above are taken. -/
def leafHosts : HostLists → HostList → HostList
  | single _ _, left => left
  | separate backend _ _ _, _ => backend

def limits : HostLists → Limits
  | single _ maxProcs => ⟨maxProcs, maxProcs⟩
  | separate _ _ beProcs intProcs => ⟨intProcs, beProcs⟩

/-- The lists are too short at first sight. -/
def Lacking (fanouts : List (BitVec 32)) : HostLists → Prop
  | single hosts _ => hosts = []
  | separate backend internal _ _ => internal = [] ∧ (backend = [] ∨ fanouts.length > 1)

variable (lists : HostLists) (feHost : Text) (fanouts : List (BitVec 32))

/-- How many places there are above the leaves. -/
def innerCount : ℕ := BalancedTree.total (BalancedTree.levelSizes 1 fanouts).dropLast

def leafCount : ℕ := ((BalancedTree.levelSizes 1 fanouts).getLast?.getD 1).toNat

def start : Slots := ⟨lists.internal, .start feHost⟩

/-- The slots offered to the levels above the leaves. -/
def innerSlots : List Host := (lists.start feHost).offered lists.limits.internal

/-- The slots then offered to the leaves. -/
def leafSlots : List Host :=
  let s := (lists.start feHost).skip lists.limits.internal (innerCount fanouts)
  ({ s with hosts := lists.leafHosts s.hosts } : Slots).offered lists.limits.backend

/-- There are not enough hosts for the levels. -/
def Shortage : Prop :=
  fanouts ≠ [] ∧ (lists.Lacking fanouts ∨ (lists.innerSlots feHost).length < innerCount fanouts ∨
    (lists.leafSlots feHost fanouts).length < leafCount fanouts)

/-- The levels below the root. -/
def places : List (List Host) :=
  BalancedTree.deal (BalancedTree.levelSizes 1 fanouts).dropLast (lists.innerSlots feHost) ++
    [(lists.leafSlots feHost fanouts).take (leafCount fanouts)]

/-- The names on all levels. -/
def levels (hostNameMax : ℕ) : List (List Name) :=
  BalancedTree.levelNames hostNameMax ([(feHost, 0)] :: lists.places feHost fanouts)

end HostLists

namespace BalancedTree

variable {address : Name → ℕ} {hostNameMax : ℕ} {fe : FrontEnd hostNameMax} {spec feHost : Text}
  {fanouts : List (BitVec 32)} {lists : HostLists} {fuel : ℕ}

lemma place_eq (lists : HostLists) (feHost : Text) (fanouts : List (BitVec 32)) :
    place lists.limits (lists.start feHost) lists.leafHosts (levelSizes 1 fanouts) =
      if (lists.innerSlots feHost).length < HostLists.innerCount fanouts ∨
          (lists.leafSlots feHost fanouts).length < HostLists.leafCount fanouts then none
      else some (lists.places feHost fanouts) := by
  have hinner : placeLevels lists.limits.internal (levelSizes 1 fanouts).dropLast
      (lists.start feHost) = if HostLists.innerCount fanouts ≤ (lists.innerSlots feHost).length then
        some (deal (levelSizes 1 fanouts).dropLast (lists.innerSlots feHost),
          (lists.start feHost).skip lists.limits.internal (HostLists.innerCount fanouts))
      else none := placeLevels_eq ..
  have hleaves := placeAll_eq lists.limits.backend (HostLists.leafCount fanouts)
    { (lists.start feHost).skip lists.limits.internal (HostLists.innerCount fanouts) with
      hosts := lists.leafHosts
        ((lists.start feHost).skip lists.limits.internal (HostLists.innerCount fanouts)).hosts }
  change _ = if HostLists.leafCount fanouts ≤ (lists.leafSlots feHost fanouts).length then
    some ((lists.leafSlots feHost fanouts).take (HostLists.leafCount fanouts), _) else none at hleaves
  rw [place, hinner]
  split_ifs with hfit hshort hshort
  · simp only [Option.bind_eq_bind, Option.bind_some]
    rw [← HostLists.leafCount, hleaves, if_neg (by omega)]
    rfl
  · simp only [Option.bind_eq_bind, Option.bind_some]
    rw [← HostLists.leafCount, hleaves, if_pos (by omega)]
    rfl
  · rfl
  · omega

lemma create_lacking (hspec : parseSpec spec = some fanouts) (hne : fanouts ≠ [])
    (hlacking : lists.Lacking fanouts) : create address fe spec lists fuel = pure none := by
  simp only [create, hspec]
  cases lists with
  | single hosts maxProcs => exact if_pos ⟨hlacking, hne⟩
  | separate backend internal beProcs intProcs =>
      obtain ⟨hinternal, hbackend | hlength⟩ := hlacking
      · exact if_pos ⟨hinternal, hbackend, hne⟩
      · simp only [initializeTree₂]
        split_ifs with hnone hone
        · rfl
        · rfl
        · exact absurd ⟨hinternal, hlength⟩ hone

lemma create_build (hspec : parseSpec spec = some fanouts)
    (henough : fanouts ≠ [] → ¬lists.Lacking fanouts) : create address fe spec lists fuel =
      build address fe lists.limits fanouts lists.internal lists.leafHosts fuel := by
  simp only [create, hspec]
  cases lists with
  | single hosts maxProcs => exact if_neg fun h => henough h.2 h.1
  | separate backend internal beProcs intProcs =>
      have hlength : fanouts.length > 1 → fanouts ≠ [] := by
        rintro hlength rfl
        cases hlength
      simp only [initializeTree₂]
      rw [if_neg fun h => henough h.2.2 ⟨h.1, .inl h.2.1⟩,
        if_neg fun h => henough (hlength h.2) ⟨h.1, .inr h.2⟩]
      rfl

lemma create_empty (hspec : parseSpec spec = some []) :
    create address fe spec lists fuel = throw (.fault .readPast) := by
  rw [create_build hspec fun h => absurd rfl h, build, if_pos rfl]

lemma create_shortage (hspec : parseSpec spec = some fanouts)
    (hshort : lists.Shortage fe.host fanouts) : create address fe spec lists fuel = pure none := by
  obtain ⟨hne, hshort⟩ := hshort
  by_cases hlacking : lists.Lacking fanouts
  · exact create_lacking hspec hne hlacking
  · have hplace := place_eq lists fe.host fanouts
    rw [if_pos (hshort.resolve_left hlacking), HostLists.start] at hplace
    rw [create_build hspec fun _ => hlacking, build, if_neg hne, hplace]

lemma create_connect (hspec : parseSpec spec = some fanouts) (hne : fanouts ≠ [])
    (henough : ¬lists.Shortage fe.host fanouts) : create address fe spec lists fuel =
      some <$> connect address fe fanouts (lists.places fe.host fanouts) fuel := by
  have hplace := place_eq lists fe.host fanouts
  rw [if_neg fun h => henough ⟨hne, .inr h⟩, HostLists.start] at hplace
  rw [create_build hspec fun _ hlacking => henough ⟨hne, .inl hlacking⟩, build, if_neg hne, hplace]

lemma deal_lengths {sizes : List (BitVec 32)} {slots : List Host}
    (h : total sizes ≤ slots.length) :
    (deal sizes slots).map List.length = sizes.map BitVec.toNat := by
  induction sizes generalizing slots with
  | nil => rfl
  | cons nodes sizes ih =>
      have htotal : total (nodes :: sizes) = nodes.toNat + total sizes := by simp [total]
      have hfirst : (slots.take nodes.toNat).length = nodes.toNat :=
        List.length_take_of_le (by omega)
      rw [deal, List.map_cons, List.map_cons, hfirst, ih (by rw [List.length_drop]; omega)]

lemma levels_counted (hne : fanouts ≠ []) (henough : ¬lists.Shortage feHost fanouts) :
    Counted 1 fanouts (lists.levels feHost fanouts hostNameMax) := by
  have hsizes : levelSizes 1 fanouts ≠ [] := by
    cases fanouts with
    | nil => exact absurd rfl hne
    | cons fanout fanouts => exact List.cons_ne_nil _ _
  simp only [HostLists.Shortage, not_and, not_or, not_lt] at henough
  obtain ⟨-, hinner, hleaf⟩ := henough hne
  have hleaves : HostLists.leafCount fanouts = ((levelSizes 1 fanouts).getLast hsizes).toNat := by
    rw [HostLists.leafCount, List.getLast?_eq_some_getLast hsizes, Option.getD_some]
  have hplaces : (lists.places feHost fanouts).map List.length =
      (levelSizes 1 fanouts).map BitVec.toNat := by
    rw [HostLists.places, List.map_append, deal_lengths hinner, List.map_singleton,
      List.length_take_of_le hleaf, hleaves]
    conv_rhs => rw [← List.dropLast_append_getLast hsizes]
    rw [List.map_append, List.map_singleton]
  have hlengths (levels : List (List Host)) :
      (levelNames hostNameMax levels).map List.length = levels.map List.length := by
    simp [levelNames]
  rw [Counted, HostLists.levels, hlengths, List.map_cons, hplaces]
  rfl

lemma levels_fanned (hne : fanouts ≠ []) (henough : ¬lists.Shortage feHost fanouts)
    (hsmall : Small 1 fanouts) : Fanned fanouts (lists.levels feHost fanouts hostNameMax) :=
  (levels_counted hne henough).fanned hsmall

lemma levels_head : (lists.levels fe.host fanouts hostNameMax).head? =
    some [written (fe.host, 0)] := by
  rw [← nodeName_root]
  rfl

/-- The nodes before they are connected. -/
def made (lists : HostLists) (fe : FrontEnd hostNameMax) (fanouts : List (BitVec 32)) : Tree :=
  (levelNames hostNameMax (lists.places fe.host fanouts)).flatten.foldl Tree.getNode
    (Tree.create fe)

lemma built_made : (made lists fe fanouts).Built
    (lists.levels fe.host fanouts hostNameMax).flatten [] := by
  have hbuilt := (Tree.built_create fe).getNodes
    (levelNames hostNameMax (lists.places fe.host fanouts)).flatten
  rwa [← nodeName_root] at hbuilt

lemma made_root : (made lists fe fanouts).root = written (fe.host, 0) := by
  rw [made, Tree.foldl_root Tree.getNode_root, Tree.create, Tree.getNode_root]

lemma connect_wraps (hne : fanouts ≠ []) (henough : ¬lists.Shortage fe.host fanouts)
    (hwrap : ¬Small 1 fanouts) (fuel : ℕ) :
    connect address fe fanouts (lists.places fe.host fanouts) fuel = throw (.fault .readPast) := by
  have hconnect : connectTree address fanouts (lists.levels fe.host fanouts hostNameMax)
      (made lists fe fanouts) = .error (.fault .readPast) :=
    (connectTree_eq (levels_counted hne henough) _).2 hwrap
  change (liftM (connectTree address fanouts (lists.levels fe.host fanouts hostNameMax)
    (made lists fe fanouts)) : Run Tree) >>= _ = _
  rw [hconnect]
  rfl

/-- The tree before it is validated. -/
def connected (address : Name → ℕ) (lists : HostLists) (fe : FrontEnd hostNameMax)
    (fanouts : List (BitVec 32)) : Tree :=
  (made lists fe fanouts).addEdges address
    (treeEdges fanouts (lists.levels fe.host fanouts hostNameMax))

lemma connect_small (hne : fanouts ≠ []) (henough : ¬lists.Shortage fe.host fanouts)
    (hsmall : Small 1 fanouts) (fuel : ℕ) :
    connect address fe fanouts (lists.places fe.host fanouts) fuel =
      match (connected address lists fe fanouts).validate fuel with
      | none => ExceptT.mk none
      | some (valid, t) => pure ⟨valid, t, [(fe.host, 0)] :: lists.places fe.host fanouts⟩ := by
  have hconnect : connectTree address fanouts (lists.levels fe.host fanouts hostNameMax)
      (made lists fe fanouts) = .ok (connected address lists fe fanouts) :=
    (connectTree_eq (levels_counted hne henough) _).1 hsmall
  change (liftM (connectTree address fanouts (lists.levels fe.host fanouts hostNameMax)
    (made lists fe fanouts)) : Run Tree) >>= _ = _
  rw [hconnect]
  change (liftM ((connected address lists fe fanouts).validate fuel) : Run _) >>= _ = _
  cases (connected address lists fe fanouts).validate fuel <;> rfl

/-- The verdict on the tree. -/
lemma validated (hne : fanouts ≠ []) (henough : ¬lists.Shortage fe.host fanouts)
    (hsmall : Small 1 fanouts) (address : Name → ℕ) :
    let levels := lists.levels fe.host fanouts hostNameMax
    ∃ valid t', (∀ fuel > (connected address lists fe fanouts).nodesByName.size,
        (connected address lists fe fanouts).validate fuel = some (valid, t')) ∧
      t'.root = written (fe.host, 0) ∧
      t'.Shape levels.flatten (treeEdges fanouts levels) ∧
      (valid = true ↔ Tree.Tidy (written (fe.host, 0)) (treeEdges fanouts levels) ∧
        levels.flatten.toFinset.card < 2 ^ 32) := by
  have hfanned : Fanned fanouts (lists.levels fe.host fanouts hostNameMax) :=
    levels_fanned hne henough hsmall
  have hhead : (lists.levels fe.host fanouts hostNameMax).head? = _ := levels_head
  have hends : ∀ e ∈ treeEdges fanouts (lists.levels fe.host fanouts hostNameMax),
      e.1 ∈ (lists.levels fe.host fanouts hostNameMax).flatten := fun e he => mem_treeEdges he
  have hbuilt : (connected address lists fe fanouts).Built _ _ :=
    built_made.addEdges address hends
  have hroot : (connected address lists fe fanouts).root = written (fe.host, 0) :=
    (Tree.addEdges_root address _ _).trans made_root
  rw [List.nil_append] at hbuilt
  have hgrown : Grown (written (fe.host, 0)) _ :=
    grown_treeEdges hfanned .nil (by simp [hhead])
  rw [List.nil_append] at hgrown
  rw [← hroot] at hgrown ⊢
  refine hbuilt.validated hgrown (fun k => ?_) hends
  rw [snd_treeEdges hfanned, hroot]
  cases hlevels : lists.levels fe.host fanouts hostNameMax with
  | nil => rw [hlevels] at hhead; cases hhead
  | cons first rest =>
      rw [hlevels] at hhead
      obtain rfl := Option.some.inj hhead
      simp

end BalancedTree

end MRNet.TopologyFile
