import MRNet.Ascendants

/-!
# Adoption of an orphan

The nodes that may adopt an orphan are collected from the root down. The search passes
neither a back-end nor the parent of the orphan, so it never comes to the orphan itself, and
no way leads back from the orphan to a node that was found.
-/
namespace MRNet.Topology
open Codec Relation
open WaitForAll (Rank)
open Forest (Link Rooted Below)

namespace NetworkTopology

/-- The search stops at back-ends and at the parent of the orphan. -/
def findPotentialAdopters (t : NetworkTopology) (iorphan : Ptr) :
    ℕ → Ptr → List Ptr → Outcome (List Ptr)
  | 0, _, _ => .error (.fault .storePast)
  | levels + 1, ipotentialAdopter, opotentialAdopters => do
      let orphan ← t.deref iorphan
      let potentialAdopter ← t.deref ipotentialAdopter
      if orphan.parent = some ipotentialAdopter ∨ potentialAdopter.isBackEnd = true then
        return opotentialAdopters
      else
        potentialAdopter.children.foldlM
          (fun adopters child => findPotentialAdopters t iorphan levels child adopters)
          (opotentialAdopters ++ [ipotentialAdopter])

end NetworkTopology

open NetworkTopology

variable {t t' : NetworkTopology}

/-- The links are consistent and acyclic, and the root has no parent. -/
structure Tree (t : NetworkTopology) (root : Ptr) : Prop where
  links : Links t
  childSets : t.ChildSets
  rooted : ∀ p, Rooted t.parentOf p
  live : t.Live root
  parentless : t.parentOf root = none
  isRoot : t.root = some root

/-- A node below `p` that may adopt the orphan. If it is below the orphan then the search
began there. -/
structure Adopter (t : NetworkTopology) (orphan p a : Ptr) : Prop where
  below : Below t.parentOf a p
  inner : t.flagOf a = some false
  notParent : t.parentOf orphan ≠ some a
  outside : Below t.parentOf a orphan → Below t.parentOf p orphan

/-- An adopter that is found below a child. -/
lemma Adopter.up {orphan p c a : Ptr} (h : Adopter t orphan c a) (hc : Link t.parentOf c p)
    (hp : t.parentOf orphan ≠ some p) : Adopter t orphan p a := by
  refine ⟨h.below.tail hc, h.inner, h.notParent, fun hbelow => ?_⟩
  rcases ReflTransGen.cases_head (h.outside hbelow) with heq | ⟨b, hb, hrest⟩
  · exact absurd (heq ▸ hc) hp
  · rw [Forest.link_rightUnique _ hb hc] at hrest
    exact hrest

/-- The parts that are found below different children have no node in common. -/
lemma adopters_nodup {parent : Ptr → Option Ptr} {p : Ptr} {cs : List Ptr}
    {parts : List (List Ptr)} (hcs : cs.Nodup)
    (hlinks : ∀ c ∈ cs, Link parent c p ∧ ¬TransGen (Link parent) c c)
    (h : List.Forall₂ (fun c part => part.Nodup ∧ ∀ a ∈ part, Below parent a c) cs parts) :
    parts.flatten.Nodup := by
  induction h with
  | nil => exact List.nodup_nil
  | @cons c part cs parts hpart hparts ih =>
      obtain ⟨hnot, hcs⟩ := List.nodup_cons.mp hcs
      rw [List.flatten_cons, List.nodup_append']
      refine ⟨hpart.1, ih hcs fun d hd => hlinks d (List.mem_cons_of_mem _ hd), ?_⟩
      intro a ha hmem
      obtain ⟨part', hpart', ha'⟩ := List.mem_flatten.mp hmem
      obtain ⟨d, hd, -, hbelow⟩ := forall₂_exists_of_mem hparts.flip hpart'
      obtain ⟨hc, hcc⟩ := hlinks c List.mem_cons_self
      obtain ⟨hd', hdd⟩ := hlinks d (List.mem_cons_of_mem _ hd)
      have heq : c = d := Forest.child_unique hcc hdd hc hd' (hpart.2 a ha) (hbelow a ha')
      exact hnot (heq ▸ hd)

theorem findPotentialAdopters_spec (hlinks : Links t) (hsets : t.ChildSets)
    (hrooted : ∀ p, Rooted t.parentOf p) {orphan p : Ptr} (horphan : t.Live orphan)
    (hp : t.Live p) (acc : List Ptr) :
    ∃ found, t.findPotentialAdopters orphan t.levels p acc = .ok (acc ++ found) ∧
      found.Nodup ∧ ∀ a ∈ found, Adopter t orphan p a := by
  revert acc
  apply levels_induction hlinks hp ((wellFounded_of_rooted hrooted).apply p)
    (P := fun n p => ∀ acc, ∃ found,
      t.findPotentialAdopters orphan n p acc = .ok (acc ++ found) ∧ found.Nodup ∧
        ∀ a ∈ found, Adopter t orphan p a)
  intro n q node hnode hchildren acc
  obtain ⟨orphanNode, horphanNode⟩ := deref_of_live horphan
  have hparent : t.parentOf orphan = orphanNode.parent := parentOf_of_deref horphanNode
  rw [NetworkTopology.findPotentialAdopters, horphanNode, ok_bind, hnode, ok_bind]
  split_ifs with hstop
  · exact ⟨[], by rw [List.append_nil]; rfl, List.nodup_nil, fun a ha => by cases ha⟩
  · obtain ⟨hnotParent, hinner⟩ := not_or.mp hstop
    rw [← hparent] at hnotParent
    have hlink : ∀ c ∈ node.children, Link t.parentOf c q := fun c hc =>
      (mem_childrenOf_iff hlinks hnode c).mp hc
    obtain ⟨parts, hloop, hparts⟩ := foldlM_appends hchildren (acc ++ [q])
    have hflag : t.flagOf q = some false := by
      rw [flagOf, view_of_lookup _ (deref_ok_iff.mp hnode)]
      simpa using hinner
    have hbelow : ∀ a ∈ parts.flatten, ∃ c, Link t.parentOf c q ∧ Adopter t orphan c a := by
      intro a ha
      obtain ⟨part, hpart, ha⟩ := List.mem_flatten.mp ha
      obtain ⟨c, hc, -, hfound⟩ := forall₂_exists_of_mem hparts.flip hpart
      exact ⟨c, hlink c hc, hfound a ha⟩
    refine ⟨q :: parts.flatten, ?_, ?_, fun a ha => ?_⟩
    · rw [hloop, List.append_assoc]
      rfl
    · refine List.nodup_cons.mpr ⟨fun hmem => ?_, ?_⟩
      · obtain ⟨c, hc, hfound⟩ := hbelow q hmem
        exact (hrooted q).not_circular (TransGen.tail' hfound.below hc)
      · have hnodup := hsets q
        rw [childrenOf_eq_of_deref hnode] at hnodup
        apply adopters_nodup hnodup fun c hc => ⟨hlink c hc, (hrooted c).not_circular⟩
        exact hparts.imp fun c part hpart => ⟨hpart.1, fun a ha => (hpart.2 a ha).below⟩
    · rcases List.mem_cons.mp ha with rfl | hmem
      · exact ⟨.refl, hflag, hnotParent, id⟩
      · obtain ⟨c, hc, hfound⟩ := hbelow a hmem
        exact hfound.up hc hnotParent

/-- What is promised of a node that an orphan may be given to. -/
structure Eligible (t : NetworkTopology) (orphan a : Ptr) : Prop where
  inner : t.flagOf a = some false
  outside : ¬Below t.parentOf a orphan
  notParent : t.parentOf orphan ≠ some a

/-- Linking an orphan to an eligible node makes no circle. -/
lemma Eligible.setParent {orphan a : Ptr} (h : Eligible t orphan a) (hlinks : Links t)
    (hrooted : ∀ p, Rooted t.parentOf p) {rc rp : Rank} (hrc : t.rankOf orphan = some rc)
    (hrp : t.rankOf a = some rp) :
    ∃ t', t.setParent rc rp = .ok (t', .moved) ∧ t'.parentOf orphan = some a ∧
      ∀ p, Rooted t'.parentOf p := by
  have hc : t.findNode rc = some orphan := (hlinks.keyed rc orphan).mpr hrc
  have hp : t.findNode rp = some a := (hlinks.keyed rp a).mpr hrp
  obtain ⟨t', res, hset⟩ := setParent_total hlinks rc rp
  rcases setParent_spec hlinks hset with ⟨-, -, hsame⟩ | ⟨rfl, c, q, hc', hq, -, hmoved⟩
  · exact absurd (hsame orphan a hc hp) h.notParent
  · cases hc.symm.trans hc'
    cases hp.symm.trans hq
    refine ⟨t', hset, ?_, fun p => ?_⟩
    · rw [hmoved.parentOf, Function.update_self]
    · rw [hmoved.parentOf]
      exact (hrooted a).move h.outside (hrooted p)

/-- The search from the root returns different nodes that are no back-ends, outside the
subtree of the orphan and not its parent, and each of them may become its parent. -/
theorem adoption_safe {root orphan : Ptr} (h : Tree t root) (horphan : t.Live orphan)
    (hne : orphan ≠ root) :
    ∃ adopters, t.findPotentialAdopters orphan t.levels root [] = .ok adopters ∧
      adopters.Nodup ∧ (∀ a ∈ adopters, Eligible t orphan a) ∧
      ∀ a ∈ adopters, ∀ rc rp, t.rankOf orphan = some rc → t.rankOf a = some rp →
        ∃ t', t.setParent rc rp = .ok (t', .moved) ∧ t'.parentOf orphan = some a ∧
          ∀ p, Rooted t'.parentOf p := by
  obtain ⟨adopters, hfound, hnodup, hadopters⟩ :=
    findPotentialAdopters_spec h.links h.childSets h.rooted horphan h.live []
  have heligible : ∀ a ∈ adopters, Eligible t orphan a := by
    intro a ha
    have hadopter := hadopters a ha
    refine ⟨hadopter.inner, fun hbelow => ?_, hadopter.notParent⟩
    -- Nothing is above the root.
    rcases ReflTransGen.cases_head (hadopter.outside hbelow) with heq | ⟨b, hb, -⟩
    · exact hne heq.symm
    · rw [Link, h.parentless] at hb
      cases hb
  refine ⟨adopters, hfound, hnodup, heligible, fun a ha rc rp hrc hrp => ?_⟩
  exact (heligible a ha).setParent h.links h.rooted hrc hrp

/-- The child of a node below the root may be given to the root. -/
theorem adoption_safe_grandchild : ∃ t, Tree t 0 ∧ t.parentOf 2 = some 1 ∧
    t.findPotentialAdopters 2 t.levels 0 [] = .ok [0] ∧
    ∃ t', t.setParent 2 0 = .ok (t', .moved) ∧ ∀ p, Rooted t'.parentOf p := by
  have hkids₁ : SerialGraph.getChildren (childlessText 1) = .ok [] := rfl
  have hkids₂ : SerialGraph.getChildren (childlessText 2) = .ok [] := rfl
  obtain ⟨t₁, hadd₁, hfresh, t, hadd₂, hroot, hparentless, hparent, hrank, hfound⟩ : ∃ t₁,
      (NetworkTopology.create ['a'] 1 0 false).addSubGraph 0 (childlessText 1) = .ok (t₁, true) ∧
        t₁.findNode 2 = none ∧ ∃ t, t₁.addSubGraph 1 (childlessText 2) = .ok (t, true) ∧
          t.root = some 0 ∧ t.parentOf 0 = none ∧ t.parentOf 2 = some 1 ∧
          (t.rankOf 0 = some 0 ∧ t.rankOf 2 = some 2) ∧
          t.findPotentialAdopters 2 t.levels 0 [] = .ok [0] := by
    simp only [addSubGraph, addGraph_childless _ _ hkids₁, addGraph_childless _ _ hkids₂]
    exact ⟨_, rfl, rfl, _, rfl, rfl, rfl, rfl, ⟨rfl, rfl⟩, rfl⟩
  have hreach := ((Reachable.create ['a'] 1 0 false).addSubGraph hadd₁).addSubGraph hadd₂
  have hled := led_childless (led_childless .start hkids₁ rfl rfl hadd₁) hkids₂ rfl hfresh hadd₂
  have hascends := hled.ascends (.create ['a'] 1 0 false)
  have htree : Tree t 0 := ⟨hreach.links, hreach.childSets, hascends.rooted,
    live_iff_rankOf.mpr (by rw [hrank.1]; rfl), hparentless, hroot⟩
  obtain ⟨adopters, hfound', -, -, hsafe⟩ :=
    adoption_safe htree (live_iff_rankOf.mpr (by rw [hrank.2]; rfl)) (by decide)
  cases hfound.symm.trans hfound'
  obtain ⟨t', hset, -, hrooted⟩ := hsafe 0 List.mem_cons_self 2 0 hrank.2 hrank.1
  exact ⟨t, htree, hparent, hfound, t', hset, hrooted⟩

end MRNet.Topology
