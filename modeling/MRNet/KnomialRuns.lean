import MRNet.KnomialShape

/-!
# Runs of the k-nomial generator

The slots of the lists decide how a run ends: it is refused, its rounds fail, it goes on
without end, or there is a tree.
-/
namespace MRNet.TopologyFile
open Codec DepthFirst
open Wire (Run Returns)
open SerialGraph (Text)

namespace KnomialTree

section Slots
variable (hostNameMax : ℕ) (feHost : Text)

/-- The names of the slots in which parents are found, the root's first. -/
def hostids : HostLists → List Name
  | .single hosts maxProcs => (slots feHost maxProcs hosts).map (nodeName hostNameMax)
  | .separate _ internal _ intProcs =>
      ((feHost, 0) :: (listSlots intProcs internal (.start feHost)).1).map (nodeName hostNameMax)

/-- The slots of the back-ends, if they are listed apart. -/
def backends : HostLists → Option (List Name)
  | .single _ _ => none
  | .separate backend internal beProcs intProcs =>
      some ((listSlots beProcs backend (listSlots intProcs internal (.start feHost)).2).1.map
        (nodeName hostNameMax))

/-- How many slots there are. -/
def offered (lists : HostLists) : ℕ :=
  (hostids hostNameMax feHost lists).length + ((backends hostNameMax feHost lists).getD []).length

end Slots

variable {address : Name → ℕ} {hostNameMax : ℕ} {fe : FrontEnd hostNameMax} {spec : Text}
  {k n : BitVec 32} {lists : HostLists} {fuel kids : ℕ}

/-- The tree before the rounds. -/
def rooted (fe : FrontEnd hostNameMax) : HostLists → Tree
  | .single _ _ =>
      { (Tree.create fe).getNode (nodeName hostNameMax (fe.host, 0)) with
        root := nodeName hostNameMax (fe.host, 0) }
  | .separate _ _ _ _ => Tree.create fe

lemma rooted_root (fe : FrontEnd hostNameMax) (lists : HostLists) :
    (rooted fe lists).root = written (fe.host, 0) := by
  cases lists with
  | single hosts maxProcs => exact nodeName_root fe
  | separate backend internal beProcs intProcs => exact Tree.getNode_root _ _

lemma rooted_built (fe : FrontEnd hostNameMax) (lists : HostLists) :
    (rooted fe lists).Built [written (fe.host, 0)] [] := by
  cases lists with
  | single hosts maxProcs =>
      have hbuilt := (Tree.built_create fe).getNode (nodeName hostNameMax (fe.host, 0))
      rw [nodeName_root] at hbuilt
      have hsame : Tree.Built _ [written (fe.host, 0)] [] :=
        Built.congr hbuilt (by simp) fun _ => Iff.rfl
      rw [rooted, nodeName_root]
      exact ⟨⟨hsame.mem_iff, hsame.children_iff, hsame.nodup, hsame.name_eq⟩, hsame.unvisited⟩
  | separate backend internal beProcs intProcs => exact Tree.built_create fe

/-- What follows the rounds. -/
def conclude (address : Name → ℕ) (fe : FrontEnd hostNameMax) (n : BitVec 32) (lists : HostLists)
    (fuel : ℕ) : Growth → Run KnomialRun
  | .missing placed => return .missing placed
  | .grown rounds placed =>
      if (backends hostNameMax fe.host lists).isSome = true ∧ placed < n.toNat then
        return .missing placed
      else finish address n (rooted fe lists) rounds fuel

lemma create_few (hspec : parseSpec spec = some (k, n))
    (hfew : offered hostNameMax fe.host lists < n.toNat) :
    create address fe spec lists fuel = pure (some (.missing 0)) := by
  simp only [create, hspec]
  cases lists with
  | single hosts maxProcs =>
      simp only [offered, hostids, backends, Option.getD_none, List.length_nil,
        Nat.add_zero] at hfew
      simp only [initializeTree, if_pos hfew]
      rfl
  | separate backend internal beProcs intProcs =>
      simp only [offered, hostids, backends, Option.getD_some] at hfew
      simp only [initializeTree₂, if_pos hfew]
      rfl

lemma create_enough (hspec : parseSpec spec = some (k, n))
    (henough : n.toNat ≤ offered hostNameMax fe.host lists) :
    create address fe spec lists fuel = some <$> (growAll (hostids hostNameMax fe.host lists)
      (backends hostNameMax fe.host lists) k n.toNat fuel >>= conclude address fe n lists fuel) := by
  have hnot := not_lt.mpr henough
  simp only [create, hspec]
  cases lists with
  | single hosts maxProcs =>
      simp only [offered, hostids, backends, Option.getD_none, List.length_nil,
        Nat.add_zero] at hnot
      simp only [initializeTree, if_neg hnot]
      congr 1
  | separate backend internal beProcs intProcs =>
      simp only [offered, hostids, backends, Option.getD_some] at hnot
      simp only [initializeTree₂, if_neg hnot]
      congr 1
      refine congrArg₂ _ rfl (funext fun g => ?_)
      cases g with
      | missing placed => rfl
      | grown rounds placed =>
          simp only [conclude, backends, Option.isSome_some, true_and]
          rfl

lemma create_returns {g : Growth} {r : KnomialRun} (hspec : parseSpec spec = some (k, n))
    (henough : n.toNat ≤ offered hostNameMax fe.host lists)
    (hgrow : Returns (growAll (hostids hostNameMax fe.host lists)
      (backends hostNameMax fe.host lists) k n.toNat) g)
    (hconclude : Returns (fun fuel => conclude address fe n lists fuel g) r) :
    Returns (create address fe spec lists) (some r) := by
  obtain ⟨bound, hbound⟩ := hgrow.bind hconclude
  refine ⟨bound, fun fuel hfuel => ?_⟩
  have hrun := hbound fuel hfuel
  dsimp only at hrun
  rw [create_enough hspec henough, hrun]
  rfl

lemma hostids_head : (hostids hostNameMax fe.host lists).head? = some (written (fe.host, 0)) := by
  rw [← nodeName_root]
  cases lists <;> rfl

lemma hostids_pos : 0 < (hostids hostNameMax fe.host lists).length := by
  cases lists <;> simp [hostids, slots]

/-- With one list all slots are there when the rounds begin. -/
lemma enough_single (henough : n.toNat ≤ offered hostNameMax fe.host lists)
    (hnone : backends hostNameMax fe.host lists = none) :
    n.toNat ≤ (hostids hostNameMax fe.host lists).length := by
  simpa [offered, hnone] using henough

lemma conclude_grown {rounds : List Writes} {placed : ℕ} (hplaced : n.toNat ≤ placed) :
    conclude address fe n lists fuel (.grown rounds placed) =
      finish address n (rooted fe lists) rounds fuel :=
  if_neg fun h => absurd h.2 (not_lt.mpr hplaced)

lemma create_small (hspec : parseSpec spec = some (k, n))
    (henough : n.toNat ≤ offered hostNameMax fe.host lists) (hn : n.toNat ≤ 1)
    (address : Name → ℕ) : ∃ b, Returns (create address fe spec lists) (some (.built b)) ∧
      Grew (written (fe.host, 0)) [written (fe.host, 0)] [] n b := by
  have hreached : Reached (written (fe.host, 0)) [written (fe.host, 0)] 0
      (hostids hostNameMax fe.host lists) [] := .nil
  obtain ⟨b, hb, hgrew⟩ := finish_returns address n (rooted_built fe lists)
    (rooted_root fe lists) hreached
  refine ⟨b, create_returns hspec henough (growAll_small hn) ?_, hgrew⟩
  simpa only [conclude_grown hn] using hb

/-- The slots of the last round. -/
abbrev finalSlots (hostNameMax : ℕ) (feHost : Text) (k n : BitVec 32) (lists : HostLists) : List Name :=
  lastSlots (k - 1).toNat (backends hostNameMax feHost lists) k n.toNat
    (hostids hostNameMax feHost lists)

section Last
variable (hspec : parseSpec spec = some (k, n))
  (henough : n.toNat ≤ offered hostNameMax fe.host lists) (hn : 2 ≤ n.toNat)
  (hkids : 0 < (k - 1).toNat)
include hspec henough hn hkids

/-- The internal slots end before the last round. -/
lemma create_short
    (hshort : (hostids hostNameMax fe.host lists).length ≤ before (k - 1).toNat n.toNat) :
    Returns (create address fe spec lists)
      (some (.missing (hostids hostNameMax fe.host lists).length)) := by
  have hlt := before_lt hkids hn
  have hsep : (backends hostNameMax fe.host lists).isSome = true := by
    rw [Option.isSome_iff_ne_none]
    intro hnone
    have := enough_single henough hnone
    omega
  rcases growAll_short rfl hkids hn hostids_pos hshort hsep with hgrow | ⟨rounds, hgrow⟩
  · exact create_returns hspec henough hgrow (.of_pure _)
  · refine create_returns hspec henough hgrow ?_
    simp only [conclude, if_pos (show _ ∧ _ from ⟨hsep, hshort.trans_lt hlt⟩)]
    exact .of_pure _

/-- The slots of the last round are not enough, or all of them are taken too early. -/
lemma create_fallsShort
    (hlast : before (k - 1).toNat n.toNat < (hostids hostNameMax fe.host lists).length)
    (hsep : (backends hostNameMax fe.host lists).isSome = true)
    (hfalls : FallsShort (k - 1).toNat n.toNat (finalSlots hostNameMax fe.host k n lists)) :
    Returns (create address fe spec lists) (some (.missing
      (before (k - 1).toNat n.toNat + (finalSlots hostNameMax fe.host k n lists).length))) := by
  have hgrow := growAll_last rfl hkids hn hlast (enough_single henough)
  dsimp only at hgrow
  rw [if_pos (And.intro hsep hfalls)] at hgrow
  exact create_returns hspec henough hgrow (.of_pure _)

/-- There is a tree. -/
lemma create_last
    (hlast : before (k - 1).toNat n.toNat < (hostids hostNameMax fe.host lists).length)
    (hfits : (backends hostNameMax fe.host lists).isSome = true →
      ¬FallsShort (k - 1).toNat n.toNat (finalSlots hostNameMax fe.host k n lists))
    (address : Name → ℕ) :
    ∃ b, Returns (create address fe spec lists) (some (.built b)) ∧
      Grew (written (fe.host, 0))
        ((hostids hostNameMax fe.host lists).take (before (k - 1).toNat n.toNat) ++
          (finalSlots hostNameMax fe.host k n lists).take
            (n.toNat - before (k - 1).toNat n.toNat))
        (allRounds (k - 1).toNat n.toNat (hostids hostNameMax fe.host lists)
          (finalSlots hostNameMax fe.host k n lists)) n b ∧
      Reached (written (fe.host, 0))
        ((hostids hostNameMax fe.host lists).take (before (k - 1).toNat n.toNat) ++
          (finalSlots hostNameMax fe.host k n lists).take
            (n.toNat - before (k - 1).toNat n.toNat))
        (givers (k - 1).toNat n.toNat) (hostids hostNameMax fe.host lists)
        (allRounds (k - 1).toNat n.toNat (hostids hostNameMax fe.host lists)
          (finalSlots hostNameMax fe.host k n lists)) := by
  have hgrow := growAll_last rfl hkids hn hlast (enough_single henough)
  have hnot : ¬((backends hostNameMax fe.host lists).isSome = true ∧
      FallsShort (k - 1).toNat n.toNat (finalSlots hostNameMax fe.host k n lists)) :=
    fun h => hfits h.1 h.2
  dsimp only at hgrow
  rw [if_neg hnot] at hgrow
  have hnext : n.toNat - before (k - 1).toNat n.toNat ≤
      (finalSlots hostNameMax fe.host k n lists).length := by
    cases hbackends : backends hostNameMax fe.host lists with
    | none =>
        have hall := enough_single henough hbackends
        rw [finalSlots, lastSlots, nextSlots, hbackends, ite_self, Option.getD_none,
          List.length_drop]
        omega
    | some slots =>
        have hfew := (not_or.mp (hfits (by rw [hbackends]; rfl))).1
        exact not_lt.mp hfew
  have hreached := reached_all hkids hostids_head hn hlast hnext
  obtain ⟨b, hb, hgrew⟩ := finish_returns address n (rooted_built fe lists)
    (rooted_root fe lists) hreached
  refine ⟨b, create_returns hspec henough hgrow ?_, hgrew, hreached⟩
  simpa only [conclude_grown le_rfl] using hb

end Last

end KnomialTree

end MRNet.TopologyFile
