import MRNet.KnomialTwoLists
import MRNet.SpecifiedTrees

/-!
# Roles in k-nomial trees

Parents are the first internal slots. The last round can end before every slot that is used has
children, and those without are taken for back-ends.
-/
namespace MRNet.TopologyFile
open Codec DepthFirst
open Wire (Run Returns)
open SerialGraph (Text)

namespace KnomialTree

variable {address : Name → ℕ} {hostNameMax : ℕ} {fe : FrontEnd hostNameMax} {spec feHost : Text}
  {k n beProcs intProcs : BitVec 32} {backend internal : HostList} {b : KnomialTree} {v : Name}

/-- How many internal slots become nodes, if there are enough. -/
def innerNodes (k n : BitVec 32) : ℕ :=
  if LeafLevel k n then before (k - 1).toNat n.toNat else n.toNat

section Slots
variable (hostNameMax : ℕ) (feHost : Text) (k n : BitVec 32) (internal : HostList)
  (intProcs : BitVec 32)

/-- The internal slots that have children. -/
def giverIds : List Name :=
  (internalIds hostNameMax feHost internal intProcs).take (givers (k - 1).toNat n.toNat)

/-- The internal slots that become nodes and are given no children. -/
def idleIds : List Name :=
  ((internalIds hostNameMax feHost internal intProcs).take (innerNodes k n)).drop
    (givers (k - 1).toNat n.toNat)

variable (backend : HostList) (beProcs : BitVec 32)

/-- The names of the nodes, in the order in which they are given. -/
def madeOf : List Name :=
  (internalIds hostNameMax feHost internal intProcs).take (before (k - 1).toNat n.toNat) ++
    (finalSlots hostNameMax feHost k n (.separate backend internal beProcs intProcs)).take
      (n.toNat - before (k - 1).toNat n.toNat)

end Slots

/-- The tree is made of all rounds. -/
structure Made (hostNameMax : ℕ) (feHost : Text) (k n : BitVec 32) (backend internal : HostList)
    (beProcs intProcs : BitVec 32) (b : KnomialTree) : Prop where
  grew : Grew (written (feHost, 0))
    (madeOf hostNameMax feHost k n internal intProcs backend beProcs)
    (allRounds (k - 1).toNat n.toNat (internalIds hostNameMax feHost internal intProcs)
      (finalSlots hostNameMax feHost k n (.separate backend internal beProcs intProcs))) n b
  reached : Reached (written (feHost, 0))
    (madeOf hostNameMax feHost k n internal intProcs backend beProcs)
    (givers (k - 1).toNat n.toNat) (internalIds hostNameMax feHost internal intProcs)
    (allRounds (k - 1).toNat n.toNat (internalIds hostNameMax feHost internal intProcs)
      (finalSlots hostNameMax feHost k n (.separate backend internal beProcs intProcs)))

lemma mem_listSlots {limit : BitVec 32} {hosts : HostList} {counts : HostProcCounts} {h : Host}
    (hmem : h ∈ (listSlots limit hosts counts).1) : ∃ entry ∈ hosts, entry.1 = h.1 := by
  induction hosts generalizing counts with
  | nil => cases hmem
  | cons entry rest ih =>
      rcases List.mem_append.mp hmem with hmem | hmem
      · obtain ⟨i, -, rfl⟩ := List.mem_map.mp hmem
        exact ⟨entry, by simp, rfl⟩
      · obtain ⟨e, he, heq⟩ := ih hmem
        exact ⟨e, List.mem_cons_of_mem _ he, heq⟩

lemma namedFor_listSlots {limit : BitVec 32} {hosts : HostList} {counts : HostProcCounts}
    (hv : v ∈ (listSlots limit hosts counts).1.map (nodeName hostNameMax)) :
    NamedFor hostNameMax hosts v :=
  BalancedTree.namedFor_slots (fun _ => mem_listSlots) hv

lemma namedFor_internalIds (hv : v ∈ internalIds hostNameMax fe.host internal intProcs)
    (hroot : v ≠ written (fe.host, 0)) : NamedFor hostNameMax internal v := by
  rw [internalIds, List.map_cons, nodeName_root] at hv
  exact namedFor_listSlots ((List.mem_cons.mp hv).resolve_left hroot)

lemma givers_le (hk : 2 ≤ k.toNat) (hn : 2 ≤ n.toNat) :
    givers (k - 1).toNat n.toNat ≤ before (k - 1).toNat n.toNat := by
  have hreach := le_before_mul (kids_pos hk) hn
  rw [Nat.mul_succ] at hreach
  exact max_le (Nat.div_le_self _ _) (parents_le (by omega))

lemma givers_le_innerNodes (hk : 2 ≤ k.toNat) (hn : 2 ≤ n.toNat) :
    givers (k - 1).toNat n.toNat ≤ innerNodes k n := by
  have hle := givers_le hk hn
  have hlt := before_lt (kids_pos hk) hn
  unfold innerNodes
  split_ifs <;> omega

/-- A tree with no idle slot: the last round is for the back-ends, and it reaches the last
internal slot that is used. -/
lemma idleIds_eq_nil_iff (hk : 2 ≤ k.toNat) (hn : 2 ≤ n.toNat)
    (hlength : innerNodes k n ≤ (internalIds hostNameMax feHost internal intProcs).length) :
    idleIds hostNameMax feHost k n internal intProcs = [] ↔
      LeafLevel k n ∧ before (k - 1).toNat n.toNat * k.toNat < n.toNat + (k - 1).toNat := by
  have hkids := kids_pos hk
  have hbase : k.toNat = (k - 1).toNat + 1 := by bv_omega
  have hlt := before_lt hkids hn
  have hpos := before_pos (k - 1).toNat n.toNat
  have hnil : idleIds hostNameMax feHost k n internal intProcs = [] ↔
      innerNodes k n ≤ givers (k - 1).toNat n.toNat := by
    rw [idleIds, List.drop_eq_nil_iff, List.length_take_of_le hlength]
  rw [hnil]
  by_cases hleaf : LeafLevel k n
  · have hdiv : before (k - 1).toNat n.toNat / ((k - 1).toNat + 1) < before (k - 1).toNat n.toNat :=
      Nat.div_lt_self hpos (by omega)
    rw [and_iff_right hleaf, innerNodes, if_pos hleaf, givers, le_max_iff,
      or_iff_right (not_le.mpr hdiv), parents, Nat.le_div_iff_mul_le hkids, hbase, Nat.mul_succ]
    omega
  · have hle := givers_le hk hn
    rw [innerNodes, if_neg hleaf]
    exact iff_of_false (by omega) fun h => hleaf h.1

/-- The nodes: internal slots first, and back-ends if the last round is theirs. -/
lemma mem_madeOf_iff (hk : 2 ≤ k.toNat) (hn : 2 ≤ n.toNat) :
    v ∈ madeOf hostNameMax feHost k n internal intProcs backend beProcs ↔
      v ∈ (internalIds hostNameMax feHost internal intProcs).take (innerNodes k n) ∨
        LeafLevel k n ∧ v ∈ (backendIds hostNameMax feHost backend internal beProcs intProcs).take
          (n.toNat - before (k - 1).toNat n.toNat) := by
  rw [madeOf, finalSlots_separate, innerNodes]
  by_cases hleaf : LeafLevel k n
  · rw [if_pos hleaf, if_pos hleaf, List.mem_append, and_iff_right hleaf]
  · have hlt := before_lt (kids_pos hk) hn
    rw [if_neg hleaf, if_neg hleaf, ← List.take_add,
      Nat.add_sub_cancel' hlt.le, or_iff_left fun h => hleaf h.1]

/-- The roles in a tree that is made of all rounds. -/
lemma rolesKept_iff (hk : 2 ≤ k.toNat) (hn : 2 ≤ n.toNat)
    (hmade : Made hostNameMax fe.host k n backend internal beProcs intProcs b) :
    HostLists.RolesKept hostNameMax b.tree (.separate backend internal beProcs intProcs) ↔
      ∀ v ∈ idleIds hostNameMax fe.host k n internal intProcs,
        v ∈ giverIds hostNameMax fe.host k n internal intProcs ∨
          NamedFor hostNameMax backend v := by
  obtain ⟨hgrew, hreached⟩ := hmade
  have hparent (v : Name) : v ∈ giverIds hostNameMax fe.host k n internal intProcs ↔
      b.tree.childrenOf v ≠ [] := by
    rw [← mem_parents_iff hgrew.shape hreached.some_children, hreached.givers_iff]
    rfl
  have hnode (v : Name) := (hgrew.shape.mem_iff v).trans (mem_madeOf_iff hk hn)
  have hsplit := List.take_append_drop (givers (k - 1).toNat n.toNat)
    ((internalIds hostNameMax fe.host internal intProcs).take (innerNodes k n))
  rw [List.take_take, Nat.min_eq_left (givers_le_innerNodes hk hn)] at hsplit
  constructor
  · intro hroles v hv
    refine or_iff_not_imp_left.mpr fun hnot => ?_
    have hmem : v ∈ b.tree.nodesByName := (hnode v).mpr (.inl (List.mem_of_mem_drop hv))
    exact (hroles v hmem).1 (not_not.mp fun hne => hnot ((hparent v).mpr hne))
  · intro hidle v hv
    refine ⟨fun hleaf => ?_, fun hinner hroot => ?_⟩
    · have hnot : v ∉ giverIds hostNameMax fe.host k n internal intProcs :=
        fun hgiver => (hparent v).mp hgiver hleaf
      rcases (hnode v).mp hv with hused | ⟨-, hback⟩
      · rw [← hsplit, List.mem_append] at hused
        exact (hidle v (hused.resolve_left hnot)).resolve_left hnot
      · exact namedFor_listSlots (List.mem_of_mem_take hback)
    · rw [hgrew.root_eq] at hroot
      exact namedFor_internalIds (List.mem_of_mem_take ((hparent v).mpr hinner)) hroot

section Runs
variable (hspec : parseSpec spec = some (k, n)) (hk : 2 ≤ k.toNat) (hn : 2 ≤ n.toNat)
include hspec hk hn

lemma of_built (h : Returns (create address fe spec
      (.separate backend internal beProcs intProcs)) (some (.built b))) :
    Made hostNameMax fe.host k n backend internal beProcs intProcs b := by
  have hkids := kids_pos hk
  have hunique {r : KnomialRun} (hr : Returns (create address fe spec
      (.separate backend internal beProcs intProcs)) (some r)) : r = .built b :=
    Option.some.inj (hr.unique h)
  rcases Nat.lt_or_ge (offered hostNameMax fe.host (.separate backend internal beProcs intProcs))
    n.toNat with hfew | henough
  · cases hunique ⟨0, fun fuel _ => create_few hspec hfew⟩
  rcases Nat.lt_or_ge (before (k - 1).toNat n.toNat)
    (internalIds hostNameMax fe.host internal intProcs).length with hlast | hshort
  · by_cases hfalls : FallsShort (k - 1).toNat n.toNat
      (finalSlots hostNameMax fe.host k n (.separate backend internal beProcs intProcs))
    · cases hunique (create_fallsShort hspec henough hn hkids hlast rfl hfalls)
    · obtain ⟨b', hb, hgrew, hreached⟩ :=
        create_last hspec henough hn hkids hlast (fun _ => hfalls) address
      cases hunique hb
      exact ⟨hgrew, hreached⟩
  · cases hunique (create_short hspec henough hn hkids hshort)

/-- Slots for a last round of back-ends, with names of their own. -/
lemma create_leafLevel (hleaf : LeafLevel k n) (backend internal : HostList)
    (beProcs intProcs : BitVec 32) (fe : FrontEnd hostNameMax) (address : Name → ℕ)
    (hinner : before (k - 1).toNat n.toNat <
      (internalIds hostNameMax fe.host internal intProcs).length)
    (houter : n.toNat - before (k - 1).toNat n.toNat ≤
      (backendIds hostNameMax fe.host backend internal beProcs intProcs).length)
    (hspare : ¬Spurious k n (internalIds hostNameMax fe.host internal intProcs).length
      (backendIds hostNameMax fe.host backend internal beProcs intProcs).length)
    (hnames : (madeOf hostNameMax fe.host k n internal intProcs backend beProcs).Nodup) :
    ∃ b, Returns (create address fe spec (.separate backend internal beProcs intProcs))
        (some (.built b)) ∧ b.valid = true ∧
      Made hostNameMax fe.host k n backend internal beProcs intProcs b := by
  have hkids := kids_pos hk
  have hlt := before_lt hkids hn
  have hfinal : finalSlots hostNameMax fe.host k n (.separate backend internal beProcs intProcs) =
      backendIds hostNameMax fe.host backend internal beProcs intProcs := by
    rw [finalSlots_separate, if_pos hleaf]
  have hfits : ¬FallsShort (k - 1).toNat n.toNat
      (finalSlots hostNameMax fe.host k n (.separate backend internal beProcs intProcs)) := by
    rw [hfinal]
    rintro (hfew | ⟨hall, hdvd⟩)
    · omega
    · exact hspare ⟨hn, hinner, hall ▸ hdvd, by rwa [if_pos hleaf]⟩
  have henough : n.toNat ≤ offered hostNameMax fe.host
      (.separate backend internal beProcs intProcs) := by
    change n.toNat ≤ (internalIds hostNameMax fe.host internal intProcs).length +
      (backendIds hostNameMax fe.host backend internal beProcs intProcs).length
    omega
  obtain ⟨b, hb, hgrew, hreached⟩ :=
    create_last hspec henough hn hkids hinner (fun _ => hfits) address
  refine ⟨b, hb, hgrew.valid_iff.mpr ⟨Tree.tidy_of_nodup ?_, ?_⟩, hgrew, hreached⟩
  · rw [hreached.targets]
    exact hnames
  · have hsize : (madeOf hostNameMax fe.host k n internal intProcs backend beProcs).length ≤
        n.toNat := by
      rw [madeOf, List.length_append, List.length_take, List.length_take]
      omega
    exact (List.toFinset_card_le _).trans_lt (hsize.trans_lt n.isLt)

/-- Roles are kept where every internal slot that is used has children, or the name of one that
has or of a back-end. -/
theorem create_rolesKept_iff (h : Returns (create address fe spec
      (.separate backend internal beProcs intProcs)) (some (.built b))) :
    HostLists.RolesKept hostNameMax b.tree (.separate backend internal beProcs intProcs) ↔
      ∀ v ∈ idleIds hostNameMax fe.host k n internal intProcs,
        v ∈ giverIds hostNameMax fe.host k n internal intProcs ∨
          NamedFor hostNameMax backend v :=
  rolesKept_iff hk hn (of_built hspec hk hn h)

end Runs

theorem create_rolesKept_iff_four : ∃ b, Returns (create (fun _ => 0)
      (⟨['f', 'e'], by decide⟩ : FrontEnd 64) ['2', '@', '4']
        (.separate [(['b'], 2)] [(['i'], 2)] 2 2)) (some (.built b)) ∧
    HostLists.RolesKept 64 b.tree (.separate [(['b'], 2)] [(['i'], 2)] 2 2) := by
  have hspec : parseSpec ['2', '@', '4'] = some (2, 4) := by decide
  have hidle : idleIds 64 ['f', 'e'] 2 4 [(['i'], 2)] 2 = [] :=
    (idleIds_eq_nil_iff (by decide) (by decide) (by decide)).mpr (by decide)
  obtain ⟨b, hb, -, -⟩ := create_leafLevel hspec (by decide) (by decide) (by decide)
    [(['b'], 2)] [(['i'], 2)] 2 2 (⟨['f', 'e'], by decide⟩ : FrontEnd 64) (fun _ => 0)
    (by decide) (by decide) (by decide) (by decide)
  refine ⟨b, hb, (create_rolesKept_iff hspec (by decide) (by decide) hb).mpr ?_⟩
  intro v hv
  rw [hidle] at hv
  cases hv

/-- The first node on an internal host is left without children. -/
theorem create_not_rolesKept : parseSpec ['2', '@', '3'] = some (2, 3) ∧
    ∃ b, Returns (create (fun _ => 0) (⟨['f', 'e'], by decide⟩ : FrontEnd 64) ['2', '@', '3']
        (.separate [(['b'], 2)] [(['i'], 2)] 2 2)) (some (.built b)) ∧ b.valid = true ∧
      ¬HostLists.RolesKept 64 b.tree (.separate [(['b'], 2)] [(['i'], 2)] 2 2) := by
  have hspec : parseSpec ['2', '@', '3'] = some (2, 3) := by decide
  obtain ⟨b, hb, hvalid, hmade⟩ := create_leafLevel hspec (by decide) (by decide) (by decide)
    [(['b'], 2)] [(['i'], 2)] 2 2 (⟨['f', 'e'], by decide⟩ : FrontEnd 64) (fun _ => 0)
    (by decide) (by decide) (by decide) (by decide)
  refine ⟨hspec, b, hb, hvalid, fun hroles => ?_⟩
  have hidle : ['i', ':', '0'] ∈ idleIds 64 ['f', 'e'] 2 3 [(['i'], 2)] 2 := by decide
  rcases (rolesKept_iff (by decide) (by decide) hmade).mp hroles _ hidle with hgiver | ⟨e, he, hnamed⟩
  · exact absurd hgiver (by decide)
  · obtain rfl := List.mem_singleton.mp he
    obtain ⟨slot, hslot⟩ := hnamed
    have hhead := congrArg List.head? hslot
    simp [nodeName, written] at hhead

end KnomialTree

end MRNet.TopologyFile
