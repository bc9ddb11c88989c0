import MRNet.KnomialRuns

/-!
# k-nomial trees from one list

With enough slots on distinct hosts there is a tree of the wanted size, after as few rounds as
the factor allows. The leaves are counted by the parents that were written down.
-/
namespace MRNet.TopologyFile
open Codec DepthFirst
open Wire (Run Returns)
open SerialGraph (Text)
open Std (TreeMap)

namespace KnomialTree

variable {address : Name → ℕ} {hostNameMax : ℕ} {fe : FrontEnd hostNameMax} {spec feHost : Text}
  {k n limit : BitVec 32} {hosts : HostList} {kids givers target : ℕ} {root : Name}
  {names ids used children next : List Name} {rounds : List Writes} {b : KnomialTree}

/-- The slots of one host in one list. -/
def ownSlots (feHost : Text) (limit : BitVec 32) (entry : Text × BitVec 32) : List Host :=
  let first := if entry.1 = feHost then 1 else 0
  (List.range' first ((min entry.2 limit).toNat - first)).map fun u => (entry.1, BitVec.ofNat 32 u)

lemma slots_eq (feHost : Text) (limit : BitVec 32) (hosts : HostList) :
    slots feHost limit hosts = (feHost, 0) :: hosts.flatMap (ownSlots feHost limit) := rfl

lemma mem_ownSlots {entry : Text × BitVec 32} {h : Host} (hh : h ∈ ownSlots feHost limit entry) :
    h.1 = entry.1 ∧ (entry.1 = feHost → h.2 ≠ 0) := by
  obtain ⟨u, hu, rfl⟩ := List.mem_map.mp hh
  refine ⟨rfl, fun heq hzero => ?_⟩
  have hlt := (min entry.2 limit).isLt
  rw [if_pos heq, List.mem_range'_1] at hu
  have hu' := congrArg BitVec.toNat hzero
  rw [BitVec.toNat_ofNat, Nat.mod_eq_of_lt (by omega)] at hu'
  have hroot : (0 : BitVec 32).toNat = 0 := rfl
  omega

lemma nodup_ownSlots (entry : Text × BitVec 32) : (ownSlots feHost limit entry).Nodup := by
  refine (List.nodup_range' 1).map_on fun u hu v hv heq => ?_
  have hlt := (min entry.2 limit).isLt
  rw [List.mem_range'_1] at hu hv
  have hsame := congrArg (BitVec.toNat ∘ Prod.snd) heq
  simp only [Function.comp_apply, BitVec.toNat_ofNat] at hsame
  rwa [Nat.mod_eq_of_lt (by omega), Nat.mod_eq_of_lt (by omega)] at hsame

lemma nodup_slots (hdistinct : (hosts.map Prod.fst).Nodup) : (slots feHost limit hosts).Nodup := by
  rw [slots_eq, List.nodup_cons]
  constructor
  · intro hmem
    obtain ⟨entry, -, hslot⟩ := List.mem_flatMap.mp hmem
    obtain ⟨heq, hne⟩ := mem_ownSlots hslot
    exact hne heq.symm rfl
  · rw [List.nodup_flatMap]
    refine ⟨fun entry _ => nodup_ownSlots entry, ?_⟩
    refine (List.pairwise_map.mp hdistinct).imp fun hne h hh hh' => ?_
    exact hne ((mem_ownSlots hh).1.symm.trans (mem_ownSlots hh').1)

/-- Names that fit the buffer tell the slots apart. -/
lemma nodup_names {l : List Host} (hnodup : l.Nodup)
    (hfits : ∀ h ∈ l, (written h).length < hostNameMax) :
    (l.map (nodeName hostNameMax)).Nodup := by
  refine hnodup.map_on fun h hh h' hh' heq => written_injective ?_
  have hfit := hfits h hh
  have hfit' := hfits h' hh'
  rw [nodeName, nodeName, List.take_of_length_le (by omega), List.take_of_length_le (by omega)] at heq
  exact heq

/-- How many children a node is given in a round. -/
def givenTo (p : Name) (writes : Writes) : ℕ := (edgesOf writes).countP (·.1 = p)

lemma givenTo_cons (p parent : Name) (cs : List Name) (writes : Writes) :
    givenTo p ((parent, cs) :: writes) =
      (if parent = p then cs.length else 0) + givenTo p writes := by
  rw [givenTo, edgesOf, List.flatMap_cons, List.countP_append, List.countP_map]
  congr 1
  split_ifs with hp
  · exact List.countP_eq_length.mpr fun c _ => by simp [hp]
  · exact List.countP_eq_zero.mpr fun c _ => by simp [hp]

lemma givenTo_dealOut (hkids : 0 < kids) (hnodup : used.Nodup) (p : Name) (children : List Name) :
    givenTo p (dealOut kids used children) ≤ kids := by
  induction used generalizing children with
  | nil => exact Nat.zero_le _
  | cons parent used ih =>
      cases hchildren : children with
      | nil => exact Nat.zero_le _
      | cons child more =>
          obtain ⟨hout, hused⟩ := List.nodup_cons.mp hnodup
          rw [← hchildren, dealOut_cons (by simp [hchildren]), givenTo_cons]
          split_ifs with hp
          · have hnone : givenTo p (dealOut kids used (children.drop kids)) = 0 := by
              refine List.countP_eq_zero.mpr fun e he => ?_
              obtain ⟨cs, hw, -⟩ := mem_edgesOf.mp (show (e.1, e.2) ∈ _ from he)
              have hmem := (dealt_each hkids hw).1
              simp only [decide_eq_true_eq]
              rintro rfl
              exact hout (hp ▸ hmem)
            rw [hnone]
            exact List.length_take_le kids children
          · rw [Nat.zero_add]
            exact ih hused (children.drop kids)

lemma givenTo_allRounds (hkids : 0 < kids) (hnodup : ids.Nodup) {writes : Writes}
    (hwrites : writes ∈ allRounds kids target ids next) (p : Name) :
    givenTo p writes ≤ kids := by
  have hused (m : ℕ) : (ids.take m).Nodup := hnodup.sublist (List.take_sublist m ids)
  rcases List.mem_append.mp hwrites with hwrites | hwrites
  · obtain ⟨i, -, rfl⟩ := List.mem_map.mp hwrites
    exact givenTo_dealOut hkids (hused _) p _
  · obtain rfl := List.mem_singleton.mp hwrites
    exact givenTo_dealOut hkids (hused _) p _

/-- Nodes without children. -/
def leaves (t : Tree) : List Name := t.nodesByName.keys.filter fun v => t.childrenOf v = []

lemma length_leaves {t : Tree} (hshape : t.Shape names (edgesOf rounds.flatten))
    (hends : ∀ e ∈ edgesOf rounds.flatten, e.1 ∈ names)
    (hsome : ∀ w ∈ rounds.flatten, w.2 ≠ []) :
    (leaves t).length + (rounds.flatten.map Prod.fst).toFinset.card = t.nodesByName.size := by
  have hparent := mem_parents_iff hshape hsome
  have hinner : (rounds.flatten.map Prod.fst).toFinset.card =
      (t.nodesByName.keys.filter fun v => t.childrenOf v ≠ []).length := by
    rw [← List.toFinset_card_of_nodup (TreeMap.nodup_keys.filter _)]
    congr 1
    ext v
    rw [List.mem_toFinset, List.mem_toFinset, List.mem_filter, TreeMap.mem_keys, hparent]
    simp only [decide_eq_true_eq, iff_and_self]
    intro hne
    obtain ⟨c, hc⟩ := List.exists_mem_of_ne_nil _ hne
    exact (hshape.mem_iff v).mpr (hends _ ((hshape.children_iff v c).mp hc))
  rw [hinner, leaves, ← TreeMap.length_keys]
  have hsplit : t.nodesByName.keys.length = _ :=
    List.length_eq_length_filter_add fun v => decide (t.childrenOf v = [])
  simpa using hsplit.symm

/-- The promised tree. -/
structure IsKnomial (k n : BitVec 32) (root : Name) (b : KnomialTree) : Prop where
  valid : b.valid = true
  size_eq : b.tree.nodesByName.size = n.toNat
  root_eq : b.tree.root = root
  isRootedTree : IsRootedTree b.tree.nodesByName.keys b.tree.edges root
  given_le : ∀ writes ∈ b.rounds, ∀ p, givenTo p writes ≤ k.toNat - 1
  children_iff : ∀ p c, c ∈ b.tree.childrenOf p ↔ ∃ writes ∈ b.rounds, (p, c) ∈ edgesOf writes
  depth_least : IsLeast {r | n.toNat ≤ k.toNat ^ r} b.rounds.length
  numLeaves_eq : b.numLeaves.toNat = (leaves b.tree).length

/-- Rounds that have reached the wanted number of nodes with names of their own. -/
lemma Grew.isKnomial (h : Grew root names rounds n b)
    (hreached : Reached root names givers ids rounds) (hnodup : names.Nodup)
    (hlength : names.length = n.toNat)
    (hgiven : ∀ writes ∈ rounds, ∀ p, givenTo p writes ≤ k.toNat - 1)
    (hdepth : IsLeast {r | n.toNat ≤ k.toNat ^ r} rounds.length) : IsKnomial k n root b := by
  have htargets := hreached.targets
  have hnames (v : Name) : v ∈ names ↔
      v = b.tree.root ∨ v ∈ (edgesOf rounds.flatten).map Prod.snd := by
    rw [h.root_eq, ← htargets, List.mem_cons]
  have hgrown := hreached.grown
  rw [← h.root_eq] at hgrown
  have hends : ∀ e ∈ edgesOf rounds.flatten, e.1 ∈ names :=
    fun e he => (hnames _).mpr (hgrown.source he)
  have htidy : Tree.Tidy root (edgesOf rounds.flatten) := Tree.tidy_of_nodup (htargets ▸ hnodup)
  have hcard : names.toFinset.card = n.toNat := by
    rw [List.toFinset_card_of_nodup hnodup, hlength]
  have hsize : b.tree.nodesByName.size = n.toNat := h.shape.size_eq.trans hcard
  have hleaves := length_leaves h.shape hends hreached.some_children
  refine ⟨h.valid_iff.mpr ⟨htidy, hcard ▸ n.isLt⟩, hsize, h.root_eq, ?_, ?_, fun p c => ?_, ?_, ?_⟩
  · rw [← h.root_eq] at htidy ⊢
    exact (h.shape.isRootedTree_iff hgrown hnames hends).mpr htidy
  · rw [h.rounds_eq]
    exact hgiven
  · rw [h.shape.children_iff, h.rounds_eq, mem_edgesOf]
    simp only [mem_edgesOf, List.mem_flatten]
    constructor
    · rintro ⟨cs, ⟨writes, hwrites, hw⟩, hc⟩
      exact ⟨writes, hwrites, cs, hw, hc⟩
    · rintro ⟨writes, hwrites, cs, hw, hc⟩
      exact ⟨cs, ⟨writes, hwrites, hw⟩, hc⟩
  · rw [h.rounds_eq]
    exact hdepth
  · have hlt := n.isLt
    rw [h.numLeaves_eq, BitVec.toNat_sub_of_le, BitVec.toNat_ofNat, Nat.mod_eq_of_lt (by omega)]
    · omega
    · rw [BitVec.le_def, BitVec.toNat_ofNat, Nat.mod_eq_of_lt (by omega)]
      omega

/-- With one list the rounds reach the first slots. -/
lemma finalSlots_single : finalSlots hostNameMax feHost k n (.single hosts limit) =
    (hostids hostNameMax feHost (.single hosts limit)).drop (before (k - 1).toNat n.toNat) := by
  simp [finalSlots, lastSlots, nextSlots, backends]

/-- Enough slots of distinct hosts make a tree. -/
theorem create_single (hspec : parseSpec spec = some (k, n)) (hk : 2 ≤ k.toNat)
    (hn : 1 ≤ n.toNat) (hdistinct : (hosts.map Prod.fst).Nodup)
    (hfits : ∀ h ∈ slots fe.host limit hosts, (written h).length < hostNameMax)
    (henough : n.toNat ≤ (slots fe.host limit hosts).length) (address : Name → ℕ) :
    ∃ b, Returns (create address fe spec (.single hosts limit)) (some (.built b)) ∧
      IsKnomial k n (written (fe.host, 0)) b := by
  have hoffered : n.toNat ≤ offered hostNameMax fe.host (.single hosts limit) := by
    simpa [offered, hostids, backends] using henough
  have hnames : (hostids hostNameMax fe.host (.single hosts limit)).Nodup :=
    nodup_names (nodup_slots hdistinct) hfits
  have hkids : (k - 1).toNat = k.toNat - 1 := by bv_omega
  rcases Nat.lt_or_ge n.toNat 2 with hsmall | hn'
  · obtain ⟨b, hb, hgrew⟩ := create_small hspec hoffered (by omega) address
    have hreached : Reached (written (fe.host, 0)) [written (fe.host, 0)] 0 [] [] := .nil
    refine ⟨b, hb, hgrew.isKnomial hreached (List.nodup_singleton _) (by simp; omega) (by simp) ?_⟩
    exact ⟨by simp; omega, fun r _ => Nat.zero_le r⟩
  · have hpos : 0 < (k - 1).toNat := by omega
    have hlt := before_lt hpos hn'
    have hlength : n.toNat ≤ (hostids hostNameMax fe.host (.single hosts limit)).length := by
      simpa [hostids] using henough
    obtain ⟨b, hb, hgrew, hreached⟩ := create_last hspec hoffered hn' hpos
      (hlt.trans_le hlength) (by simp [backends]) address
    have hslots : (hostids hostNameMax fe.host (.single hosts limit)).take
          (before (k - 1).toNat n.toNat) ++ (finalSlots hostNameMax fe.host k n
            (.single hosts limit)).take (n.toNat - before (k - 1).toNat n.toNat) =
        (hostids hostNameMax fe.host (.single hosts limit)).take n.toNat := by
      rw [finalSlots_single, ← List.take_add]
      congr 1
      omega
    rw [hslots] at hgrew hreached
    refine ⟨b, hb, hgrew.isKnomial hreached (hnames.sublist (List.take_sublist _ _))
      (List.length_take_of_le hlength) (fun writes hwrites p => ?_) ?_⟩
    · rw [← hkids]
      exact givenTo_allRounds hpos hnames hwrites p
    · have hclog := Nat.clog_pos (show 1 < k.toNat by omega) hn'
      have hbase : k.toNat - 1 + 1 = k.toNat := by omega
      have hdepth : (allRounds (k - 1).toNat n.toNat (hostids hostNameMax fe.host
          (.single hosts limit)) (finalSlots hostNameMax fe.host k n
            (.single hosts limit))).length = Nat.clog k.toNat n.toNat := by
        rw [allRounds, fullRounds, List.length_append, List.length_map, List.length_range,
          List.length_singleton, fullDepth, hkids, hbase, Nat.sub_add_cancel hclog]
      rw [hdepth]
      exact ⟨Nat.le_pow_clog (by omega) _, fun r hr => Nat.clog_le_of_le_pow hr⟩

theorem create_single_three : ∃ b, Returns (create (fun _ => 0)
      (⟨['f', 'e'], by decide⟩ : FrontEnd 64) ['2', '@', '3'] (.single [(['a'], 2)] 2))
        (some (.built b)) ∧ IsKnomial 2 3 (written (['f', 'e'], 0)) b := by
  have hspec : parseSpec ['2', '@', '3'] = some (2, 3) := by decide
  exact create_single hspec (by decide) (by decide) (by decide) (by decide) (by decide) _

end KnomialTree

end MRNet.TopologyFile
