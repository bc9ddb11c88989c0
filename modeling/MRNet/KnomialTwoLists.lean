import MRNet.KnomialRuns

/-!
# k-nomial trees from two lists

The last round takes the slots of the back-ends, unless the product that announces it wraps.
Missing hosts are reported where a list ends and the last parent has a part of its children,
whether more nodes are wanted or not.
-/
namespace MRNet.TopologyFile
open Codec DepthFirst
open Wire (Run Returns)
open SerialGraph (Text)
open Std (TreeMap)

namespace KnomialTree

variable {address : Name → ℕ} {hostNameMax : ℕ} {fe : FrontEnd hostNameMax} {spec feHost : Text}
  {k n beProcs intProcs : BitVec 32} {backend internal : HostList}

section Slots
variable (hostNameMax : ℕ) (feHost : Text) (backend internal : HostList)
  (beProcs intProcs : BitVec 32)

/-- The names of the internal slots, the root's first. -/
def internalIds : List Name :=
  ((feHost, 0) :: (listSlots intProcs internal (.start feHost)).1).map (nodeName hostNameMax)

def backendIds : List Name :=
  (listSlots beProcs backend (listSlots intProcs internal (.start feHost)).2).1.map
    (nodeName hostNameMax)

end Slots

/-- The last round is announced as the leaf level. -/
def LeafLevel (k n : BitVec 32) : Prop :=
  n.toNat ≤ before (k - 1).toNat n.toNat * k.toNat % 2 ^ 32

instance : Decidable (LeafLevel k n) := inferInstanceAs (Decidable (_ ≤ _))

/-- The last slot of a list is taken by the last wanted node, whose parent might have more
children. -/
def Spurious (k n : BitVec 32) (internals backends : ℕ) : Prop :=
  2 ≤ n.toNat ∧ before (k - 1).toNat n.toNat < internals ∧
    ¬(k - 1).toNat ∣ n.toNat - before (k - 1).toNat n.toNat ∧
    if LeafLevel k n then backends = n.toNat - before (k - 1).toNat n.toNat
    else internals = n.toNat

instance {internals backends : ℕ} : Decidable (Spurious k n internals backends) :=
  inferInstanceAs (Decidable (_ ∧ _ ∧ _ ∧ _))

lemma finalSlots_separate : finalSlots hostNameMax feHost k n
      (.separate backend internal beProcs intProcs) =
    if LeafLevel k n then backendIds hostNameMax feHost backend internal beProcs intProcs
    else (internalIds hostNameMax feHost internal intProcs).drop
      (before (k - 1).toNat n.toNat) := by
  by_cases hleaf : LeafLevel k n
  · have hreach : n.toNat ≤ before (k - 1).toNat n.toNat * k.toNat % 2 ^ 32 := hleaf
    rw [if_pos hleaf, finalSlots, lastSlots, nextSlots, if_pos hreach]
    rfl
  · have hreach : ¬n.toNat ≤ before (k - 1).toNat n.toNat * k.toNat % 2 ^ 32 := hleaf
    rw [if_neg hleaf, finalSlots, lastSlots, nextSlots, if_neg hreach]
    rfl

/-- No report comes after all nodes are placed, and a factor that is large enough for one
round makes a tree if there are slots for the back-ends. -/
def Succeeds (k n : BitVec 32) (backends : ℕ) (m : ℕ → Run (Option KnomialRun)) : Prop :=
  (∀ placed, Returns m (some (.missing placed)) → placed < n.toNat) ∧
  (2 ≤ n.toNat → n.toNat ≤ k.toNat → n.toNat - 1 ≤ backends →
    ∃ b, Returns m (some (.built b)) ∧ b.valid = true)

/-- All slots of the last round are needed. -/
lemma length_finalSlots_iff
    (hlast : before (k - 1).toNat n.toNat <
      (internalIds hostNameMax feHost internal intProcs).length)
    (hlt : before (k - 1).toNat n.toNat < n.toNat) :
    (finalSlots hostNameMax feHost k n (.separate backend internal beProcs intProcs)).length =
        n.toNat - before (k - 1).toNat n.toNat ↔
      if LeafLevel k n then
        (backendIds hostNameMax feHost backend internal beProcs intProcs).length =
          n.toNat - before (k - 1).toNat n.toNat
      else (internalIds hostNameMax feHost internal intProcs).length = n.toNat := by
  rw [finalSlots_separate]
  split_ifs
  · exact Iff.rfl
  · rw [List.length_drop]
    omega

lemma kids_pos (hk : 2 ≤ k.toNat) : 0 < (k - 1).toNat := by bv_omega

section Separate
variable (hspec : parseSpec spec = some (k, n)) (hk : 2 ≤ k.toNat)
include hspec hk

/-- A report in a run: hosts are missing, or it is spurious. -/
lemma missing_cases {placed : ℕ} (h : Returns (create address fe spec
      (.separate backend internal beProcs intProcs)) (some (.missing placed))) :
    placed < n.toNat ∨ placed = n.toNat ∧
      Spurious k n (internalIds hostNameMax fe.host internal intProcs).length
        (backendIds hostNameMax fe.host backend internal beProcs intProcs).length := by
  have hkids := kids_pos hk
  have hunique {r : KnomialRun} (hr : Returns (create address fe spec
      (.separate backend internal beProcs intProcs)) (some r)) : r = .missing placed :=
    Option.some.inj (hr.unique h)
  rcases Nat.lt_or_ge (offered hostNameMax fe.host (.separate backend internal beProcs intProcs))
    n.toNat with hfew | henough
  · have heq := hunique ⟨0, fun fuel _ => create_few hspec hfew⟩
    cases heq
    exact .inl (Nat.zero_lt_of_lt hfew)
  rcases Nat.lt_or_ge n.toNat 2 with hsmall | hn
  · obtain ⟨b, hb, -⟩ := create_small hspec henough (by omega) address
    cases hunique hb
  have hlt := before_lt hkids hn
  rcases Nat.lt_or_ge (before (k - 1).toNat n.toNat)
    (internalIds hostNameMax fe.host internal intProcs).length with hlast | hshort
  · by_cases hfalls : FallsShort (k - 1).toNat n.toNat
      (finalSlots hostNameMax fe.host k n (.separate backend internal beProcs intProcs))
    · have heq := hunique (create_fallsShort hspec henough hn hkids hlast rfl hfalls)
      cases heq
      rcases hfalls with hfew | ⟨hall, hdvd⟩
      · exact .inl (by omega)
      · refine .inr ⟨by omega, hn, hlast, hall ▸ hdvd, ?_⟩
        exact (length_finalSlots_iff hlast hlt).mp hall
    · obtain ⟨b, hb, -⟩ := create_last hspec henough hn hkids hlast (fun _ => hfalls) address
      cases hunique hb
  · have heq := hunique (create_short hspec henough hn hkids hshort)
    cases heq
    exact .inl (hshort.trans_lt hlt)

/-- The spurious report. -/
lemma create_spurious (hspurious : Spurious k n
      (internalIds hostNameMax fe.host internal intProcs).length
      (backendIds hostNameMax fe.host backend internal beProcs intProcs).length) :
    Returns (create address fe spec (.separate backend internal beProcs intProcs))
      (some (.missing n.toNat)) := by
  have hkids := kids_pos hk
  obtain ⟨hn, hlast, hdvd, hall⟩ := hspurious
  have hlt := before_lt hkids hn
  have hlength := (length_finalSlots_iff hlast hlt).mpr hall
  have henough : n.toNat ≤ offered hostNameMax fe.host
      (.separate backend internal beProcs intProcs) := by
    change n.toNat ≤ (internalIds hostNameMax fe.host internal intProcs).length +
      (backendIds hostNameMax fe.host backend internal beProcs intProcs).length
    split_ifs at hall <;> omega
  have hreturns : Returns (create address fe spec (.separate backend internal beProcs intProcs)) _ :=
    create_fallsShort hspec henough hn hkids hlast rfl (.inr ⟨hlength, hlength ▸ hdvd⟩)
  rw [hlength] at hreturns
  rwa [show before (k - 1).toNat n.toNat + (n.toNat - before (k - 1).toNat n.toNat) = n.toNat
    by omega] at hreturns

end Separate

lemma before_one (hk : 2 ≤ k.toNat) (hn : 2 ≤ n.toNat) (hle : n.toNat ≤ k.toNat) :
    before (k - 1).toNat n.toNat = 1 := by
  have hbase : (k - 1).toNat + 1 = k.toNat := by bv_omega
  have hclog : Nat.clog k.toNat n.toNat ≤ 1 := Nat.clog_le_of_le_pow (by rwa [pow_one])
  have hzero : fullDepth (k - 1).toNat n.toNat = 0 := by
    rw [fullDepth, hbase]
    omega
  rw [before, hzero, pow_zero]

lemma leafLevel_one (hk : 2 ≤ k.toNat) (hn : 2 ≤ n.toNat) (hle : n.toNat ≤ k.toNat) :
    LeafLevel k n := by
  rw [LeafLevel, before_one hk hn hle, Nat.one_mul, Nat.mod_eq_of_lt k.isLt]
  exact hle

/-- With the root as the only parent, a tree is refused if a back-end has the root's name. -/
lemma valid_one {b : KnomialTree} {root : Name} {ids next : List Name} {rounds : List Writes}
    {givers : ℕ} (hroot : ids.head? = some root) (hgivers : givers ≤ 1)
    (hnext : next.length + 1 < 2 ^ 32) (hgrew : Grew root (ids.take 1 ++ next) rounds n b)
    (hreached : Reached root (ids.take 1 ++ next) givers ids rounds) :
    b.valid = true ↔ root ∉ next := by
  obtain ⟨rest, rfl⟩ : ∃ rest, ids = root :: rest := List.head?_eq_some_iff.mp hroot
  have htargets : (edgesOf rounds.flatten).map Prod.snd = next :=
    (List.cons.inj hreached.targets).2
  have hparent : ∀ e ∈ edgesOf rounds.flatten, e.1 = root := by
    intro e he
    obtain ⟨cs, hw, -⟩ := mem_edgesOf.mp (show (e.1, e.2) ∈ _ from he)
    have hmem := (hreached.givers_iff e.1).mp (List.mem_map_of_mem (f := Prod.fst) hw)
    have hfirst := List.take_subset_take_left (root :: rest) hgivers hmem
    simpa using hfirst
  have hcard : ((root :: rest).take 1 ++ next).toFinset.card < 2 ^ 32 := by
    refine (List.toFinset_card_le _).trans_lt ?_
    simpa [Nat.add_comm] using hnext
  rw [hgrew.valid_iff, and_iff_left hcard, Tree.Tidy, htargets]
  exact and_iff_left fun a b v ha hb => (hparent _ ha).trans (hparent _ hb).symm

section OneRound
variable (hspec : parseSpec spec = some (k, n)) (hk : 2 ≤ k.toNat) (hn : 2 ≤ n.toNat)
  (hle : n.toNat ≤ k.toNat)
  (hlength : n.toNat - 1 ≤ (backendIds hostNameMax fe.host backend internal beProcs intProcs).length)
include hspec hk hn hle hlength

/-- No round begins without a slot of the internal list. -/
lemma create_no_internal
    (hone : (internalIds hostNameMax fe.host internal intProcs).length < 2) :
    Returns (create address fe spec (.separate backend internal beProcs intProcs))
      (some (.missing 1)) := by
  have hpos : 0 < (internalIds hostNameMax fe.host internal intProcs).length := by
    simp [internalIds]
  have henough : n.toNat ≤ offered hostNameMax fe.host
      (.separate backend internal beProcs intProcs) := by
    change n.toNat ≤ (internalIds hostNameMax fe.host internal intProcs).length +
      (backendIds hostNameMax fe.host backend internal beProcs intProcs).length
    omega
  have hshort : Returns (create address fe spec (.separate backend internal beProcs intProcs)) _ :=
    create_short hspec henough hn (kids_pos hk)
      (by rw [before_one hk hn hle]; exact Nat.le_of_lt_succ hone)
  have heq : (hostids hostNameMax fe.host
      (.separate backend internal beProcs intProcs)).length = 1 :=
    Nat.le_antisymm (Nat.le_of_lt_succ hone) hpos
  rwa [heq] at hshort

/-- The root and the first slots for back-ends make a tree. -/
lemma create_one_round
    (htwo : 2 ≤ (internalIds hostNameMax fe.host internal intProcs).length)
    (hspurious : ¬Spurious k n (internalIds hostNameMax fe.host internal intProcs).length
      (backendIds hostNameMax fe.host backend internal beProcs intProcs).length) :
    ∃ b, Returns (create address fe spec (.separate backend internal beProcs intProcs))
        (some (.built b)) ∧
      (b.valid = true ↔ written (fe.host, 0) ∉
        (backendIds hostNameMax fe.host backend internal beProcs intProcs).take (n.toNat - 1)) := by
  have hbefore := before_one hk hn hle
  have hleaf := leafLevel_one hk hn hle
  have hfinal : finalSlots hostNameMax fe.host k n (.separate backend internal beProcs intProcs) =
      backendIds hostNameMax fe.host backend internal beProcs intProcs := by
    rw [finalSlots_separate, if_pos hleaf]
  have hlast : before (k - 1).toNat n.toNat <
      (internalIds hostNameMax fe.host internal intProcs).length := by
    rwa [hbefore]
  have henough : n.toNat ≤ offered hostNameMax fe.host
      (.separate backend internal beProcs intProcs) := by
    change n.toNat ≤ (internalIds hostNameMax fe.host internal intProcs).length +
      (backendIds hostNameMax fe.host backend internal beProcs intProcs).length
    omega
  have hfits : ¬FallsShort (k - 1).toNat n.toNat
      (finalSlots hostNameMax fe.host k n (.separate backend internal beProcs intProcs)) := by
    rw [hfinal]
    rintro (hfew | ⟨hall, hdvd⟩)
    · rw [hbefore] at hfew
      omega
    · exact hspurious ⟨hn, hlast, hall ▸ hdvd, by rwa [if_pos hleaf]⟩
  obtain ⟨b, hb, hgrew, hreached⟩ :=
    create_last hspec henough hn (kids_pos hk) hlast (fun _ => hfits) address
  rw [hfinal, hbefore] at hgrew hreached
  refine ⟨b, hb, valid_one hostids_head ?_ ?_ hgrew hreached⟩
  · have hzero : 1 / ((k - 1).toNat + 1) = 0 := Nat.div_eq_of_lt (by have := kids_pos hk; omega)
    rw [givers, hbefore, hzero]
    exact max_le (Nat.zero_le 1) (parents_le (by bv_omega))
  · rw [List.length_take]
    have := n.isLt
    omega

end OneRound

/-- The lists are enough, and the generator does what it should, unless the report is spurious
or, with one round, the internal list is empty or a back-end has the root's name. -/
theorem create_succeeds_iff (hspec : parseSpec spec = some (k, n)) (hk : 2 ≤ k.toNat)
    (backend internal : HostList) (beProcs intProcs : BitVec 32) (fe : FrontEnd hostNameMax)
    (address : Name → ℕ) :
    let internals := internalIds hostNameMax fe.host internal intProcs
    let backends := backendIds hostNameMax fe.host backend internal beProcs intProcs
    Succeeds k n backends.length
        (create address fe spec (.separate backend internal beProcs intProcs)) ↔
      ¬Spurious k n internals.length backends.length ∧
      (2 ≤ n.toNat → n.toNat ≤ k.toNat → n.toNat - 1 ≤ backends.length →
        2 ≤ internals.length ∧ written (fe.host, 0) ∉ backends.take (n.toNat - 1)) := by
  intro internals backends
  have hkids := kids_pos hk
  constructor
  · rintro ⟨hreports, htree⟩
    refine ⟨fun hspurious => ?_, fun hn hle hlength => ?_⟩
    · exact lt_irrefl _ (hreports _ (create_spurious hspec hk hspurious))
    · have hspurious : ¬Spurious k n internals.length backends.length := fun hspurious =>
        lt_irrefl _ (hreports _ (create_spurious hspec hk hspurious))
      obtain ⟨b, hb, hvalid⟩ := htree hn hle hlength
      have htwo : 2 ≤ internals.length := by
        by_contra hone
        cases hb.unique (create_no_internal hspec hk hn hle hlength (not_le.mp hone))
      obtain ⟨b', hb', hvalid'⟩ := create_one_round hspec hk hn hle hlength htwo hspurious
      cases hb.unique hb'
      exact ⟨htwo, hvalid'.mp hvalid⟩
  · rintro ⟨hspurious, htree⟩
    refine ⟨fun placed hmissing => ?_, fun hn hle hlength => ?_⟩
    · exact (missing_cases hspec hk hmissing).resolve_right fun h => hspurious h.2
    · obtain ⟨htwo, hroot⟩ := htree hn hle hlength
      obtain ⟨b, hb, hvalid⟩ := create_one_round hspec hk hn hle hlength htwo hspurious
      exact ⟨b, hb, hvalid.mpr hroot⟩

theorem create_succeeds_iff_three : Succeeds 3 3 2 (create (fun _ => 0)
    (⟨['f', 'e'], by decide⟩ : FrontEnd 64) ['3', '@', '3']
      (.separate [(['b'], 2)] [(['i'], 1)] 2 2)) := by
  have hspec : parseSpec ['3', '@', '3'] = some (3, 3) := by decide
  exact (create_succeeds_iff hspec (by decide) _ _ _ _ _ _).mpr
    ⟨by decide, fun _ _ _ => ⟨by decide, by decide⟩⟩

/-- Both nodes are placed, and missing hosts are reported all the same. -/
theorem create_not_succeeds : parseSpec ['3', '@', '2'] = some (3, 2) ∧
    ¬Succeeds 3 2 1 (create (fun _ => 0) (⟨['f', 'e'], by decide⟩ : FrontEnd 64) ['3', '@', '2']
      (.separate [(['b'], 1)] [(['i'], 1)] 1 1)) := by
  have hspec : parseSpec ['3', '@', '2'] = some (3, 2) := by decide
  have hspurious : Spurious 3 2 2 1 := by decide
  exact ⟨hspec, fun h => lt_irrefl _ (h.1 _ (create_spurious hspec (by decide) hspurious))⟩

end KnomialTree

end MRNet.TopologyFile
