import MRNet.AdoptionScores

/-!
# The choice of a new parent

Translation of `find_NewParent` from both libraries. The first attempt searches and sorts the
adopters. The standard library remembers them for the attempts that follow; the lightweight one
keeps them in a local vector.
-/
namespace MRNet.Topology
open Codec Relation
open WaitForAll (Rank)
open Forest (Link Rooted Below)

/-- `ALGORITHM_T`. -/
inductive Algorithm
  | random
  | wrs
  | sortedRR
  deriving DecidableEq

/-- What `sort` makes of the adopters. The keys that are compared are floating point numbers. -/
structure Sorts where
  byRandKey : List Ptr → List Ptr
  byWrsKey : TreeStatistics → List ScoreTerms → List Ptr → List Ptr
  byScore : TreeStatistics → List ScoreTerms → List Ptr → List Ptr

/-- Sorting changes the order only. -/
structure Sorts.Permute (sorts : Sorts) : Prop where
  byRandKey : ∀ l, (sorts.byRandKey l).Perm l
  byWrsKey : ∀ statistics terms l, (sorts.byWrsKey statistics terms l).Perm l
  byScore : ∀ statistics terms l, (sorts.byScore statistics terms l).Perm l

/-- A topology, and the static `potential_adopters`. -/
structure Choice where
  topology : NetworkTopology
  potentialAdopters : List Ptr

namespace NetworkTopology

/-- The search from `_root`. -/
def adoptersOf (t : NetworkTopology) (orphan : Ptr) : Outcome (List Ptr) :=
  match t.root with
  | some root => t.findPotentialAdopters orphan t.levels root []
  | none => do
      let node ← t.deref orphan
      if node.parent = none then return [] else .error (.fault .nullPointer)

/-- `my_idx`, the place of a child among the children of its parent by rank. -/
def localIndex (t : NetworkTopology) (parent : Ptr) (ichildRank : Rank) : Outcome ℕ := do
  let node ← t.deref parent
  let siblings ← node.children.mapM t.deref
  let ranks := (siblings.map Node.rank).mergeSort fun r s => r ≤ s
  return if ichildRank ∈ ranks then ranks.idxOf ichildRank else 0

end NetworkTopology

open NetworkTopology

section Model
variable (sorts : Sorts) (ichildRank : Rank) (ialgorithm : Algorithm)

/-- The first attempt, for an orphan that was found. -/
def chooseParent (t : NetworkTopology) (orphan : Ptr) : Outcome (Choice × Option Ptr) := do
  let adopters ← t.adoptersOf orphan
  if adopters = [] then return (⟨t, []⟩, none)
  else
    match ialgorithm with
    | .random =>
        let sorted := sorts.byRandKey adopters
        return (⟨t, sorted⟩, sorted[0]?)
    | .wrs => do
        let (t, statistics, terms) ← t.computeAdoptionScores adopters orphan
        let sorted := sorts.byWrsKey statistics terms adopters
        return (⟨t, sorted⟩, sorted[0]?)
    | .sortedRR => do
        let (t, statistics, terms) ← t.computeAdoptionScores adopters orphan
        let sorted := sorts.byScore statistics terms adopters
        let node ← t.deref orphan
        match node.parent with
        | none => .error (.fault .nullPointer)
        | some parent => do
            let myIdx ← t.localIndex parent ichildRank
            return (⟨t, sorted⟩, sorted[myIdx % sorted.length]?)

/-- `find_NewParent`. -/
def findNewParent (s : Choice) (inumAttempts : ℕ) : Outcome (Choice × Option Ptr) :=
  if inumAttempts > 0 then return (s, s.potentialAdopters[inumAttempts]?)
  else
    match s.topology.findNode ichildRank with
    | none => return (s, none)
    | some orphan => chooseParent sorts ichildRank ialgorithm s.topology orphan

end Model

namespace Lightweight

/-- The loop over the keys, of which `keeps` tells whether the adopter so far is kept. Without
an adopter the process exits, and the other algorithms are stubs. -/
def findNewParent (keeps : TreeStatistics → List ScoreTerms → Ptr → Ptr → Bool)
    (ichildRank : Rank) (ialgorithm : Algorithm) (t : NetworkTopology) (inumAttempts : ℕ) :
    Outcome (NetworkTopology × Option Ptr) :=
  let potentialAdopters : List Ptr := []
  if inumAttempts > 0 then return (t, potentialAdopters[inumAttempts]?)
  else
    match t.findNode ichildRank with
    | none => .error (.fault .assertion)
    | some orphan => do
        match ← t.adoptersOf orphan with
        | [] => .error .refused
        | adopter :: adopters =>
            match ialgorithm with
            | .random => .error (.fault .assertion)
            | .sortedRR => .error (.fault .assertion)
            | .wrs => do
                let (t, statistics, terms) ← t.computeAdoptionScores (adopter :: adopters) orphan
                return (t, some (adopters.foldl
                  (fun best cur => if keeps statistics terms best cur then best else cur) adopter))

end Lightweight

section Attempts
variable {σ : Type}

/-- The results of attempts with growing numbers. -/
def attempts (find : σ → ℕ → Outcome (σ × Option Ptr)) : ℕ → ℕ → σ → Outcome (List (Option Ptr))
  | _, 0, _ => return []
  | first, count + 1, s => do
      let (s, found) ← find s first
      let rest ← attempts find (first + 1) count s
      return found :: rest

/-- Each adopter is returned once, in some order, and then none. -/
def TriesEach (find : σ → ℕ → Outcome (σ × Option Ptr)) (s : σ) (adopters : List Ptr) : Prop :=
  ∃ order : List Ptr, order.Perm adopters ∧
    attempts find 0 (adopters.length + 1) s = .ok (order.map some ++ [none])

variable {find : σ → ℕ → Outcome (σ × Option Ptr)} {s s' : σ} {adopters : List Ptr}

/-- Attempts that only look up a list. -/
lemma attempts_lookup {l : List Ptr} (h : ∀ i, 0 < i → find s i = .ok (s, l[i]?)) (first count : ℕ) :
    attempts find (first + 1) count s =
      .ok ((List.range' (first + 1) count).map fun i => l[i]?) := by
  induction count generalizing first with
  | zero => rfl
  | succ count ih =>
      rw [attempts, h _ (Nat.succ_pos first), ok_bind]
      dsimp only
      rw [ih, ok_bind, List.range'_succ, List.map_cons]
      rfl

lemma map_getElem?_range' (l : List Ptr) :
    (List.range' 0 (l.length + 1)).map (fun i => l[i]?) = l.map some ++ [none] := by
  apply List.ext_getElem
  · simp
  · intro i hi _
    rw [List.length_map, List.length_range'] at hi
    rw [List.getElem_map, List.getElem_range', Nat.zero_add, Nat.one_mul]
    rcases Nat.lt_or_ge i l.length with hlt | hge
    · rw [List.getElem_append_left (by simpa using hlt), List.getElem_map,
        List.getElem?_eq_getElem hlt]
    · rw [List.getElem_append_right (by simpa using hge), List.getElem?_eq_none hge]
      simp

/-- The adopters are tried in turn if the first attempt returns the first one that the others
look up. -/
lemma triesEach_iff_first {first : Option Ptr} {a : Ptr} {rest : List Ptr}
    (hfirst : find s 0 = .ok (s', first))
    (hretry : ∀ i, 0 < i → find s' i = .ok (s', (a :: rest)[i]?))
    (hperm : (a :: rest).Perm adopters) : TriesEach find s adopters ↔ first = some a := by
  have hall : attempts find 0 (adopters.length + 1) s =
      .ok (first :: (rest.map some ++ [none])) := by
    have hlookup := map_getElem?_range' (a :: rest)
    rw [List.length_cons, List.range'_succ, List.map_cons, List.map_cons, List.cons_append] at hlookup
    rw [attempts, hfirst, ok_bind]
    dsimp only
    rw [attempts_lookup hretry, ok_bind, ← hperm.length_eq, List.length_cons,
      (List.cons.inj hlookup).2]
    rfl
  rw [TriesEach, hall]
  constructor
  · rintro ⟨order, horder, heq⟩
    cases order with
    | nil =>
        have hlength := congrArg List.length (Except.ok.inj heq)
        simp at hlength
    | cons b order =>
        obtain ⟨hb, hrest⟩ := List.cons.inj (Except.ok.inj heq)
        have hsame : rest = order :=
          List.map_injective_iff.mpr (Option.some_injective Ptr) (List.append_cancel_right hrest)
        subst hsame
        have hcons : (b :: rest).Perm (a :: rest) := horder.trans hperm.symm
        rw [hb, (Multiset.cons_inj_left (rest : Multiset Ptr)).mp (Multiset.coe_eq_coe.mpr hcons)]
  · rintro rfl
    exact ⟨a :: rest, hperm, rfl⟩

lemma TriesEach.returns (h : TriesEach find s adopters) : ∃ r, find s 0 = .ok r := by
  obtain ⟨order, -, h⟩ := h
  obtain ⟨r, hr, -⟩ := bind_ok_iff.mp h
  exact ⟨r, hr⟩

end Attempts

variable {t t' : NetworkTopology} {orphan : Ptr} {adopters : List Ptr}

/-- The links that the search passes. -/
def searched (t : NetworkTopology) (orphan : Ptr) (c : Ptr) : Option Ptr :=
  if t.parentOf c = t.parentOf orphan then none else t.parentOf c

lemma link_searched_iff {c b : Ptr} :
    Link (searched t orphan) c b ↔ Link t.parentOf c b ∧ t.parentOf orphan ≠ some b := by
  rw [Link, Link, searched]
  by_cases hsame : t.parentOf c = t.parentOf orphan
  · rw [if_pos hsame, ← hsame]
    exact iff_of_false (Option.some_ne_none b).symm fun h => h.2 h.1
  · rw [if_neg hsame]
    exact ⟨fun h => ⟨h, fun ho => hsame (h.trans ho.symm)⟩, And.left⟩

/-- A search that returns has found live nodes, each of them once. -/
lemma findPotentialAdopters_ok (hlinks : Links t) (hsets : t.ChildSets) (hinner : InnerParents t)
    {n : ℕ} {p : Ptr} {acc r : List Ptr} (h : t.findPotentialAdopters orphan n p acc = .ok r) :
    ∃ found, r = acc ++ found ∧ Acc (Link (searched t orphan)) p ∧ found.Nodup ∧
      ∀ a ∈ found, t.Live a ∧ Below (searched t orphan) a p := by
  induction n generalizing p acc r with
  | zero => cases h
  | succ n ih =>
      rw [findPotentialAdopters] at h
      obtain ⟨orphanNode, horphan, h⟩ := bind_ok_iff.mp h
      obtain ⟨node, hnode, h⟩ := bind_ok_iff.mp h
      rw [← parentOf_of_deref horphan] at h
      have hchild : ∀ c, c ∈ node.children ↔ Link t.parentOf c p := mem_childrenOf_iff hlinks hnode
      split_ifs at h with hstop
      · cases h
        refine ⟨[], by simp, ⟨p, fun c hc => ?_⟩, List.nodup_nil, by simp⟩
        obtain ⟨hlink, hother⟩ := link_searched_iff.mp hc
        rcases hstop with heq | hbackEnd
        · exact absurd heq hother
        · have hflag := hinner c p hlink
          rw [flagOf, view_of_lookup _ (deref_ok_iff.mp hnode), hbackEnd] at hflag
          cases hflag
      · have hlink : ∀ c ∈ node.children, Link (searched t orphan) c p := fun c hc =>
          link_searched_iff.mpr ⟨(hchild c).mp hc, fun heq => hstop (.inl heq)⟩
        obtain ⟨parts, rfl, hparts⟩ := foldlM_appended (P := fun c part =>
          Acc (Link (searched t orphan)) c ∧ part.Nodup ∧
            ∀ a ∈ part, t.Live a ∧ Below (searched t orphan) a c)
          (fun c _ acc acc' hc => ih hc) h
        have hacc : Acc (Link (searched t orphan)) p := by
          refine ⟨p, fun c hc => ?_⟩
          obtain ⟨part, -, hpart⟩ := forall₂_exists_of_mem hparts
            ((hchild c).mpr (link_searched_iff.mp hc).1)
          exact hpart.1
        have hbelow : ∀ a ∈ parts.flatten, t.Live a ∧ ∃ c ∈ node.children,
            Below (searched t orphan) a c := by
          intro a ha
          obtain ⟨part, hpart, ha⟩ := List.mem_flatten.mp ha
          obtain ⟨c, hc, -, -, hall⟩ := forall₂_exists_of_mem hparts.flip hpart
          exact ⟨(hall a ha).1, c, hc, (hall a ha).2⟩
        refine ⟨p :: parts.flatten, by simp, hacc, List.nodup_cons.mpr ⟨fun hmem => ?_, ?_⟩,
          fun a ha => ?_⟩
        · obtain ⟨-, c, hc, hpc⟩ := hbelow p hmem
          exact Forest.not_circular_of_acc hacc (TransGen.tail' hpc (hlink c hc))
        · have hnodup := hsets p
          rw [childrenOf_eq_of_deref hnode] at hnodup
          refine adopters_nodup hnodup (fun c hc => ⟨hlink c hc, ?_⟩)
            (hparts.imp fun c part hpart => ⟨hpart.2.1, fun a ha => (hpart.2.2 a ha).2⟩)
          exact Forest.not_circular_of_acc (hacc.inv (hlink c hc))
        · rcases List.mem_cons.mp ha with rfl | hmem
          · exact ⟨Finmap.mem_of_lookup_eq_some (deref_ok_iff.mp hnode), .refl⟩
          · obtain ⟨hlive, c, hc, hac⟩ := hbelow a hmem
            exact ⟨hlive, hac.tail (hlink c hc)⟩

/-- The adopters differ and are live, and if there are any, then there is a root. -/
lemma adoptersOf_ok (h : Reachable t) (hfound : t.adoptersOf orphan = .ok adopters) :
    adopters.Nodup ∧ (∀ a ∈ adopters, t.Live a) ∧
      (adopters ≠ [] → ∃ root, t.root = some root ∧ t.Live root) := by
  unfold adoptersOf at hfound
  cases hroot : t.root with
  | none =>
      rw [hroot] at hfound
      obtain ⟨node, -, hfound⟩ := bind_ok_iff.mp hfound
      split_ifs at hfound
      cases hfound
      exact ⟨List.nodup_nil, by simp, by simp⟩
  | some root =>
      rw [hroot] at hfound
      dsimp only at hfound
      obtain ⟨found, rfl, -, hnodup, hall⟩ :=
        findPotentialAdopters_ok h.links h.childSets h.innerParents hfound
      refine ⟨by simpa using hnodup, fun a ha => (hall a (by simpa using ha)).1, fun _ => ?_⟩
      refine ⟨root, rfl, ?_⟩
      obtain ⟨n, hn⟩ : ∃ n, t.levels = n + 1 := by
        cases hlevels : t.levels with
        | zero =>
            rw [hlevels] at hfound
            cases hfound
        | succ n => exact ⟨n, rfl⟩
      rw [hn, findPotentialAdopters] at hfound
      obtain ⟨orphanNode, horphan, hrest⟩ := bind_ok_iff.mp hfound
      obtain ⟨node, hnode, -⟩ := bind_ok_iff.mp hrest
      exact Finmap.mem_of_lookup_eq_some (deref_ok_iff.mp hnode)

/-- How many children of a node have a smaller rank. -/
def siblingsBefore (t : NetworkTopology) (parent : Ptr) (ichildRank : Rank) : ℕ :=
  (t.childrenOf parent).countP fun c => (t.rankOf c).any (· < ichildRank)

lemma idxOf_eq_countP {ranks : List Rank} {r : Rank} (hsorted : ranks.Pairwise (· ≤ ·))
    (hr : r ∈ ranks) : ranks.idxOf r = ranks.countP (· < r) := by
  induction ranks with
  | nil => cases hr
  | cons s ranks ih =>
      obtain ⟨hle, hsorted⟩ := List.pairwise_cons.mp hsorted
      rw [List.idxOf_cons, List.countP_cons]
      by_cases hs : s = r
      · subst hs
        have hnone : ranks.countP (· < s) = 0 := by
          rw [List.countP_eq_zero]
          exact fun x hx => by simpa using hle x hx
        simp [hnone]
      · have hmem := (List.mem_cons.mp hr).resolve_left (Ne.symm hs)
        have hlt : s < r := lt_of_le_of_ne (hle r hmem) hs
        rw [ih hsorted hmem, beq_false_of_ne hs]
        simp [hlt]

lemma countP_ranks {cs : List Ptr} {siblings : List Node} {r : Rank}
    (h : List.Forall₂ (fun c sibling => t.deref c = .ok sibling) cs siblings) :
    (siblings.map Node.rank).countP (· < r) = cs.countP fun c => (t.rankOf c).any (· < r) := by
  induction h with
  | nil => rfl
  | @cons c sibling cs siblings hderef _ ih =>
      rw [List.map_cons, List.countP_cons, List.countP_cons, ih, rankOf, deref_ok_iff.mp hderef]
      rfl

lemma localIndex_eq (hlinks : Links t) {parent : Ptr} {r : Rank} (hrank : t.rankOf orphan = some r)
    (hparent : t.parentOf orphan = some parent) :
    t.localIndex parent r = .ok (siblingsBefore t parent r) := by
  obtain ⟨node, hnode⟩ := deref_of_live (hlinks.parent_live hparent)
  have hchildren := childrenOf_eq_of_deref hnode
  obtain ⟨siblings, hsiblings⟩ : ∃ siblings, node.children.mapM t.deref = .ok siblings := by
    simp only [mapM_ok_iff]
    refine forall₂_of_exists fun c hc => deref_of_live (hlinks.child_live (n := parent) ?_)
    rwa [hchildren]
  have hall := mapM_ok_iff.mp hsiblings
  have hmem : r ∈ siblings.map Node.rank := by
    have hchild := (hlinks.answered orphan parent).mpr hparent
    rw [hchildren] at hchild
    obtain ⟨sibling, hsibling, hderef⟩ := forall₂_exists_of_mem hall hchild
    rw [rankOf, deref_ok_iff.mp hderef] at hrank
    exact List.mem_map.mpr ⟨sibling, hsibling, Option.some.inj hrank⟩
  have hcount : (siblings.map Node.rank).countP (· < r) = siblingsBefore t parent r := by
    rw [siblingsBefore, hchildren, countP_ranks hall]
  have hsorted : ((siblings.map Node.rank).mergeSort fun r s => r ≤ s).Pairwise (· ≤ ·) := by
    have hpairwise := @List.pairwise_mergeSort _ (fun r s : Rank => decide (r ≤ s))
      (fun a b c hab hbc => decide_eq_true (le_trans (of_decide_eq_true hab) (of_decide_eq_true hbc)))
      (fun a b => by simpa using le_total a b) (siblings.map Node.rank)
    exact hpairwise.imp of_decide_eq_true
  have hperm := List.mergeSort_perm (siblings.map Node.rank) fun r s => r ≤ s
  have hmem' := hperm.mem_iff.mpr hmem
  rw [localIndex, hnode, ok_bind, hsiblings, ok_bind]
  dsimp only
  rw [if_pos hmem', idxOf_eq_countP hsorted hmem', hperm.countP_eq, hcount]
  rfl

/-- The scores of the adopters are computed. -/
def Scored (t : NetworkTopology) (orphan : Ptr) (adopters : List Ptr) : Prop :=
  ∃ root, t.root = some root ∧ Scorable t root orphan adopters

/-- The first attempt of the standard library takes the front of the sorted adopters. -/
def TakesFront (t : NetworkTopology) (orphan : Ptr) (ichildRank : Rank) (adopters : List Ptr) :
    Algorithm → Prop
  | .random => True
  | .wrs => Scored t orphan adopters
  | .sortedRR => Scored t orphan adopters ∧
      ∃ parent, t.parentOf orphan = some parent ∧
        adopters.length ∣ siblingsBefore t parent ichildRank

section Attempted
variable {sorts : Sorts} {ichildRank : Rank} {ialgorithm : Algorithm} {remembered : List Ptr}

lemma scores_returns_iff (h : Reachable t) (horphan : t.Live orphan)
    (hfound : t.adoptersOf orphan = .ok adopters) (hne : adopters ≠ []) :
    (∃ r, t.computeAdoptionScores adopters orphan = .ok r) ↔ Scored t orphan adopters := by
  obtain ⟨-, hlive, hroot⟩ := adoptersOf_ok h hfound
  obtain ⟨root, hroot, hrootLive⟩ := hroot hne
  rw [computeAdoptionScores_returns_iff h.links hroot hrootLive horphan hlive, Scored]
  simp [hroot]

lemma findNewParent_retry (s : Choice) (i : ℕ) (hi : 0 < i) :
    findNewParent sorts ichildRank ialgorithm s i = .ok (s, s.potentialAdopters[i]?) :=
  if_pos hi

lemma triesEach_of_sorted {first : Option Ptr} (hne : adopters ≠ [])
    {sorted : List Ptr} (hsorted : sorted.Perm adopters)
    (hfirst : findNewParent sorts ichildRank ialgorithm ⟨t, remembered⟩ 0 =
      .ok (⟨t', sorted⟩, first)) :
    TriesEach (findNewParent sorts ichildRank ialgorithm) ⟨t, remembered⟩ adopters ↔
      first = sorted[0]? := by
  cases sorted with
  | nil => exact absurd hsorted.symm.eq_nil hne
  | cons a rest =>
      exact triesEach_iff_first hfirst (fun i hi => findNewParent_retry _ i hi) hsorted

/-- A list without duplicates is entered at its front by multiples of its length only. -/
lemma getElem?_mod_eq_iff {l : List Ptr} (hnodup : l.Nodup) (hne : l ≠ []) (k : ℕ) :
    l[k % l.length]? = l[0]? ↔ l.length ∣ k := by
  have hpos := List.length_pos_iff.mpr hne
  rw [List.getElem?_eq_getElem (Nat.mod_lt k hpos), List.getElem?_eq_getElem hpos,
    Option.some.injEq, hnodup.getElem_inj_iff, Nat.dvd_iff_mod_eq_zero]

/-- The first attempt with the sorted round robin, after the scores are computed. -/
lemma findNewParent_sortedRR (sorts : Sorts) (remembered : List Ptr) (h : Reachable t)
    (horphan : t.findNode ichildRank = some orphan)
    (hfound : t.adoptersOf orphan = .ok adopters) (hne : adopters ≠ [])
    {statistics : TreeStatistics} {terms : List ScoreTerms}
    (hterms : t.computeAdoptionScores adopters orphan = .ok (t', statistics, terms)) :
    findNewParent sorts ichildRank .sortedRR ⟨t, remembered⟩ 0 =
      match t.parentOf orphan with
      | none => .error (.fault .nullPointer)
      | some parent =>
          let sorted := sorts.byScore statistics terms adopters
          .ok (⟨t', sorted⟩, sorted[siblingsBefore t parent ichildRank % sorted.length]?) := by
  obtain ⟨hlive, hrank⟩ := h.links.live_of_findNode horphan
  obtain ⟨root, hroot, -⟩ := (adoptersOf_ok h hfound).2.2 hne
  have hstored := computeAdoptionScores_reheighted hroot hterms
  obtain ⟨node, hnode⟩ := deref_of_live ((hstored.live_iff orphan).mpr hlive)
  have hparent : t.parentOf orphan = node.parent := by
    rw [← hstored.parentOf_eq]
    exact parentOf_of_deref hnode
  rw [findNewParent, if_neg (lt_irrefl 0)]
  dsimp only
  rw [horphan]
  dsimp only
  rw [chooseParent, hfound, ok_bind, if_neg hne, hparent]
  dsimp only
  rw [hterms, ok_bind]
  dsimp only
  rw [hnode, ok_bind]
  cases hcases : node.parent with
  | none => rfl
  | some parent =>
      have hrank' : t'.rankOf orphan = some ichildRank := by
        rw [show t'.rankOf = t.rankOf from hstored.view_eq (g := Node.rank) fun _ _ => rfl]
        exact hrank
      have hindex := localIndex_eq (hstored.links h.links) hrank'
        (by rw [hstored.parentOf_eq, hparent, hcases])
      have hbefore : siblingsBefore t' parent ichildRank = siblingsBefore t parent ichildRank := by
        rw [siblingsBefore, siblingsBefore, hstored.childrenOf_eq,
          show t'.rankOf = t.rankOf from hstored.view_eq (g := Node.rank) fun _ _ => rfl]
      dsimp only
      rw [hindex, ok_bind, hbefore]
      rfl

lemma triesEach_sortedRR (h : Reachable t) (hsorts : sorts.Permute)
    (horphan : t.findNode ichildRank = some orphan) (hfound : t.adoptersOf orphan = .ok adopters)
    (hne : adopters ≠ []) {statistics : TreeStatistics} {terms : List ScoreTerms}
    (hterms : t.computeAdoptionScores adopters orphan = .ok (t', statistics, terms)) :
    TriesEach (findNewParent sorts ichildRank .sortedRR) ⟨t, remembered⟩ adopters ↔
      ∃ parent, t.parentOf orphan = some parent ∧
        adopters.length ∣ siblingsBefore t parent ichildRank := by
  have hfirst := findNewParent_sortedRR sorts remembered h horphan hfound hne hterms
  cases hparent : t.parentOf orphan with
  | none =>
      rw [hparent] at hfirst
      refine iff_of_false (fun htries => ?_) (by simp)
      obtain ⟨r, hr⟩ := htries.returns
      cases hfirst.symm.trans hr
  | some parent =>
      rw [hparent] at hfirst
      have hsorted := hsorts.byScore statistics terms adopters
      rw [triesEach_of_sorted hne hsorted hfirst, getElem?_mod_eq_iff
        (hsorted.symm.nodup (adoptersOf_ok h hfound).1)
        (fun hnil => hne (hnil ▸ hsorted).symm.eq_nil), hsorted.length_eq]
      simp

/-- In the standard library each adopter is tried once exactly if the first attempt returns and
takes the front. -/
lemma triesEach_iff (h : Reachable t) (hsorts : sorts.Permute)
    (horphan : t.findNode ichildRank = some orphan) (hfound : t.adoptersOf orphan = .ok adopters) :
    TriesEach (findNewParent sorts ichildRank ialgorithm) ⟨t, remembered⟩ adopters ↔
      adopters = [] ∨ TakesFront t orphan ichildRank adopters ialgorithm := by
  obtain ⟨hlive, hrank⟩ := h.links.live_of_findNode horphan
  have hzero : findNewParent sorts ichildRank ialgorithm ⟨t, remembered⟩ 0 =
      chooseParent sorts ichildRank ialgorithm t orphan := by
    rw [findNewParent, if_neg (lt_irrefl 0)]
    dsimp only
    rw [horphan]
  rw [chooseParent, hfound, ok_bind] at hzero
  by_cases hempty : adopters = []
  · subst hempty
    rw [if_pos rfl] at hzero
    refine iff_of_true ⟨[], .nil, ?_⟩ (.inl rfl)
    rw [List.length_nil, attempts, hzero]
    rfl
  rw [if_neg hempty] at hzero
  rw [or_iff_right hempty]
  have hscores := scores_returns_iff h hlive hfound hempty
  cases ialgorithm with
  | random =>
      dsimp only at hzero
      rw [triesEach_of_sorted hempty (hsorts.byRandKey adopters) hzero]
      exact iff_of_true rfl trivial
  | wrs =>
      dsimp only at hzero
      constructor
      · intro htries
        obtain ⟨r, hr⟩ := htries.returns
        rw [hzero] at hr
        obtain ⟨r', hr', -⟩ := bind_ok_iff.mp hr
        exact hscores.mp ⟨r', hr'⟩
      · intro hscored
        obtain ⟨⟨t', statistics, terms⟩, hterms⟩ := hscores.mpr hscored
        rw [hterms, ok_bind] at hzero
        rw [triesEach_of_sorted hempty (hsorts.byWrsKey statistics terms adopters) hzero]
  | sortedRR =>
      dsimp only at hzero
      constructor
      · intro htries
        obtain ⟨r, hr⟩ := htries.returns
        rw [hzero] at hr
        obtain ⟨⟨t', statistics, terms⟩, hterms, -⟩ := bind_ok_iff.mp hr
        exact ⟨hscores.mp ⟨_, hterms⟩,
          (triesEach_sortedRR h hsorts horphan hfound hempty hterms).mp htries⟩
      · rintro ⟨hscored, hparent⟩
        obtain ⟨⟨t', statistics, terms⟩, hterms⟩ := hscores.mpr hscored
        exact (triesEach_sortedRR h hsorts horphan hfound hempty hterms).mpr hparent

/-- In the lightweight library the adopter is tried if it is the only one. -/
lemma lightweight_triesEach_iff (h : Reachable t) (horphan : t.findNode ichildRank = some orphan)
    (hfound : t.adoptersOf orphan = .ok adopters)
    (keeps : TreeStatistics → List ScoreTerms → Ptr → Ptr → Bool) :
    TriesEach (Lightweight.findNewParent keeps ichildRank .wrs) t adopters ↔
      adopters.length = 1 ∧ Scored t orphan adopters := by
  have hlive := (h.links.live_of_findNode horphan).1
  have hretry (t' : NetworkTopology) (i : ℕ) (hi : 0 < i) :
      Lightweight.findNewParent keeps ichildRank .wrs t' i = .ok (t', ([] : List Ptr)[i]?) :=
    if_pos hi
  cases adopters with
  | nil =>
      have hzero : Lightweight.findNewParent keeps ichildRank .wrs t 0 = .error .refused := by
        rw [Lightweight.findNewParent, if_neg (lt_irrefl 0), horphan]
        dsimp only
        rw [hfound]
        rfl
      refine iff_of_false (fun htries => ?_) nofun
      obtain ⟨r, hr⟩ := htries.returns
      cases hzero.symm.trans hr
  | cons adopter rest =>
      have hscores := scores_returns_iff h hlive hfound (List.cons_ne_nil adopter rest)
      have hzero : Lightweight.findNewParent keeps ichildRank .wrs t 0 = (do
          let (t, statistics, terms) ← t.computeAdoptionScores (adopter :: rest) orphan
          return (t, some (rest.foldl
            (fun best cur => if keeps statistics terms best cur then best else cur) adopter))) := by
        rw [Lightweight.findNewParent, if_neg (lt_irrefl 0), horphan]
        dsimp only
        rw [hfound]
        rfl
      constructor
      · intro htries
        obtain ⟨r, hr⟩ := htries.returns
        obtain ⟨⟨t', statistics, terms⟩, hterms, hr'⟩ := bind_ok_iff.mp (hzero.symm.trans hr)
        cases hr'
        refine ⟨?_, hscores.mp ⟨_, hterms⟩⟩
        obtain ⟨order, horder, hall⟩ := htries
        rw [attempts, hr, ok_bind] at hall
        dsimp only at hall
        rw [attempts_lookup (hretry t'), ok_bind] at hall
        match order, horder.length_eq with
        | [_], hlength => exact hlength.symm
        | first :: second :: order, hlength =>
            -- The second attempt returns none.
            rw [← hlength, List.length_cons, List.range'_succ] at hall
            cases hall
      · rintro ⟨hone, hscored⟩
        obtain ⟨⟨t', statistics, terms⟩, hterms⟩ := hscores.mpr hscored
        obtain rfl : rest = [] := List.eq_nil_of_length_eq_zero (Nat.succ.inj hone)
        rw [hterms] at hzero
        refine ⟨[adopter], List.Perm.refl _, ?_⟩
        rw [List.length_singleton, attempts, hzero]
        rfl

/-- When the attempts try each adopter once: the standard library must take the front of the
sorted adopters first, and the lightweight one, which supports one algorithm, must have a single
adopter. -/
theorem findNewParent_triesEach_iff (h : Reachable t) (hsorts : sorts.Permute)
    (horphan : t.findNode ichildRank = some orphan) (hfound : t.adoptersOf orphan = .ok adopters)
    (remembered : List Ptr) (keeps : TreeStatistics → List ScoreTerms → Ptr → Ptr → Bool) :
    (∀ ialgorithm,
      TriesEach (findNewParent sorts ichildRank ialgorithm) ⟨t, remembered⟩ adopters ↔
        adopters = [] ∨ TakesFront t orphan ichildRank adopters ialgorithm) ∧
    (TriesEach (Lightweight.findNewParent keeps ichildRank .wrs) t adopters ↔
      adopters.length = 1 ∧ Scored t orphan adopters) :=
  ⟨fun _ => triesEach_iff h hsorts horphan hfound,
    lightweight_triesEach_iff h horphan hfound keeps⟩

end Attempted

/-- An orphan of two siblings tries the root in the lightweight library, and after another child
of the root is added it tries both adopters in the standard one, under each algorithm. -/
theorem findNewParent_triesEach_siblings : ∃ t₃ t, Reachable t₃ ∧ t₃.adoptersOf 2 = .ok [0] ∧
    TriesEach (Lightweight.findNewParent (fun _ _ _ _ => true) 3 .wrs) t₃ [0] ∧
    t₃.addSubGraph 0 (childlessText 1) = .ok (t, true) ∧ t.adoptersOf 2 = .ok [0, 4] ∧
    ∀ ialgorithm, TriesEach (findNewParent ⟨id, fun _ _ => id, fun _ _ => id⟩ 3 ialgorithm) ⟨t, []⟩
      [0, 4] := by
  have hkids (r : Rank) (h : r = 1 ∨ r = 2 ∨ r = 3 ∨ r = 4) :
      SerialGraph.getChildren (childlessText r) = .ok [] := by
    rcases h with rfl | rfl | rfl | rfl <;> rfl
  obtain ⟨t₁, hadd₁, t₂, hadd₂, t₃, hadd₃, hfind₃, hfound₃, hscores₃, t, hadd, hfind, hfound, hscores,
      hparent, hbefore⟩ : ∃ t₁,
      (NetworkTopology.create ['a'] 1 0 false).addSubGraph 0 (childlessText 2) = .ok (t₁, true) ∧
        ∃ t₂, t₁.addSubGraph 2 (childlessText 3) = .ok (t₂, true) ∧
          ∃ t₃, t₂.addSubGraph 2 (childlessText 4) = .ok (t₃, true) ∧ t₃.findNode 3 = some 2 ∧
            t₃.adoptersOf 2 = .ok [0] ∧ (∃ r, t₃.computeAdoptionScores [0] 2 = .ok r) ∧
              ∃ t, t₃.addSubGraph 0 (childlessText 1) = .ok (t, true) ∧ t.findNode 3 = some 2 ∧
                t.adoptersOf 2 = .ok [0, 4] ∧ (∃ r, t.computeAdoptionScores [0, 4] 2 = .ok r) ∧
                  t.parentOf 2 = some 1 ∧ siblingsBefore t 1 3 = 0 := by
    simp only [addSubGraph, addGraph_childless _ _ (hkids 1 (by simp)),
      addGraph_childless _ _ (hkids 2 (by simp)), addGraph_childless _ _ (hkids 3 (by simp)),
      addGraph_childless _ _ (hkids 4 (by simp))]
    exact ⟨_, rfl, _, rfl, _, rfl, rfl, rfl, ⟨_, rfl⟩, _, rfl, rfl, rfl, ⟨_, rfl⟩, rfl, rfl⟩
  have hreach₃ := (((Reachable.create ['a'] 1 0 false).addSubGraph hadd₁).addSubGraph
    hadd₂).addSubGraph hadd₃
  have hreach := hreach₃.addSubGraph hadd
  have hsorts : Sorts.Permute ⟨id, fun _ _ => id, fun _ _ => id⟩ :=
    ⟨fun _ => .refl _, fun _ _ _ => .refl _, fun _ _ _ => .refl _⟩
  have hscored₃ := (scores_returns_iff hreach₃ (hreach₃.links.live_of_findNode hfind₃).1 hfound₃
    (List.cons_ne_nil _ _)).mp hscores₃
  have hscored := (scores_returns_iff hreach (hreach.links.live_of_findNode hfind).1 hfound
    (List.cons_ne_nil _ _)).mp hscores
  refine ⟨t₃, t, hreach₃, hfound₃, ?_, hadd, hfound, fun ialgorithm => ?_⟩
  · exact (findNewParent_triesEach_iff hreach₃ hsorts hfind₃ hfound₃ [] fun _ _ _ _ => true).2.mpr
      ⟨rfl, hscored₃⟩
  · refine ((findNewParent_triesEach_iff hreach hsorts hfind hfound [] fun _ _ _ _ => true).1
      ialgorithm).mpr (.inr ?_)
    cases ialgorithm with
    | random => trivial
    | wrs => exact hscored
    | sortedRR =>
        refine ⟨hscored, 1, hparent, ?_⟩
        rw [hbefore]
        exact Nat.dvd_zero _

/-- Two adopters, and an orphan with a sibling of a smaller rank. -/
theorem findNewParent_not_triesEach : ∃ t, Reachable t ∧ t.findNode 4 = some 4 ∧
    t.adoptersOf 4 = .ok [0, 1] ∧
    (∀ sorts : Sorts, sorts.Permute → ∀ remembered,
      ¬TriesEach (findNewParent sorts 4 .sortedRR) ⟨t, remembered⟩ [0, 1]) ∧
    ∀ keeps, ¬TriesEach (Lightweight.findNewParent keeps 4 .wrs) t [0, 1] := by
  have hkids (r : Rank) (h : r = 1 ∨ r = 2 ∨ r = 3 ∨ r = 4) :
      SerialGraph.getChildren (childlessText r) = .ok [] := by
    rcases h with rfl | rfl | rfl | rfl <;> rfl
  obtain ⟨t₁, hadd₁, t₂, hadd₂, t₃, hadd₃, t, hadd₄, hfind, hfound, hparent, hbefore⟩ : ∃ t₁,
      (NetworkTopology.create ['a'] 1 0 false).addSubGraph 0 (childlessText 1) = .ok (t₁, true) ∧
        ∃ t₂, t₁.addSubGraph 0 (childlessText 2) = .ok (t₂, true) ∧
          ∃ t₃, t₂.addSubGraph 2 (childlessText 3) = .ok (t₃, true) ∧
            ∃ t, t₃.addSubGraph 2 (childlessText 4) = .ok (t, true) ∧
              t.findNode 4 = some 4 ∧ t.adoptersOf 4 = .ok [0, 1] ∧
                t.parentOf 4 = some 2 ∧ siblingsBefore t 2 4 = 1 := by
    simp only [addSubGraph, addGraph_childless _ _ (hkids 1 (by simp)),
      addGraph_childless _ _ (hkids 2 (by simp)), addGraph_childless _ _ (hkids 3 (by simp)),
      addGraph_childless _ _ (hkids 4 (by simp))]
    exact ⟨_, rfl, _, rfl, _, rfl, _, rfl, rfl, rfl, rfl, rfl⟩
  have hreach := ((((Reachable.create ['a'] 1 0 false).addSubGraph hadd₁).addSubGraph
    hadd₂).addSubGraph hadd₃).addSubGraph hadd₄
  refine ⟨t, hreach, hfind, hfound, fun sorts hsorts remembered htries => ?_, fun keeps htries => ?_⟩
  · rcases (triesEach_iff hreach hsorts hfind hfound).mp htries with hnil | ⟨-, parent, hp, hdvd⟩
    · cases hnil
    · cases hparent.symm.trans hp
      rw [hbefore] at hdvd
      exact absurd hdvd (by decide)
  · have hone := ((lightweight_triesEach_iff hreach hfind hfound keeps).mp htries).1
    cases hone

end MRNet.Topology
