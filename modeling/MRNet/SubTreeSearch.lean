import MRNet.LightweightGraph

/-!
# Subtrees by host name and rank

The key that `get_MySubTree` seeks is a bracket and the host name, without the colon behind it.
If the ranks differ then the node of the rank is found where the text goes on with the given
name, which need not be its whole name, and may be more than it.
-/
namespace MRNet.SerialGraph
open Codec
open WaitForAll (Rank)

/-- No rank is given to two nodes. -/
def Graph.DistinctRanks (g : Graph) : Prop := (g.subgraphs.map Graph.rank).Nodup

/-- The text of the node with a host name and a rank is returned, and nothing without one. -/
structure Extracts (g : Graph) (hostName : Text) (rank : Rank) (r : Outcome (Option Text)) :
    Prop where
  found : ∀ s ∈ g.subgraphs, s.hostName = hostName → s.rank = rank → r = .ok (some s.text)
  missing : (∀ s ∈ g.subgraphs, s.hostName = hostName → s.rank ≠ rank) → r = .ok none

variable {g s : Graph} {hostName : Text} {rank : Rank}

lemma Graph.DistinctRanks.unique (h : g.DistinctRanks) {s' : Graph} (hs : s ∈ g.subgraphs)
    (hs' : s' ∈ g.subgraphs) (hrank : s.rank = s'.rank) : s = s' :=
  List.inj_on_of_nodup_map h hs hs' hrank

lemma Graph.DistinctRanks.place_unique (h : g.DistinctRanks) {p p' : Graph × Text}
    (hp : p ∈ g.places []) (hp' : p' ∈ g.places []) (hrank : p.1.rank = p'.1.rank) : p = p' := by
  have hnodup : ((g.places []).map fun p => p.1.rank).Nodup := by
    rw [DistinctRanks, ← g.map_fst_places [], List.map_map] at h
    exact h
  exact List.inj_on_of_nodup_map hnodup hp hp' hrank

/-- The search can answer with one node only. -/
lemma find?_reached (h : g.DistinctRanks) {p : Graph × Text} (hp : p ∈ g.places [])
    (hrank : p.1.rank = rank) : (g.places []).find? (reached hostName rank) =
      if hostName <+: p.1.body ++ p.2 then some p else none := by
  split_ifs with hpre
  · cases hfound : (g.places []).find? (reached hostName rank) with
    | none => exact absurd (reached_iff.mpr ⟨hpre, hrank⟩) (List.find?_eq_none.mp hfound p hp)
    | some p' =>
        have hp' := reached_iff.mp (List.find?_some hfound)
        rw [h.place_unique (List.mem_of_find?_eq_some hfound) hp (hp'.2.trans hrank.symm)]
  · rw [List.find?_eq_none]
    intro p' hp' hreached
    obtain ⟨hpre', hrank'⟩ := reached_iff.mp hreached
    exact hpre (h.place_unique hp' hp (hrank'.trans hrank.symm) ▸ hpre')

/-- When the right subtree is extracted: from the node with the rank on, if there is one, the
text goes on with the given name only if that is the name of the node. -/
theorem getMySubTree_extracts_iff (h : g.IsLegible) (hdistinct : g.DistinctRanks) (hostName : Text)
    (port : Port) (rank : Rank) :
    Extracts g hostName rank (getMySubTree g.text hostName port rank) ↔
      ∀ p ∈ g.places [], p.1.rank = rank → hostName <+: p.1.body ++ p.2 →
        p.1.hostName = hostName := by
  rw [getMySubTree_places h]
  constructor
  · intro hextracts p hp hrank hpre
    by_contra hne
    have hmissing := hextracts.missing fun s hs hname hrank' =>
      hne (hdistinct.unique (mem_subgraphs_of_place hp) hs (hrank.trans hrank'.symm) ▸ hname)
    rw [find?_reached hdistinct hp hrank, if_pos hpre] at hmissing
    cases hmissing
  · intro hexact
    refine ⟨fun s hs hname hrank => ?_, fun hnone => ?_⟩
    · rw [← g.map_fst_places []] at hs
      obtain ⟨p, hp, rfl⟩ := List.mem_map.mp hs
      have hpre : hostName <+: p.1.body ++ p.2 := by
        rw [body_eq, hname]
        exact List.prefix_append _ _
      rw [find?_reached hdistinct hp hrank, if_pos hpre]
      rfl
    · rw [List.find?_eq_none.mpr]
      · rfl
      · intro p hp hreached
        obtain ⟨hpre, hrank⟩ := reached_iff.mp hreached
        exact hnone p.1 (mem_subgraphs_of_place hp) (hexact p hp hrank hpre) hrank

lemma sampleGraph_distinctRanks : sampleGraph.DistinctRanks := by
  rw [Graph.DistinctRanks, subgraphs_sampleGraph]
  decide

/-- The back-end of a small graph is extracted. -/
theorem getMySubTree_extracts_sample :
    Extracts sampleGraph ['b'] 1 (getMySubTree sampleGraph.text ['b'] 9 1) := by
  refine (getMySubTree_extracts_iff sampleGraph_isLegible sampleGraph_distinctRanks ['b'] 9 1).mpr
    fun p hp hrank _ => ?_
  have hs := mem_subgraphs_of_place hp
  rw [subgraphs_sampleGraph] at hs
  rcases List.mem_cons.mp hs with heq | hs
  · rw [heq] at hrank
    cases hrank
  · rw [List.mem_singleton.mp hs]

/-- A root with one back-end on a host with a longer name. -/
def longNamedGraph : Graph := ⟨['a'], 1, 0, false, [⟨['b', '1', '0'], 2, 1, true, []⟩]⟩

/-- The back-end on `b10` is extracted for the host name `b1`. -/
theorem getMySubTree_not_extracts : longNamedGraph.IsLegible ∧ longNamedGraph.DistinctRanks ∧
    ¬Extracts longNamedGraph ['b', '1'] 1 (getMySubTree longNamedGraph.text ['b', '1'] 2 1) := by
  have hsub : longNamedGraph.subgraphs =
      [longNamedGraph, ⟨['b', '1', '0'], 2, 1, true, []⟩] := by
    simp [Graph.subgraphs_eq, longNamedGraph]
  have hlegible : longNamedGraph.IsLegible := by
    intro s hs
    rw [hsub] at hs
    rcases List.mem_cons.mp hs with rfl | hs
    · exact ⟨by decide, by decide, by decide⟩
    · cases List.mem_singleton.mp hs
      exact ⟨by decide, by decide, by decide⟩
  refine ⟨hlegible, ?_, fun hextracts => ?_⟩
  · rw [Graph.DistinctRanks, hsub]
    decide
  · have hmissing := hextracts.missing fun s hs hname => by
      rw [hsub] at hs
      rcases List.mem_cons.mp hs with rfl | hs
      · cases hname
      · cases List.mem_singleton.mp hs
        cases hname
    rw [getMySubTree_text hlegible (by decide), hsub] at hmissing
    cases hmissing

end MRNet.SerialGraph
