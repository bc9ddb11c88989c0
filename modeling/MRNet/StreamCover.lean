import MRNet.RoutingTable

/-!
# The peers of the streams and the routing table

A stream caches the outlets of its end-points. The cache covers them as long as every call
that changes the outlets of a stream also recomputes its peers.
-/
namespace MRNet.Routing
open Codec StreamPeers MRNet.Topology
open SerialGraph (Text)
open WaitForAll (Rank)

/-- A stream is made, or the topology is changed with the table update enabled. -/
inductive Call where
  | newStream (iid : BitVec 32) (ibackends : Option (List Rank))
  | addSubGraph (irootRank : Rank) (isg : Text)
  | removeNode (ifailedRank : Rank)
  | changeParent (ichildRank inewParentRank : Rank)

/-- The ids of the streams that were made with end-points. A stream takes the place of
another one of its id. -/
def Call.explicit (ids : List (BitVec 32)) : Call → List (BitVec 32)
  | .newStream iid (some _) => iid :: ids
  | .newStream iid none => ids.filter (· ≠ iid)
  | _ => ids

namespace Network

def call (net : Network) : Call → Outcome Network
  | .newStream iid ibackends => return net.newStream iid ibackends
  | .addSubGraph irootRank isg => net.addSubGraph irootRank isg true
  | .removeNode ifailedRank => net.removeNode ifailedRank true
  | .changeParent ichildRank inewParentRank => net.changeParent ichildRank inewParentRank

/-- The topology and the connections that a call leads to, before anything is derived from
them. -/
def reshape (net : Network) : Call → Outcome Network
  | .newStream _ _ => return net
  | .addSubGraph irootRank isg => do
      let (topology, _) ← net.topology.addSubGraph irootRank isg
      return { net with topology := topology }
  | .removeNode ifailedRank => do
      let (topology, _) ← net.topology.removeNode ifailedRank
      return { net.deletePeerNode ifailedRank with topology := topology }
  | .changeParent ichildRank inewParentRank => do
      let (topology, _) ← net.topology.setParent ichildRank inewParentRank
      return { net with topology := topology }

/-- The call does not recompute the peers of the stream. -/
def LeavesAlone (net : Network) (c : Call) (s : Stream) : Prop :=
  s ∈ net.internalStreams ∨
    (s ∈ net.streams ∧ ∃ rc rp, c = .changeParent rc rp ∧ rp ≠ net.localRank)

/-- The call moves no end-point of an open stream that it leaves alone to other children. -/
def Spares (net : Network) (ids : List (BitVec 32)) (c : Call) : Prop :=
  ∀ s, net.LeavesAlone c s → s.id ∈ ids → s.closed = false →
    ∀ after, net.reshape c = .ok after → ∀ peer,
      (∃ e ∈ s.endPoints, after.Leads e peer) ↔ ∃ e ∈ s.endPoints, net.Leads e peer

/-- The peers of a stream are the outlets of its end-points. -/
def Covers (net : Network) (s : Stream) : Prop :=
  ∀ peer, peer ∈ s.peers ↔ ∃ e ∈ s.endPoints, net.getOutletNode e = some peer

/-- All open streams that were made with end-points are covered. -/
def CoversAll (net : Network) (ids : List (BitVec 32)) : Prop :=
  ∀ s, s ∈ net.streams ∨ s ∈ net.internalStreams → s.id ∈ ids → s.closed = false → net.Covers s

end Network

open Network

variable {net net' : Network} {ids : List (BitVec 32)}

lemma recompute_id (f : Rank → Option PeerNode) (s : Stream) :
    (s.recomputeChildrenNodes f).id = s.id := by
  unfold Stream.recomputeChildrenNodes
  split_ifs <;> rfl

lemma removeNode_id (frontEnd recover : Bool) (r : Rank) (s : Stream) :
    (s.removeNode frontEnd recover r).id = s.id := by
  unfold Stream.removeNode
  cases s.closed with
  | true => rfl
  | false =>
      cases s.peers.find? fun peer => peer.rank = r with
      | none => rfl
      | some peer =>
          cases frontEnd && !recover with
          | true => rfl
          | false => rfl

lemma recompute_covers (net : Network) {s : Stream}
    (hopen : (s.recomputeChildrenNodes net.getOutletNode).closed = false) :
    net.Covers (s.recomputeChildrenNodes net.getOutletNode) := by
  unfold Stream.recomputeChildrenNodes at hopen ⊢
  split_ifs at hopen ⊢ with hclosed
  · rw [hclosed] at hopen
    cases hopen
  · exact Stream.mem_outlets net.getOutletNode s.endPoints

/-- A stream stays covered if its outlets stay. -/
lemma Network.Covers.congr {s : Stream} (h : net.Covers s) (htracks : net.Tracks)
    (htracks' : net'.Tracks) (hleads : ∀ peer, (∃ e ∈ s.endPoints, net'.Leads e peer) ↔
      ∃ e ∈ s.endPoints, net.Leads e peer) : net'.Covers s := by
  intro peer
  have hnet := h peer
  simp only [htracks _ peer] at hnet
  simp only [htracks' _ peer]
  rw [hnet, hleads]

/-- The two lists of streams have no id in common. -/
structure Network.Sorted (net : Network) : Prop where
  user : ∀ s ∈ net.streams, isUserStreamId s.id = true
  internal : ∀ s ∈ net.internalStreams, isUserStreamId s.id = false

/-- What every call keeps. -/
structure Network.InStep (net : Network) (ids : List (BitVec 32)) : Prop where
  links : Links net.topology
  tracks : net.Tracks
  sorted : net.Sorted
  covers : net.CoversAll ids

/-- A call that changes the topology keeps this if it rebuilds the table, and if it
recomputes the streams or spares them. -/
lemma inStep_of_call {c : Call} {after : Network} (h : net.InStep ids)
    (hspares : net.Spares ids c) (hreshape : net.reshape c = .ok after)
    (hlinks : Links net'.topology) (htracks : net'.Tracks)
    (hleads : ∀ r peer, net'.Leads r peer ↔ after.Leads r peer)
    (hinternal : net'.internalStreams = net.internalStreams)
    (hstreams : ∀ s ∈ net'.streams, ∃ s₀ ∈ net.streams, s.id = s₀.id ∧
      ((s = s₀ ∧ net.LeavesAlone c s₀) ∨
        ∃ s₁ : Stream, s = s₁.recomputeChildrenNodes net'.getOutletNode)) :
    net'.InStep ids := by
  have halone : ∀ s, s ∈ net.streams ∨ s ∈ net.internalStreams → net.LeavesAlone c s →
      s.id ∈ ids → s.closed = false → net'.Covers s := by
    intro s hs hleft hid hopen
    apply (h.covers s hs hid hopen).congr h.tracks htracks
    intro peer
    simp only [hleads]
    exact hspares s hleft hid hopen after hreshape peer
  refine ⟨hlinks, htracks, ⟨fun s hs => ?_, ?_⟩, fun s hs hid hopen => ?_⟩
  · obtain ⟨s₀, hs₀, hid, -⟩ := hstreams s hs
    rw [hid]
    exact h.sorted.user s₀ hs₀
  · rw [hinternal]
    exact h.sorted.internal
  · rcases hs with hs | hs
    · obtain ⟨s₀, hs₀, -, ⟨rfl, hleft⟩ | ⟨s₁, rfl⟩⟩ := hstreams s hs
      · exact halone s (.inl hs₀) hleft hid hopen
      · exact recompute_covers net' hopen
    · rw [hinternal] at hs
      exact halone s (.inr hs) (.inl hs) hid hopen

lemma makeStream_covers (net : Network) (iid : BitVec 32) (backends : List Rank) :
    net.Covers (net.makeStream iid (some backends)) := by
  unfold Network.makeStream
  dsimp only
  split_ifs
  · exact recompute_covers net rfl
  · intro peer
    simp

lemma makeStream_id (net : Network) (iid : BitVec 32) (ibackends : Option (List Rank)) :
    (net.makeStream iid ibackends).id = iid := by
  unfold Network.makeStream
  dsimp only
  split_ifs
  · cases ibackends with
    | none => rfl
    | some backends => exact recompute_id _ _
  · rfl

lemma newStream_sorted (h : net.Sorted) (iid : BitVec 32) (ibackends : Option (List Rank)) :
    (net.newStream iid ibackends).Sorted := by
  unfold Network.newStream
  dsimp only
  split_ifs with huser
  · refine ⟨fun s hs => ?_, h.internal⟩
    rcases List.mem_append.mp hs with hs | hs
    · exact h.user s (List.mem_filter.mp hs).1
    · rw [List.mem_singleton.mp hs, makeStream_id]
      exact huser
  · refine ⟨h.user, fun s hs => ?_⟩
    rcases List.mem_append.mp hs with hs | hs
    · exact h.internal s (List.mem_filter.mp hs).1
    · rw [List.mem_singleton.mp hs, makeStream_id]
      simpa using huser

/-- A stream after `new_Stream` is the new one, or an old one of another id. -/
lemma newStream_streams (h : net.Sorted) {iid : BitVec 32} {ibackends : Option (List Rank)}
    {s : Stream} (hs : s ∈ (net.newStream iid ibackends).streams ∨
      s ∈ (net.newStream iid ibackends).internalStreams) :
    s = net.makeStream iid ibackends ∨
      ((s ∈ net.streams ∨ s ∈ net.internalStreams) ∧ s.id ≠ iid) := by
  unfold Network.newStream at hs
  dsimp only at hs
  split_ifs at hs with huser
  · rcases hs with hs | hs
    · rcases List.mem_append.mp hs with hs | hs
      · obtain ⟨hs, hne⟩ := List.mem_filter.mp hs
        exact .inr ⟨.inl hs, by simpa using hne⟩
      · exact .inl (List.mem_singleton.mp hs)
    · refine .inr ⟨.inr hs, fun hid => ?_⟩
      rw [← hid, h.internal s hs] at huser
      cases huser
  · rcases hs with hs | hs
    · refine .inr ⟨.inl hs, fun hid => ?_⟩
      rw [← hid, h.user s hs] at huser
      exact huser rfl
    · rcases List.mem_append.mp hs with hs | hs
      · obtain ⟨hs, hne⟩ := List.mem_filter.mp hs
        exact .inr ⟨.inr hs, by simpa using hne⟩
      · exact .inl (List.mem_singleton.mp hs)

lemma newStream_same (net : Network) (iid : BitVec 32) (ibackends : Option (List Rank)) :
    SameRouting net (net.newStream iid ibackends) := by
  unfold Network.newStream
  dsimp only
  split_ifs <;> exact ⟨rfl, rfl, rfl, rfl, rfl, rfl, rfl⟩

lemma newStream_inStep (h : net.InStep ids) (iid : BitVec 32) (ibackends : Option (List Rank)) :
    (net.newStream iid ibackends).InStep (Call.explicit ids (.newStream iid ibackends)) := by
  have hsame := newStream_same net iid ibackends
  have hcovers : ∀ s, net.Covers s → (net.newStream iid ibackends).Covers s := by
    intro s hs peer
    rw [hs peer]
    unfold Network.getOutletNode
    rw [hsame.table]
  refine ⟨by rw [hsame.topology]; exact h.links, hsame.tracks h.tracks,
    newStream_sorted h.sorted iid ibackends, fun s hs hid hopen => hcovers s ?_⟩
  rcases newStream_streams h.sorted hs with rfl | ⟨hs, hne⟩
  · rw [makeStream_id] at hid
    cases ibackends with
    | none => simp [Call.explicit] at hid
    | some backends => exact makeStream_covers net iid backends
  · refine h.covers s hs ?_ hopen
    cases ibackends with
    | none =>
        rw [Call.explicit, List.mem_filter] at hid
        exact hid.1
    | some backends =>
        rw [Call.explicit, List.mem_cons] at hid
        exact hid.resolve_left hne

lemma addSubGraph_notFound {t t' : NetworkTopology} {r : Rank} {isg : Text}
    (h : t.addSubGraph r isg = .ok (t', false)) : t' = t := by
  unfold NetworkTopology.addSubGraph at h
  cases hnode : t.findNode r with
  | none =>
      rw [hnode] at h
      cases h
      rfl
  | some node =>
      rw [hnode] at h
      obtain ⟨t₁, -, hres⟩ := bind_ok_iff.mp h
      cases hres

lemma addSubGraph_inStep (h : net.InStep ids) {r : Rank} {isg : Text}
    (hspares : net.Spares ids (.addSubGraph r isg))
    (hcall : net.addSubGraph r isg true = .ok net') : net'.InStep ids := by
  obtain ⟨⟨t, found⟩, hadd, hcall⟩ := bind_ok_iff.mp hcall
  have hlinks : Links t := h.links.addSubGraph hadd
  cases found with
  | false =>
      cases hcall
      rw [addSubGraph_notFound hadd]
      exact h
  | true =>
      obtain ⟨net₁, hupdate, hres⟩ := bind_ok_iff.mp hcall
      cases hres
      have htracks : net₁.Tracks := updateTable_tracks hlinks hupdate
      obtain ⟨table, heq⟩ : ∃ table, net₁ = { net with topology := t, table := table } :=
        ⟨_, updateRouterTable_eq hupdate⟩
      subst heq
      apply inStep_of_call h hspares (bind_ok_iff.mpr ⟨_, hadd, rfl⟩)
      · exact hlinks
      · exact (sameRouting_updateStreams _).tracks htracks
      · exact fun r peer => Iff.rfl
      · rfl
      · intro s hs
        obtain ⟨s₀, hs₀, rfl⟩ := List.mem_map.mp hs
        exact ⟨s₀, hs₀, recompute_id _ _, .inr ⟨s₀, rfl⟩⟩

lemma removeNode_inStep (h : net.InStep ids) {r : Rank}
    (hspares : net.Spares ids (.removeNode r)) (hcall : net.removeNode r true = .ok net') :
    net'.InStep ids := by
  obtain ⟨parent, children, hdelete⟩ := deletePeerNode_eq net r
  obtain ⟨⟨t, found⟩, hremove, hcall⟩ := bind_ok_iff.mp hcall
  obtain ⟨net₁, hupdate, hres⟩ := bind_ok_iff.mp hcall
  cases hres
  rw [Bool.and_true] at hupdate
  have hremove' : net.topology.removeNode r = .ok (t, found) := by
    rw [hdelete] at hremove
    exact hremove
  have htracks := removedHere_tracks h.links h.tracks hremove' hupdate
  have hreshape : net.reshape (.removeNode r) =
      .ok { net.deletePeerNode r with topology := t } :=
    bind_ok_iff.mpr ⟨_, hremove', rfl⟩
  rw [hdelete] at hupdate hreshape
  obtain ⟨table, heq⟩ : ∃ table, net₁ =
      { net with parent := parent, children := children, topology := t, table := table } :=
    ⟨_, updateRouterTable_eq hupdate⟩
  subst heq
  apply inStep_of_call h hspares hreshape
  · exact h.links.removeNode hremove'
  · exact SameRouting.tracks ⟨rfl, rfl, rfl, rfl, rfl, rfl, rfl⟩ htracks
  · exact fun r peer => Iff.rfl
  · rfl
  · intro s hs
    obtain ⟨s₁, hs₁, rfl⟩ := List.mem_map.mp hs
    obtain ⟨s₀, hs₀, rfl⟩ := List.mem_map.mp hs₁
    exact ⟨s₀, hs₀, (recompute_id _ _).trans (removeNode_id _ _ _ _), .inr ⟨_, rfl⟩⟩

lemma changeParent_inStep (h : net.InStep ids) {rc rp : Rank}
    (hspares : net.Spares ids (.changeParent rc rp)) (hcall : net.changeParent rc rp = .ok net') :
    net'.InStep ids := by
  obtain ⟨⟨t, result⟩, hset, hcall⟩ := bind_ok_iff.mp hcall
  obtain ⟨net₁, hupdate, hres⟩ := bind_ok_iff.mp hcall
  cases hres
  have hlinks : Links t := h.links.setParent hset
  have htracks := reparented_tracks h.links h.tracks hset hupdate
  have hreshape : net.reshape (.changeParent rc rp) = .ok { net with topology := t } :=
    bind_ok_iff.mpr ⟨_, hset, rfl⟩
  by_cases hfound : result = .notFound
  · -- Nothing has been changed.
    subst hfound
    cases hupdate
    rcases setParent_spec h.links hset with ⟨-, rfl, -⟩ | ⟨hmoved, -⟩
    · exact h
    · cases hmoved
  · obtain ⟨table, heq⟩ : ∃ table, net₁ = { net with topology := t, table := table } :=
      ⟨_, updateRouterTable_eq hupdate⟩
    subst heq
    apply inStep_of_call h hspares hreshape
    · split_ifs <;> exact hlinks
    · split_ifs
      · exact (sameRouting_updateStreams _).tracks htracks
      · exact htracks
    · split_ifs <;> exact fun r peer => Iff.rfl
    · split_ifs <;> rfl
    · split_ifs with hlocal
      · intro s hs
        obtain ⟨s₀, hs₀, rfl⟩ := List.mem_map.mp hs
        exact ⟨s₀, hs₀, recompute_id _ _, .inr ⟨s₀, rfl⟩⟩
      · intro s hs
        have hother : rp ≠ net.localRank := fun he => hlocal ⟨hfound, he⟩
        exact ⟨s, hs, rfl, .inl ⟨rfl, .inr ⟨hs, rc, rp, rfl, hother⟩⟩⟩

/-- The states that calls which spare the streams lead to, with the ids of the streams that
were made with end-points. -/
inductive Reached (start : Network) : Network → List (BitVec 32) → Prop
  | start : Reached start start []
  | call {net net' : Network} {ids : List (BitVec 32)} (hreached : Reached start net ids)
      {c : Call} (hspares : net.Spares ids c) (hcall : net.call c = .ok net') :
      Reached start net' (c.explicit ids)

/-- The peers of every open stream that was made with end-points are the outlets of its
end-points. -/
theorem reached_covers {start : Network} (hlinks : Links start.topology) (htracks : start.Tracks)
    (hnone : start.streams = [] ∧ start.internalStreams = []) (h : Reached start net ids) :
    net.CoversAll ids := by
  have hinStep : net.InStep ids := by
    induction h with
    | start =>
        refine ⟨hlinks, htracks, ⟨?_, ?_⟩, ?_⟩
        · simp [hnone.1]
        · simp [hnone.2]
        · intro s hs hid
          cases hid
    | @call net net' ids _ c hspares hcall ih =>
        cases c with
        | newStream iid ibackends =>
            cases hcall
            exact newStream_inStep ih iid ibackends
        | addSubGraph r isg => exact addSubGraph_inStep ih hspares hcall
        | removeNode r => exact removeNode_inStep ih hspares hcall
        | changeParent rc rp => exact changeParent_inStep ih hspares hcall
  exact hinStep.covers

/-- A front-end with connections to the ranks 1 and 3. -/
def forkedFrontEnd : Network := { startedFrontEnd with children := [⟨1, 0⟩, ⟨3, 1⟩] }

/-- The back-end 2 is below the rank 1. -/
def forkedNodes : List Update :=
  [⟨.newCP, 0, 1, ['b'], 2⟩, ⟨.newCP, 0, 3, ['d'], 2⟩, ⟨.newBE, 1, 2, ['c'], 0⟩]

lemma forkedFrontEnd_links : Links forkedFrontEnd.topology := startedFrontEnd_links

lemma forkedFrontEnd_tracks : forkedFrontEnd.Tracks :=
  updateTable_tracks forkedFrontEnd_links (rfl : forkedFrontEnd.updateTable = .ok forkedFrontEnd)

/-- The back-end fails at the front-end, and the stream to it has no peers left. -/
theorem reached_covers_removed :
    ∃ start net : Network, Reached start net [userStrmBaseId] ∧
      (net.streams.map Stream.endPoints = [[2]] ∧ net.streams.map Stream.peers = [[]]) ∧
      net.CoversAll [userStrmBaseId] := by
  obtain ⟨start, net₁, net, hstart, hnew, hremove, hstreams, hnone⟩ : ∃ start net₁ net,
      forkedFrontEnd.tfilterTopoUpdateCommon true forkedNodes = .ok start ∧
        start.call (.newStream userStrmBaseId (some [2])) = .ok net₁ ∧
        net₁.call (.removeNode 2) = .ok net ∧
        (net.streams.map Stream.endPoints = [[2]] ∧ net.streams.map Stream.peers = [[]]) ∧
        start.streams = [] ∧ start.internalStreams = [] ∧ net₁.internalStreams = [] :=
    ⟨_, _, _, rfl, rfl, rfl, ⟨rfl, rfl⟩, rfl, rfl, rfl⟩
  have hlinks := tfilterTopoUpdateCommon_links forkedFrontEnd_links hstart
  have htracks := tfilterTopoUpdateCommon_tracks forkedFrontEnd_links forkedFrontEnd_tracks
    (.inl rfl) hstart
  have hreached : Reached start net [userStrmBaseId] := by
    apply Reached.call (Reached.call Reached.start _ hnew) _ hremove
    · rintro s (hs | ⟨hs, -⟩)
      · rw [hnone.2.1] at hs
        cases hs
      · rw [hnone.1] at hs
        cases hs
    · rintro s (hs | ⟨-, rc, rp, hc, -⟩)
      · rw [hnone.2.2] at hs
        cases hs
      · cases hc
  exact ⟨start, net, hreached, hstreams,
    reached_covers hlinks htracks ⟨hnone.1, hnone.2.1⟩ hreached⟩

/-- The back-end moves from one child of the front-end to the other. The stream keeps the
first one as its peer. -/
theorem moved_end_point_uncovered :
    ∃ start net net' : Network, Links start.topology ∧ start.Tracks ∧
      (start.streams = [] ∧ start.internalStreams = []) ∧
      start.call (.newStream userStrmBaseId (some [2])) = .ok net ∧
      net.call (.changeParent 2 3) = .ok net' ∧ ¬net'.CoversAll [userStrmBaseId] := by
  obtain ⟨start, net, net', hstart, hnew, hmove, hstreams, hnone, houtlet⟩ : ∃ start net net',
      forkedFrontEnd.tfilterTopoUpdateCommon true forkedNodes = .ok start ∧
        start.call (.newStream userStrmBaseId (some [2])) = .ok net ∧
        net.call (.changeParent 2 3) = .ok net' ∧
        net'.streams = [⟨userStrmBaseId, [2], [⟨1, 0⟩], false⟩] ∧
        (start.streams = [] ∧ start.internalStreams = []) ∧
        net'.getOutletNode 2 = some ⟨3, 1⟩ :=
    ⟨_, _, _, rfl, rfl, rfl, rfl, ⟨rfl, rfl⟩, rfl⟩
  have hlinks := tfilterTopoUpdateCommon_links forkedFrontEnd_links hstart
  have htracks := tfilterTopoUpdateCommon_tracks forkedFrontEnd_links forkedFrontEnd_tracks
    (.inl rfl) hstart
  refine ⟨start, net, net', hlinks, htracks, hnone, hnew, hmove, fun hcovers => ?_⟩
  have hmem : (⟨userStrmBaseId, [2], [⟨1, 0⟩], false⟩ : Stream) ∈ net'.streams := by
    rw [hstreams]
    exact List.mem_singleton_self _
  obtain ⟨e, he, hout⟩ :=
    (hcovers _ (.inl hmem) (List.mem_singleton_self _) rfl ⟨1, 0⟩).mp (List.mem_singleton_self _)
  rw [List.mem_singleton.mp he, houtlet] at hout
  cases hout

end MRNet.Routing
