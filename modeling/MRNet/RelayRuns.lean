import MRNet.TopologyRelay

/-!
# Runs of the relay

The topology has been sent to a host if and only if the parent of the first process on it has come
to this child, unless they share the host. The other processes of the host are started after that,
one after another.
-/
namespace MRNet.XTNetwork
open SerialGraph (Graph Text Port)
open WaitForAll (Rank)
open Interleavings

/-- The topology is on its way to the host, or has arrived. -/
def HostState.sent (x : HostState) : Prop := x.connections ≠ [] ∨ x.phase = .closed

/-- The states of the first process of a host. -/
inductive HostFits (t : Topology) (host : Text) : HostState → Prop
  | absent (h : ∀ x ∈ visits t.graph, x.hostName ≠ host) : HostFits t host ⟨.absent, []⟩
  | launched (h : host ∈ t.processHosts) : HostFits t host ⟨.launched, []⟩
  | listening (h : host ∈ t.processHosts) : HostFits t host ⟨.listening, []⟩
  | sent {f : Graph} (hf : IsClosest t.graph f) (hhost : f.hostName = host) :
      HostFits t host ⟨.listening, [f.rank]⟩
  | closed : HostFits t host ⟨.closed, []⟩
  | timedOut (h : host ∈ t.processHosts) : HostFits t host ⟨.timedOut, []⟩

/-- The process is connected to the parent that the topology gives it, or it gave up. -/
def Attached (t : Topology) (x : Graph) (gaveUp : List Rank) (parent : Option Rank) : Prop :=
  (parent = none ∧ x.rank ∈ gaveUp) ∨ ∀ q ∈ t.graph.subgraphs, x ∈ q.children → parent = some q.rank

/-- The data of a process at its position. -/
inductive Fits (t : Topology) (x : Graph) (gaveUp : List Rank) (parent : Option Rank) : Phase → Prop
  | absent (hnone : parent = none) : Fits t x gaveUp parent .absent
  | spawning {pos : TopologyPosition} {todo : List TopologyPosition} (hclosest : IsClosest t.graph x)
      (hpos : pos ∈ positions t.graph) (hsub : pos.subtree = x)
      (htodo : todo <:+ findColocatedProcesses x.hostName x.rank t.graph) (hnone : parent = none) :
      Fits t x gaveUp parent (.spawning pos todo)
  | connecting {pos : TopologyPosition} (hpos : pos ∈ positions t.graph) (hsub : pos.subtree = x)
      (hnone : parent = none) : Fits t x gaveUp parent (.connecting (t.kindOf x) pos)
  | propagating {hostsSeen : List Text} {todo : List Graph} (front : List Graph)
      (hinternal : x.isBackEnd = false) (hsplit : x.children = front ++ todo)
      (hseen : ∀ host ∈ hostsSeen, host = x.hostName ∨ ∃ d ∈ front, d.hostName = host)
      (hself : x.hostName ∈ hostsSeen) (hparent : Attached t x gaveUp parent) :
      Fits t x gaveUp parent (.propagating hostsSeen todo)
  | started (hparent : Attached t x gaveUp parent) : Fits t x gaveUp parent (.started (t.kindOf x))
  | exited {todo : List Graph} (hgaveUp : x.rank ∈ gaveUp) : Fits t x gaveUp parent (.exited todo)

/-- The process has come to its children. -/
def Phase.joined : Phase → Bool
  | .propagating _ _ | .started .commNode | .exited _ => true
  | _ => false

structure Invariant (t : Topology) (s : State) : Prop where
  hosts : ∀ host, HostFits t host (s.hosts host)
  known : ∀ rank, s.procs rank ≠ .absent → ∃ x ∈ t.graph.subgraphs, x.rank = rank
  fits : ∀ x ∈ t.graph.subgraphs, Fits t x s.gaveUp (s.parents x.rank) (s.procs x.rank)
  root : (s.procs t.graph.rank).joined = true
  sent : ∀ q ∈ t.graph.subgraphs, ∀ c ∈ q.children, IsClosest t.graph c →
    ((s.hosts c.hostName).sent ↔ c ∉ (s.procs q.rank).ahead q ∧ q.hostName ≠ c.hostName)
  absent : ∀ f ∈ visits t.graph, ∀ x ∈ visits t.graph, IsClosest t.graph f →
    f.hostName = x.hostName → (s.procs x.rank = .absent ↔
      (s.hosts x.hostName).phase ≠ .closed ∨ x.rank ∈ (s.procs f.rank).unspawned)
  spawned : ∀ rank, rank ∈ s.spawned ↔
    ∃ x ∈ visits t.graph, x.rank = rank ∧ s.procs rank ≠ .absent
  nodup : s.spawned.Nodup

variable {t : Topology} {s s' : State} {x y : Graph}

namespace Topology

lemma rank_ne (hx : x ∈ t.graph.subgraphs) (hy : y ∈ t.graph.subgraphs) (hne : y ≠ x) :
    y.rank ≠ x.rank :=
  fun hrank => hne (t.distinct.unique hy hx hrank)

lemma below_of_visited (hx : x ∈ visits t.graph) : x ∈ t.graph.subgraphs :=
  visits_subset t.leafBackEnds hx

lemma root_not_visited : t.graph ∉ visits t.graph :=
  (List.nodup_cons.mp (nodup_visits t.leafBackEnds t.distinct)).1

lemma root_attached (gaveUp : List Rank) (parent : Option Rank) :
    Attached t t.graph gaveUp parent :=
  .inr fun _ hq hroot => absurd (child_mem_visits t.leafBackEnds hq hroot) t.root_not_visited

/-- The positions are those of the nodes that are visited. -/
lemma visits_perm_positions :
    ((positions t.graph).map TopologyPosition.subtree).Perm (visits t.graph) := by
  have hperm := visits_perm t.leafBackEnds
  rw [← positions_subtree t.leafBackEnds] at hperm
  exact (hperm.cons_inv).symm

lemma exists_position (hx : x ∈ visits t.graph) : ∃ p ∈ positions t.graph, p.subtree = x :=
  List.mem_map.mp (t.visits_perm_positions.mem_iff.mpr hx)

lemma subtree_visited {p : TopologyPosition} (hp : p ∈ positions t.graph) :
    p.subtree ∈ visits t.graph :=
  t.visits_perm_positions.mem_iff.mp (List.mem_map_of_mem hp)

lemma mem_processHosts (hx : x ∈ visits t.graph) : x.hostName ∈ t.processHosts := by
  obtain ⟨p, hp, rfl⟩ := t.exists_position hx
  rw [← (positions_fields t.leafBackEnds hp).1]
  exact List.mem_map_of_mem hp

lemma kindOf_internal (h : x.isBackEnd = false) : t.kindOf x = .commNode := by
  rw [kindOf, if_neg]
  rw [h]
  exact fun hand => Bool.false_ne_true hand.1

/-- The process finds its position. -/
lemma findPosition {p : TopologyPosition} (hp : p ∈ positions t.graph) :
    findPositionInTopology p.subtree.hostName p.subtree.rank none t.graph = some p := by
  obtain ⟨hhost, hrank⟩ := positions_fields t.leafBackEnds hp
  rw [← hhost, ← hrank]
  exact findPositionInTopology_found (nodup_positions t.leafBackEnds t.distinct) hp

/-- The positions of the other processes of a host. -/
lemma mem_colocated {p : TopologyPosition} :
    p ∈ findColocatedProcesses x.hostName x.rank t.graph ↔
      p ∈ positions t.graph ∧ p.subtree.hostName = x.hostName ∧ p.subtree.rank ≠ x.rank := by
  rw [findColocatedProcesses_eq, List.mem_filter, decide_eq_true_iff]
  refine and_congr_right fun hp => ?_
  rw [(positions_fields t.leafBackEnds hp).1, (positions_fields t.leafBackEnds hp).2]

lemma nodup_colocated :
    ((findColocatedProcesses x.hostName x.rank t.graph).map TopologyPosition.myRank).Nodup := by
  rw [findColocatedProcesses_eq]
  exact (nodup_positions t.leafBackEnds t.distinct).sublist (List.filter_sublist.map _)

lemma mem_unspawned_colocated (hy : y ∈ visits t.graph) (hhost : y.hostName = x.hostName) :
    y.rank ∈ (findColocatedProcesses x.hostName x.rank t.graph).map TopologyPosition.myRank ↔
      y.rank ≠ x.rank := by
  rw [List.mem_map]
  constructor
  · rintro ⟨p, hp, hrank⟩
    obtain ⟨hpos, -, hne⟩ := t.mem_colocated.mp hp
    rwa [← hrank, (positions_fields t.leafBackEnds hpos).2]
  · intro hne
    obtain ⟨p, hp, rfl⟩ := t.exists_position hy
    exact ⟨p, t.mem_colocated.mpr ⟨hp, hhost, hne⟩, (positions_fields t.leafBackEnds hp).2⟩

end Topology

lemma Attached.mono {gaveUp gaveUp' : List Rank} (hsub : gaveUp ⊆ gaveUp') {parent : Option Rank}
    (h : Attached t x gaveUp parent) : Attached t x gaveUp' parent :=
  h.imp_left fun hnone => ⟨hnone.1, hsub hnone.2⟩

lemma Fits.mono {gaveUp gaveUp' : List Rank} (hsub : gaveUp ⊆ gaveUp') {parent : Option Rank}
    {phase : Phase} (h : Fits t x gaveUp parent phase) : Fits t x gaveUp' parent phase := by
  cases h with
  | absent hnone => exact .absent hnone
  | spawning hclosest hpos hsub htodo hnone => exact .spawning hclosest hpos hsub htodo hnone
  | connecting hpos hsub hnone => exact .connecting hpos hsub hnone
  | propagating front hinternal hsplit hseen hself hparent =>
      exact .propagating front hinternal hsplit hseen hself (hparent.mono hsub)
  | started hparent => exact .started (hparent.mono hsub)
  | exited hgaveUp => exact .exited (hsub hgaveUp)

lemma invariant_initial (t : Topology) : Invariant t (State.initial t) where
  hosts := by
    intro host
    dsimp only [State.initial]
    split_ifs with hhost
    · exact .launched (any_host_iff.mp hhost)
    · exact .absent fun x hx heq => hhost (any_host_iff.mpr (heq ▸ t.mem_processHosts hx))
  known := by
    intro rank hrank
    dsimp only [State.initial] at hrank
    by_contra hnone
    refine hrank (if_neg ?_)
    rintro rfl
    exact hnone ⟨t.graph, root_mem _, rfl⟩
  fits := by
    intro x hx
    dsimp only [State.initial]
    by_cases hroot : x = t.graph
    · subst hroot
      rw [if_pos rfl]
      refine .propagating [] t.root_internal rfl ?_ List.mem_cons_self
        (t.root_attached _ _)
      exact fun host hhost => .inl (List.mem_singleton.mp hhost)
    · rw [if_neg (Topology.rank_ne (root_mem _) hx hroot)]
      exact .absent rfl
  root := by
    dsimp only [State.initial]
    rw [if_pos rfl]
    rfl
  sent := by
    intro q hq c hc _
    have hahead : c ∈ ((State.initial t).procs q.rank).ahead q := by
      dsimp only [State.initial]
      by_cases hroot : q = t.graph
      · subst hroot
        rw [if_pos rfl]
        exact hc
      · rw [if_neg (Topology.rank_ne (root_mem _) hq hroot)]
        exact hc
    refine iff_of_false ?_ fun hand => hand.1 hahead
    dsimp only [HostState.sent, State.initial]
    split_ifs <;> rintro (h | h) <;> first | exact h rfl | cases h
  absent := by
    intro f _ x hx _ _
    have hne : x ≠ t.graph := fun heq => t.root_not_visited (heq ▸ hx)
    refine iff_of_true ?_ (.inl ?_)
    · exact if_neg (Topology.rank_ne (root_mem _) (Topology.below_of_visited hx) hne)
    · dsimp only [State.initial]
      split_ifs <;> exact fun h => by cases h
  spawned := by
    intro rank
    refine iff_of_false List.not_mem_nil ?_
    rintro ⟨x, hx, rfl, hne⟩
    have hroot : x ≠ t.graph := fun heq => t.root_not_visited (heq ▸ hx)
    exact hne (if_neg (Topology.rank_ne (root_mem _) (Topology.below_of_visited hx) hroot))
  nodup := List.nodup_nil

lemma procs_self (s : State) (rank : Rank) (phase : Phase) :
    (s.setProc rank phase).procs rank = phase :=
  Function.update_self ..

lemma procs_ne (s : State) {rank rank' : Rank} (phase : Phase) (h : rank' ≠ rank) :
    (s.setProc rank phase).procs rank' = s.procs rank' :=
  Function.update_of_ne h ..

/-- A process goes on, and no topology socket is closed. -/
lemma Invariant.advances (inv : Invariant t s) (hx : x ∈ t.graph.subgraphs) {phase : Phase}
    {hosts : Text → HostState} {parents : Rank → Option Rank} {gaveUp : List Rank}
    (hgaveUp : s.gaveUp ⊆ gaveUp) (hhosts : ∀ host, HostFits t host (hosts host))
    (hclosed : ∀ host, (hosts host).phase = .closed ↔ (s.hosts host).phase = .closed)
    (hparents : ∀ rank, rank ≠ x.rank → parents rank = s.parents rank)
    (hfits : Fits t x gaveUp (parents x.rank) phase)
    (hpresent : s.procs x.rank ≠ .absent) (hpresent' : phase ≠ .absent)
    (hjoined : (s.procs x.rank).joined = true → phase.joined = true)
    (hunspawned : phase.unspawned = (s.procs x.rank).unspawned)
    (hsent : ∀ q ∈ t.graph.subgraphs, ∀ c ∈ q.children, IsClosest t.graph c →
      ((hosts c.hostName).sent ↔
        c ∉ ((s.setProc x.rank phase).procs q.rank).ahead q ∧ q.hostName ≠ c.hostName)) :
    Invariant t ⟨hosts, (s.setProc x.rank phase).procs, parents, s.spawned, gaveUp⟩ where
  hosts := hhosts
  known := by
    intro rank hrank
    by_cases heq : rank = x.rank
    · exact ⟨x, hx, heq.symm⟩
    · exact inv.known rank (procs_ne s phase heq ▸ hrank)
  fits := by
    intro y hy
    by_cases hyx : y = x
    · subst hyx
      change Fits t y gaveUp (parents y.rank) ((s.setProc y.rank phase).procs y.rank)
      rw [procs_self]
      exact hfits
    · have hne := Topology.rank_ne hx hy hyx
      change Fits t y gaveUp (parents y.rank) ((s.setProc x.rank phase).procs y.rank)
      rw [procs_ne s phase hne, hparents _ hne]
      exact (inv.fits y hy).mono hgaveUp
  root := by
    change ((s.setProc x.rank phase).procs t.graph.rank).joined = true
    by_cases hroot : t.graph.rank = x.rank
    · rw [hroot, procs_self]
      exact hjoined (hroot ▸ inv.root)
    · rw [procs_ne s phase hroot]
      exact inv.root
  sent := hsent
  absent := by
    intro f hf y hy hclosest hhost
    change (s.setProc x.rank phase).procs y.rank = .absent ↔
      (hosts y.hostName).phase ≠ .closed ∨
        y.rank ∈ ((s.setProc x.rank phase).procs f.rank).unspawned
    have hold := inv.absent f hf y hy hclosest hhost
    have hsame : ((s.setProc x.rank phase).procs f.rank).unspawned =
        (s.procs f.rank).unspawned := by
      by_cases hfx : f.rank = x.rank
      · rw [hfx, procs_self, hunspawned]
      · rw [procs_ne s phase hfx]
    rw [hsame, ne_eq, hclosed]
    by_cases hyx : y.rank = x.rank
    · rw [hyx, procs_self]
      rw [hyx] at hold
      exact (iff_of_false hpresent' hpresent).trans hold
    · rw [procs_ne s phase hyx]
      exact hold
  spawned := by
    intro rank
    refine (inv.spawned rank).trans ?_
    change _ ↔ ∃ y ∈ visits t.graph, y.rank = rank ∧ (s.setProc x.rank phase).procs rank ≠ .absent
    by_cases heq : rank = x.rank
    · rw [heq, procs_self]
      simp only [hpresent, hpresent', ne_eq, not_false_eq_true]
    · rw [procs_ne s phase heq]
  nodup := inv.nodup

/-- A process goes on, and comes to the same children as before or to one that needs nothing. -/
lemma Invariant.goesOn (inv : Invariant t s) (hx : x ∈ t.graph.subgraphs) {phase : Phase}
    {parents : Rank → Option Rank} {gaveUp : List Rank} (hgaveUp : s.gaveUp ⊆ gaveUp)
    (hparents : ∀ rank, rank ≠ x.rank → parents rank = s.parents rank)
    (hfits : Fits t x gaveUp (parents x.rank) phase)
    (hpresent : s.procs x.rank ≠ .absent) (hpresent' : phase ≠ .absent)
    (hjoined : (s.procs x.rank).joined = true → phase.joined = true)
    (hunspawned : phase.unspawned = (s.procs x.rank).unspawned)
    (hahead : ∀ c ∈ x.children, IsClosest t.graph c → x.hostName ≠ c.hostName →
      (c ∈ phase.ahead x ↔ c ∈ (s.procs x.rank).ahead x)) :
    Invariant t { s.setProc x.rank phase with parents := parents, gaveUp := gaveUp } := by
  refine inv.advances hx hgaveUp inv.hosts (fun _ => Iff.rfl) hparents hfits hpresent hpresent' hjoined
    hunspawned fun q hq c hc hclosest => ?_
  refine (inv.sent q hq c hc hclosest).trans ?_
  by_cases hqx : q = x
  · subst hqx
    rw [procs_self]
    exact and_congr_left fun hhost => not_congr (hahead c hc hclosest hhost).symm
  · rw [procs_ne s phase (Topology.rank_ne hx hq hqx)]

/-- Nothing is changed, or one process less is to be started. -/
def Shortened (phase phase' : Phase) : Prop :=
  phase' = phase ∨ ∃ pos tpos todo, phase = .spawning pos (tpos :: todo) ∧
    phase' = .spawning pos todo

namespace Shortened
variable {phase phase' : Phase} (h : Shortened phase phase')
include h

lemma absent_iff : phase' = .absent ↔ phase = .absent := by
  rcases h with rfl | ⟨pos, tpos, todo, rfl, rfl⟩
  · rfl
  · exact iff_of_false (fun h => by cases h) (fun h => by cases h)

lemma joined : phase'.joined = phase.joined := by
  rcases h with rfl | ⟨pos, tpos, todo, rfl, rfl⟩ <;> rfl

lemma ahead : phase'.ahead x = phase.ahead x := by
  rcases h with rfl | ⟨pos, tpos, todo, rfl, rfl⟩ <;> rfl

lemma fits {gaveUp : List Rank} {parent : Option Rank} (hfits : Fits t x gaveUp parent phase) :
    Fits t x gaveUp parent phase' := by
  rcases h with rfl | ⟨pos, tpos, todo, rfl, rfl⟩
  · exact hfits
  · cases hfits with
    | spawning hclosest hpos hsub htodo hnone =>
        exact .spawning hclosest hpos hsub ((List.suffix_cons tpos todo).trans htodo) hnone

end Shortened

lemma Invariant.starts (inv : Invariant t s) (hy : y ∈ visits t.graph)
    (habsent : s.procs y.rank = .absent) {hosts : Text → HostState} {procs : Rank → Phase}
    (hfits : Fits t y s.gaveUp (s.parents y.rank) (procs y.rank)) (hpresent : procs y.rank ≠ .absent)
    (hahead : (procs y.rank).ahead y = y.children)
    (hother : ∀ rank, rank ≠ y.rank → Shortened (s.procs rank) (procs rank))
    (hhosts : ∀ host, HostFits t host (hosts host))
    (hsent : ∀ host, (hosts host).sent ↔ (s.hosts host).sent)
    (hnew : ∀ f ∈ visits t.graph, ∀ x ∈ visits t.graph, IsClosest t.graph f →
      f.hostName = x.hostName → (procs x.rank = .absent ↔
        (hosts x.hostName).phase ≠ .closed ∨ x.rank ∈ (procs f.rank).unspawned)) :
    Invariant t ⟨hosts, procs, s.parents, y.rank :: s.spawned, s.gaveUp⟩ where
  hosts := hhosts
  known := by
    intro rank hrank
    by_cases heq : rank = y.rank
    · exact ⟨y, Topology.below_of_visited hy, heq.symm⟩
    · exact inv.known rank ((not_congr (hother rank heq).absent_iff).mp hrank)
  fits := by
    intro x hx
    by_cases heq : x.rank = y.rank
    · rw [t.distinct.unique hx (Topology.below_of_visited hy) heq]
      exact hfits
    · exact (hother _ heq).fits (inv.fits x hx)
  root := by
    have hne : t.graph.rank ≠ y.rank := by
      refine Topology.rank_ne (Topology.below_of_visited hy) (root_mem _) ?_
      rintro rfl
      exact t.root_not_visited hy
    exact (hother _ hne).joined.trans inv.root
  sent := by
    intro q hq c hc hclosest
    rw [hsent, inv.sent q hq c hc hclosest]
    by_cases heq : q.rank = y.rank
    · obtain rfl := t.distinct.unique hq (Topology.below_of_visited hy) heq
      rw [hahead, habsent]
      rfl
    · rw [(hother _ heq).ahead]
  absent := hnew
  spawned := by
    intro rank
    rw [List.mem_cons, inv.spawned rank]
    by_cases heq : rank = y.rank
    · exact iff_of_true (.inl heq) ⟨y, hy, heq.symm, heq ▸ hpresent⟩
    · refine (or_iff_right heq).trans ?_
      simp only [ne_eq, (hother rank heq).absent_iff]
  nodup := by
    refine List.nodup_cons.mpr ⟨fun hmem => ?_, inv.nodup⟩
    obtain ⟨_, -, -, hne⟩ := (inv.spawned _).mp hmem
    exact hne habsent

lemma IsClosest.visited {g f : Graph} (hf : IsClosest g f) : f ∈ visits g := by
  rw [IsClosest, findClosestHostToRoot_eq] at hf
  exact List.mem_of_find?_eq_some hf

lemma firstProcess_eq {f : Graph} {p : TopologyPosition} (hp : p ∈ positions t.graph)
    (hsub : p.subtree = f) : firstProcess t f.hostName f.rank =
      .spawning p (findColocatedProcesses f.hostName f.rank t.graph) := by
  subst hsub
  rw [firstProcess, t.findPosition hp]

lemma spawnedProcess_eq {p : TopologyPosition} (hp : p ∈ positions t.graph) :
    spawnedProcess t p = .connecting (t.kindOf p.subtree) p := by
  obtain ⟨hhost, hrank⟩ := positions_fields t.leafBackEnds hp
  rw [spawnedProcess]
  cases t.kindOf p.subtree with
  | backEnd => rfl
  | commNode =>
      rw [hhost, hrank, t.findPosition hp]

/-- A connection is for a process that has not been started. -/
lemma Invariant.connected (inv : Invariant t s) {host : Text} {rank : Rank} {rest : List Rank}
    (h : s.hosts host = ⟨.listening, rank :: rest⟩) :
    ∃ f, IsClosest t.graph f ∧ f.hostName = host ∧ f.rank = rank ∧ rest = [] ∧
      s.procs rank = .absent := by
  have hhost := inv.hosts host
  have hopen : (s.hosts host).phase ≠ .closed := by
    rw [h]
    exact fun heq => by cases heq
  rw [h] at hhost
  cases hhost with
  | sent hf hhost =>
      subst hhost
      exact ⟨_, hf, rfl, rfl, rfl, (inv.absent _ hf.visited _ hf.visited hf rfl).mpr (.inl hopen)⟩

lemma Invariant.parents_absent (inv : Invariant t s) (hx : x ∈ t.graph.subgraphs)
    (habsent : s.procs x.rank = .absent) : s.parents x.rank = none := by
  have hfits := inv.fits x hx
  rw [habsent] at hfits
  cases hfits with
  | absent hnone => exact hnone

lemma Invariant.accept (inv : Invariant t s) {host : Text} {rank : Rank} {rest : List Rank}
    (h : s.hosts host = ⟨.listening, rank :: rest⟩) :
    Invariant t { (s.setHost host ⟨.closed, rest⟩).setProc rank (firstProcess t host rank) with
      spawned := rank :: s.spawned } := by
  obtain ⟨f, hf, rfl, rfl, rfl, habsent⟩ := inv.connected h
  have hvisited := hf.visited
  obtain ⟨p, hp, hsub⟩ := t.exists_position hvisited
  have hopen : (s.hosts f.hostName).phase ≠ .closed := by
    rw [h]
    exact fun heq => by cases heq
  rw [firstProcess_eq hp hsub]
  have hself := procs_self (s.setHost f.hostName ⟨.closed, []⟩) f.rank
    (.spawning p (findColocatedProcesses f.hostName f.rank t.graph))
  refine inv.starts hvisited habsent ?_ ?_ ?_ ?_ ?_ ?_ ?_
  · rw [hself]
    exact .spawning hf hp hsub List.suffix_rfl
      (inv.parents_absent (Topology.below_of_visited hvisited) habsent)
  · rw [hself]
    exact fun heq => by cases heq
  · rw [hself]
    rfl
  · exact fun rank hne => .inl (procs_ne _ _ hne)
  · intro host
    by_cases heq : host = f.hostName
    · subst heq
      change HostFits t f.hostName (Function.update s.hosts f.hostName _ f.hostName)
      rw [Function.update_self]
      exact .closed
    · change HostFits t host (Function.update s.hosts f.hostName _ host)
      rw [Function.update_of_ne heq]
      exact inv.hosts host
  · intro host
    change (Function.update s.hosts f.hostName _ host).sent ↔ _
    by_cases heq : host = f.hostName
    · subst heq
      rw [Function.update_self, h]
      exact iff_of_true (.inr rfl) (.inl (List.cons_ne_nil _ _))
    · rw [Function.update_of_ne heq]
  · intro f' hf' x hx hclosest hhost
    change _ ↔ (Function.update s.hosts f.hostName _ x.hostName).phase ≠ .closed ∨ _
    by_cases heq : x.hostName = f.hostName
    · obtain rfl := hclosest.unique hf (hhost.trans heq)
      rw [heq, Function.update_self, hself, or_iff_right (not_not.mpr rfl)]
      refine Iff.trans ?_ (t.mem_unspawned_colocated hx heq).symm
      by_cases hrank : x.rank = f'.rank
      · rw [hrank, hself]
        exact iff_of_false (fun h => by cases h) (not_not.mpr rfl)
      · rw [procs_ne _ _ hrank]
        refine iff_of_true ?_ hrank
        exact (inv.absent f' hvisited x hx hf hhost).mpr (.inl (heq ▸ hopen))
    · have hne : ∀ z : Graph, z.hostName = x.hostName → z ∈ visits t.graph →
          z.rank ≠ f.rank := by
        intro z hz hzv hrank
        have := t.distinct.unique (Topology.below_of_visited hzv)
          (Topology.below_of_visited hvisited) hrank
        exact heq (hz.symm.trans (congrArg Graph.hostName this))
      rw [Function.update_of_ne heq, procs_ne _ _ (hne x rfl hx),
        procs_ne _ _ (hne f' hhost hf')]
      exact inv.absent f' hf' x hx hclosest hhost

/-- The next process that is to be started is absent, and on the host of the one that starts it. -/
lemma Invariant.target (inv : Invariant t s) (hx : x ∈ t.graph.subgraphs)
    {pos tpos : TopologyPosition} {todo : List TopologyPosition}
    (h : s.procs x.rank = .spawning pos (tpos :: todo)) :
    IsClosest t.graph x ∧ tpos ∈ positions t.graph ∧ tpos.subtree.hostName = x.hostName ∧
      tpos.subtree.rank ≠ x.rank ∧ s.procs tpos.subtree.rank = .absent ∧
      tpos.subtree.rank ∉ todo.map TopologyPosition.myRank := by
  have hfits := inv.fits x hx
  rw [h] at hfits
  cases hfits with
  | spawning hclosest hpos hsub htodo _ =>
      obtain ⟨htpos, hhost, hrank⟩ := t.mem_colocated.mp (htodo.subset List.mem_cons_self)
      obtain ⟨-, hmyRank⟩ := positions_fields t.leafBackEnds htpos
      have hnodup := t.nodup_colocated.sublist (htodo.sublist.map TopologyPosition.myRank)
      rw [List.map_cons, hmyRank] at hnodup
      refine ⟨hclosest, htpos, hhost, hrank, ?_, (List.nodup_cons.mp hnodup).1⟩
      refine (inv.absent x hclosest.visited _ (t.subtree_visited htpos) hclosest hhost.symm).mpr
        (.inr ?_)
      rw [h, ← hmyRank]
      exact List.mem_cons_self

lemma Invariant.spawn (inv : Invariant t s) {rank : Rank} {pos tpos : TopologyPosition}
    {todo : List TopologyPosition} (h : s.procs rank = .spawning pos (tpos :: todo)) :
    Invariant t { (s.setProc rank (.spawning pos todo)).setProc tpos.myRank (spawnedProcess t tpos)
      with spawned := tpos.myRank :: s.spawned } := by
  obtain ⟨x, hx, rfl⟩ := inv.known rank (by rw [h]; exact fun heq => by cases heq)
  obtain ⟨hclosest, htpos, hhost, hrank, habsent, hnotin⟩ := inv.target hx h
  have hxv := hclosest.visited
  obtain ⟨-, hmyRank⟩ := positions_fields t.leafBackEnds htpos
  have hyv := t.subtree_visited htpos
  rw [hmyRank, spawnedProcess_eq htpos]
  have hclosed : (s.hosts x.hostName).phase = .closed := by
    by_contra hopen
    have habsent := (inv.absent x hxv x hxv hclosest rfl).mpr (.inl hopen)
    rw [h] at habsent
    cases habsent
  have hunspawned : (s.procs x.rank).unspawned =
      tpos.subtree.rank :: todo.map TopologyPosition.myRank := by
    rw [h, ← hmyRank]
    rfl
  have hself := procs_self (s.setProc x.rank (.spawning pos todo)) tpos.subtree.rank
    (.connecting (t.kindOf tpos.subtree) tpos)
  have hx' : ((s.setProc x.rank (.spawning pos todo)).setProc tpos.subtree.rank
      (.connecting (t.kindOf tpos.subtree) tpos)).procs x.rank = .spawning pos todo := by
    rw [procs_ne _ _ hrank.symm, procs_self]
  refine inv.starts hyv habsent ?_ ?_ ?_ ?_ inv.hosts (fun _ => Iff.rfl) ?_
  · rw [hself]
    exact .connecting htpos rfl (inv.parents_absent (Topology.below_of_visited hyv) habsent)
  · rw [hself]
    exact fun heq => by cases heq
  · rw [hself]
    rfl
  · intro rank hne
    rw [procs_ne _ _ hne]
    by_cases heq : rank = x.rank
    · rw [heq, procs_self]
      exact .inr ⟨pos, tpos, todo, h, rfl⟩
    · exact .inl (procs_ne _ _ heq)
  · intro f hf z hz hfc hfz
    have hold := inv.absent f hf z hz hfc hfz
    change _ ↔ (s.hosts z.hostName).phase ≠ .closed ∨ _
    by_cases hzx : z.hostName = x.hostName
    · obtain rfl := hfc.unique hclosest (hfz.trans hzx)
      rw [hx']
      rw [hzx, hclosed, or_iff_right (not_not.mpr rfl)] at hold ⊢
      rw [hunspawned, List.mem_cons] at hold
      by_cases hzy : z.rank = tpos.subtree.rank
      · rw [hzy, hself]
        exact iff_of_false (fun h => by cases h) hnotin
      · rw [or_iff_right hzy] at hold
        rw [procs_ne _ _ hzy]
        by_cases hzf : z.rank = f.rank
        · rw [hzf, procs_self]
          rw [hzf, h] at hold
          exact iff_of_false (fun h => by cases h) fun hmem => by cases hold.mpr hmem
        · rw [procs_ne _ _ hzf]
          exact hold
    · have hne : ∀ w ∈ visits t.graph, w.hostName = z.hostName → ∀ v ∈ visits t.graph,
          v.hostName = x.hostName → w.rank ≠ v.rank := by
        intro w hw hwz v hv hvx hrank
        have hwv := t.distinct.unique (Topology.below_of_visited hw)
          (Topology.below_of_visited hv) hrank
        exact hzx (hwz.symm.trans ((congrArg Graph.hostName hwv).trans hvx))
      rw [procs_ne _ _ (hne z hz rfl _ hyv hhost), procs_ne _ _ (hne z hz rfl x hxv rfl),
        procs_ne _ _ (hne f hf hfz _ hyv hhost), procs_ne _ _ (hne f hf hfz x hxv rfl)]
      exact hold

lemma Invariant.launched (inv : Invariant t s) {host : Text}
    (h : (s.hosts host).phase = .launched) :
    s.hosts host = ⟨.launched, []⟩ ∧ host ∈ t.processHosts := by
  have hfits := inv.hosts host
  cases hhost : s.hosts host with
  | mk phase connections =>
      rw [hhost] at h hfits
      subst h
      cases hfits with
      | launched hmem => exact ⟨rfl, hmem⟩

/-- A host to which nothing has been sent goes on with its wait, or ends it. -/
lemma Invariant.waits (inv : Invariant t s) {host : Text} {phase phase' : HostPhase}
    (h : s.hosts host = ⟨phase, []⟩) (hopen : phase ≠ .closed) (hopen' : phase' ≠ .closed)
    (hfits : HostFits t host ⟨phase', []⟩) : Invariant t (s.setHost host ⟨phase', []⟩) := by
  have hnew : ∀ host', (Function.update s.hosts host ⟨phase', []⟩ host' = s.hosts host') ∨
      (s.hosts host' = ⟨phase, []⟩ ∧
        Function.update s.hosts host ⟨phase', []⟩ host' = ⟨phase', []⟩) := by
    intro host'
    by_cases heq : host' = host
    · subst heq
      exact .inr ⟨h, Function.update_self ..⟩
    · exact .inl (Function.update_of_ne heq ..)
  have hunsent : ∀ {phase : HostPhase}, phase ≠ .closed → ¬ (⟨phase, []⟩ : HostState).sent :=
    fun hopen hsent => hsent.elim (fun h => h rfl) hopen
  refine ⟨fun host' => ?_, inv.known, inv.fits, inv.root, fun q hq c hc hclosest => ?_,
    fun f hf x hx hclosest hfx => ?_, inv.spawned, inv.nodup⟩
  · change HostFits t host' (Function.update s.hosts host ⟨phase', []⟩ host')
    by_cases heq : host' = host
    · rw [heq, Function.update_self]
      exact hfits
    · rw [Function.update_of_ne heq]
      exact inv.hosts host'
  · refine Iff.trans ?_ (inv.sent q hq c hc hclosest)
    change (Function.update s.hosts host ⟨phase', []⟩ c.hostName).sent ↔ _
    rcases hnew c.hostName with heq | ⟨hold, heq⟩
    · rw [heq]
    · rw [heq, hold]
      exact iff_of_false (hunsent hopen') (hunsent hopen)
  · refine (inv.absent f hf x hx hclosest hfx).trans (or_congr_left ?_)
    change _ ↔ (Function.update s.hosts host ⟨phase', []⟩ x.hostName).phase ≠ .closed
    rcases hnew x.hostName with heq | ⟨hold, heq⟩
    · rw [heq]
    · rw [heq, hold]
      exact iff_of_true hopen hopen'

lemma Invariant.listen (inv : Invariant t s) {host : Text}
    (h : (s.hosts host).phase = .launched) :
    Invariant t (s.setHost host { s.hosts host with phase := .listening }) := by
  obtain ⟨hhost, hlaunched⟩ := inv.launched h
  rw [hhost]
  exact inv.waits hhost (by rintro ⟨⟩) (by rintro ⟨⟩) (.listening hlaunched)

lemma Invariant.timeOut (inv : Invariant t s) {host : Text}
    (h : s.hosts host = ⟨.listening, []⟩) : Invariant t (s.setHost host ⟨.timedOut, []⟩) := by
  have hfits := inv.hosts host
  rw [h] at hfits
  cases hfits with
  | listening hlaunched => exact inv.waits h (by rintro ⟨⟩) (by rintro ⟨⟩) (.timedOut hlaunched)

lemma Invariant.spawnedAll (inv : Invariant t s) {rank : Rank} {pos : TopologyPosition}
    (h : s.procs rank = .spawning pos []) :
    Invariant t (s.setProc rank (.connecting (t.kindOf pos.subtree) pos)) := by
  have hpresent : s.procs rank ≠ .absent := by
    rw [h]
    exact fun heq => by cases heq
  obtain ⟨x, hx, rfl⟩ := inv.known rank hpresent
  have hfits := inv.fits x hx
  rw [h] at hfits
  cases hfits with
  | spawning hclosest hpos hsub htodo hnone =>
      rw [hsub]
      refine inv.goesOn hx (List.Subset.refl _) (fun _ _ => rfl) (.connecting hpos hsub hnone) hpresent
        (fun heq => by cases heq) ?_ ?_ ?_
      · rw [h]
        exact fun heq => by cases heq
      · rw [h]
        rfl
      · rw [h]
        exact fun _ _ _ _ => Iff.rfl

/-- A process is past the connection to its parent, with it or without. -/
lemma Invariant.afterConnect (inv : Invariant t s) {rank : Rank} {kind : Kind}
    {pos : TopologyPosition} (h : s.procs rank = .connecting kind pos)
    {parents : Rank → Option Rank} {gaveUp : List Rank} (hgaveUp : s.gaveUp ⊆ gaveUp)
    (hparents : ∀ r, r ≠ rank → parents r = s.parents r)
    (hattached : ∀ x ∈ t.graph.subgraphs, x.rank = rank → pos ∈ positions t.graph →
      pos.subtree = x → s.parents rank = none → Attached t x gaveUp (parents rank)) :
    Invariant t { s.setProc rank (XTNetwork.afterConnect kind pos.subtree) with
      parents := parents, gaveUp := gaveUp } := by
  have hpresent : s.procs rank ≠ .absent := by
    rw [h]
    exact fun heq => by cases heq
  obtain ⟨x, hx, rfl⟩ := inv.known rank hpresent
  have hfits := inv.fits x hx
  rw [h] at hfits
  cases hfits with
  | connecting hpos hsub hnone =>
      replace hattached := hattached x hx rfl hpos hsub hnone
      rw [hsub]
      cases hback : x.isBackEnd with
      | true =>
          have hleaf := t.leafBackEnds x hx hback
          have hphase : XTNetwork.afterConnect (t.kindOf x) x = .started (t.kindOf x) := by
            cases hkind : t.kindOf x with
            | backEnd => rfl
            | commNode => exact if_pos hback
          rw [hphase]
          refine inv.goesOn hx hgaveUp hparents (.started hattached) hpresent
            (fun heq => by cases heq) ?_ ?_ ?_
          · rw [h]
            exact fun heq => by cases heq
          · rw [h]
            rfl
          · rw [hleaf]
            exact fun c hc => by cases hc
      | false =>
          have hphase : XTNetwork.afterConnect (t.kindOf x) x =
              .propagating [x.hostName] x.children := by
            rw [t.kindOf_internal hback]
            exact if_neg (hback ▸ Bool.false_ne_true)
          rw [hphase]
          refine inv.goesOn hx hgaveUp hparents ?_ hpresent (fun heq => by cases heq) ?_ ?_ ?_
          · refine .propagating [] hback rfl ?_ List.mem_cons_self hattached
            exact fun host hhost => .inl (List.mem_singleton.mp hhost)
          · rw [h]
            exact fun heq => by cases heq
          · rw [h]
            rfl
          · rw [h]
            exact fun _ _ _ _ => Iff.rfl

lemma Invariant.connect (inv : Invariant t s) {rank : Rank} {kind : Kind} {pos : TopologyPosition}
    (h : s.procs rank = .connecting kind pos) :
    Invariant t { s.setProc rank (XTNetwork.afterConnect kind pos.subtree) with
      parents := Function.update s.parents rank (some pos.parentRank) } := by
  refine inv.afterConnect h (List.Subset.refl _) (fun r hne => Function.update_of_ne hne ..)
    fun x hx _ hpos hsub _ => .inr fun q hq hc => ?_
  obtain ⟨q', hq', c, hc', rfl⟩ := (mem_positions t.leafBackEnds).mp hpos
  subst hsub
  rw [Function.update_self, parent_unique t.leafBackEnds t.distinct hq hq' hc hc']
  rfl

lemma Invariant.goOn (inv : Invariant t s) {rank : Rank} {kind : Kind} {pos : TopologyPosition}
    (h : s.procs rank = .connecting kind pos) :
    Invariant t { s.setProc rank (XTNetwork.afterConnect kind pos.subtree) with
      gaveUp := rank :: s.gaveUp } := by
  refine inv.afterConnect h (List.subset_cons_self _ _) (fun _ _ => rfl)
    fun x _ hrank _ _ hnone => .inl ⟨hnone, ?_⟩
  rw [hrank]
  exact List.mem_cons_self

lemma Invariant.propagated (inv : Invariant t s) {rank : Rank} {hostsSeen : List Text}
    (h : s.procs rank = .propagating hostsSeen []) :
    Invariant t (s.setProc rank (.started .commNode)) := by
  have hpresent : s.procs rank ≠ .absent := by
    rw [h]
    exact fun heq => by cases heq
  obtain ⟨x, hx, rfl⟩ := inv.known rank hpresent
  have hfits := inv.fits x hx
  rw [h] at hfits
  cases hfits with
  | propagating front hinternal hsplit hseen hself hparent =>
      refine inv.goesOn hx (List.Subset.refl _) (fun _ _ => rfl) ?_ hpresent
        (fun heq => by cases heq) (fun _ => rfl) ?_ ?_
      · rw [← t.kindOf_internal hinternal]
        exact .started hparent
      · rw [h]
        rfl
      · rw [h]
        exact fun _ _ _ _ => Iff.rfl

/-- The loop goes on to the next child. -/
lemma fits_next {gaveUp : List Rank} {parent : Option Rank} {hostsSeen hostsSeen' : List Text}
    {c : Graph} {todo : List Graph}
    (hfits : Fits t x gaveUp parent (.propagating hostsSeen (c :: todo)))
    (hself : x.hostName ∈ hostsSeen')
    (hseen : ∀ host ∈ hostsSeen', host ∈ hostsSeen ∨ host = c.hostName) :
    Fits t x gaveUp parent (.propagating hostsSeen' todo) := by
  cases hfits with
  | propagating front hinternal hsplit hold _ hparent =>
      rw [List.append_cons] at hsplit
      refine .propagating (front ++ [c]) hinternal hsplit ?_ hself hparent
      intro host hhost
      rcases hseen host hhost with hhost | rfl
      · exact (hold host hhost).imp_right fun ⟨d, hd, hname⟩ =>
          ⟨d, List.mem_append_left _ hd, hname⟩
      · exact .inr ⟨c, List.mem_append_right _ (List.mem_singleton_self c), rfl⟩

lemma Invariant.passes (inv : Invariant t s) {rank : Rank} {hostsSeen hostsSeen' : List Text}
    {c : Graph} {todo : List Graph} (h : s.procs rank = .propagating hostsSeen (c :: todo))
    (hsub : hostsSeen ⊆ hostsSeen') (hseen : ∀ host ∈ hostsSeen', host ∈ hostsSeen ∨ host = c.hostName)
    (hneedless : c.hostName ∈ hostsSeen ∨ closestToRoot t.graph c.hostName c.rank = false) :
    Invariant t (s.setProc rank (.propagating hostsSeen' todo)) := by
  have hpresent : s.procs rank ≠ .absent := by
    rw [h]
    exact fun heq => by cases heq
  obtain ⟨x, hx, rfl⟩ := inv.known rank hpresent
  have hfits := inv.fits x hx
  rw [h] at hfits
  have hnext := fun hself => fits_next hfits hself hseen
  cases hfits with
  | propagating front hinternal hsplit hold hself hparent =>
      refine inv.goesOn hx (List.Subset.refl _) (fun _ _ => rfl) (hnext (hsub hself)) hpresent
        (fun heq => by cases heq) (fun _ => rfl) ?_ ?_
      · rw [h]
        rfl
      · intro d hd hclosest hhost
        rw [h]
        refine ⟨List.mem_cons_of_mem c, fun hmem => (List.mem_cons.mp hmem).resolve_left ?_⟩
        rintro rfl
        rcases hneedless with hmem | hfar
        · rcases hold _ hmem with hname | ⟨e, he, hname⟩
          · exact hhost hname.symm
          · exact hclosest.sibling t.leafBackEnds t.distinct hx hsplit e he hname
        · have hbelow := Topology.below_of_visited hclosest.visited
          rw [(closestToRoot_iff t.leafBackEnds t.distinct hbelow).mpr hclosest] at hfar
          cases hfar

/-- A child that the loop has come to. -/
lemma Invariant.ahead_child (inv : Invariant t s) (hx : x ∈ t.graph.subgraphs)
    {hostsSeen : List Text} {c : Graph} {todo : List Graph}
    (h : s.procs x.rank = .propagating hostsSeen (c :: todo)) : c ∈ x.children := by
  have hfits := inv.fits x hx
  rw [h] at hfits
  cases hfits with
  | propagating front hinternal hsplit hold hself hparent =>
      rw [hsplit]
      exact List.mem_append_right _ List.mem_cons_self

/-- The first process of the host has not got the topology, and nobody else has sent it. -/
lemma Invariant.unsent (inv : Invariant t s) (hx : x ∈ t.graph.subgraphs)
    {hostsSeen : List Text} {c : Graph} {todo : List Graph}
    (h : s.procs x.rank = .propagating hostsSeen (c :: todo)) (hclosest : IsClosest t.graph c) :
    ∃ phase, s.hosts c.hostName = ⟨phase, []⟩ ∧ phase ≠ .absent ∧ phase ≠ .closed := by
  have hunsent : ¬ (s.hosts c.hostName).sent := by
    rw [inv.sent x hx c (inv.ahead_child hx h) hclosest, h]
    exact fun hand => hand.1 List.mem_cons_self
  have hfits := inv.hosts c.hostName
  cases hhost : s.hosts c.hostName with
  | mk phase connections =>
      rw [hhost] at hfits hunsent
      cases hfits with
      | absent hnone => exact absurd rfl (hnone c hclosest.visited)
      | launched _ => exact ⟨_, rfl, by rintro ⟨⟩, by rintro ⟨⟩⟩
      | listening _ => exact ⟨_, rfl, by rintro ⟨⟩, by rintro ⟨⟩⟩
      | sent hf hhost => exact absurd (.inl (List.cons_ne_nil _ _)) hunsent
      | closed => exact absurd (.inr rfl) hunsent
      | timedOut _ => exact ⟨_, rfl, by rintro ⟨⟩, by rintro ⟨⟩⟩

/-- The process of the host still waits for the topology. -/
lemma Invariant.sends (inv : Invariant t s) (hx : x ∈ t.graph.subgraphs)
    {hostsSeen : List Text} {c : Graph} {todo : List Graph} {next : Phase}
    (h : s.procs x.rank = .propagating hostsSeen (c :: todo)) (hclosest : IsClosest t.graph c)
    (hsend : sendTopology s x.rank c next = some s') :
    s.hosts c.hostName = ⟨.listening, []⟩ ∧
      s' = (s.setHost c.hostName ⟨.listening, [c.rank]⟩).setProc x.rank next := by
  obtain ⟨phase, hhost, -, -⟩ := inv.unsent hx h hclosest
  rw [sendTopology, hhost] at hsend
  cases phase <;> cases hsend
  exact ⟨hhost, rfl⟩

lemma Invariant.send (inv : Invariant t s) {rank : Rank} {hostsSeen : List Text}
    {c : Graph} {todo : List Graph} (h : s.procs rank = .propagating hostsSeen (c :: todo))
    (hseen : c.hostName ∉ hostsSeen) (hclosest : closestToRoot t.graph c.hostName c.rank = true)
    (hsend : sendTopology s rank c (.propagating (c.hostName :: hostsSeen) todo) = some s') :
    Invariant t s' := by
  have hpresent : s.procs rank ≠ .absent := by
    rw [h]
    exact fun heq => by cases heq
  obtain ⟨x, hx, rfl⟩ := inv.known rank hpresent
  have hc := inv.ahead_child hx h
  have hcv := child_mem_visits t.leafBackEnds hx hc
  replace hclosest := (closestToRoot_iff t.leafBackEnds t.distinct
    (Topology.below_of_visited hcv)).mp hclosest
  obtain ⟨hhost, rfl⟩ := inv.sends hx h hclosest hsend
  have hfits := inv.fits x hx
  rw [h] at hfits
  have hnext := fun hself => fits_next hfits hself fun host hhost =>
    (List.mem_cons.mp hhost).symm
  cases hfits with
  | propagating front hinternal hsplit hold hself hparent =>
      refine inv.advances hx (List.Subset.refl _) ?_ ?_ (fun _ _ => rfl)
        (hnext (List.mem_cons_of_mem _ hself)) hpresent
        (fun heq => by cases heq) (fun _ => rfl) ?_ ?_
      · intro host
        change HostFits t host (Function.update s.hosts c.hostName _ host)
        by_cases heq : host = c.hostName
        · subst heq
          rw [Function.update_self]
          exact .sent hclosest rfl
        · rw [Function.update_of_ne heq]
          exact inv.hosts host
      · intro host
        change (Function.update s.hosts c.hostName _ host).phase = .closed ↔ _
        by_cases heq : host = c.hostName
        · rw [heq, Function.update_self, hhost]
        · rw [Function.update_of_ne heq]
      · rw [h]
        rfl
      · intro q hq d hd hdc
        change (Function.update s.hosts c.hostName _ d.hostName).sent ↔ _
        by_cases heq : d.hostName = c.hostName
        · obtain rfl := hdc.unique hclosest heq
          obtain rfl := parent_unique t.leafBackEnds t.distinct hq hx hd hc
          have hnodup := (nodup_visits t.leafBackEnds t.distinct).of_cons.sublist
            (children_within t.leafBackEnds hx).sublist
          rw [hsplit, List.nodup_append, List.nodup_cons] at hnodup
          rw [Function.update_self, procs_self]
          refine iff_of_true (.inl (List.cons_ne_nil _ _)) ⟨hnodup.2.1.1, fun hname => ?_⟩
          exact hseen (hname ▸ hself)
        · rw [Function.update_of_ne heq, inv.sent q hq d hd hdc]
          by_cases hqx : q = x
          · subst hqx
            have hne : d ≠ c := fun hdc => heq (congrArg Graph.hostName hdc)
            rw [procs_self, h]
            refine and_congr_left fun _ => not_congr ?_
            exact List.mem_cons.trans (or_iff_right hne)
          · rw [procs_ne s _ (Topology.rank_ne hx hq hqx)]

lemma Invariant.exit (inv : Invariant t s) {rank : Rank} {hostsSeen : List Text} {c : Graph}
    {todo : List Graph} (h : s.procs rank = .propagating hostsSeen (c :: todo)) :
    Invariant t { s.setProc rank (.exited (c :: todo)) with gaveUp := rank :: s.gaveUp } := by
  have hpresent : s.procs rank ≠ .absent := by
    rw [h]
    exact fun heq => by cases heq
  obtain ⟨x, hx, rfl⟩ := inv.known rank hpresent
  refine inv.goesOn hx (List.subset_cons_self _ _) (fun _ _ => rfl) (.exited List.mem_cons_self)
    hpresent (fun heq => by cases heq) (fun _ => rfl) ?_ ?_
  · rw [h]
    rfl
  · rw [h]
    exact fun _ _ _ _ => Iff.rfl

lemma invariant_step {act : Action} (inv : Invariant t s) (hstep : step t s act = some s') :
    Invariant t s' := by
  cases step_of_eq_some hstep with
  | listen h => exact inv.listen h
  | accept h => exact inv.accept h
  | timeOut h => exact inv.timeOut h
  | spawn h => exact inv.spawn h
  | spawnedAll h => exact inv.spawnedAll h
  | connect h _ => exact inv.connect h
  | skip h hseen =>
      exact inv.passes h (fun _ hhost => hhost) (fun _ hhost => .inl hhost) (.inl hseen)
  | leave h _ hclosest =>
      exact inv.passes h (List.subset_cons_self _ _) (fun _ hhost => (List.mem_cons.mp hhost).symm)
        (.inr hclosest)
  | send h hseen hclosest hsend => exact inv.send h hseen hclosest hsend
  | propagated h => exact inv.propagated h
  | goOn h _ => exact inv.goOn h
  | exit h _ _ _ => exact inv.exit h

theorem invariant_run (h : Reaches (step t) Any (State.initial t) s) : Invariant t s :=
  h.keeps (invariant_initial t) fun inv _ hstep => invariant_step inv hstep

end MRNet.XTNetwork
