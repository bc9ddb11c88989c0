import MRNet.DecreasingRuns
import MRNet.RelayRuns

/-!
# The relay comes to an end

Every step brings a host or a process nearer to its end. If nobody stops waiting or connecting, then
in the end the processes have been started one after another in the order of the search for the
closest one: the first one on a host has its parent before it.
-/
namespace MRNet.XTNetwork
open SerialGraph (Graph Text Port)
open WaitForAll (Rank)
open Interleavings

def HostPhase.weight : HostPhase → ℕ
  | .launched => 2
  | .listening => 1
  | .absent | .closed | .timedOut => 0

/-- The steps that a process can still take, in a topology with some processes. -/
def Phase.weight (n : ℕ) : Phase → ℕ
  | .absent => 2 * n + 4
  | .spawning _ todo => n + 3 + todo.length
  | .connecting _ _ => n + 2
  | .propagating _ todo => todo.length + 1
  | .started _ | .exited _ | .failed => 0

namespace Topology

variable (t : Topology)

/-- The processes other than the front-end. -/
def size : ℕ := (positions t.graph).length

def weight (s : State) : ℕ :=
  ∑ host ∈ t.processHosts.toFinset, (s.hosts host).phase.weight +
    ∑ rank ∈ (t.graph.subgraphs.map Graph.rank).toFinset, (s.procs rank).weight t.size

end Topology

variable {t : Topology} {s s' : State} {x : Graph}

lemma children_length (hx : x ∈ t.graph.subgraphs) : x.children.length ≤ t.size := by
  have hle := (children_within t.leafBackEnds hx).length_le
  have hperm := t.visits_perm_positions.length_eq
  rw [List.length_map] at hperm
  rw [Topology.size, hperm]
  exact hle

lemma colocated_length (host : Text) (rank : Rank) :
    (findColocatedProcesses host rank t.graph).length ≤ t.size := by
  rw [findColocatedProcesses_eq]
  exact List.length_filter_le _ _

lemma afterConnect_weight (n : ℕ) (kind : Kind) (x : Graph) :
    (afterConnect kind x).weight n ≤ x.children.length + 1 := by
  cases kind with
  | backEnd => exact Nat.zero_le _
  | commNode =>
      rw [afterConnect]
      split_ifs
      · exact Nat.zero_le _
      · exact le_rfl

/-- What is nearer to its end after a step. -/
structure Nearer (t : Topology) (s s' : State) : Prop where
  hosts : ∀ host, (s'.hosts host).phase.weight ≤ (s.hosts host).phase.weight
  procs : ∀ rank, (s'.procs rank).weight t.size ≤ (s.procs rank).weight t.size
  one : (∃ host ∈ t.processHosts, (s'.hosts host).phase.weight < (s.hosts host).phase.weight) ∨
    ∃ x ∈ t.graph.subgraphs, (s'.procs x.rank).weight t.size < (s.procs x.rank).weight t.size

/-- A process goes on to a phase with less weight. -/
lemma Nearer.ofProc (hx : x ∈ t.graph.subgraphs) {phase : Phase}
    (h : phase.weight t.size < (s.procs x.rank).weight t.size)
    (hprocs : s'.procs = (s.setProc x.rank phase).procs)
    (hhosts : ∀ host, (s'.hosts host).phase.weight ≤ (s.hosts host).phase.weight) :
    Nearer t s s' where
  hosts := hhosts
  procs := by
    intro rank
    rw [hprocs]
    by_cases heq : rank = x.rank
    · rw [heq, procs_self]
      exact h.le
    · rw [procs_ne s phase heq]
  one := by
    refine .inr ⟨x, hx, ?_⟩
    rw [hprocs, procs_self]
    exact h

/-- Only the phase of one process changes. -/
lemma Nearer.ofPhase (inv : Invariant t s) {rank : Rank} {old phase : Phase}
    (h : s.procs rank = old) (hne : old ≠ .absent) (hlt : phase.weight t.size < old.weight t.size)
    (hprocs : s'.procs = (s.setProc rank phase).procs) (hhosts : s'.hosts = s.hosts) :
    Nearer t s s' := by
  obtain ⟨x, hx, rfl⟩ := inv.known rank (h ▸ hne)
  exact .ofProc hx (h ▸ hlt) hprocs fun host => by rw [hhosts]

/-- The process of a host goes on to a phase with less weight. -/
lemma Nearer.ofHost {host : Text} (hhost : host ∈ t.processHosts) {x : HostState}
    (h : x.phase.weight < (s.hosts host).phase.weight)
    (hhosts : s'.hosts = Function.update s.hosts host x)
    (hprocs : ∀ rank, (s'.procs rank).weight t.size ≤ (s.procs rank).weight t.size) :
    Nearer t s s' where
  hosts := by
    intro host'
    rw [hhosts]
    by_cases heq : host' = host
    · rw [heq, Function.update_self]
      exact h.le
    · rw [Function.update_of_ne heq]
  procs := hprocs
  one := by
    refine .inl ⟨host, hhost, ?_⟩
    rw [hhosts, Function.update_self]
    exact h

/-- A process is past the connection to its parent. -/
lemma Nearer.afterConnect (inv : Invariant t s) {rank : Rank} {kind : Kind} {pos : TopologyPosition}
    (h : s.procs rank = .connecting kind pos)
    (hprocs : s'.procs = (s.setProc rank (XTNetwork.afterConnect kind pos.subtree)).procs)
    (hhosts : s'.hosts = s.hosts) : Nearer t s s' := by
  obtain ⟨x, hx, rfl⟩ := inv.known rank (by rw [h]; exact fun heq => by cases heq)
  have hfits := inv.fits x hx
  rw [h] at hfits
  cases hfits with
  | connecting hpos hsub _ =>
      have hlen := children_length hx
      have hle := afterConnect_weight t.size (t.kindOf x) x
      rw [hsub] at hprocs
      refine .ofProc hx ?_ hprocs fun host => by rw [hhosts]
      rw [h, Phase.weight]
      omega

lemma nearer_step (inv : Invariant t s) {act : Action} (hstep : step t s act = some s') :
    Nearer t s s' := by
  cases step_of_eq_some hstep with
  | @listen host h =>
      obtain ⟨hhost, hlaunched⟩ := inv.launched h
      rw [hhost]
      refine .ofHost hlaunched ?_ rfl fun _ => le_rfl
      rw [hhost]
      exact Nat.lt_succ_self 1
  | @timeOut host h =>
      have hfits := inv.hosts host
      rw [h] at hfits
      cases hfits with
      | listening hlaunched =>
          refine .ofHost hlaunched ?_ rfl fun _ => le_rfl
          rw [h]
          exact Nat.lt_succ_self 0
  | @accept host rank rest h =>
      obtain ⟨f, hf, rfl, rfl, rfl, habsent⟩ := inv.connected h
      obtain ⟨p, hp, hsub⟩ := t.exists_position hf.visited
      rw [firstProcess_eq hp hsub]
      refine .ofProc (Topology.below_of_visited hf.visited) ?_ rfl fun host => ?_
      · have hlen := colocated_length (t := t) f.hostName f.rank
        rw [habsent, Phase.weight, Phase.weight]
        omega
      · change (Function.update s.hosts f.hostName _ host).phase.weight ≤ _
        by_cases heq : host = f.hostName
        · rw [heq, Function.update_self]
          exact Nat.zero_le _
        · rw [Function.update_of_ne heq]
  | @spawn rank pos tpos todo h =>
      obtain ⟨x, hx, rfl⟩ := inv.known rank (by rw [h]; exact fun heq => by cases heq)
      obtain ⟨-, htpos, -, hrank, habsent, -⟩ := inv.target hx h
      obtain ⟨-, hmyRank⟩ := positions_fields t.leafBackEnds htpos
      rw [hmyRank, spawnedProcess_eq htpos]
      have hx' : (s.procs x.rank).weight t.size = (Phase.spawning pos todo).weight t.size + 1 := by
        rw [h]
        rfl
      refine ⟨fun _ => le_rfl, fun rank => ?_, .inr ⟨tpos.subtree, ?_, ?_⟩⟩
      · change (((s.setProc x.rank _).setProc _ _).procs rank).weight t.size ≤ _
        by_cases heq : rank = tpos.subtree.rank
        · rw [heq, procs_self, habsent, Phase.weight, Phase.weight]
          omega
        · rw [procs_ne _ _ heq]
          by_cases heq' : rank = x.rank
          · rw [heq', procs_self, hx']
            omega
          · rw [procs_ne _ _ heq']
      · exact Topology.below_of_visited (t.subtree_visited htpos)
      · change (((s.setProc x.rank _).setProc _ _).procs tpos.subtree.rank).weight t.size < _
        rw [procs_self, habsent, Phase.weight, Phase.weight]
        omega
  | spawnedAll h =>
      refine .ofPhase inv h nofun ?_ rfl rfl
      rw [Phase.weight, Phase.weight]
      omega
  | connect h _ => exact .afterConnect inv h rfl rfl
  | goOn h _ => exact .afterConnect inv h rfl rfl
  | exit h _ _ _ =>
      refine .ofPhase inv h nofun ?_ rfl rfl
      exact Nat.succ_pos _
  | skip h _ => exact .ofPhase inv h nofun (Nat.lt_succ_self _) rfl rfl
  | leave h _ _ => exact .ofPhase inv h nofun (Nat.lt_succ_self _) rfl rfl
  | @send rank hostsSeen c todo _ h hseen hclosest hsend =>
      obtain ⟨x, hx, rfl⟩ := inv.known rank (by rw [h]; exact fun heq => by cases heq)
      have hcv := child_mem_visits t.leafBackEnds hx (inv.ahead_child hx h)
      obtain ⟨hhost, rfl⟩ := inv.sends hx h ((closestToRoot_iff t.leafBackEnds t.distinct
        (Topology.below_of_visited hcv)).mp hclosest) hsend
      refine .ofProc hx ?_ rfl fun host => ?_
      · rw [h, Phase.weight, Phase.weight, List.length_cons]
        omega
      · change (Function.update s.hosts c.hostName _ host).phase.weight ≤ _
        by_cases heq : host = c.hostName
        · rw [heq, Function.update_self, hhost]
        · rw [Function.update_of_ne heq]
  | propagated h =>
      refine .ofPhase inv h nofun ?_ rfl rfl
      exact Nat.succ_pos _

lemma Nearer.weight_lt (h : Nearer t s s') : t.weight s' < t.weight s := by
  have hhosts := Finset.sum_le_sum fun host (_ : host ∈ t.processHosts.toFinset) => h.hosts host
  have hprocs := Finset.sum_le_sum
    fun rank (_ : rank ∈ (t.graph.subgraphs.map Graph.rank).toFinset) => h.procs rank
  rcases h.one with ⟨host, hmem, hlt⟩ | ⟨x, hx, hlt⟩
  · have hsum := Finset.sum_lt_sum (s := t.processHosts.toFinset) (fun host _ => h.hosts host)
      ⟨host, List.mem_toFinset.mpr hmem, hlt⟩
    exact Nat.add_lt_add_of_lt_of_le hsum hprocs
  · have hsum := Finset.sum_lt_sum (s := (t.graph.subgraphs.map Graph.rank).toFinset)
      (fun rank _ => h.procs rank) ⟨x.rank, List.mem_toFinset.mpr (List.mem_map_of_mem hx), hlt⟩
    exact Nat.add_lt_add_of_le_of_lt hhosts hsum

lemma relay_decreases {work : State → Action → Prop} :
    Decreases (step t) work (Invariant t) t.weight where
  keeps := fun inv _ hstep => invariant_step inv hstep
  drops := fun inv _ hstep => (nearer_step inv hstep).weight_lt

/-- A step by which nobody stops waiting or connecting. -/
def Patient (act : Action) : Prop :=
  match act with
  | .timeOut _ | .giveUp _ => False
  | _ => True

/-- All processes are still there, and connected. -/
structure Undisturbed (s : State) : Prop where
  gaveUp : s.gaveUp = []
  waits : ∀ host, (s.hosts host).phase ≠ .timedOut

lemma Undisturbed.ofHost (h : Undisturbed s) {host : Text} {x : HostState}
    (hx : x.phase ≠ .timedOut) (hgaveUp : s'.gaveUp = s.gaveUp)
    (hhosts : s'.hosts = Function.update s.hosts host x) : Undisturbed s' where
  gaveUp := hgaveUp.trans h.gaveUp
  waits := by
    intro host'
    rw [hhosts]
    by_cases heq : host' = host
    · rw [heq, Function.update_self]
      exact hx
    · rw [Function.update_of_ne heq]
      exact h.waits host'

lemma undisturbed_step (h : Undisturbed s) {act : Action} (hpatient : Patient act)
    (hstep : step t s act = some s') : Undisturbed s' := by
  cases step_of_eq_some hstep with
  | listen _ => exact h.ofHost (by rintro ⟨⟩) rfl rfl
  | accept _ => exact h.ofHost (by rintro ⟨⟩) rfl rfl
  | @send rank hostsSeen c todo _ _ _ _ hsend =>
      rw [sendTopology] at hsend
      cases hphase : (s.hosts c.hostName).phase <;> rw [hphase] at hsend <;> cases hsend
      exact h.ofHost (by rintro ⟨⟩) rfl rfl
  | spawn _ | spawnedAll _ | connect _ _ | skip _ _ | leave _ _ _ | propagated _ =>
      exact ⟨h.gaveUp, h.waits⟩
  | timeOut _ | goOn _ _ | exit _ _ _ _ => exact hpatient.elim

lemma undisturbed_run (hrun : Reaches (step t) (fun _ => Patient) (State.initial t) s) :
    Undisturbed s := by
  refine hrun.keeps ⟨rfl, fun host => ?_⟩ fun h hpatient hstep => undisturbed_step h hpatient hstep
  dsimp only [State.initial]
  split_ifs <;> rintro ⟨⟩

lemma Invariant.root_accepts (inv : Invariant t s) (hcalm : Undisturbed s) :
    (s.procs t.graph.rank).accepts = true := by
  have hroot := inv.root
  have hfits := inv.fits t.graph (root_mem _)
  generalize s.procs t.graph.rank = phase at hroot hfits ⊢
  cases hfits with
  | propagating _ _ _ _ _ _ => rfl
  | started _ =>
      rw [t.kindOf_internal t.root_internal]
      rfl
  | exited hgaveUp =>
      rw [hcalm.gaveUp] at hgaveUp
      cases hgaveUp
  | absent _ | spawning _ _ _ _ _ | connecting _ _ _ => cases hroot

section Rest

variable (hrest : Rests (step t) (fun _ => Patient) s)
include hrest

lemma rest_not_spawning {rank : Rank} {pos : TopologyPosition} {todo : List TopologyPosition} :
    s.procs rank ≠ .spawning pos todo := by
  intro h
  cases todo with
  | nil =>
      have hnone := hrest (.spawnedAll rank) trivial
      rw [step, spawnedAll, h] at hnone
      cases hnone
  | cons tpos todo =>
      have hnone := hrest (.spawn rank) trivial
      rw [step, spawn, h] at hnone
      cases hnone

lemma rest_not_launched {host : Text} : (s.hosts host).phase ≠ .launched := by
  intro h
  have hnone := hrest (.listen host) trivial
  rw [step, listen, h] at hnone
  cases hnone

lemma rest_not_propagating (inv : Invariant t s) (hcalm : Undisturbed s) {rank : Rank}
    {hostsSeen : List Text} {todo : List Graph} : s.procs rank ≠ .propagating hostsSeen todo := by
  intro h
  obtain ⟨x, hx, rfl⟩ := inv.known rank (by rw [h]; exact fun heq => by cases heq)
  cases todo with
  | nil =>
      have hnone := hrest (.propagated x.rank) trivial
      rw [step, propagated, h] at hnone
      cases hnone
  | cons c todo =>
      have hnone := hrest (.propagate x.rank) trivial
      rw [step, propagate, h] at hnone
      dsimp only at hnone
      split_ifs at hnone with _ hclosest
      have hcv := child_mem_visits t.leafBackEnds hx (inv.ahead_child hx h)
      obtain ⟨phase, hhost, habsent, hclosed⟩ := inv.unsent hx h
        ((closestToRoot_iff t.leafBackEnds t.distinct (Topology.below_of_visited hcv)).mp hclosest)
      rw [sendTopology, hhost] at hnone
      cases phase with
      | absent => exact habsent rfl
      | launched => exact rest_not_launched hrest (congrArg HostState.phase hhost)
      | listening => cases hnone
      | closed => exact hclosed rfl
      | timedOut => exact hcalm.waits _ (congrArg HostState.phase hhost)

/-- The topology has arrived wherever it has been sent to. -/
lemma rest_closed (inv : Invariant t s) {host : Text} (hsent : (s.hosts host).sent) :
    (s.hosts host).phase = .closed := by
  have hfits := inv.hosts host
  cases hhost : s.hosts host with
  | mk phase connections =>
      rw [hhost] at hsent hfits
      cases hfits with
      | closed => rfl
      | sent hf hname =>
          have hnone := hrest (.accept host) trivial
          rw [step, accept, hhost] at hnone
          cases hnone
      | absent _ | launched _ | listening _ | timedOut _ =>
          exact hsent.elim (fun h => absurd rfl h) fun h => by cases h

/-- A process whose parent is started is started itself when it is not absent. -/
lemma rest_started (inv : Invariant t s) (hcalm : Undisturbed s) {q : Graph}
    (hq : q ∈ t.graph.subgraphs)
    (hxq : x ∈ q.children) (hparent : (s.procs q.rank).accepts = true)
    (hpresent : s.procs x.rank ≠ .absent) : s.procs x.rank = .started (t.kindOf x) := by
  have hx := Topology.below_of_visited (child_mem_visits t.leafBackEnds hq hxq)
  have hfits := inv.fits x hx
  cases hphase : s.procs x.rank with
  | absent => exact absurd hphase hpresent
  | spawning pos todo => exact absurd hphase (rest_not_spawning hrest)
  | propagating hostsSeen todo => exact absurd hphase (rest_not_propagating hrest inv hcalm)
  | failed =>
      rw [hphase] at hfits
      cases hfits
  | exited todo =>
      rw [hphase] at hfits
      cases hfits with
      | exited hgaveUp =>
          rw [hcalm.gaveUp] at hgaveUp
          cases hgaveUp
  | started kind =>
      rw [hphase] at hfits
      cases hfits
      rfl
  | connecting kind pos =>
      rw [hphase] at hfits
      cases hfits with
      | connecting hpos hsub _ =>
          obtain ⟨q', hq', c, hc, rfl⟩ := (mem_positions t.leafBackEnds).mp hpos
          obtain rfl : c = x := hsub
          have hnone := hrest (.connect c.rank) trivial
          rw [parent_unique t.leafBackEnds t.distinct hq hq' hxq hc] at hparent
          rw [step, connect, hphase] at hnone
          cases (if_pos hparent).symm.trans hnone

/-- Every process other than the front-end is started when the topology is sent to every host. -/
lemma rest_all_started (inv : Invariant t s) (hcalm : Undisturbed s)
    (hhosts : ∀ c ∈ t.graph.children, c.hostName ≠ t.graph.hostName) :
    ∀ x ∈ visits t.graph, s.procs x.rank = .started (t.kindOf x) := by
  have haccepts : ∀ q ∈ t.graph.subgraphs, (q = t.graph ∨ s.procs q.rank = .started (t.kindOf q)) →
      q.children ≠ [] → (s.procs q.rank).accepts = true := by
    intro q hq hstarted hchildren
    rcases hstarted with rfl | hstarted
    · exact inv.root_accepts hcalm
    · have hinternal : q.isBackEnd = false := by
        rw [← Bool.not_eq_true]
        exact fun hback => hchildren (t.leafBackEnds q hq hback)
      rw [hstarted, t.kindOf_internal hinternal]
      rfl
  -- the induction is on the order of the visits
  refine visits_induction fun pre x post hsplit ih => ?_
  have hearlier : ∀ q, q = t.graph ∨ q ∈ pre → q ∈ t.graph.subgraphs := by
    rintro q (rfl | hq)
    · exact root_mem _
    · refine Topology.below_of_visited ?_
      rw [hsplit]
      exact List.mem_append_left _ hq
  have hstarted : ∀ q, q = t.graph ∨ q ∈ pre → q.children ≠ [] → (s.procs q.rank).accepts = true :=
    fun q hq => haccepts q (hearlier q hq) (hq.imp_right (ih q))
  have hx : x ∈ visits t.graph := by
    rw [hsplit]
    exact List.mem_append_right _ List.mem_cons_self
  -- the first process of the host has got the topology from its parent
  have hclosed : (s.hosts x.hostName).phase = .closed := by
    obtain ⟨f, -, hfx, hf⟩ := exists_closest hx
    obtain ⟨front, back, q, hfront, hother, hq, hfq⟩ := hf.split t.leafBackEnds
    have hbefore : front ⊆ pre := by
      rcases List.append_eq_append_iff.mp (hfront.symm.trans hsplit) with
        ⟨rest, rfl, -⟩ | ⟨rest, rfl, hrest⟩
      · exact List.subset_append_left _ _
      · cases rest with
        | nil => rw [List.append_nil]; exact List.Subset.refl _
        | cons y rest =>
            obtain rfl := (List.cons.inj hrest).1
            exact absurd hfx.symm (hother x (List.mem_append_right _ List.mem_cons_self))
    have hqpre := hq.imp_right fun hq => hbefore hq
    have hqs := hearlier q hqpre
    have haway : q.hostName ≠ f.hostName := by
      rcases hq with rfl | hq
      · exact (hhosts f hfq).symm
      · exact hother q hq
    have hpassed : f ∉ (s.procs q.rank).ahead q := by
      have haccepts := hstarted q hqpre (List.ne_nil_of_mem hfq)
      cases hphase : s.procs q.rank with
      | propagating hostsSeen todo => exact absurd hphase (rest_not_propagating hrest inv hcalm)
      | started kind => exact List.not_mem_nil
      | absent | spawning _ _ | connecting _ _ | exited _ | failed =>
          rw [hphase] at haccepts
          cases haccepts
    rw [← hfx]
    exact rest_closed hrest inv ((inv.sent q hqs f hfq hf).mpr ⟨hpassed, haway⟩)
  obtain ⟨p, hp, hxp⟩ := (visits_parentsFirst t.leafBackEnds).parent hsplit
  have hppre := hp.imp_left List.mem_singleton.mp
  refine rest_started hrest inv hcalm (hearlier p hppre) hxp
    (hstarted p hppre (List.ne_nil_of_mem hxp)) ?_
  obtain ⟨f, hfv, hfx, hf⟩ := exists_closest hx
  rw [ne_eq, inv.absent f hfv x hx hf hfx, hclosed, or_iff_right (not_not.mpr rfl)]
  cases hphase : s.procs f.rank with
  | spawning pos todo => exact absurd hphase (rest_not_spawning hrest)
  | _ => exact List.not_mem_nil

end Rest

/-- Without a child of the front-end on its own host, and only then, every process is started. -/
lemma not_started_on_host (inv : Invariant t s) {c : Graph} (hc : c ∈ t.graph.children)
    (hhost : c.hostName = t.graph.hostName) : s.procs c.rank = .absent := by
  have hcv := child_mem_visits t.leafBackEnds (root_mem t.graph) hc
  obtain ⟨f, hfv, hfc, hf⟩ := exists_closest hcv
  have hfirst : f ∈ t.graph.children := by
    rw [IsClosest, hfc, findClosestHostToRoot_eq, visits_eq, List.find?_append] at hf
    cases hfound : t.graph.children.find? (·.hostName = c.hostName) with
    | none =>
        have hnot := List.find?_eq_none.mp hfound c hc
        exact absurd (decide_eq_true rfl) hnot
    | some d =>
        rw [hfound, Option.some_or] at hf
        exact Option.some_inj.mp hf ▸ List.mem_of_find?_eq_some hfound
  have hunsent := inv.sent t.graph (root_mem t.graph) f hfirst hf
  refine (inv.absent f hfv c hcv hf hfc).mpr (.inl fun hclosed => ?_)
  rw [← hfc] at hclosed
  exact (hunsent.mp (.inr hclosed)).2 (hhost.symm.trans hfc.symm)

/-- A process with one back-end on its own host and one on another. -/
def twoHosts : Graph :=
  ⟨['f'], 0, 0, false, [⟨['a'], 1, 1, false, [⟨['a'], 2, 2, true, []⟩, ⟨['b'], 3, 3, true, []⟩]⟩]⟩

lemma twoHosts_distinct : twoHosts.DistinctRanks := by
  have hranks : twoHosts.subgraphs.map Graph.rank = [0, 1, 2, 3] := by
    simp [twoHosts, Graph.subgraphs_eq]
  rw [Graph.DistinctRanks, hranks]
  decide

lemma twoHosts_leafBackEnds : LeafBackEnds twoHosts := by
  simp [LeafBackEnds, twoHosts, Graph.subgraphs_eq]

def twoHostsTopology : Topology where
  graph := twoHosts
  distinct := twoHosts_distinct
  leafBackEnds := twoHosts_leafBackEnds
  root_internal := rfl
  beArgs := true

/-- The back-end 2 gives up, as its parent has not got to its children. -/
def twoHostsActions : List Action :=
  [.listen ['a'], .propagate 0, .accept ['a'], .spawn 1, .giveUp 2, .spawnedAll 1, .connect 1,
    .propagate 1, .listen ['b'], .propagate 1, .propagated 0, .accept ['b'], .spawnedAll 3,
    .propagated 1, .connect 3]

/-- Only those gave up that did so in the run. -/
lemma gaveUp_of_run {acts : List Action} {s₀ : State} (hrun : runSchedule (step t) s₀ acts = some s) :
    ∀ rank ∈ s.gaveUp, rank ∈ s₀.gaveUp ∨ .giveUp rank ∈ acts := by
  induction acts generalizing s₀ with
  | nil =>
      cases hrun
      exact fun rank hrank => .inl hrank
  | cons act acts ih =>
      rw [runSchedule, List.foldlM_cons] at hrun
      obtain ⟨s₁, hstep, hrun⟩ := Option.bind_eq_some_iff.mp hrun
      intro rank hrank
      rcases ih hrun rank hrank with hrank | hmem
      · have hone : s₁.gaveUp = s₀.gaveUp ∨ ∃ r, act = .giveUp r ∧ s₁.gaveUp = r :: s₀.gaveUp := by
          cases step_of_eq_some hstep with
          | goOn _ _ | exit _ _ _ _ => exact .inr ⟨_, rfl, rfl⟩
          | @send rank hostsSeen c todo _ _ _ _ hsend =>
              rw [sendTopology] at hsend
              cases hphase : (s₀.hosts c.hostName).phase <;> rw [hphase] at hsend <;> cases hsend
              exact .inl rfl
          | _ => exact .inl rfl
        rcases hone with hsame | ⟨r, rfl, hmore⟩
        · exact .inl (hsame ▸ hrank)
        · rw [hmore] at hrank
          rcases List.mem_cons.mp hrank with rfl | hrank
          · exact .inr List.mem_cons_self
          · exact .inl hrank
      · exact .inr (List.mem_cons_of_mem _ hmem)

/-- In every run a process that sends the topology finds the first process of the host, which
nobody else has sent it to, unless this one has timed out. No topology socket is connected to twice
and no position is given to two processes. What has started is connected as the topology says,
unless it gave up. -/
theorem one_process_for_each_position {acts : List Action}
    (hrun : runSchedule (step t) (State.initial t) acts = some s) :
    (∀ rank, s.procs rank ≠ .failed) ∧
      (∀ rank hostsSeen c todo, s.procs rank = .propagating hostsSeen (c :: todo) →
        c.hostName ∉ hostsSeen → closestToRoot t.graph c.hostName c.rank = true →
        (s.hosts c.hostName).phase ≠ .absent ∧ (s.hosts c.hostName).phase ≠ .closed) ∧
      (∀ host, (s.hosts host).connections.length ≤ 1) ∧ s.spawned.Nodup ∧
      ∀ rank ∈ s.spawned, ∃ p ∈ positions t.graph, p.myRank = rank ∧
        (∀ kind, s.procs rank = .started kind → kind = t.kindOf p.subtree ∧
          (s.parents rank = some p.parentRank ∨ s.parents rank = none ∧ .giveUp rank ∈ acts)) ∧
        ∀ todo, s.procs rank = .exited todo → .giveUp rank ∈ acts := by
  have inv := invariant_run (reaches_any hrun)
  have hgaveUp : ∀ rank ∈ s.gaveUp, .giveUp rank ∈ acts := fun rank hrank =>
    (gaveUp_of_run hrun rank hrank).resolve_left List.not_mem_nil
  refine ⟨fun rank hfailed => ?_, fun rank hostsSeen c todo hphase _ hclosest => ?_, fun host => ?_,
    inv.nodup, fun rank hmem => ?_⟩
  · obtain ⟨x, hx, rfl⟩ := inv.known rank (by rw [hfailed]; exact fun heq => by cases heq)
    have hfits := inv.fits x hx
    rw [hfailed] at hfits
    cases hfits
  · obtain ⟨x, hx, rfl⟩ := inv.known rank (by rw [hphase]; exact fun heq => by cases heq)
    have hcv := child_mem_visits t.leafBackEnds hx (inv.ahead_child hx hphase)
    obtain ⟨phase, hhost, habsent, hclosed⟩ := inv.unsent hx hphase
      ((closestToRoot_iff t.leafBackEnds t.distinct (Topology.below_of_visited hcv)).mp hclosest)
    rw [hhost]
    exact ⟨habsent, hclosed⟩
  · have hfits := inv.hosts host
    generalize s.hosts host = state at hfits
    cases hfits with
    | sent _ _ => exact le_rfl
    | absent _ | launched _ | listening _ | closed | timedOut _ => exact Nat.zero_le _
  · obtain ⟨x, hx, rfl, -⟩ := (inv.spawned rank).mp hmem
    obtain ⟨p, hp, rfl⟩ := t.exists_position hx
    have hfits := inv.fits _ (Topology.below_of_visited hx)
    refine ⟨p, hp, (positions_fields t.leafBackEnds hp).2, fun kind hkind => ?_,
      fun todo hexited => ?_⟩
    · rw [hkind] at hfits
      cases hfits with
      | started hparent =>
          refine ⟨rfl, hparent.symm.imp (fun hparent => ?_) fun hnone => ⟨hnone.1, hgaveUp _ hnone.2⟩⟩
          obtain ⟨q, hq, c, hc, rfl⟩ := (mem_positions t.leafBackEnds).mp hp
          exact hparent q hq hc
    · rw [hexited] at hfits
      cases hfits with
      | exited hmem => exact hgaveUp _ hmem

theorem one_process_for_each_position_twoHosts : ∃ s,
    runSchedule (step twoHostsTopology) (State.initial twoHostsTopology) twoHostsActions = some s ∧
      s.spawned = [3, 2, 1] ∧ s.spawned.Nodup ∧ s.parents 2 = none ∧ s.parents 3 = some 1 := by
  obtain ⟨s, hrun, hspawned, htwo, hthree⟩ : ∃ s,
      runSchedule (step twoHostsTopology) (State.initial twoHostsTopology) twoHostsActions = some s ∧
        s.spawned = [3, 2, 1] ∧ s.parents 2 = none ∧ s.procs 3 = .started .backEnd :=
    ⟨_, rfl, rfl, rfl, rfl⟩
  obtain ⟨-, -, -, hnodup, hall⟩ := one_process_for_each_position hrun
  refine ⟨s, hrun, hspawned, hnodup, htwo, ?_⟩
  obtain ⟨p, hp, hrank, hstarted, -⟩ := hall 3 (by rw [hspawned]; exact List.mem_cons_self)
  have hparent : p.parentRank = 1 := by
    have hall : ∀ p ∈ positions twoHosts, p.myRank = 3 → p.parentRank = 1 := by decide
    exact hall p hp hrank
  rcases (hstarted .backEnd hthree).2 with hsome | ⟨-, hmem⟩
  · rw [hsome, hparent]
  · simp [twoHostsActions] at hmem

/-- All processes have been started, each one once and below the parent of its position. -/
structure Completed (t : Topology) (s : State) : Prop where
  started : ∀ p ∈ positions t.graph, s.procs p.myRank = .started (t.kindOf p.subtree)
  attached : ∀ p ∈ positions t.graph, s.parents p.myRank = some p.parentRank
  once : s.spawned.Perm ((positions t.graph).map TopologyPosition.myRank)

lemma completed_of_started (inv : Invariant t s) (hcalm : Undisturbed s)
    (h : ∀ x ∈ visits t.graph, s.procs x.rank = .started (t.kindOf x)) : Completed t s := by
  have hstarted : ∀ p ∈ positions t.graph, s.procs p.myRank = .started (t.kindOf p.subtree) := by
    intro p hp
    rw [(positions_fields t.leafBackEnds hp).2]
    exact h _ (t.subtree_visited hp)
  refine ⟨hstarted, fun p hp => ?_, ?_⟩
  · have hfits := inv.fits _ (Topology.below_of_visited (t.subtree_visited hp))
    rw [h _ (t.subtree_visited hp)] at hfits
    cases hfits with
    | started hparent =>
        obtain ⟨q, hq, c, hc, rfl⟩ := (mem_positions t.leafBackEnds).mp hp
        rcases hparent with ⟨-, hmem⟩ | hparent
        · rw [hcalm.gaveUp] at hmem
          cases hmem
        · exact hparent q hq hc
  · refine (List.perm_ext_iff_of_nodup inv.nodup
      (nodup_positions t.leafBackEnds t.distinct)).mpr fun rank => ?_
    rw [inv.spawned rank, List.mem_map]
    constructor
    · rintro ⟨x, hx, rfl, -⟩
      obtain ⟨p, hp, rfl⟩ := t.exists_position hx
      exact ⟨p, hp, (positions_fields t.leafBackEnds hp).2⟩
    · rintro ⟨p, hp, rfl⟩
      refine ⟨p.subtree, t.subtree_visited hp, (positions_fields t.leafBackEnds hp).2.symm, ?_⟩
      rw [hstarted p hp]
      exact fun heq => by cases heq

/-- Every run comes to an end. If nobody stops waiting or connecting, then at the end all processes
are started if and only if the front-end has no child on its own host. -/
theorem relay_completes (t : Topology) :
    (∀ acts s, runSchedule (step t) (State.initial t) acts = some s →
      acts.length ≤ t.weight (State.initial t)) ∧
    ∀ s, Reaches (step t) (fun _ => Patient) (State.initial t) s →
      (∃ s', Reaches (step t) (fun _ => Patient) s s' ∧ Rests (step t) (fun _ => Patient) s') ∧
      (Rests (step t) (fun _ => Patient) s →
        (Completed t s ↔ ∀ c ∈ t.graph.children, c.hostName ≠ t.graph.hostName)) := by
  refine ⟨fun acts s hrun => ?_, fun s hrun => ?_⟩
  · have hdecreases : Decreases (step t) Any (Invariant t) t.weight := relay_decreases
    exact hdecreases.length_le (invariant_initial t) (allowedAll_of_forall fun _ _ => trivial) hrun
  · have inv : Invariant t s :=
      hrun.keeps (invariant_initial t) fun inv _ hstep => invariant_step inv hstep
    have hcalm := undisturbed_run hrun
    refine ⟨?_, fun hrest => ⟨fun hcompleted c hc hhost => ?_, fun hhosts => ?_⟩⟩
    · obtain ⟨s', hreach, -, hrest⟩ := relay_decreases.exists_rest inv
      exact ⟨s', hreach, hrest⟩
    · have habsent := not_started_on_host inv hc hhost
      have hstarted := hcompleted.started (positionIn t.graph c)
        ((mem_positions t.leafBackEnds).mpr ⟨t.graph, root_mem _, c, hc, rfl⟩)
      cases habsent.symm.trans hstarted
    · exact completed_of_started inv hcalm (rest_all_started hrest inv hcalm hhosts)

theorem relay_completes_twoHosts : ∃ s,
    Reaches (step twoHostsTopology) (fun _ => Patient) (State.initial twoHostsTopology) s ∧
      Completed twoHostsTopology s := by
  obtain ⟨-, hall⟩ := relay_completes twoHostsTopology
  obtain ⟨s, hrun, hrest⟩ := (hall _ .refl).1
  refine ⟨s, hrun, ((hall s hrun).2 hrest).mpr ?_⟩
  intro c hc hhost
  rw [List.mem_singleton.mp hc] at hhost
  cases hhost

end MRNet.XTNetwork
