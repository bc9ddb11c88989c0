import MRNet.TimeOutFlush
import MRNet.TimerRuns

/-!
# The time of a flush

A node is run with a clock of the elapsed time that it is notified of, and with the times at
which the packets that its filters hold came in. A timer that was started for one wave runs on
when the wave is complete.
-/
namespace MRNet.TimeOut
open Codec Wire WaitForAll StreamPeers Timers
open Waves (received)

/-- The output of a call of the filter. -/
def Node.output (host : Host) (node : Node) (strmId : StreamId) (ipackets : List Packet) :
    Outcome (List Packet) := do
  let (_, _, opackets) ←
    sfilterTimeOut host node.net (node.params strmId) (node.localStorage strmId) ipackets
  return opackets

local instance : LawfulBEq StreamId := inferInstance

/-- What the filters emit in a step of the node. -/
def Node.emits (host : Host) (node : Node) : Activity → Outcome (List Packet)
  | .arrival packet =>
      match node.net.streams packet.streamId with
      | none => return []
      | some _ => node.output host packet.streamId [packet]
  | .notifyElapsed _ => return []
  | .flush strmId =>
      if strmId ∈ node.expired then
        match node.net.streams strmId with
        | none => return []
        | some _ => node.output host strmId []
      else return []

def Node.queue (node : Node) (strmId : StreamId) (r : Rank) : List Packet :=
  (bufferOf (node.localStorage strmId)).queue r

/-- The node after a call of the filter of a stream. -/
def Node.pushed (node : Node) (strmId : StreamId) (net : Net) (storage : Option ToState) : Node :=
  { node with
    net := net
    localStorage := Function.update node.localStorage strmId storage }

@[simp] lemma Node.pushed_self (node : Node) (strmId : StreamId) (net : Net)
    (storage : Option ToState) : (node.pushed strmId net storage).localStorage strmId = storage :=
  Function.update_self _ _ _

@[simp] lemma Node.pushed_of_ne (node : Node) {strmId id : StreamId} (hne : id ≠ strmId) (net : Net)
    (storage : Option ToState) :
    (node.pushed strmId net storage).localStorage id = node.localStorage id :=
  Function.update_of_ne hne _ _

@[simp] lemma Node.queue_pushed (node : Node) (strmId : StreamId) (net : Net) (state : ToState)
    (r : Rank) : (node.pushed strmId net (some state)).queue strmId r = state.queue r := by
  rw [Node.queue, Node.pushed_self]
  rfl

/-- The last elements of a list. -/
def latest (k : ℕ) (times : List ℕ) : List ℕ := times.drop (times.length - k)

/-- A node with the time, the times of arrival of the packets in the queues of its filters, and
the times of the last complete waves. -/
structure Timed where
  node : Node
  clock : ℕ
  times : StreamId → Rank → List ℕ
  lastWave : StreamId → Option ℕ

namespace Timed

def start (node : Node) : Timed := ⟨node, 0, fun _ _ => [], fun _ => none⟩

/-- The queues are first-in first-out, so that a queue holds the latest packets of its rank. A
packet of unknown inlet is no wave. -/
def next (s : Timed) (node : Node) (out : List Packet) : Activity → Timed
  | .arrival p =>
      { node
        clock := s.clock
        times := fun id r => latest (node.queue id r).length
          (s.times id r ++ if p.streamId = id ∧ p.inletRank = r then [s.clock] else [])
        lastWave :=
          if out ≠ [] ∧ p.inletRank ≠ unknownRank then
            Function.update s.lastWave p.streamId (some s.clock)
          else s.lastWave }
  | .notifyElapsed elapsedMs => { s with node, clock := s.clock + elapsedMs.toNat }
  | .flush _ =>
      { s with
        node
        times := fun id r => latest (node.queue id r).length (s.times id r) }

def step (host : Host) (s : Timed) (activity : Activity) : Outcome Timed := do
  let node ← s.node.step host activity
  let out ← s.node.emits host activity
  return s.next node out activity

/-- The filter of the stream has asked for a timer since its last wave. -/
def Active (s : Timed) (strmId : StreamId) : Prop :=
  ∃ state, s.node.localStorage strmId = some state ∧ state.activeTimeout = true

/-- A flush that finds packets is that of the timer that the filter asked for, and a packet that
is dropped starts no timer. -/
def Allowed (s : Timed) : Activity → Prop
  | .arrival p => s.node.net.nodeFailed p.inletRank = true → s.Active p.streamId
  | .notifyElapsed _ => True
  | .flush strmId => s.node.Holds strmId → s.Active strmId ∧
      ∀ tk, s.node.net.timeKeeper = some tk → ¬tk.Registered strmId

/-- The states that are reached by activities that meet a condition. -/
inductive Reached (host : Host) (condition : Timed → Activity → Prop) (node : Node) : Timed → Prop
  | start : Reached host condition node (start node)
  | step {s s' : Timed} {activity : Activity} (h : Reached host condition node s)
      (hcondition : condition s activity) (hstep : s.step host activity = .ok s') :
      Reached host condition node s'

/-- The timeout has passed since the oldest packet of the stream came, and since its last wave. -/
def Late (s : Timed) (strmId : StreamId) (timeoutMs : ℕ) : Prop :=
  (∃ r, ∃ t ∈ s.times strmId r, t + timeoutMs ≤ s.clock) ∧
    ∀ w, s.lastWave strmId = some w → w + timeoutMs ≤ s.clock

end Timed

lemma latest_of_length {k : ℕ} {times : List ℕ} (h : times.length = k) : latest k times = times := by
  rw [latest, h, Nat.sub_self]
  rfl

lemma latest_zero (times : List ℕ) : latest 0 times = [] := by
  rw [latest, Nat.sub_zero, List.drop_length]

lemma length_latest {k : ℕ} {times : List ℕ} (h : k ≤ times.length) :
    (latest k times).length = k := by
  rw [latest, List.length_drop]
  omega

/-- A timer that the filter asked for was started by a packet that is in a queue and after the
last wave. It runs until the timeout has passed. -/
def Timed.Running (s : Timed) (strmId : StreamId) (timeoutMs : ℕ) : Prop :=
  ∃ started, (∃ r, ∃ t ∈ s.times strmId r, t ≤ started) ∧
    (∀ w, s.lastWave strmId = some w → w ≤ started) ∧
    ∀ tk, s.node.net.timeKeeper = some tk →
      (∀ v, (strmId, v) ∈ tk.strmTimeouts → started + timeoutMs ≤ s.clock + v.toNat) ∧
      ((∀ v, (strmId, v) ∉ tk.strmTimeouts) → started + timeoutMs ≤ s.clock)

/-- What holds of a stream with a timeout. -/
structure Timed.Watched (host : Host) (s : Timed) (strmId : StreamId) (timeoutMs : BitVec 32) :
    Prop where
  found : (s.node.net.streams strmId).isSome
  timeout : configTimeout host (s.node.params strmId) = .ok timeoutMs
  ready : ReadyExact (bufferOf (s.node.localStorage strmId))
  inlet : ∀ r, ∀ q ∈ s.node.queue strmId r, q.inletRank = r
  failed : ∀ r, s.node.net.nodeFailed r = true → s.node.queue strmId r = []
  unknown : s.node.queue strmId unknownRank = []
  times : ∀ r, (s.times strmId r).length = (s.node.queue strmId r).length
  waves : ∀ w, s.lastWave strmId = some w → w ≤ s.clock
  running : s.Active strmId → s.Running strmId timeoutMs.toNat

section Steps

variable {host : Host} {s s' : Timed} {strmId : StreamId} {timeoutMs : BitVec 32}

/-- A stream whose queues and timer are left alone. -/
lemma Timed.Watched.frame (h : s.Watched host strmId timeoutMs)
    (hready : ReadyExact (bufferOf (s'.node.localStorage strmId)))
    (hqueue : ∀ r, s'.node.queue strmId r = s.node.queue strmId r)
    (hactive : s'.Active strmId → s.Active strmId) (hparams : s'.node.params = s.node.params)
    (hsteady : Steady s.node.net s'.node.net) (hclock : s'.clock = s.clock)
    (htimes : s'.times strmId = s.times strmId) (hwave : s'.lastWave strmId = s.lastWave strmId)
    (hentries : ∀ tk', s'.node.net.timeKeeper = some tk' →
      ∃ tk, s.node.net.timeKeeper = some tk ∧
        ∀ v, (strmId, v) ∈ tk'.strmTimeouts ↔ (strmId, v) ∈ tk.strmTimeouts) :
    s'.Watched host strmId timeoutMs := by
  refine ⟨?_, ?_, hready, fun r => ?_, fun r hr => ?_, ?_, fun r => ?_, fun w hw => ?_,
    fun hasked => ?_⟩
  · rw [hsteady.streams]
    exact h.found
  · rw [hparams]
    exact h.timeout
  · rw [hqueue]
    exact h.inlet r
  · rw [hsteady.nodeFailed] at hr
    rw [hqueue]
    exact h.failed r hr
  · rw [hqueue]
    exact h.unknown
  · rw [hqueue, htimes]
    exact h.times r
  · rw [hwave] at hw
    rw [hclock]
    exact h.waves w hw
  · obtain ⟨started, holdest, hwaves, htimer⟩ := h.running (hactive hasked)
    refine ⟨started, ?_, ?_, fun tk' htk' => ?_⟩
    · rw [htimes]
      exact holdest
    · rw [hwave]
      exact hwaves
    · obtain ⟨tk, htk, hmem⟩ := hentries tk' htk'
      rw [hclock]
      simp only [hmem]
      exact htimer tk htk

/-- A filter without a running timer asks for one, and gets it if the stream has none. -/
lemma setTimeout_entries {net : Net} {active : Bool} {tk' : TimeKeeper}
    (h : (setTimeout net active strmId timeoutMs).1.timeKeeper = some tk') :
    ∃ tk, net.timeKeeper = some tk ∧ ∀ id v, (id, v) ∈ tk'.strmTimeouts ↔
      (id, v) ∈ tk.strmTimeouts ∨
        active = false ∧ strmId = id ∧ v = timeoutMs ∧ ∀ u, (id, u) ∉ tk.strmTimeouts := by
  cases active with
  | true => exact ⟨tk', h, fun id v => by simp⟩
  | false =>
      cases htk : net.timeKeeper with
      | none =>
          rw [setTimeout, if_neg Bool.false_ne_true, htk] at h
          exact absurd (htk.symm.trans h) (Option.some_ne_none tk').symm
      | some tk =>
          rw [setTimeout, if_neg Bool.false_ne_true, htk] at h
          cases h
          refine ⟨tk, rfl, fun id v => TimeKeeper.mem_registerTimeout.trans ?_⟩
          rw [and_iff_right rfl]

lemma setTimeout_asks {net : Net} (h : (setTimeout net false strmId timeoutMs).2 = true) :
    ∃ tk, net.timeKeeper = some tk ∧ ∀ v, (strmId, v) ∉ tk.strmTimeouts := by
  rw [setTimeout, if_neg Bool.false_ne_true] at h
  cases htk : net.timeKeeper with
  | none =>
      rw [htk] at h
      cases h
  | some tk =>
      rw [htk] at h
      exact ⟨tk, rfl, TimeKeeper.registerTimeout_snd.mp h⟩

/-- Nothing is held for failed nodes, so that nothing is discarded. -/
lemma recoverState_queues {net : Net} {storage : Option ToState}
    (hready : ReadyExact (bufferOf storage))
    (hfailed : ∀ r, net.nodeFailed r = true → (bufferOf storage).queue r = []) :
    (∀ r, (recoverState net storage).queue r = (bufferOf storage).queue r) ∧
      ReadyExact (recoverState net storage).toWfaState := by
  cases storage with
  | none => exact ⟨fun _ => rfl, hready⟩
  | some state =>
      obtain ⟨hqueue, hrecovered⟩ :=
        discardFailed_spec net.buffers state.packetsByRank.keys.sort hready
      refine ⟨fun r => (hqueue r).trans ?_, hrecovered⟩
      split_ifs with hr
      · exact (hfailed r hr.2).symm
      · rfl

/-- A call with a packet of a known inlet. -/
lemma sfilterTimeOut_known {net : Net} {config : Option Packet} {storage : Option ToState}
    {p : Packet} {stream : StreamPeers.Stream} (hconfig : configTimeout host config = .ok timeoutMs)
    (htimeout : timeoutMs ≠ 0) (hstream : net.streams p.streamId = some stream)
    (hinlet : p.inletRank ≠ unknownRank) :
    sfilterTimeOut host net config storage [p] =
      let asked := setTimeout (met net stream p).net (recoverState net storage).activeTimeout
        p.streamId timeoutMs
      let buffer := placed net storage p
      if buffer.readyPeers.card < (met net stream p).peers.card then
        .ok (asked.1, some ⟨buffer, asked.2⟩, [])
      else
        .ok (asked.1, some ⟨(popWave buffer.packetsByRank.keys.sort buffer).1, false⟩,
          (popWave buffer.packetsByRank.keys.sort buffer).2) := by
  rw [sfilterTimeOut, hconfig, ok_bind, if_neg htimeout]
  dsimp only
  rw [hstream]
  dsimp only
  simp only [List.length_singleton, decide_true, placeAll_single stream hinlet]
  split_ifs <;> rfl

lemma sfilterTimeOut_unknown {net : Net} {config : Option Packet} {storage : Option ToState}
    {p : Packet} {stream : StreamPeers.Stream} (hconfig : configTimeout host config = .ok timeoutMs)
    (htimeout : timeoutMs ≠ 0) (hstream : net.streams p.streamId = some stream)
    (hinlet : p.inletRank = unknownRank) :
    sfilterTimeOut host net config storage [p] =
      .ok (net, some (recoverState net storage), [p]) := by
  rw [sfilterTimeOut, hconfig, ok_bind, if_neg htimeout]
  dsimp only
  rw [hstream]
  dsimp only
  simp only [List.length_singleton, decide_true, placeAll, hinlet]
  rfl

/-- A step with a packet on a stream that is found. -/
lemma arrival_step {p : Packet} {stream : StreamPeers.Stream}
    (hstream : s.node.net.streams p.streamId = some stream)
    (hstep : s.step host (.arrival p) = .ok s') :
    ∃ net storage out, sfilterTimeOut host s.node.net (s.node.params p.streamId)
        (s.node.localStorage p.streamId) [p] = .ok (net, storage, out) ∧
      s' = s.next (s.node.pushed p.streamId net storage) out (.arrival p) := by
  obtain ⟨node, hnode, hstep⟩ := bind_ok_iff.mp hstep
  obtain ⟨out, hout, hstep⟩ := bind_ok_iff.mp hstep
  cases hstep
  simp only [Node.step, hstream] at hnode
  simp only [Node.emits, hstream] at hout
  obtain ⟨⟨net, storage, opackets⟩, hcall, hnode⟩ := bind_ok_iff.mp hnode
  obtain ⟨result, hcall', hout⟩ := bind_ok_iff.mp hout
  cases hcall.symm.trans hcall'
  cases hnode
  cases hout
  exact ⟨net, storage, _, hcall, rfl⟩

/-- The times of a stream without an arrival. -/
lemma Timed.Watched.times_eq (h : s.Watched host strmId timeoutMs) {node : Node}
    (hqueue : ∀ r, node.queue strmId r = s.node.queue strmId r) :
    (fun r => latest (node.queue strmId r).length (s.times strmId r)) = s.times strmId := by
  funext r
  rw [hqueue]
  exact latest_of_length (h.times r)

/-- The timers of the other streams run on. -/
lemma Arrival.entries {net net' : Net} {config : Option Packet} {storage storage' : Option ToState}
    {p : Packet} {out : List Packet} (hcase : Arrival host net config storage p net' storage' out)
    (hne : p.streamId ≠ strmId) {tk' : TimeKeeper} (htk' : net'.timeKeeper = some tk') :
    ∃ tk, net.timeKeeper = some tk ∧
      ∀ v, (strmId, v) ∈ tk'.strmTimeouts ↔ (strmId, v) ∈ tk.strmTimeouts := by
  cases hcase with
  | passed => exact ⟨tk', htk', fun _ => Iff.rfl⟩
  | noStream => exact ⟨tk', htk', fun _ => Iff.rfl⟩
  | unknownInlet => exact ⟨tk', htk', fun _ => Iff.rfl⟩
  | waits stream =>
      obtain ⟨tk, htk, hentries⟩ := setTimeout_entries htk'
      refine ⟨tk, (met_timeKeeper net stream p).symm.trans htk, fun v => ?_⟩
      rw [hentries]
      exact or_iff_left fun h => hne h.2.1
  | wave stream =>
      obtain ⟨tk, htk, hentries⟩ := setTimeout_entries htk'
      refine ⟨tk, (met_timeKeeper net stream p).symm.trans htk, fun v => ?_⟩
      rw [hentries]
      exact or_iff_left fun h => hne h.2.1

/-- A packet of another stream. -/
lemma Timed.Watched.arrival_other (h : s.Watched host strmId timeoutMs) {p : Packet}
    (hne : p.streamId ≠ strmId) (hstep : s.step host (.arrival p) = .ok s') :
    s'.Watched host strmId timeoutMs := by
  have hcame : ∀ r, (if p.streamId = strmId ∧ p.inletRank = r then [s.clock] else []) = [] :=
    fun r => if_neg fun hp => hne hp.1
  cases hstream : s.node.net.streams p.streamId with
  | none =>
      obtain ⟨node, hnode, hstep⟩ := bind_ok_iff.mp hstep
      obtain ⟨out, hout, hstep⟩ := bind_ok_iff.mp hstep
      simp only [Node.step, hstream] at hnode
      simp only [Node.emits, hstream] at hout
      cases hnode
      cases hout
      cases hstep
      refine h.frame h.ready (fun _ => rfl) id rfl (.refl _) rfl ?_ rfl fun tk htk =>
        ⟨tk, htk, fun _ => Iff.rfl⟩
      simp only [Timed.next, hcame, List.append_nil]
      exact h.times_eq fun _ => rfl
  | some stream =>
      obtain ⟨net, storage, out, hcall, rfl⟩ := arrival_step hstream hstep
      have hcase := arrival_cases hcall
      have hstorage := s.node.pushed_of_ne hne.symm net storage
      have hqueue : ∀ r, (s.node.pushed p.streamId net storage).queue strmId r =
          s.node.queue strmId r := fun r => by rw [Node.queue, hstorage, Node.queue]
      refine h.frame (hstorage ▸ h.ready) hqueue ?_ rfl hcase.steady rfl ?_ ?_
        fun tk => hcase.entries hne
      · rintro ⟨state, hstate, hactive⟩
        exact ⟨state, hstorage ▸ hstate, hactive⟩
      · simp only [Timed.next, hcame, List.append_nil]
        exact h.times_eq hqueue
      · simp only [Timed.next]
        split_ifs
        · exact Function.update_of_ne hne.symm _ _
        · rfl

/-- The queues with the packet, unless its node has failed. -/
lemma queue_placed (h : s.Watched host strmId timeoutMs) (p : Packet) (r : Rank) :
    (placed s.node.net (s.node.localStorage strmId) p).queue r = s.node.queue strmId r ++
      if s.node.net.nodeFailed p.inletRank = false ∧ p.inletRank = r then [p] else [] := by
  have hqueue := (recoverState_queues h.ready h.failed).1
  unfold placed
  cases hfailed : s.node.net.nodeFailed p.inletRank with
  | true =>
      rw [if_pos rfl, if_neg (fun hp => absurd hp.1 (by decide)), List.append_nil]
      exact hqueue r
  | false =>
      rw [if_neg Bool.false_ne_true, queue_place, hqueue]
      by_cases hr : p.inletRank = r
      · rw [if_pos hr, if_pos ⟨rfl, hr⟩]
        rfl
      · rw [if_neg hr, if_neg fun hp => hr hp.2, List.append_nil]
        rfl

lemma placed_readyExact (h : s.Watched host strmId timeoutMs) (p : Packet) :
    ReadyExact (placed s.node.net (s.node.localStorage strmId) p) := by
  have hready := (recoverState_queues h.ready h.failed).2
  unfold placed
  split_ifs
  · exact hready
  · exact hready.place p

/-- The times of the packets in these queues. -/
def placedTimes (s : Timed) (p : Packet) (r : Rank) : List ℕ :=
  s.times p.streamId r ++
    if s.node.net.nodeFailed p.inletRank = false ∧ p.inletRank = r then [s.clock] else []

lemma length_placedTimes {p : Packet} (h : s.Watched host p.streamId timeoutMs) (r : Rank) :
    (placedTimes s p r).length =
      ((placed s.node.net (s.node.localStorage p.streamId) p).queue r).length := by
  rw [placedTimes, queue_placed h, List.length_append, List.length_append, h.times]
  split_ifs <;> rfl

/-- The time of a packet that is dropped is not kept. -/
lemma latest_placedTimes {p : Packet} (h : s.Watched host p.streamId timeoutMs) {k : ℕ} {r : Rank}
    (hk : k ≤ (placedTimes s p r).length) :
    latest k (s.times p.streamId r ++
      if p.streamId = p.streamId ∧ p.inletRank = r then [s.clock] else []) =
        latest k (placedTimes s p r) := by
  rw [placedTimes] at hk ⊢
  by_cases hr : p.inletRank = r
  · rw [if_pos ⟨rfl, hr⟩]
    cases hfailed : s.node.net.nodeFailed p.inletRank with
    | false => rw [if_pos ⟨rfl, hr⟩]
    | true =>
        rw [hfailed, if_neg (fun hp => Bool.noConfusion hp.1), List.append_nil] at hk
        rw [if_neg (fun hp => Bool.noConfusion hp.1), List.append_nil]
        have hnone : s.times p.streamId r = [] := by
          rw [← List.length_eq_zero_iff, h.times, h.failed r (hr ▸ hfailed)]
          rfl
        rw [hnone] at hk ⊢
        obtain rfl := Nat.le_zero.mp hk
        exact latest_zero _
  · rw [if_neg fun hp => hr hp.2, if_neg fun hp => hr hp.2]

lemma active_recoverState (net : Net) {storage : Option ToState} :
    (recoverState net storage).activeTimeout = true ↔
      ∃ state, storage = some state ∧ state.activeTimeout = true := by
  cases storage with
  | none =>
      refine iff_of_false Bool.false_ne_true ?_
      rintro ⟨state, hstate, -⟩
      cases hstate
  | some state =>
      constructor
      · exact fun hactive => ⟨state, rfl, hactive⟩
      · rintro ⟨state', hstate, hactive⟩
        cases hstate
        exact hactive

/-- A packet of unknown inlet is passed on. -/
lemma Timed.Watched.arrival_unknown {p : Packet} (h : s.Watched host p.streamId timeoutMs)
    (htimeout : timeoutMs ≠ 0) (hinlet : p.inletRank = unknownRank)
    (hstep : s.step host (.arrival p) = .ok s') : s'.Watched host p.streamId timeoutMs := by
  obtain ⟨stream, hstream⟩ := Option.isSome_iff_exists.mp h.found
  obtain ⟨net, storage, out, hcall, rfl⟩ := arrival_step hstream hstep
  rw [sfilterTimeOut_unknown h.timeout htimeout hstream hinlet] at hcall
  cases hcall
  obtain ⟨hqueues, hready⟩ := recoverState_queues h.ready h.failed
  have hqueue : ∀ r, (s.node.pushed p.streamId s.node.net
      (some (recoverState s.node.net (s.node.localStorage p.streamId)))).queue p.streamId r =
        s.node.queue p.streamId r := fun r => (Node.queue_pushed _ _ _ _ r).trans (hqueues r)
  refine h.frame ?_ hqueue ?_ rfl (.refl _) rfl ?_ ?_ fun tk htk => ⟨tk, htk, fun _ => Iff.rfl⟩
  · simp only [Timed.next, Node.pushed_self]
    exact hready
  · rintro ⟨state, hstate, hactive⟩
    simp only [Timed.next, Node.pushed_self, Option.some.injEq] at hstate
    rw [← hstate] at hactive
    exact (active_recoverState _).mp hactive
  · funext r
    simp only [Timed.next, hqueue]
    by_cases hr : p.inletRank = r
    · have hnone : s.node.queue p.streamId r = [] := by
        rw [← hr, hinlet]
        exact h.unknown
      have htimes : s.times p.streamId r = [] := by
        rw [← List.length_eq_zero_iff, h.times, hnone, List.length_nil]
      rw [hnone, htimes]
      exact latest_zero _
    · rw [if_neg fun hp => hr hp.2, List.append_nil]
      exact latest_of_length (h.times r)
  · simp only [Timed.next]
    rw [if_neg fun hwave => hwave.2 hinlet]

lemma times_pushed {p : Packet} (h : s.Watched host p.streamId timeoutMs) (net : Net)
    {state : ToState} (out : List Packet) {r : Rank}
    (hle : (state.queue r).length ≤ (placedTimes s p r).length) :
    (s.next (s.node.pushed p.streamId net (some state)) out (.arrival p)).times p.streamId r =
      latest (state.queue r).length (placedTimes s p r) := by
  have hlatest := latest_placedTimes h hle
  rw [← Node.queue_pushed s.node p.streamId net] at hlatest ⊢
  exact hlatest

/-- After a packet was placed, some packets may be taken from the front of the queues. -/
lemma Timed.Watched.of_placed {p : Packet} (h : s.Watched host p.streamId timeoutMs)
    (hinlet : p.inletRank ≠ unknownRank) {net : Net} (hsteady : Steady s.node.net net)
    {state : ToState} (hready : ReadyExact state.toWfaState)
    (hsuffix : ∀ r, state.queue r <:+
      (placed s.node.net (s.node.localStorage p.streamId) p).queue r) (out : List Packet)
    (hrunning : state.activeTimeout = true →
      (s.next (s.node.pushed p.streamId net (some state)) out (.arrival p)).Running p.streamId
        timeoutMs.toNat) :
    (s.next (s.node.pushed p.streamId net (some state)) out (.arrival p)).Watched host p.streamId
      timeoutMs := by
  have hqueue := Node.queue_pushed s.node p.streamId net state
  refine ⟨?_, h.timeout, ?_, fun r q hq => ?_, fun r hr => ?_, ?_, fun r => ?_, fun w hw => ?_, ?_⟩
  · exact (hsteady.streams _).trans h.found
  · simp only [Timed.next, Node.pushed_self]
    exact hready
  · simp only [Timed.next, hqueue] at hq
    have hmem := (hsuffix r).subset hq
    rw [queue_placed h] at hmem
    rcases List.mem_append.mp hmem with hmem | hmem
    · exact h.inlet r q hmem
    · split_ifs at hmem with hp
      · rw [List.mem_singleton.mp hmem]
        exact hp.2
      · cases hmem
  · simp only [Timed.next, hqueue]
    have hfailed : s.node.net.nodeFailed r = true := by
      rw [← hsteady.nodeFailed]
      exact hr
    apply List.suffix_nil.mp
    refine (hsuffix r).trans ?_
    rw [queue_placed h, h.failed r hfailed, if_neg fun hp => ?_]
    · exact List.suffix_refl _
    · rw [hp.2, hfailed] at hp
      exact Bool.noConfusion hp.1
  · simp only [Timed.next, hqueue]
    apply List.suffix_nil.mp
    refine (hsuffix _).trans ?_
    rw [queue_placed h, h.unknown, if_neg fun hp => hinlet hp.2]
    exact List.suffix_refl _
  · have hle : (state.queue r).length ≤ (placedTimes s p r).length := by
      rw [length_placedTimes h]
      exact (hsuffix r).length_le
    rw [times_pushed h net out hle, length_latest hle]
    simp only [Timed.next, hqueue]
  · simp only [Timed.next] at hw ⊢
    split_ifs at hw
    · rw [Function.update_self] at hw
      cases hw
      exact le_rfl
    · exact h.waves w hw
  · rintro ⟨state', hstate, hactive⟩
    simp only [Timed.next, Node.pushed_self, Option.some.injEq] at hstate
    exact hrunning (hstate ▸ hactive)

/-- A packet that waits is in a queue, and its time is the latest. -/
lemma Timed.Watched.waits {p : Packet} (h : s.Watched host p.streamId timeoutMs)
    {stream : StreamPeers.Stream} (hstream : s.node.net.streams p.streamId = some stream)
    (hinlet : p.inletRank ≠ unknownRank) (hallowed : s.Allowed (.arrival p)) {asked : Net × Bool}
    (hasked : setTimeout (met s.node.net stream p).net
      (recoverState s.node.net (s.node.localStorage p.streamId)).activeTimeout p.streamId
        timeoutMs = asked) :
    (s.next (s.node.pushed p.streamId asked.1
      (some ⟨placed s.node.net (s.node.localStorage p.streamId) p, asked.2⟩)) []
        (.arrival p)).Watched host p.streamId timeoutMs := by
  have hsteady : Steady s.node.net asked.1 :=
    hasked ▸ (met_steady hstream).trans (setTimeout_steady _ _ _ _)
  have htk := met_timeKeeper s.node.net stream p
  refine h.of_placed hinlet hsteady (placed_readyExact h p) (fun r => List.suffix_refl _) []
    fun hset => ?_
  have htimes : ∀ r, (s.next (s.node.pushed p.streamId asked.1
      (some ⟨placed s.node.net (s.node.localStorage p.streamId) p, asked.2⟩)) []
        (.arrival p)).times p.streamId r = placedTimes s p r := by
    intro r
    have hlength := length_placedTimes h r
    exact (times_pushed h asked.1 [] hlength.ge).trans (latest_of_length hlength)
  cases hactive : (recoverState s.node.net (s.node.localStorage p.streamId)).activeTimeout with
  | true =>
      obtain ⟨started, ⟨r, t, ht, hle⟩, hwaves, htimer⟩ :=
        h.running ((active_recoverState _).mp hactive)
      rw [hactive, setTimeout, if_pos rfl] at hasked
      refine ⟨started, ⟨r, t, ?_, hle⟩, hwaves, fun tk htk' => htimer tk ?_⟩
      · rw [htimes]
        exact List.mem_append_left _ ht
      · rw [← htk, ← htk', ← hasked]
        rfl
  | false =>
      rw [hactive] at hasked
      have hlive : s.node.net.nodeFailed p.inletRank = false := by
        by_contra hfailed
        rw [Bool.not_eq_false] at hfailed
        have hrunning := (active_recoverState s.node.net).mpr (hallowed hfailed)
        exact Bool.false_ne_true (hactive.symm.trans hrunning)
      refine ⟨s.clock, ⟨p.inletRank, s.clock, ?_, le_rfl⟩, h.waves, fun tk' htk' => ?_⟩
      · rw [htimes, placedTimes, if_pos ⟨hlive, rfl⟩]
        exact List.mem_append_right _ List.mem_cons_self
      · obtain ⟨tk, htk'', hentries⟩ := setTimeout_entries (hasked ▸ htk')
        obtain ⟨tk₀, htk₀, hnone⟩ := setTimeout_asks (hasked ▸ hset)
        cases htk''.symm.trans htk₀
        constructor
        · intro v hv
          rcases (hentries _ v).mp hv with hmem | ⟨-, -, rfl, -⟩
          · exact absurd hmem (hnone v)
          · exact le_rfl
        · intro hempty
          exact absurd ((hentries p.streamId timeoutMs).mpr (.inr ⟨rfl, rfl, rfl, hnone⟩)) (hempty _)

/-- A wave takes the first packets of the queues. -/
lemma Timed.Watched.wave {p : Packet} (h : s.Watched host p.streamId timeoutMs)
    (hinlet : p.inletRank ≠ unknownRank) {net : Net} (hsteady : Steady s.node.net net)
    (out : List Packet) :
    (s.next (s.node.pushed p.streamId net
      (some ⟨(popWave (placed s.node.net (s.node.localStorage p.streamId) p).packetsByRank.keys.sort
        (placed s.node.net (s.node.localStorage p.streamId) p)).1, false⟩)) out
          (.arrival p)).Watched host p.streamId timeoutMs := by
  have hready := placed_readyExact h p
  have hnd := Finset.sort_nodup
    (placed s.node.net (s.node.localStorage p.streamId) p).packetsByRank.keys (· ≤ ·)
  refine h.of_placed hinlet hsteady (popWave_spec hnd _ hready).2.2.2 (fun r => ?_) out
    fun hasked => absurd hasked Bool.false_ne_true
  dsimp only
  rw [queue_popWave hready]
  exact List.tail_suffix _

lemma Timed.Watched.arrival_self {p : Packet} (h : s.Watched host p.streamId timeoutMs)
    (htimeout : timeoutMs ≠ 0) (hallowed : s.Allowed (.arrival p))
    (hstep : s.step host (.arrival p) = .ok s') : s'.Watched host p.streamId timeoutMs := by
  by_cases hinlet : p.inletRank = unknownRank
  · exact h.arrival_unknown htimeout hinlet hstep
  · obtain ⟨stream, hstream⟩ := Option.isSome_iff_exists.mp h.found
    obtain ⟨net, storage, out, hcall, rfl⟩ := arrival_step hstream hstep
    have hsteady := (arrival_cases hcall).steady
    rw [sfilterTimeOut_known h.timeout htimeout hstream hinlet] at hcall
    dsimp only at hcall
    split_ifs at hcall
    · cases hcall
      exact h.waits hstream hinlet hallowed rfl
    · cases hcall
      exact h.wave hinlet hsteady _

/-- A timer that is reported has run for its timeout. -/
lemma Timed.Watched.notifyElapsed (h : s.Watched host strmId timeoutMs) {elapsedMs : BitVec 32}
    (hstep : s.step host (.notifyElapsed elapsedMs) = .ok s') :
    s'.Watched host strmId timeoutMs := by
  obtain ⟨node, hnode, hstep⟩ := bind_ok_iff.mp hstep
  obtain ⟨out, -, hstep⟩ := bind_ok_iff.mp hstep
  cases hstep
  cases htk : s.node.net.timeKeeper with
  | none =>
      simp only [Node.step, htk] at hnode
      cases hnode
  | some tk =>
      simp only [Node.step, htk] at hnode
      cases hnode
      refine ⟨h.found, h.timeout, h.ready, h.inlet, h.failed, h.unknown, h.times,
        fun w hw => (h.waves w hw).trans (Nat.le_add_right _ _), fun hactive => ?_⟩
      obtain ⟨started, holdest, hwaves, htimer⟩ := h.running hactive
      obtain ⟨hruns, hgone⟩ := htimer tk htk
      refine ⟨started, holdest, hwaves, fun tk' htk' => ?_⟩
      cases htk'
      simp only [Timed.next, TimeKeeper.notifyElapsed]
      constructor
      · intro v hv
        obtain ⟨u, hu, hle, rfl⟩ := TimeKeeper.mem_notifyElapsed.mp hv
        obtain ⟨hsub, hlt⟩ := TimeKeeper.toNat_sub hle
        have hstarted := hruns u hu
        omega
      · intro hempty
        by_cases hbefore : ∀ v, (strmId, v) ∉ tk.strmTimeouts
        · exact (hgone hbefore).trans (Nat.le_add_right _ _)
        · obtain ⟨u, hu⟩ := not_forall_not.mp hbefore
          have hle : u ≤ elapsedMs := by
            by_contra hle
            exact hempty _ (TimeKeeper.mem_notifyElapsed.mpr ⟨u, hu, hle, rfl⟩)
          rw [BitVec.le_def] at hle
          have hstarted := hruns u hu
          omega

/-- A step with a flush. -/
lemma flush_step {id : StreamId} (hstep : s.step host (.flush id) = .ok s') :
    ∃ expired, s' = s.next { s.node with expired := expired } [] (.flush id) ∨
      ∃ storage out, sfilterTimeOut host s.node.net (s.node.params id) (s.node.localStorage id) [] =
          .ok (s.node.net, storage, out) ∧
        s' = s.next { s.node.pushed id s.node.net storage with expired := expired } out
          (.flush id) := by
  obtain ⟨node, hnode, hstep⟩ := bind_ok_iff.mp hstep
  obtain ⟨out, hout, hstep⟩ := bind_ok_iff.mp hstep
  cases hstep
  simp only [Node.step] at hnode
  simp only [Node.emits] at hout
  split_ifs at hnode hout with hexpired
  · cases hstream : s.node.net.streams id with
    | none =>
        simp only [hstream] at hnode hout
        cases hnode
        cases hout
        exact ⟨_, .inl rfl⟩
    | some stream =>
        simp only [hstream] at hnode hout
        obtain ⟨⟨net, storage, opackets⟩, hcall, hnode⟩ := bind_ok_iff.mp hnode
        obtain ⟨result, hcall', hout⟩ := bind_ok_iff.mp hout
        cases hcall.symm.trans hcall'
        cases hnode
        cases hout
        obtain rfl := (timeout_cases hcall).1
        exact ⟨_, .inr ⟨storage, _, hcall, rfl⟩⟩
  · cases hnode
    cases hout
    exact ⟨_, .inl rfl⟩

lemma Timed.Watched.emptied (h : s.Watched host strmId timeoutMs) {buffer : WfaState}
    (hready : ReadyExact buffer) (hempty : ∀ r, buffer.queue r = []) (expired : List StreamId)
    (out : List Packet) :
    (s.next { s.node.pushed strmId s.node.net (some ⟨buffer, false⟩) with expired := expired } out
      (.flush strmId)).Watched host strmId timeoutMs := by
  have hqueue : ∀ r, Node.queue { s.node.pushed strmId s.node.net (some ⟨buffer, false⟩) with
      expired := expired } strmId r = [] :=
    fun r => (Node.queue_pushed s.node strmId s.node.net _ r).trans (hempty r)
  refine ⟨h.found, h.timeout, ?_, fun r q hq => ?_, fun r _ => hqueue r, hqueue _, fun r => ?_,
    h.waves, ?_⟩
  · simp only [Timed.next, Node.pushed_self]
    exact hready
  · exact absurd hq (hqueue r ▸ List.not_mem_nil)
  · simp only [Timed.next, hqueue, List.length_nil, latest_zero]
  · rintro ⟨state, hstate, hactive⟩
    simp only [Timed.next, Node.pushed_self, Option.some.injEq] at hstate
    rw [← hstate] at hactive
    exact absurd hactive Bool.false_ne_true

/-- A flush leaves nothing in the filter, and the other filters alone. -/
lemma Timed.Watched.flush (h : s.Watched host strmId timeoutMs) (htimeout : timeoutMs ≠ 0)
    {id : StreamId} (hstep : s.step host (.flush id) = .ok s') :
    s'.Watched host strmId timeoutMs := by
  obtain ⟨expired, rfl | ⟨storage, out, hcall, rfl⟩⟩ := flush_step hstep
  · exact h.frame h.ready (fun _ => rfl) (fun hactive => hactive) rfl (.refl _) rfl
      (h.times_eq fun _ => rfl) rfl fun tk htk => ⟨tk, htk, fun _ => Iff.rfl⟩
  · by_cases hid : id = strmId
    · subst hid
      have hready := (recoverState_queues h.ready h.failed).2
      obtain ⟨-, ⟨hzero, -⟩ | ⟨-, rfl, -⟩⟩ := timeout_cases hcall
      · exact absurd (Except.ok.inj (h.timeout.symm.trans hzero)) htimeout
      · have hnd := Finset.sort_nodup
          (recoverState s.node.net (s.node.localStorage id)).packetsByRank.keys (· ≤ ·)
        exact h.emptied (popAll_spec hnd hready).2.2 (queue_popAll hready) expired out
    · have hstorage := s.node.pushed_of_ne (Ne.symm hid) s.node.net storage
      have hqueue : ∀ r, (s.node.pushed id s.node.net storage).queue strmId r =
          s.node.queue strmId r := fun r => by rw [Node.queue, hstorage, Node.queue]
      refine h.frame (hstorage ▸ h.ready) hqueue ?_ rfl (.refl _) rfl (h.times_eq hqueue) rfl
        fun tk htk => ⟨tk, htk, fun _ => Iff.rfl⟩
      rintro ⟨state, hstate, hactive⟩
      exact ⟨state, hstorage ▸ hstate, hactive⟩

lemma Timed.Watched.step (h : s.Watched host strmId timeoutMs) (htimeout : timeoutMs ≠ 0)
    {activity : Activity} (hallowed : s.Allowed activity)
    (hstep : s.step host activity = .ok s') : s'.Watched host strmId timeoutMs := by
  cases activity with
  | arrival p =>
      by_cases hp : p.streamId = strmId
      · subst hp
        exact h.arrival_self htimeout hallowed hstep
      · exact h.arrival_other hp hstep
  | notifyElapsed elapsedMs => exact h.notifyElapsed hstep
  | flush id => exact h.flush htimeout hstep

/-- A fresh node holds nothing. -/
lemma watched_start {node : Node} (hfresh : node.Fresh)
    (hfound : (node.net.streams strmId).isSome)
    (hconfig : configTimeout host (node.params strmId) = .ok timeoutMs) :
    (Timed.start node).Watched host strmId timeoutMs := by
  have hqueue : ∀ r, node.queue strmId r = [] := by
    intro r
    rw [Node.queue, hfresh.2 strmId]
    rfl
  refine ⟨hfound, hconfig, ?_, fun r q hq => ?_, fun r _ => hqueue r, hqueue _, fun r => ?_,
    fun w hw => (nomatch hw), ?_⟩
  · exact ((hfresh.watched host).filters strmId).ready
  · exact absurd hq (hqueue r ▸ List.not_mem_nil)
  · simp only [Timed.start, hqueue]
    rfl
  · rintro ⟨state, hstate, -⟩
    rw [Timed.start, hfresh.2 strmId] at hstate
    cases hstate

lemma Timed.Reached.watched {node : Node} (hfresh : node.Fresh)
    (hfound : (node.net.streams strmId).isSome)
    (hconfig : configTimeout host (node.params strmId) = .ok timeoutMs) (htimeout : timeoutMs ≠ 0)
    (h : Timed.Reached host Timed.Allowed node s) : s.Watched host strmId timeoutMs := by
  induction h with
  | start => exact watched_start hfresh hfound hconfig
  | step _ hallowed hstep ih => exact ih.step htimeout hallowed hstep

lemma Timed.Reached.nodeWatched {condition : Timed → Activity → Prop} {node : Node}
    (hfresh : node.Fresh) (h : Timed.Reached host condition node s) : s.node.Watched host := by
  induction h with
  | start => exact hfresh.watched host
  | @step s s' activity _ _ hstep ih =>
      obtain ⟨next, hnext, hstep⟩ := bind_ok_iff.mp hstep
      obtain ⟨out, -, hstep⟩ := bind_ok_iff.mp hstep
      cases hstep
      have hnode : (s.next next out activity).node = next := by cases activity <;> rfl
      rw [hnode]
      exact ih.step hnext

/-- A flush emits what is in the queues. -/
lemma emits_expired (h : s.Watched host strmId timeoutMs) (htimeout : timeoutMs ≠ 0)
    (hexpired : strmId ∈ s.node.expired) :
    ∃ out, s.node.emits host (.flush strmId) = .ok out ∧
      ∀ r, received Packet.inletRank out r = s.node.queue strmId r := by
  obtain ⟨stream, hstream⟩ := Option.isSome_iff_exists.mp h.found
  obtain ⟨hqueue, hready⟩ := recoverState_queues h.ready h.failed
  refine ⟨(popAll (recoverState s.node.net (s.node.localStorage strmId)).packetsByRank.keys.sort
    (recoverState s.node.net (s.node.localStorage strmId)).toWfaState).2, ?_, fun r => ?_⟩
  · simp only [Node.emits, if_pos hexpired, hstream, Node.output, sfilterTimeOut, h.timeout, ok_bind,
      if_neg htimeout]
    rfl
  · rw [received_popAll hready fun r q hq => h.inlet r q ?_, hqueue]
    · rfl
    · rw [hqueue] at hq
      exact hq

lemma emits_flush (h : s.Watched host strmId timeoutMs) (htimeout : timeoutMs ≠ 0)
    {out : List Packet} (hout : s.node.emits host (.flush strmId) = .ok out) :
    out = [] ∨ ∀ r, received Packet.inletRank out r = s.node.queue strmId r := by
  by_cases hexpired : strmId ∈ s.node.expired
  · obtain ⟨out', hout', hqueue⟩ := emits_expired h htimeout hexpired
    cases hout.symm.trans hout'
    exact .inr hqueue
  · simp only [Node.emits, if_neg hexpired] at hout
    cases hout
    exact .inl rfl

/-- In a run of allowed activities, a flush that emits packets comes when the timeout has passed
since the oldest of them came in and since the last wave. The times are those of the packets. -/
theorem flush_late {host : Host} {node : Node} (hfresh : node.Fresh) {strmId : StreamId}
    (hfound : (node.net.streams strmId).isSome) {timeoutMs : BitVec 32}
    (hconfig : configTimeout host (node.params strmId) = .ok timeoutMs) (htimeout : timeoutMs ≠ 0)
    {s : Timed} (hreached : Timed.Reached host Timed.Allowed node s)
    (hallowed : s.Allowed (.flush strmId))
    {out : List Packet} (hout : s.node.emits host (.flush strmId) = .ok out) (hne : out ≠ []) :
    s.Late strmId timeoutMs.toNat ∧
      ∀ r, (s.times strmId r).length = (received Packet.inletRank out r).length := by
  have hwatched := hreached.watched hfresh hfound hconfig htimeout
  have hemits := (emits_flush hwatched htimeout hout).resolve_left hne
  refine ⟨?_, fun r => by rw [hwatched.times, hemits]⟩
  obtain ⟨p, hp⟩ := List.exists_mem_of_ne_nil out hne
  have hholds : s.node.Holds strmId := by
    refine ⟨p.inletRank, fun hnil => ?_⟩
    have hmem : p ∈ received Packet.inletRank out p.inletRank :=
      List.mem_filter.mpr ⟨hp, decide_eq_true rfl⟩
    rw [hemits, Node.queue, hnil] at hmem
    cases hmem
  obtain ⟨hactive, hexpired⟩ := hallowed hholds
  obtain ⟨started, ⟨r, t, ht, hle⟩, hwaves, htimer⟩ := hwatched.running hactive
  obtain ⟨tk, htk⟩ := Option.isSome_iff_exists.mp (hreached.nodeWatched hfresh).timeKeeper
  have hpassed := (htimer tk htk).2 fun v hv => hexpired tk htk ⟨v, hv⟩
  refine ⟨⟨r, t, ht, by omega⟩, fun w hw => ?_⟩
  have hwave := hwaves w hw
  omega

end Steps

/-- The packet of one child waits for the timeout. -/
theorem flush_late_one_child :
    ∃ (s : Timed) (out : List Packet), s.node.emits (Host.ample .little) (.flush userStrmBaseId) =
      .ok out ∧ out.length = 1 ∧ s.Late userStrmBaseId 100 := by
  have hrun : ((Timed.start twoChildrenNode).step (Host.ample .little)
      (.arrival (userPacket 1 10)) >>= fun s => s.step (Host.ample .little) (.notifyElapsed 40) >>=
        fun s => s.step (Host.ample .little) (.notifyElapsed 60) >>= fun s =>
          s.node.emits (Host.ample .little) (.flush userStrmBaseId) >>= fun out =>
            .ok (out.length, s.node.localStorage userStrmBaseId |>.map ToState.activeTimeout,
              s.node.net.timeKeeper.map TimeKeeper.strmTimeouts)) =
      .ok (1, some true, some []) := by decide +kernel
  obtain ⟨s₁, harrival, hrun⟩ := bind_ok_iff.mp hrun
  obtain ⟨s₂, hfirst, hrun⟩ := bind_ok_iff.mp hrun
  obtain ⟨s₃, hsecond, hrun⟩ := bind_ok_iff.mp hrun
  obtain ⟨out, hout, hrun⟩ := bind_ok_iff.mp hrun
  simp only [Except.ok.injEq, Prod.mk.injEq] at hrun
  obtain ⟨hlength, hactive, htimers⟩ := hrun
  have hlive : (Timed.start twoChildrenNode).Allowed (.arrival (userPacket 1 10)) :=
    fun hfailed => absurd hfailed Bool.false_ne_true
  have hreached : Timed.Reached (Host.ample .little) Timed.Allowed twoChildrenNode s₃ :=
    .step (.step (.step .start hlive harrival) (show s₁.Allowed (.notifyElapsed 40) from trivial)
      hfirst) (show s₂.Allowed (.notifyElapsed 60) from trivial) hsecond
  have hallowed : s₃.Allowed (.flush userStrmBaseId) := by
    refine fun _ => ⟨Option.map_eq_some_iff.mp hactive, fun tk htk hregistered => ?_⟩
    obtain ⟨v, hv⟩ := hregistered
    rw [htk, Option.map_some, Option.some.injEq] at htimers
    rw [htimers] at hv
    cases hv
  have hconfig : configTimeout (Host.ample .little) (twoChildrenNode.params userStrmBaseId) =
      .ok 100 := rfl
  have hne : out ≠ [] := List.ne_nil_of_length_pos (by omega)
  exact ⟨s₃, out, hout, hlength, (flush_late ⟨rfl, fun _ => rfl⟩ rfl hconfig (by decide) hreached
    hallowed hout hne).1⟩

/-- A node with the topology stream, whose second child is not yet a peer. -/
def joiningNode : Node where
  net := {
    streams := fun id => if id = topolStrmId then some ⟨topolStrmId, [], [⟨1, 0⟩], false⟩ else none
    getOutletNode := fun r => some ⟨r, 0⟩
    nodeFailed := fun _ => false
    timeKeeper := some TimeKeeper.empty }
  params := fun _ => some (timeoutParams 100)
  localStorage := fun _ => none
  expired := []

/-- A packet of the topology stream. -/
def topologyPacket (rank : Rank) (tag : BitVec 32) : Packet :=
  (WaitForAll.arrival rank tag).setStreamId topolStrmId

/-- The timer that the first packet of rank 1 started flushes the packet of rank 2 within 50 ms
of its arrival and of the last wave. -/
theorem flush_too_early :
    ¬∀ (host : Host) (node : Node), node.Fresh → ∀ strmId, (node.net.streams strmId).isSome →
      ∀ timeoutMs, configTimeout host (node.params strmId) = .ok timeoutMs → timeoutMs ≠ 0 →
        ∀ s, Timed.Reached host (fun _ _ => True) node s →
          ∀ out, s.node.emits host (.flush strmId) = .ok out → out ≠ [] →
            s.Late strmId timeoutMs.toNat := by
  intro hall
  have hrun : ((Timed.start joiningNode).step (Host.ample .little)
      (.arrival (topologyPacket 1 10)) >>= fun s₁ => s₁.step (Host.ample .little)
        (.notifyElapsed 50) >>= fun s₂ => s₂.step (Host.ample .little)
          (.arrival (topologyPacket 1 11)) >>= fun s₃ => s₃.step (Host.ample .little)
            (.arrival (topologyPacket 2 12)) >>= fun s₄ => s₄.step (Host.ample .little)
              (.notifyElapsed 50) >>= fun s₅ => .ok (s₂.node.net.nodeFailed 1 ||
                s₃.node.net.nodeFailed 2, s₅.node.expired, s₅.clock, s₅.lastWave topolStrmId,
                (s₅.node.queue topolStrmId 2).length)) =
      .ok (false, [topolStrmId], 100, some 50, 1) := by decide +kernel
  obtain ⟨s₁, hfirst, hrun⟩ := bind_ok_iff.mp hrun
  obtain ⟨s₂, hbefore, hrun⟩ := bind_ok_iff.mp hrun
  obtain ⟨s₃, hwave, hrun⟩ := bind_ok_iff.mp hrun
  obtain ⟨s₄, hjoins, hrun⟩ := bind_ok_iff.mp hrun
  obtain ⟨s₅, hafter, hrun⟩ := bind_ok_iff.mp hrun
  simp only [Except.ok.injEq, Prod.mk.injEq, Bool.or_eq_false_iff] at hrun
  obtain ⟨⟨hlive₂, hlive₃⟩, hexpired, hclock, hlast, hlength⟩ := hrun
  have hallowed : ∀ {s : Timed} {p : Packet}, s.node.net.nodeFailed p.inletRank = false →
      s.Allowed (.arrival p) := by
    intro s p hlive hfailed
    exact absurd (hlive.symm.trans hfailed) Bool.false_ne_true
  have hreached : Timed.Reached (Host.ample .little) Timed.Allowed joiningNode s₅ :=
    .step (.step (.step (.step (.step .start (hallowed rfl) hfirst)
      (show s₁.Allowed (.notifyElapsed 50) from trivial) hbefore) (hallowed hlive₂) hwave)
        (hallowed hlive₃) hjoins) (show s₄.Allowed (.notifyElapsed 50) from trivial) hafter
  have hfresh : joiningNode.Fresh := ⟨rfl, fun _ => rfl⟩
  have hconfig : configTimeout (Host.ample .little) (joiningNode.params topolStrmId) = .ok 100 := rfl
  obtain ⟨out, hout, hqueue⟩ := emits_expired (hreached.watched hfresh rfl hconfig (by decide))
    (by decide) (hexpired ▸ List.mem_cons_self)
  have hne : out ≠ [] := by
    rintro rfl
    rw [← hqueue 2] at hlength
    cases hlength
  have hlate := hall _ joiningNode hfresh topolStrmId rfl 100 hconfig (by decide) s₅
    (.step (.step (.step (.step (.step .start trivial hfirst) trivial hbefore) trivial hwave)
      trivial hjoins) trivial hafter) out hout hne
  have hpassed := hlate.2 50 hlast
  rw [hclock] at hpassed
  revert hpassed
  decide

end MRNet.TimeOut
