import MRNet.StreamPeers
import MRNet.TimeKeeper

/-!
# The TimeOut synchronization filter

Translation of `sfilter_TimeOut` with the parameter packet that selects its mode. A
call without packets is that of a timeout. The buffer is that of WaitForAll.
-/
namespace MRNet.TimeOut
open Codec Wire WaitForAll StreamPeers Timers
open Waves (received)

structure ToState extends WfaState where
  activeTimeout : Bool

/-- The parts of the node that the filter reads and changes. `nodeFailed` holds of the
nodes of the topology that are marked as failed. -/
structure Net where
  streams : StreamId → Option StreamPeers.Stream
  getOutletNode : Rank → Option PeerNode
  nodeFailed : Rank → Bool
  timeKeeper : Option TimeKeeper

namespace Net

/-- The part of the node that the handling of the buffer reads. -/
def buffers (net : Net) : WaitForAll.Network where
  getStream := fun id => (net.streams id).map fun stream => ⟨stream.peers.map PeerNode.rank⟩
  nodeFailed := net.nodeFailed

def setStream (net : Net) (id : StreamId) (stream : StreamPeers.Stream) : Net :=
  { net with streams := Function.update net.streams id (some stream) }

end Net

/-- The loop over the input packets: the node, the peers as they are counted, and the
buffer. -/
structure Placing where
  net : Net
  peers : Finset Rank
  buffer : WfaState

/-- An inlet that is not yet a peer of the topology stream becomes one. -/
def Placing.meet (s : Placing) (streamId : StreamId) (stream : StreamPeers.Stream)
    (rank : Rank) : Placing :=
  if streamId = topolStrmId ∧ rank ∉ s.peers then
    { s with
      net := s.net.setStream streamId
        (((s.net.streams streamId).getD stream).addStreamPeer s.net.getOutletNode rank)
      peers := insert rank s.peers }
  else s

def placeAll (streamId : StreamId) (stream : StreamPeers.Stream) (alone : Bool) :
    List Packet → Placing → Placing × Option Packet
  | [], s => (s, none)
  | packet :: ipackets, s =>
      if packet.inletRank = unknownRank ∧ alone then (s, some packet)
      else
        let s := s.meet streamId stream packet.inletRank
        if s.net.nodeFailed packet.inletRank then placeAll streamId stream alone ipackets s
        else
          placeAll streamId stream alone ipackets { s with buffer := s.buffer.place packet }

/-- The loop over the slots after a timeout: all packets are taken. -/
def popAll : List Rank → WfaState → WfaState × List Packet
  | [], s => (s, [])
  | r :: ranks, s =>
      match s.queue r with
      | [] => popAll ranks s
      | packet :: queue =>
          let s : WfaState :=
            { packetsByRank := s.packetsByRank.insert r []
              readyPeers := s.readyPeers.erase r }
          let (s, opackets) := popAll ranks s
          (s, packet :: queue ++ opackets)

/-- The filter state is set up, or recovered without the slots of failed nodes. -/
def recoverState (net : Net) : Option ToState → ToState
  | none => ⟨WfaState.empty, false⟩
  | some state =>
      { state with
        toWfaState := discardFailed net.buffers state.packetsByRank.keys.sort state.toWfaState }

/-- A timer is asked for unless one is active. -/
def setTimeout (net : Net) (active : Bool) (streamId : StreamId) (timeoutMs : BitVec 32) :
    Net × Bool :=
  if active then (net, true)
  else
    match net.timeKeeper with
    | none => (net, false)
    | some tk =>
        let (tk, registered) := tk.registerTimeout streamId timeoutMs
        ({ net with timeKeeper := some tk }, registered)

section Filter
variable (host : Host)

/-- `config->unpack( "%ud", &timeout_ms )`; zero without a parameter packet, or with one
of another format. -/
def configTimeout : Option Packet → Outcome (BitVec 32)
  | none => return 0
  | some config => do
      let config ← config.decodePdrData host
      match config.fmtStr with
      | none => return 0
      | some block => do
          let fmt ← cString block
          if fmt = ascii ['%', 'u', 'd'] then
            match config.dataElements with
            | [] => .error (.fault .readPast)
            | ⟨.uint32, timeoutMs⟩ :: _ => return timeoutMs
            | _ :: _ => .error (.fault .assertion)
          else return 0

/-- The node after the call, the local storage, and the output packets. -/
def sfilterTimeOut (net : Net) (config : Option Packet) (localStorage : Option ToState)
    (ipackets : List Packet) : Outcome (Net × Option ToState × List Packet) := do
  let timeoutMs ← configTimeout host config
  if timeoutMs = 0 then return (net, localStorage, ipackets)
  else
    let state := recoverState net localStorage
    match ipackets with
    | [] =>
        let (buffer, opackets) := popAll state.packetsByRank.keys.sort state.toWfaState
        return (net, some ⟨buffer, false⟩, opackets)
    | first :: _ =>
        match net.streams first.streamId with
        | none => return (net, some state, [])
        | some stream =>
            match placeAll first.streamId stream (ipackets.length = 1) ipackets
              ⟨net, stream.getChildRanks, state.toWfaState⟩ with
            | (s, some packet) => return (s.net, some ⟨s.buffer, state.activeTimeout⟩, [packet])
            | (s, none) =>
                let (net, active) :=
                  setTimeout s.net state.activeTimeout first.streamId timeoutMs
                if s.buffer.readyPeers.card < s.peers.card then
                  return (net, some ⟨s.buffer, active⟩, [])
                else
                  let (buffer, opackets) := popWave s.buffer.packetsByRank.keys.sort s.buffer
                  return (net, some ⟨buffer, false⟩, opackets)

end Filter

/-- All packets are taken, rank by rank. -/
theorem popAll_spec {ranks : List Rank} (hnd : ranks.Nodup) {s : WfaState} (h : ReadyExact s) :
    (popAll ranks s).2 = ranks.flatMap s.queue ∧
    (∀ r, (popAll ranks s).1.queue r = if r ∈ ranks then [] else s.queue r) ∧
    ReadyExact (popAll ranks s).1 := by
  induction ranks generalizing s with
  | nil => exact ⟨rfl, by simp [popAll], h⟩
  | cons a ranks ih =>
      obtain ⟨ha, hnd⟩ := List.nodup_cons.mp hnd
      cases hq : s.queue a with
      | nil =>
          obtain ⟨hout, hqueue, hready⟩ := ih hnd h
          simp only [popAll, hq, List.flatMap_cons, List.nil_append]
          refine ⟨hout, fun r => ?_, hready⟩
          rw [hqueue r]
          by_cases hr : r = a
          · simp [hr, ha, hq]
          · simp [hr]
      | cons packet queue =>
          have hother : ∀ r, WfaState.queue ⟨s.packetsByRank.insert a [], s.readyPeers.erase a⟩ r =
              if a = r then [] else s.queue r := fun r => queue_insert _ _ a r []
          have hpopped : ReadyExact ⟨s.packetsByRank.insert a [], s.readyPeers.erase a⟩ := by
            intro r
            rw [hother r]
            by_cases hr : a = r
            · simp [hr]
            · simp [hr, Ne.symm hr, h r]
          obtain ⟨hout, hqueue, hready⟩ := ih hnd hpopped
          simp only [popAll, hq, List.flatMap_cons]
          refine ⟨?_, fun r => ?_, hready⟩
          · rw [hout]
            refine congrArg (packet :: queue ++ ·) (List.flatMap_congr fun r hr => ?_)
            rw [hother r, if_neg fun he : a = r => ha (he ▸ hr)]
          · rw [hqueue r, hother r]
            by_cases hr : r = a
            · simp [hr]
            · simp [hr, Ne.symm hr]

/-- No queue is left. -/
theorem queue_popAll {s : WfaState} (h : ReadyExact s) (r : Rank) :
    (popAll s.packetsByRank.keys.sort s).1.queue r = [] := by
  have hnd := Finset.sort_nodup s.packetsByRank.keys (· ≤ ·)
  rw [(popAll_spec hnd h).2.1 r]
  split_ifs with hr
  · rfl
  · by_contra hne
    exact hr (mem_sort_keys_of_queue_ne_nil hne)

/-- A rank contributes its queue. -/
theorem received_popAll {s : WfaState} (h : ReadyExact s)
    (hinlet : ∀ r, ∀ p ∈ s.queue r, p.inletRank = r) (r : Rank) :
    received Packet.inletRank (popAll s.packetsByRank.keys.sort s).2 r = s.queue r := by
  have hnd := Finset.sort_nodup s.packetsByRank.keys (· ≤ ·)
  rw [(popAll_spec hnd h).1, Waves.received_flatMap Packet.inletRank hnd hinlet]
  split_ifs with hr
  · rfl
  · by_contra hne
    exact hr (mem_sort_keys_of_queue_ne_nil (Ne.symm hne))

/-- The storage before the first call is that of an empty buffer. -/
def bufferOf (storage : Option ToState) : WfaState := (storage.map ToState.toWfaState).getD
  WfaState.empty

/-- The buffer with the packet placed, unless its node has failed. -/
def placed (net : Net) (storage : Option ToState) (p : Packet) : WfaState :=
  let state := (recoverState net storage).toWfaState
  if net.nodeFailed p.inletRank then state else state.place p

/-- The node and the peers when the packet is placed. -/
def met (net : Net) (stream : StreamPeers.Stream) (p : Packet) : Placing :=
  Placing.meet ⟨net, stream.getChildRanks, WfaState.empty⟩ p.streamId stream p.inletRank

section Cases
variable {host : Host} {net : Net} {config : Option Packet} {storage : Option ToState}

/-- The outcomes of a call with one packet. -/
inductive Arrival (host : Host) (net : Net) (config : Option Packet)
    (storage : Option ToState) (p : Packet) : Net → Option ToState → List Packet → Prop
  | passed (htimeout : configTimeout host config = .ok 0) :
      Arrival host net config storage p net storage [p]
  | noStream (htimeout : configTimeout host config ≠ .ok 0)
      (hstream : net.streams p.streamId = none) :
      Arrival host net config storage p net (some (recoverState net storage)) []
  | unknownInlet (htimeout : configTimeout host config ≠ .ok 0)
      (hinlet : p.inletRank = unknownRank) :
      Arrival host net config storage p net (some (recoverState net storage)) [p]
  | waits {timeoutMs : BitVec 32} (stream : StreamPeers.Stream)
      (htimeout : configTimeout host config ≠ .ok 0)
      (hinlet : p.inletRank ≠ unknownRank) (hstream : net.streams p.streamId = some stream) :
      Arrival host net config storage p
        (setTimeout (met net stream p).net (recoverState net storage).activeTimeout p.streamId
          timeoutMs).1
        (some ⟨placed net storage p,
          (setTimeout (met net stream p).net (recoverState net storage).activeTimeout p.streamId
            timeoutMs).2⟩) []
  | wave {timeoutMs : BitVec 32} (stream : StreamPeers.Stream)
      (htimeout : configTimeout host config ≠ .ok 0)
      (hinlet : p.inletRank ≠ unknownRank) (hstream : net.streams p.streamId = some stream) :
      Arrival host net config storage p
        (setTimeout (met net stream p).net (recoverState net storage).activeTimeout p.streamId
          timeoutMs).1
        (some ⟨(popWave (placed net storage p).packetsByRank.keys.sort
          (placed net storage p)).1, false⟩)
        (popWave (placed net storage p).packetsByRank.keys.sort (placed net storage p)).2

lemma placeAll_single (stream : StreamPeers.Stream) {p : Packet}
    (hinlet : p.inletRank ≠ unknownRank) :
    placeAll p.streamId stream true [p]
      ⟨net, stream.getChildRanks, (recoverState net storage).toWfaState⟩ =
      (⟨(met net stream p).net, (met net stream p).peers, placed net storage p⟩, none) := by
  by_cases hmeet : p.streamId = topolStrmId ∧ p.inletRank ∉ stream.getChildRanks
  · by_cases hfail : net.nodeFailed p.inletRank
    · simp [placeAll, Placing.meet, met, placed, hinlet, hmeet, hfail, Net.setStream]
    · simp [placeAll, Placing.meet, met, placed, hinlet, hmeet, hfail, Net.setStream]
  · by_cases hfail : net.nodeFailed p.inletRank
    · simp only [placeAll, Placing.meet, met, placed, hinlet, hmeet, hfail, if_true, if_false,
        false_and]
    · simp only [placeAll, Placing.meet, met, placed, hinlet, hmeet, hfail, if_false, false_and]
      rfl

theorem arrival_cases {p : Packet} {net' : Net} {storage' : Option ToState} {out : List Packet}
    (h : sfilterTimeOut host net config storage [p] = .ok (net', storage', out)) :
    Arrival host net config storage p net' storage' out := by
  obtain ⟨timeoutMs, htimeout, h⟩ := bind_ok_iff.mp h
  split_ifs at h with hzero
  · cases h
    exact .passed (hzero ▸ htimeout)
  · have hset : configTimeout host config ≠ .ok 0 := by
      rw [htimeout]
      exact fun hz => hzero (Except.ok.inj hz)
    dsimp only at h
    cases hstream : net.streams p.streamId with
    | none =>
        rw [hstream] at h
        cases h
        exact .noStream hset hstream
    | some stream =>
        rw [hstream] at h
        dsimp only at h
        by_cases hinlet : p.inletRank = unknownRank
        · simp only [List.length_singleton, decide_true, placeAll, hinlet] at h
          cases h
          exact .unknownInlet hset hinlet
        · simp only [List.length_singleton, decide_true, placeAll_single stream hinlet] at h
          split_ifs at h
          · cases h
            exact .waits stream hset hinlet hstream
          · cases h
            exact .wave stream hset hinlet hstream

/-- A call without packets passes nothing on, or takes everything. -/
theorem timeout_cases {net' : Net} {storage' : Option ToState} {out : List Packet}
    (h : sfilterTimeOut host net config storage [] = .ok (net', storage', out)) :
    net' = net ∧
    ((configTimeout host config = .ok 0 ∧ storage' = storage ∧ out = []) ∨
      (configTimeout host config ≠ .ok 0 ∧
        storage' = some ⟨(popAll (recoverState net storage).packetsByRank.keys.sort
          (recoverState net storage).toWfaState).1, false⟩ ∧
        out = (popAll (recoverState net storage).packetsByRank.keys.sort
          (recoverState net storage).toWfaState).2)) := by
  obtain ⟨timeoutMs, htimeout, h⟩ := bind_ok_iff.mp h
  split_ifs at h with hzero
  · cases h
    exact ⟨rfl, .inl ⟨hzero ▸ htimeout, rfl, rfl⟩⟩
  · cases h
    refine ⟨rfl, .inr ⟨fun hz => hzero ?_, rfl, rfl⟩⟩
    rw [htimeout] at hz
    exact Except.ok.inj hz

end Cases

/-- The filter of one stream with its parameter packet. -/
structure Filter where
  net : Net
  params : Option Packet
  localStorage : Option ToState

inductive Event where
  | arrival (packet : Packet)
  | timeout
  | setFilterParams (params : Option Packet)

namespace Filter
variable (host : Host)

def pushPackets (filter : Filter) (ipackets : List Packet) : Outcome (Filter × List Packet) := do
  let (net, localStorage, opackets) ←
    sfilterTimeOut host filter.net filter.params filter.localStorage ipackets
  return ({ filter with net := net, localStorage := localStorage }, opackets)

def step (filter : Filter) : Event → Outcome (Filter × List Packet)
  | .arrival packet => filter.pushPackets host [packet]
  | .timeout => filter.pushPackets host []
  | .setFilterParams params => return ({ filter with params := params }, [])

/-- The filter after the events, and all packets emitted. -/
def run (filter : Filter) : List Event → Outcome (Filter × List Packet)
  | [] => return (filter, [])
  | event :: events => do
      let (filter, opackets) ← filter.step host event
      let (filter, rest) ← filter.run events
      return (filter, opackets ++ rest)

def queue (filter : Filter) (r : Rank) : List Packet := (bufferOf filter.localStorage).queue r

@[simp] theorem queue_some (net : Net) (params : Option Packet) (state : ToState) (r : Rank) :
    queue ⟨net, params, some state⟩ r = state.toWfaState.queue r := rfl

/-- The condition on one event: a packet that is passed on finds no packet of its rank
in the buffer. -/
def Allowed (filter : Filter) : Event → Prop
  | .arrival packet =>
      configTimeout host filter.params = .ok 0 → filter.queue packet.inletRank = []
  | _ => True

/-- Every event of a run is allowed in the state it meets. -/
def AllowedRun (filter : Filter) : List Event → Prop
  | [] => True
  | event :: events => filter.Allowed host event ∧
      ∀ next out, filter.step host event = .ok (next, out) → next.AllowedRun events

end Filter

/-- The packets that have come in. -/
def arrivals : List Event → List Packet
  | [] => []
  | .arrival packet :: events => packet :: arrivals events
  | _ :: events => arrivals events

/-- Packets of known inlets on the stream of the filter. -/
def OnStream (net : Net) (events : List Event) : Prop :=
  ∀ p ∈ arrivals events, (net.streams p.streamId).isSome ∧ p.inletRank ≠ unknownRank

/-- What no call changes: the failed nodes, and which streams there are. -/
structure Steady (net net' : Net) : Prop where
  nodeFailed : net'.nodeFailed = net.nodeFailed
  streams : ∀ id, (net'.streams id).isSome = (net.streams id).isSome

namespace Steady

theorem refl (net : Net) : Steady net net := ⟨rfl, fun _ => rfl⟩

theorem trans {a b c : Net} (h : Steady a b) (h' : Steady b c) : Steady a c :=
  ⟨h'.nodeFailed.trans h.nodeFailed, fun id => (h'.streams id).trans (h.streams id)⟩

theorem onStream {net net' : Net} (h : Steady net net') {events : List Event}
    (hevents : OnStream net events) : OnStream net' events := by
  intro p hp
  obtain ⟨hstream, hinlet⟩ := hevents p hp
  exact ⟨by rw [h.streams]; exact hstream, hinlet⟩

end Steady

lemma setTimeout_steady (net : Net) (active : Bool) (id : StreamId) (timeoutMs : BitVec 32) :
    Steady net (setTimeout net active id timeoutMs).1 := by
  unfold setTimeout
  split_ifs
  · exact .refl net
  · cases net.timeKeeper with
    | none => exact .refl net
    | some tk => exact ⟨rfl, fun _ => rfl⟩

lemma met_steady {net : Net} {stream : StreamPeers.Stream} {p : Packet}
    (h : net.streams p.streamId = some stream) : Steady net (met net stream p).net := by
  unfold met Placing.meet
  split_ifs
  · refine ⟨rfl, fun id => ?_⟩
    by_cases hid : id = p.streamId
    · simp [hid, Net.setStream, h]
    · simp [Net.setStream, hid]
  · exact .refl net

lemma Arrival.steady {host : Host} {net net' : Net} {config : Option Packet}
    {storage storage' : Option ToState} {p : Packet} {out : List Packet}
    (h : Arrival host net config storage p net' storage' out) : Steady net net' := by
  cases h with
  | passed => exact .refl net
  | noStream => exact .refl net
  | unknownInlet => exact .refl net
  | waits stream htimeout hinlet hstream =>
      exact (met_steady hstream).trans (setTimeout_steady _ _ _ _)
  | wave stream htimeout hinlet hstream =>
      exact (met_steady hstream).trans (setTimeout_steady _ _ _ _)

/-- Of every rank, what was emitted and what is buffered is what has come in. -/
structure InOrder (filter : Filter) (history emitted : List Packet) : Prop where
  ready : ReadyExact (bufferOf filter.localStorage)
  inlet : ∀ r, ∀ p ∈ filter.queue r, p.inletRank = r
  order : ∀ r, received Packet.inletRank emitted r ++ filter.queue r =
    received Packet.inletRank history r

/-- Without failures nothing is discarded. -/
lemma recoverState_live {net : Net} (hlive : ∀ r, net.nodeFailed r = false)
    (storage : Option ToState) : (recoverState net storage).toWfaState = bufferOf storage := by
  cases storage with
  | none => rfl
  | some state => exact discardFailed_none _ _ fun r _ => hlive r

lemma placed_live {net : Net} (hlive : ∀ r, net.nodeFailed r = false)
    (storage : Option ToState) (p : Packet) : placed net storage p = (bufferOf storage).place p := by
  rw [placed, recoverState_live hlive, hlive]
  rfl

/-- Packets are taken from the front of the queues of a buffer. -/
lemma InOrder.taken {filter : Filter} {history emitted out : List Packet} {buffer : WfaState}
    (hready : ReadyExact (bufferOf filter.localStorage))
    (hinlet : ∀ r, ∀ q ∈ buffer.queue r, q.inletRank = r)
    (horder : ∀ r, received Packet.inletRank emitted r ++ buffer.queue r =
      received Packet.inletRank history r)
    (htaken : ∀ r, received Packet.inletRank out r ++ filter.queue r = buffer.queue r) :
    InOrder filter history (emitted ++ out) := by
  refine ⟨hready, fun r q hq => hinlet r q ?_, fun r => ?_⟩
  · rw [← htaken r]
    exact List.mem_append_right _ hq
  · rw [Waves.received_join, List.append_assoc, htaken r, horder r]

namespace InOrder
variable {host : Host} {filter next : Filter} {history emitted out : List Packet}
  (h : InOrder filter history emitted)
include h

/-- The queues with the packet placed. -/
lemma place (p : Packet) :
    ReadyExact ((bufferOf filter.localStorage).place p) ∧
    (∀ r, ∀ q ∈ ((bufferOf filter.localStorage).place p).queue r, q.inletRank = r) ∧
    ∀ r, received Packet.inletRank emitted r ++ ((bufferOf filter.localStorage).place p).queue r =
      received Packet.inletRank (history ++ [p]) r := by
  refine ⟨h.ready.place p, fun r q hq => ?_, fun r => ?_⟩
  · rw [queue_place] at hq
    split_ifs at hq with hr
    · rcases List.mem_append.mp hq with hmem | hnew
      · exact h.inlet r q hmem
      · rw [List.mem_singleton.mp hnew, hr]
    · exact h.inlet r q hq
  · rw [queue_place, Waves.received_append, ← h.order r]
    split_ifs with hr
    · rw [← List.append_assoc]
      rfl
    · rfl

/-- A packet that is passed on while its rank has nothing in the buffer. -/
lemma pass {p : Packet} (hqueue : filter.queue p.inletRank = []) :
    InOrder filter (history ++ [p]) (emitted ++ [p]) := by
  refine ⟨h.ready, h.inlet, fun r => ?_⟩
  rw [Waves.received_append, Waves.received_append]
  split_ifs with hr
  · rw [← h.order r, ← hr, hqueue]
    simp
  · exact h.order r

/-- A packet that comes in from a live node. -/
theorem arrival (hlive : ∀ r, filter.net.nodeFailed r = false) {p : Packet}
    (hstream : (filter.net.streams p.streamId).isSome) (hinlet : p.inletRank ≠ unknownRank)
    (hallowed : filter.Allowed host (.arrival p))
    (hstep : filter.step host (.arrival p) = .ok (next, out)) :
    InOrder next (history ++ [p]) (emitted ++ out) := by
  obtain ⟨⟨net', storage', out'⟩, hcall, hres⟩ := bind_ok_iff.mp hstep
  cases hres
  cases arrival_cases hcall with
  | passed htimeout => exact h.pass (hallowed htimeout)
  | noStream _ hnone =>
      rw [hnone] at hstream
      cases hstream
  | unknownInlet _ hunknown => exact absurd hunknown hinlet
  | waits stream _ _ _ =>
      obtain ⟨hready, hmem, horder⟩ := h.place p
      rw [← placed_live hlive] at hready hmem horder
      refine ⟨hready, hmem, fun r => ?_⟩
      rw [List.append_nil]
      exact horder r
  | wave stream _ _ _ =>
      obtain ⟨hready, hmem, horder⟩ := h.place p
      rw [← placed_live hlive] at hready hmem horder
      have hnd := Finset.sort_nodup (placed filter.net filter.localStorage p).packetsByRank.keys
        (· ≤ ·)
      refine taken (popWave_spec hnd _ hready).2.2.2 hmem horder fun r => ?_
      rw [received_popWave hready hmem, Filter.queue_some, queue_popWave hready]
      cases (placed filter.net filter.localStorage p).queue r with
      | nil => rfl
      | cons q rest => rfl

/-- A timeout. -/
theorem timeout (hlive : ∀ r, filter.net.nodeFailed r = false)
    (hstep : filter.step host .timeout = .ok (next, out)) :
    InOrder next history (emitted ++ out) := by
  obtain ⟨⟨net', storage', out'⟩, hcall, hres⟩ := bind_ok_iff.mp hstep
  cases hres
  obtain ⟨hnet, ⟨-, hstorage, hout⟩ | ⟨-, hstorage, hout⟩⟩ := timeout_cases hcall
  · subst hnet hstorage hout
    rw [List.append_nil]
    exact h
  · subst hnet hstorage hout
    rw [recoverState_live hlive]
    have hnd := Finset.sort_nodup (bufferOf filter.localStorage).packetsByRank.keys (· ≤ ·)
    refine taken (popAll_spec hnd h.ready).2.2 h.inlet h.order fun r => ?_
    rw [received_popAll h.ready h.inlet, Filter.queue_some, queue_popAll h.ready,
      List.append_nil]

end InOrder

/-- One allowed event of live nodes keeps the order. -/
theorem InOrder.step {host : Host} {filter next : Filter} {history emitted out : List Packet}
    (h : InOrder filter history emitted) (hlive : ∀ r, filter.net.nodeFailed r = false)
    {event : Event} (hevent : OnStream filter.net [event]) (hallowed : filter.Allowed host event)
    (hstep : filter.step host event = .ok (next, out)) :
    InOrder next (history ++ arrivals [event]) (emitted ++ out) ∧ Steady filter.net next.net := by
  cases event with
  | arrival p =>
      obtain ⟨hstream, hinlet⟩ := hevent p List.mem_cons_self
      refine ⟨h.arrival hlive hstream hinlet hallowed hstep, ?_⟩
      obtain ⟨⟨net', storage', out'⟩, hcall, hres⟩ := bind_ok_iff.mp hstep
      cases hres
      exact (arrival_cases hcall).steady
  | timeout =>
      simp only [arrivals, List.append_nil]
      refine ⟨h.timeout hlive hstep, ?_⟩
      obtain ⟨⟨net', storage', out'⟩, hcall, hres⟩ := bind_ok_iff.mp hstep
      cases hres
      rw [(timeout_cases hcall).1]
      exact .refl _
  | setFilterParams params =>
      cases hstep
      simp only [arrivals, List.append_nil]
      exact ⟨⟨h.ready, h.inlet, h.order⟩, .refl _⟩

lemma arrivals_append (events more : List Event) :
    arrivals (events ++ more) = arrivals events ++ arrivals more := by
  induction events with
  | nil => rfl
  | cons event events ih =>
      cases event with
      | arrival p => exact congrArg (p :: ·) ih
      | timeout => exact ih
      | setFilterParams params => exact ih

/-- Allowed events of live nodes keep the order. -/
theorem InOrder.run {host : Host} {filter last : Filter} {history emitted out : List Packet}
    (h : InOrder filter history emitted) (hlive : ∀ r, filter.net.nodeFailed r = false)
    {events : List Event} (hevents : OnStream filter.net events)
    (hallowed : filter.AllowedRun host events)
    (hrun : filter.run host events = .ok (last, out)) :
    InOrder last (history ++ arrivals events) (emitted ++ out) := by
  induction events generalizing filter history emitted out with
  | nil =>
      cases hrun
      simpa [arrivals] using h
  | cons event events ih =>
      obtain ⟨⟨next, first⟩, hstep, hthen⟩ := bind_ok_iff.mp hrun
      obtain ⟨⟨last', rest⟩, hrest, hres⟩ := bind_ok_iff.mp hthen
      cases hres
      have hsplit : arrivals (event :: events) = arrivals [event] ++ arrivals events :=
        arrivals_append [event] events
      have hfirst : OnStream filter.net [event] := by
        intro p hp
        exact hevents p (by rw [hsplit]; exact List.mem_append_left _ hp)
      have hothers : OnStream filter.net events := by
        intro p hp
        exact hevents p (by rw [hsplit]; exact List.mem_append_right _ hp)
      obtain ⟨hnext, hsteady⟩ := h.step hlive hfirst hallowed.1 hstep
      rw [hsplit, ← List.append_assoc, ← List.append_assoc]
      refine ih hnext (fun r => ?_) (hsteady.onStream hothers) (hallowed.2 next first hstep) hrest
      rw [hsteady.nodeFailed]
      exact hlive r

lemma inOrder_empty {filter : Filter} (h : filter.localStorage = none) : InOrder filter [] [] := by
  have hbuffer : bufferOf filter.localStorage = WfaState.empty := by
    rw [h]
    rfl
  refine ⟨fun r => ?_, fun r q hq => ?_, fun r => ?_⟩
  · rw [hbuffer]
    simp [WfaState.empty, WfaState.queue]
  · rw [Filter.queue, hbuffer] at hq
    cases hq
  · rw [Filter.queue, hbuffer]
    rfl

/-- A parameter packet with a timeout. -/
def timeoutParams (timeoutMs : BitVec 32) : Packet :=
  { Packet.blank 0 none 0 none unknownRank with
    fmtStr := some (ascii ['%', 'u', 'd'] ++ [0])
    dataElements := [⟨.uint32, timeoutMs⟩]
    decoded := true }

/-- A stream with the two children 1 and 2 and a timeout of 100 ms. -/
def twoChildren : Filter where
  net := {
    streams := fun id => if id = userStrmBaseId then
      some ⟨userStrmBaseId, [], [⟨1, 0⟩, ⟨2, 0⟩], false⟩ else none
    getOutletNode := fun _ => none
    nodeFailed := fun _ => false
    timeKeeper := some TimeKeeper.empty }
  params := some (timeoutParams 100)
  localStorage := none

/-- The filter has the packet of the child 1 in the buffer, and its timer runs. -/
def waiting : Filter :=
  { twoChildren with
    net := { twoChildren.net with timeKeeper := some ⟨100, [(userStrmBaseId, 100)]⟩ }
    localStorage := some ⟨WfaState.empty.place (userPacket 1 10), true⟩ }

/-- Whatever the modes in which the packets of live nodes are emitted: of every rank, what
was emitted and what is buffered is what has come in, in its order, as long as no packet
is passed on while packets of its rank are buffered. -/
theorem run_in_order {host : Host} {filter : Filter} (hstart : filter.localStorage = none)
    (hlive : ∀ r, filter.net.nodeFailed r = false) {events : List Event}
    (hevents : OnStream filter.net events) (hallowed : filter.AllowedRun host events)
    {reached : Filter} {emitted : List Packet}
    (hrun : filter.run host events = .ok (reached, emitted)) (r : Rank) :
    received Packet.inletRank emitted r ++ reached.queue r =
      received Packet.inletRank (arrivals events) r :=
  ((inOrder_empty hstart).run hlive hevents hallowed hrun).order r

/-- One packet is passed on without a timeout, the next one waits for the timeout. -/
theorem run_in_order_two_modes : ∃ reached,
    Filter.run (Host.ample .little) twoChildren
      [.setFilterParams none, .arrival (userPacket 1 10),
        .setFilterParams (some (timeoutParams 100)), .arrival (userPacket 1 11)] =
      .ok (reached, [userPacket 1 10]) ∧
    received Packet.inletRank [userPacket 1 10] 1 ++ reached.queue 1 =
      [userPacket 1 10, userPacket 1 11] := by
  have hevents : OnStream twoChildren.net
      [.setFilterParams none, .arrival (userPacket 1 10),
        .setFilterParams (some (timeoutParams 100)), .arrival (userPacket 1 11)] := by
    intro p hp
    simp only [arrivals, List.mem_cons, List.not_mem_nil, or_false] at hp
    rcases hp with hp | hp
    · rw [hp]
      exact ⟨rfl, by decide⟩
    · rw [hp]
      exact ⟨rfl, by decide⟩
  have hallowed : twoChildren.AllowedRun (Host.ample .little)
      [.setFilterParams none, .arrival (userPacket 1 10),
        .setFilterParams (some (timeoutParams 100)), .arrival (userPacket 1 11)] := by
    refine ⟨trivial, fun next out hstep => ?_⟩
    cases hstep
    refine ⟨fun _ => rfl, fun next out hstep => ?_⟩
    cases hstep
    refine ⟨trivial, fun next out hstep => ?_⟩
    cases hstep
    exact ⟨fun _ => rfl, fun _ _ _ => trivial⟩
  exact ⟨_, rfl, run_in_order rfl (fun _ => rfl) hevents hallowed rfl 1⟩

/-- When the timeout is set to zero, the second packet of the child 1 overtakes the
first one. -/
theorem zero_timeout_overtakes : ∃ (host : Host) (filter : Filter) (events : List Event)
    (reached : Filter) (emitted : List Packet) (r : Rank), filter.localStorage = none ∧
    (∀ r, filter.net.nodeFailed r = false) ∧ OnStream filter.net events ∧
    filter.run host events = .ok (reached, emitted) ∧
    received Packet.inletRank emitted r ++ reached.queue r ≠
      received Packet.inletRank (arrivals events) r := by
  refine ⟨Host.ample .little, twoChildren,
    [.arrival (userPacket 1 10), .setFilterParams (some (timeoutParams 0)),
      .arrival (userPacket 1 11)],
    { waiting with params := some (timeoutParams 0) }, [userPacket 1 11], 1, rfl, fun _ => rfl,
    ?_, rfl, ?_⟩
  · intro p hp
    simp only [arrivals, List.mem_cons, List.not_mem_nil, or_false] at hp
    rcases hp with hp | hp
    · rw [hp]
      exact ⟨rfl, by decide⟩
    · rw [hp]
      exact ⟨rfl, by decide⟩
  · intro h
    have htag := congrArg (List.map fun p : Packet => p.tag) h
    exact absurd htag (by decide)

end MRNet.TimeOut
