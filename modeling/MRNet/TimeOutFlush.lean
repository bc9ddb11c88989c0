import MRNet.TimeOut

/-!
# The flush of the TimeOut filter

The filters of all streams of a node share one time keeper. The streams whose timers have
expired are collected by `notifyElapsed`, and `handleTimeout` pushes a null packet on each
of them later. Whenever a filter holds packets, the timer of its stream is registered or
its flush is still to run.
-/
namespace MRNet.TimeOut
open Codec Wire WaitForAll StreamPeers Timers

/-- A node whose streams are synchronized by TimeOut with fixed parameters. `expired` holds
the streams that were collected and are not yet flushed. -/
structure Node where
  net : Net
  params : StreamId → Option Packet
  localStorage : StreamId → Option ToState
  expired : List StreamId

inductive Activity where
  | arrival (packet : Packet)
  | notifyElapsed (elapsedMs : BitVec 32)
  | flush (strmId : StreamId)

namespace Node
variable (host : Host)

def push (node : Node) (strmId : StreamId) (ipackets : List Packet) : Outcome Node := do
  let (net, localStorage, _) ←
    sfilterTimeOut host node.net (node.params strmId) (node.localStorage strmId) ipackets
  return { node with
    net := net
    localStorage := Function.update node.localStorage strmId localStorage }

/-- A stream that is not found is skipped. -/
def step (node : Node) : Activity → Outcome Node
  | .arrival packet =>
      match node.net.streams packet.streamId with
      | none => return node
      | some _ => node.push host packet.streamId [packet]
  | .notifyElapsed elapsedMs =>
      match node.net.timeKeeper with
      | none => .error (.fault .assertion)
      | some tk =>
          let (tk, expired) := tk.notifyElapsed elapsedMs
          return { node with
            net := { node.net with timeKeeper := some tk }
            expired := node.expired ++ expired }
  | .flush strmId =>
      if strmId ∈ node.expired then
        let node := { node with expired := node.expired.erase strmId }
        match node.net.streams strmId with
        | none => return node
        | some _ => node.push host strmId []
      else return node

def run (node : Node) : List Activity → Outcome Node
  | [] => return node
  | activity :: activities => do
      let node ← node.step host activity
      node.run activities

/-- The filter of the stream holds a packet. -/
def Holds (node : Node) (strmId : StreamId) : Prop :=
  ∃ r, (bufferOf (node.localStorage strmId)).queue r ≠ []

/-- The timer of the stream is registered, or its flush is still to run. -/
def Due (node : Node) (strmId : StreamId) : Prop :=
  (∃ tk, node.net.timeKeeper = some tk ∧ tk.Registered strmId) ∨ strmId ∈ node.expired

/-- A node with a time keeper before the first packet. -/
def Fresh (node : Node) : Prop :=
  node.net.timeKeeper.isSome ∧ ∀ strmId, node.localStorage strmId = none

end Node

/-- What holds of the filter of one stream, where `found` says that the stream is found and
`due` that a flush is due. -/
structure Watched (host : Host) (found : Bool) (params : Option Packet)
    (storage : Option ToState) (due : Prop) : Prop where
  ready : ReadyExact (bufferOf storage)
  active : ∀ state, storage = some state → state.activeTimeout = true → due
  holds : ∀ r, (bufferOf storage).queue r ≠ [] → due
  noStream : found = false → storage = none
  noTimeout : configTimeout host params = .ok 0 → storage = none

/-- What holds of the whole node. -/
structure Node.Watched (host : Host) (node : Node) : Prop where
  timeKeeper : node.net.timeKeeper.isSome
  filters : ∀ strmId, TimeOut.Watched host (node.net.streams strmId).isSome (node.params strmId)
    (node.localStorage strmId) (node.Due strmId)

lemma Watched.mono {host : Host} {found : Bool} {params : Option Packet}
    {storage : Option ToState} {due due' : Prop} (h : Watched host found params storage due)
    (hdue : due → due') : Watched host found params storage due' :=
  ⟨h.ready, fun state hs ha => hdue (h.active state hs ha), fun r hr => hdue (h.holds r hr),
    h.noStream, h.noTimeout⟩

lemma Node.due_iff (node : Node) {tk : TimeKeeper} (htk : node.net.timeKeeper = some tk)
    (strmId : StreamId) : node.Due strmId ↔ tk.Registered strmId ∨ strmId ∈ node.expired := by
  simp [Node.Due, htk]

lemma met_timeKeeper (net : Net) (stream : StreamPeers.Stream) (p : Packet) :
    (met net stream p).net.timeKeeper = net.timeKeeper := by
  unfold met Placing.meet
  split_ifs <;> rfl

/-- Timers stay registered, and a filter without an active timer gets one. -/
lemma setTimeout_registers {net : Net} {tk : TimeKeeper} (htk : net.timeKeeper = some tk)
    (active : Bool) (strmId : StreamId) (timeoutMs : BitVec 32) :
    ∃ tk', (setTimeout net active strmId timeoutMs).1.timeKeeper = some tk' ∧
      (∀ id, tk.Registered id → tk'.Registered id) ∧
      (active = false → tk'.Registered strmId) := by
  cases active with
  | true => exact ⟨tk, htk, fun _ h => h, fun h => by cases h⟩
  | false =>
      obtain ⟨hself, hothers⟩ := tk.registerTimeout_spec strmId timeoutMs
      refine ⟨(tk.registerTimeout strmId timeoutMs).1, ?_, hothers, fun _ => hself⟩
      simp [setTimeout, htk]

/-- What is left of a buffer at the start of a call. -/
lemma recoverState_watched {host : Host} (net : Net) {found : Bool} {params : Option Packet}
    {storage : Option ToState} {due : Prop} (h : Watched host found params storage due) :
    ReadyExact (recoverState net storage).toWfaState ∧
    (∀ r, (recoverState net storage).queue r ≠ [] → due) ∧
    ((recoverState net storage).activeTimeout = true → due) := by
  cases storage with
  | none =>
      refine ⟨h.ready, fun r hr => absurd rfl hr, fun hset => ?_⟩
      cases hset
  | some state =>
      obtain ⟨hqueue, hready⟩ :=
        discardFailed_spec net.buffers state.packetsByRank.keys.sort (s := state.toWfaState) h.ready
      refine ⟨hready, fun r hr => h.holds r fun hnil => hr ?_, h.active state rfl⟩
      have hnil' : state.toWfaState.queue r = [] := hnil
      refine (hqueue r).trans ?_
      rw [hnil']
      split_ifs <;> rfl

/-- The buffer with the packet placed. -/
lemma placed_ready {host : Host} {net : Net} {found : Bool} {params : Option Packet}
    {storage : Option ToState} {due : Prop} (h : Watched host found params storage due)
    (p : Packet) : ReadyExact (placed net storage p) := by
  have hready := (recoverState_watched net h).1
  unfold placed
  dsimp only
  split_ifs
  · exact hready
  · exact hready.place p

/-- After a packet was placed a flush is due. -/
lemma due_of_setTimeout {host : Host} {node : Node} (h : node.Watched host) {p : Packet}
    (stream : StreamPeers.Stream) (timeoutMs : BitVec 32) :
    ∃ tk, (setTimeout (met node.net stream p).net
        (recoverState node.net (node.localStorage p.streamId)).activeTimeout p.streamId
        timeoutMs).1.timeKeeper = some tk ∧
      (∀ id, node.Due id → tk.Registered id ∨ id ∈ node.expired) ∧
      (tk.Registered p.streamId ∨ p.streamId ∈ node.expired) := by
  obtain ⟨tk, htk⟩ := Option.isSome_iff_exists.mp h.timeKeeper
  obtain ⟨tk', htk', hkeep, hnew⟩ :=
    setTimeout_registers ((met_timeKeeper node.net stream p).trans htk)
      (recoverState node.net (node.localStorage p.streamId)).activeTimeout p.streamId timeoutMs
  have hdue : ∀ id, node.Due id → tk'.Registered id ∨ id ∈ node.expired :=
    fun id hid => ((node.due_iff htk id).mp hid).imp_left (hkeep id)
  refine ⟨tk', htk', hdue, ?_⟩
  cases hactive : (recoverState node.net (node.localStorage p.streamId)).activeTimeout with
  | true => exact hdue _ ((recoverState_watched _ (h.filters p.streamId)).2.2 hactive)
  | false => exact .inl (hnew hactive)

/-- A call with a packet on a stream that is found. -/
lemma Arrival.watched {host : Host} {node : Node} {p : Packet} {net' : Net}
    {storage' : Option ToState} {out : List Packet}
    (hcase : Arrival host node.net (node.params p.streamId) (node.localStorage p.streamId) p net'
      storage' out)
    (hfound : (node.net.streams p.streamId).isSome) (h : node.Watched host) :
    ∃ tk, net'.timeKeeper = some tk ∧
      (∀ id, node.Due id → tk.Registered id ∨ id ∈ node.expired) ∧
      TimeOut.Watched host true (node.params p.streamId) storage'
        (tk.Registered p.streamId ∨ p.streamId ∈ node.expired) := by
  obtain ⟨tk, htk⟩ := Option.isSome_iff_exists.mp h.timeKeeper
  have hsame := fun id => (node.due_iff htk id).mp
  have hbefore := h.filters p.streamId
  rw [hfound] at hbefore
  obtain ⟨hready, hholds, hactive⟩ := recoverState_watched node.net hbefore
  cases hcase with
  | passed htimeout => exact ⟨tk, htk, hsame, hbefore.mono (hsame _)⟩
  | noStream htimeout hnone =>
      rw [hnone] at hfound
      cases hfound
  | unknownInlet htimeout hinlet =>
      refine ⟨tk, htk, hsame, hready, fun state hstate hset => ?_, fun r hr => hsame _ (hholds r hr),
        fun hf => (by cases hf), fun hzero => absurd hzero htimeout⟩
      cases hstate
      exact hsame _ (hactive hset)
  | waits stream htimeout hinlet hstream =>
      obtain ⟨tk', htk', hdue, hself⟩ := due_of_setTimeout h stream _
      exact ⟨tk', htk', hdue, placed_ready hbefore p, fun _ _ _ => hself, fun _ _ => hself,
        fun hf => (by cases hf), fun hzero => absurd hzero htimeout⟩
  | wave stream htimeout hinlet hstream =>
      obtain ⟨tk', htk', hdue, hself⟩ := due_of_setTimeout h stream _
      have hnd := Finset.sort_nodup
        (placed node.net (node.localStorage p.streamId) p).packetsByRank.keys (· ≤ ·)
      exact ⟨tk', htk', hdue, (popWave_spec hnd _ (placed_ready hbefore p)).2.2.2,
        fun _ _ _ => hself, fun _ _ => hself, fun hf => (by cases hf),
        fun hzero => absurd hzero htimeout⟩

namespace Node.Watched
variable {host : Host} {node next : Node} (h : node.Watched host)
include h

/-- A call for one stream leaves the filters of the others alone. -/
lemma of_push {net : Net} {expired : List StreamId} {strmId : StreamId}
    {storage : Option ToState} {tk : TimeKeeper} (htk : net.timeKeeper = some tk)
    (hsteady : Steady node.net net)
    (hothers : ∀ id, id ≠ strmId → node.Due id → tk.Registered id ∨ id ∈ expired)
    (hself : TimeOut.Watched host (node.net.streams strmId).isSome (node.params strmId) storage
      (tk.Registered strmId ∨ strmId ∈ expired)) :
    Node.Watched host
      ⟨net, node.params, Function.update node.localStorage strmId storage, expired⟩ := by
  refine ⟨by rw [htk]; rfl, fun id => ?_⟩
  rw [hsteady.streams id, Node.due_iff _ htk]
  dsimp only
  by_cases hid : id = strmId
  · subst hid
    rw [Function.update_self]
    exact hself
  · rw [Function.update_of_ne hid]
    exact (h.filters id).mono (hothers id hid)

lemma arrival {p : Packet} (hstep : node.step host (.arrival p) = .ok next) :
    next.Watched host := by
  cases hstream : node.net.streams p.streamId with
  | none =>
      simp only [Node.step, hstream] at hstep
      cases hstep
      exact h
  | some stream =>
      simp only [Node.step, hstream] at hstep
      obtain ⟨⟨net', storage', out⟩, hcall, hres⟩ := bind_ok_iff.mp hstep
      cases hres
      have hfound : (node.net.streams p.streamId).isSome := by rw [hstream]; rfl
      have hcase := arrival_cases hcall
      obtain ⟨tk, htk, hothers, hself⟩ := hcase.watched hfound h
      exact h.of_push htk hcase.steady (fun id _ => hothers id) (hfound.symm ▸ hself)

lemma notifyElapsed {elapsedMs : BitVec 32}
    (hstep : node.step host (.notifyElapsed elapsedMs) = .ok next) : next.Watched host := by
  obtain ⟨tk, htk⟩ := Option.isSome_iff_exists.mp h.timeKeeper
  simp only [Node.step, htk] at hstep
  cases hstep
  refine ⟨rfl, fun id => (h.filters id).mono fun hdue => ?_⟩
  rw [Node.due_iff _ htk] at hdue
  rw [Node.due_iff _ rfl]
  rcases hdue with hreg | hexp
  · exact (tk.notifyElapsed_spec elapsedMs hreg).imp_right (List.mem_append_right _)
  · exact .inr (List.mem_append_left _ hexp)

/-- A flush leaves nothing in the filter. -/
lemma flush {strmId : StreamId} (hstep : node.step host (.flush strmId) = .ok next) :
    next.Watched host := by
  obtain ⟨tk, htk⟩ := Option.isSome_iff_exists.mp h.timeKeeper
  have hothers : ∀ id, id ≠ strmId → node.Due id →
      tk.Registered id ∨ id ∈ node.expired.erase strmId := by
    intro id hid hdue
    refine ((node.due_iff htk id).mp hdue).imp_right fun hexp => ?_
    exact (List.mem_erase_of_ne hid).mpr hexp
  have hfilter := h.filters strmId
  -- A filter without state holds nothing, whether or not the stream is flushed.
  have hnone : node.localStorage strmId = none →
      Node.Watched host { node with expired := node.expired.erase strmId } := by
    intro hstorage
    have hself : TimeOut.Watched host (node.net.streams strmId).isSome (node.params strmId) none
        (tk.Registered strmId ∨ strmId ∈ node.expired.erase strmId) := by
      rw [hstorage] at hfilter
      refine ⟨hfilter.ready, fun state hstate => ?_, fun r hr => absurd rfl hr, fun _ => rfl,
        fun _ => rfl⟩
      cases hstate
    have hwatched := h.of_push htk (.refl _) hothers hself
    rw [← hstorage, Function.update_eq_self] at hwatched
    exact hwatched
  simp only [Node.step] at hstep
  split_ifs at hstep with hexp
  · cases hstream : node.net.streams strmId with
    | none =>
        rw [hstream] at hstep hfilter
        cases hstep
        exact hnone (hfilter.noStream rfl)
    | some stream =>
        rw [hstream] at hstep
        obtain ⟨⟨net', storage', out⟩, hcall, hres⟩ := bind_ok_iff.mp hstep
        cases hres
        obtain ⟨hnet, ⟨hzero, hstorage, -⟩ | ⟨hset, hstorage, -⟩⟩ := timeout_cases hcall
        · subst hnet hstorage
          have hwatched := hnone (hfilter.noTimeout hzero)
          rw [← Function.update_eq_self strmId node.localStorage] at hwatched
          exact hwatched
        · subst hnet hstorage
          have hready := (recoverState_watched node.net hfilter).1
          have hnd := Finset.sort_nodup
            (recoverState node.net (node.localStorage strmId)).packetsByRank.keys (· ≤ ·)
          refine h.of_push htk (.refl _) hothers ⟨(popAll_spec hnd hready).2.2,
            fun state hst hact => ?_, fun r hr => absurd (queue_popAll hready r) hr, fun hf => ?_,
            fun hzero => absurd hzero hset⟩
          · cases hst
            cases hact
          · rw [hstream] at hf
            cases hf
  · cases hstep
    exact h

theorem step {activity : Activity} (hstep : node.step host activity = .ok next) :
    next.Watched host := by
  cases activity with
  | arrival p => exact h.arrival hstep
  | notifyElapsed elapsedMs => exact h.notifyElapsed hstep
  | flush strmId => exact h.flush hstep

theorem run {activities : List Activity} {last : Node}
    (hrun : node.run host activities = .ok last) : last.Watched host := by
  induction activities generalizing node with
  | nil =>
      cases hrun
      exact h
  | cons activity activities ih =>
      obtain ⟨next, hstep, hrest⟩ := bind_ok_iff.mp hrun
      exact ih (h.step hstep) hrest

end Node.Watched

lemma Node.Fresh.watched (host : Host) {node : Node} (h : node.Fresh) : node.Watched host := by
  refine ⟨h.1, fun strmId => ?_⟩
  rw [h.2 strmId]
  refine ⟨fun r => ?_, fun state hstate => ?_, fun r hr => absurd rfl hr, fun _ => rfl,
    fun _ => rfl⟩
  · simp [bufferOf, WfaState.empty, WfaState.queue]
  · cases hstate

/-- In every state that is reached, a stream whose filter holds a packet has its timer
registered or its flush still to run. -/
theorem run_none_stranded {host : Host} {node reached : Node} (hstart : node.Fresh)
    {activities : List Activity} (hrun : node.run host activities = .ok reached)
    {strmId : StreamId} (hholds : reached.Holds strmId) : reached.Due strmId := by
  obtain ⟨r, hr⟩ := hholds
  exact (((hstart.watched host).run hrun).filters strmId).holds r hr

/-- A node with one stream of two children and a timeout of 100 ms. -/
def twoChildrenNode : Node where
  net := twoChildren.net
  params := fun _ => some (timeoutParams 100)
  localStorage := fun _ => none
  expired := []

/-- The timer of the stream has expired, and the packet of one child waits for the flush. -/
def expiredNode : Node where
  net := { twoChildren.net with timeKeeper := some ⟨100, []⟩ }
  params := fun _ => some (timeoutParams 100)
  localStorage := Function.update (fun _ => none) userStrmBaseId
    (some ⟨WfaState.empty.place (userPacket 1 10), true⟩)
  expired := [userStrmBaseId]

theorem run_none_stranded_before_flush :
    expiredNode.Holds userStrmBaseId ∧ expiredNode.Due userStrmBaseId := by
  have hrun : twoChildrenNode.run (Host.ample .little)
      [.arrival (userPacket 1 10), .notifyElapsed 40, .notifyElapsed 60] = .ok expiredNode := rfl
  have hholds : expiredNode.Holds userStrmBaseId := ⟨1, fun hnil => by cases hnil⟩
  exact ⟨hholds, run_none_stranded ⟨rfl, fun _ => rfl⟩ hrun hholds⟩

end MRNet.TimeOut
