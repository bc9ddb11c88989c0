import MRNet.Packet
import MRNet.Waves

/-!
# The WaitForAll synchronization filter

Translation of `sfilter_WaitForAll`. The state is a map from ranks to queues of
packets and the set of the ranks that are ready. Over all calls with one packet
from a peer, the filter emits the waves of the history.
-/
namespace MRNet.WaitForAll
open Codec Wire Waves

abbrev Rank := BitVec 32

/-- Ranks are compared as unsigned numbers. -/
instance rankOrder : LinearOrder Rank where
  le_refl a := BitVec.le_refl a
  le_trans _ _ _ := BitVec.le_trans
  le_antisymm _ _ := BitVec.le_antisymm
  le_total := BitVec.le_total
  lt_iff_le_not_ge a b := by simp only [BitVec.lt_def, BitVec.le_def]; omega
  toDecidableLE := inferInstance
  toDecidableEq := inferInstance
  toDecidableLT := inferInstance

-- The sets of ranks are walked through in this order.
instance rankTrans : IsTrans Rank fun a b => a ≤ b := ⟨fun _ _ _ => le_trans⟩

instance rankAntisymm : Std.Antisymm fun a b : Rank => a ≤ b := ⟨fun _ _ => le_antisymm⟩

instance rankTotal : Std.Total fun a b : Rank => a ≤ b := ⟨le_total⟩

/-- The part of a stream that the filter reads: the ranks of its peer nodes. -/
structure Stream where
  peers : List Rank

def Stream.getChildRanks (stream : Stream) : Finset Rank := stream.peers.toFinset

structure Network where
  getStream : BitVec 32 → Option Stream
  nodeFailed : Rank → Bool

structure WfaState where
  packetsByRank : Finmap fun _ : Rank => List Packet
  readyPeers : Finset Rank

def WfaState.empty : WfaState := ⟨∅, ∅⟩

/-- The buffered packets of a rank. -/
def WfaState.queue (s : WfaState) (r : Rank) : List Packet := (s.packetsByRank.lookup r).getD []

section Model
variable (net : Network)

/-- The slots of failed nodes are discarded. -/
def discardFailed : List Rank → WfaState → WfaState
  | [], s => s
  | rank :: ranks, s =>
      if net.nodeFailed rank then
        discardFailed ranks ⟨s.packetsByRank.erase rank, s.readyPeers.erase rank⟩
      else discardFailed ranks s

def WfaState.place (s : WfaState) (packet : Packet) : WfaState where
  packetsByRank := s.packetsByRank.insert packet.inletRank (s.queue packet.inletRank ++ [packet])
  readyPeers := insert packet.inletRank s.readyPeers

/-- The loop over the input packets. A packet of unknown inlet that comes alone is
passed on at once. -/
def placeAll (alone : Bool) : List Packet → WfaState → WfaState × Option Packet
  | [], s => (s, none)
  | packet :: ipackets, s =>
      if packet.inletRank = unknownRank ∧ alone then (s, some packet)
      else if net.nodeFailed packet.inletRank then placeAll alone ipackets s
      else placeAll alone ipackets (s.place packet)

/-- The loop over the slots: the first packet of each queue is taken. -/
def popWave : List Rank → WfaState → WfaState × List Packet
  | [], s => (s, [])
  | r :: ranks, s =>
      match s.queue r with
      | [] => popWave ranks s
      | packet :: queue =>
          let s : WfaState :=
            { packetsByRank := s.packetsByRank.insert r queue
              readyPeers := if queue = [] then s.readyPeers.erase r else s.readyPeers }
          let (s, opackets) := popWave ranks s
          (s, packet :: opackets)

/-- The filter state is set up, or recovered without the slots of failed nodes. -/
def recoverState : Option WfaState → WfaState
  | none => WfaState.empty
  | some state => discardFailed net state.packetsByRank.keys.sort state

/-- The local storage after the call, and the output packets. -/
def sfilterWaitForAll (localStorage : Option WfaState) (ipackets : List Packet) :
    Outcome (Option WfaState × List Packet) :=
  match ipackets with
  | [] => .error (.fault .readPast)
  | first :: _ =>
      match net.getStream first.streamId with
      | none => return (localStorage, [])
      | some stream =>
          match placeAll net (ipackets.length = 1) ipackets (recoverState net localStorage) with
          | (state, some packet) => return (some state, [packet])
          | (state, none) =>
              if state.readyPeers.card < stream.getChildRanks.card then return (some state, [])
              else
                let (state, opackets) := popWave state.packetsByRank.keys.sort state
                return (some state, opackets)

/-- Calls with one packet each: the storage after them, and the output of each. -/
def run : Option WfaState → List Packet → Outcome (Option WfaState × List (List Packet))
  | storage, [] => return (storage, [])
  | storage, packet :: calls => do
      let (storage, opackets) ← sfilterWaitForAll net storage [packet]
      let (storage, outputs) ← run storage calls
      return (storage, opackets :: outputs)

end Model

/-- The state before the first call is that of an empty map. -/
def stateOf (storage : Option WfaState) : WfaState := storage.getD WfaState.empty

/-- A call that emits a wave has output. -/
def emitted (outputs : List (List Packet)) : List (List Packet) := outputs.filter (· ≠ [])

/-- What a storage and the waves emitted so far are for a history of calls. -/
structure Synchronized (peers : Finset Rank) (hne : peers.Nonempty) (history : List Packet)
    (state : WfaState) (waves : List (List Packet)) : Prop where
  count : waves.length = complete Packet.inletRank peers hne history
  content : ∀ k w, waves[k]? = some w → w.map some = wave Packet.inletRank peers history k
  buffered : ∀ r ∈ peers,
    state.queue r = (received Packet.inletRank history r).drop waves.length
  nothingElse : ∀ r, r ∉ peers → r ∉ state.packetsByRank
  ready : ∀ r, r ∈ state.readyPeers ↔ state.queue r ≠ []

lemma queue_insert (m : Finmap fun _ : Rank => List Packet) (ready : Finset Rank) (a r : Rank)
    (q : List Packet) :
    WfaState.queue ⟨m.insert a q, ready⟩ r = if a = r then q else WfaState.queue ⟨m, ready⟩ r := by
  unfold WfaState.queue
  split_ifs with h
  · rw [← h, Finmap.lookup_insert, Option.getD_some]
  · rw [Finmap.lookup_insert_of_ne _ (Ne.symm h)]

lemma mem_of_queue_ne_nil {s : WfaState} {r : Rank} (h : s.queue r ≠ []) :
    r ∈ s.packetsByRank := by
  by_contra hr
  rw [WfaState.queue, Finmap.lookup_eq_none.mpr hr] at h
  exact h rfl

theorem queue_place (s : WfaState) (p : Packet) (r : Rank) :
    (s.place p).queue r = if p.inletRank = r then s.queue r ++ [p] else s.queue r := by
  rw [WfaState.place, queue_insert]
  split_ifs with h
  · rw [h]
  · rfl

lemma discardFailed_none (net : Network) {ranks : List Rank} (s : WfaState)
    (h : ∀ r ∈ ranks, net.nodeFailed r = false) : discardFailed net ranks s = s := by
  induction ranks with
  | nil => rfl
  | cons r ranks ih =>
      rw [discardFailed, if_neg (by simp [h r]), ih fun r' hr' => h r' (by simp [hr'])]

lemma queue_erase (s : WfaState) (ready : Finset Rank) (a r : Rank) :
    WfaState.queue ⟨s.packetsByRank.erase a, ready⟩ r = if a = r then [] else s.queue r := by
  unfold WfaState.queue
  split_ifs with h
  · rw [← h, Finmap.lookup_erase]
    rfl
  · rw [Finmap.lookup_erase_ne (Ne.symm h)]

/-- The ranks that are ready are those with buffered packets. -/
def ReadyExact (s : WfaState) : Prop := ∀ r, r ∈ s.readyPeers ↔ s.queue r ≠ []

lemma ReadyExact.place {s : WfaState} (h : ReadyExact s) (p : Packet) : ReadyExact (s.place p) := by
  intro r
  rw [queue_place]
  simp only [WfaState.place, Finset.mem_insert, h r]
  split_ifs with hr
  · simp [hr]
  · simp [Ne.symm hr]

/-- Slots of failed nodes are emptied, the others are left as they are. -/
theorem discardFailed_spec (net : Network) (ranks : List Rank) {s : WfaState}
    (h : ReadyExact s) :
    (∀ r, (discardFailed net ranks s).queue r =
      if r ∈ ranks ∧ net.nodeFailed r then [] else s.queue r) ∧
    ReadyExact (discardFailed net ranks s) := by
  induction ranks generalizing s with
  | nil => exact ⟨by simp [discardFailed], h⟩
  | cons a ranks ih =>
      rw [discardFailed]
      split_ifs with ha
      · have herase : ReadyExact ⟨s.packetsByRank.erase a, s.readyPeers.erase a⟩ := by
          intro r
          rw [queue_erase]
          by_cases hr : a = r
          · simp [hr]
          · simp [hr, Ne.symm hr, h r]
        obtain ⟨hqueue, hready⟩ := ih herase
        refine ⟨fun r => ?_, hready⟩
        rw [hqueue r, queue_erase]
        by_cases hr : a = r
        · subst hr
          simp [ha]
        · simp [hr, Ne.symm hr]
      · obtain ⟨hqueue, hready⟩ := ih h
        refine ⟨fun r => ?_, hready⟩
        rw [hqueue r]
        by_cases hr : r = a
        · simp [hr, ha]
        · simp [hr]

/-- One slot of the loop: the queue of `r` loses its first packet. -/
lemma ReadyExact.pop {s : WfaState} (h : ReadyExact s) (r : Rank) {packet : Packet}
    {queue : List Packet} (hq : s.queue r = packet :: queue) :
    ReadyExact ⟨s.packetsByRank.insert r queue,
      if queue = [] then s.readyPeers.erase r else s.readyPeers⟩ := by
  intro r'
  rw [queue_insert]
  have hr := h r'
  by_cases he : r = r'
  · subst he
    rw [if_pos rfl]
    split_ifs with hnil
    · simp [hnil]
    · simp only [hr, hq]
      simp [hnil]
  · rw [if_neg he]
    split_ifs
    · simp [Ne.symm he, hr, WfaState.queue]
    · exact hr

/-- The loop takes the first packet of every queue in the order of the ranks. -/
theorem popWave_spec {ranks : List Rank} (hnd : ranks.Nodup) (s : WfaState)
    (h : ReadyExact s) :
    (popWave ranks s).2 = ranks.filterMap (fun r => (s.queue r).head?) ∧
    (∀ r, (popWave ranks s).1.queue r = if r ∈ ranks then (s.queue r).tail else s.queue r) ∧
    (∀ r, r ∈ (popWave ranks s).1.packetsByRank ↔ r ∈ s.packetsByRank) ∧
    ReadyExact (popWave ranks s).1 := by
  induction ranks generalizing s with
  | nil => exact ⟨rfl, by simp [popWave], by simp [popWave], h⟩
  | cons a ranks ih =>
      obtain ⟨ha, hnd⟩ := List.nodup_cons.mp hnd
      cases hq : s.queue a with
      | nil =>
          obtain ⟨hout, hqueue, hkeys, hready⟩ := ih hnd s h
          simp only [popWave, hq, List.filterMap_cons, List.head?_nil]
          refine ⟨hout, fun r => ?_, hkeys, hready⟩
          rw [hqueue r]
          by_cases hr : r = a
          · simp [hr, ha, hq]
          · simp [hr]
      | cons packet queue =>
          obtain ⟨hout, hqueue, hkeys, hready⟩ := ih hnd _ (h.pop a hq)
          simp only [popWave, hq, List.filterMap_cons, List.head?_cons]
          have hother : ∀ r, a ≠ r → WfaState.queue ⟨s.packetsByRank.insert a queue,
              if queue = [] then s.readyPeers.erase a else s.readyPeers⟩ r = s.queue r := by
            intro r hr
            rw [queue_insert, if_neg hr]
            rfl
          refine ⟨?_, fun r => ?_, fun r => ?_, hready⟩
          · rw [hout]
            refine congrArg (packet :: ·) (List.filterMap_congr fun r hr => ?_)
            rw [hother r fun he => ha (he ▸ hr)]
          · rw [hqueue r]
            by_cases hr : r = a
            · subst hr
              rw [if_neg ha, queue_insert, if_pos rfl, hq, if_pos List.mem_cons_self, List.tail_cons]
            · rw [hother r (Ne.symm hr)]
              simp [hr]
          · rw [hkeys r, Finmap.mem_insert]
            refine ⟨fun hr => hr.elim (fun he => ?_) id, Or.inr⟩
            rw [he]
            exact mem_of_queue_ne_nil (by rw [hq]; simp)

lemma mem_sort_keys_of_queue_ne_nil {s : WfaState} {r : Rank} (h : s.queue r ≠ []) :
    r ∈ s.packetsByRank.keys.sort :=
  (Finset.mem_sort _).mpr (Finmap.mem_keys.mpr (mem_of_queue_ne_nil h))

/-- Every rank loses the first packet of its queue. -/
theorem queue_popWave {s : WfaState} (h : ReadyExact s) (r : Rank) :
    (popWave s.packetsByRank.keys.sort s).1.queue r = (s.queue r).tail := by
  have hnd := Finset.sort_nodup s.packetsByRank.keys (· ≤ ·)
  rw [(popWave_spec hnd s h).2.1 r]
  split_ifs with hr
  · rfl
  · have hnil : s.queue r = [] := by
      by_contra hne
      exact hr (mem_sort_keys_of_queue_ne_nil hne)
    rw [hnil]
    rfl

/-- A rank contributes the first packet of its queue. -/
theorem received_popWave {s : WfaState} (h : ReadyExact s)
    (hinlet : ∀ r, ∀ p ∈ s.queue r, p.inletRank = r) (r : Rank) :
    received Packet.inletRank (popWave s.packetsByRank.keys.sort s).2 r = (s.queue r).take 1 := by
  have hnd := Finset.sort_nodup s.packetsByRank.keys (· ≤ ·)
  rw [(popWave_spec hnd s h).1, List.filterMap_eq_flatMap_toList,
    received_flatMap Packet.inletRank hnd]
  · by_cases hr : s.queue r = []
    · simp [hr]
    · obtain ⟨p, rest, hq⟩ := List.exists_cons_of_ne_nil hr
      rw [if_pos (mem_sort_keys_of_queue_ne_nil hr), hq]
      rfl
  · intro r p hp
    exact hinlet r p (List.mem_of_head? (Option.mem_toList.mp hp))

/-- What is left of a storage at the start of a call. -/
theorem recoverState_spec (net : Network) {storage : Option WfaState}
    (h : ReadyExact (stateOf storage)) :
    (∀ r, (recoverState net storage).queue r =
      if net.nodeFailed r then [] else (stateOf storage).queue r) ∧
    ReadyExact (recoverState net storage) := by
  cases storage with
  | none => exact ⟨fun r => by simp [recoverState, stateOf, WfaState.empty, WfaState.queue], h⟩
  | some state =>
      obtain ⟨hqueue, hready⟩ := discardFailed_spec net state.packetsByRank.keys.sort h
      refine ⟨fun r => (hqueue r).trans ?_, hready⟩
      by_cases hr : r ∈ state.packetsByRank
      · simp [Finset.mem_sort, Finmap.mem_keys, hr, stateOf]
      · have hempty : state.queue r = [] := by
          by_contra hne
          exact hr (mem_of_queue_ne_nil hne)
        simp [stateOf, hempty]

section Run
variable {net : Network} {stream : Stream} {hne : stream.getChildRanks.Nonempty}

/-- A packet of a live peer of the stream. -/
structure FromPeer (net : Network) (stream : Stream) (p : Packet) : Prop where
  onStream : net.getStream p.streamId = some stream
  peer : p.inletRank ∈ stream.getChildRanks
  known : p.inletRank ≠ unknownRank
  alive : net.nodeFailed p.inletRank = false

/-- What a call does with a packet from a peer. -/
lemma sfilterWaitForAll_eq (halive : ∀ r ∈ stream.getChildRanks, net.nodeFailed r = false)
    {storage : Option WfaState} {p : Packet} (hp : FromPeer net stream p)
    (helse : ∀ r, r ∉ stream.getChildRanks → r ∉ (stateOf storage).packetsByRank) :
    sfilterWaitForAll net storage [p] =
      let state := (stateOf storage).place p
      if state.readyPeers.card < stream.getChildRanks.card then .ok (some state, [])
      else
        let wave := popWave state.packetsByRank.keys.sort state
        .ok (some wave.1, wave.2) := by
  have hstate : recoverState net storage = stateOf storage := by
    cases storage with
    | none => rfl
    | some state =>
        refine discardFailed_none net state fun r hr => halive r ?_
        by_contra hout
        exact helse r hout (Finmap.mem_keys.mp ((Finset.mem_sort _).mp hr))
  have hplace : placeAll net true [p] (stateOf storage) = ((stateOf storage).place p, none) := by
    simp [placeAll, hp.known, hp.alive]
  simp only [sfilterWaitForAll, hp.onStream, hstate, List.length_singleton, decide_true, hplace]
  rfl

/-- The queues after a packet is placed. -/
lemma Synchronized.place {history : List Packet} {state : WfaState} {waves : List (List Packet)}
    (h : Synchronized stream.getChildRanks hne history state waves) {p : Packet}
    (hp : FromPeer net stream p) :
    (∀ r ∈ stream.getChildRanks, (state.place p).queue r =
      (received Packet.inletRank (history ++ [p]) r).drop waves.length) ∧
    (∀ r, r ∉ stream.getChildRanks → r ∉ (state.place p).packetsByRank) ∧
    ReadyExact (state.place p) := by
  refine ⟨fun r hr => ?_, fun r hr hmem => ?_, ReadyExact.place h.ready p⟩
  · have hle := complete_le Packet.inletRank hne history hr
    rw [queue_place, received_append, h.buffered r hr]
    split_ifs with he
    · rw [List.drop_append_of_le_length (by rw [h.count]; exact hle)]
    · rfl
  · rcases Finmap.mem_insert.mp hmem with he | hmem
    · exact hr (he ▸ hp.peer)
    · exact h.nothingElse r hr hmem

/-- The ready set is as large as the set of peers only if it is that set. -/
lemma readyPeers_eq {peers : Finset Rank} {state : WfaState} (hready : ReadyExact state)
    (helse : ∀ r, r ∉ peers → r ∉ state.packetsByRank)
    (hcard : ¬state.readyPeers.card < peers.card) : state.readyPeers = peers := by
  refine Finset.eq_of_subset_of_card_le (fun r hr => ?_) (not_lt.mp hcard)
  by_contra hout
  exact helse r hout (mem_of_queue_ne_nil ((hready r).mp hr))

lemma map_some_filterMap {α β : Type} {f : α → Option β} {l : List α}
    (h : ∀ a ∈ l, (f a).isSome) : (l.filterMap f).map some = l.map f := by
  induction l with
  | nil => rfl
  | cons a l ih =>
      obtain ⟨b, hb⟩ := Option.isSome_iff_exists.mp (h a (by simp))
      rw [List.filterMap_cons, hb, List.map_cons, List.map_cons, hb,
        ih fun a' ha' => h a' (by simp [ha'])]

section Step
variable (halive : ∀ r ∈ stream.getChildRanks, net.nodeFailed r = false)
  {history : List Packet} {storage : Option WfaState} {waves : List (List Packet)}
  (h : Synchronized stream.getChildRanks hne history (stateOf storage) waves) {p : Packet}
  (hp : FromPeer net stream p)
include h hp

/-- A peer has a packet for the next wave exactly if its queue is not empty. -/
lemma Synchronized.queue_ne_nil_iff {r : Rank} (hr : r ∈ stream.getChildRanks) :
    ((stateOf storage).place p).queue r ≠ [] ↔
      complete Packet.inletRank stream.getChildRanks hne history <
        (received Packet.inletRank (history ++ [p]) r).length := by
  rw [(h.place hp).1 r hr, ne_eq, List.drop_eq_nil_iff, not_le, h.count]

omit hp in
/-- The waves emitted before stay what they are. -/
lemma Synchronized.content_append {k : ℕ} {w : List Packet} (hw : waves[k]? = some w) :
    w.map some = wave Packet.inletRank stream.getChildRanks (history ++ [p]) k := by
  have hk := (List.getElem?_eq_some_iff.mp hw).1
  rw [wave_append Packet.inletRank hne history p (by rw [← h.count]; exact hk)]
  exact h.content k w hw

/-- A call after which some peer is missing emits nothing. -/
lemma Synchronized.wait
    (hcard : ((stateOf storage).place p).readyPeers.card < stream.getChildRanks.card) :
    Synchronized stream.getChildRanks hne (history ++ [p]) ((stateOf storage).place p) waves := by
  obtain ⟨hqueue, helse, hready⟩ := h.place hp
  obtain ⟨r, hr, hmiss⟩ := Finset.exists_mem_notMem_of_card_lt_card hcard
  refine ⟨?_, fun k w hw => h.content_append hw, hqueue, helse, hready⟩
  rw [complete_append, if_neg, h.count]
  intro hall
  exact hmiss ((hready r).mpr ((h.queue_ne_nil_iff hp hr).mpr (hall r hr)))

/-- A call after which all peers are ready emits the next wave. -/
lemma Synchronized.emit
    (hcard : ¬((stateOf storage).place p).readyPeers.card < stream.getChildRanks.card) :
    let state := (stateOf storage).place p
    let popped := popWave state.packetsByRank.keys.sort state
    popped.2 ≠ [] ∧
      Synchronized stream.getChildRanks hne (history ++ [p]) popped.1 (waves ++ [popped.2]) := by
  intro state popped
  obtain ⟨hqueue, helse, hready⟩ := h.place hp
  have hall : ∀ r ∈ stream.getChildRanks, state.queue r ≠ [] := by
    intro r hr
    rw [← readyPeers_eq hready helse hcard] at hr
    exact (hready r).mp hr
  have hkeys : state.packetsByRank.keys = stream.getChildRanks := by
    ext r
    rw [Finmap.mem_keys]
    exact ⟨fun hr => by_contra fun hout => helse r hout hr,
      fun hr => mem_of_queue_ne_nil (hall r hr)⟩
  obtain ⟨hout, hrest, hslots, hready'⟩ :=
    popWave_spec (Finset.sort_nodup state.packetsByRank.keys (· ≤ ·)) state hready
  have hsome : ∀ r ∈ state.packetsByRank.keys.sort, (state.queue r).head?.isSome := by
    intro r hr
    rw [Finset.mem_sort, hkeys] at hr
    simpa using hall r hr
  have hwave : popped.2.map some =
      wave Packet.inletRank stream.getChildRanks (history ++ [p]) waves.length := by
    rw [hout, map_some_filterMap hsome, hkeys]
    refine List.map_congr_left fun r hr => ?_
    rw [hqueue r ((Finset.mem_sort _).mp hr), List.head?_drop]
  have hnonempty : popped.2 ≠ [] := by
    intro hnil
    have hlen := congrArg List.length hwave
    rw [hnil] at hlen
    simp only [wave, List.map_nil, List.length_nil, List.length_map, Finset.length_sort] at hlen
    exact hne.card_pos.ne hlen
  refine ⟨hnonempty, ?_, fun k w hw => ?_, fun r hr => ?_, fun r hr => ?_, hready'⟩
  · rw [List.length_append, complete_append, if_pos, h.count, List.length_singleton]
    exact fun r hr => (h.queue_ne_nil_iff hp hr).mp (hall r hr)
  · rcases Nat.lt_trichotomy k waves.length with hk | hk | hk
    · rw [List.getElem?_append_left hk] at hw
      exact h.content_append hw
    · rw [hk] at hw ⊢
      rw [List.getElem?_concat_length] at hw
      cases hw
      exact hwave
    · rw [List.getElem?_eq_none (by simp; omega)] at hw
      cases hw
  · rw [hrest r, if_pos ((Finset.mem_sort _).mpr (hkeys ▸ hr)), hqueue r hr, List.tail_drop,
      List.length_append, List.length_singleton]
  · rw [hslots r]
    exact helse r hr

include halive

/-- One call takes the history one packet further. -/
theorem Synchronized.step :
    ∃ state out, sfilterWaitForAll net storage [p] = .ok (some state, out) ∧
      Synchronized stream.getChildRanks hne (history ++ [p]) state (waves ++ emitted [out]) := by
  rw [sfilterWaitForAll_eq halive hp h.nothingElse]
  dsimp only
  split_ifs with hcard
  · refine ⟨_, _, rfl, ?_⟩
    simpa [emitted] using h.wait hp hcard
  · obtain ⟨hne', hsync⟩ := h.emit hp hcard
    refine ⟨_, _, rfl, ?_⟩
    rw [emitted, List.filter_cons_of_pos (by simpa using hne'), List.filter_nil]
    exact hsync

end Step

/-- Before the first call nothing is buffered. -/
lemma synchronized_empty : Synchronized stream.getChildRanks hne [] (stateOf none) [] where
  count := by rw [complete_nil]; rfl
  content := by simp
  buffered := fun _ _ => rfl
  nothingElse := fun _ _ => Finmap.notMem_empty
  ready := fun r => by simp [stateOf, WfaState.empty, WfaState.queue]

/-- Calls take the history further packet by packet. -/
theorem Synchronized.run (halive : ∀ r ∈ stream.getChildRanks, net.nodeFailed r = false)
    {calls : List Packet} (hcalls : ∀ p ∈ calls, FromPeer net stream p) {history : List Packet}
    {storage : Option WfaState} {waves : List (List Packet)}
    (h : Synchronized stream.getChildRanks hne history (stateOf storage) waves) :
    ∃ storage' outputs, WaitForAll.run net storage calls = .ok (storage', outputs) ∧
      Synchronized stream.getChildRanks hne (history ++ calls) (stateOf storage')
        (waves ++ emitted outputs) := by
  induction calls generalizing history storage waves with
  | nil => exact ⟨storage, [], rfl, by simpa [emitted] using h⟩
  | cons p calls ih =>
      obtain ⟨state, out, hcall, hsync⟩ := h.step halive (hcalls p (by simp))
      have hnext : Synchronized stream.getChildRanks hne (history ++ [p]) (stateOf (some state))
          (waves ++ emitted [out]) := hsync
      obtain ⟨storage', outputs, hrun, hsync'⟩ := ih (fun q hq => hcalls q (by simp [hq])) hnext
      refine ⟨storage', out :: outputs, ?_, ?_⟩
      · rw [WaitForAll.run, hcall, ok_bind]
        dsimp only
        rw [hrun]
        rfl
      · have hsplit : emitted (out :: outputs) = emitted [out] ++ emitted outputs := by
          rw [emitted, ← List.singleton_append, List.filter_append]
          rfl
        rw [hsplit, ← List.append_assoc, ← List.singleton_append, ← List.append_assoc]
        exact hsync'

end Run

/-- Whatever the order in which the packets of the peers arrive, the filter emits
the waves of the history in their order, and buffers the rest. -/
theorem run_emits_waves (net : Network) (stream : Stream) (hne : stream.getChildRanks.Nonempty)
    (halive : ∀ r ∈ stream.getChildRanks, net.nodeFailed r = false)
    (hknown : unknownRank ∉ stream.getChildRanks) {calls : List Packet}
    (hstream : ∀ p ∈ calls, net.getStream p.streamId = some stream)
    (hpeer : ∀ p ∈ calls, p.inletRank ∈ stream.getChildRanks) :
    ∃ storage outputs, run net none calls = .ok (storage, outputs) ∧
      Synchronized stream.getChildRanks hne calls (stateOf storage) (emitted outputs) := by
  refine synchronized_empty.run halive fun p hp => ?_
  exact ⟨hstream p hp, hpeer p hp, fun hu => hknown (hu ▸ hpeer p hp), halive _ (hpeer p hp)⟩

/-- A network in which no node has failed, with one stream of two peers. -/
def twoPeers : Network := ⟨fun _ => some ⟨[3, 1]⟩, fun _ => false⟩

/-- A packet that came in from the given rank. -/
def arrival (rank : Rank) (tag : BitVec 32) : Packet :=
  (Packet.blank 0 none 0 none rank).setTag tag

theorem run_emits_waves_two_peers :
    ∃ storage outputs, run twoPeers none [arrival 1 10, arrival 1 11, arrival 3 12] =
        .ok (storage, outputs) ∧
      Synchronized (Stream.getChildRanks ⟨[3, 1]⟩) ⟨1, by decide⟩
        [arrival 1 10, arrival 1 11, arrival 3 12] (stateOf storage) (emitted outputs) :=
  run_emits_waves twoPeers ⟨[3, 1]⟩ ⟨1, by decide⟩ (fun _ _ => rfl) (by decide)
    (fun _ _ => rfl) (by simp [arrival, Packet.blank, Packet.setTag, Stream.getChildRanks])

end MRNet.WaitForAll
