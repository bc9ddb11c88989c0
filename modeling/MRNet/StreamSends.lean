import Mathlib.Data.List.Count
import MRNet.Interleavings
import MRNet.StreamPeers

/-!
# The sends of a stream

Translation of `Stream::send_aux`, `Stream::close` and the wait of `Stream::~Stream` of
`Stream.C`. A step of a call is what it does while it holds a lock, or a call of a filter or of the
network, whose outcome is part of the action.
-/
namespace MRNet.StreamSends
open Interleavings

/-- Where a call of `send_aux` is. It leaves before its end where it is on a closed stream, or
where the filters or the network fail. -/
inductive Phase (P : Type) where
  | entered
  | opened
  | filtered (opackets opacketsReverse : List P)
  | delivered (opacketsReverse : List P)
  | finishing
  | returned (retval : ℤ)
  | left (retval : ℤ)

namespace Phase

variable {P : Type}

def inProgress : Phase P → Bool
  | returned _ | left _ => false
  | _ => true

def hasLeft : Phase P → Bool
  | left _ => true
  | _ => false

end Phase

structure SendCall (P : Type) where
  packet : P
  strmId : BitVec 32
  upstream : Bool
  internal : Bool
  phase : Phase P

/-- Where the destructor is. -/
inductive Destructor where
  | idle
  | testing
  | blocked
  | passed
  deriving DecidableEq

structure State (P : Type) where
  numSending : ℤ
  wasClosed : Bool
  incomingPacketBuffer : List P
  calls : List (SendCall P)
  destructor : Destructor

inductive Action (P : Type) where
  | enter (packet : P) (strmId : BitVec 32) (upstream internal : Bool)
  | isClosed (i : ℕ)
  | pushPacket (i : ℕ) (result : Option (List P × List P))
  | sendPackets (i : ℕ) (ok : Bool)
  | sendReverse (i : ℕ) (ok : Bool)
  | leave (i : ℕ)
  | close
  | destroy
  | wakeDestructor

variable {P : Type}

namespace State

def initial : State P := ⟨0, false, [], [], .idle⟩

def setPhase (s : State P) (i : ℕ) (call : SendCall P) (phase : Phase P) : State P :=
  { s with calls := s.calls.set i { call with phase := phase } }

/-- `SignalCondition( STREAM_SEND_EMPTY )` -/
def signalSendEmpty (s : State P) : State P :=
  { s with destructor := if s.destructor = .blocked then .testing else s.destructor }

end State

def enter (s : State P) (packet : P) (strmId : BitVec 32) (upstream internal : Bool) : State P :=
  { s with
    numSending := s.numSending + 1
    calls := s.calls ++ [⟨packet, strmId, upstream, internal, .entered⟩] }

/-- The next step of a call, in the phase that it is in. -/
def stepCall (s : State P) (i : ℕ) (next : SendCall P → Option (State P)) : Option (State P) :=
  s.calls[i]?.bind next

def isClosed (s : State P) (i : ℕ) : Option (State P) :=
  stepCall s i fun call =>
    match call.phase with
    | .entered => some (s.setPhase i call (if s.wasClosed then .left 0 else .opened))
    | _ => none

/-- Packets of a stream for one back-end are not filtered. -/
def pushPacket (s : State P) (i : ℕ) (result : Option (List P × List P)) : Option (State P) :=
  stepCall s i fun call =>
    match call.phase with
    | .opened => some (s.setPhase i call
        (if call.strmId < StreamPeers.ctlStrmId then .filtered [call.packet] []
        else
          match result with
          | none => .left (-1)
          | some (opackets, opacketsReverse) => .filtered opackets opacketsReverse))
    | _ => none

def sendPackets (s : State P) (i : ℕ) (ok : Bool) : Option (State P) :=
  stepCall s i fun call =>
    match call.phase with
    | .filtered opackets opacketsReverse => some (s.setPhase i call
        (if opackets ≠ [] ∧ ok = false then .left (-1) else .delivered opacketsReverse))
    | _ => none

/-- The packets that go back. An internal node calls the network for them, upstream with the list
that it has just emptied. -/
def sendReverse (s : State P) (i : ℕ) (ok : Bool) : Option (State P) :=
  stepCall s i fun call =>
    match call.phase with
    | .delivered opacketsReverse =>
        if opacketsReverse = [] then some (s.setPhase i call .finishing)
        else if call.internal = false then some { s.setPhase i call .finishing with
          incomingPacketBuffer := s.incomingPacketBuffer ++ opacketsReverse }
        else some (s.setPhase i call (if ok then .finishing else .left (-1)))
    | _ => none

def leave (s : State P) (i : ℕ) : Option (State P) :=
  stepCall s i fun call =>
    match call.phase with
    | .finishing =>
        let s := { s.setPhase i call (.returned 0) with numSending := s.numSending - 1 }
        some (if s.numSending = 0 then s.signalSendEmpty else s)
    | _ => none

def close (s : State P) : State P := { s with wasClosed := true }

/-- The wait of the destructor, which closes the stream when it is over. -/
def destroy (s : State P) : Option (State P) :=
  match s.destructor with
  | .idle => some { s with destructor := .testing }
  | .testing =>
      if s.numSending ≠ 0 then some { s with destructor := .blocked }
      else some { close s with destructor := .passed }
  | _ => none

/-- The wait of the destructor may end without a signal. -/
def step (s : State P) : Action P → Option (State P)
  | .enter packet strmId upstream internal => some (enter s packet strmId upstream internal)
  | .isClosed i => isClosed s i
  | .pushPacket i result => pushPacket s i result
  | .sendPackets i ok => sendPackets s i ok
  | .sendReverse i ok => sendReverse s i ok
  | .leave i => leave s i
  | .close => some (close s)
  | .destroy => destroy s
  | .wakeDestructor =>
      if s.destructor = .blocked then some { s with destructor := .testing } else none

namespace State

/-- The number of the calls in progress. -/
def inProgress (s : State P) : ℕ := s.calls.countP (·.phase.inProgress)

/-- The number of the calls that left before their end. -/
def left (s : State P) : ℕ := s.calls.countP (·.phase.hasLeft)

end State

/-- The calls that left early are counted for ever. A destructor that is blocked waits for
something. -/
structure Counts (s : State P) : Prop where
  counter : s.numSending = s.inProgress + s.left
  blocked : s.destructor = .blocked → s.numSending ≠ 0

variable {s s' : State P} {i : ℕ} {call : SendCall P}

lemma stepCall_eq_some {next : SendCall P → Option (State P)} (h : stepCall s i next = some s') :
    ∃ call, s.calls[i]? = some call ∧ next call = some s' :=
  Option.bind_eq_some_iff.mp h

lemma countP_setPhase (hcall : s.calls[i]? = some call) (p : Phase P → Bool) (phase : Phase P) :
    (s.setPhase i call phase).calls.countP (fun c => p c.phase) + (p call.phase).toNat =
      s.calls.countP (fun c => p c.phase) + (p phase).toNat := by
  obtain ⟨hlt, hget⟩ := List.getElem?_eq_some_iff.mp hcall
  have hmem : call ∈ s.calls := hget ▸ List.getElem_mem hlt
  have htoNat : ∀ b : Bool, (if b = true then 1 else 0) = b.toNat := by decide
  have hpos : (p call.phase).toNat ≤ s.calls.countP (fun c => p c.phase) := by
    cases hp : p call.phase with
    | true => exact List.countP_pos_iff.mpr ⟨call, hmem, hp⟩
    | false => exact Nat.zero_le _
  rw [State.setPhase, List.countP_set hlt, hget, htoNat, htoNat]
  dsimp only
  omega

/-- A call that is in progress goes on. -/
lemma setPhase_counts (hcall : s.calls[i]? = some call) (hold : call.phase.inProgress)
    (phase : Phase P) :
    (s.setPhase i call phase).inProgress + 1 = s.inProgress + phase.inProgress.toNat ∧
      (s.setPhase i call phase).left = s.left + phase.hasLeft.toNat := by
  have hprogress := countP_setPhase hcall Phase.inProgress phase
  have hleft := countP_setPhase hcall Phase.hasLeft phase
  have hstay : call.phase.hasLeft = false := by
    cases hphase : call.phase <;> rw [hphase] at hold <;> first | rfl | cases hold
  rw [hold] at hprogress
  rw [hstay] at hleft
  exact ⟨hprogress, hleft⟩

/-- It stays in progress or leaves early. -/
lemma Counts.setPhase (h : Counts s) (hcall : s.calls[i]? = some call) {phase : Phase P}
    (hold : call.phase.inProgress) (hnext : phase.inProgress.toNat + phase.hasLeft.toNat = 1) :
    Counts (s.setPhase i call phase) := by
  obtain ⟨hprogress, hleft⟩ := setPhase_counts hcall hold phase
  have hcounter := h.counter
  refine ⟨?_, h.blocked⟩
  change s.numSending = _
  omega

lemma Counts.leave (h : Counts s) (hs : leave s i = some s') : Counts s' := by
  obtain ⟨call, hcall, hs⟩ := stepCall_eq_some hs
  split at hs
  · rename_i hphase
    obtain ⟨hprogress, hleft⟩ := setPhase_counts hcall (by rw [hphase]; rfl) (.returned 0)
    have hnew : s.numSending - 1 = ((s.setPhase i call (.returned 0)).inProgress : ℤ) +
        (s.setPhase i call (.returned 0)).left := by
      have hcounter := h.counter
      simp only [Phase.inProgress, Phase.hasLeft, Bool.toNat_false] at hprogress hleft
      omega
    dsimp only at hs
    split_ifs at hs with hzero
    · cases hs
      refine ⟨hnew, fun hblocked => ?_⟩
      change (if s.destructor = .blocked then Destructor.testing else s.destructor) = _ at hblocked
      split_ifs at hblocked with hwas
      exact absurd hblocked hwas
    · cases hs
      exact ⟨hnew, fun _ => hzero⟩
  · cases hs

lemma Counts.enter (h : Counts s) (packet : P) (strmId : BitVec 32) (upstream internal : Bool) :
    Counts (enter s packet strmId upstream internal) := by
  have hcounter := h.counter
  have hprogress : (StreamSends.enter s packet strmId upstream internal).inProgress =
      s.inProgress + 1 := List.countP_append
  have hleft : (StreamSends.enter s packet strmId upstream internal).left = s.left :=
    List.countP_append
  refine ⟨?_, fun _ => ?_⟩
  · change s.numSending + 1 = _
    omega
  · change s.numSending + 1 ≠ 0
    omega

lemma Counts.destroy (h : Counts s) (hs : destroy s = some s') : Counts s' := by
  unfold StreamSends.destroy at hs
  split at hs
  · cases hs
    exact ⟨h.counter, nofun⟩
  · split_ifs at hs with hzero
    · cases hs
      exact ⟨h.counter, fun _ => hzero⟩
    · cases hs
      exact ⟨h.counter, nofun⟩
  · cases hs

theorem Counts.step {act : Action P} (h : Counts s) (hs : step s act = some s') : Counts s' := by
  cases act with
  | enter packet strmId upstream internal =>
      cases hs
      exact h.enter packet strmId upstream internal
  | isClosed i =>
      obtain ⟨call, hcall, hs⟩ := stepCall_eq_some hs
      split at hs
      · rename_i hphase
        cases hs
        refine h.setPhase hcall (by rw [hphase]; rfl) ?_
        split_ifs <;> rfl
      · cases hs
  | pushPacket i result =>
      obtain ⟨call, hcall, hs⟩ := stepCall_eq_some hs
      split at hs
      · rename_i hphase
        cases hs
        refine h.setPhase hcall (by rw [hphase]; rfl) ?_
        split_ifs
        · rfl
        · cases result <;> rfl
      · cases hs
  | sendPackets i ok =>
      obtain ⟨call, hcall, hs⟩ := stepCall_eq_some hs
      split at hs
      · rename_i hphase
        cases hs
        refine h.setPhase hcall (by rw [hphase]; rfl) ?_
        split_ifs <;> rfl
      · cases hs
  | sendReverse i ok =>
      obtain ⟨call, hcall, hs⟩ := stepCall_eq_some hs
      split at hs
      · rename_i hphase
        have hold : call.phase.inProgress := by rw [hphase]; rfl
        split_ifs at hs with hnil hinternal hok
        · cases hs
          exact h.setPhase hcall hold rfl
        · cases hs
          have hset : Counts (s.setPhase i call .finishing) := h.setPhase hcall hold rfl
          exact ⟨hset.counter, hset.blocked⟩
        · cases hs
          exact h.setPhase hcall hold rfl
        · cases hs
          exact h.setPhase hcall hold rfl
      · cases hs
  | leave i => exact h.leave hs
  | close =>
      cases hs
      exact ⟨h.counter, h.blocked⟩
  | destroy => exact h.destroy hs
  | wakeDestructor =>
      change (if _ then _ else _) = some s' at hs
      split_ifs at hs
      cases hs
      exact ⟨h.counter, nofun⟩

/-- The counter is that of the calls in progress, and a destructor gets past its wait when there
are none. -/
structure Balanced (s : State P) : Prop where
  counter : s.numSending = s.inProgress
  idle : s.inProgress = 0 → s.numSending = 0
  released : s.inProgress = 0 → s.destructor ≠ .blocked ∧ (s.destructor = .testing →
    ∃ s', destroy s = some s' ∧ s'.destructor = .passed)

/-- The counter is balanced if and only if no call has left before its end. -/
theorem Counts.balanced_iff (h : Counts s) : Balanced s ↔ s.left = 0 := by
  have hcounter := h.counter
  constructor
  · intro hbalanced
    have := hbalanced.counter
    omega
  · intro hleft
    rw [hleft, Nat.cast_zero, add_zero] at hcounter
    have hidle : s.inProgress = 0 → s.numSending = 0 := by
      intro hnone
      rw [hcounter, hnone]
      rfl
    refine ⟨hcounter, hidle, fun hnone => ⟨fun hblocked => ?_, fun htesting => ?_⟩⟩
    · exact h.blocked hblocked (hidle hnone)
    · refine ⟨{ close s with destructor := .passed }, ?_, rfl⟩
      unfold StreamSends.destroy
      rw [htesting]
      exact if_neg fun hne => hne (hidle hnone)

theorem balanced_iff_of_reaches (h : Reaches (StreamSends.step (P := P)) Any State.initial s) :
    Balanced s ↔ s.left = 0 :=
  (h.keeps (I := Counts) ⟨rfl, nofun⟩ fun hI _ hs => hI.step hs).balanced_iff

/-- The stream is open where a call looks, and the filters and the network do not fail. -/
def Smooth (s : State P) : Action P → Prop
  | .isClosed _ => s.wasClosed = false
  | .pushPacket _ result => result ≠ none
  | .sendPackets _ ok => ok = true
  | .sendReverse _ ok => ok = true
  | _ => True

/-- A call that goes on does not leave. -/
lemma setPhase_left (hcall : s.calls[i]? = some call) (hold : call.phase.inProgress)
    {phase : Phase P} (hnext : phase.hasLeft = false) (hleft : s.left = 0) :
    (s.setPhase i call phase).left = 0 := by
  rw [(setPhase_counts hcall hold phase).2, hleft, hnext]
  rfl

lemma left_step {act : Action P} (hsmooth : Smooth s act) (hleft : s.left = 0)
    (hs : step s act = some s') : s'.left = 0 := by
  cases act with
  | enter packet strmId upstream internal =>
      cases hs
      have henter : (enter s packet strmId upstream internal).left = s.left :=
        List.countP_append
      exact henter.trans hleft
  | isClosed i =>
      obtain ⟨call, hcall, hs⟩ := stepCall_eq_some hs
      split at hs
      · rename_i hphase
        cases hs
        refine setPhase_left hcall (by rw [hphase]; rfl) ?_ hleft
        rw [show s.wasClosed = false from hsmooth]
        rfl
      · cases hs
  | pushPacket i result =>
      obtain ⟨call, hcall, hs⟩ := stepCall_eq_some hs
      split at hs
      · rename_i hphase
        cases hs
        refine setPhase_left hcall (by rw [hphase]; rfl) ?_ hleft
        split_ifs
        · rfl
        · cases result with
          | none => exact absurd rfl hsmooth
          | some result => rfl
      · cases hs
  | sendPackets i ok =>
      obtain ⟨call, hcall, hs⟩ := stepCall_eq_some hs
      split at hs
      · rename_i hphase
        cases hs
        refine setPhase_left hcall (by rw [hphase]; rfl) ?_ hleft
        rw [if_neg]
        · rfl
        · rintro ⟨-, hfail⟩
          rw [show ok = true from hsmooth] at hfail
          cases hfail
      · cases hs
  | sendReverse i ok =>
      obtain ⟨call, hcall, hs⟩ := stepCall_eq_some hs
      split at hs
      · rename_i hphase
        have hold : call.phase.inProgress := by rw [hphase]; rfl
        rw [show (if ok = true then Phase.finishing else .left (-1) : Phase P) = .finishing from
          if_pos hsmooth] at hs
        split_ifs at hs
        all_goals
          cases hs
          exact setPhase_left hcall hold rfl hleft
      · cases hs
  | leave i =>
      obtain ⟨call, hcall, hs⟩ := stepCall_eq_some hs
      split at hs
      · rename_i hphase
        have hset : (s.setPhase i call (.returned 0)).left = 0 :=
          setPhase_left hcall (by rw [hphase]; rfl) rfl hleft
        dsimp only at hs
        split_ifs at hs
        all_goals
          cases hs
          exact hset
      · cases hs
  | close =>
      cases hs
      exact hleft
  | destroy =>
      change destroy s = some s' at hs
      unfold destroy at hs
      split at hs
      · cases hs
        exact hleft
      · split_ifs at hs
        all_goals
          cases hs
          exact hleft
      · cases hs
  | wakeDestructor =>
      change (if _ then _ else _) = some s' at hs
      split_ifs at hs
      cases hs
      exact hleft

/-- Without calls that leave early, the counter is balanced. -/
theorem sends_balanced (h : Reaches (step (P := P)) Smooth State.initial s) : Balanced s := by
  have hboth := h.keeps (I := fun s => Counts s ∧ s.left = 0) ⟨⟨rfl, nofun⟩, rfl⟩
    fun hI hsmooth hs => ⟨hI.1.step hs, left_step hsmooth hI.2 hs⟩
  exact hboth.1.balanced_iff.mpr hboth.2

/-- A call goes through, with a destructor that waits for it. -/
theorem sends_balanced_one : ∃ s : State ℕ, s.destructor = .testing ∧ Balanced s := by
  let acts : List (Action ℕ) := [.enter 7 0 true false, .destroy, .destroy, .isClosed 0,
    .pushPacket 0 (some ([], [])), .sendPackets 0 true, .sendReverse 0 true, .leave 0]
  obtain ⟨s, hrun, hdestructor⟩ : ∃ s, runSchedule step State.initial acts = some s ∧
    s.destructor = .testing := ⟨_, rfl, rfl⟩
  have hsmooth : AllowedAll step Smooth State.initial acts :=
    ⟨trivial, trivial, trivial, rfl, nofun, rfl, rfl, trivial, trivial⟩
  exact ⟨s, hdestructor, sends_balanced (reaches_of_schedule hsmooth hrun)⟩

/-- A call on a closed stream leaves without giving the counter back. -/
theorem closed_stream_unbalanced : ¬∀ (P : Type) (s : State P),
    Reaches step Any State.initial s → Balanced s := by
  intro hall
  let acts : List (Action ℕ) := [.close, .enter 7 0 true false, .isClosed 0]
  obtain ⟨s, hrun, hsending, hnone⟩ : ∃ s, runSchedule step State.initial acts = some s ∧
    s.numSending = 1 ∧ s.inProgress = 0 := ⟨_, rfl, rfl, rfl⟩
  have hzero := (hall ℕ s (reaches_any hrun)).idle hnone
  rw [hsending] at hzero
  cases hzero

end MRNet.StreamSends
