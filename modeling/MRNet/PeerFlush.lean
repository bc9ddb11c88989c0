import Mathlib.Data.List.Infix
import MRNet.Interleavings

/-!
# Flushing a peer

Translation of `PeerNode::send`, `PeerNode::flush`, `waitfor_FlushCompletion`,
`signal_FlushComplete`, `mark_Failed` and `send_thread_main` of `PeerNode.C`, and of the queue of
`Message.C`, in threaded mode. A step is what a thread does while it holds a lock, or a write to
the socket. The flushes of the peer are numbered by `F`.
-/
namespace MRNet.PeerFlush
open Interleavings

/-- Where the send thread is. It tests the queue in `waitfor_MessagesToSend`. -/
inductive SendThread where
  | testing
  | blocked
  | ready
  | sending
  | writing
  | sent
  | failed
  | marked
  | exited
  deriving DecidableEq

/-- Where a call of `flush` is. -/
inductive Flush where
  | start
  | testing
  | blocked
  | finishing (retval : ℤ)
  | returned (retval : ℤ)
  deriving DecidableEq

structure State (P F : Type) where
  packets : List P
  available : Bool
  sendThread : SendThread
  /-- What `Message::send` has taken from the queue and not written. -/
  sendPackets : List P
  flushes : F → Flush
  /-- All packets that were added so far, and how many when a flush was called. -/
  added : List P
  before : F → ℕ
  /-- The packets that were written by a `Message::send` that succeeded. -/
  written : List P

inductive Action (P F : Type) where
  | send (packet : Option P)
  | sendThread
  | write (ok : Bool)
  | wakeSendThread
  | flush (f : F)
  | wakeFlush (f : F)
  | markFailed
  deriving DecidableEq

variable {P F : Type}

/-- `PROT_SHUTDOWN` and `PROT_SHUTDOWN_ACK` -/
def goesAway (tag : P → ℤ) (packet : P) : Bool := tag packet = 3 ∨ tag packet = 4

namespace State

def initial : State P F where
  packets := []
  available := true
  sendThread := .testing
  sendPackets := []
  flushes _ := .start
  added := []
  before _ := 0
  written := []

/-- `SignalCondition( MRN_QUEUE_NONEMPTY )` -/
def signalQueue (s : State P F) : State P F :=
  { s with sendThread := if s.sendThread = .blocked then .testing else s.sendThread }

/-- A null packet is not added. -/
def addPacket (s : State P F) : Option P → State P F
  | none => s.signalQueue
  | some packet =>
      { s with packets := s.packets ++ [packet], added := s.added ++ [packet] }.signalQueue

def signalFlushComplete (s : State P F) : State P F :=
  { s with flushes := fun f => if s.flushes f = .blocked then .testing else s.flushes f }

variable [DecidableEq F]

def setFlush (s : State P F) (f : F) (next : Flush) : State P F :=
  { s with flushes := Function.update s.flushes f next }

end State

def stepSendThread (s : State P F) : Option (State P F) :=
  match s.sendThread with
  | .testing => some { s with sendThread := if s.packets = [] then .blocked else .ready }
  | .ready => some { s with sendThread := if s.available then .sending else .exited }
  | .sending =>
      if s.packets = [] then some { s with sendThread := .sent }
      else some { s with sendThread := .writing, sendPackets := s.packets, packets := [] }
  | .sent => some { s.signalFlushComplete with sendThread := .testing }
  | .failed => some { s with sendThread := .marked, available := false }
  | .marked => some { s.signalFlushComplete with sendThread := .exited }
  | _ => none

/-- The end of `Message::send`. After a packet that goes away the thread exits, whatever the
outcome of the write. -/
def write (tag : P → ℤ) (s : State P F) (ok : Bool) : Option (State P F) :=
  if s.sendThread ≠ .writing then none
  else
    let goAway := s.sendPackets.any (goesAway tag)
    if ok then some { s with
      sendThread := if goAway then .exited else .sent
      written := s.written ++ s.sendPackets
      sendPackets := [] }
    else some { s with sendThread := if goAway then .exited else .failed }

variable [DecidableEq F]

def stepFlush (s : State P F) (f : F) : Option (State P F) :=
  match s.flushes f with
  | .start => some { s.setFlush f .testing with
      before := Function.update s.before f s.added.length }
  | .testing => some (s.setFlush f
      (if s.packets ≠ [] ∧ s.available then .blocked else .finishing (if s.available then 0 else -1)))
  | .finishing retval => some (s.setFlush f (.returned retval))
  | _ => none

/-- The waits may end without a signal, and other threads may mark the peer failed. -/
def step (tag : P → ℤ) (s : State P F) : Action P F → Option (State P F)
  | .send packet => some (s.addPacket packet)
  | .sendThread => stepSendThread s
  | .write ok => write tag s ok
  | .wakeSendThread => if s.sendThread = .blocked then some { s with sendThread := .testing } else none
  | .flush f => stepFlush s f
  | .wakeFlush f => if s.flushes f = .blocked then some (s.setFlush f .testing) else none
  | .markFailed => some { s with available := false }

/-- When a flush finds the queue empty, the send thread has no packets in hand but those that
were added since the flush was called. -/
def Settled (s : State P F) : Action P F → Prop
  | .flush f => s.flushes f = .testing → s.packets = [] → s.available →
      s.sendPackets.length ≤ s.added.length - s.before f
  | _ => True

/-- Packets are written in the order in which they were added. -/
structure Inv (s : State P F) : Prop where
  added : s.added = s.written ++ s.sendPackets ++ s.packets
  hand : s.sendThread = .testing ∨ s.sendThread = .blocked ∨ s.sendThread = .ready ∨
    s.sendThread = .sending ∨ s.sendThread = .sent → s.sendPackets = []
  before : ∀ f, s.before f ≤ s.added.length
  success : ∀ f, s.flushes f = .finishing 0 ∨ s.flushes f = .returned 0 →
    s.before f ≤ s.written.length

variable {tag : P → ℤ} {s s' : State P F} {f : F}

omit [DecidableEq F] in
/-- What was added before a flush is written if and only if it is not in the hand of the send
thread. -/
theorem Inv.settled_iff (h : Inv s) (hflush : s.flushes f = .testing) (hnil : s.packets = [])
    (havailable : s.available) :
    Settled s (.flush f) ↔ s.before f ≤ s.written.length := by
  have hlength := congrArg List.length h.added
  have hbefore := h.before f
  rw [hnil, List.append_nil, List.length_append] at hlength
  constructor
  · intro hsettled
    have := hsettled hflush hnil havailable
    omega
  · intro hle _ _ _
    omega

omit [DecidableEq F] in
lemma inv_initial : Inv (State.initial : State P F) :=
  ⟨rfl, fun _ => rfl, fun _ => le_rfl, fun _ hsuccess => by cases hsuccess <;> contradiction⟩

omit [DecidableEq F] in
/-- Only the send thread moves on, and it has the same packets in hand. -/
lemma Inv.setSendThread (h : Inv s) {next : SendThread} (hhand : s.sendPackets = [] ∨
    next = .failed ∨ next = .marked ∨ next = .exited) : Inv { s with sendThread := next } := by
  refine ⟨h.added, fun hnext => ?_, h.before, h.success⟩
  rcases hhand with hnil | rfl | rfl | rfl
  · exact hnil
  all_goals simp at hnext

omit [DecidableEq F] in
/-- Flushes are woken. -/
lemma Inv.wakeAll (h : Inv s) : Inv s.signalFlushComplete := by
  refine ⟨h.added, h.hand, h.before, fun f hsuccess => h.success f ?_⟩
  change (if s.flushes f = .blocked then Flush.testing else s.flushes f) = _ ∨
    (if s.flushes f = .blocked then Flush.testing else s.flushes f) = _ at hsuccess
  split_ifs at hsuccess with hblocked
  · cases hsuccess <;> contradiction
  · exact hsuccess

omit [DecidableEq F] in
lemma Inv.signalQueue (h : Inv s) : Inv s.signalQueue := by
  unfold State.signalQueue
  split_ifs with hblocked
  · exact h.setSendThread (.inl (h.hand (.inr (.inl hblocked))))
  · exact h

omit [DecidableEq F] in
lemma Inv.send (h : Inv s) (packet : Option P) : Inv (s.addPacket packet) := by
  cases packet with
  | none => exact h.signalQueue
  | some packet =>
      refine Inv.signalQueue ⟨?_, h.hand, fun f => ?_, h.success⟩
      · change s.added ++ [packet] = s.written ++ s.sendPackets ++ (s.packets ++ [packet])
        rw [h.added, List.append_assoc (s.written ++ s.sendPackets)]
      · change s.before f ≤ (s.added ++ [packet]).length
        rw [List.length_append]
        exact Nat.le_add_right_of_le (h.before f)

omit [DecidableEq F] in
lemma Inv.stepSendThread (h : Inv s) (hs : stepSendThread s = some s') : Inv s' := by
  unfold PeerFlush.stepSendThread at hs
  split at hs
  · rename_i hthread
    cases hs
    exact h.setSendThread (.inl (h.hand (.inl hthread)))
  · rename_i hthread
    cases hs
    exact h.setSendThread (.inl (h.hand (.inr (.inr (.inl hthread)))))
  · rename_i hthread
    have hnil := h.hand (.inr (.inr (.inr (.inl hthread))))
    split_ifs at hs with hempty
    · cases hs
      exact h.setSendThread (.inl hnil)
    · cases hs
      refine ⟨?_, fun hthread => by simp at hthread, h.before, h.success⟩
      have hadded := h.added
      rw [hnil, List.append_nil] at hadded
      rw [hadded, List.append_nil]
  · rename_i hthread
    cases hs
    exact h.wakeAll.setSendThread (.inl (h.hand (.inr (.inr (.inr (.inr hthread))))))
  · cases hs
    have hset : Inv { s with sendThread := .marked } := h.setSendThread (.inr (.inr (.inl rfl)))
    exact ⟨hset.added, hset.hand, hset.before, hset.success⟩
  · cases hs
    exact h.wakeAll.setSendThread (.inr (.inr (.inr rfl)))
  · cases hs

omit [DecidableEq F] in
lemma Inv.write (h : Inv s) {ok : Bool} (hs : write tag s ok = some s') : Inv s' := by
  unfold PeerFlush.write at hs
  split at hs
  · cases hs
  · split at hs
    · cases hs
      refine ⟨?_, fun _ => rfl, h.before, fun f hsuccess => ?_⟩
      · rw [List.append_nil]
        exact h.added
      · change s.before f ≤ (s.written ++ s.sendPackets).length
        rw [List.length_append]
        exact Nat.le_add_right_of_le (h.success f hsuccess)
    · cases hs
      refine h.setSendThread (.inr ?_)
      split_ifs
      · exact .inr (.inr rfl)
      · exact .inl rfl

/-- A flush moves on. -/
lemma Inv.setFlush (h : Inv s) {next : Flush}
    (hnext : next = .finishing 0 ∨ next = .returned 0 → s.before f ≤ s.written.length) :
    Inv (s.setFlush f next) := by
  refine ⟨h.added, h.hand, h.before, fun f' hsuccess => ?_⟩
  change Function.update s.flushes f next f' = _ ∨ Function.update s.flushes f next f' = _
    at hsuccess
  by_cases hf : f' = f
  · subst hf
    rw [Function.update_self] at hsuccess
    exact hnext hsuccess
  · rw [Function.update_of_ne hf] at hsuccess
    exact h.success f' hsuccess

lemma Inv.stepFlush (h : Inv s) (hsettled : Settled s (.flush f))
    (hs : stepFlush s f = some s') : Inv s' := by
  unfold PeerFlush.stepFlush at hs
  split at hs
  · cases hs
    have hset : Inv (s.setFlush f .testing) :=
      h.setFlush fun hnext => by cases hnext <;> contradiction
    refine ⟨h.added, h.hand, fun f' => ?_, fun f' hsuccess => ?_⟩
    · change Function.update s.before f _ f' ≤ _
      by_cases hf : f' = f
      · rw [hf, Function.update_self]
        exact le_rfl
      · rw [Function.update_of_ne hf]
        exact h.before f'
    · have hf : f' ≠ f := by
        rintro rfl
        change Function.update s.flushes f' _ f' = _ ∨ Function.update s.flushes f' _ f' = _
          at hsuccess
        rw [Function.update_self] at hsuccess
        cases hsuccess <;> contradiction
      change Function.update s.before f _ f' ≤ _
      rw [Function.update_of_ne hf]
      exact hset.success f' hsuccess
  · rename_i hflush
    cases hs
    refine h.setFlush fun hnext => ?_
    split_ifs at hnext with hwait havailable
    · cases hnext <;> contradiction
    · have hnil : s.packets = [] := by
        by_contra hne
        exact hwait ⟨hne, havailable⟩
      exact (h.settled_iff hflush hnil havailable).mp hsettled
    · cases hnext <;> contradiction
  · rename_i retval hflush
    cases hs
    refine h.setFlush fun hnext => h.success f (.inl ?_)
    rcases hnext with hnext | hnext
    · cases hnext
    · cases hnext
      exact hflush
  · cases hs

theorem Inv.step {act : Action P F} (h : Inv s) (hsettled : Settled s act)
    (hs : step tag s act = some s') : Inv s' := by
  unfold PeerFlush.step at hs
  cases act with
  | send packet =>
      cases hs
      exact h.send packet
  | sendThread => exact h.stepSendThread hs
  | write ok => exact h.write hs
  | wakeSendThread =>
      dsimp only at hs
      split_ifs at hs with hblocked
      cases hs
      exact h.setSendThread (.inl (h.hand (.inr (.inl hblocked))))
  | flush f => exact h.stepFlush hsettled hs
  | wakeFlush f =>
      dsimp only at hs
      split_ifs at hs
      cases hs
      exact h.setFlush fun hnext => by cases hnext <;> contradiction
  | markFailed =>
      cases hs
      exact ⟨h.added, h.hand, h.before, h.success⟩

/-- What was added before a flush that returns 0 was called is written, if no flush finds the
queue empty while the send thread has earlier packets in hand. -/
theorem flush_written (h : Reaches (PeerFlush.step tag) Settled (State.initial : State P F) s)
    (hflush : s.flushes f = .returned 0) : s.added.take (s.before f) <+: s.written := by
  have hinv : Inv s := h.keeps inv_initial fun hI hsettled hs => hI.step hsettled hs
  have hle := hinv.success f (.inr hflush)
  rw [hinv.added, List.append_assoc, List.take_append_of_le_length hle]
  exact List.take_prefix _ _

/-- One packet is added and written, and then the peer is flushed. -/
theorem flush_written_one : ∃ s : State ℤ Unit,
    s.added = [100] ∧ s.before () = 1 ∧ s.added.take (s.before ()) <+: s.written := by
  let acts : List (Action ℤ Unit) := [.send (some 100), .sendThread, .sendThread, .sendThread,
    .write true, .flush (), .flush (), .flush ()]
  obtain ⟨s, hrun, hadded, hbefore, hflush⟩ : ∃ s : State ℤ Unit,
    runSchedule (step id) State.initial acts = some s ∧ s.added = [100] ∧ s.before () = 1 ∧
      s.flushes () = .returned 0 := ⟨_, rfl, rfl, rfl, rfl⟩
  have hsettled : AllowedAll (step id) Settled (State.initial : State ℤ Unit) acts := by
    refine ⟨trivial, trivial, trivial, trivial, trivial, nofun, fun _ _ _ => ?_, nofun, trivial⟩
    exact Nat.zero_le _
  exact ⟨s, hadded, hbefore, flush_written (reaches_of_schedule hsettled hrun) hflush⟩

/-- The send thread takes the packet, the flush finds the queue empty, and the write fails. -/
theorem flush_not_written : ¬∀ (P F : Type) [DecidableEq F] (tag : P → ℤ) (s : State P F),
    Reaches (step tag) Any State.initial s → ∀ f, s.flushes f = .returned 0 →
      s.added.take (s.before f) <+: s.written := by
  intro hall
  let acts : List (Action ℤ Unit) := [.send (some 100), .flush (), .sendThread, .sendThread,
    .sendThread, .flush (), .flush (), .write false]
  obtain ⟨s, hrun, hbefore, hadded, hwritten, hflush⟩ : ∃ s : State ℤ Unit,
    runSchedule (step id) State.initial acts = some s ∧ s.before () = 1 ∧ s.added = [100] ∧
      s.written = [] ∧ s.flushes () = .returned 0 := ⟨_, rfl, rfl, rfl, rfl, rfl⟩
  have hprefix := hall ℤ Unit id s (reaches_any hrun) () hflush
  rw [hbefore, hadded, hwritten] at hprefix
  exact List.cons_ne_nil _ _ (List.prefix_nil.mp hprefix)

end MRNet.PeerFlush
