import Mathlib.Data.Fintype.Card
import Mathlib.Data.Fintype.EquivFin
import MRNet.Interleavings
import Std.Data.TreeMap.Lemmas

/-!
# Control protocols

Translation of `waitfor_ControlProtocolAcks`, `proc_ControlProtocolAck`,
`abort_ControlProtocol` and `abort_ActiveControlProtocols` of `ParentNode.C`. A step is what a
thread does while it holds a lock. The calls of the first are numbered by `W`, those of the
second by `A`.
-/
namespace MRNet.ControlProtocols
open Std Interleavings

/-- The monitor is a local variable of the call that made the entry. -/
structure ControlProtocol (W : Type) where
  sync : W
  numAcked : ℕ
  aborted : Bool

/-- Where a call of `waitfor_ControlProtocolAcks` is. A call that expects nothing is skipped, one
that finds its tag in use is refused. -/
inductive WaitState where
  | start
  | registered
  | waiting
  | woken
  | finishing (retVal : Bool)
  | returned (retVal : Bool)
  | refused
  | skipped
  deriving DecidableEq

/-- The monitor of a call exists. -/
def WaitState.alive : WaitState → Bool
  | registered | waiting | woken | finishing _ => true
  | _ => false

/-- Where a call of `proc_ControlProtocolAck` is, with the entry that it found. -/
inductive AckState (W : Type) where
  | start
  | found (sync : W)
  | checked (sync : W)
  | done
  deriving DecidableEq

/-- Where `abort_ActiveControlProtocols` is, with the entries that are left. It holds
`cps_sync` unless it is idle. -/
inductive AbortState where
  | idle
  | scanning (rest : List ℤ)
  | checked (tag : ℤ) (rest : List ℤ)
  deriving DecidableEq

/-- The arguments of the calls. -/
structure Calls (W A : Type) where
  ackTag : W → ℤ
  numAcksExpected : W → ℕ
  tag : A → ℤ
  abort : A → Bool

structure State (W A : Type) where
  activeCtlProtocols : TreeMap ℤ (ControlProtocol W)
  numFailedChildren : ℕ
  waits : W → WaitState
  acks : A → AckState W
  aborting : AbortState
  /-- A monitor or an entry was used that is gone. -/
  fault : Bool

inductive Action (W A : Type) where
  | waitRegister (w : W)
  | waitCheck (w : W)
  | waitWake (w : W)
  | waitFinish (w : W)
  | ackLookup (a : A)
  | ackIncrement (a : A)
  | ackCheck (a : A)
  | ackAbort (a : A)
  | childFails
  | abortAll
  | abortCheck
  | abortSet
  | abortEnd

variable {W A : Type}

section Steps

variable [DecidableEq W] [DecidableEq A]

namespace State

def initial (numFailedChildren : ℕ) : State W A where
  activeCtlProtocols := ∅
  numFailedChildren := numFailedChildren
  waits _ := .start
  acks _ := .start
  aborting := .idle
  fault := false

/-- `active_ctl_protocols.find( tag )` -/
def find (s : State W A) (tag : ℤ) : Option (ControlProtocol W) := s.activeCtlProtocols[tag]?

/-- What an iterator refers to that was found for a tag. -/
def deref (s : State W A) (tag : ℤ) (sync : W) : Option (ControlProtocol W) :=
  match s.find tag with
  | some cp => if cp.sync = sync then some cp else none
  | none => none

def setWait (s : State W A) (w : W) (next : WaitState) : State W A :=
  { s with waits := Function.update s.waits w next }

def setAck (s : State W A) (a : A) (next : AckState W) : State W A :=
  { s with acks := Function.update s.acks a next }

/-- `SignalCondition( NODE_REPORTED )` -/
def signalCondition (s : State W A) (w : W) : State W A :=
  if s.waits w = .waiting then s.setWait w .woken else s

/-- An entry is changed and its monitor is signalled. -/
def report (s : State W A) (tag : ℤ) (cp : ControlProtocol W) : State W A :=
  { s with activeCtlProtocols := s.activeCtlProtocols.insert tag cp }.signalCondition cp.sync

end State

variable (c : Calls W A)

def waitRegister (s : State W A) (w : W) : Option (State W A) :=
  if s.waits w ≠ .start then none
  else if c.numAcksExpected w = 0 then some (s.setWait w .skipped)
  else if s.aborting ≠ .idle then none
  else
    match s.find (c.ackTag w) with
    | none => some { s.setWait w .registered with
        activeCtlProtocols := s.activeCtlProtocols.insert (c.ackTag w) ⟨w, 0, false⟩ }
    | some _ => some (s.setWait w .refused)

/-- The test of the loop, which is made with the monitor locked. -/
def waitCheck (s : State W A) (w : W) : Option (State W A) :=
  if s.waits w = .registered ∨ s.waits w = .woken then
    match s.deref (c.ackTag w) w with
    | none => some { s with fault := true }
    | some cp =>
        if c.numAcksExpected w ≤ cp.numAcked then some (s.setWait w (.finishing true))
        else if 0 < s.numFailedChildren ∨ cp.aborted then some (s.setWait w (.finishing false))
        else some (s.setWait w .waiting)
  else none

/-- `WaitOnCondition` may return without a signal. -/
def waitWake (s : State W A) (w : W) : Option (State W A) :=
  if s.waits w = .waiting then some (s.setWait w .woken) else none

def waitFinish (s : State W A) (w : W) : Option (State W A) :=
  match s.waits w with
  | .finishing retVal =>
      if s.aborting ≠ .idle then none
      else if retVal then some { s.setWait w (.returned true) with
        activeCtlProtocols := s.activeCtlProtocols.erase (c.ackTag w) }
      else some (s.setWait w (.returned false))
  | _ => none

/-- Without an entry, a success is looked up again and a failure is dropped. -/
def ackLookup (s : State W A) (a : A) : Option (State W A) :=
  if s.acks a ≠ .start ∨ s.aborting ≠ .idle then none
  else
    match s.find (c.tag a) with
    | some cp => some (s.setAck a (.found cp.sync))
    | none => if c.abort a then some (s.setAck a .done) else some s

def ackIncrement (s : State W A) (a : A) : Option (State W A) :=
  match s.acks a with
  | .found sync =>
      if c.abort a then none
      else if (s.waits sync).alive then
        match s.deref (c.tag a) sync with
        | some cp => some ((s.report (c.tag a) { cp with numAcked := cp.numAcked + 1 }).setAck a .done)
        | none => some { s with fault := true }
      else some { s with fault := true }
  | _ => none

/-- The first test of `abort_ControlProtocol`, which is made without a lock. -/
def ackCheck (s : State W A) (a : A) : Option (State W A) :=
  match s.acks a with
  | .found sync =>
      if c.abort a then
        match s.deref (c.tag a) sync with
        | some cp => some (s.setAck a (if cp.aborted then .done else .checked sync))
        | none => some { s with fault := true }
      else none
  | _ => none

def ackAbort (s : State W A) (a : A) : Option (State W A) :=
  match s.acks a with
  | .checked sync =>
      if (s.waits sync).alive then
        match s.deref (c.tag a) sync with
        | some cp => some ((s.report (c.tag a) { cp with aborted := true }).setAck a .done)
        | none => some { s with fault := true }
      else some { s with fault := true }
  | _ => none

def abortAll (s : State W A) : Option (State W A) :=
  if s.aborting ≠ .idle then none
  else if s.activeCtlProtocols.isEmpty then some s
  else some { s with aborting := .scanning s.activeCtlProtocols.keys }

def abortCheck (s : State W A) : Option (State W A) :=
  match s.aborting with
  | .scanning (tag :: rest) =>
      match s.find tag with
      | some cp => some { s with
          aborting := if cp.aborted then .scanning rest else .checked tag rest }
      | none => some { s with fault := true }
  | _ => none

def abortSet (s : State W A) : Option (State W A) :=
  match s.aborting with
  | .checked tag rest =>
      match s.find tag with
      | some cp =>
          if (s.waits cp.sync).alive then
            some { s.report tag { cp with aborted := true } with aborting := .scanning rest }
          else some { s with fault := true }
      | none => some { s with fault := true }
  | _ => none

def abortEnd (s : State W A) : Option (State W A) :=
  if s.aborting = .scanning [] then some { s with aborting := .idle } else none

/-- Nothing is said of what happens after a fault. -/
def step (s : State W A) (act : Action W A) : Option (State W A) :=
  if s.fault then none
  else
    match act with
    | .waitRegister w => waitRegister c s w
    | .waitCheck w => waitCheck c s w
    | .waitWake w => waitWake s w
    | .waitFinish w => waitFinish c s w
    | .ackLookup a => ackLookup c s a
    | .ackIncrement a => ackIncrement c s a
    | .ackCheck a => ackCheck c s a
    | .ackAbort a => ackAbort c s a
    | .childFails => some { s with numFailedChildren := s.numFailedChildren + 1 }
    | .abortAll => abortAll s
    | .abortCheck => abortCheck s
    | .abortSet => abortSet s
    | .abortEnd => abortEnd s

end Steps

section Calm

variable [DecidableEq W] {s s' : State W A}

/-- No entry is new, and a call moves on only by waking up. -/
structure Calm (s s' : State W A) : Prop where
  entries : ∀ {t : ℤ} {cp' : ControlProtocol W}, s'.find t = some cp' →
    ∃ cp : ControlProtocol W, s.find t = some cp ∧ cp'.sync = cp.sync
  waits : ∀ w, s'.waits w = s.waits w ∨ (s.waits w = .waiting ∧ s'.waits w = .woken)

omit [DecidableEq W] in
lemma Calm.of_eq (hactive : s'.activeCtlProtocols = s.activeCtlProtocols)
    (hwaits : s'.waits = s.waits) : Calm s s' := by
  refine ⟨fun {t cp'} h => ⟨cp', ?_, rfl⟩, fun w => .inl (congrFun hwaits w)⟩
  rw [State.find, ← hactive]
  exact h

lemma signalCondition_active (s : State W A) (w : W) :
    (s.signalCondition w).activeCtlProtocols = s.activeCtlProtocols := by
  unfold State.signalCondition
  split_ifs <;> rfl

lemma signalCondition_acks (s : State W A) (w : W) : (s.signalCondition w).acks = s.acks := by
  unfold State.signalCondition
  split_ifs <;> rfl

lemma signalCondition_waits (s : State W A) (w w' : W) :
    (s.signalCondition w).waits w' = s.waits w' ∨
      (s.waits w' = .waiting ∧ (s.signalCondition w).waits w' = .woken) := by
  unfold State.signalCondition
  split_ifs with hw
  · by_cases hww : w' = w
    · subst hww
      exact .inr ⟨hw, Function.update_self ..⟩
    · exact .inl (Function.update_of_ne hww ..)
  · exact .inl rfl

lemma calm_report {tag : ℤ} {cp cp' : ControlProtocol W}
    (h : s.find tag = some cp) (hsync : cp'.sync = cp.sync) :
    Calm s (s.report tag cp') := by
  refine ⟨fun {t cp''} ht => ?_, fun w => signalCondition_waits _ _ w⟩
  rw [State.find, State.report, signalCondition_active, TreeMap.getElem?_insert] at ht
  split_ifs at ht with hcmp
  · cases ht
    obtain rfl : tag = t := LawfulEqCmp.eq_of_compare hcmp
    exact ⟨cp, h, hsync⟩
  · exact ⟨cp'', ht, rfl⟩

lemma deref_eq_some {tag : ℤ} {w : W} {cp : ControlProtocol W} (h : s.deref tag w = some cp) :
    s.find tag = some cp ∧ cp.sync = w := by
  unfold State.deref at h
  split at h
  · split_ifs at h with hsync
    cases h
    exact ⟨‹_›, hsync⟩
  · cases h

lemma waitWake_cases {w : W} (h : waitWake s w = some s') :
    s.waits w = .waiting ∧ s' = s.setWait w .woken := by
  unfold waitWake at h
  split_ifs at h with hw
  cases h
  exact ⟨hw, rfl⟩

omit [DecidableEq W] in
lemma abortAll_cases (h : abortAll s = some s') : ∃ next, s' = { s with aborting := next } := by
  unfold abortAll at h
  split_ifs at h
  · cases h
    exact ⟨s.aborting, rfl⟩
  · cases h
    exact ⟨_, rfl⟩

omit [DecidableEq W] in
lemma abortCheck_cases (h : abortCheck s = some s') :
    s' = { s with fault := true } ∨ ∃ next, s' = { s with aborting := next } := by
  unfold abortCheck at h
  split at h
  · split at h
    · cases h
      exact .inr ⟨_, rfl⟩
    · cases h
      exact .inl rfl
  · cases h

lemma abortSet_cases (h : abortSet s = some s') :
    s' = { s with fault := true } ∨ ∃ tag cp next, s.find tag = some cp ∧
      s' = { s.report tag { cp with aborted := true } with aborting := next } := by
  unfold abortSet at h
  split at h
  · split at h
    · split_ifs at h
      · cases h
        exact .inr ⟨_, _, _, ‹_›, rfl⟩
      · cases h
        exact .inl rfl
    · cases h
      exact .inl rfl
  · cases h

omit [DecidableEq W] in
lemma abortEnd_cases (h : abortEnd s = some s') : s' = { s with aborting := .idle } := by
  unfold abortEnd at h
  split_ifs at h
  cases h
  rfl

variable [DecidableEq A] {c : Calls W A} {a : A}

/-- A failure without an entry is not heard of. -/
lemma ackLookup_cases (h : ackLookup c s a = some s') : s.acks a = .start ∧
    ((∃ cp, s.find (c.tag a) = some cp ∧ s' = s.setAck a (.found cp.sync)) ∨
      (s.find (c.tag a) = none ∧ c.abort a ∧ s' = s.setAck a .done) ∨
      (s.find (c.tag a) = none ∧ s' = s)) := by
  unfold ackLookup at h
  split at h
  · cases h
  · rename_i hstart
    rw [not_or, not_not, not_not] at hstart
    refine ⟨hstart.1, ?_⟩
    split at h
    · cases h
      exact .inl ⟨_, ‹_›, rfl⟩
    · split_ifs at h with habort
      · cases h
        exact .inr (.inl ⟨‹_›, habort, rfl⟩)
      · cases h
        exact .inr (.inr ⟨‹_›, rfl⟩)

lemma ackIncrement_cases (h : ackIncrement c s a = some s') :
    s' = { s with fault := true } ∨ ∃ sync cp, s.acks a = .found sync ∧ c.abort a = false ∧
      (s.waits sync).alive ∧ s.deref (c.tag a) sync = some cp ∧
      s' = (s.report (c.tag a) { cp with numAcked := cp.numAcked + 1 }).setAck a .done := by
  unfold ackIncrement at h
  split at h
  · split_ifs at h with habort halive
    · split at h
      · cases h
        exact .inr ⟨_, _, ‹_›, Bool.not_eq_true _ ▸ habort, halive, ‹_›, rfl⟩
      · cases h
        exact .inl rfl
    · cases h
      exact .inl rfl
  · cases h

lemma ackCheck_cases (h : ackCheck c s a = some s') :
    s' = { s with fault := true } ∨ ∃ sync cp, s.acks a = .found sync ∧ c.abort a ∧
      s.deref (c.tag a) sync = some cp ∧
      s' = s.setAck a (if cp.aborted then .done else .checked sync) := by
  unfold ackCheck at h
  split at h
  · split_ifs at h with habort
    · split at h
      · cases h
        exact .inr ⟨_, _, ‹_›, habort, ‹_›, rfl⟩
      · cases h
        exact .inl rfl
  · cases h

lemma ackAbort_cases (h : ackAbort c s a = some s') :
    s' = { s with fault := true } ∨ ∃ sync cp, s.acks a = .checked sync ∧
      (s.waits sync).alive ∧ s.deref (c.tag a) sync = some cp ∧
      s' = (s.report (c.tag a) { cp with aborted := true }).setAck a .done := by
  unfold ackAbort at h
  split at h
  · split_ifs at h with halive
    · split at h
      · cases h
        exact .inr ⟨_, _, ‹_›, halive, ‹_›, rfl⟩
      · cases h
        exact .inl rfl
    · cases h
      exact .inl rfl
  · cases h

/-- Only the steps of a waiting call are not calm. -/
inductive Owner : Action W A → W → Prop
  | waitRegister (w : W) : Owner (.waitRegister w) w
  | waitCheck (w : W) : Owner (.waitCheck w) w
  | waitFinish (w : W) : Owner (.waitFinish w) w

theorem calm_of_step {act : Action W A} (hact : ∀ w, ¬Owner act w) (h : step c s act = some s') :
    Calm s s' := by
  unfold step at h
  split_ifs at h
  cases act with
  | waitRegister w => exact absurd (Owner.waitRegister w) (hact w)
  | waitCheck w => exact absurd (Owner.waitCheck w) (hact w)
  | waitFinish w => exact absurd (Owner.waitFinish w) (hact w)
  | waitWake w =>
      obtain ⟨hw, rfl⟩ := waitWake_cases h
      refine ⟨fun {t cp'} ht => ⟨cp', ht, rfl⟩, fun w' => ?_⟩
      by_cases hww : w' = w
      · subst hww
        exact .inr ⟨hw, Function.update_self ..⟩
      · exact .inl (Function.update_of_ne hww ..)
  | ackLookup a =>
      obtain ⟨-, ⟨cp, -, rfl⟩ | ⟨-, -, rfl⟩ | ⟨-, rfl⟩⟩ := ackLookup_cases h <;> exact .of_eq rfl rfl
  | ackIncrement a =>
      obtain rfl | ⟨sync, cp, -, -, -, hderef, rfl⟩ := ackIncrement_cases h
      · exact .of_eq rfl rfl
      · have hcalm : Calm s (s.report (c.tag a) { cp with numAcked := cp.numAcked + 1 }) :=
          calm_report (deref_eq_some hderef).1 rfl
        exact ⟨hcalm.entries, hcalm.waits⟩
  | ackCheck a =>
      obtain rfl | ⟨sync, cp, -, -, -, rfl⟩ := ackCheck_cases h <;> exact .of_eq rfl rfl
  | ackAbort a =>
      obtain rfl | ⟨sync, cp, -, -, hderef, rfl⟩ := ackAbort_cases h
      · exact .of_eq rfl rfl
      · have hcalm : Calm s (s.report (c.tag a) { cp with aborted := true }) :=
          calm_report (deref_eq_some hderef).1 rfl
        exact ⟨hcalm.entries, hcalm.waits⟩
  | childFails =>
      cases h
      exact .of_eq rfl rfl
  | abortAll =>
      obtain ⟨next, rfl⟩ := abortAll_cases h
      exact .of_eq rfl rfl
  | abortCheck =>
      obtain rfl | ⟨next, rfl⟩ := abortCheck_cases h <;> exact .of_eq rfl rfl
  | abortSet =>
      obtain rfl | ⟨tag, cp, next, hfind, rfl⟩ := abortSet_cases h
      · exact .of_eq rfl rfl
      · have hcalm : Calm s (s.report tag { cp with aborted := true }) := calm_report hfind rfl
        exact ⟨hcalm.entries, hcalm.waits⟩
  | abortEnd =>
      obtain rfl := abortEnd_cases h
      exact .of_eq rfl rfl

end Calm

section Trace

variable [DecidableEq W] [DecidableEq A] (c : Calls W A)

/-- When a call looks for its acknowledgements, they have all come, or no child has failed and
the protocol was not aborted. -/
def Orderly (s : State W A) : Action W A → Prop
  | .waitCheck w => ∀ cp, s.find (c.ackTag w) = some cp →
      c.numAcksExpected w ≤ cp.numAcked ∨ s.numFailedChildren = 0 ∧ cp.aborted = false
  | _ => True

/-- Every entry belongs to a call that has not returned, and the calls that are about to return
were acknowledged. -/
structure Owned (s : State W A) : Prop where
  tag : ∀ t cp, s.find t = some cp → c.ackTag cp.sync = t
  alive : ∀ t cp, s.find t = some cp → (s.waits cp.sync).alive
  finishing : ∀ w, s.waits w ≠ .finishing false

variable {c} {s s' : State W A}

omit [DecidableEq W] [DecidableEq A] in
lemma Owned.calm (h : Owned c s) (hcalm : Calm s s') : Owned c s' := by
  refine ⟨fun t cp' ht => ?_, fun t cp' ht => ?_, fun w hw => ?_⟩
  · obtain ⟨cp, hcp, hsync⟩ := hcalm.entries ht
    rw [hsync]
    exact h.tag t cp hcp
  · obtain ⟨cp, hcp, hsync⟩ := hcalm.entries ht
    have halive := h.alive t cp hcp
    rw [hsync]
    rcases hcalm.waits cp.sync with heq | ⟨-, hwoken⟩
    · rw [heq]
      exact halive
    · rw [hwoken]
      rfl
  · rcases hcalm.waits w with heq | ⟨-, hwoken⟩
    · exact h.finishing w (heq.symm.trans hw)
    · rw [hw] at hwoken
      cases hwoken

omit [DecidableEq A] in
/-- A call moves on, and entries of other calls are kept. -/
lemma Owned.setWait (h : Owned c s) {w : W} {next : WaitState} (hnext : next ≠ .finishing false)
    (halive : next.alive ∨ ∀ t cp, s.find t = some cp → cp.sync ≠ w) :
    Owned c (s.setWait w next) := by
  refine ⟨h.tag, fun t cp ht => ?_, fun w' hw' => ?_⟩
  · change (Function.update s.waits w next cp.sync).alive
    by_cases hw : cp.sync = w
    · rw [hw, Function.update_self]
      exact halive.resolve_right fun hne => hne t cp ht hw
    · rw [Function.update_of_ne hw]
      exact h.alive t cp ht
  · change Function.update s.waits w next w' = _ at hw'
    by_cases hw : w' = w
    · rw [hw, Function.update_self] at hw'
      exact hnext hw'
    · rw [Function.update_of_ne hw] at hw'
      exact h.finishing w' hw'

omit [DecidableEq W] [DecidableEq A] in
lemma Owned.ne_of_not_alive (h : Owned c s) {w : W} (hw : (s.waits w).alive = false) (t : ℤ)
    (cp : ControlProtocol W) (ht : s.find t = some cp) : cp.sync ≠ w := by
  rintro rfl
  have halive := h.alive t cp ht
  rw [hw] at halive
  cases halive

omit [DecidableEq A] in
lemma Owned.register (h : Owned c s) {w : W} (hs : waitRegister c s w = some s') : Owned c s' := by
  unfold waitRegister at hs
  split at hs
  · cases hs
  · rename_i hstart
    have hnone := h.ne_of_not_alive (w := w) (by rw [not_not.mp hstart]; rfl)
    split at hs
    · cases hs
      exact h.setWait (by decide) (.inr hnone)
    · split at hs
      · cases hs
      · split at hs
        · cases hs
          have hset : Owned c (s.setWait w .registered) := h.setWait (by decide) (.inl rfl)
          refine ⟨fun t cp ht => ?_, fun t cp ht => ?_, hset.finishing⟩
          · change (s.activeCtlProtocols.insert (c.ackTag w) _)[t]? = _ at ht
            rw [TreeMap.getElem?_insert] at ht
            split_ifs at ht with hcmp
            · cases ht
              exact LawfulEqCmp.eq_of_compare hcmp
            · exact h.tag t cp ht
          · change (s.activeCtlProtocols.insert (c.ackTag w) _)[t]? = _ at ht
            rw [TreeMap.getElem?_insert] at ht
            split_ifs at ht with hcmp
            · cases ht
              change (Function.update s.waits w .registered w).alive
              rw [Function.update_self]
              rfl
            · exact hset.alive t cp ht
        · cases hs
          exact h.setWait (by decide) (.inr hnone)

omit [DecidableEq A] in
/-- The entry of a call that was acknowledged is erased. -/
lemma waitFinish_find {w : W} (hfinishing : s.waits w ≠ .finishing false)
    (hs : waitFinish c s w = some s') :
    (∀ t, s'.find t = if t = c.ackTag w then none else s.find t) ∧
      s'.waits = Function.update s.waits w (.returned true) := by
  unfold waitFinish at hs
  split at hs
  · rename_i retVal hw
    have htrue : retVal = true := by
      cases retVal with
      | true => rfl
      | false => exact absurd hw hfinishing
    rw [if_pos htrue] at hs
    split_ifs at hs
    cases hs
    refine ⟨fun t => ?_, rfl⟩
    change (s.activeCtlProtocols.erase (c.ackTag w))[t]? = _
    rw [TreeMap.getElem?_erase]
    by_cases ht : t = c.ackTag w
    · rw [if_pos ht, ht, if_pos ReflCmp.compare_self]
    · rw [if_neg ht, if_neg fun hcmp => ht (LawfulEqCmp.eq_of_compare hcmp).symm]
      rfl
  · cases hs

omit [DecidableEq A] in
lemma Owned.finish (h : Owned c s) {w : W} (hs : waitFinish c s w = some s') : Owned c s' := by
  obtain ⟨hfind, hwaits⟩ := waitFinish_find (h.finishing w) hs
  have hold : ∀ t cp, s'.find t = some cp → t ≠ c.ackTag w ∧ s.find t = some cp := by
    intro t cp ht
    rw [hfind] at ht
    split_ifs at ht with htag
    exact ⟨htag, ht⟩
  refine ⟨fun t cp ht => h.tag t cp (hold t cp ht).2, fun t cp ht => ?_, fun w' hw' => ?_⟩
  · obtain ⟨htag, ht⟩ := hold t cp ht
    have hne : cp.sync ≠ w := by
      rintro rfl
      exact htag (h.tag t cp ht).symm
    rw [hwaits, Function.update_of_ne hne]
    exact h.alive t cp ht
  · rw [hwaits] at hw'
    by_cases hw : w' = w
    · rw [hw, Function.update_self] at hw'
      cases hw'
    · rw [Function.update_of_ne hw] at hw'
      exact h.finishing w' hw'

omit [DecidableEq A] in
lemma Owned.check (h : Owned c s) {w : W} (horderly : Orderly c s (.waitCheck w : Action W A))
    (hs : waitCheck c s w = some s') : Owned c s' := by
  unfold waitCheck at hs
  split at hs
  · split at hs
    · cases hs
      exact ⟨h.tag, h.alive, h.finishing⟩
    · rename_i cp hderef
      have hnot := horderly cp (deref_eq_some hderef).1
      split_ifs at hs with hacked habort
      · cases hs
        exact h.setWait (by decide) (.inl rfl)
      · obtain ⟨hfailed, haborted⟩ := hnot.resolve_left hacked
        rw [hfailed, haborted] at habort
        simp at habort
      · cases hs
        exact h.setWait (by decide) (.inl rfl)
  · cases hs

theorem Owned.step {act : Action W A} (h : Owned c s) (horderly : Orderly c s act)
    (hs : step c s act = some s') : Owned c s' := by
  by_cases hact : ∀ w, ¬Owner act w
  · exact h.calm (calm_of_step hact hs)
  · push Not at hact
    obtain ⟨w, hw⟩ := hact
    unfold ControlProtocols.step at hs
    split_ifs at hs
    cases hw with
    | waitRegister => exact h.register hs
    | waitCheck => exact h.check horderly hs
    | waitFinish => exact h.finish hs

omit [DecidableEq W] [DecidableEq A] in
lemma owned_initial (n : ℕ) : Owned c (State.initial n) := by
  have hnone : ∀ t, (State.initial n : State W A).find t = none := fun t => TreeMap.getElem?_emptyc
  refine ⟨fun t cp ht => ?_, fun t cp ht => ?_, fun w hw => by cases hw⟩
  · rw [hnone] at ht
    cases ht
  · rw [hnone] at ht
    cases ht

theorem owned_of_reaches {n : ℕ}
    (h : Reaches (ControlProtocols.step c) (Orderly c) (State.initial n) s) : Owned c s :=
  h.keeps (owned_initial n) fun hI horderly hs => hI.step horderly hs

/-- A call that has returned left no entry: its own is erased as it returns, no entry has its
monitor, and no acknowledgement finds it. -/
theorem finished_leaves_no_trace {n : ℕ}
    (h : Reaches (ControlProtocols.step c) (Orderly c) (State.initial n) s) :
    (∀ w s', ControlProtocols.step c s (.waitFinish w) = some s' → s'.find (c.ackTag w) = none) ∧
      ∀ w retVal, s.waits w = .returned retVal → (∀ t cp, s.find t = some cp → cp.sync ≠ w) ∧
        ∀ a s', s.acks a = .start → ControlProtocols.step c s (.ackLookup a) = some s' →
          s'.acks a ≠ .found w := by
  have howned := owned_of_reaches h
  refine ⟨fun w s' hs => ?_, fun w retVal hw => ?_⟩
  · unfold ControlProtocols.step at hs
    split_ifs at hs
    obtain ⟨hfind, -⟩ := waitFinish_find (howned.finishing w) hs
    rw [hfind, if_pos rfl]
  · have hnone := howned.ne_of_not_alive (w := w) (by rw [hw]; rfl)
    refine ⟨hnone, fun a s' ha hs hfound => ?_⟩
    unfold ControlProtocols.step at hs
    split_ifs at hs
    obtain ⟨-, ⟨cp, hcp, rfl⟩ | ⟨-, -, rfl⟩ | ⟨-, rfl⟩⟩ := ackLookup_cases hs
    · change Function.update s.acks a _ a = _ at hfound
      rw [Function.update_self] at hfound
      cases hfound
      exact hnone _ cp hcp rfl
    · change Function.update s.acks a _ a = _ at hfound
      rw [Function.update_self] at hfound
      cases hfound
    · rw [ha] at hfound
      cases hfound

end Trace

section Acknowledgements

/-- One call, and an acknowledgement from each of `n` children. -/
def oneCall (ackTag : ℤ) {n : ℕ} (failed : Fin n → Bool) : Calls Unit (Fin n) where
  ackTag _ := ackTag
  numAcksExpected _ := n
  tag _ := ackTag
  abort := failed

/-- One child succeeds, and the wait is over. -/
theorem finished_leaves_no_trace_of_one_child :
    ∃ s : State Unit (Fin 1), s.waits () = .returned true ∧
      ∀ t cp, s.find t = some cp → cp.sync ≠ () := by
  let acts : List (Action Unit (Fin 1)) := [.waitRegister (), .waitCheck (), .ackLookup 0,
    .ackIncrement 0, .waitCheck (), .waitFinish ()]
  let c : Calls Unit (Fin 1) := oneCall 8 fun _ => false
  obtain ⟨s, hrun, hw⟩ : ∃ s, runSchedule (step c) (State.initial 0) acts = some s ∧
    s.waits () = .returned true := ⟨_, rfl, rfl⟩
  have hallowed : AllowedAll (step c) (Orderly c) (State.initial 0) acts := by
    refine ⟨trivial, ?_, trivial, trivial, ?_, trivial, trivial⟩
    · rintro cp ⟨⟩
      exact .inr ⟨rfl, rfl⟩
    · rintro cp ⟨⟩
      exact .inl le_rfl
  obtain ⟨-, hnone⟩ := finished_leaves_no_trace (reaches_of_schedule hallowed hrun)
  exact ⟨s, hw, (hnone () true hw).1⟩

/-- A failure leaves the entry of the call that returned, so that the tag stays in use. -/
theorem failure_leaves_entry :
    ¬∀ (W A : Type) [DecidableEq W] [DecidableEq A] (c : Calls W A) (n : ℕ) (s : State W A),
      Reaches (step c) Any (State.initial n) s → ∀ w retVal, s.waits w = .returned retVal →
        ∀ t cp, s.find t = some cp → cp.sync ≠ w := by
  intro hall
  let acts : List (Action Unit (Fin 1)) := [.waitRegister (), .waitCheck (), .ackLookup 0,
    .ackCheck 0, .ackAbort 0, .waitCheck (), .waitFinish ()]
  let c : Calls Unit (Fin 1) := oneCall 8 fun _ => true
  obtain ⟨s, hrun, hw, hfind⟩ : ∃ s, runSchedule (step c) (State.initial 0) acts = some s ∧
    s.waits () = .returned false ∧ s.find 8 = some ⟨(), 0, true⟩ := ⟨_, rfl, rfl, rfl⟩
  exact hall Unit (Fin 1) c 0 s (reaches_any hrun) () false hw 8 ⟨(), 0, true⟩ hfind rfl

end Acknowledgements

end MRNet.ControlProtocols
