import Mathlib.Data.List.Basic
import MRNet.Interleavings

/-!
# Event pipes

Translation of `EventPipe::signal` and `EventPipe::clear` of `Event.C`. Each call makes up to
three steps: the test of the flag, the operation on the pipe, and the update of the flag. A read
of an empty pipe blocks.
-/
namespace MRNet.EventPipe
open Interleavings

inductive Kind where
  | signal
  | clear
  deriving DecidableEq

/-- Where a call is. -/
inductive Phase where
  | entered
  | tested
  | operated
  | returned
  deriving DecidableEq

structure Call where
  kind : Kind
  phase : Phase
  deriving DecidableEq

structure State where
  /-- The descriptors of the pipe are not -1. -/
  fds : Bool
  /-- The bytes that are not read yet. -/
  pipe : List Char
  hasData : Bool
  calls : List Call
  deriving DecidableEq

inductive Action where
  | call (kind : Kind)
  | test (i : ℕ)
  | operate (i : ℕ) (ok : Bool)
  | update (i : ℕ)
  deriving DecidableEq

namespace State

def initial : State := ⟨true, [], false, []⟩

def setPhase (s : State) (i : ℕ) (call : Call) (phase : Phase) : State :=
  { s with calls := s.calls.set i { call with phase := phase } }

/-- The call goes on to the pipe. -/
def passes (s : State) : Kind → Bool
  | .signal => s.fds && !s.hasData
  | .clear => s.fds && s.hasData

end State

def test (s : State) (i : ℕ) : Option State :=
  match s.calls[i]? with
  | some ⟨kind, .entered⟩ =>
      some (s.setPhase i ⟨kind, .entered⟩ (if s.passes kind then .tested else .returned))
  | _ => none

/-- A `write` or a `read`. Where it fails, the call returns. -/
def operate (s : State) (i : ℕ) (ok : Bool) : Option State :=
  match s.calls[i]? with
  | some ⟨kind, .tested⟩ =>
      if ok then
        match kind, s.pipe with
        | .signal, bytes => some { s.setPhase i ⟨kind, .tested⟩ .operated with
            pipe := bytes ++ ['!'] }
        | .clear, _ :: bytes => some { s.setPhase i ⟨kind, .tested⟩ .operated with pipe := bytes }
        | .clear, [] => none
      else some (s.setPhase i ⟨kind, .tested⟩ .returned)
  | _ => none

def update (s : State) (i : ℕ) : Option State :=
  match s.calls[i]? with
  | some ⟨kind, .operated⟩ => some { s.setPhase i ⟨kind, .operated⟩ .returned with
      hasData := decide (kind = .signal) }
  | _ => none

def step (s : State) : Action → Option State
  | .call kind => some { s with calls := s.calls ++ [⟨kind, .entered⟩] }
  | .test i => test s i
  | .operate i ok => operate s i ok
  | .update i => update s i

/-- One more call, all of whose steps are made with no others between them. -/
def runAlone (s : State) (kind : Kind) : Option State :=
  let i := s.calls.length
  if s.passes kind then
    runSchedule step s [.call kind, .test i, .operate i true, .update i]
  else runSchedule step s [.call kind, .test i]

namespace State

/-- A call is between its test and the update of the flag. -/
def InFlight (s : State) (i : ℕ) : Prop :=
  ∃ call, s.calls[i]? = some call ∧ (call.phase = .tested ∨ call.phase = .operated)

/-- All calls have returned. -/
def Quiet (s : State) : Prop := ∀ call ∈ s.calls, call.phase = .returned

/-- What the flag says of the pipe. -/
def Agrees (s : State) : Prop := s.pipe = if s.hasData then ['!'] else []

/-- What a call in flight leaves of the pipe and the flag. -/
def Fits (s : State) : Call → Prop
  | ⟨kind, .tested⟩ => s.hasData = decide (kind = .clear) ∧ s.Agrees
  | ⟨.signal, .operated⟩ => s.pipe = ['!']
  | ⟨.clear, .operated⟩ => s.pipe = []
  | _ => True

end State

/-- A call goes on to the pipe only when no other is between its test and its update. -/
def Alone (s : State) : Action → Prop
  | .test i => ∀ call, s.calls[i]? = some call → s.passes call.kind → ∀ j, ¬s.InFlight j
  | _ => True

structure Inv (s : State) : Prop where
  fds : s.fds
  unique : ∀ i j, s.InFlight i → s.InFlight j → i = j
  fits : ∀ (i : ℕ) (call : Call), s.calls[i]? = some call → s.Fits call
  agrees : (∀ i, ¬s.InFlight i) → s.Agrees

/-- Nothing is lost or left over. -/
structure Notified (s : State) : Prop where
  exact : s.Quiet → s.Agrees
  signal : s.Quiet → ∃ s', runAlone s .signal = some s' ∧ s'.pipe ≠ []
  clear : s.Quiet → ∃ s', runAlone s .clear = some s' ∧ s'.pipe = []

variable {s s' : State} {i : ℕ} {call : Call}

lemma setPhase_get (hcall : s.calls[i]? = some call) (phase : Phase) (j : ℕ) :
    (s.setPhase i call phase).calls[j]? =
      if j = i then some { call with phase := phase } else s.calls[j]? := by
  obtain ⟨hlt, -⟩ := List.getElem?_eq_some_iff.mp hcall
  rw [State.setPhase, List.getElem?_set]
  by_cases hj : j = i
  · rw [if_pos hj.symm, if_pos hj, if_pos hlt]
  · rw [if_neg (Ne.symm hj), if_neg hj]

/-- The calls in flight after a step of one call. -/
lemma inFlight_setPhase (hcall : s.calls[i]? = some call) {phase : Phase} {j : ℕ} :
    (s.setPhase i call phase).InFlight j ↔
      if j = i then phase = .tested ∨ phase = .operated else s.InFlight j := by
  unfold State.InFlight
  rw [setPhase_get hcall]
  split_ifs <;> simp

/-- A call that is not in flight fits any state. -/
lemma fits_of_not_inFlight (hcall : s.calls[i]? = some call) (hnot : ¬s.InFlight i)
    (s' : State) : s'.Fits call := by
  obtain ⟨kind, phase⟩ := call
  cases phase with
  | entered => trivial
  | tested => exact absurd ⟨_, hcall, .inl rfl⟩ hnot
  | operated => exact absurd ⟨_, hcall, .inr rfl⟩ hnot
  | returned => trivial

/-- One call goes on, and is the only one in flight after it. -/
lemma Inv.only (h : Inv s) (hcall : s.calls[i]? = some call) {phase : Phase} {pipe : List Char}
    {hasData : Bool} (honly : ∀ j, s.InFlight j → j = i)
    (hfits : State.Fits ⟨s.fds, pipe, hasData, []⟩ ⟨call.kind, phase⟩)
    (hagrees : phase = .returned → State.Agrees ⟨s.fds, pipe, hasData, []⟩)
    (hphase : phase ≠ .entered) :
    Inv { s.setPhase i call phase with pipe := pipe, hasData := hasData } := by
  have hflight : ∀ {j}, State.InFlight
      { s.setPhase i call phase with pipe := pipe, hasData := hasData } j ↔
      if j = i then phase = .tested ∨ phase = .operated else s.InFlight j :=
    inFlight_setPhase hcall
  have hsame : ∀ {j}, State.InFlight
      { s.setPhase i call phase with pipe := pipe, hasData := hasData } j → j = i := by
    intro j hj
    by_contra hne
    rw [hflight, if_neg hne] at hj
    exact hne (honly j hj)
  refine ⟨h.fds, fun j k hj hk => (hsame hj).trans (hsame hk).symm, fun j call' hj => ?_,
    fun hnone => ?_⟩
  · by_cases hji : j = i
    · have hget := setPhase_get hcall phase j
      rw [if_pos hji] at hget
      cases hget.symm.trans hj
      exact hfits
    · exact fits_of_not_inFlight hj (fun hin => hji (hsame hin)) _
  · apply hagrees
    have hnot := hnone i
    rw [hflight, if_pos rfl] at hnot
    cases phase with
    | entered => exact absurd rfl hphase
    | tested => exact absurd (.inl rfl) hnot
    | operated => exact absurd (.inr rfl) hnot
    | returned => rfl

lemma test_cases (hs : test s i = some s') : ∃ kind, s.calls[i]? = some ⟨kind, .entered⟩ ∧
    s' = s.setPhase i ⟨kind, .entered⟩ (if s.passes kind then .tested else .returned) := by
  unfold test at hs
  split at hs
  · cases hs
    exact ⟨_, ‹_›, rfl⟩
  · cases hs

lemma operate_cases {ok : Bool} (hs : operate s i ok = some s') :
    ∃ kind, s.calls[i]? = some ⟨kind, .tested⟩ ∧
      (s' = s.setPhase i ⟨kind, .tested⟩ .returned ∨
        (kind = .signal ∧ s' = { s.setPhase i ⟨kind, .tested⟩ .operated with
          pipe := s.pipe ++ ['!'] }) ∨
        (kind = .clear ∧ s' = { s.setPhase i ⟨kind, .tested⟩ .operated with
          pipe := s.pipe.tail })) := by
  unfold operate at hs
  split at hs
  · rename_i kind hcall
    refine ⟨kind, hcall, ?_⟩
    split_ifs at hs
    · split at hs
      · cases hs
        exact .inr (.inl ⟨rfl, rfl⟩)
      · rename_i hpipe
        cases hs
        refine .inr (.inr ⟨rfl, ?_⟩)
        rw [hpipe]
        rfl
      · cases hs
    · cases hs
      exact .inl rfl
  · cases hs

lemma update_cases (hs : update s i = some s') : ∃ kind, s.calls[i]? = some ⟨kind, .operated⟩ ∧
    s' = { s.setPhase i ⟨kind, .operated⟩ .returned with hasData := decide (kind = .signal) } := by
  unfold update at hs
  split at hs
  · cases hs
    exact ⟨_, ‹_›, rfl⟩
  · cases hs

lemma inFlight_call (kind : Kind) {j : ℕ} :
    State.InFlight { s with calls := s.calls ++ [⟨kind, .entered⟩] } j ↔ s.InFlight j := by
  have hget : ∀ call, (s.calls ++ [(⟨kind, .entered⟩ : Call)])[j]? = some call →
      s.calls[j]? = some call ∨ call.phase = .entered := by
    intro call hcall
    rcases Nat.lt_or_ge j s.calls.length with hlt | hge
    · rw [List.getElem?_append_left hlt] at hcall
      exact .inl hcall
    · rw [List.getElem?_append_right hge] at hcall
      have hmem := List.mem_of_getElem? hcall
      rw [List.mem_singleton] at hmem
      exact .inr (hmem ▸ rfl)
  constructor
  · rintro ⟨call, hcall, hphase⟩
    rcases hget call hcall with hold | hentered
    · exact ⟨call, hold, hphase⟩
    · rw [hentered] at hphase
      cases hphase <;> contradiction
  · rintro ⟨call, hcall, hphase⟩
    refine ⟨call, ?_, hphase⟩
    rw [List.getElem?_append_left (List.getElem?_eq_some_iff.mp hcall).1]
    exact hcall

/-- A call that is entered takes no part yet. -/
lemma Inv.enter (h : Inv s) (kind : Kind) :
    Inv { s with calls := s.calls ++ [⟨kind, .entered⟩] } := by
  refine ⟨h.fds, fun j k hj hk => h.unique j k ((inFlight_call kind).mp hj)
    ((inFlight_call kind).mp hk), fun j call hcall => ?_,
    fun hnone => h.agrees fun j hj => hnone j ((inFlight_call kind).mpr hj)⟩
  by_cases hj : s.InFlight j
  · obtain ⟨call', hcall', -⟩ := id hj
    have hget : (s.calls ++ [(⟨kind, .entered⟩ : Call)])[j]? = some call' := by
      rw [List.getElem?_append_left (List.getElem?_eq_some_iff.mp hcall').1]
      exact hcall'
    cases hget.symm.trans hcall
    exact h.fits j _ hcall'
  · exact fits_of_not_inFlight hcall (fun hin => hj ((inFlight_call kind).mp hin)) _

/-- A test that fails ends the call. -/
lemma Inv.fail (h : Inv s) {kind : Kind} (hcall : s.calls[i]? = some ⟨kind, .entered⟩) :
    Inv (s.setPhase i ⟨kind, .entered⟩ .returned) := by
  have hflight : ∀ {j}, (s.setPhase i ⟨kind, .entered⟩ .returned).InFlight j ↔
      s.InFlight j := by
    intro j
    rw [inFlight_setPhase hcall]
    split_ifs with hj
    · refine iff_of_false (by decide) ?_
      rintro ⟨call, hget, hphase⟩
      rw [hj, hcall] at hget
      cases hget
      cases hphase <;> contradiction
    · rfl
  refine ⟨h.fds, fun j k hj hk => h.unique j k (hflight.mp hj) (hflight.mp hk),
    fun j call hget => ?_, fun hnone => h.agrees fun j hj => hnone j (hflight.mpr hj)⟩
  rw [setPhase_get hcall] at hget
  split_ifs at hget with hj
  · cases hget
    trivial
  · exact h.fits j call hget

lemma Inv.test (h : Inv s) (halone : Alone s (.test i)) (hs : test s i = some s') : Inv s' := by
  obtain ⟨kind, hcall, rfl⟩ := test_cases hs
  split_ifs with hpasses
  · have hnone := halone _ hcall hpasses
    refine h.only hcall (fun j hj => absurd hj (hnone j)) ⟨?_, h.agrees hnone⟩ nofun (by decide)
    cases kind <;> simp [State.passes] at hpasses ⊢
    · exact hpasses.2
    · exact hpasses.2
  · exact h.fail hcall

lemma Inv.operate (h : Inv s) {ok : Bool} (hs : operate s i ok = some s') : Inv s' := by
  obtain ⟨kind, hcall, hcases⟩ := operate_cases hs
  have honly : ∀ j, s.InFlight j → j = i := fun j hj =>
    h.unique j i hj ⟨_, hcall, .inl rfl⟩
  obtain ⟨hdata, hagrees⟩ := h.fits i _ hcall
  rw [State.Agrees, hdata] at hagrees
  obtain rfl | ⟨rfl, rfl⟩ | ⟨rfl, rfl⟩ := hcases
  · exact h.only hcall honly trivial (fun _ => (h.fits i _ hcall).2) (by decide)
  · refine h.only hcall honly ?_ nofun (by decide)
    change s.pipe ++ ['!'] = ['!']
    rw [hagrees]
    rfl
  · refine h.only hcall honly ?_ nofun (by decide)
    change s.pipe.tail = []
    rw [hagrees]
    rfl

lemma Inv.update (h : Inv s) (hs : update s i = some s') : Inv s' := by
  obtain ⟨kind, hcall, rfl⟩ := update_cases hs
  have honly : ∀ j, s.InFlight j → j = i := fun j hj =>
    h.unique j i hj ⟨_, hcall, .inr rfl⟩
  have hfits := h.fits i _ hcall
  refine h.only hcall honly trivial (fun _ => ?_) (by decide)
  cases kind with
  | signal => exact hfits
  | clear => exact hfits

theorem Inv.step {act : Action} (h : Inv s) (halone : Alone s act) (hs : step s act = some s') :
    Inv s' := by
  cases act with
  | call kind =>
      cases hs
      exact h.enter kind
  | test i => exact h.test halone hs
  | operate i ok => exact h.operate hs
  | update i => exact h.update hs

lemma Inv.agrees_of_quiet (h : Inv s) (hquiet : s.Quiet) : s.Agrees := by
  refine h.agrees ?_
  rintro i ⟨call, hcall, hphase⟩
  rw [hquiet call (List.mem_of_getElem? hcall)] at hphase
  cases hphase <;> contradiction

/-- What the operation of a call leaves of the pipe. -/
def Kind.apply (pipe : List Char) : Kind → List Char
  | .signal => pipe ++ ['!']
  | .clear => pipe.tail

lemma runAlone_of_not_passes (kind : Kind) (h : s.passes kind = false) :
    ∃ s', runAlone s kind = some s' ∧ s'.pipe = s.pipe := by
  set s₁ : State := { s with calls := s.calls ++ [⟨kind, .entered⟩] } with hs₁
  have hcall : s₁.calls[s.calls.length]? = some ⟨kind, .entered⟩ := by simp [hs₁]
  refine ⟨s₁.setPhase s.calls.length ⟨kind, .entered⟩ .returned, ?_, rfl⟩
  have htest : test s₁ s.calls.length =
      some (s₁.setPhase s.calls.length ⟨kind, .entered⟩ .returned) := by
    unfold test
    rw [hcall]
    dsimp only
    rw [if_neg]
    change ¬s.passes kind = true
    rw [h]
    decide
  unfold runAlone
  rw [if_neg (by rw [h]; decide)]
  change (test s₁ s.calls.length).bind _ = _
  rw [htest]
  rfl

/-- The pipe after the steps of a call that goes on to it. -/
lemma runAlone_of_passes (kind : Kind) (h : s.passes kind) (hpipe : kind = .clear → s.pipe ≠ []) :
    ∃ s', runAlone s kind = some s' ∧ s'.pipe = kind.apply s.pipe := by
  set s₁ : State := { s with calls := s.calls ++ [⟨kind, .entered⟩] } with hs₁
  have hcall₁ : s₁.calls[s.calls.length]? = some ⟨kind, .entered⟩ := by simp [hs₁]
  set s₂ := s₁.setPhase s.calls.length ⟨kind, .entered⟩ .tested with hs₂
  have hcall₂ : s₂.calls[s.calls.length]? = some ⟨kind, .tested⟩ := by
    rw [hs₂, setPhase_get hcall₁, if_pos rfl]
  have htest : test s₁ s.calls.length = some s₂ := by
    unfold test
    rw [hcall₁]
    dsimp only
    rw [if_pos (show s₁.passes kind = true from h)]
  set s₃ : State := { s₂.setPhase s.calls.length ⟨kind, .tested⟩ .operated with
    pipe := kind.apply s.pipe } with hs₃
  have hoperate : operate s₂ s.calls.length true = some s₃ := by
    unfold operate
    simp only [hcall₂, if_true]
    cases kind with
    | signal => rfl
    | clear =>
        obtain ⟨c, bytes, hcons⟩ := List.exists_cons_of_ne_nil (hpipe rfl)
        have hpipe₂ : s₂.pipe = c :: bytes := hcons
        rw [hpipe₂, hs₃, hcons]
        rfl
  have hcall₃ : s₃.calls[s.calls.length]? = some ⟨kind, .operated⟩ := by
    change (s₂.setPhase s.calls.length ⟨kind, .tested⟩ .operated).calls[s.calls.length]? = _
    rw [setPhase_get hcall₂, if_pos rfl]
  have hupdate : update s₃ s.calls.length =
      some { s₃.setPhase s.calls.length ⟨kind, .operated⟩ .returned with
        hasData := decide (kind = .signal) } := by
    unfold update
    rw [hcall₃]
  refine ⟨{ s₃.setPhase s.calls.length ⟨kind, .operated⟩ .returned with
    hasData := decide (kind = .signal) }, ?_, rfl⟩
  unfold runAlone
  rw [if_pos h]
  change (test s₁ s.calls.length).bind _ = _
  rw [htest]
  change (operate s₂ s.calls.length true).bind _ = _
  rw [hoperate]
  change (update s₃ s.calls.length).bind _ = _
  rw [hupdate]
  rfl

/-- From a state in which all calls have returned, a signal leaves a byte and a clear leaves
none. -/
lemma Inv.notified (h : Inv s) : Notified s := by
  refine ⟨h.agrees_of_quiet, fun hquiet => ?_, fun hquiet => ?_⟩
  · have hagrees := h.agrees_of_quiet hquiet
    cases hdata : s.hasData with
    | true =>
        obtain ⟨s', hrun, hpipe⟩ := runAlone_of_not_passes (s := s) .signal
          (by simp [State.passes, hdata])
        refine ⟨s', hrun, ?_⟩
        rw [hpipe, hagrees, hdata]
        decide
    | false =>
        obtain ⟨s', hrun, hpipe⟩ := runAlone_of_passes (s := s) .signal
          (by simp [State.passes, hdata, h.fds]) nofun
        refine ⟨s', hrun, ?_⟩
        rw [hpipe]
        exact List.append_ne_nil_of_right_ne_nil _ (by decide)
  · have hagrees := h.agrees_of_quiet hquiet
    cases hdata : s.hasData with
    | true =>
        have hone : s.pipe = ['!'] := by
          rw [hagrees, hdata]
          rfl
        obtain ⟨s', hrun, hpipe⟩ := runAlone_of_passes (s := s) .clear
          (by simp [State.passes, hdata, h.fds]) (fun _ => by rw [hone]; decide)
        refine ⟨s', hrun, ?_⟩
        rw [hpipe, hone]
        rfl
    | false =>
        obtain ⟨s', hrun, hpipe⟩ := runAlone_of_not_passes (s := s) .clear
          (by simp [State.passes, hdata])
        refine ⟨s', hrun, ?_⟩
        rw [hpipe, hagrees, hdata]
        rfl

/-- If calls that go on to the pipe do not overlap, then nothing is lost or left over. -/
theorem notified_of_alone (h : Reaches step Alone State.initial s) : Notified s := by
  have hinv : Inv s := by
    refine h.keeps ⟨rfl, fun i j => ?_, fun i call hcall => ?_, fun _ => rfl⟩
      fun hI halone hs => hI.step halone hs
    · rintro ⟨call, hcall, -⟩
      cases hcall
    · cases hcall
  exact hinv.notified

/-- A signal, a signal that finds the flag set, and a clear. -/
theorem notified_of_alone_three : ∃ s, s.calls.length = 3 ∧ s.Quiet ∧ Notified s := by
  let acts : List Action := [.call .signal, .call .signal, .test 0, .operate 0 true, .update 0,
    .test 1, .call .clear, .test 2, .operate 2 true, .update 2]
  obtain ⟨s, hrun, hlength, hquiet⟩ : ∃ s, runSchedule step State.initial acts = some s ∧
    s.calls.length = 3 ∧ s.Quiet := ⟨_, rfl, rfl, by unfold State.Quiet; decide⟩
  have hnone : ∀ s : State, (∀ call ∈ s.calls, call.phase = .entered ∨ call.phase = .returned) →
      ∀ j, ¬s.InFlight j := by
    rintro s hphases j ⟨call, hcall, hphase⟩
    rcases hphases call (List.mem_of_getElem? hcall) with heq | heq <;> rw [heq] at hphase <;>
      cases hphase <;> contradiction
  have halone : AllowedAll step Alone State.initial acts :=
    ⟨trivial, trivial, fun _ _ _ => hnone _ (by decide), trivial, trivial,
      fun _ _ _ => hnone _ (by decide), trivial, fun _ _ _ => hnone _ (by decide), trivial,
      trivial, trivial⟩
  exact ⟨s, hlength, hquiet, notified_of_alone (reaches_of_schedule halone hrun)⟩

/-- Two signals test the flag before either has set it, and both write. -/
theorem two_signals_left_over : ¬∀ s, Reaches step Any State.initial s → Notified s := by
  intro hall
  let acts : List Action := [.call .signal, .call .signal, .test 0, .test 1, .operate 0 true,
    .operate 1 true, .update 0, .update 1]
  obtain ⟨s, hrun, hpipe, hdata, hquiet⟩ : ∃ s, runSchedule step State.initial acts = some s ∧
    s.pipe = ['!', '!'] ∧ s.hasData = true ∧ s.Quiet :=
      ⟨_, rfl, rfl, rfl, by unfold State.Quiet; decide⟩
  have hexact := (hall s (reaches_any hrun)).exact hquiet
  rw [State.Agrees, hpipe, hdata] at hexact
  cases hexact

end MRNet.EventPipe
