import MRNet.NativeBytes

/-!
# The time keeper

Translation of `TimeKeeper`: the timers of the streams in milliseconds, and the
smallest of them. The map is a list, as the order of its iteration has no effect.
-/
namespace MRNet.Timers

abbrev StreamId := BitVec 32

structure TimeKeeper where
  minTimeout : BitVec 32
  strmTimeouts : List (StreamId × BitVec 32)

namespace TimeKeeper

/-- The static `default_timeout` until `set_DefaultTimeout`. -/
def defaultTimeout : BitVec 32 := 100

def empty : TimeKeeper := ⟨defaultTimeout, []⟩

def getTimeout (tk : TimeKeeper) : BitVec 32 := tk.minTimeout

/-- The entry of a stream. -/
def find (tk : TimeKeeper) (strmId : StreamId) : Option (BitVec 32) :=
  (tk.strmTimeouts.find? fun entry => entry.1 = strmId).map Prod.snd

/-- The loop over the timers: what is left of them, their minimum and the streams whose
timers have expired. The minimum is compared as a signed number. -/
def elapse (elapsedMs : BitVec 32) : List (StreamId × BitVec 32) → BitVec 32 →
    List (StreamId × BitVec 32) × BitVec 32 × List StreamId
  | [], newMinTo => ([], newMinTo, [])
  | (strmId, strmTo) :: entries, newMinTo =>
      if strmTo ≤ elapsedMs then
        let (left, newMinTo, expired) := elapse elapsedMs entries newMinTo
        (left, newMinTo, strmId :: expired)
      else
        let strmTo := strmTo - elapsedMs
        let newMinTo := if strmTo.slt newMinTo then strmTo else newMinTo
        let (left, newMinTo, expired) := elapse elapsedMs entries newMinTo
        ((strmId, strmTo) :: left, newMinTo, expired)

/-- The time keeper afterwards, and the streams whose timers have expired. -/
def notifyElapsedFrom (tk : TimeKeeper) (defaultMs elapsedMs : BitVec 32) :
    TimeKeeper × List StreamId :=
  let (left, newMinTo, expired) := elapse elapsedMs tk.strmTimeouts defaultMs
  (⟨newMinTo, left⟩, expired)

/-- With the initial default timeout. -/
def notifyElapsed (tk : TimeKeeper) (elapsedMs : BitVec 32) : TimeKeeper × List StreamId :=
  tk.notifyElapsedFrom defaultTimeout elapsedMs

/-- A stream that has a timer keeps it. -/
def registerTimeout (tk : TimeKeeper) (strmId : StreamId) (timeoutMs : BitVec 32) :
    TimeKeeper × Bool :=
  match tk.find strmId with
  | some _ => (tk, false)
  | none =>
      ({ minTimeout := if timeoutMs.slt tk.minTimeout then timeoutMs else tk.minTimeout
         strmTimeouts := (strmId, timeoutMs) :: tk.strmTimeouts }, true)

/-- The minimum is found anew by a notification without elapsed time, if the timer of the stream
was the minimum. -/
def clearTimeout (tk : TimeKeeper) (defaultMs : BitVec 32) (strmId : StreamId) :
    TimeKeeper × Bool :=
  match tk.find strmId with
  | none => (tk, false)
  | some strmTo =>
      let tk' := { tk with strmTimeouts := tk.strmTimeouts.filter fun entry => entry.1 ≠ strmId }
      if tk.minTimeout = strmTo then ((tk'.notifyElapsedFrom defaultMs 0).1, true) else (tk', true)

/-- The stream has an entry. -/
def Registered (tk : TimeKeeper) (strmId : StreamId) : Prop :=
  ∃ timeoutMs, (strmId, timeoutMs) ∈ tk.strmTimeouts

/-- A timer runs on or is reported. -/
lemma registered_or_expired (elapsedMs : BitVec 32) {strmId : StreamId}
    (entries : List (StreamId × BitVec 32)) (newMinTo : BitVec 32)
    (h : ∃ timeoutMs, (strmId, timeoutMs) ∈ entries) :
    (∃ timeoutMs, (strmId, timeoutMs) ∈ (elapse elapsedMs entries newMinTo).1) ∨
      strmId ∈ (elapse elapsedMs entries newMinTo).2.2 := by
  induction entries generalizing newMinTo with
  | nil => simp at h
  | cons entry entries ih =>
      obtain ⟨id, strmTo⟩ := entry
      obtain ⟨timeoutMs, hmem⟩ := h
      rw [elapse]
      split_ifs
      · rcases List.mem_cons.mp hmem with heq | hmem
        · exact .inr (List.mem_cons.mpr (.inl (congrArg Prod.fst heq)))
        · refine (ih newMinTo ⟨timeoutMs, hmem⟩).imp_right fun hexp => ?_
          exact List.mem_cons_of_mem _ hexp
      all_goals
        rcases List.mem_cons.mp hmem with heq | hmem
        · refine .inl ⟨strmTo - elapsedMs, ?_⟩
          rw [show strmId = id from congrArg Prod.fst heq]
          exact List.mem_cons_self
        · refine (ih _ ⟨timeoutMs, hmem⟩).imp_left fun hleft => ?_
          obtain ⟨left, hleft⟩ := hleft
          exact ⟨left, List.mem_cons_of_mem _ hleft⟩

theorem notifyElapsed_spec (tk : TimeKeeper) (elapsedMs : BitVec 32) {strmId : StreamId}
    (h : tk.Registered strmId) : (tk.notifyElapsed elapsedMs).1.Registered strmId ∨
      strmId ∈ (tk.notifyElapsed elapsedMs).2 :=
  registered_or_expired elapsedMs tk.strmTimeouts defaultTimeout h

/-- Registration ends with a timer for the stream, and takes none from the others. -/
theorem registerTimeout_spec (tk : TimeKeeper) (strmId : StreamId) (timeoutMs : BitVec 32) :
    (tk.registerTimeout strmId timeoutMs).1.Registered strmId ∧
      ∀ id, tk.Registered id → (tk.registerTimeout strmId timeoutMs).1.Registered id := by
  unfold registerTimeout
  cases hfind : tk.find strmId with
  | none =>
      refine ⟨⟨timeoutMs, List.mem_cons_self⟩, fun id hid => ?_⟩
      obtain ⟨left, hleft⟩ := hid
      exact ⟨left, List.mem_cons_of_mem _ hleft⟩
  | some left =>
      refine ⟨?_, fun id hid => hid⟩
      obtain ⟨entry, hentry, -⟩ := Option.map_eq_some_iff.mp hfind
      have hid : entry.1 = strmId := by simpa using List.find?_some hentry
      exact ⟨entry.2, hid ▸ List.mem_of_find?_eq_some hentry⟩

end TimeKeeper

end MRNet.Timers
