import MRNet.RegisteredCallbacks

/-!
# Runs of the event manager

Each event runs the registrations for its class and type, in every run in which a function that is
removed is found at most once in each list.
-/
namespace MRNet.Events
open Codec (Outcome Stop Fault)
open Std (TreeMap)

variable {F D E : Type} [DecidableEq F] {mgr mgr' : EventMgr F D E} {ops : List (Op F D E)}
  {op : Op F D E} {c t : ℤ} {n : ℕ} {lists : ℤ → ℤ → List (CbInfo F D)}

/-- A function that is removed is found at most once in each list. -/
def FindsOnce (mgr : EventMgr F D E) : Op F D E → Prop
  | .removeCallback (some ifunc) iclass ityp => ∀ t elist, (ityp = t ∨ ityp = eventTypeAll) →
      mgr.list iclass t = some elist → elist.countP (·.func = ifunc) ≤ 1
  | _ => True

lemma removeCallbackFunc_of_once (ifunc : F) {elist : List (CbInfo F D)}
    (honce : elist.countP (·.func = ifunc) ≤ 1) :
    (removeCallbackFunc ifunc elist).1 = elist.filter (·.func ≠ ifunc) := by
  induction elist with
  | nil => rfl
  | cons info elist ih =>
      rw [removeCallbackFunc]
      by_cases hfunc : info.func = ifunc
      · rw [List.countP_cons_of_pos (by simpa using hfunc)] at honce
        have hnone : ∀ other ∈ elist, other.func ≠ ifunc := fun other hmem heq => by
          have hpos : 0 < elist.countP (·.func = ifunc) :=
            List.countP_pos_iff.mpr ⟨other, hmem, decide_eq_true heq⟩
          omega
        rw [if_pos hfunc, List.filter_cons_of_neg (by simpa using hfunc), eq_comm,
          List.filter_eq_self]
        exact fun other hmem => decide_eq_true (hnone other hmem)
      · rw [List.countP_cons_of_neg (by simpa using hfunc)] at honce
        rw [if_neg hfunc, List.filter_cons_of_pos (by simpa using hfunc)]
        exact congrArg (info :: ·) (ih honce)

lemma removed_of_once {ifunc : Option F} {elist : List (CbInfo F D)}
    (honce : ∀ func ∈ ifunc, elist.countP (·.func = func) ≤ 1) :
    removed ifunc elist = elist.filter fun info => !ifunc.all (info.func = ·) := by
  cases ifunc with
  | none => exact (List.filter_eq_nil_iff.mpr fun _ _ => Bool.false_ne_true).symm
  | some ifunc =>
      rw [removed, removeCallbackFunc_of_once ifunc (honce ifunc rfl)]
      exact List.filter_congr fun info _ => decide_not

/-- A removal ends what it concerns. -/
lemma removed_eq_nextLists {ifunc : Option F} {iclass ityp : ℤ}
    (honce : ∀ func ∈ ifunc, iclass = c → (ityp = t ∨ ityp = eventTypeAll) →
      (lists c t).countP (·.func = func) ≤ 1) :
    nextLists (.removeCallback ifunc iclass ityp : Op F D E) lists c t =
      if iclass = c ∧ (ityp = t ∨ ityp = eventTypeAll) then removed ifunc (lists c t)
      else lists c t := by
  by_cases hconcerns : iclass = c ∧ (ityp = t ∨ ityp = eventTypeAll)
  · rw [if_pos hconcerns, removed_of_once fun func hfunc =>
      honce func hfunc hconcerns.1 hconcerns.2]
    refine nextLists_filter rfl fun info _ => ?_
    rw [ends, decide_eq_true hconcerns, Bool.true_and, Bool.not_not]
  · rw [if_neg hconcerns]
    refine nextLists_eq (fun info _ => ?_) rfl
    rw [ends, decide_eq_false hconcerns, Bool.false_and]

theorem removeCallbacks_keeps (h : mgr.Keeps lists) (iclass ityp : ℤ) :
    (removeCallbacks mgr iclass ityp).1.Keeps
      (nextLists (.removeCallbacks iclass ityp : Op F D E) lists) := by
  rw [removeCallbacks]
  by_cases hclass : iclass = eventClassAll
  · rw [if_pos hclass]
    by_cases htyp : ityp = eventTypeAll
    · rw [if_pos htyp]
      have hreset := @resetCallbacks_keeps F D E mgr fun c t htype => by rw [h c t, if_neg htype]
      refine hreset.congr fun c t _ => ?_
      rw [nextLists_filter (p := fun _ => false) rfl fun info _ => ?_, List.filter_false]
      exact decide_eq_true ⟨.inr ⟨hclass, htyp⟩, .inr htyp⟩
    · rw [if_neg htyp]
      refine h.congr fun c t htype => nextLists_eq (fun info _ => decide_eq_false ?_) rfl
      rintro ⟨rfl | ⟨-, hyes⟩, -⟩
      · exact htype.class_ne_all hclass
      · exact htyp hyes
  · rw [if_neg hclass]
    refine (removeCallback_keeps h none iclass ityp).congr fun c t _ => ?_
    rw [← removed_eq_nextLists (E := E) fun func hfunc => by cases hfunc]
    refine congrArg (· ++ []) (List.filter_congr fun info _ => ?_)
    have hiff : ((iclass = c ∨ (iclass = eventClassAll ∧ ityp = eventTypeAll)) ∧
        (ityp = t ∨ ityp = eventTypeAll)) ↔ iclass = c ∧ (ityp = t ∨ ityp = eventTypeAll) :=
      and_congr_left' ⟨fun hor => hor.resolve_right fun hand => hclass hand.1, .inl⟩
    rw [ends, ends, decide_eq_decide.mpr hiff, Option.all_none, Bool.and_true]

def Call.of (ievt : Event E) (info : CbInfo F D) : Call F D E := ⟨info.func, ievt, info.data⟩

omit [DecidableEq F] in
lemma executeList_eq (ievt : Event E) (passed elist : List (CbInfo F D)) :
    executeList ievt elist.length passed elist =
      .ok (passed ++ elist.filter (!·.onetime), elist.map (Call.of ievt)) := by
  induction elist generalizing passed with
  | nil => rfl
  | cons li elist ih =>
      rw [List.length_cons, executeList, ih]
      cases honetime : li.onetime with
      | true =>
          rw [if_pos rfl, List.filter_cons_of_neg (by simp [honetime])]
          rfl
      | false =>
          rw [if_neg Bool.false_ne_true, List.filter_cons_of_pos (by simp [honetime]),
            List.append_assoc]
          rfl

/-- An event runs the list for its class and type, and ends one-time registrations. -/
theorem executeCallbacks_spec (h : mgr.Keeps lists) (ievt : Event E) :
    ∃ mgr', executeCallbacks mgr ievt = .ok (mgr', if HasType ievt.eventClass ievt.typ then
        (lists ievt.eventClass ievt.typ).map (Call.of ievt) else []) ∧
      mgr'.Keeps (nextLists (.addEvent (some ievt)) lists) := by
  have hnone : ¬HasType ievt.eventClass ievt.typ →
      mgr.Keeps (nextLists (.addEvent (some ievt)) lists) := fun hno =>
    h.congr fun c t htype => nextLists_eq (fun info _ => by
      rw [ends, Option.any_some, decide_eq_false, Bool.and_false]
      rintro ⟨rfl, rfl⟩
      exact hno htype) rfl
  rw [executeCallbacks]
  cases hclass : mgr.cbs[ievt.eventClass]? with
  | none =>
      have hno := h.not_class hclass ievt.typ
      exact ⟨mgr, by rw [if_neg hno]; rfl, hnone hno⟩
  | some etypMap =>
      dsimp only
      cases hlist : etypMap[ievt.typ]? with
      | none =>
          have hno := h.not_hasType ((list_of_class hclass).trans hlist)
          exact ⟨mgr, by rw [if_neg hno]; rfl, hnone hno⟩
      | some elist =>
          obtain ⟨htype, helist⟩ := h.eq_some ((list_of_class hclass).trans hlist)
          refine ⟨_, ?_, (h.insert_one hclass hlist (List.filter (!·.onetime))).congr
            fun c t _ => ?_⟩
          · dsimp only
            rw [executeList_eq, if_pos htype, helist]
            rfl
          · by_cases hc : ievt.eventClass = c ∧ ievt.typ = t
            · rw [if_pos hc]
              refine nextLists_filter rfl fun info _ => ?_
              rw [ends, Option.any_some, decide_eq_true hc, Bool.and_true, Bool.not_not]
            · rw [if_neg hc]
              exact nextLists_eq (fun info _ => by
                rw [ends, Option.any_some, decide_eq_false hc, Bool.and_false]) rfl

/-- What an operation calls, given the lists. -/
def callsOf (lists : ℤ → ℤ → List (CbInfo F D)) : Op F D E → List (Call F D E)
  | .addEvent (some ievt) => if HasType ievt.eventClass ievt.typ then
      (lists ievt.eventClass ievt.typ).map (Call.of ievt) else []
  | _ => []

theorem perform_spec (h : mgr.Keeps lists) (honce : FindsOnce mgr op) :
    ∃ mgr' result, perform mgr op = .ok (mgr', result) ∧ mgr'.Keeps (nextLists op lists) ∧
      result.calls = callsOf lists op := by
  cases op with
  | registerCallback iclass ityp ifunc idata once =>
      exact ⟨_, _, rfl, registerCallback_keeps h iclass ityp ifunc idata once, rfl⟩
  | removeCallback ifunc iclass ityp =>
      refine ⟨_, _, rfl, (removeCallback_keeps h ifunc iclass ityp).congr fun c t htype => ?_, rfl⟩
      refine removed_eq_nextLists fun func hfunc hclass htyp => ?_
      cases hfunc
      exact honce t _ htyp (by rw [hclass, h c t, if_pos htype])
  | removeCallbacks iclass ityp => exact ⟨_, _, rfl, removeCallbacks_keeps h iclass ityp, rfl⟩
  | addEvent ievt =>
      cases ievt with
      | none =>
          refine ⟨mgr, ⟨false, []⟩, rfl, h.congr fun c t _ => nextLists_eq (fun info _ => ?_) rfl, rfl⟩
          rw [ends, Option.any_none, Bool.and_false]
      | some ievt =>
          have hpushed : ({ mgr with evts := mgr.evts ++ [ievt] } : EventMgr F D E).Keeps lists := h
          obtain ⟨mgr', hexecute, hmgr'⟩ := executeCallbacks_spec hpushed ievt
          refine ⟨mgr', ⟨true, _⟩, ?_, hmgr', rfl⟩
          rw [perform, addEvent]
          dsimp only
          rw [hexecute]
          rfl

/-- In all steps of a run a function that is removed is found at most once in each list. -/
def RemovesOnce (mgr : EventMgr F D E) : List (Op F D E) → Prop
  | [] => True
  | op :: ops => FindsOnce mgr op ∧
      ∀ mgr' result, perform mgr op = .ok (mgr', result) → RemovesOnce mgr' ops

/-- What an operation of a history should call. -/
def expected (ops : List (Op F D E)) (n : ℕ) : Op F D E → List (Call F D E)
  | .addEvent (some ievt) =>
      (registered ops n ievt.eventClass ievt.typ).map fun r => Call.of ievt r.2
  | _ => []

/-- The registrations before an operation, as lists. -/
def registeredLists (ops : List (Op F D E)) (n : ℕ) (c t : ℤ) : List (CbInfo F D) :=
  (registered ops n c t).map Prod.snd

lemma registeredLists_succ (hop : ops[n]? = some op) :
    registeredLists ops (n + 1) = nextLists op (registeredLists ops n) := by
  funext c t
  rw [registeredLists, registered_succ hop, List.map_append, nextLists, registeredLists,
    List.filter_map]
  cases entry op c t <;> rfl

lemma registered_eq_nil (htype : ¬HasType c t) : registered ops n c t = [] := by
  rw [List.eq_nil_iff_forall_not_mem]
  rintro ⟨i, info⟩ hmem
  obtain ⟨-, ⟨op, -, hentry⟩, -⟩ := mem_registered.mp hmem
  unfold entry at hentry
  split at hentry
  · rw [if_neg fun hand => htype hand.1] at hentry
    cases hentry
  · cases hentry

lemma callsOf_registeredLists : callsOf (registeredLists ops n) op = expected ops n op := by
  unfold callsOf
  split
  · rw [registeredLists, expected, List.map_map]
    split_ifs with htype
    · rfl
    · rw [registered_eq_nil htype]
      rfl
  · next hne =>
    unfold expected
    split
    · exact absurd rfl (hne _)
    · rfl

/-- The operations behind a state that keeps the registrations call what they should. -/
theorem run_spec {rest : List (Op F D E)} (hrest : ops.drop n = rest)
    (h : mgr.Keeps (registeredLists ops n)) (honce : RemovesOnce mgr rest) :
    ∃ mgr' results, run mgr rest = .ok (mgr', results) ∧ results.length = rest.length ∧
      ∀ (k : ℕ) (op : Op F D E), rest[k]? = some op → ∃ result, results[k]? = some result ∧
        result.calls = expected ops (n + k) op := by
  induction rest generalizing n mgr with
  | nil => exact ⟨mgr, [], rfl, rfl, fun k op hop => by cases hop⟩
  | cons op rest ih =>
      have hop : ops[n]? = some op := by
        rw [← List.head?_drop, hrest]
        rfl
      have hdrop : ops.drop (n + 1) = rest := by
        rw [← List.tail_drop, hrest]
        rfl
      obtain ⟨mgr₁, result, hperform, hkeeps, hcalls⟩ := perform_spec h honce.1
      rw [← registeredLists_succ hop] at hkeeps
      obtain ⟨mgr', results, hrun, hlength, hresults⟩ :=
        ih hdrop hkeeps (honce.2 mgr₁ result hperform)
      refine ⟨mgr', result :: results, ?_, congrArg (· + 1) hlength, fun k op' hop' => ?_⟩
      · rw [run, hperform]
        change run mgr₁ rest >>= _ = _
        rw [hrun]
        rfl
      · cases k with
        | zero =>
            cases hop'
            exact ⟨result, rfl, hcalls.trans callsOf_registeredLists⟩
        | succ k =>
            obtain ⟨result', hresult', hcalls'⟩ := hresults k op' hop'
            exact ⟨result', hresult', by rw [hcalls', Nat.add_right_comm, Nat.add_assoc]⟩

/-- A function is registered for a class and type between two operations. -/
def RegisteredBetween (ops : List (Op F D E)) (j n : ℕ) (c t : ℤ) (func : F) : Prop :=
  ∃ i op info, j < i ∧ i < n ∧ ops[i]? = some op ∧ entry op c t = some info ∧ info.func = func

/-- The functions run exactly as they are registered. -/
structure AsRegistered (ops : List (Op F D E)) (results : List (Result F D E)) : Prop where
  length : results.length = ops.length
  /-- Each event runs the registrations for its class and type, and nothing else runs. -/
  calls : ∀ (n : ℕ) op, ops[n]? = some op →
    ∃ result, results[n]? = some result ∧ result.calls = expected ops n op
  /-- They run once each in their order. -/
  order : ∀ n c t, (registered ops n c t).Pairwise fun a b => a.1 < b.1
  /-- No two events run a one-time registration. -/
  once : ∀ (n n' : ℕ) ievt ievt' r, ops[n]? = some (.addEvent (some ievt)) →
    ops[n']? = some (.addEvent (some ievt')) → r.2.onetime = true →
      r ∈ registered ops n ievt.eventClass ievt.typ →
        r ∈ registered ops n' ievt'.eventClass ievt'.typ → n = n'
  /-- A function that was removed does not run until it is registered again. -/
  removed : ∀ (j n : ℕ) func iclass ityp result ievt result', j < n →
    ops[j]? = some (.removeCallback (some func) iclass ityp) → results[j]? = some result →
      result.returned = true → ops[n]? = some (.addEvent (some ievt)) →
        iclass = ievt.eventClass → (ityp = ievt.typ ∨ ityp = eventTypeAll) →
          ¬RegisteredBetween ops j n ievt.eventClass ievt.typ func →
            results[n]? = some result' → ∀ call ∈ result'.calls, call.func ≠ func

omit [DecidableEq F] in
/-- A one-time function is registered for one class and type. -/
lemma entry_onetime {info : CbInfo F D} {c' t' : ℤ} (h : entry op c t = some info)
    (h' : entry op c' t' = some info) (honetime : info.onetime = true) : c = c' ∧ t = t' := by
  unfold entry at h h'
  split at h
  · next iclass ityp ifunc idata once =>
    dsimp only at h'
    split_ifs at h with hand
    split_ifs at h' with hand'
    cases h
    obtain ⟨-, rfl, htyp⟩ := hand
    obtain ⟨-, rfl, htyp'⟩ := hand'
    have htrue : ¬once = false := ne_false_of_eq_true honetime
    exact ⟨rfl, (htyp.resolve_right fun hor => htrue hor.2).symm.trans
      (htyp'.resolve_right fun hor => htrue hor.2)⟩
  · cases h

/-- An event that runs a one-time registration is the last one to do so. -/
lemma registered_once {n n' : ℕ} {ievt ievt' : Event E} {r : ℕ × CbInfo F D}
    (hn : ops[n]? = some (.addEvent (some ievt))) (honetime : r.2.onetime = true)
    (hr : r ∈ registered ops n ievt.eventClass ievt.typ)
    (hr' : r ∈ registered ops n' ievt'.eventClass ievt'.typ) : ¬n < n' := by
  intro hlt
  obtain ⟨hi, ⟨op, hop, hentry⟩, -⟩ := mem_registered.mp hr
  obtain ⟨-, ⟨op', hop', hentry'⟩, hlasts⟩ := mem_registered.mp hr'
  rw [hop] at hop'
  cases hop'
  obtain ⟨hclass, htyp⟩ := entry_onetime hentry hentry' honetime
  have hends := hlasts n hlt hi _ hn
  rw [ends, honetime, Option.any_some, decide_eq_true ⟨hclass, htyp⟩] at hends
  cases hends

/-- A removed function is in no registration that was made before. -/
lemma registered_removed {j i : ℕ} {func : F} {iclass ityp : ℤ} {info : CbInfo F D}
    (hj : ops[j]? = some (.removeCallback (some func) iclass ityp)) (hjn : j < n)
    (hclass : iclass = c) (htyp : ityp = t ∨ ityp = eventTypeAll)
    (hr : (i, info) ∈ registered ops n c t) (hfunc : info.func = func) : j < i := by
  obtain ⟨hi, ⟨op, hop, hentry⟩, hlasts⟩ := mem_registered.mp hr
  rcases Nat.lt_trichotomy i j with hlt | rfl | hlt
  · have hends := hlasts j hjn hlt _ hj
    rw [ends, decide_eq_true ⟨hclass, htyp⟩, Option.all_some, decide_eq_true hfunc] at hends
    cases hends
  · rw [hj] at hop
    cases hop
    cases hentry
  · exact hlt

/-- In every run in which a function that is removed is found at most once in each list, functions
run exactly as they are registered. -/
theorem callbacks_as_registered (ops : List (Op F D E)) (honce : RemovesOnce newEventMgr ops) :
    ∃ mgr results, run newEventMgr ops = .ok (mgr, results) ∧ AsRegistered ops results := by
  have hkeeps : (newEventMgr : EventMgr F D E).Keeps (registeredLists ops 0) := newEventMgr_keeps
  obtain ⟨mgr, results, hrun, hlength, hresults⟩ := run_spec (List.drop_zero) hkeeps honce
  simp only [Nat.zero_add] at hresults
  refine ⟨mgr, results, hrun, hlength, hresults, registered_order ops, ?_, ?_⟩
  · intro n n' ievt ievt' r hn hn' honetime hr hr'
    exact le_antisymm (not_lt.mp (registered_once hn' honetime hr' hr))
      (not_lt.mp (registered_once hn honetime hr hr'))
  · intro j n func iclass ityp result ievt result' hjn hj _ _ hn hclass htyp hagain hresult' call hcall
    obtain ⟨result'', hresult'', hcalls⟩ := hresults n _ hn
    rw [hresult'] at hresult''
    cases hresult''
    rw [hcalls] at hcall
    obtain ⟨⟨i, info⟩, hr, rfl⟩ := List.mem_map.mp hcall
    intro hfunc
    obtain ⟨hi, ⟨op, hop, hentry⟩, -⟩ := mem_registered.mp hr
    exact hagain ⟨i, op, info, registered_removed hj hjn hclass htyp hr hfunc, hi, hop, hentry, hfunc⟩

/-- A function is registered, runs, and is removed. -/
def singleUse : List (Op ℕ ℕ ℕ) :=
  [.registerCallback dataEvent eventTypeAll (some 7) 1 false,
    .addEvent (some ⟨dataEvent, 0, 5⟩), .removeCallback (some 7) dataEvent 0]

theorem callbacks_as_registered_singleUse : ∃ mgr results,
    run newEventMgr singleUse = .ok (mgr, results) ∧ AsRegistered singleUse results := by
  refine callbacks_as_registered singleUse ⟨trivial, fun mgr₁ result₁ h₁ => ⟨trivial,
    fun mgr₂ result₂ h₂ => ⟨fun t elist htyp hlist => ?_, fun _ _ _ => trivial⟩⟩⟩
  obtain ⟨rfl, -⟩ := Prod.mk.inj (Except.ok.inj h₁)
  obtain ⟨rfl, -⟩ := Prod.mk.inj (Except.ok.inj h₂)
  obtain rfl := htyp.resolve_right (by decide)
  obtain rfl := Option.some.inj hlist
  decide

/-- A function is registered twice and removed once. -/
def doubleUse : List (Op ℕ ℕ ℕ) :=
  [.registerCallback dataEvent 0 (some 7) 1 false, .registerCallback dataEvent 0 (some 7) 1 false,
    .removeCallback (some 7) dataEvent 0, .addEvent (some ⟨dataEvent, 0, 5⟩)]

/-- It still runs. -/
theorem callbacks_not_as_registered : ¬∀ ops : List (Op ℕ ℕ ℕ),
    ∃ mgr results, run newEventMgr ops = .ok (mgr, results) ∧ AsRegistered ops results := by
  intro hregistered
  obtain ⟨mgr, results, hrun, has⟩ := hregistered doubleUse
  have hresults : (run newEventMgr doubleUse).map (·.2) = .ok [⟨true, []⟩, ⟨true, []⟩, ⟨true, []⟩,
      ⟨true, [⟨7, ⟨dataEvent, 0, 5⟩, 1⟩]⟩] := rfl
  rw [hrun] at hresults
  cases hresults
  refine has.removed 2 3 7 dataEvent 0 _ _ _ (by decide) rfl rfl rfl rfl rfl (.inl rfl) ?_ rfl _
    List.mem_cons_self rfl
  rintro ⟨i, -, -, hlt, hlt', -⟩
  omega

end MRNet.Events
