import MRNet.EventMgr

/-!
# Callbacks run as registered

The history of operations says which registrations there are for the events of a class and type:
those that no later operation ended. Events run these in their order, in every run in which a
function is found at most once in each list from which it is removed.
-/
namespace MRNet.Events
open Codec (Outcome Stop Fault)
open Std (TreeMap)

variable {F D E : Type} {mgr mgr' : EventMgr F D E} {ops : List (Op F D E)}
  {op : Op F D E} {info : CbInfo F D} {c t : ℤ} {n : ℕ}

/-- The types of events that there are. -/
def HasType (c t : ℤ) : Prop :=
  (c = dataEvent ∧ dataTypes.minType ≤ t ∧ t ≤ dataTypes.maxType) ∨
    (c = errorEvent ∧ errorTypes.minType ≤ t ∧ t ≤ errorTypes.maxType) ∨
      (c = topologyEvent ∧ topologyTypes.minType ≤ t ∧ t ≤ topologyTypes.maxType)

instance : Decidable (HasType c t) := inferInstanceAs (Decidable (_ ∨ _))

lemma HasType.ne_all (h : HasType c t) : t ≠ eventTypeAll := by
  rintro rfl
  rcases h with ⟨-, h, -⟩ | ⟨-, h, -⟩ | ⟨-, h, -⟩ <;> exact absurd h (by decide)

lemma HasType.class_ne_all (h : HasType c t) : c ≠ eventClassAll := by
  rintro rfl
  rcases h with ⟨h, -⟩ | ⟨h, -⟩ | ⟨h, -⟩ <;> exact absurd h (by decide)

section Registrations
variable [DecidableEq F]

/-- The entry that an operation registers for the events of a class and type. -/
def entry (op : Op F D E) (c t : ℤ) : Option (CbInfo F D) :=
  match op with
  | .registerCallback iclass ityp (some ifunc) idata once =>
      if HasType c t ∧ iclass = c ∧ (ityp = t ∨ (ityp = eventTypeAll ∧ once = false)) then
        some ⟨ifunc, idata, once⟩
      else none
  | _ => none

/-- An operation ends a registration for the events of a class and type: it removes the function or
all, or it runs a one-time function. -/
def ends (op : Op F D E) (c t : ℤ) (info : CbInfo F D) : Bool :=
  match op with
  | .removeCallback ifunc iclass ityp =>
      decide (iclass = c ∧ (ityp = t ∨ ityp = eventTypeAll)) && ifunc.all (info.func = ·)
  | .removeCallbacks iclass ityp =>
      decide ((iclass = c ∨ (iclass = eventClassAll ∧ ityp = eventTypeAll)) ∧
        (ityp = t ∨ ityp = eventTypeAll))
  | .addEvent ievt => info.onetime && ievt.any fun ev => ev.eventClass = c ∧ ev.typ = t
  | _ => false

/-- No operation behind the registration ended it. -/
def Lasts (ops : List (Op F D E)) (n i : ℕ) (c t : ℤ) (info : CbInfo F D) :
    Prop :=
  ∀ j < n, i < j → ∀ later ∈ ops[j]?, ends later c t info = false

instance {i : ℕ} : Decidable (Lasts ops n i c t info) :=
  inferInstanceAs (Decidable (∀ j < n, i < j → ∀ later ∈ ops[j]?, ends later c t info = false))

lemma lasts_succ {i : ℕ} (hop : ops[n]? = some op) (hlt : i < n) :
    Lasts ops (n + 1) i c t info ↔ Lasts ops n i c t info ∧ ends op c t info = false := by
  constructor
  · exact fun h => ⟨fun j hj => h j (Nat.lt_succ_of_lt hj), h n (Nat.lt_succ_self n) hlt op hop⟩
  · rintro ⟨h, hend⟩ j hj hij later hlater
    rcases Nat.lt_succ_iff_lt_or_eq.mp hj with hj | rfl
    · exact h j hj hij later hlater
    · rw [hop] at hlater
      cases hlater
      exact hend

/-- The registration with a number, if it is one and lasts. -/
def lastingEntry (ops : List (Op F D E)) (n : ℕ) (c t : ℤ) (i : ℕ) :
    Option (ℕ × CbInfo F D) :=
  match ops[i]?.bind (entry · c t) with
  | none => none
  | some info => if Lasts ops n i c t info then some (i, info) else none

lemma lastingEntry_eq_some_iff {i : ℕ} {r : ℕ × CbInfo F D} :
    lastingEntry ops n c t i = some r ↔
      r.1 = i ∧ (∃ op, ops[i]? = some op ∧ entry op c t = some r.2) ∧ Lasts ops n i c t r.2 := by
  rw [← Option.bind_eq_some_iff, lastingEntry]
  cases ops[i]?.bind (entry · c t) with
  | none => simp
  | some info =>
      constructor
      · intro h
        dsimp only at h
        split_ifs at h with hlasts
        cases h
        exact ⟨rfl, rfl, hlasts⟩
      · obtain ⟨j, info'⟩ := r
        rintro ⟨rfl, hinfo, hlasts⟩
        cases hinfo
        exact if_pos hlasts

/-- The registrations for a class and type before an operation, with their numbers. -/
def registered (ops : List (Op F D E)) (n : ℕ) (c t : ℤ) :
    List (ℕ × CbInfo F D) :=
  (List.range n).filterMap (lastingEntry ops n c t)

theorem mem_registered {i : ℕ} : (i, info) ∈ registered ops n c t ↔
    i < n ∧ (∃ op, ops[i]? = some op ∧ entry op c t = some info) ∧ Lasts ops n i c t info := by
  rw [registered, List.mem_filterMap]
  constructor
  · rintro ⟨i', hi', h⟩
    obtain ⟨rfl, hentry, hlasts⟩ := lastingEntry_eq_some_iff.mp h
    exact ⟨List.mem_range.mp hi', hentry, hlasts⟩
  · rintro ⟨hi, hentry, hlasts⟩
    exact ⟨i, List.mem_range.mpr hi, lastingEntry_eq_some_iff.mpr ⟨rfl, hentry, hlasts⟩⟩

/-- Registrations stand in their order, each once. -/
theorem registered_order (ops : List (Op F D E)) (n : ℕ) (c t : ℤ) :
    (registered ops n c t).Pairwise fun a b => a.1 < b.1 := by
  rw [registered, List.pairwise_filterMap]
  refine List.pairwise_lt_range.imp fun {i j} hlt a ha b hb => ?_
  rw [(lastingEntry_eq_some_iff.mp ha).1, (lastingEntry_eq_some_iff.mp hb).1]
  exact hlt

/-- What an operation changes. -/
theorem registered_succ (hop : ops[n]? = some op) : registered ops (n + 1) c t =
    (registered ops n c t).filter (fun r => !ends op c t r.2) ++
      ((entry op c t).map (n, ·)).toList := by
  rw [registered, List.range_succ, List.filterMap_append, registered, List.filter_filterMap]
  congr 1
  · refine List.filterMap_congr fun i hi => Option.ext fun r => ?_
    rw [Option.filter_eq_some_iff, lastingEntry_eq_some_iff, lastingEntry_eq_some_iff,
      lasts_succ hop (List.mem_range.mp hi), Bool.not_eq_true', and_assoc, and_assoc]
  · rw [List.filterMap_cons, lastingEntry, hop, Option.bind_some]
    cases entry op c t with
    | none => rfl
    | some info =>
        have hlasts : Lasts ops (n + 1) n c t info := fun j hj hnj => absurd hj (by omega)
        dsimp only
        rw [if_pos hlasts]
        rfl

end Registrations

lemma getElem?_insert_int {β : Type} (m : TreeMap ℤ β) (k a : ℤ) (v : β) :
    (m.insert k v)[a]? = if k = a then some v else m[a]? := by
  rw [TreeMap.getElem?_insert]
  exact if_congr Std.LawfulEqCmp.compare_eq_iff_eq rfl rfl

/-- The list that is kept for a class and type. -/
def EventMgr.list (mgr : EventMgr F D E) (c t : ℤ) : Option (List (CbInfo F D)) :=
  mgr.cbs[c]?.bind (·[t]?)

/-- There is a list for each type of events, and it is the given one. -/
def EventMgr.Keeps (mgr : EventMgr F D E) (lists : ℤ → ℤ → List (CbInfo F D)) :
    Prop :=
  ∀ c t, mgr.list c t = if HasType c t then some (lists c t) else none

lemma list_insert (mgr : EventMgr F D E) (k : ℤ) (m : TypCbMap F D) :
    ({ mgr with cbs := mgr.cbs.insert k m } : EventMgr F D E).list c t =
      if k = c then m[t]? else mgr.list c t := by
  rw [EventMgr.list, getElem?_insert_int]
  split_ifs <;> rfl

lemma list_of_class {m : TypCbMap F D} (h : mgr.cbs[c]? = some m) : mgr.list c t = m[t]? := by
  rw [EventMgr.list, h]
  rfl

variable {lists : ℤ → ℤ → List (CbInfo F D)}

lemma EventMgr.Keeps.congr {lists' : ℤ → ℤ → List (CbInfo F D)} (h : mgr.Keeps lists)
    (hsame : ∀ c t, HasType c t → lists' c t = lists c t) : mgr.Keeps lists' := by
  intro c t
  rw [h c t]
  by_cases htype : HasType c t
  · rw [if_pos htype, if_pos htype, hsame c t htype]
  · rw [if_neg htype, if_neg htype]

lemma EventMgr.Keeps.hasType_iff (h : mgr.Keeps lists) : HasType c t ↔ (mgr.list c t).isSome := by
  rw [h c t]
  split_ifs with htype <;> simp [htype]

lemma EventMgr.Keeps.eq_some (h : mgr.Keeps lists) {elist : List (CbInfo F D)}
    (hlist : mgr.list c t = some elist) : HasType c t ∧ lists c t = elist := by
  have htype := h.hasType_iff.mpr (hlist ▸ rfl : (mgr.list c t).isSome)
  rw [h c t, if_pos htype] at hlist
  exact ⟨htype, Option.some.inj hlist⟩

lemma EventMgr.Keeps.not_hasType (h : mgr.Keeps lists) (hlist : mgr.list c t = none) :
    ¬HasType c t := by
  rw [h.hasType_iff, hlist]
  exact Bool.false_ne_true

/-- A class that is not found has no types. -/
lemma EventMgr.Keeps.not_class (h : mgr.Keeps lists) (hclass : mgr.cbs[c]? = none) (t : ℤ) :
    ¬HasType c t :=
  h.not_hasType (by rw [EventMgr.list, hclass, Option.bind_none])

/-- Lists of one class are set anew. -/
lemma EventMgr.Keeps.insert (h : mgr.Keeps lists) {k : ℤ} {m m' : TypCbMap F D}
    (hclass : mgr.cbs[k]? = some m) {f : ℤ → List (CbInfo F D) → List (CbInfo F D)}
    (hset : ∀ t, m'[t]? = m[t]?.map (f t)) :
    ({ mgr with cbs := mgr.cbs.insert k m' } : EventMgr F D E).Keeps fun c t =>
      if k = c then f t (lists c t) else lists c t := by
  intro c t
  rw [list_insert]
  by_cases hk : k = c
  · subst hk
    simp only [if_true]
    rw [hset, ← list_of_class hclass, h k t]
    split_ifs <;> rfl
  · simp only [if_neg hk]
    exact h c t

/-- The list of one type is set anew. -/
lemma EventMgr.Keeps.insert_one (h : mgr.Keeps lists) {k u : ℤ} {m : TypCbMap F D}
    {elist : List (CbInfo F D)} (hclass : mgr.cbs[k]? = some m) (hlist : m[u]? = some elist)
    (g : List (CbInfo F D) → List (CbInfo F D)) :
    ({ mgr with cbs := mgr.cbs.insert k (m.insert u (g elist)) } : EventMgr F D E).Keeps
      fun c t => if k = c ∧ u = t then g (lists c t) else lists c t := by
  have hset : ∀ t, (m.insert u (g elist))[t]? =
      m[t]?.map fun elist => if u = t then g elist else elist := by
    intro t
    rw [getElem?_insert_int]
    by_cases ht : u = t
    · subst ht
      simp only [if_true, hlist, Option.map_some]
    · simp only [if_neg ht, Option.map_id']
  refine (h.insert hclass hset).congr fun c t _ => ?_
  by_cases hc : k = c
  · rw [if_pos hc]
    exact if_congr (and_iff_right hc) rfl rfl
  · rw [if_neg hc, if_neg fun hand => hc hand.1]

lemma getElem?_emptyLists (m : TypCbMap F D) (types : TypeRange) :
    (emptyLists m types)[t]? =
      if types.minType ≤ t ∧ t ≤ types.maxType then some [] else m[t]? := by
  have hloop : ∀ k : ℕ, ((List.range k).foldl
      (fun typeMap (u : ℕ) => typeMap.insert (types.minType + u) []) m)[t]? =
        if types.minType ≤ t ∧ t < types.minType + k then some [] else m[t]? := by
    intro k
    induction k with
    | zero => rw [if_neg (by omega)]; rfl
    | succ k ih =>
        rw [List.range_succ, List.foldl_append, List.foldl_cons, List.foldl_nil,
          getElem?_insert_int, ih]
        by_cases hk : types.minType + k = t
        · rw [if_pos hk, if_pos (by omega)]
        · rw [if_neg hk]
          exact if_congr (by omega) rfl rfl
  rw [emptyLists, hloop]
  exact if_congr (by omega) rfl rfl

lemma list_resetClass (mgr : EventMgr F D E) (k : ℤ) (types : TypeRange) :
    ({ mgr with cbs := resetClass mgr.cbs k types } : EventMgr F D E).list c t =
      if k = c ∧ types.minType ≤ t ∧ t ≤ types.maxType then some [] else mgr.list c t := by
  rw [resetClass, list_insert, getElem?_emptyLists]
  by_cases hk : k = c
  · subst hk
    rw [if_pos rfl, TreeMap.getD_eq_getD_getElem?]
    refine if_congr (by simp) rfl ?_
    rw [EventMgr.list]
    cases mgr.cbs[k]? with
    | none => exact TreeMap.getElem?_emptyc
    | some m => rfl
  · rw [if_neg hk, if_neg fun hand => hk hand.1]

/-- All lists are empty after a reset. -/
theorem resetCallbacks_keeps (h : ∀ c t, ¬HasType c t → mgr.list c t = none) :
    (resetCallbacks mgr).Keeps fun _ _ => [] := by
  intro c t
  have hlist : (resetCallbacks mgr).list c t = _ :=
    (list_resetClass { mgr with cbs := _ } topologyEvent topologyTypes).trans
      (congrArg (ite _ _) ((list_resetClass { mgr with cbs := _ } errorEvent errorTypes).trans
        (congrArg (ite _ _) (list_resetClass mgr dataEvent dataTypes))))
  rw [hlist]
  by_cases htype : HasType c t
  · rw [if_pos htype]
    unfold HasType at htype
    split_ifs with h₁ h₂ h₃
    all_goals first
      | rfl
      | exfalso; omega
  · rw [if_neg htype, ← h c t htype]
    unfold HasType at htype
    rw [if_neg (by omega), if_neg (by omega), if_neg (by omega)]

lemma newEventMgr_keeps : (newEventMgr : EventMgr F D E).Keeps fun _ _ => [] :=
  resetCallbacks_keeps fun _ _ _ => by rw [EventMgr.list, TreeMap.getElem?_emptyc, Option.bind_none]

section Operations
variable [DecidableEq F]

/-- What the lists are after an operation. -/
def nextLists (op : Op F D E) (lists : ℤ → ℤ → List (CbInfo F D)) (c t : ℤ) : List (CbInfo F D) :=
  (lists c t).filter (fun info => !ends op c t info) ++ (entry op c t).toList

lemma nextLists_eq (hends : ∀ info ∈ lists c t, ends op c t info = false)
    (hentry : entry op c t = none) : nextLists op lists c t = lists c t := by
  rw [nextLists, hentry, List.filter_eq_self.mpr fun info hinfo => by rw [hends info hinfo]; rfl]
  exact List.append_nil _

lemma nextLists_filter (hentry : entry op c t = none) {p : CbInfo F D → Bool}
    (hends : ∀ info ∈ lists c t, ends op c t info = !p info) :
    nextLists op lists c t = (lists c t).filter p := by
  rw [nextLists, hentry, List.filter_congr fun info hinfo => by rw [hends info hinfo, Bool.not_not]]
  exact List.append_nil _

theorem registerCallback_keeps (h : mgr.Keeps lists) (iclass ityp : ℤ) (ifunc : Option F)
    (idata : D) (once : Bool) : (registerCallback mgr iclass ityp ifunc idata once).1.Keeps
      (nextLists (.registerCallback iclass ityp ifunc idata once : Op F D E) lists) := by
  have hnone (hrefused : ∀ c t, HasType c t →
      entry (.registerCallback iclass ityp ifunc idata once : Op F D E) c t = none) :
      mgr.Keeps (nextLists (.registerCallback iclass ityp ifunc idata once : Op F D E) lists) :=
    h.congr fun c t htype => nextLists_eq (fun _ _ => rfl) (hrefused c t htype)
  cases ifunc with
  | none => exact hnone fun _ _ _ => rfl
  | some ifunc =>
      have hnext : ∀ c t, nextLists
          (.registerCallback iclass ityp (some ifunc) idata once : Op F D E) lists c t =
            lists c t ++ (entry (.registerCallback iclass ityp (some ifunc) idata once : Op F D E)
              c t).toList := fun c t => congrArg (· ++ _) (List.filter_eq_self.mpr fun _ _ => rfl)
      unfold registerCallback
      dsimp only
      by_cases hall : once = true ∧ ityp = eventTypeAll
      · rw [if_pos hall]
        refine hnone fun c t htype => if_neg ?_
        rintro ⟨-, -, rfl | ⟨-, hfalse⟩⟩
        · exact htype.ne_all hall.2
        · rw [hall.1] at hfalse
          cases hfalse
      rw [if_neg hall]
      cases hclass : mgr.cbs[iclass]? with
      | none =>
          refine hnone fun c t htype => if_neg ?_
          rintro ⟨-, rfl, -⟩
          exact h.not_class hclass t htype
      | some insMap =>
          dsimp only
          by_cases htyp : ityp = eventTypeAll
          · rw [if_pos htyp]
            have honce : once = false := Bool.eq_false_iff.mpr fun honce => hall ⟨honce, htyp⟩
            refine (h.insert hclass fun t => TreeMap.getElem?_map).congr fun c t htype => ?_
            rw [hnext]
            by_cases hc : iclass = c
            · rw [if_pos hc, entry, if_pos ⟨htype, hc, .inr ⟨htyp, honce⟩⟩]
              rfl
            · rw [if_neg hc, entry, if_neg fun hand => hc hand.2.1]
              exact List.append_nil _
          rw [if_neg htyp]
          cases hlist : insMap[ityp]? with
          | none =>
              refine hnone fun c t htype => if_neg ?_
              rintro ⟨-, rfl, rfl | ⟨hyes, -⟩⟩
              · exact h.not_hasType ((list_of_class hclass).trans hlist) htype
              · exact htyp hyes
          | some insList =>
              refine (h.insert_one hclass hlist (· ++ [⟨ifunc, idata, once⟩])).congr
                fun c t htype => ?_
              rw [hnext]
              by_cases hc : iclass = c ∧ ityp = t
              · rw [if_pos hc, entry, if_pos ⟨htype, hc.1, .inl hc.2⟩]
                rfl
              · have hentry : entry (.registerCallback iclass ityp (some ifunc) idata once : Op F D E)
                    c t = none := if_neg fun hand => hc ⟨hand.2.1, hand.2.2.resolve_right fun hor =>
                      htyp hor.1⟩
                rw [hentry, if_neg hc]
                exact List.append_nil _

/-- What is left of a list from which a function or all are removed. -/
def removed (ifunc : Option F) (elist : List (CbInfo F D)) : List (CbInfo F D) :=
  match ifunc with
  | none => []
  | some ifunc => (removeCallbackFunc ifunc elist).1

theorem removeCallback_keeps (h : mgr.Keeps lists) (ifunc : Option F) (iclass ityp : ℤ) :
    (removeCallback mgr ifunc iclass ityp).1.Keeps fun c t =>
      if iclass = c ∧ (ityp = t ∨ ityp = eventTypeAll) then removed ifunc (lists c t)
      else lists c t := by
  unfold removeCallback
  cases hclass : mgr.cbs[iclass]? with
  | none =>
      refine h.congr fun c t htype => if_neg ?_
      rintro ⟨rfl, -⟩
      exact h.not_class hclass t htype
  | some rmMap =>
      dsimp only
      by_cases htyp : ityp = eventTypeAll
      · have hset : ∀ rmMap' : TypCbMap F D,
            (∀ t, rmMap'[t]? = rmMap[t]?.map (removed ifunc)) →
            ({ mgr with cbs := mgr.cbs.insert iclass rmMap' } : EventMgr F D E).Keeps fun c t =>
              if iclass = c ∧ (ityp = t ∨ ityp = eventTypeAll) then removed ifunc (lists c t)
              else lists c t := fun rmMap' hmap => (h.insert hclass hmap).congr fun c t _ =>
                if_congr (and_iff_left (.inr htyp)) rfl rfl
        rw [if_pos htyp]
        cases ifunc with
        | none => exact hset _ fun t => TreeMap.getElem?_map
        | some ifunc => exact hset _ fun t => TreeMap.getElem?_map
      rw [if_neg htyp]
      cases hlist : rmMap[ityp]? with
      | none =>
          refine h.congr fun c t htype => if_neg ?_
          rintro ⟨rfl, rfl | hyes⟩
          · exact h.not_hasType ((list_of_class hclass).trans hlist) htype
          · exact htyp hyes
      | some elist =>
          have hset : ({ mgr with
              cbs := mgr.cbs.insert iclass (rmMap.insert ityp (removed ifunc elist)) } :
                EventMgr F D E).Keeps fun c t =>
                if iclass = c ∧ (ityp = t ∨ ityp = eventTypeAll) then removed ifunc (lists c t)
                else lists c t := by
            refine (h.insert_one hclass hlist (removed ifunc)).congr fun c t _ => ?_
            exact if_congr (and_congr_right fun _ => or_iff_left htyp) rfl rfl
          cases ifunc with
          | none => exact hset
          | some ifunc => exact hset

end Operations

end MRNet.Events
