import MRNet.TimeKeeper

/-!
# Runs of the time keeper

Over every sequence of calls, the time keeper reports a timer at the notification with which the
time since its registration reaches its timeout, and knows the least time that is left.
-/
namespace MRNet.Timers
open TimeKeeper

/-- A timeout is positive, and an `int` holds it. -/
structure Timeout where
  ms : BitVec 32
  pos : 0 < ms.toNat
  lt : ms.toNat < 2 ^ 31

inductive Call where
  | registerTimeout (strmId : StreamId) (timeout : Timeout)
  | clearTimeout (strmId : StreamId)
  | notifyElapsed (elapsedMs : BitVec 32)

/-- The time that is notified. -/
def Call.elapsed : Call → ℕ
  | .notifyElapsed elapsedMs => elapsedMs.toNat
  | _ => 0

def elapsed (calls : List Call) : ℕ := (calls.map Call.elapsed).sum

section Runs

variable (defaultMs : BitVec 32)

def TimeKeeper.call (tk : TimeKeeper) : Call → TimeKeeper
  | .registerTimeout strmId timeout => (tk.registerTimeout strmId timeout.ms).1
  | .clearTimeout strmId => (tk.clearTimeout defaultMs strmId).1
  | .notifyElapsed elapsedMs => (tk.notifyElapsedFrom defaultMs elapsedMs).1

/-- The time keeper after some calls. -/
def after (calls : List Call) : TimeKeeper :=
  calls.foldl (TimeKeeper.call defaultMs) ⟨defaultMs, []⟩

/-- A registration after some calls succeeds. -/
def registers (calls : List Call) (strmId : StreamId) (timeout : Timeout) : Bool :=
  ((after defaultMs calls).registerTimeout strmId timeout.ms).2

/-- The streams that a notification after some calls reports. -/
def reports (calls : List Call) (elapsedMs : BitVec 32) : List StreamId :=
  ((after defaultMs calls).notifyElapsedFrom defaultMs elapsedMs).2

/-- A registration that was successful, was not cleared and has not reached its timeout, with
the calls before it and since. -/
structure Pending (calls : List Call) (strmId : StreamId) (timeout : Timeout)
    (before since : List Call) : Prop where
  calls_eq : calls = before ++ .registerTimeout strmId timeout :: since
  registered : registers defaultMs before strmId timeout = true
  notCleared : .clearTimeout strmId ∉ since
  notElapsed : elapsed since < timeout.ms.toNat

end Runs

namespace TimeKeeper

/-- The keys of a map are distinct, and its timers run. -/
structure Ordered (tk : TimeKeeper) : Prop where
  nodup : (tk.strmTimeouts.map Prod.fst).Nodup
  range : ∀ entry ∈ tk.strmTimeouts, 0 < entry.2.toNat ∧ entry.2.toNat < 2 ^ 31

lemma elapse_left (elapsedMs : BitVec 32) (entries : List (StreamId × BitVec 32))
    (newMinTo : BitVec 32) :
    (elapse elapsedMs entries newMinTo).1 =
      (entries.filter fun entry => ¬entry.2 ≤ elapsedMs).map fun entry =>
        (entry.1, entry.2 - elapsedMs) := by
  induction entries generalizing newMinTo with
  | nil => rfl
  | cons entry entries ih =>
      rw [elapse]
      by_cases hle : entry.2 ≤ elapsedMs
      · rw [if_pos hle, List.filter_cons_of_neg (by simpa using hle)]
        exact ih newMinTo
      · rw [if_neg hle, List.filter_cons_of_pos (by simpa using hle), List.map_cons]
        exact congrArg _ (ih _)

lemma elapse_expired (elapsedMs : BitVec 32) (entries : List (StreamId × BitVec 32))
    (newMinTo : BitVec 32) :
    (elapse elapsedMs entries newMinTo).2.2 =
      (entries.filter fun entry => entry.2 ≤ elapsedMs).map Prod.fst := by
  induction entries generalizing newMinTo with
  | nil => rfl
  | cons entry entries ih =>
      rw [elapse]
      by_cases hle : entry.2 ≤ elapsedMs
      · rw [if_pos hle, List.filter_cons_of_pos (by simpa using hle), List.map_cons]
        exact congrArg _ (ih newMinTo)
      · rw [if_neg hle, List.filter_cons_of_neg (by simpa using hle)]
        exact ih _

/-- What is left of the timers, as the loop compares it. -/
def timesLeft (entries : List (StreamId × BitVec 32)) : Set ℤ :=
  {z | ∃ entry ∈ entries, z = entry.2.toInt}

lemma timesLeft_cons (entry : StreamId × BitVec 32) (entries : List (StreamId × BitVec 32)) :
    timesLeft (entry :: entries) = insert entry.2.toInt (timesLeft entries) := by
  ext z
  simp [timesLeft]

lemma isLeast_insert_min {a b r : ℤ} {s : Set ℤ} (h : IsLeast (insert (min b a) s) r) :
    IsLeast (insert a (insert b s)) r := by
  obtain ⟨hmem, hlower⟩ := h
  have hmin := hlower (Set.mem_insert _ _)
  constructor
  · rcases hmem with rfl | hs
    · rcases min_choice b a with hb | ha
      · rw [hb]
        exact .inr (.inl rfl)
      · rw [ha]
        exact .inl rfl
    · exact .inr (.inr hs)
  · rintro z (rfl | rfl | hz)
    · exact hmin.trans (min_le_right _ _)
    · exact hmin.trans (min_le_left _ _)
    · exact hlower (.inr hz)

lemma toInt_ite_slt (a b : BitVec 32) : (if a.slt b then a else b).toInt = min a.toInt b.toInt := by
  rw [BitVec.slt]
  split_ifs with h
  · exact (min_eq_left (of_decide_eq_true h).le).symm
  · exact (min_eq_right (not_lt.mp fun hlt => h (decide_eq_true hlt))).symm

/-- The minimum is the least of the start and of the timers that are left. -/
lemma elapse_min (elapsedMs : BitVec 32) (entries : List (StreamId × BitVec 32))
    (newMinTo : BitVec 32) :
    IsLeast (insert newMinTo.toInt (timesLeft (elapse elapsedMs entries newMinTo).1))
      (elapse elapsedMs entries newMinTo).2.1.toInt := by
  induction entries generalizing newMinTo with
  | nil => simp [elapse, timesLeft]
  | cons entry entries ih =>
      rw [elapse]
      by_cases hle : entry.2 ≤ elapsedMs
      · rw [if_pos hle]
        exact ih newMinTo
      · rw [if_neg hle]
        dsimp only
        rw [timesLeft_cons]
        apply isLeast_insert_min
        rw [← toInt_ite_slt]
        exact ih _

variable {tk : TimeKeeper} {defaultMs : BitVec 32}

lemma Ordered.unique (h : tk.Ordered) {strmId : StreamId} {v w : BitVec 32}
    (hv : (strmId, v) ∈ tk.strmTimeouts) (hw : (strmId, w) ∈ tk.strmTimeouts) : v = w :=
  congrArg Prod.snd (List.inj_on_of_nodup_map h.nodup hv hw rfl)

lemma find_eq_none_iff {strmId : StreamId} :
    tk.find strmId = none ↔ ∀ v, (strmId, v) ∉ tk.strmTimeouts := by
  rw [find, Option.map_eq_none_iff, List.find?_eq_none]
  constructor
  · intro h v hv
    exact h _ hv (decide_eq_true rfl)
  · rintro h ⟨id, v⟩ hentry hid
    have heq : id = strmId := of_decide_eq_true hid
    exact h v (heq ▸ hentry)

lemma mem_of_find {strmId : StreamId} {v : BitVec 32} (h : tk.find strmId = some v) :
    (strmId, v) ∈ tk.strmTimeouts := by
  obtain ⟨entry, hentry, rfl⟩ := Option.map_eq_some_iff.mp h
  have hid : entry.1 = strmId := by simpa using List.find?_some hentry
  exact hid ▸ List.mem_of_find?_eq_some hentry

lemma mem_notifyElapsed {elapsedMs v : BitVec 32} {strmId : StreamId} :
    (strmId, v) ∈ (tk.notifyElapsedFrom defaultMs elapsedMs).1.strmTimeouts ↔
      ∃ u, (strmId, u) ∈ tk.strmTimeouts ∧ ¬u ≤ elapsedMs ∧ v = u - elapsedMs := by
  rw [notifyElapsedFrom]
  dsimp only
  rw [elapse_left, List.mem_map]
  constructor
  · rintro ⟨⟨id, u⟩, hentry, heq⟩
    obtain ⟨hmem, hle⟩ := List.mem_filter.mp hentry
    cases heq
    exact ⟨u, hmem, by simpa using hle, rfl⟩
  · rintro ⟨u, hmem, hle, rfl⟩
    exact ⟨(strmId, u), List.mem_filter.mpr ⟨hmem, by simpa using hle⟩, rfl⟩

lemma mem_expired {elapsedMs : BitVec 32} {strmId : StreamId} :
    strmId ∈ (tk.notifyElapsedFrom defaultMs elapsedMs).2 ↔
      ∃ u, (strmId, u) ∈ tk.strmTimeouts ∧ u ≤ elapsedMs := by
  rw [notifyElapsedFrom]
  dsimp only
  rw [elapse_expired]
  simp

/-- Without elapsed time, no timer that runs expires. -/
lemma mem_notifyElapsed_zero (hpos : ∀ entry ∈ tk.strmTimeouts, 0 < entry.2.toNat)
    {strmId : StreamId} {v : BitVec 32} :
    (strmId, v) ∈ (tk.notifyElapsedFrom defaultMs 0).1.strmTimeouts ↔
      (strmId, v) ∈ tk.strmTimeouts := by
  rw [mem_notifyElapsed]
  constructor
  · rintro ⟨u, hmem, -, rfl⟩
    have hzero : u - 0 = u := BitVec.sub_zero u
    rwa [hzero]
  · intro hmem
    have hv := hpos _ hmem
    have hgt : ¬v ≤ 0 := fun hle => absurd (BitVec.le_def.mp hle) (not_le.mpr hv)
    exact ⟨v, hmem, hgt, (BitVec.sub_zero v).symm⟩

lemma mem_clearTimeout (h : tk.Ordered) {id strmId : StreamId} {v : BitVec 32} :
    (strmId, v) ∈ (tk.clearTimeout defaultMs id).1.strmTimeouts ↔
      id ≠ strmId ∧ (strmId, v) ∈ tk.strmTimeouts := by
  rw [clearTimeout]
  cases hfind : tk.find id with
  | none =>
      refine ⟨fun hmem => ⟨?_, hmem⟩, And.right⟩
      rintro rfl
      exact find_eq_none_iff.mp hfind v hmem
  | some strmTo =>
      have hfilter : (strmId, v) ∈ tk.strmTimeouts.filter (fun entry => entry.1 ≠ id) ↔
          id ≠ strmId ∧ (strmId, v) ∈ tk.strmTimeouts := by
        rw [List.mem_filter, decide_eq_true_eq, and_comm, ne_comm]
      dsimp only
      split_ifs
      · refine (mem_notifyElapsed_zero fun entry hentry => ?_).trans hfilter
        exact (h.range entry (List.mem_of_mem_filter hentry)).1
      · exact hfilter

lemma mem_registerTimeout {id strmId : StreamId} {timeoutMs v : BitVec 32} :
    (strmId, v) ∈ (tk.registerTimeout id timeoutMs).1.strmTimeouts ↔
      (strmId, v) ∈ tk.strmTimeouts ∨
        id = strmId ∧ v = timeoutMs ∧ ∀ u, (strmId, u) ∉ tk.strmTimeouts := by
  rw [registerTimeout]
  cases hfind : tk.find id with
  | some w =>
      refine ⟨.inl, ?_⟩
      rintro (hmem | ⟨rfl, -, hnone⟩)
      · exact hmem
      · exact absurd (mem_of_find hfind) (hnone w)
  | none =>
      have hnone := find_eq_none_iff.mp hfind
      constructor
      · intro hmem
        rcases List.mem_cons.mp hmem with heq | hmem
        · cases heq
          exact .inr ⟨rfl, rfl, hnone⟩
        · exact .inl hmem
      · rintro (hmem | ⟨rfl, rfl, -⟩)
        · exact List.mem_cons_of_mem _ hmem
        · exact List.mem_cons_self

/-- A registration succeeds for a stream without a timer. -/
lemma registerTimeout_snd {strmId : StreamId} {timeoutMs : BitVec 32} :
    (tk.registerTimeout strmId timeoutMs).2 = true ↔ ∀ v, (strmId, v) ∉ tk.strmTimeouts := by
  rw [registerTimeout, ← find_eq_none_iff]
  cases tk.find strmId <;> simp

/-- The entries after a call, as far as they concern one stream. -/
lemma mem_call (h : tk.Ordered) (c : Call) {strmId : StreamId} {v : BitVec 32} :
    (strmId, v) ∈ (tk.call defaultMs c).strmTimeouts ↔
      match c with
      | .registerTimeout id timeout => (strmId, v) ∈ tk.strmTimeouts ∨
          id = strmId ∧ v = timeout.ms ∧ ∀ u, (strmId, u) ∉ tk.strmTimeouts
      | .clearTimeout id => id ≠ strmId ∧ (strmId, v) ∈ tk.strmTimeouts
      | .notifyElapsed elapsedMs =>
          ∃ u, (strmId, u) ∈ tk.strmTimeouts ∧ ¬u ≤ elapsedMs ∧ v = u - elapsedMs := by
  cases c with
  | notifyElapsed elapsedMs => exact mem_notifyElapsed
  | registerTimeout id timeout => exact mem_registerTimeout
  | clearTimeout id => exact mem_clearTimeout h

lemma nodup_notifyElapsed {elapsedMs : BitVec 32} (h : (tk.strmTimeouts.map Prod.fst).Nodup) :
    ((tk.notifyElapsedFrom defaultMs elapsedMs).1.strmTimeouts.map Prod.fst).Nodup := by
  rw [notifyElapsedFrom]
  dsimp only
  rw [elapse_left, List.map_map]
  exact (List.filter_sublist.map Prod.fst).nodup h

lemma nodup_call (h : (tk.strmTimeouts.map Prod.fst).Nodup) (c : Call) :
    ((tk.call defaultMs c).strmTimeouts.map Prod.fst).Nodup := by
  cases c with
  | notifyElapsed elapsedMs => exact nodup_notifyElapsed h
  | registerTimeout id timeout =>
      rw [call, registerTimeout]
      cases hfind : tk.find id with
      | some w => exact h
      | none =>
          refine List.nodup_cons.mpr ⟨fun hmem => ?_, h⟩
          obtain ⟨⟨id', v⟩, hentry, rfl⟩ := List.mem_map.mp hmem
          exact find_eq_none_iff.mp hfind v hentry
  | clearTimeout id =>
      rw [call, clearTimeout]
      cases tk.find id with
      | none => exact h
      | some strmTo =>
          have hfilter : ((tk.strmTimeouts.filter fun entry => entry.1 ≠ id).map Prod.fst).Nodup :=
            (List.filter_sublist.map Prod.fst).nodup h
          dsimp only
          split_ifs
          · exact nodup_notifyElapsed hfilter
          · exact hfilter

lemma toNat_sub {u elapsedMs : BitVec 32} (h : ¬u ≤ elapsedMs) :
    (u - elapsedMs).toNat = u.toNat - elapsedMs.toNat ∧ elapsedMs.toNat < u.toNat := by
  have hlt : elapsedMs.toNat < u.toNat := not_le.mp (mt BitVec.le_def.mpr h)
  exact ⟨BitVec.toNat_sub_of_le (BitVec.le_def.mpr hlt.le), hlt⟩

lemma Ordered.call (h : tk.Ordered) (c : Call) : (tk.call defaultMs c).Ordered := by
  refine ⟨nodup_call h.nodup c, fun ⟨strmId, v⟩ hentry => ?_⟩
  rw [mem_call h] at hentry
  cases c with
  | registerTimeout id timeout =>
      rcases hentry with hmem | ⟨-, rfl, -⟩
      · exact h.range _ hmem
      · exact ⟨timeout.pos, timeout.lt⟩
  | clearTimeout id => exact h.range _ hentry.2
  | notifyElapsed elapsedMs =>
      obtain ⟨u, hmem, hle, rfl⟩ := hentry
      obtain ⟨hsub, hlt⟩ := toNat_sub hle
      have hrange := h.range _ hmem
      dsimp only at hrange ⊢
      omega

/-- The cached minimum is the least of the default and of what is left of the timers. -/
def Cached (defaultMs : BitVec 32) (tk : TimeKeeper) : Prop :=
  IsLeast (insert defaultMs.toInt (timesLeft tk.strmTimeouts)) tk.minTimeout.toInt

lemma Cached.clearTimeout (h : tk.Ordered) (hmin : tk.Cached defaultMs) (id : StreamId) :
    (tk.clearTimeout defaultMs id).1.Cached defaultMs := by
  rw [TimeKeeper.clearTimeout]
  cases hfind : tk.find id with
  | none => exact hmin
  | some strmTo =>
      dsimp only
      split_ifs with hcached
      · exact elapse_min _ _ _
      · obtain ⟨hmem, hlower⟩ := hmin
        constructor
        · rcases hmem with hdefault | ⟨⟨id', v⟩, hentry, hv⟩
          · exact .inl hdefault
          · have hkept : id' ≠ id := by
              rintro rfl
              exact hcached ((BitVec.eq_of_toInt_eq hv).trans (h.unique hentry (mem_of_find hfind)))
            exact .inr ⟨(id', v), List.mem_filter.mpr ⟨hentry, decide_eq_true hkept⟩, hv⟩
        · rintro z (rfl | ⟨entry, hentry, rfl⟩)
          · exact hlower (Set.mem_insert _ _)
          · exact hlower (.inr ⟨entry, List.mem_of_mem_filter hentry, rfl⟩)

lemma Cached.call (h : tk.Ordered) (hmin : tk.Cached defaultMs) (c : Call) :
    (tk.call defaultMs c).Cached defaultMs := by
  cases c with
  | notifyElapsed elapsedMs => exact elapse_min _ _ _
  | clearTimeout id => exact hmin.clearTimeout h id
  | registerTimeout id timeout =>
      rw [TimeKeeper.call, registerTimeout]
      cases tk.find id with
      | some w => exact hmin
      | none =>
          rw [Cached, timesLeft_cons, Set.insert_comm, toInt_ite_slt]
          exact hmin.insert _

end TimeKeeper

section Runs

variable {defaultMs : BitVec 32} {calls before since : List Call} {strmId : StreamId}
  {timeout : Timeout}

lemma elapsed_append (calls later : List Call) :
    elapsed (calls ++ later) = elapsed calls + elapsed later := by
  rw [elapsed, List.map_append, List.sum_append]
  rfl

lemma after_append (calls : List Call) (c : Call) :
    after defaultMs (calls ++ [c]) = (after defaultMs calls).call defaultMs c := by
  rw [after, List.foldl_append]
  rfl

lemma after_ordered (calls : List Call) : (after defaultMs calls).Ordered := by
  induction calls using List.reverseRecOn with
  | nil => exact ⟨List.nodup_nil, fun _ h => nomatch h⟩
  | append_singleton calls c ih =>
      rw [after_append]
      exact ih.call c

lemma after_cached (calls : List Call) : (after defaultMs calls).Cached defaultMs := by
  induction calls using List.reverseRecOn with
  | nil =>
      refine ⟨Set.mem_insert _ _, ?_⟩
      rintro z (rfl | ⟨entry, hentry, -⟩)
      · exact le_rfl
      · cases hentry
  | append_singleton calls c ih =>
      rw [after_append]
      exact ih.call (after_ordered calls) c

lemma registers_iff :
    registers defaultMs calls strmId timeout = true ↔
      ∀ v, (strmId, v) ∉ (after defaultMs calls).strmTimeouts :=
  registerTimeout_snd

/-- One call later, a registration is still pending, or the call was one. -/
lemma pending_append {c : Call} :
    Pending defaultMs (calls ++ [c]) strmId timeout before since ↔
      (∃ earlier, since = earlier ++ [c] ∧ Pending defaultMs calls strmId timeout before earlier ∧
        c ≠ .clearTimeout strmId ∧ elapsed earlier + c.elapsed < timeout.ms.toNat) ∨
      (c = .registerTimeout strmId timeout ∧ before = calls ∧ since = [] ∧
        registers defaultMs calls strmId timeout = true) := by
  constructor
  · rintro ⟨heq, hreg, hclear, hlt⟩
    rcases List.eq_nil_or_concat since with rfl | ⟨earlier, d, rfl⟩
    · obtain ⟨rfl, hc⟩ := List.append_inj' heq rfl
      exact .inr ⟨List.head_eq_of_cons_eq hc, rfl, rfl, hreg⟩
    · rw [List.concat_eq_append] at heq hclear hlt ⊢
      rw [← List.cons_append, ← List.append_assoc] at heq
      obtain ⟨rfl, hc⟩ := List.append_inj' heq rfl
      obtain rfl := List.head_eq_of_cons_eq hc
      rw [elapsed_append] at hlt
      refine .inl ⟨earlier, rfl, ⟨rfl, hreg, fun hmem => hclear ?_, ?_⟩, ?_, ?_⟩
      · exact List.mem_append_left _ hmem
      · exact (Nat.le_add_right _ _).trans_lt hlt
      · rintro rfl
        exact hclear (List.mem_append_right _ List.mem_cons_self)
      · exact hlt
  · rintro (⟨earlier, rfl, ⟨rfl, hreg, hclear, -⟩, hne, hlt⟩ | ⟨rfl, rfl, rfl, hreg⟩)
    · refine ⟨by simp, hreg, fun hmem => ?_, ?_⟩
      · rcases List.mem_append.mp hmem with hmem | hmem
        · exact hclear hmem
        · exact hne (List.mem_singleton.mp hmem).symm
      · rw [elapsed_append]
        exact hlt
    · exact ⟨rfl, hreg, List.not_mem_nil, timeout.pos⟩

/-- The entries are the pending registrations with what is left of their timeouts. -/
lemma mem_after_iff {v : BitVec 32} :
    (strmId, v) ∈ (after defaultMs calls).strmTimeouts ↔ ∃ timeout before since,
      Pending defaultMs calls strmId timeout before since ∧
        v.toNat + elapsed since = timeout.ms.toNat := by
  induction calls using List.reverseRecOn generalizing v with
  | nil =>
      refine iff_of_false List.not_mem_nil ?_
      rintro ⟨timeout, before, since, hpending, -⟩
      have hnil := hpending.calls_eq
      simp at hnil
  | append_singleton calls c ih =>
      rw [after_append, mem_call (after_ordered calls)]
      cases c with
      | registerTimeout id timeout' =>
          constructor
          · rintro (hmem | ⟨rfl, rfl, hnone⟩)
            · obtain ⟨timeout, before, since, hpending, hleft⟩ := ih.mp hmem
              refine ⟨timeout, before, since ++ [_], pending_append.mpr (.inl ⟨since, rfl, hpending,
                nofun, hpending.notElapsed⟩), ?_⟩
              rw [elapsed_append]
              exact hleft
            · exact ⟨timeout', calls, [], pending_append.mpr (.inr ⟨rfl, rfl, rfl,
                registers_iff.mpr hnone⟩), rfl⟩
          · rintro ⟨timeout, before, since, hpending, hleft⟩
            obtain ⟨earlier, rfl, hpending, -, -⟩ | ⟨hc, -, rfl, hreg⟩ := pending_append.mp hpending
            · rw [elapsed_append] at hleft
              exact .inl (ih.mpr ⟨timeout, before, earlier, hpending, hleft⟩)
            · cases hc
              exact .inr ⟨rfl, BitVec.eq_of_toNat_eq hleft, registers_iff.mp hreg⟩
      | clearTimeout id =>
          constructor
          · rintro ⟨hid, hmem⟩
            obtain ⟨timeout, before, since, hpending, hleft⟩ := ih.mp hmem
            have hne : Call.clearTimeout id ≠ .clearTimeout strmId :=
              fun heq => hid (Call.clearTimeout.inj heq)
            refine ⟨timeout, before, since ++ [_], pending_append.mpr (.inl ⟨since, rfl, hpending,
              hne, hpending.notElapsed⟩), ?_⟩
            rw [elapsed_append]
            exact hleft
          · rintro ⟨timeout, before, since, hpending, hleft⟩
            obtain ⟨earlier, rfl, hpending, hne, -⟩ | ⟨hc, -⟩ := pending_append.mp hpending
            · rw [elapsed_append] at hleft
              exact ⟨fun hid => hne (hid ▸ rfl), ih.mpr ⟨timeout, before, earlier, hpending, hleft⟩⟩
            · cases hc
      | notifyElapsed elapsedMs =>
          have hone : elapsed [.notifyElapsed elapsedMs] = elapsedMs.toNat := Nat.add_zero _
          constructor
          · rintro ⟨u, hmem, hle, rfl⟩
            obtain ⟨timeout, before, since, hpending, hleft⟩ := ih.mp hmem
            obtain ⟨hsub, hlt⟩ := toNat_sub hle
            refine ⟨timeout, before, since ++ [_], pending_append.mpr (.inl ⟨since, rfl, hpending,
              nofun, ?_⟩), ?_⟩
            · change elapsed since + elapsedMs.toNat < timeout.ms.toNat
              omega
            · rw [elapsed_append, hone, hsub]
              omega
          · rintro ⟨timeout, before, since, hpending, hleft⟩
            obtain ⟨earlier, rfl, hpending, -, hlt⟩ | ⟨hc, -⟩ := pending_append.mp hpending
            · have hrange := timeout.lt
              have hbefore := hpending.notElapsed
              change elapsed earlier + elapsedMs.toNat < timeout.ms.toNat at hlt
              rw [elapsed_append, hone] at hleft
              have hu : (BitVec.ofNat 32 (timeout.ms.toNat - elapsed earlier)).toNat =
                  timeout.ms.toNat - elapsed earlier := by
                rw [BitVec.toNat_ofNat, Nat.mod_eq_of_lt (by omega)]
              have hle : ¬BitVec.ofNat 32 (timeout.ms.toNat - elapsed earlier) ≤ elapsedMs := by
                rw [BitVec.le_def, hu]
                omega
              refine ⟨_, ih.mpr ⟨timeout, before, earlier, hpending, ?_⟩, hle, ?_⟩
              · rw [hu]
                omega
              · apply BitVec.eq_of_toNat_eq
                rw [(toNat_sub hle).1, hu]
                omega
            · cases hc

/-- A pending registration has an entry. -/
lemma Pending.exists_mem (h : Pending defaultMs calls strmId timeout before since) :
    ∃ v, (strmId, v) ∈ (after defaultMs calls).strmTimeouts ∧
      v.toNat + elapsed since = timeout.ms.toNat := by
  have hrange := timeout.lt
  have hleft := h.notElapsed
  have hv : (BitVec.ofNat 32 (timeout.ms.toNat - elapsed since)).toNat + elapsed since =
      timeout.ms.toNat := by
    rw [BitVec.toNat_ofNat, Nat.mod_eq_of_lt (by omega)]
    omega
  exact ⟨_, mem_after_iff.mpr ⟨timeout, before, since, h, hv⟩, hv⟩

lemma not_registers {timeout' : Timeout}
    (h : Pending defaultMs calls strmId timeout before since) :
    ¬registers defaultMs calls strmId timeout' = true := by
  obtain ⟨v, hv, -⟩ := h.exists_mem
  exact fun hreg => registers_iff.mp hreg v hv

/-- The timer of a stream is that of one registration. -/
lemma pending_unique {timeout' : Timeout} {before' since' : List Call}
    (h : Pending defaultMs calls strmId timeout before since)
    (h' : Pending defaultMs calls strmId timeout' before' since') : before = before' := by
  induction calls using List.reverseRecOn generalizing since since' with
  | nil =>
      have hnil := h.calls_eq
      simp at hnil
  | append_singleton calls c ih =>
      obtain ⟨earlier, -, hold, -⟩ | ⟨-, rfl, -, hreg⟩ := pending_append.mp h
      · obtain ⟨earlier', -, hold', -⟩ | ⟨-, -, -, hreg⟩ := pending_append.mp h'
        · exact ih hold hold'
        · exact absurd hreg (not_registers hold)
      · obtain ⟨earlier', -, hold', -⟩ | ⟨-, rfl, -, -⟩ := pending_append.mp h'
        · exact absurd hreg (not_registers hold')
        · rfl

/-- The timers of the other streams are as they would be without the clearing. -/
lemma mem_after_clear {id : StreamId} (hne : id ≠ strmId) (calls later : List Call)
    (v : BitVec 32) :
    (strmId, v) ∈ (after defaultMs (calls ++ .clearTimeout id :: later)).strmTimeouts ↔
      (strmId, v) ∈ (after defaultMs (calls ++ later)).strmTimeouts := by
  induction later using List.reverseRecOn generalizing v with
  | nil =>
      rw [after_append, List.append_nil, mem_call (after_ordered calls)]
      exact and_iff_right hne
  | append_singleton later c ih =>
      rw [← List.cons_append, ← List.append_assoc, ← List.append_assoc, after_append, after_append,
        mem_call (after_ordered _), mem_call (after_ordered _)]
      cases c <;> simp only [ih]

/-- What is left of the pending registrations. -/
lemma mem_timesLeft_iff {z : ℤ} : z ∈ timesLeft (after defaultMs calls).strmTimeouts ↔
    ∃ strmId timeout before since, Pending defaultMs calls strmId timeout before since ∧
      z = timeout.ms.toNat - elapsed since := by
  constructor
  · rintro ⟨⟨strmId, v⟩, hmem, rfl⟩
    obtain ⟨timeout, before, since, hpending, hleft⟩ := mem_after_iff.mp hmem
    have hrange := ((after_ordered calls).range _ hmem).2
    dsimp only at hrange
    have hint : v.toInt = v.toNat := BitVec.toInt_eq_toNat_of_lt (by omega)
    exact ⟨strmId, timeout, before, since, hpending, by dsimp only; rw [hint]; omega⟩
  · rintro ⟨strmId, timeout, before, since, hpending, rfl⟩
    obtain ⟨v, hmem, hleft⟩ := hpending.exists_mem
    have hrange := ((after_ordered calls).range _ hmem).2
    dsimp only at hrange
    have hint : v.toInt = v.toNat := BitVec.toInt_eq_toNat_of_lt (by omega)
    exact ⟨(strmId, v), hmem, by dsimp only; rw [hint]; omega⟩

lemma mem_reports_iff {elapsedMs : BitVec 32} : strmId ∈ reports defaultMs calls elapsedMs ↔
    ∃ timeout before since, Pending defaultMs calls strmId timeout before since ∧
      timeout.ms.toNat ≤ elapsed since + elapsedMs.toNat := by
  rw [reports, mem_expired]
  constructor
  · rintro ⟨v, hmem, hle⟩
    obtain ⟨timeout, before, since, hpending, hleft⟩ := mem_after_iff.mp hmem
    rw [BitVec.le_def] at hle
    exact ⟨timeout, before, since, hpending, by omega⟩
  · rintro ⟨timeout, before, since, hpending, hle⟩
    obtain ⟨v, hmem, hleft⟩ := hpending.exists_mem
    exact ⟨v, hmem, BitVec.le_def.mpr (by omega)⟩

lemma reports_nodup (elapsedMs : BitVec 32) : (reports defaultMs calls elapsedMs).Nodup := by
  rw [reports, notifyElapsedFrom]
  dsimp only
  rw [elapse_expired]
  exact (List.filter_sublist.map Prod.fst).nodup (after_ordered calls).nodup

/-- The cached timeout is the least of the default and of what is left of the pending
registrations, a registration succeeds unless one of the stream is pending, a notification
reports the streams whose pending registrations reach their timeouts with it, and none of this
changes when another stream is cleared. -/
theorem timers_exact (defaultMs : BitVec 32) (calls : List Call) :
    IsLeast (insert defaultMs.toInt {z : ℤ | ∃ strmId timeout before since,
      Pending defaultMs calls strmId timeout before since ∧
        z = timeout.ms.toNat - elapsed since}) (after defaultMs calls).getTimeout.toInt ∧
    (∀ strmId timeout, registers defaultMs calls strmId timeout = true ↔
      ¬∃ timeout' before since, Pending defaultMs calls strmId timeout' before since) ∧
    (∀ strmId timeout before since timeout' before' since',
      Pending defaultMs calls strmId timeout before since →
        Pending defaultMs calls strmId timeout' before' since' → before = before') ∧
    (∀ elapsedMs, (reports defaultMs calls elapsedMs).Nodup ∧
      ∀ strmId, strmId ∈ reports defaultMs calls elapsedMs ↔ ∃ timeout before since,
        Pending defaultMs calls strmId timeout before since ∧
          timeout.ms.toNat ≤ elapsed since + elapsedMs.toNat) ∧
    ∀ id later strmId elapsedMs, id ≠ strmId →
      (strmId ∈ reports defaultMs (calls ++ .clearTimeout id :: later) elapsedMs ↔
        strmId ∈ reports defaultMs (calls ++ later) elapsedMs) := by
  refine ⟨?_, fun strmId timeout => ⟨?_, fun hnone => ?_⟩, fun _ _ _ _ _ _ _ => pending_unique,
    fun elapsedMs => ⟨reports_nodup elapsedMs, fun strmId => mem_reports_iff⟩, ?_⟩
  · have hleast : (after defaultMs calls).Cached defaultMs := after_cached calls
    have hset : timesLeft (after defaultMs calls).strmTimeouts = {z : ℤ | ∃ strmId timeout before
        since, Pending defaultMs calls strmId timeout before since ∧
          z = timeout.ms.toNat - elapsed since} :=
      Set.ext fun z => mem_timesLeft_iff
    rw [Cached, hset] at hleast
    exact hleast
  · rintro hreg ⟨timeout', before, since, hpending⟩
    exact not_registers hpending hreg
  · refine registers_iff.mpr fun v hmem => hnone ?_
    obtain ⟨timeout', before, since, hpending, -⟩ := mem_after_iff.mp hmem
    exact ⟨timeout', before, since, hpending⟩
  · intro id later strmId elapsedMs hne
    rw [reports, reports, mem_expired, mem_expired]
    simp only [mem_after_clear hne]

end Runs

end MRNet.Timers
