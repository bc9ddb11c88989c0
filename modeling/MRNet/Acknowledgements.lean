import MRNet.ControlProtocols

/-!
# Acknowledgements

One call of `waitfor_ControlProtocolAcks` and the acknowledgements of all children. As long as
no failure is processed before the call has made its entry, the entry counts them.
-/
namespace MRNet.ControlProtocols
open Std Interleavings

variable {n : ℕ}

/-- The number of successes that were processed. -/
def successes (failed : Fin n → Bool) (acks : Fin n → AckState Unit) : ℕ :=
  (Finset.univ.filter fun a => failed a = false ∧ acks a = .done).card

section Successes

variable {failed : Fin n → Bool} {acks : Fin n → AckState Unit} {a : Fin n}

lemma successes_update_done (hfailed : failed a = false) (ha : acks a ≠ .done) :
    successes failed (Function.update acks a .done) = successes failed acks + 1 := by
  have hnot : a ∉ Finset.univ.filter fun a => failed a = false ∧ acks a = .done := by
    simp [ha]
  rw [successes, successes, ← Finset.card_insert_of_notMem hnot]
  congr 1
  ext b
  by_cases hb : b = a
  · subst hb
    simp [hfailed]
  · simp [hb]

lemma successes_update_of_failed (hfailed : failed a = true) (next : AckState Unit) :
    successes failed (Function.update acks a next) = successes failed acks := by
  rw [successes, successes]
  congr 1
  ext b
  by_cases hb : b = a
  · subst hb
    simp [hfailed]
  · simp [Function.update_of_ne hb]

lemma successes_update_of_ne {next : AckState Unit} (hnext : next ≠ .done) (ha : acks a ≠ .done) :
    successes failed (Function.update acks a next) = successes failed acks := by
  rw [successes, successes]
  congr 1
  ext b
  by_cases hb : b = a
  · subst hb
    simp [hnext, ha]
  · simp [Function.update_of_ne hb]

lemma all_of_le_successes (h : n ≤ successes failed acks) (a : Fin n) :
    failed a = false ∧ acks a = .done := by
  have hcard : (Finset.univ.filter fun a => failed a = false ∧ acks a = .done).card =
      Fintype.card (Fin n) := by
    rw [Fintype.card_fin]
    have hle := Finset.card_filter_le Finset.univ fun a => failed a = false ∧ acks a = .done
    rw [Finset.card_univ, Fintype.card_fin] at hle
    exact Nat.le_antisymm hle h
  have huniv := Finset.eq_univ_of_card _ hcard
  have hmem : a ∈ Finset.univ.filter fun a => failed a = false ∧ acks a = .done := by
    rw [huniv]
    exact Finset.mem_univ a
  exact (Finset.mem_filter.mp hmem).2

lemma successes_of_all (h : ∀ a, failed a = false ∧ acks a = .done) : successes failed acks = n := by
  rw [successes, Finset.filter_true_of_mem fun a _ => h a, Finset.card_univ, Fintype.card_fin]

end Successes

/-- A failure finds an entry. -/
def Heard {W A : Type} (c : Calls W A) (s : State W A) : Action W A → Prop
  | .ackLookup a => c.abort a → (s.find (c.tag a)).isSome
  | _ => True

/-- The entry for a call counts what was processed. -/
structure EntryCounts (failed : Fin n → Bool) (s : State Unit (Fin n)) (cp : ControlProtocol Unit) :
    Prop where
  numAcked : cp.numAcked = successes failed s.acks
  aborted : ∀ a, failed a = true → s.acks a = .done → cp.aborted = true
  waiting : s.waits () = .waiting → cp.numAcked < n ∧ cp.aborted = false

structure Counted (ackTag : ℤ) (failed : Fin n → Bool) (s : State Unit (Fin n)) : Prop where
  start : s.waits () = .start → s.find ackTag = none ∧ ∀ a, s.acks a = .start
  refused : s.waits () ≠ .refused
  skipped : s.waits () = .skipped → n = 0
  entry : (s.waits ()).alive → ∃ cp, s.find ackTag = some cp ∧ EntryCounts failed s cp
  acked : s.waits () = .finishing true ∨ s.waits () = .returned true →
    ∀ a, failed a = false ∧ s.acks a = .done
  checked : ∀ a, s.acks a = .checked () → failed a = true

section Steps

variable {ackTag : ℤ} {failed : Fin n → Bool} {s s' : State Unit (Fin n)} {a : Fin n}

lemma Counted.of_eq (h : Counted ackTag failed s)
    (hactive : s'.activeCtlProtocols = s.activeCtlProtocols) (hwaits : s'.waits = s.waits)
    (hacks : s'.acks = s.acks) : Counted ackTag failed s' := by
  have hfind : s'.find ackTag = s.find ackTag := by
    rw [State.find, State.find, hactive]
  refine ⟨?_, ?_, ?_, ?_, ?_, ?_⟩
  · rw [hwaits, hfind, hacks]
    exact h.start
  · rw [hwaits]
    exact h.refused
  · rw [hwaits]
    exact h.skipped
  · rw [hwaits, hfind]
    intro halive
    obtain ⟨cp, hcp, hcounts⟩ := h.entry halive
    refine ⟨cp, hcp, ?_, ?_, ?_⟩
    · rw [hacks]
      exact hcounts.numAcked
    · rw [hacks]
      exact hcounts.aborted
    · rw [hwaits]
      exact hcounts.waiting
  · rw [hwaits, hacks]
    exact h.acked
  · rw [hacks]
    exact h.checked

/-- The state of an acknowledgement changes, which was not processed yet. -/
lemma Counted.setAck (h : Counted ackTag failed s) {next : AckState Unit} (ha : s.acks a ≠ .done)
    (hstart : s.waits () ≠ .start) (hchecked : next = .checked () → failed a = true)
    (hdone : next = .done → failed a = true ∧
      ∀ cp, s.find ackTag = some cp → cp.aborted = true) :
    Counted ackTag failed (s.setAck a next) := by
  refine ⟨fun hs => absurd hs hstart, h.refused, h.skipped, fun halive => ?_, fun hacked => ?_,
    fun b hb => ?_⟩
  · obtain ⟨cp, hcp, hcounts⟩ := h.entry halive
    refine ⟨cp, hcp, ?_, fun b hb hbdone => ?_, hcounts.waiting⟩
    · rw [hcounts.numAcked]
      by_cases hnext : next = .done
      · exact (successes_update_of_failed (hdone hnext).1 next).symm
      · exact (successes_update_of_ne hnext ha).symm
    · change Function.update s.acks a next b = _ at hbdone
      by_cases hba : b = a
      · rw [hba, Function.update_self] at hbdone
        exact (hdone hbdone).2 cp hcp
      · rw [Function.update_of_ne hba] at hbdone
        exact hcounts.aborted b hb hbdone
  · exact absurd (h.acked hacked a).2 ha
  · change Function.update s.acks a next b = _ at hb
    by_cases hba : b = a
    · rw [hba, Function.update_self] at hb
      rw [hba]
      exact hchecked hb
    · rw [Function.update_of_ne hba] at hb
      exact h.checked b hb

lemma report_waits (tag : ℤ) (cp : ControlProtocol Unit) :
    (s.report tag cp).waits () = (if s.waits () = .waiting then .woken else s.waits ()) := by
  by_cases hwaiting : s.waits () = .waiting
  · rw [if_pos hwaiting, State.report, State.signalCondition, if_pos hwaiting]
    exact Function.update_self () WaitState.woken s.waits
  · rw [if_neg hwaiting, State.report, State.signalCondition, if_neg hwaiting]

lemma report_find (tag t : ℤ) (cp : ControlProtocol Unit) :
    (s.report tag cp).find t = if tag = t then some cp else s.find t := by
  rw [State.find, State.report, signalCondition_active, TreeMap.getElem?_insert]
  by_cases ht : tag = t
  · rw [if_pos ht, ht, if_pos ReflCmp.compare_self]
  · rw [if_neg ht, if_neg fun hcmp => ht (LawfulEqCmp.eq_of_compare hcmp)]
    rfl

lemma report_acks (tag : ℤ) (cp : ControlProtocol Unit) : (s.report tag cp).acks = s.acks :=
  signalCondition_acks _ _

/-- The states other than the wait on the condition are the same after a report. -/
lemma report_waits_eq {tag : ℤ} {cp : ControlProtocol Unit} {w : WaitState} (hw : w ≠ .woken)
    (h : (s.report tag cp).waits () = w) : s.waits () = w := by
  rw [report_waits] at h
  split_ifs at h with hwaiting
  · exact absurd h.symm hw
  · exact h

lemma report_alive {tag : ℤ} {cp : ControlProtocol Unit} :
    ((s.report tag cp).waits ()).alive = (s.waits ()).alive := by
  rw [report_waits]
  split_ifs with hwaiting
  · rw [hwaiting]
    rfl
  · rfl

/-- An entry is marked. -/
lemma Counted.reportAborted (h : Counted ackTag failed s) {tag : ℤ} {cp : ControlProtocol Unit}
    (hcp : s.find tag = some cp) :
    Counted ackTag failed (s.report tag { cp with aborted := true }) := by
  refine ⟨fun hs => ?_, fun hs => h.refused (report_waits_eq (by decide) hs),
    fun hs => h.skipped (report_waits_eq (by decide) hs), fun halive => ?_, fun hacked => ?_, ?_⟩
  · obtain ⟨hnone, hacks⟩ := h.start (report_waits_eq (by decide) hs)
    rw [report_find, report_acks]
    split_ifs with htag
    · rw [htag, hnone] at hcp
      cases hcp
    · exact ⟨hnone, hacks⟩
  · rw [report_alive] at halive
    obtain ⟨cp', hcp', hcounts⟩ := h.entry halive
    have hwaiting : (s.report tag { cp with aborted := true }).waits () ≠ .waiting := by
      rw [report_waits]
      split_ifs with hs
      · decide
      · exact hs
    rw [report_find]
    split_ifs with htag
    · rw [htag, hcp'] at hcp
      cases hcp
      refine ⟨_, rfl, ?_, fun _ _ _ => rfl, fun hs => absurd hs hwaiting⟩
      rw [report_acks]
      exact hcounts.numAcked
    · refine ⟨cp', hcp', ?_, ?_, fun hs => absurd hs hwaiting⟩
      · rw [report_acks]
        exact hcounts.numAcked
      · rw [report_acks]
        exact hcounts.aborted
  · rw [report_acks]
    exact h.acked (hacked.imp (report_waits_eq (by decide)) (report_waits_eq (by decide)))
  · rw [report_acks]
    exact h.checked

/-- A success is counted. -/
lemma Counted.reportAcked (h : Counted ackTag failed s) {cp : ControlProtocol Unit}
    (hcp : s.find ackTag = some cp) (halive : (s.waits ()).alive) (hfailed : failed a = false)
    (ha : s.acks a ≠ .done) :
    Counted ackTag failed
      ((s.report ackTag { cp with numAcked := cp.numAcked + 1 }).setAck a .done) := by
  obtain ⟨cp', hcp', hcounts⟩ := h.entry halive
  rw [hcp] at hcp'
  cases hcp'
  refine ⟨fun hs => ?_, fun hs => h.refused (report_waits_eq (by decide) hs),
    fun hs => h.skipped (report_waits_eq (by decide) hs), fun _ => ?_, fun hacked => ?_,
    fun b hb => ?_⟩
  · have hstart := report_waits_eq (by decide) hs
    rw [hstart] at halive
    cases halive
  · refine ⟨{ cp with numAcked := cp.numAcked + 1 }, ?_, ?_, fun b hb hbdone => ?_, fun hs => ?_⟩
    · exact (report_find _ _ _).trans (if_pos rfl)
    · change cp.numAcked + 1 = successes failed (Function.update (s.report ackTag _).acks a .done)
      rw [report_acks, successes_update_done hfailed ha, hcounts.numAcked]
    · change Function.update (s.report ackTag _).acks a .done b = _ at hbdone
      rw [report_acks] at hbdone
      by_cases hba : b = a
      · rw [hba, hfailed] at hb
        cases hb
      · rw [Function.update_of_ne hba] at hbdone
        exact hcounts.aborted b hb hbdone
    · change (s.report ackTag _).waits () = _ at hs
      rw [report_waits] at hs
      split_ifs at hs with hwaiting
      exact absurd hs hwaiting
  · have hall := h.acked (hacked.imp (report_waits_eq (by decide)) (report_waits_eq (by decide)))
    exact absurd (hall a).2 ha
  · change Function.update (s.report ackTag _).acks a .done b = _ at hb
    rw [report_acks] at hb
    by_cases hba : b = a
    · rw [hba, Function.update_self] at hb
      cases hb
    · rw [Function.update_of_ne hba] at hb
      exact h.checked b hb

lemma setWait_waits (s : State Unit (Fin n)) (next : WaitState) :
    (s.setWait () next).waits () = next := by
  change Function.update s.waits () next () = next
  rw [Function.update_self]

/-- The call moves on, and what is to be shown of the new state is shown. -/
lemma Counted.setWait (h : Counted ackTag failed s) {next : WaitState}
    (halive : next.alive → (s.waits ()).alive) (hstart : next ≠ .start) (hrefused : next ≠ .refused)
    (hskipped : next = .skipped → n = 0)
    (hacked : next = .finishing true ∨ next = .returned true →
      ∀ a, failed a = false ∧ s.acks a = .done)
    (hwaiting : next = .waiting → ∀ cp, s.find ackTag = some cp →
      cp.numAcked < n ∧ cp.aborted = false) :
    Counted ackTag failed (s.setWait () next) := by
  refine ⟨fun hs => ?_, fun hs => ?_, fun hs => ?_, fun hs => ?_, fun hs => ?_, h.checked⟩
  · rw [setWait_waits s] at hs
    exact absurd hs hstart
  · rw [setWait_waits s] at hs
    exact hrefused hs
  · rw [setWait_waits s] at hs
    exact hskipped hs
  · rw [setWait_waits s] at hs
    obtain ⟨cp, hcp, hcounts⟩ := h.entry (halive hs)
    refine ⟨cp, hcp, hcounts.numAcked, hcounts.aborted, fun hw => ?_⟩
    rw [setWait_waits s] at hw
    exact hwaiting hw cp hcp
  · rw [setWait_waits s] at hs
    exact hacked hs

lemma Counted.register (h : Counted ackTag failed s)
    (hs : waitRegister (oneCall ackTag failed) s () = some s') : Counted ackTag failed s' := by
  unfold waitRegister at hs
  split at hs
  · cases hs
  · rename_i hstart
    obtain ⟨hnone, hacks⟩ := h.start (not_not.mp hstart)
    split at hs
    · rename_i hzero
      cases hs
      exact h.setWait (fun halive => nomatch halive) (by decide) (by decide) (fun _ => hzero) (by simp)
        (by simp)
    · split at hs
      · cases hs
      · split at hs
        · cases hs
          have hwaits : ∀ {next}, next ≠ .registered → (s.setWait () .registered).waits () ≠ next :=
            fun hne hw => hne (hw.symm.trans (setWait_waits s _))
          refine ⟨fun hw => absurd hw (hwaits (by decide)), hwaits (by decide),
            fun hw => absurd hw (hwaits (by decide)), fun _ => ?_, fun hw => ?_, h.checked⟩
          · refine ⟨⟨(), 0, false⟩, TreeMap.getElem?_insert_self, ?_, fun a _ hdone => ?_,
              fun hw => ?_⟩
            · have hzero : successes failed s.acks = 0 := by
                rw [successes, Finset.card_eq_zero, Finset.filter_eq_empty_iff]
                intro a _ hdone
                rw [hacks a] at hdone
                cases hdone.2
              exact hzero.symm
            · exact absurd ((hacks a).symm.trans hdone) (by decide)
            · exact absurd hw (hwaits (by decide))
          · exact absurd hw (not_or.mpr ⟨hwaits (by decide), hwaits (by decide)⟩)
        · rename_i cp hcp
          exact absurd (hnone.symm.trans hcp) (by simp)

lemma Counted.check (h : Counted ackTag failed s)
    (hs : waitCheck (oneCall ackTag failed) s () = some s') : Counted ackTag failed s' := by
  unfold waitCheck at hs
  split at hs
  · rename_i hw
    have halive : (s.waits ()).alive := by
      rcases hw with hw | hw <;> rw [hw] <;> rfl
    split at hs
    · cases hs
      exact h.of_eq rfl rfl rfl
    · rename_i cp hderef
      obtain ⟨cp', hcp', hcounts⟩ := h.entry halive
      have hcp := (deref_eq_some hderef).1
      change s.find ackTag = some cp at hcp
      rw [hcp] at hcp'
      cases hcp'
      split_ifs at hs with hacked habort
      · cases hs
        rw [hcounts.numAcked] at hacked
        exact h.setWait (fun _ => halive) (by decide) (by decide) (by simp)
          (fun _ => all_of_le_successes hacked) (by simp)
      · cases hs
        exact h.setWait (fun _ => halive) (by decide) (by decide) (by simp) (by simp) (by simp)
      · cases hs
        rw [not_or] at habort
        refine h.setWait (fun _ => halive) (by decide) (by decide) (by simp) (by simp) ?_
        intro _ cp' hcp'
        rw [hcp] at hcp'
        cases hcp'
        exact ⟨Nat.lt_of_not_le hacked, Bool.not_eq_true _ ▸ habort.2⟩
  · cases hs

lemma Counted.finish (h : Counted ackTag failed s)
    (hs : waitFinish (oneCall ackTag failed) s () = some s') : Counted ackTag failed s' := by
  unfold waitFinish at hs
  split at hs
  · rename_i retVal hw
    have hset : ∀ b, (b = true → s.waits () = .finishing true) →
        Counted ackTag failed (s.setWait () (.returned b)) := by
      intro b hb
      refine h.setWait (fun halive => nomatch halive) (by simp) (by simp) (by simp) ?_ (by simp)
      rintro (hnext | hnext)
      · cases hnext
      · cases hnext
        exact h.acked (.inl (hb rfl))
    split_ifs at hs with hidle hret
    · cases hs
      have hreturned := hset true fun _ => hret ▸ hw
      refine ⟨fun hw' => ?_, hreturned.refused, hreturned.skipped, fun halive => ?_,
        hreturned.acked, hreturned.checked⟩
      · exact nomatch ((setWait_waits s _).symm.trans hw' : WaitState.returned true = .start)
      · have hwaits : (s.setWait () (.returned true)).waits () = .returned true := setWait_waits s _
        change ((s.setWait () (.returned true)).waits ()).alive at halive
        rw [hwaits] at halive
        cases halive
    · cases hs
      exact hset false fun hb => nomatch hb
  · cases hs

theorem Counted.step {act : Action Unit (Fin n)} (h : Counted ackTag failed s)
    (hheard : Heard (oneCall ackTag failed) s act)
    (hs : step (oneCall ackTag failed) s act = some s') : Counted ackTag failed s' := by
  unfold ControlProtocols.step at hs
  split_ifs at hs
  cases act with
  | waitRegister w => exact h.register hs
  | waitCheck w => exact h.check hs
  | waitFinish w => exact h.finish hs
  | waitWake w =>
      obtain ⟨hw, rfl⟩ := waitWake_cases hs
      have halive : (s.waits ()).alive := by
        rw [hw]
        rfl
      exact h.setWait (fun _ => halive) (by decide) (by decide) (by simp) (by simp) (by simp)
  | ackLookup a =>
      obtain ⟨ha, ⟨cp, hcp, rfl⟩ | ⟨hnone, habort, rfl⟩ | ⟨-, rfl⟩⟩ := ackLookup_cases hs
      · refine h.setAck (by rw [ha]; decide) (fun hw => ?_) (by simp) (by simp)
        exact absurd ((h.start hw).1.symm.trans hcp) (by simp)
      · have hsome := hheard habort
        rw [hnone] at hsome
        cases hsome
      · exact h
  | ackIncrement a =>
      obtain rfl | ⟨sync, cp, ha, hfailed, halive, hderef, rfl⟩ := ackIncrement_cases hs
      · exact h.of_eq rfl rfl rfl
      · exact h.reportAcked (deref_eq_some hderef).1 halive hfailed (by rw [ha]; simp)
  | ackCheck a =>
      obtain rfl | ⟨sync, cp, ha, hfailed, hderef, rfl⟩ := ackCheck_cases hs
      · exact h.of_eq rfl rfl rfl
      · have hcp := (deref_eq_some hderef).1
        refine h.setAck (by rw [ha]; simp) (fun hw => ?_) (fun _ => hfailed) (fun hdone => ?_)
        · exact absurd (((h.start hw).2 a).symm.trans ha) (by simp)
        · refine ⟨hfailed, fun cp' hcp' => ?_⟩
          change s.find ackTag = some cp at hcp
          rw [hcp] at hcp'
          cases hcp'
          by_contra haborted
          rw [if_neg haborted] at hdone
          cases hdone
  | ackAbort a =>
      obtain rfl | ⟨sync, cp, ha, halive, hderef, rfl⟩ := ackAbort_cases hs
      · exact h.of_eq rfl rfl rfl
      · have hcp := (deref_eq_some hderef).1
        have hreport := h.reportAborted hcp
        refine hreport.setAck ?_ (fun hw => ?_) (by simp) (fun _ => ?_)
        · rw [report_acks, ha]
          simp
        · have hstart := report_waits_eq (by decide) hw
          rw [hstart] at halive
          cases halive
        · refine ⟨h.checked a ha, fun cp' hcp' => ?_⟩
          change (s.report ackTag _).find ackTag = _ at hcp'
          rw [report_find, if_pos rfl] at hcp'
          cases hcp'
          rfl
  | childFails =>
      cases hs
      exact h.of_eq rfl rfl rfl
  | abortAll =>
      obtain ⟨next, rfl⟩ := abortAll_cases hs
      exact h.of_eq rfl rfl rfl
  | abortCheck =>
      obtain rfl | ⟨next, rfl⟩ := abortCheck_cases hs <;> exact h.of_eq rfl rfl rfl
  | abortSet =>
      obtain rfl | ⟨tag, cp, next, hfind, rfl⟩ := abortSet_cases hs
      · exact h.of_eq rfl rfl rfl
      · exact (h.reportAborted hfind).of_eq rfl rfl rfl
  | abortEnd =>
      obtain rfl := abortEnd_cases hs
      exact h.of_eq rfl rfl rfl

end Steps

/-- If every failure finds an entry, then the call does not wait for acknowledgements that were
all processed, and it returns true only if all were successes. -/
theorem acknowledgements_not_lost {ackTag : ℤ} {failed : Fin n → Bool} {failedChildren : ℕ}
    {s : State Unit (Fin n)}
    (h : Reaches (step (oneCall ackTag failed)) (Heard (oneCall ackTag failed))
      (State.initial failedChildren) s) :
    ¬((∀ a, s.acks a = .done) ∧ s.waits () = .waiting) ∧
      (s.waits () = .returned true ∨ s.waits () = .skipped → ∀ a, failed a = false) := by
  have hcounted : Counted ackTag failed s := by
    refine h.keeps ?_ fun hI hheard hs => hI.step hheard hs
    exact ⟨fun _ => ⟨TreeMap.getElem?_emptyc, fun _ => rfl⟩, by simp [State.initial],
      by simp [State.initial], by simp [State.initial, WaitState.alive], by simp [State.initial],
      by simp [State.initial]⟩
  refine ⟨fun ⟨hdone, hwaiting⟩ => ?_, ?_⟩
  · obtain ⟨cp, -, hcounts⟩ := hcounted.entry (by rw [hwaiting]; rfl)
    obtain ⟨hlt, haborted⟩ := hcounts.waiting hwaiting
    have hall : ∀ a, failed a = false ∧ s.acks a = .done := by
      intro a
      refine ⟨?_, hdone a⟩
      by_contra hfailed
      have habort := hcounts.aborted a (Bool.not_eq_false _ ▸ hfailed) (hdone a)
      rw [haborted] at habort
      cases habort
    rw [hcounts.numAcked, successes_of_all hall] at hlt
    exact Nat.lt_irrefl n hlt
  · rintro (hreturned | hskipped) a
    · exact (hcounted.acked (.inr hreturned) a).1
    · obtain rfl := hcounted.skipped hskipped
      exact a.elim0

/-- A failure that comes while the call waits wakes it up. -/
theorem acknowledgements_not_lost_failure :
    ∃ s : State Unit (Fin 1), (∀ a, s.acks a = .done) ∧ s.waits () ≠ .waiting := by
  let acts : List (Action Unit (Fin 1)) :=
    [.waitRegister (), .waitCheck (), .ackLookup 0, .ackCheck 0, .ackAbort 0]
  let c : Calls Unit (Fin 1) := oneCall 8 fun _ => true
  obtain ⟨s, hrun, hacks⟩ : ∃ s, runSchedule (step c) (State.initial 0) acts = some s ∧
    s.acks 0 = .done := ⟨_, rfl, rfl⟩
  have hallowed : AllowedAll (step c) (Heard c) (State.initial 0) acts :=
    ⟨trivial, trivial, fun _ => rfl, trivial, trivial, trivial⟩
  have hall : ∀ a, s.acks a = .done := fun a => Subsingleton.elim a 0 ▸ hacks
  obtain ⟨hnot, -⟩ := acknowledgements_not_lost (reaches_of_schedule hallowed hrun)
  exact ⟨s, hall, fun hw => hnot ⟨hall, hw⟩⟩

/-- A failure that comes before the call is dropped. -/
theorem early_failure_lost :
    ¬∀ (n : ℕ) (ackTag : ℤ) (failed : Fin n → Bool) (failedChildren : ℕ) (s : State Unit (Fin n)),
      Reaches (step (oneCall ackTag failed)) Any (State.initial failedChildren) s →
        ¬((∀ a, s.acks a = .done) ∧ s.waits () = .waiting) ∧
          (s.waits () = .returned true ∨ s.waits () = .skipped → ∀ a, failed a = false) := by
  intro hall
  let acts : List (Action Unit (Fin 1)) := [.ackLookup 0, .waitRegister (), .waitCheck ()]
  obtain ⟨s, hrun, hacks, hw⟩ : ∃ s, runSchedule (step (oneCall 8 fun _ => true))
    (State.initial 0) acts = some s ∧ s.acks 0 = .done ∧ s.waits () = .waiting := ⟨_, rfl, rfl, rfl⟩
  have hdone : ∀ a, s.acks a = .done := fun a => Subsingleton.elim a 0 ▸ hacks
  exact (hall 1 8 (fun _ => true) 0 s (reaches_any hrun)).1 ⟨hdone, hw⟩

end MRNet.ControlProtocols
