import Mathlib.Data.Finset.Sort
import Mathlib.Order.Interval.Finset.Nat
import Mathlib.Tactic

/-!
# Waves of a history

Items arrive one at a time from a fixed set of sources. A wave is complete when
every source has contributed an item to it: the `k`-th wave holds the `k`-th item
of every source. This is a function of the history alone.
-/
namespace MRNet.Waves

variable {ρ π : Type} [DecidableEq ρ] (source : π → ρ)

/-- The items of one source in the order of their arrival. -/
def received (history : List π) (r : ρ) : List π := history.filter fun p => source p = r

/-- The number of complete waves. -/
def complete (sources : Finset ρ) (hne : sources.Nonempty) (history : List π) : ℕ :=
  sources.inf' hne fun r => (received source history r).length

theorem received_append (history : List π) (p : π) (r : ρ) :
    received source (history ++ [p]) r =
      if source p = r then received source history r ++ [p] else received source history r := by
  unfold received
  split_ifs with h <;> simp [h]

theorem received_join (history later : List π) (r : ρ) :
    received source (history ++ later) r =
      received source history r ++ received source later r :=
  List.filter_append _ _

/-- Blocks of items, one for each source: the items of a source are its block. -/
theorem received_flatMap {sources : List ρ} (hnd : sources.Nodup) {block : ρ → List π}
    (hblock : ∀ r, ∀ p ∈ block r, source p = r) (r : ρ) :
    received source (sources.flatMap block) r = if r ∈ sources then block r else [] := by
  induction sources with
  | nil => rfl
  | cons a sources ih =>
      obtain ⟨ha, hnd⟩ := List.nodup_cons.mp hnd
      have hhead : received source (block a) r = if a = r then block a else [] := by
        split_ifs with h
        · exact List.filter_eq_self.mpr fun p hp => by simp [hblock a p hp, h]
        · exact List.filter_eq_nil_iff.mpr fun p hp => by simp [hblock a p hp, h]
      rw [List.flatMap_cons, received_join, hhead, ih hnd]
      by_cases h : a = r
      · subst h
        simp [ha]
      · simp [h, Ne.symm h]

section Complete
variable {sources : Finset ρ} (hne : sources.Nonempty) (history : List π)

theorem complete_le {r : ρ} (hr : r ∈ sources) :
    complete source sources hne history ≤ (received source history r).length :=
  Finset.inf'_le _ hr

theorem exists_complete : ∃ r ∈ sources,
    (received source history r).length = complete source sources hne history := by
  obtain ⟨r, hr, h⟩ := Finset.exists_mem_eq_inf' hne fun r => (received source history r).length
  exact ⟨r, hr, h.symm⟩

theorem complete_eq_of {n : ℕ} (hle : ∀ r ∈ sources, n ≤ (received source history r).length)
    (hex : ∃ r ∈ sources, (received source history r).length = n) :
    complete source sources hne history = n := by
  obtain ⟨r, hr, hn⟩ := hex
  apply le_antisymm
  · rw [← hn]
    exact complete_le source hne history hr
  · exact (Finset.le_inf'_iff hne _).mpr hle

@[simp] theorem complete_nil : complete source sources hne [] = 0 := by
  obtain ⟨r, hr⟩ := hne
  exact complete_eq_of source ⟨r, hr⟩ [] (fun _ _ => Nat.zero_le _) ⟨r, hr, rfl⟩

/-- One more item completes one more wave if no source is left behind, and none
otherwise. -/
theorem complete_append (p : π) : complete source sources hne (history ++ [p]) =
    if ∀ r ∈ sources, complete source sources hne history <
      (received source (history ++ [p]) r).length
    then complete source sources hne history + 1 else complete source sources hne history := by
  have hgrow : ∀ r, (received source history r).length ≤
      (received source (history ++ [p]) r).length ∧
      (received source (history ++ [p]) r).length ≤ (received source history r).length + 1 := by
    intro r
    rw [received_append]
    split_ifs <;> simp
  split_ifs with h
  · refine complete_eq_of source hne _ (fun r hr => h r hr) ?_
    obtain ⟨r, hr, hmin⟩ := exists_complete source hne history
    have hr' := h r hr
    have hup := (hgrow r).2
    exact ⟨r, hr, by omega⟩
  · push Not at h
    obtain ⟨r, hr, hle⟩ := h
    refine complete_eq_of source hne _ (fun r hr => ?_) ⟨r, hr, ?_⟩
    · exact (complete_le source hne history hr).trans (hgrow r).1
    · have hlow := complete_le source hne history hr
      have hlow' := (hgrow r).1
      omega

end Complete

/-- The `k`-th wave, in ascending order of the sources. -/
def wave [LinearOrder ρ] (sources : Finset ρ) (history : List π) (k : ℕ) : List (Option π) :=
  sources.sort.map fun r => (received source history r)[k]?

/-- A wave that is complete does not change any more. -/
theorem wave_append [LinearOrder ρ] {sources : Finset ρ} (hne : sources.Nonempty)
    (history : List π) (p : π) {k : ℕ} (hk : k < complete source sources hne history) :
    wave source sources (history ++ [p]) k = wave source sources history k := by
  unfold wave
  refine List.map_congr_left fun r hr => ?_
  have hle := complete_le source hne history ((Finset.mem_sort _).mp hr)
  rw [received_append]
  split_ifs with h
  · exact List.getElem?_append_left (by omega)
  · rfl

end MRNet.Waves
