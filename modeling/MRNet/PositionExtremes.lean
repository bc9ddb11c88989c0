import MRNet.AggregatedData

/-!
# Minima and maxima of performance data

When what `TFILTER_MIN` and `TFILTER_MAX` send comes from the data.
-/
namespace MRNet.Filters
open Codec Buffers Reductions

namespace MetricType

/-- The number that a datum of an integer metric stands for. -/
def number (type : MetricType) (v : Datum) : ℤ :=
  match type with
  | .int => v.toInt
  | .uint | .float => v.toNat

lemma number_injective (type : MetricType) : Function.Injective type.number := by
  intro v w h
  cases type with
  | int => exact BitVec.eq_of_toInt_eq h
  | uint => exact BitVec.eq_of_toNat_eq (Int.ofNat_inj.mp h)
  | float => exact BitVec.eq_of_toNat_eq (Int.ofNat_inj.mp h)

end MetricType

section Folds

variable {α : Type} {key : α → ℤ}

/-- The elements of a list with the least key. -/
def LeastBy (key : α → ℤ) (xs : List α) (x : α) : Prop := x ∈ xs ∧ ∀ y ∈ xs, key x ≤ key y

/-- The fold keeps the lesser element, and the seed is one of them. -/
lemma foldl_leastBy (xs : List α) (seed : α) :
    LeastBy key (seed :: xs) (xs.foldl (fun x y => if key x < key y then x else y) seed) := by
  induction xs generalizing seed with
  | nil => exact ⟨List.mem_singleton_self seed, fun y hy => (List.mem_singleton.mp hy) ▸ le_rfl⟩
  | cons a xs ih =>
      obtain ⟨hmem, hle⟩ := ih (if key seed < key a then seed else a)
      obtain ⟨hstep, hrest⟩ := List.forall_mem_cons.mp hle
      rw [List.foldl_cons]
      constructor
      · rcases List.mem_cons.mp hmem with hseed | hxs
        · rw [hseed]
          split_ifs
          · exact List.mem_cons_self
          · exact List.mem_cons_of_mem _ List.mem_cons_self
        · exact List.mem_cons_of_mem _ (List.mem_cons_of_mem _ hxs)
      · rw [List.forall_mem_cons, List.forall_mem_cons]
        split_ifs at hstep hrest ⊢ with hlt
        · exact ⟨hstep, hstep.trans hlt.le, hrest⟩
        · exact ⟨hstep.trans (not_lt.mp hlt), hstep, hrest⟩

/-- The seed is not seen if and only if an element of the list is not above it. -/
lemma leastBy_foldl_iff (hkey : Function.Injective key) {xs : List α} {seed : α} :
    LeastBy key xs (xs.foldl (fun x y => if key x < key y then x else y) seed) ↔
      ∃ y ∈ xs, key y ≤ key seed := by
  obtain ⟨hmem, hle⟩ : LeastBy key (seed :: xs) _ := foldl_leastBy xs seed
  obtain ⟨hseed, hxs⟩ := List.forall_mem_cons.mp hle
  constructor
  · rintro ⟨hin, -⟩
    exact ⟨_, hin, hseed⟩
  · rintro ⟨y, hy, hyseed⟩
    refine ⟨?_, hxs⟩
    rcases List.mem_cons.mp hmem with heq | hin
    · have hyle := hxs y hy
      rw [heq] at hyle ⊢
      exact hkey (le_antisymm hyseed hyle) ▸ hy
    · exact hin

end Folds

/-- The data at a position. -/
def dataAt (cs : List Contribution) (u : ℕ) : List Datum := cs.filterMap fun c => c.data[u]?

/-- The output has at every position that is covered one of the data there, with the least key. -/
def SendsLeast (key : Datum → ℤ) (m : PerfMachine) (type : MetricType) (aggrId : Aggregation)
    (c : Contribution) (cs : List Contribution) (ipackets : List PerfPacket) : Prop :=
  ∃ p, m.filterPerfData type aggrId c.toPerfNode ipackets = .ok [p] ∧
    ∀ u < longest (c :: cs), ∃ v, p.data.elements[u]? = some v ∧
      LeastBy key (dataAt (c :: cs) u) v

def SendsMinima (m : PerfMachine) (type : MetricType) : Contribution → List Contribution →
    List PerfPacket → Prop :=
  SendsLeast type.number m type .min

def SendsMaxima (m : PerfMachine) (type : MetricType) : Contribution → List Contribution →
    List PerfPacket → Prop :=
  SendsLeast (fun v => -type.number v) m type .max

section Extremes

variable {m : PerfMachine} {type : MetricType} {aggrId : Aggregation} {key : Datum → ℤ}

/-- The aggregation keeps the datum with the lesser key. -/
def Keeps (m : PerfMachine) (type : MetricType) (aggrId : Aggregation) (key : Datum → ℤ) : Prop :=
  ∀ nrank ag v, m.aggregate aggrId type nrank ag v = if key ag < key v then ag else v

lemma less_iff_number (htype : type ≠ .float) (a b : Datum) :
    m.less type a b = true ↔ type.number a < type.number b := by
  cases type with
  | uint => exact decide_eq_true_iff.trans Int.ofNat_lt.symm
  | int => exact decide_eq_true_iff
  | float => exact absurd rfl htype

lemma keeps_min (htype : type ≠ .float) : Keeps m type .min type.number := by
  intro nrank ag v
  simp only [PerfMachine.aggregate, less_iff_number htype]

lemma keeps_max (htype : type ≠ .float) : Keeps m type .max fun v => -type.number v := by
  intro nrank ag v
  simp only [PerfMachine.aggregate, less_iff_number htype, neg_lt_neg_iff]

lemma map_snd_column (cs : List Contribution) (u : ℕ) :
    (column cs u).map Prod.snd = dataAt cs u := by
  rw [column, List.map_filterMap, dataAt]
  congr 1
  funext c
  rw [Option.map_map]
  exact Option.map_id'

lemma resultAt_keeps (h : Keeps m type aggrId key) (cs : List Contribution) (u : ℕ) :
    resultAt m type aggrId cs u = (dataAt cs u).foldl (fun x y => if key x < key y then x else y)
      (PerfMachine.initial aggrId) := by
  rw [← map_snd_column, List.foldl_map, resultAt]
  simp only [h _ _ _]

/-- Without a division, the results are sent as they are. -/
lemma filterPerfData_results (m : PerfMachine) (type : MetricType) {c : Contribution}
    {cs : List Contribution} {first : PerfPacket} {rest : List PerfPacket}
    (haggr : aggrId ≠ .arrayConcat) (havg : aggrId ≠ .avg)
    (hcs : List.Forall₂ Contribution.CarriedBy cs (first :: rest))
    (hfits : longest (c :: cs) < 2 ^ 29) :
    ∃ p, m.filterPerfData type aggrId c.toPerfNode (first :: rest) = .ok [p] ∧
      p.data.elements =
        (List.range (longest (c :: cs))).map (resultAt m type aggrId (c :: cs)) := by
  have hlocal := length_le_longest (List.mem_cons_self (a := c) (l := cs))
  obtain ⟨s, hs, hfilter⟩ := filterPerfData_aggregated m type haggr
    (hlocal.trans_lt (hfits.trans (by decide))) hcs
  have haverage : m.average type aggrId s = .ok s.aggrResults := by
    rw [PerfMachine.average, if_neg fun h => havg h.2]
    rfl
  have hlength : s.aggrResults.length < 2 ^ 29 := by
    rwa [hs.aggrResults, List.length_map, List.length_range]
  obtain ⟨p, hp, hdata⟩ := aggregatedPacket_data hlength first s.totalNranks
  refine ⟨p, ?_, hdata.trans hs.aggrResults⟩
  rw [hfilter, haverage, ok_bind, hp]
  rfl

/-- What is sent comes from the data if and only if some datum is not above the seed. -/
lemma sendsLeast_iff {c : Contribution} {cs : List Contribution} {first : PerfPacket}
    {rest : List PerfPacket} (haggr : aggrId ≠ .arrayConcat) (havg : aggrId ≠ .avg)
    (hkey : Function.Injective key) (hkeeps : Keeps m type aggrId key)
    (hcs : List.Forall₂ Contribution.CarriedBy cs (first :: rest)) (hpos : 0 < longest (c :: cs)) :
    SendsLeast key m type aggrId c cs (first :: rest) ↔ longest (c :: cs) < 2 ^ 29 ∧
      ∀ u < longest (c :: cs), ∃ v ∈ dataAt (c :: cs) u,
        key v ≤ key (PerfMachine.initial aggrId) := by
  constructor
  · rintro ⟨p, hp, hleast⟩
    obtain ⟨v, hv, -⟩ := hleast (longest (c :: cs) - 1) (by omega)
    have hlast := (List.getElem?_eq_some_iff.mp hv).1
    have hsent := length_of_filterPerfData haggr hp
    have hfits : longest (c :: cs) < 2 ^ 29 := by omega
    obtain ⟨q, hq, hdata⟩ := filterPerfData_results m type haggr havg hcs hfits
    cases hp.symm.trans hq
    refine ⟨hfits, fun u hu => ?_⟩
    obtain ⟨v, hv, hleastv⟩ := hleast u hu
    rw [hdata, List.getElem?_map, List.getElem?_range hu] at hv
    cases hv
    rw [resultAt_keeps hkeeps] at hleastv
    exact (leastBy_foldl_iff hkey).mp hleastv
  · rintro ⟨hfits, hseed⟩
    obtain ⟨p, hp, hdata⟩ := filterPerfData_results m type haggr havg hcs hfits
    refine ⟨p, hp, fun u hu => ⟨resultAt m type aggrId (c :: cs) u, ?_, ?_⟩⟩
    · rw [hdata, List.getElem?_map, List.getElem?_range hu]
      rfl
    · rw [resultAt_keeps hkeeps]
      exact (leastBy_foldl_iff hkey).mpr (hseed u hu)

/-- No unsigned datum is above a seed of ones, and the signed ones have to be negative. -/
lemma number_le_ones (htype : type ≠ .float) (v : Datum) :
    type.number v ≤ type.number (PerfMachine.initial .min) ↔ (type = .int → v.toInt < 0) := by
  cases type with
  | uint =>
      refine iff_of_true (Int.ofNat_le.mpr ?_) fun h => nomatch h
      exact Nat.le_pred_of_lt v.isLt
  | int =>
      have hones : MetricType.int.number (PerfMachine.initial .min) = -1 := by decide
      rw [hones]
      exact ⟨fun h _ => Int.lt_of_le_sub_one h, fun h => Int.le_sub_one_of_lt (h rfl)⟩
  | float => exact absurd rfl htype

lemma neg_number_le_zero (htype : type ≠ .float) (v : Datum) :
    -type.number v ≤ -type.number (PerfMachine.initial .max) ↔ (type = .int → 0 ≤ v.toInt) := by
  rw [neg_le_neg_iff]
  cases type with
  | uint => exact iff_of_true (Int.natCast_nonneg _) fun h => nomatch h
  | int => exact ⟨fun h _ => h, fun h => h rfl⟩
  | float => exact absurd rfl htype

/-- What is required of signed data only is required of some datum, as one is there. -/
lemma signed_iff {cs : List Contribution} {P : Datum → Prop} :
    (∀ u < longest cs, ∃ v ∈ dataAt cs u, type = .int → P v) ↔
      (type = .int → ∀ u < longest cs, ∃ v ∈ dataAt cs u, P v) := by
  constructor
  · intro h hint u hu
    obtain ⟨v, hv, hP⟩ := h u hu
    exact ⟨v, hv, hP hint⟩
  · intro h u hu
    by_cases hint : type = .int
    · obtain ⟨v, hv, hP⟩ := h hint u hu
      exact ⟨v, hv, fun _ => hP⟩
    · have hne : dataAt cs u ≠ [] := by
        rw [← map_snd_column, Ne, List.map_eq_nil_iff, column_eq_nil_iff]
        omega
      obtain ⟨v, hv⟩ := List.exists_mem_of_ne_nil _ hne
      exact ⟨v, hv, fun h => absurd h hint⟩

/-- With one of the data below zero, the signed minimum is right, and with one not below zero,
the maximum. The unsigned ones always are. -/
theorem sendsExtremes_iff (m : PerfMachine) {type : MetricType} (htype : type ≠ .float)
    {c : Contribution} {cs : List Contribution} {first : PerfPacket} {rest : List PerfPacket}
    (hcs : List.Forall₂ Contribution.CarriedBy cs (first :: rest))
    (hdata : ∃ d ∈ c :: cs, d.data ≠ []) :
    (SendsMinima m type c cs (first :: rest) ↔ longest (c :: cs) < 2 ^ 29 ∧
      (type = .int → ∀ u < longest (c :: cs), ∃ v ∈ dataAt (c :: cs) u, v.toInt < 0)) ∧
    (SendsMaxima m type c cs (first :: rest) ↔ longest (c :: cs) < 2 ^ 29 ∧
      (type = .int → ∀ u < longest (c :: cs), ∃ v ∈ dataAt (c :: cs) u, 0 ≤ v.toInt)) := by
  obtain ⟨d, hd, hne⟩ := hdata
  have hpos := (List.length_pos_iff.mpr hne).trans_le (length_le_longest hd)
  have hneg : Function.Injective fun v => -type.number v :=
    neg_injective.comp type.number_injective
  constructor
  · rw [SendsMinima, sendsLeast_iff (by decide) (by decide) type.number_injective (keeps_min htype)
      hcs hpos]
    simp only [number_le_ones htype]
    rw [signed_iff]
  · rw [SendsMaxima, sendsLeast_iff (by decide) (by decide) hneg (keeps_max htype) hcs hpos]
    simp only [neg_number_le_zero htype]
    rw [signed_iff]

end Extremes

/-- Two signed data at one position, above and below zero. -/
theorem sendsExtremes_two :
    SendsMinima countingMachine .int (single 0 [4] (by decide)) [single 1 [-6] (by decide)]
        [childPacket .int 1 [-6]] ∧
      SendsMaxima countingMachine .int (single 0 [4] (by decide)) [single 1 [-6] (by decide)]
        [childPacket .int 1 [-6]] := by
  have hcarried := single_carriedBy .int 1 [-6] (by decide) (by decide)
  have hdata : ∃ d ∈ [single 0 [4] (by decide), single 1 [-6] (by decide)], d.data ≠ [] :=
    ⟨_, List.mem_cons_self, by decide⟩
  obtain ⟨hminima, hmaxima⟩ := sendsExtremes_iff countingMachine
    (show MetricType.int ≠ .float by decide) (.cons hcarried .nil) hdata
  constructor
  · refine hminima.mpr ⟨by decide, fun _ u hu => ⟨-6, ?_, by decide⟩⟩
    rw [Nat.lt_one_iff.mp hu]
    exact List.mem_cons_of_mem _ (List.mem_singleton_self _)
  · refine hmaxima.mpr ⟨by decide, fun _ u hu => ⟨4, ?_, by decide⟩⟩
    rw [Nat.lt_one_iff.mp hu]
    exact List.mem_cons_self

/-- The minimum of positive data is sent as `-1`. -/
theorem minima_not_sent :
    ¬∀ (m : PerfMachine) (type : MetricType), type ≠ .float →
      ∀ (c : Contribution) (cs : List Contribution) (ipackets : List PerfPacket),
        ipackets ≠ [] → List.Forall₂ Contribution.CarriedBy cs ipackets →
          (∃ d ∈ c :: cs, d.data ≠ []) →
            SendsMinima m type c cs ipackets ∧ SendsMaxima m type c cs ipackets := by
  intro hall
  have hcarried := single_carriedBy .int 1 [6] (by decide) (by decide)
  obtain ⟨hminima, -⟩ := hall countingMachine .int (by decide) (single 0 [4] (by decide)) _ _
    (by simp) (.cons hcarried .nil) ⟨_, List.mem_cons_self, by decide⟩
  have hseeds := (sendsLeast_iff (by decide) (by decide) MetricType.int.number_injective
    (keeps_min (by decide)) (.cons hcarried .nil) (by decide)).mp hminima
  obtain ⟨v, hv, hle⟩ := hseeds.2 0 (by decide)
  have hdata : v = 4 ∨ v = 6 := by simpa [dataAt, single] using hv
  rcases hdata with rfl | rfl <;> exact absurd hle (by decide)

end MRNet.Filters
