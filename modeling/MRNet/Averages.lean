import MRNet.ReductionFilters

/-!
# Averages

Translation of `tfilter_Avg` of `FilterDefinitions.C`. The values are multiplied by their counts
and added up in their own width, and the sum is divided by the sum of the counts.
-/
namespace MRNet.Filters
open NativeBytes Codec Buffers
open Wire (ascii)

/-- A machine with the products and quotients of floating point numbers by an `int`. -/
structure AverageMachine extends Machine where
  multFloat : BitVec 32 → BitVec 32 → BitVec 32
  divFloat : BitVec 32 → BitVec 32 → BitVec 32
  multDouble : BitVec 64 → BitVec 32 → BitVec 64
  divDouble : BitVec 64 → BitVec 32 → BitVec 64

/-- The format of a value with its count. -/
def ScalarType.pairFormat : ScalarType → List Byte
  | char => ascii ['%', 'c', ' ', '%', 'd']
  | uchar => ascii ['%', 'u', 'c', ' ', '%', 'd']
  | int16 => ascii ['%', 'h', 'd', ' ', '%', 'd']
  | uint16 => ascii ['%', 'u', 'h', 'd', ' ', '%', 'd']
  | int32 => ascii ['%', 'd', ' ', '%', 'd']
  | uint32 => ascii ['%', 'u', 'd', ' ', '%', 'd']
  | int64 => ascii ['%', 'l', 'd', ' ', '%', 'd']
  | uint64 => ascii ['%', 'u', 'l', 'd', ' ', '%', 'd']
  | float => ascii ['%', 'f', ' ', '%', 'd']
  | double => ascii ['%', 'l', 'f', ' ', '%', 'd']

/-- The comparisons with the formats, in their order. -/
def ScalarType.ofPairFormat (fmt : List Byte) : Option ScalarType :=
  [char, uchar, int16, uint16, int32, uint32, int64, uint64, float, double].find? fun type =>
    fmt = type.pairFormat

/-- A packet with its data elements. -/
structure PairPacket where
  streamId : BitVec 32
  tag : BitVec 32
  fmtStr : List Byte
  elements : List Element

structure AvgState where
  result : Block Byte
  product : Block Byte
  numResults : BitVec 32

namespace AverageMachine
variable (m : AverageMachine)

/-- A `char` as an operand. -/
def charToInt (v : BitVec 8) : BitVec 32 :=
  if m.charSigned then v.signExtend 32 else v.setWidth 32

/-- The short types are multiplied as `int`, and cut back. -/
def times : (type : ScalarType) → BitVec type.width → BitVec 32 → BitVec type.width
  | .char, v, n => BitVec.setWidth 8 (m.charToInt v * n)
  | .uchar, v, n => BitVec.setWidth 8 (BitVec.setWidth 32 v * n)
  | .int16, v, n => BitVec.setWidth 16 (BitVec.signExtend 32 v * n)
  | .uint16, v, n => BitVec.setWidth 16 (BitVec.setWidth 32 v * n)
  | .int32, v, n | .uint32, v, n => BitVec.mul v n
  | .int64, v, n | .uint64, v, n => BitVec.mul v (BitVec.signExtend 64 n)
  | .float, v, n => m.multFloat v n
  | .double, v, n => m.multDouble v n

/-- An unsigned type of at least the width of an `int` makes the division unsigned. -/
def quotient : (type : ScalarType) → BitVec type.width → BitVec 32 → BitVec type.width
  | .char, v, n => BitVec.setWidth 8 ((m.charToInt v).sdiv n)
  | .uchar, v, n => BitVec.setWidth 8 ((BitVec.setWidth 32 v).sdiv n)
  | .int16, v, n => BitVec.setWidth 16 ((BitVec.signExtend 32 v).sdiv n)
  | .uint16, v, n => BitVec.setWidth 16 ((BitVec.setWidth 32 v).sdiv n)
  | .int32, v, n => BitVec.sdiv v n
  | .uint32, v, n => BitVec.udiv v n
  | .int64, v, n => BitVec.sdiv v (BitVec.signExtend 64 n)
  | .uint64, v, n => BitVec.udiv v (BitVec.signExtend 64 n)
  | .float, v, n => m.divFloat v n
  | .double, v, n => m.divDouble v n

def mult (in1 : Block Byte) (in2 : BitVec 32) (out : Block Byte) (type : ScalarType) :
    Outcome (Block Byte) := do
  let a ← m.load type.width in1
  m.store out (m.times type a in2)

/-- An integer is not divided by zero. -/
def div (in1 : Block Byte) (in2 : BitVec 32) (out : Block Byte) (type : ScalarType) :
    Outcome (Block Byte) := do
  let a ← m.load type.width in1
  if in2 = 0 ∧ type ≠ .float ∧ type ≠ .double then .error (.fault .assertion)
  else m.store out (m.quotient type a in2)

/-- `&((*cur_packet)[0]->val.p)` and `(*cur_packet)[1]->val.d`. -/
def pair (p : PairPacket) : Outcome (Block Byte × BitVec 32) :=
  match p.elements with
  | value :: count :: _ => do
      let n ← m.load 32 count.val
      return (value.val, n)
  | _ => .error (.fault .nullPointer)

def newPair (streamId tag : BitVec 32) (type : ScalarType) (arg : VaArg) (numResults : BitVec 32) :
    Outcome PairPacket := do
  let val ← m.setValue type arg
  let count ← m.setValue .int32 (.int numResults)
  return ⟨streamId, tag, type.pairFormat, [⟨type, val⟩, ⟨.int32, count⟩]⟩

/-- The body of the loop. -/
def avgPacket (fmtStr : List Byte) (type : ScalarType) (s : AvgState) (curPacket : PairPacket) :
    Outcome AvgState :=
  if curPacket.fmtStr = fmtStr then do
    let (val, n) ← m.pair curPacket
    let product ← m.mult val n s.product type
    let result ← m.sum s.result product s.result type
    return ⟨result, product, s.numResults + n⟩
  else .error (.fault .assertion)

/-- A format that is not known ends the filter without a packet. Without packets the type is not
known to the division. -/
def tfilterAvg : List PairPacket → Outcome (List PairPacket)
  | [] => .error (.fault .assertion)
  | p :: rest =>
      match ScalarType.ofPairFormat p.fmtStr with
      | none => return []
      | some type => do
          let zeros := filled (List.replicate 8 0) 0
          let s ← (p :: rest).foldlM (m.avgPacket p.fmtStr type) ⟨zeros, zeros, 0⟩
          let result ← m.div s.result s.numResults s.result type
          let tmp ← m.load type.width result
          let newPacket ← m.newPair p.streamId p.tag type (m.pass type tmp) s.numResults
          return [newPacket]

end AverageMachine

/-- The least number that a positive divisor takes to `a` or above. -/
def lowest (a n : ℤ) : ℤ := if 0 < a then n * a else n * a - (n - 1)

/-- The greatest number that a positive divisor takes to `a` or below. -/
def highest (a n : ℤ) : ℤ := if a < 0 then n * a else n * a + (n - 1)

lemma le_tdiv_iff {a r n : ℤ} (hn : 0 < n) : a ≤ r.tdiv n ↔ lowest a n ≤ r := by
  unfold lowest
  rcases le_or_gt 0 r with hr | hr
  · rw [Int.tdiv_eq_ediv_of_nonneg hr]
    split_ifs with ha
    · rw [Int.le_ediv_iff_mul_le hn, mul_comm]
    · have hq : 0 ≤ r / n := Int.ediv_nonneg hr hn.le
      have hprod : n * a ≤ 0 := mul_nonpos_of_nonneg_of_nonpos hn.le (not_lt.mp ha)
      exact iff_of_true ((not_lt.mp ha).trans hq) (by omega)
  · have hneg : r.tdiv n = -(-r / n) := by
      rw [← Int.tdiv_eq_ediv_of_nonneg (by omega), Int.neg_tdiv, neg_neg]
    have hq : 0 ≤ -r / n := Int.ediv_nonneg (by omega) hn.le
    rw [hneg]
    split_ifs with ha
    · have hprod : 0 < n * a := mul_pos hn ha
      exact iff_of_false (by omega) (by omega)
    · have hlt := Int.ediv_lt_iff_lt_mul (a := -r) (b := -a + 1) hn
      rw [add_mul, neg_mul, mul_comm a n, one_mul] at hlt
      omega

lemma tdiv_le_iff {a r n : ℤ} (hn : 0 < n) : r.tdiv n ≤ a ↔ r ≤ highest a n := by
  have h := le_tdiv_iff (a := -a) (r := -r) hn
  rw [Int.neg_tdiv, neg_le_neg_iff] at h
  rw [h, lowest, highest, mul_neg]
  split_ifs <;> omega

/-- One of the numbers is at most the weighted mean. -/
lemma exists_le_mean {ι : Type} {l : List ι} (hne : l ≠ []) (a : ι → ℤ) {n : ι → ℤ}
    (hpos : ∀ x ∈ l, 0 < n x) :
    ∃ x ∈ l, (l.map n).sum * a x ≤ (l.map fun x => a x * n x).sum := by
  by_contra! hgt
  have hlt := List.sum_lt_sum_of_ne_nil hne
    (fun x => n x * (l.map fun x => a x * n x).sum) (fun x => n x * ((l.map n).sum * a x))
    fun x hx => mul_lt_mul_of_pos_left (hgt x hx) (hpos x hx)
  have hleft : (l.map fun x => n x * (l.map fun x => a x * n x).sum).sum =
      (l.map n).sum * (l.map fun x => a x * n x).sum :=
    List.sum_map_mul_right l n _
  have hright : (l.map fun x => n x * ((l.map n).sum * a x)).sum =
      (l.map n).sum * (l.map fun x => a x * n x).sum := by
    rw [← List.sum_map_mul_left]
    refine congrArg List.sum (List.map_congr_left fun x _ => ?_)
    ring
  rw [hleft, hright] at hlt
  exact lt_irrefl _ hlt

/-- And one of them is at least the mean. -/
lemma exists_mean_le {ι : Type} {l : List ι} (hne : l ≠ []) (a : ι → ℤ) {n : ι → ℤ}
    (hpos : ∀ x ∈ l, 0 < n x) :
    ∃ x ∈ l, (l.map fun x => a x * n x).sum ≤ (l.map n).sum * a x := by
  obtain ⟨x, hx, hle⟩ := exists_le_mean hne (fun x => -a x) hpos
  have hneg : (l.map fun x => -a x * n x).sum = -(l.map fun x => a x * n x).sum := by
    rw [List.sum_neg, List.map_map]
    exact congrArg List.sum (List.map_congr_left fun x _ => neg_mul _ _)
  rw [hneg, mul_neg, neg_le_neg_iff] at hle
  exact ⟨x, hx, hle⟩

section Numbers
variable {m : AverageMachine} {type : ScalarType}

/-- The number is in the range of the type. -/
def Fits (m : Machine) (type : ScalarType) (z : ℤ) : Prop :=
  if m.isSigned type then -2 ^ (type.width - 1) ≤ z ∧ z < 2 ^ (type.width - 1)
  else 0 ≤ z ∧ z < 2 ^ type.width

lemma number_fits (m : Machine) (v : BitVec type.width) : Fits m type (m.number type v) := by
  unfold Fits Machine.number
  split_ifs
  · exact ⟨BitVec.le_toInt v, BitVec.toInt_lt⟩
  · exact ⟨Int.natCast_nonneg _, by exact_mod_cast v.isLt⟩

lemma ofInt_number (m : Machine) (v : BitVec type.width) :
    BitVec.ofInt type.width (m.number type v) = v := by
  unfold Machine.number
  split_ifs
  · exact BitVec.ofInt_toInt
  · rw [BitVec.ofInt_natCast, BitVec.ofNat_toNat, BitVec.setWidth_eq]

lemma number_ofInt {m : Machine} {z : ℤ} (h : Fits m type z) :
    m.number type (BitVec.ofInt type.width z) = z := by
  unfold Fits at h
  unfold Machine.number
  split_ifs at h ⊢
  · rw [BitVec.toInt_ofInt]
    have hpow : (2 : ℤ) ^ type.width = 2 * 2 ^ (type.width - 1) := by
      cases type <;> rfl
    exact Int.bmod_eq_of_le_mul_two (by push_cast; omega) (by push_cast; omega)
  · rw [BitVec.toNat_ofInt, Int.toNat_of_nonneg (Int.emod_nonneg _ (by positivity))]
    exact Int.emod_eq_of_lt h.1 (by push_cast; exact h.2)

/-- A quotient by a positive number stays in the range. -/
lemma Fits.tdiv {m : Machine} {z n : ℤ} (h : Fits m type z) (hn : 0 < n) :
    Fits m type (z.tdiv n) := by
  have habs : (z.tdiv n).natAbs ≤ z.natAbs := Int.natAbs_tdiv_le_natAbs z n
  have hpos : 0 ≤ z → 0 ≤ z.tdiv n := fun hz => Int.tdiv_nonneg hz hn.le
  have hneg : z ≤ 0 → z.tdiv n ≤ 0 := by
    intro hz
    have h0 := Int.tdiv_nonneg (a := -z) (b := n) (by omega) hn.le
    rw [Int.neg_tdiv] at h0
    omega
  unfold Fits at h ⊢
  split_ifs at h ⊢ <;> omega

/-- The representations of two numbers are the same if they differ by a multiple of the range. -/
lemma ofInt_eq_ofInt_iff {w : ℕ} {y z : ℤ} :
    BitVec.ofInt w y = BitVec.ofInt w z ↔ ∃ k : ℤ, z = y + k * 2 ^ w := by
  have hpow : (0 : ℤ) < 2 ^ w := by positivity
  rw [← BitVec.toInt_inj, BitVec.toInt_ofInt, BitVec.toInt_ofInt, Int.bmod_eq_bmod_iff_bmod_sub_eq_zero,
    ← Int.dvd_iff_bmod_eq_zero]
  push_cast
  constructor
  · rintro ⟨k, hk⟩
    exact ⟨-k, by linarith⟩
  · rintro ⟨k, rfl⟩
    exact ⟨-k, by ring⟩

lemma setWidth_ofInt {w : ℕ} (hw : w ≤ 32) (z : ℤ) :
    BitVec.setWidth w (BitVec.ofInt 32 z) = BitVec.ofInt w z := by
  have hdvd : (2 : ℤ) ^ w ∣ 2 ^ 32 := pow_dvd_pow 2 hw
  have hz : 0 ≤ z % 2 ^ 32 := Int.emod_nonneg z (by decide)
  have hpow : (0 : ℤ) < 2 ^ w := by positivity
  apply BitVec.eq_of_toNat_eq
  rw [BitVec.toNat_setWidth, BitVec.toNat_ofInt, BitVec.toNat_ofInt]
  zify
  rw [Int.toNat_of_nonneg (by exact_mod_cast hz), Int.toNat_of_nonneg (Int.emod_nonneg z hpow.ne')]
  exact Int.emod_emod_of_dvd z hdvd

lemma charToInt_toInt (v : BitVec 8) : (m.charToInt v).toInt = m.number .char v := by
  unfold AverageMachine.charToInt Machine.number Machine.isSigned
  split_ifs
  · exact BitVec.toInt_signExtend_of_le (by decide)
  · rw [BitVec.toInt_setWidth]
    have hlt := v.isLt
    exact Int.bmod_eq_of_le_mul_two (by push_cast; omega) (by push_cast; omega)

lemma toInt_setWidth_short {w : ℕ} (hw : w < 32) (v : BitVec w) :
    (BitVec.setWidth 32 v).toInt = v.toNat := by
  have hlt : v.toNat < 2 ^ 31 := v.isLt.trans_le (Nat.pow_le_pow_right (by decide) (by omega))
  rw [BitVec.toInt_setWidth]
  exact Int.bmod_eq_of_le_mul_two (by push_cast; omega) (by push_cast; omega)

/-- The product is the one of the numbers, in the width of the type. -/
lemma times_eq (hinteger : type.IsInteger) (v : BitVec type.width) (n : BitVec 32) :
    m.times type v n = BitVec.ofInt type.width (m.number type v * n.toInt) := by
  have hshort : ∀ {w : ℕ} {x : BitVec 32} {z : ℤ}, w ≤ 32 → x.toInt = z →
      BitVec.setWidth w (x * n) = BitVec.ofInt w (z * n.toInt) := by
    rintro w x _ hw rfl
    rw [← setWidth_ofInt hw, BitVec.ofInt_mul, BitVec.ofInt_toInt, BitVec.ofInt_toInt]
  have hlong : ∀ {w : ℕ} {v n' : BitVec w} {z : ℤ}, BitVec.ofInt w z = v →
      BitVec.ofInt w n.toInt = n' → BitVec.mul v n' = BitVec.ofInt w (z * n.toInt) := by
    rintro w _ _ z rfl rfl
    exact (BitVec.ofInt_mul z n.toInt).symm
  cases type with
  | float => exact absurd rfl hinteger.1
  | double => exact absurd rfl hinteger.2
  | char => exact hshort (by decide) (charToInt_toInt v)
  | uchar => exact hshort (by decide) (toInt_setWidth_short (by decide) v)
  | int16 => exact hshort (by decide) (BitVec.toInt_signExtend_of_le (by decide))
  | uint16 => exact hshort (by decide) (toInt_setWidth_short (by decide) v)
  | int32 => exact hlong (ofInt_number m.toMachine v) BitVec.ofInt_toInt
  | uint32 => exact hlong (ofInt_number m.toMachine v) BitVec.ofInt_toInt
  | int64 => exact hlong (ofInt_number m.toMachine v) rfl
  | uint64 => exact hlong (ofInt_number m.toMachine v) rfl

/-- The quotient by a positive count is the truncated one of the numbers. -/
lemma quotient_number (hinteger : type.IsInteger) (v : BitVec type.width) {n : BitVec 32}
    (hn : 0 < n.toInt) :
    m.number type (m.quotient type v n) = (m.number type v).tdiv n.toInt := by
  have hfits := (number_fits m.toMachine v).tdiv hn
  have hsdiv : ∀ {w : ℕ} {x n' : BitVec w}, n'.toInt = n.toInt →
      (x.sdiv n').toInt = x.toInt.tdiv n.toInt := by
    intro w x n' hn'
    rw [← hn']
    refine BitVec.toInt_sdiv_of_ne_or_ne x n' (.inr ?_)
    rintro rfl
    rw [← hn', BitVec.neg_one_eq_allOnes, BitVec.toInt_allOnes] at hn
    split_ifs at hn <;> omega
  have hudiv : ∀ {w : ℕ} {x n' : BitVec w}, (n'.toNat : ℤ) = n.toInt →
      ((BitVec.udiv x n').toNat : ℤ) = (x.toNat : ℤ).tdiv n.toInt := by
    intro w x n' hn'
    rw [← hn', BitVec.udiv_eq, BitVec.toNat_udiv]
    exact Int.ofNat_tdiv _ _
  have hshort : ∀ {w : ℕ} {x : BitVec 32} {z : ℤ}, w ≤ 32 → x.toInt = z →
      BitVec.setWidth w (x.sdiv n) = BitVec.ofInt w (z.tdiv n.toInt) := by
    rintro w x _ hw rfl
    rw [← hsdiv rfl, ← setWidth_ofInt hw, BitVec.ofInt_toInt]
  have hcount : ((BitVec.signExtend 64 n).toInt) = n.toInt :=
    BitVec.toInt_signExtend_of_le (by decide)
  have hnat : ∀ {w : ℕ} {n' : BitVec w}, n'.toInt = n.toInt → (n'.toNat : ℤ) = n.toInt := by
    intro w n' hn'
    rw [← hn'] at hn ⊢
    exact (BitVec.toInt_eq_toNat_of_lt (BitVec.toInt_pos_iff.mp hn.le)).symm
  have hrange : ∀ {q : BitVec type.width},
      q = BitVec.ofInt type.width ((m.number type v).tdiv n.toInt) →
      m.number type q = (m.number type v).tdiv n.toInt := by
    rintro _ rfl
    exact number_ofInt hfits
  cases type with
  | float => exact absurd rfl hinteger.1
  | double => exact absurd rfl hinteger.2
  | char => exact hrange (hshort (by decide) (charToInt_toInt v))
  | uchar => exact hrange (hshort (by decide) (toInt_setWidth_short (by decide) v))
  | int16 => exact hrange (hshort (by decide) (BitVec.toInt_signExtend_of_le (by decide)))
  | uint16 => exact hrange (hshort (by decide) (toInt_setWidth_short (by decide) v))
  | int32 => exact hsdiv rfl
  | uint32 => exact hudiv (hnat rfl)
  | int64 => exact hsdiv hcount
  | uint64 => exact hudiv (hnat hcount)

end Numbers

section Filter
variable {m : AverageMachine} {type : ScalarType}

/-- A packet with a value of a type and a count. -/
structure CarriesPair (m : Machine) (type : ScalarType) (p : PairPacket)
    (x : BitVec type.width × BitVec 32) : Prop where
  fmtStr : p.fmtStr = type.pairFormat
  elements : ∃ val count, p.elements = [⟨type, val⟩, ⟨.int32, count⟩] ∧ Holds m val x.1 ∧
    Holds m count x.2

/-- The sum of the numbers, each as often as it counts. -/
def weightedSum (m : Machine) (type : ScalarType) (xs : List (BitVec type.width × BitVec 32)) : ℤ :=
  (xs.map fun x => m.number type x.1 * x.2.toInt).sum

def totalCount {w : ℕ} (xs : List (BitVec w × BitVec 32)) : ℤ := (xs.map fun x => x.2.toInt).sum

lemma mult_holds (hinteger : type.IsInteger) {in1 out : Block Byte} {a : BitVec type.width}
    (ha : Holds m.toMachine in1 a) (n : BitVec 32) (hout : out.length = 8) :
    ∃ r, m.mult in1 n out type = .ok r ∧
      Holds m.toMachine r (BitVec.ofInt type.width (m.number type a * n.toInt)) := by
  obtain ⟨r, hr, hholds⟩ := store_holds (m := m.toMachine) hout (dvd_width type) (width_le type)
    (m.times type a n)
  rw [times_eq hinteger] at hholds
  refine ⟨r, ?_, hholds⟩
  rw [AverageMachine.mult, ha.load, ok_bind, hr]

lemma div_holds {in1 out : Block Byte} {a : BitVec type.width} (ha : Holds m.toMachine in1 a)
    {n : BitVec 32} (hn : 0 < n.toInt) (hout : out.length = 8) :
    ∃ r, m.div in1 n out type = .ok r ∧ Holds m.toMachine r (m.quotient type a n) := by
  obtain ⟨r, hr, hholds⟩ := store_holds (m := m.toMachine) hout (dvd_width type) (width_le type)
    (m.quotient type a n)
  refine ⟨r, ?_, hholds⟩
  rw [AverageMachine.div, ha.load, ok_bind, if_neg, hr]
  rintro ⟨rfl, -⟩
  exact absurd hn (by decide)

/-- The type is found by its format. -/
lemma ofPairFormat_pairFormat (type : ScalarType) :
    ScalarType.ofPairFormat type.pairFormat = some type := by
  cases type <;> rfl

lemma newPair_carries (hinteger : type.IsInteger) (streamId tag : BitVec 32)
    (v : BitVec type.width) (n : BitVec 32) :
    ∃ q, m.newPair streamId tag type (m.pass type v) n = .ok q ∧
      CarriesPair m.toMachine type q (v, n) := by
  obtain ⟨val, hval, hholds⟩ := setValue_pass (m := m.toMachine) hinteger v
  obtain ⟨count, hcount, hcholds⟩ := setValue_pass (m := m.toMachine)
    (show ScalarType.int32.IsInteger from ⟨nofun, nofun⟩) n
  exact ⟨_, bind_ok_iff.mpr ⟨val, hval, bind_ok_iff.mpr ⟨count, hcount, rfl⟩⟩, rfl,
    val, count, rfl, hholds, hcholds⟩

/-- What the loop has done with some of the packets. -/
structure Accumulated (m : Machine) (type : ScalarType) (xs : List (BitVec type.width × BitVec 32))
    (s : AvgState) : Prop where
  result : Holds m s.result (BitVec.ofInt type.width (weightedSum m type xs))
  product : s.product.length = 8
  numResults : s.numResults = BitVec.ofInt 32 (totalCount xs)

lemma avgPacket_accumulates (hinteger : type.IsInteger) {s : AvgState}
    {xs : List (BitVec type.width × BitVec 32)} (hs : Accumulated m.toMachine type xs s)
    {p : PairPacket} {x : BitVec type.width × BitVec 32} (hp : CarriesPair m.toMachine type p x) :
    ∃ s', m.avgPacket type.pairFormat type s p = .ok s' ∧
      Accumulated m.toMachine type (xs ++ [x]) s' := by
  obtain ⟨val, count, helements, hval, hcount⟩ := hp.elements
  obtain ⟨product, hproduct, hpholds⟩ := mult_holds hinteger hval x.2 hs.product
  obtain ⟨result, hresult, hrholds⟩ := sum_holds hinteger hs.result hpholds hs.result.length
  have hpair : m.pair p = .ok (val, x.2) := by
    rw [AverageMachine.pair, helements]
    exact bind_ok_iff.mpr ⟨x.2, hcount.load, rfl⟩
  refine ⟨⟨result, product, s.numResults + x.2⟩, ?_, ?_, hpholds.length, ?_⟩
  · rw [AverageMachine.avgPacket, if_pos hp.fmtStr, hpair, ok_bind]
    exact bind_ok_iff.mpr ⟨product, hproduct, bind_ok_iff.mpr ⟨result, hresult, rfl⟩⟩
  · rw [← BitVec.ofInt_add] at hrholds
    rw [weightedSum, List.map_append, List.sum_append, List.map_singleton, List.sum_singleton]
    exact hrholds
  · rw [totalCount, List.map_append, List.sum_append, List.map_singleton, List.sum_singleton,
      BitVec.ofInt_add, BitVec.ofInt_toInt, hs.numResults]
    rfl

lemma avgLoop_accumulates (hinteger : type.IsInteger) {ps : List PairPacket}
    {xs : List (BitVec type.width × BitVec 32)}
    (h : List.Forall₂ (CarriesPair m.toMachine type) ps xs) {s : AvgState}
    {before : List (BitVec type.width × BitVec 32)}
    (hs : Accumulated m.toMachine type before s) :
    ∃ s', ps.foldlM (m.avgPacket type.pairFormat type) s = .ok s' ∧
      Accumulated m.toMachine type (before ++ xs) s' := by
  induction h generalizing s before with
  | nil => exact ⟨s, rfl, by rwa [List.append_nil]⟩
  | @cons p x ps xs hp _ ih =>
      obtain ⟨s₁, hs₁, hacc⟩ := avgPacket_accumulates hinteger hs hp
      obtain ⟨s', hs', hend⟩ := ih hacc
      refine ⟨s', ?_, ?_⟩
      · rw [List.foldlM_cons, hs₁]
        exact hs'
      · rwa [← List.append_cons] at hend

/-- The filter sends the quotient of the sum in the width of the type by the sum of the counts. -/
lemma tfilterAvg_carries (hinteger : type.IsInteger) {ps : List PairPacket}
    {xs : List (BitVec type.width × BitVec 32)}
    (h : List.Forall₂ (CarriesPair m.toMachine type) ps xs) (hne : ps ≠ [])
    (hcount : 0 < (BitVec.ofInt 32 (totalCount xs)).toInt) :
    ∃ q, m.tfilterAvg ps = .ok [q] ∧ CarriesPair m.toMachine type q
      (m.quotient type (BitVec.ofInt type.width (weightedSum m.toMachine type xs))
        (BitVec.ofInt 32 (totalCount xs)), BitVec.ofInt 32 (totalCount xs)) := by
  have hstart : Accumulated m.toMachine type []
      ⟨filled (List.replicate 8 0) 0, filled (List.replicate 8 0) 0, 0⟩ :=
    ⟨holds_zero m.toMachine (dvd_width type) (width_le type), rfl, rfl⟩
  obtain ⟨s, hloop, hacc⟩ := avgLoop_accumulates hinteger h hstart
  rw [List.nil_append] at hacc
  have hnum := hacc.numResults
  rw [← hnum] at hcount ⊢
  obtain ⟨result, hdiv, hholds⟩ := div_holds hacc.result hcount hacc.result.length
  cases h with
  | nil => exact absurd rfl hne
  | @cons p x ps xs hp hps =>
      obtain ⟨q, hq, hcarries⟩ := newPair_carries hinteger p.streamId p.tag _ s.numResults
      refine ⟨q, ?_, hcarries⟩
      rw [AverageMachine.tfilterAvg, hp.fmtStr, ofPairFormat_pairFormat]
      refine bind_ok_iff.mpr ⟨s, hloop, bind_ok_iff.mpr ⟨result, hdiv, ?_⟩⟩
      exact bind_ok_iff.mpr ⟨_, hholds.load, bind_ok_iff.mpr ⟨q, hq, rfl⟩⟩

/-- The one packet that comes out has the sum of the counts, and a value between the smallest and
the largest of the values. -/
def SendsAverage (m : AverageMachine) (type : ScalarType) (ps : List PairPacket)
    (xs : List (BitVec type.width × BitVec 32)) : Prop :=
  ∃ q v n, m.tfilterAvg ps = .ok [q] ∧ CarriesPair m.toMachine type q (v, n) ∧
    n.toInt = totalCount xs ∧ (∃ x ∈ xs, m.number type x.1 ≤ m.number type v) ∧
      ∃ x ∈ xs, m.number type v ≤ m.number type x.1

/-- The sum leaves the range of the type, and wraps to where the division takes it back between
the values. -/
def WrapsBack (m : Machine) (type : ScalarType) (xs : List (BitVec type.width × BitVec 32)) : Prop :=
  ∃ k : ℤ, Fits m type (weightedSum m type xs + k * 2 ^ type.width) ∧
    (∃ x ∈ xs, lowest (m.number type x.1) (totalCount xs) ≤
      weightedSum m type xs + k * 2 ^ type.width) ∧
    ∃ x ∈ xs, weightedSum m type xs + k * 2 ^ type.width ≤
      highest (m.number type x.1) (totalCount xs)

/-- A packet carries one pair. -/
lemma CarriesPair.unique {m : Machine} {p : PairPacket} {x y : BitVec type.width × BitVec 32}
    (hx : CarriesPair m type p x) (hy : CarriesPair m type p y) : x = y := by
  obtain ⟨val, count, helements, hval, hcount⟩ := hx.elements
  obtain ⟨val', count', helements', hval', hcount'⟩ := hy.elements
  rw [helements] at helements'
  cases helements'
  exact Prod.ext (Except.ok.inj (hval.load.symm.trans hval'.load))
    (Except.ok.inj (hcount.load.symm.trans hcount'.load))

end Filter

/-- The filter sends an average exactly if the weighted sum fits the type, or wraps back. -/
theorem sendsAverage_iff (m : AverageMachine) (type : ScalarType) (hinteger : type.IsInteger)
    (ps : List PairPacket) (xs : List (BitVec type.width × BitVec 32))
    (h : List.Forall₂ (CarriesPair m.toMachine type) ps xs) (hne : ps ≠ [])
    (hpos : ∀ x ∈ xs, 0 < x.2.toInt) (hlt : totalCount xs < 2 ^ 31) :
    SendsAverage m type ps xs ↔
      Fits m.toMachine type (weightedSum m.toMachine type xs) ∨
        WrapsBack m.toMachine type xs := by
  have hne' : xs ≠ [] := by
    rintro rfl
    cases h
    exact hne rfl
  have htotal : 0 < totalCount xs := by
    refine List.sum_pos _ (fun n hn => ?_) (by simpa using hne')
    obtain ⟨x, hx, rfl⟩ := List.mem_map.mp hn
    exact hpos x hx
  have hcount : (BitVec.ofInt 32 (totalCount xs)).toInt = totalCount xs := by
    rw [BitVec.toInt_ofInt]
    exact Int.bmod_eq_of_le_mul_two (by push_cast; omega) (by push_cast; omega)
  obtain ⟨q, hq, hcarries⟩ := tfilterAvg_carries hinteger h hne (by rw [hcount]; exact htotal)
  set r := BitVec.ofInt type.width (weightedSum m.toMachine type xs) with hr
  have hvalue : m.number type (m.quotient type r (BitVec.ofInt 32 (totalCount xs))) =
      (m.number type r).tdiv (totalCount xs) := by
    rw [quotient_number hinteger r (by rw [hcount]; exact htotal), hcount]
  -- the property, in terms of what the sum becomes in the width of the type
  have hsends : SendsAverage m type ps xs ↔
      (∃ x ∈ xs, lowest (m.number type x.1) (totalCount xs) ≤ m.number type r) ∧
        ∃ x ∈ xs, m.number type r ≤ highest (m.number type x.1) (totalCount xs) := by
    simp only [← le_tdiv_iff htotal, ← tdiv_le_iff htotal, ← hvalue]
    constructor
    · rintro ⟨q', v, n, hq', hcarries', -, hmin, hmax⟩
      cases hq.symm.trans hq'
      cases hcarries.unique hcarries'
      exact ⟨hmin, hmax⟩
    · rintro ⟨hmin, hmax⟩
      exact ⟨q, _, _, hq, hcarries, hcount, hmin, hmax⟩
  rw [hsends]
  constructor
  · rintro ⟨hmin, hmax⟩
    obtain ⟨k, hk⟩ := ofInt_eq_ofInt_iff.mp (hr.symm.trans (ofInt_number m.toMachine r).symm)
    rw [hk] at hmin hmax
    exact .inr ⟨k, hk ▸ number_fits m.toMachine r, hmin, hmax⟩
  · rintro (hfits | ⟨k, hfits, hmin, hmax⟩)
    · rw [hr, number_ofInt hfits]
      obtain ⟨x, hx, hlow⟩ := exists_le_mean hne' (fun x => m.number type x.1) hpos
      obtain ⟨y, hy, hhigh⟩ := exists_mean_le hne' (fun x => m.number type x.1) hpos
      refine ⟨⟨x, hx, le_trans ?_ hlow⟩, y, hy, le_trans hhigh ?_⟩
      · unfold lowest
        split_ifs
        · exact le_rfl
        · exact sub_le_self _ (by omega)
      · unfold highest
        split_ifs
        · exact le_rfl
        · exact le_add_of_nonneg_right (by omega)
    · have hsame : r = BitVec.ofInt type.width
          (weightedSum m.toMachine type xs + k * 2 ^ type.width) :=
        ofInt_eq_ofInt_iff.mpr ⟨k, rfl⟩
      rw [hsame, number_ofInt hfits]
      exact ⟨hmin, hmax⟩

/-- A little-endian machine on which a `char` has a sign, without floating point. -/
def littleMachine : AverageMachine :=
  { byteOrder := .little, charSigned := true, addFloat := fun a _ => a, ltFloat := fun _ _ => false,
    addDouble := fun a _ => a, ltDouble := fun _ _ => false, widen := BitVec.setWidth 64,
    narrow := BitVec.setWidth 32, multFloat := fun a _ => a, divFloat := fun a _ => a,
    multDouble := fun a _ => a, divDouble := fun a _ => a }

/-- A packet with the small number `b`, which counts `n` times. -/
def charPacket (b n : Byte) : PairPacket :=
  ⟨1, 7, ScalarType.char.pairFormat, [⟨.char, filled [b, 0, 0, 0, 0, 0, 0, 0] 0⟩,
    ⟨.int32, filled [n, 0, 0, 0, 0, 0, 0, 0] 0⟩]⟩

lemma charPacket_carries {b n : Byte}
    (hb : littleMachine.load 8 (filled [b, 0, 0, 0, 0, 0, 0, 0] 0) = .ok b)
    (hn : littleMachine.load 32 (filled [n, 0, 0, 0, 0, 0, 0, 0] 0) = .ok (n.setWidth 32)) :
    CarriesPair littleMachine.toMachine .char (charPacket b n) (b, n.setWidth 32) :=
  ⟨rfl, _, _, rfl, ⟨rfl, hb⟩, rfl, hn⟩

/-- 10 twice and 40 once. -/
theorem sendsAverage_small :
    SendsAverage littleMachine .char [charPacket 10 2, charPacket 40 1] [(10, 2), (40, 1)] ↔
      Fits littleMachine.toMachine .char
          (weightedSum littleMachine.toMachine .char [(10, 2), (40, 1)]) ∨
        WrapsBack littleMachine.toMachine .char [(10, 2), (40, 1)] :=
  sendsAverage_iff littleMachine .char ⟨nofun, nofun⟩ _ _
    (.cons (charPacket_carries rfl rfl) (.cons (charPacket_carries rfl rfl) .nil)) (by simp)
    (by simp) (show (3 : ℤ) < 2 ^ 31 by norm_num)

/-- 100 once and once again: the sum is 200, which wraps to -56. -/
theorem average_out_of_range :
    littleMachine.tfilterAvg [charPacket 100 1, charPacket 100 1] = .ok [charPacket 228 2] ∧
      littleMachine.number .char (228 : BitVec 8) = -28 ∧
      ¬ SendsAverage littleMachine .char [charPacket 100 1, charPacket 100 1]
        [(100, 1), (100, 1)] := by
  have hrun : littleMachine.tfilterAvg [charPacket 100 1, charPacket 100 1] =
      .ok [charPacket 228 2] := rfl
  refine ⟨hrun, rfl, ?_⟩
  rintro ⟨q, v, n, hq, hcarries, -, ⟨x, hx, hle⟩, -⟩
  cases hrun.symm.trans hq
  cases hcarries.unique (charPacket_carries rfl rfl)
  obtain rfl : x = (100, 1) := by simpa using hx
  revert hle
  decide

end MRNet.Filters
