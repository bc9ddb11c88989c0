import Mathlib

/-!
# Fixed-width integers as bytes in memory

A machine word of `w` bits occupies `w / 8` consecutive bytes, least significant
first on a little-endian host and most significant first on a big-endian one.
The two directions are inverse to each other, and reading a word with the bytes
reversed is reading it in the other order.
-/
namespace MRNet.NativeBytes

abbrev Byte := BitVec 8

instance : LawfulBEq Byte := inferInstance

inductive ByteOrder where
  | little
  | big
  deriving DecidableEq, Repr

namespace ByteOrder

def flip : ByteOrder → ByteOrder
  | little => big
  | big => little

theorem eq_flip_of_ne {a b : ByteOrder} (h : a ≠ b) : a = b.flip := by
  cases a <;> cases b <;> first | rfl | exact absurd rfl h

end ByteOrder

/-- The `n` low bytes of `v`, least significant first. -/
def littleBytes : ℕ → ℕ → List Byte
  | 0, _ => []
  | n + 1, v => BitVec.ofNat 8 v :: littleBytes n (v / 256)

def littleValue : List Byte → ℕ
  | [] => 0
  | b :: bs => b.toNat + 256 * littleValue bs

@[simp] theorem littleBytes_length (n v : ℕ) : (littleBytes n v).length = n := by
  induction n generalizing v with
  | zero => rfl
  | succ n ih => simp [littleBytes, ih]

theorem littleValue_lt (bs : List Byte) : littleValue bs < 256 ^ bs.length := by
  induction bs with
  | nil => simp [littleValue]
  | cons b bs ih =>
      have hb := b.isLt
      simp only [littleValue, List.length_cons, pow_succ]
      omega

theorem littleValue_littleBytes (n v : ℕ) (h : v < 256 ^ n) :
    littleValue (littleBytes n v) = v := by
  induction n generalizing v with
  | zero => simp only [pow_zero] at h; simp only [littleBytes, littleValue]; omega
  | succ n ih =>
      have hd : v / 256 < 256 ^ n := by
        rw [Nat.div_lt_iff_lt_mul (by decide)]
        simpa only [pow_succ] using h
      simp only [littleBytes, littleValue, ih _ hd, BitVec.toNat_ofNat]
      omega

theorem littleBytes_littleValue (bs : List Byte) :
    littleBytes bs.length (littleValue bs) = bs := by
  induction bs with
  | nil => rfl
  | cons b bs ih =>
      have hb := b.isLt
      have hdiv : (b.toNat + 256 * littleValue bs) / 256 = littleValue bs := by omega
      simp only [List.length_cons, littleBytes, littleValue, hdiv, ih, List.cons.injEq, and_true]
      apply BitVec.eq_of_toNat_eq
      simp only [BitVec.toNat_ofNat]
      omega

/-- The bytes of a word as the host stores them. -/
def nativeBytes (o : ByteOrder) {w : ℕ} (v : BitVec w) : List Byte :=
  match o with
  | .little => littleBytes (w / 8) v.toNat
  | .big => (littleBytes (w / 8) v.toNat).reverse

/-- The word a host of order `o` reads from these bytes. -/
def nativeValue (o : ByteOrder) (w : ℕ) (bs : List Byte) : BitVec w :=
  match o with
  | .little => BitVec.ofNat w (littleValue bs)
  | .big => BitVec.ofNat w (littleValue bs.reverse)

@[simp] theorem nativeBytes_length (o : ByteOrder) {w : ℕ} (v : BitVec w) :
    (nativeBytes o v).length = w / 8 := by cases o <;> simp [nativeBytes]

theorem nativeValue_reverse (o : ByteOrder) (w : ℕ) (bs : List Byte) :
    nativeValue o w bs.reverse = nativeValue o.flip w bs := by
  cases o <;> simp [nativeValue, ByteOrder.flip]

/-- A byte is stored the same way by both orders. -/
@[simp] theorem nativeBytes_byte (o : ByteOrder) (b : Byte) : nativeBytes o b = [b] := by
  cases o <;> simp [nativeBytes, littleBytes]

lemma pow_byte_count {w : ℕ} (hw : 8 ∣ w) : 256 ^ (w / 8) = 2 ^ w := by
  obtain ⟨k, rfl⟩ := hw
  rw [Nat.mul_div_cancel_left k (by decide), pow_mul]
  norm_num

@[simp] theorem nativeValue_nativeBytes (o : ByteOrder) {w : ℕ} (hw : 8 ∣ w) (v : BitVec w) :
    nativeValue o w (nativeBytes o v) = v := by
  have h := littleValue_littleBytes (w / 8) v.toNat (by rw [pow_byte_count hw]; exact v.isLt)
  cases o <;> simp [nativeValue, nativeBytes, h]

theorem nativeBytes_nativeValue (o : ByteOrder) {w : ℕ} (hw : 8 ∣ w) (bs : List Byte)
    (hl : bs.length = w / 8) : nativeBytes o (nativeValue o w bs) = bs := by
  have hlt : ∀ cs : List Byte, cs.length = w / 8 → littleValue cs % 2 ^ w = littleValue cs := by
    intro cs hc
    have h := littleValue_lt cs
    rw [hc, pow_byte_count hw] at h
    exact Nat.mod_eq_of_lt h
  cases o with
  | little =>
      simp only [nativeBytes, nativeValue, BitVec.toNat_ofNat, hlt bs hl]
      rw [← hl, littleBytes_littleValue]
  | big =>
      have hr : bs.reverse.length = w / 8 := by simpa using hl
      simp only [nativeBytes, nativeValue, BitVec.toNat_ofNat, hlt _ hr]
      rw [← hr, littleBytes_littleValue, List.reverse_reverse]

/-- Bytes in a multiple of the word size are a sequence of words. -/
theorem exists_words (o : ByteOrder) {w : ℕ} (hw : 8 ∣ w) (n : ℕ) (bs : List Byte)
    (h : bs.length = n * (w / 8)) :
    ∃ words : List (BitVec w), words.length = n ∧ words.flatMap (nativeBytes o) = bs := by
  induction n generalizing bs with
  | zero => exact ⟨[], rfl, (List.eq_nil_of_length_eq_zero (by simpa using h)).symm⟩
  | succ n ih =>
      rw [Nat.succ_mul] at h
      obtain ⟨words, hl, hwords⟩ := ih (bs.drop (w / 8)) (by rw [List.length_drop]; omega)
      refine ⟨nativeValue o w (bs.take (w / 8)) :: words, by simp [hl], ?_⟩
      rw [List.flatMap_cons, hwords,
        nativeBytes_nativeValue o hw _ (by rw [List.length_take]; omega), List.take_append_drop]

theorem flatMap_nativeBytes_length (o : ByteOrder) {w : ℕ} (words : List (BitVec w)) :
    (words.flatMap (nativeBytes o)).length = words.length * (w / 8) := by
  induction words with
  | nil => simp
  | cons v words ih =>
      rw [List.flatMap_cons, List.length_append, ih, nativeBytes_length, List.length_cons,
        Nat.succ_mul, Nat.add_comm]

theorem littleBytes_add (m n v : ℕ) :
    littleBytes (m + n) v = littleBytes m v ++ littleBytes n (v / 256 ^ m) := by
  induction m generalizing v with
  | zero => simp [littleBytes]
  | succ m ih =>
      rw [Nat.add_right_comm, littleBytes, littleBytes, ih, List.cons_append, pow_succ,
        Nat.mul_comm, Nat.div_div_eq_div_mul]

lemma littleBytes_zero (n : ℕ) : littleBytes n 0 = List.replicate n 0 := by
  induction n with
  | zero => rfl
  | succ n ih => simp [littleBytes, ih, List.replicate_succ]

lemma littleValue_replicate_append (n : ℕ) (bs : List Byte) :
    littleValue (List.replicate n 0 ++ bs) = 256 ^ n * littleValue bs := by
  induction n with
  | zero => simp
  | succ n ih =>
      have hzero : (0 : Byte).toNat = 0 := rfl
      rw [List.replicate_succ, List.cons_append, littleValue, ih, pow_succ, hzero]
      ring

/-- A value that needs only the low half of a word has nothing in the low half
when it is read in the other order. -/
theorem nativeValue_flip_low (o : ByteOrder) {v : BitVec 64} (h : v.toNat < 2 ^ 32) :
    (nativeValue o.flip 64 (nativeBytes o v)).setWidth 32 = 0 := by
  have hbytes : (littleBytes 8 v.toNat).reverse =
      List.replicate 4 0 ++ (littleBytes 4 v.toNat).reverse := by
    have hsplit := littleBytes_add 4 4 v.toNat
    rw [Nat.div_eq_of_lt (by norm_num; omega), littleBytes_zero] at hsplit
    rw [hsplit, List.reverse_append, List.reverse_replicate]
  have hvalue : nativeValue o.flip 64 (nativeBytes o v) =
      BitVec.ofNat 64 (256 ^ 4 * littleValue (littleBytes 4 v.toNat).reverse) := by
    rw [← littleValue_replicate_append, ← hbytes]
    cases o <;> simp [nativeValue, nativeBytes, ByteOrder.flip]
  have hzero : (0 : BitVec 32).toNat = 0 := rfl
  rw [hvalue]
  apply BitVec.eq_of_toNat_eq
  rw [BitVec.toNat_setWidth, BitVec.toNat_ofNat, hzero,
    Nat.mod_mod_of_dvd _ (by norm_num : 2 ^ 32 ∣ 2 ^ 64)]
  norm_num

theorem toNat_ofNat_length {α : Type} {xs : List α} {w : ℕ} (h : xs.length < 2 ^ w) :
    (BitVec.ofNat w xs.length).toNat = xs.length := by
  rw [BitVec.toNat_ofNat, Nat.mod_eq_of_lt h]

theorem ofNat_length_eq_zero_iff {α : Type} {xs : List α} {w : ℕ} (h : xs.length < 2 ^ w) :
    BitVec.ofNat w xs.length = 0 ↔ xs = [] := by
  constructor
  · intro h0
    have hn := toNat_ofNat_length h
    rw [h0] at hn
    exact List.eq_nil_of_length_eq_zero (by simpa using hn.symm)
  · rintro rfl
    rfl

end MRNet.NativeBytes
