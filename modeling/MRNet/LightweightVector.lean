import MRNet.Buffers

/-!
# The lightweight vector

Translation of `vector.c`: an array of pointers that is doubled one element before it is full.
The array is a block of cells, and the size and the allocated size are numbers of 64 bits.
-/
namespace MRNet.LightweightVector
open Codec Buffers

/-- A `void*`. Null is zero. -/
abbrev Ptr := BitVec 64

structure VectorT where
  vec : Block Ptr
  size : BitVec 64
  allocSize : BitVec 64
  deriving DecidableEq

/-- `realloc` to a number of pointers. A null is what the callers assert not to get. -/
def realloc (mem : Memory) (vec : Block Ptr) (count : BitVec 64) : Outcome (Block Ptr) :=
  let bytes := (8 * count).toNat
  if mem.limit < bytes then .error (.fault .assertion)
  else return vec.take (bytes / 8) ++ allocate Ptr (bytes / 8 - vec.length)

def newEmptyVectorT (mem : Memory) : Outcome VectorT :=
  let allocSize : BitVec 64 := 64
  if mem.limit < (8 * allocSize).toNat then .error (.fault .assertion)
  else return ⟨List.replicate allocSize.toNat (some 0), 0, allocSize⟩

def clear (vector : VectorT) : VectorT :=
  { vector with vec := List.replicate vector.allocSize.toNat (some 0), size := 0 }

def copyVector (mem : Memory) (fromvec tovec : VectorT) : Outcome VectorT := do
  let tovec ←
    if tovec.allocSize < fromvec.size then do
      let vec ← realloc mem tovec.vec fromvec.size
      pure { tovec with vec, allocSize := fromvec.size }
    else pure tovec
  if fromvec.vec.length < fromvec.size.toNat then .error (.fault .readPast)
  else if tovec.vec.length < fromvec.size.toNat then .error (.fault .storePast)
  else return { tovec with
    vec := fromvec.vec.take fromvec.size.toNat ++ tovec.vec.drop fromvec.size.toNat
    size := fromvec.size }

def pushBackElement (mem : Memory) (vector : VectorT) (elem : Ptr) : Outcome VectorT := do
  let vector ←
    if vector.size + 1 = vector.allocSize then do
      let allocSize := vector.allocSize + vector.allocSize
      let vec ← realloc mem vector.vec allocSize
      pure { vector with vec, allocSize }
    else pure vector
  let vec ← copyInto vector.vec vector.size.toNat [elem] 1
  return { vector with vec, size := vector.size + 1 }

def getBackElement (vector : VectorT) : Outcome Ptr :=
  if vector.size ≠ 0 then readAt vector.vec (vector.size - 1).toNat else return 0

/-- The size is decremented in any case. -/
def popBackElement (vector : VectorT) : Outcome (Ptr × VectorT) := do
  let elem ← getBackElement vector
  return (elem, { vector with size := vector.size - 1 })

/-- `memmove` of the elements behind a position. -/
def shiftElements (vec : Block Ptr) (size i : ℕ) : Outcome (Block Ptr) :=
  if vec.length < size then .error (.fault .readPast)
  else return vec.take i ++ (vec.drop (i + 1)).take (size - (i + 1)) ++ vec.drop (size - 1)

def eraseLoop (elem : Ptr) : ℕ → BitVec 64 → VectorT → Outcome VectorT
  | 0, _, _ => .error .refused
  | fuel + 1, i, vector =>
      if i < vector.size then do
        let cur ← readAt vector.vec i.toNat
        if cur = elem then do
          let vec ←
            if i ≠ vector.size - 1 then shiftElements vector.vec vector.size.toNat i.toNat
            else pure vector.vec
          eraseLoop elem fuel (i + 1) { vector with vec, size := vector.size - 1 }
        else eraseLoop elem fuel (i + 1) vector
      else return vector

/-- The index grows in each round and the size does not. -/
def eraseElement (vector : VectorT) (elem : Ptr) : Outcome VectorT :=
  eraseLoop elem (vector.size.toNat + 1) 0 vector

/-- The elements stand in the first cells of a block of the allocated size. -/
structure VectorT.Holds (v : VectorT) (l : List Ptr) : Prop where
  written : ∃ rest : Block Ptr, v.vec = l.map some ++ rest
  size_eq : v.size.toNat = l.length
  length_vec : v.vec.length = v.allocSize.toNat
  alloc_lt : v.allocSize.toNat < 2 ^ 60

/-- The call gives a vector with the elements, unless it cannot allocate. -/
def Makes (r : Outcome VectorT) (l : List Ptr) : Prop :=
  r = .error (.fault .assertion) ∨ ∃ v, r = .ok v ∧ v.Holds l

section Elements
variable {mem : Memory} {v v' : VectorT} {l l' : List Ptr} {elem : Ptr}

lemma VectorT.Holds.length_le (h : v.Holds l) : l.length ≤ v.allocSize.toNat := by
  obtain ⟨rest, hvec⟩ := h.written
  rw [← h.length_vec, hvec, List.length_append, List.length_map]
  exact Nat.le_add_right _ _

lemma VectorT.Holds.size_le (h : v.Holds l) : v.size ≤ v.allocSize := by
  rw [BitVec.le_def, h.size_eq]
  exact h.length_le

lemma VectorT.Holds.take_eq (h : v.Holds l) : v.vec.take l.length = l.map some := by
  obtain ⟨rest, hvec⟩ := h.written
  rw [hvec]
  exact List.take_left' (List.length_map _)

lemma VectorT.Holds.readAt (h : v.Holds l) {i : ℕ} (hi : l[i]? = some elem) :
    readAt v.vec i = .ok elem := by
  obtain ⟨rest, hvec⟩ := h.written
  rw [hvec]
  exact readAt_written hi rest

/-- A number of pointers is allocated, or too many bytes were asked for. -/
lemma realloc_cases (mem : Memory) (vec : Block Ptr) (count : BitVec 64)
    (hcount : count.toNat < 2 ^ 61) : realloc mem vec count = .error (.fault .assertion) ∨
      count.toNat < 2 ^ 60 ∧ realloc mem vec count =
        .ok (vec.take count.toNat ++ allocate Ptr (count.toNat - vec.length)) := by
  have hbytes : (8 * count).toNat = 8 * count.toNat := by
    rw [BitVec.toNat_mul, show (8 : BitVec 64).toNat = 8 from rfl]
    exact Nat.mod_eq_of_lt (by omega)
  have hlimit := mem.limit_lt
  unfold realloc
  dsimp only
  rw [hbytes, Nat.mul_div_cancel_left _ (by decide)]
  split_ifs with hlarge
  · exact .inl rfl
  · exact .inr ⟨by omega, rfl⟩

/-- A vector that has grown. -/
lemma VectorT.Holds.grow (h : v.Holds l) {count : BitVec 64} (hlt : count.toNat < 2 ^ 60)
    (hle : v.allocSize.toNat ≤ count.toNat) :
    VectorT.Holds { v with
      vec := v.vec.take count.toNat ++ allocate Ptr (count.toNat - v.vec.length)
      allocSize := count } l := by
  obtain ⟨rest, hvec⟩ := h.written
  rw [← h.length_vec] at hle
  rw [List.take_of_length_le hle]
  refine ⟨⟨rest ++ allocate Ptr (count.toNat - v.vec.length), ?_⟩, h.size_eq, ?_, hlt⟩
  · rw [hvec, List.append_assoc]
  · rw [List.length_append, allocate, List.length_replicate]
    exact Nat.add_sub_of_le hle

theorem newEmptyVectorT_makes (mem : Memory) : Makes (newEmptyVectorT mem) [] := by
  unfold newEmptyVectorT
  dsimp only
  split_ifs
  · exact .inl rfl
  · exact .inr ⟨_, rfl, ⟨_, rfl⟩, rfl, rfl, by decide⟩

theorem clear_holds (h : v.Holds l) : (clear v).Holds [] :=
  ⟨⟨_, rfl⟩, rfl, List.length_replicate, h.alloc_lt⟩

theorem copyVector_makes (mem : Memory) (h : v.Holds l) (h' : v'.Holds l') :
    Makes (copyVector mem v v') l := by
  have hlen := h.length_vec
  have hsize : v.size.toNat ≤ v.allocSize.toNat := BitVec.le_def.mp h.size_le
  have hcopy {w : VectorT} (hw : w.Holds l') (hle : v.size.toNat ≤ w.allocSize.toNat) : Makes
      (if v.vec.length < v.size.toNat then .error (.fault .readPast)
        else if w.vec.length < v.size.toNat then .error (.fault .storePast)
        else .ok { w with
          vec := v.vec.take v.size.toNat ++ w.vec.drop v.size.toNat
          size := v.size }) l := by
    have hlen' := hw.length_vec
    rw [if_neg (by omega), if_neg (by omega)]
    refine .inr ⟨_, rfl, ⟨w.vec.drop v.size.toNat, ?_⟩, h.size_eq, ?_, hw.alloc_lt⟩
    · rw [h.size_eq, h.take_eq]
    · dsimp only
      rw [List.length_append, List.length_take_of_le (by omega), List.length_drop]
      omega
  have hlt := h.alloc_lt
  unfold copyVector
  by_cases hgrow : v'.allocSize < v.size
  · have hmore := BitVec.lt_def.mp hgrow
    rw [if_pos hgrow]
    rcases realloc_cases mem v'.vec v.size (by omega) with hfail | ⟨-, hok⟩
    · rw [hfail]
      exact .inl rfl
    · rw [hok]
      exact hcopy (h'.grow (by omega) (by omega)) le_rfl
  · have hroom := BitVec.not_lt.mp hgrow
    rw [if_neg hgrow]
    exact hcopy h' (BitVec.le_def.mp hroom)

/-- With room for the element, or if the test for growth notices that it is the last one. -/
theorem pushBackElement_makes (mem : Memory) (h : v.Holds l) (hroom : v.size ≠ v.allocSize)
    (elem : Ptr) : Makes (pushBackElement mem v elem) (l ++ [elem]) := by
  have hstore {w : VectorT} (hw : w.Holds l) (hlt : l.length < w.allocSize.toNat) :
      Makes (copyInto w.vec w.size.toNat [elem] 1 >>= fun vec =>
        .ok { w with vec, size := w.size + 1 }) (l ++ [elem]) := by
    have halloc := hw.alloc_lt
    have hlen := hw.length_vec
    rw [hw.size_eq, copyInto, if_neg (by simp), if_neg (by omega), hw.take_eq]
    refine .inr ⟨_, rfl, ⟨w.vec.drop (l.length + 1), ?_⟩, ?_, ?_, halloc⟩
    · simp
    · rw [BitVec.toNat_add, hw.size_eq, List.length_append]
      exact Nat.mod_eq_of_lt (show l.length + 1 < 2 ^ 64 by omega)
    · simp only [List.length_append, List.length_map, List.length_drop, List.length_take,
        List.length_singleton]
      omega
  have halloc := h.alloc_lt
  have hle := h.length_le
  have hne : l.length ≠ v.allocSize.toNat := fun heq =>
    hroom (BitVec.eq_of_toNat_eq (h.size_eq.trans heq))
  unfold pushBackElement
  by_cases hgrow : v.size + 1 = v.allocSize
  · have hdouble : (v.allocSize + v.allocSize).toNat = v.allocSize.toNat + v.allocSize.toNat := by
      rw [BitVec.toNat_add]
      exact Nat.mod_eq_of_lt (by omega)
    rw [if_pos hgrow]
    rcases realloc_cases mem v.vec (v.allocSize + v.allocSize) (by omega) with
      hfail | ⟨hlt, hok⟩
    · dsimp only
      rw [hfail]
      exact .inl rfl
    · dsimp only
      rw [hok]
      exact hstore (h.grow hlt (by omega)) (by dsimp only; omega)
  · rw [if_neg hgrow]
    exact hstore h (by omega)

/-- The test for growth comes too late for a full vector. -/
theorem pushBackElement_full (h : v.Holds l) (hfull : v.size = v.allocSize) (elem : Ptr) :
    pushBackElement mem v elem = .error (.fault .storePast) := by
  have hlen := h.length_vec
  have hne : v.size + 1 ≠ v.allocSize := by
    rw [hfull]
    bv_omega
  unfold pushBackElement
  rw [if_neg hne]
  change (copyInto v.vec v.size.toNat [elem] 1 >>= _) = _
  rw [copyInto, if_neg (by simp), if_pos (by rw [hfull]; omega)]
  rfl

theorem popBackElement_ok (h : v.Holds (l ++ [elem])) :
    popBackElement v = .ok (elem, { v with size := v.size - 1 }) ∧
      VectorT.Holds { v with size := v.size - 1 } l := by
  obtain ⟨rest, hvec⟩ := h.written
  have hsize := h.size_eq
  rw [List.length_append, List.length_singleton] at hsize
  have hless : (v.size - 1).toNat = l.length := by bv_omega
  have hne : v.size ≠ 0 := by
    rintro heq
    rw [heq] at hsize
    cases hsize
  constructor
  · rw [popBackElement, getBackElement, if_pos hne, hless, h.readAt (List.getElem?_concat_length ..)]
    rfl
  · refine ⟨⟨some elem :: rest, ?_⟩, hless, h.length_vec, h.alloc_lt⟩
    simp [hvec]

/-- The size of an empty vector wraps. -/
theorem popBackElement_empty (h : v.Holds []) :
    popBackElement v = .ok (0, { v with size := BitVec.allOnes 64 }) := by
  have hsize : v.size = 0 := BitVec.eq_of_toNat_eq h.size_eq
  rw [popBackElement, getBackElement, hsize]
  rfl

end Elements

end MRNet.LightweightVector
