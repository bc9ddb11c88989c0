import MRNet.PacketRoundTrip
import MRNet.Runs

/-!
# Argument vectors

A packet is made from a vector of pointers to the values, and its values are handed back
through a vector of pointers to variables. An entry of a vector is given by what it points
to; an array takes two entries, the second one for its length.
-/
namespace MRNet.Wire
open NativeBytes Codec

/-- The string that a `char*` points to, without its terminator. -/
structure CString where
  chars : List Byte
  plain : 0 ∉ chars

def CString.block (s : CString) : List Byte := s.chars ++ [0]

/-- What an entry points to. -/
inductive Slot
  | byte (v : Byte)
  | half (v : BitVec 16)
  | word (v : BitVec 32)
  | dword (v : BitVec 64)
  | string (p : Option CString)
  | bytes (a : CArray Byte 1)
  | halves (a : CArray (BitVec 16) 2)
  | words (a : CArray (BitVec 32) 4)
  | dwords (a : CArray (BitVec 64) 8)
  | strings (a : CArray (Option CString) 8)

namespace Slot

def byte? : Slot → Option Byte
  | .byte v => some v
  | _ => none

def half? : Slot → Option (BitVec 16)
  | .half v => some v
  | _ => none

def word? : Slot → Option (BitVec 32)
  | .word v => some v
  | _ => none

def dword? : Slot → Option (BitVec 64)
  | .dword v => some v
  | _ => none

def string? : Slot → Option (Option CString)
  | .string p => some p
  | _ => none

def bytes? : Slot → Option (CArray Byte 1)
  | .bytes a => some a
  | _ => none

def halves? : Slot → Option (CArray (BitVec 16) 2)
  | .halves a => some a
  | _ => none

def words? : Slot → Option (CArray (BitVec 32) 4)
  | .words a => some a
  | _ => none

def dwords? : Slot → Option (CArray (BitVec 64) 8)
  | .dwords a => some a
  | _ => none

def strings? : Slot → Option (CArray (Option CString) 8)
  | .strings a => some a
  | _ => none

end Slot

namespace CArray
variable {α β : Type} {elsize : ℕ}

def take (a : CArray α elsize) (n : ℕ) : CArray α elsize :=
  ⟨a.data.take n, lt_of_le_of_lt (Nat.mul_le_mul_right _ (List.length_take_le' n a.data)) a.fits⟩

def set (a : CArray α elsize) (i : ℕ) (v : α) : CArray α elsize :=
  ⟨a.data.set i v, by rw [List.length_set]; exact a.fits⟩

def map (f : α → β) (a : CArray α elsize) : CArray β elsize :=
  ⟨a.data.map f, by rw [List.length_map]; exact a.fits⟩

end CArray

/-- The entries of a type: an array has its pointer and its length. -/
def DataType.slots : DataType → ℕ
  | .unknown => 0
  | .char | .uchar | .int16 | .uint16 | .int32 | .uint32 | .int64 | .uint64 | .float | .double
  | .string => 1
  | _ => 2

/-- An entry that points to something else than its type says is as good as none. -/
def readSlot {α : Type} (get : Slot → Option α) (idata : List Slot) (dataNdx : ℕ) : Outcome α :=
  match idata[dataNdx]?.bind get with
  | none => .error (.fault .readPast)
  | some v => return v

/-- The length of an array in 32 bits, and that of a large one in 64 bits. -/
def shortLen (s : Slot) : Option ℕ := s.word?.map BitVec.toNat
def largeLen (s : Slot) : Option ℕ := s.dword?.map BitVec.toNat

/-- The array is as much of the block as its length says. -/
def readArray {α : Type} {elsize : ℕ} (get : Slot → Option (CArray α elsize))
    (len : Slot → Option ℕ) (idata : List Slot) (dataNdx : ℕ) : Outcome (CArray α elsize) := do
  let a ← readSlot get idata dataNdx
  let n ← readSlot len idata (dataNdx + 1)
  if n ≤ a.data.length then return a.take n else .error (.fault .readPast)

def stringBlocks (a : CArray (Option CString) 8) : CArray (Option (List Byte)) 8 :=
  a.map (·.map CString.block)

/-- The switch over the type of an element. -/
def readValue (idata : List Slot) (dataNdx : ℕ) : (type : DataType) → Outcome (DataValue type)
  | .unknown => .ok ()
  | .char | .uchar => readSlot Slot.byte? idata dataNdx
  | .int16 | .uint16 => readSlot Slot.half? idata dataNdx
  | .int32 | .uint32 | .float => readSlot Slot.word? idata dataNdx
  | .int64 | .uint64 | .double => readSlot Slot.dword? idata dataNdx
  | .charArray | .ucharArray => readArray Slot.bytes? shortLen idata dataNdx
  | .int16Array | .uint16Array => readArray Slot.halves? shortLen idata dataNdx
  | .int32Array | .uint32Array | .floatArray => readArray Slot.words? shortLen idata dataNdx
  | .int64Array | .uint64Array | .doubleArray => readArray Slot.dwords? shortLen idata dataNdx
  | .stringArray => do return stringBlocks (← readArray Slot.strings? shortLen idata dataNdx)
  | .charLrgArray | .ucharLrgArray => readArray Slot.bytes? largeLen idata dataNdx
  | .int16LrgArray | .uint16LrgArray => readArray Slot.halves? largeLen idata dataNdx
  | .int32LrgArray | .uint32LrgArray | .floatLrgArray =>
      readArray Slot.words? largeLen idata dataNdx
  | .int64LrgArray | .uint64LrgArray | .doubleLrgArray =>
      readArray Slot.dwords? largeLen idata dataNdx
  | .stringLrgArray => do return stringBlocks (← readArray Slot.strings? largeLen idata dataNdx)
  | .string => do return (← readSlot Slot.string? idata dataNdx).map CString.block

/-- The loop over the tokens: the return value, the elements, and the next entry. -/
def argVecLoop (idata : List Slot) :
    List (List Byte) → ℕ → List DataElement → Outcome (Bool × List DataElement × ℕ)
  | [], dataNdx, elems => return (true, elems, dataNdx)
  | curFmt :: toks, dataNdx, elems =>
      if fmt2Type curFmt = .unknown then return (false, elems, dataNdx)
      else do
        let v ← readValue idata dataNdx (fmt2Type curFmt)
        argVecLoop idata toks (dataNdx + (fmt2Type curFmt).slots) (elems ++ [⟨fmt2Type curFmt, v⟩])

def argVec2DataElementArray (fmt : List Byte) (idata : List Slot) :
    Outcome (Bool × List DataElement × ℕ) :=
  argVecLoop idata (Tokenizer.tokens fmt delim) 0 []

section Out
variable (host : Host)

/-- `strdup`, with the assertion behind it. -/
def strdup (p : Option (List Byte)) : Outcome CString :=
  match p with
  | none => .error (.fault .nullPointer)
  | some block =>
      if 0 ∈ block then
        let chars := block.takeWhile (· ≠ 0)
        match host.malloc (chars.length + 1) with
        | none => .error (.fault .assertion)
        | some _ => return ⟨chars, fun h => by simpa using List.mem_takeWhile_imp h⟩
      else .error (.fault .readPast)

/-- The number of bytes of an array, in 64 bits. -/
def CArray.size {α : Type} {elsize : ℕ} (a : CArray α elsize) : BitVec 64 :=
  a.arrayLen * BitVec.ofNat 64 elsize

/-- The array is copied with `memcpy`; nothing is allocated for an empty one. -/
def copied {α : Type} {elsize : ℕ} (a : CArray α elsize) : Outcome (CArray α elsize) :=
  if 0 < a.size then
    match host.malloc a.size.toNat with
    | none => .error (.fault .assertion)
    | some _ => return a
  else return CArray.empty

/-- The loop over the strings of an array. Its index has 32 bits. -/
def strdupLoop (data : List (Option (List Byte))) (arrayLen : BitVec 64) :
    ℕ → BitVec 32 → CArray (Option CString) 8 → Run (CArray (Option CString) 8)
  | 0, _, _ => ExceptT.mk none
  | fuel + 1, j, tmpArray =>
      if j.setWidth 64 < arrayLen then
        match data[j.toNat]? with
        | none => throw (.fault .readPast)
        | some p => do
            let copy ← strdup host p
            strdupLoop data arrayLen fuel (j + 1) (tmpArray.set j.toNat (some copy))
      else return tmpArray

def copiedStrings (fuel : ℕ) (a : CArray (Option (List Byte)) 8) :
    Run (CArray (Option CString) 8) :=
  if 0 < a.size then
    match host.malloc a.size.toNat with
    | none => throw (.fault .assertion)
    | some _ => strdupLoop host a.data a.arrayLen fuel 0 (a.map fun _ => none)
  else return CArray.empty

def shortSlot {α : Type} {elsize : ℕ} (a : CArray α elsize) : Slot := .word (a.arrayLen.setWidth 32)
def largeSlot {α : Type} {elsize : ℕ} (a : CArray α elsize) : Slot := .dword a.arrayLen

/-- The switch over the type of an element: what is stored through the next pointers. -/
def extract (fuel : ℕ) : (type : DataType) → DataValue type → Run (List Slot)
  | .unknown, _ => return []
  | .char, v | .uchar, v => return [.byte v]
  | .int16, v | .uint16, v => return [.half v]
  | .int32, v | .uint32, v | .float, v => return [.word v]
  | .int64, v | .uint64, v | .double, v => return [.dword v]
  | .string, v => do return [.string (some (← strdup host v))]
  | .charLrgArray, v | .ucharLrgArray, v => do return [.bytes (← copied host v), largeSlot v]
  | .charArray, v | .ucharArray, v => do return [.bytes (← copied host v), shortSlot v]
  | .int32LrgArray, v | .uint32LrgArray, v | .floatLrgArray, v => do
      return [.words (← copied host v), largeSlot v]
  | .int32Array, v | .uint32Array, v | .floatArray, v => do
      return [.words (← copied host v), shortSlot v]
  | .int16LrgArray, v | .uint16LrgArray, v => do return [.halves (← copied host v), largeSlot v]
  | .int16Array, v | .uint16Array, v => do return [.halves (← copied host v), shortSlot v]
  | .int64LrgArray, v | .uint64LrgArray, v | .doubleLrgArray, v => do
      return [.dwords (← copied host v), largeSlot v]
  | .int64Array, v | .uint64Array, v | .doubleArray, v => do
      return [.dwords (← copied host v), shortSlot v]
  | .stringLrgArray, v => do return [.strings (← copiedStrings host fuel v), largeSlot v]
  | .stringArray, v => do return [.strings (← copiedStrings host fuel v), shortSlot v]

def DataType.isStringArray : DataType → Bool
  | .stringArray | .stringLrgArray => true
  | _ => false

/-- The index is advanced once more for the length of an array of strings. -/
def DataType.slotsOut (type : DataType) : ℕ := type.slots + if type.isStringArray then 1 else 0

/-- Values are stored through one entry after the other. -/
def store (odata : List Slot) (dataNdx : ℕ) : List Slot → Outcome (List Slot)
  | [] => return odata
  | s :: slots =>
      if dataNdx < odata.length then store (odata.set dataNdx s) (dataNdx + 1) slots
      else .error (.fault .readPast)

/-- The loop over the tokens, with the elements that are left. -/
def argVecOutLoop (fuel : ℕ) :
    List (List Byte) → List DataElement → ℕ → List Slot → Run (Bool × List Slot)
  | [], _, _, odata => return (true, odata)
  | _ :: _, [], _, _ => throw (.fault .readPast)
  | curFmt :: toks, curElem :: elems, dataNdx, odata =>
      if curElem.type ≠ fmt2Type curFmt then throw (.fault .assertion)
      else if curElem.type = .unknown then return (false, odata)
      else do
        let slots ← extract host fuel curElem.type curElem.val
        let odata ← store odata dataNdx slots
        argVecOutLoop fuel toks elems (dataNdx + curElem.type.slotsOut) odata

def dataElementArray2ArgVec (fuel : ℕ) (fmt : List Byte) (elems : List DataElement)
    (odata : List Slot) : Run (Bool × List Slot) :=
  argVecOutLoop host fuel (Tokenizer.tokens fmt delim) elems 0 odata

end Out

section Copies
variable {host : Host} (ha : host.Allocates)
include ha

lemma strdup_block (c : CString) : strdup host (some c.block) = .ok c := by
  obtain ⟨chars, hplain⟩ := c
  have htake : (chars ++ [0]).takeWhile (· ≠ 0) = chars := by
    rw [List.takeWhile_append_of_pos fun b hb => by
      simpa using fun heq : b = 0 => hplain (heq ▸ hb)]
    simp
  obtain ⟨block, hblock⟩ := Option.isSome_iff_exists.mp (ha (chars.length + 1))
  simp only [strdup, CString.block, List.mem_append, List.mem_singleton, or_true, if_true, htake,
    hblock]
  rfl

omit ha in
lemma CArray.size_toNat {α : Type} {elsize : ℕ} (helem : 0 < elsize) (a : CArray α elsize) :
    a.size.toNat = a.data.length * elsize := by
  rw [CArray.size, BitVec.toNat_mul, CArray.arrayLen_toNat helem, BitVec.toNat_ofNat, Nat.mul_mod_mod,
    Nat.mod_eq_of_lt a.fits]

omit ha in
lemma CArray.size_pos_iff {α : Type} {elsize : ℕ} (helem : 0 < elsize) (a : CArray α elsize) :
    0 < a.size ↔ a.data ≠ [] := by
  rw [BitVec.lt_def, CArray.size_toNat helem, ← List.length_pos_iff]
  exact ⟨fun h => Nat.pos_of_mul_pos_right h, fun h => Nat.mul_pos h helem⟩

lemma copied_eq {α : Type} {elsize : ℕ} (helem : 0 < elsize) (a : CArray α elsize) :
    copied host a = .ok a := by
  obtain ⟨block, hblock⟩ := Option.isSome_iff_exists.mp (ha a.size.toNat)
  rw [copied]
  by_cases hpos : 0 < a.size
  · rw [if_pos hpos, hblock]
    rfl
  · rw [if_neg hpos]
    rw [CArray.size_pos_iff helem, not_not] at hpos
    rw [CArray.eq_empty hpos]
    rfl

/-- The loop ends if its index can reach the length. -/
lemma strdupLoop_returns {cs : List CString} {arrayLen : BitVec 64} (hlen : arrayLen.toNat = cs.length)
    (hshort : cs.length < 2 ^ 32) {i : ℕ} (hi : i ≤ cs.length) {tmpArray : CArray (Option CString) 8}
    (htmp : tmpArray.data.length = cs.length) (hdone : ∀ k < i, tmpArray.data[k]? = cs[k]?.map some) :
    ∃ a : CArray (Option CString) 8, a.data = cs.map some ∧
      Returns (fun fuel => strdupLoop host (cs.map fun c => some c.block) arrayLen fuel
        (BitVec.ofNat 32 i) tmpArray) a := by
  induction hn : cs.length - i generalizing i tmpArray with
  | zero =>
      have hend : i = cs.length := by omega
      subst hend
      refine ⟨tmpArray, List.ext_getElem? fun k => ?_, 1, fun fuel hfuel => ?_⟩
      · rw [List.getElem?_map]
        by_cases hk : k < cs.length
        · exact hdone k hk
        · rw [List.getElem?_eq_none (by omega), List.getElem?_eq_none (by omega)]
          rfl
      · obtain ⟨fuel, rfl⟩ : ∃ f, fuel = f + 1 := ⟨fuel - 1, by omega⟩
        dsimp only
        rw [strdupLoop, if_neg]
        rw [BitVec.lt_def, BitVec.toNat_setWidth, BitVec.toNat_ofNat, hlen]
        omega
  | succ n ih =>
      have hlt : i < cs.length := by omega
      obtain ⟨c, hc⟩ : ∃ c, cs[i]? = some c := ⟨cs[i], List.getElem?_eq_getElem hlt⟩
      have hdone' : ∀ k < i + 1, (tmpArray.set i (some c)).data[k]? = cs[k]?.map some := by
        intro k hk
        rw [CArray.set, List.getElem?_set]
        by_cases hki : i = k
        · subst hki
          rw [if_pos rfl, if_pos (by omega), hc]
          rfl
        · rw [if_neg hki]
          exact hdone k (by omega)
      obtain ⟨a, ha', fuel₀, hfuel₀⟩ := ih (by omega)
        (show (tmpArray.set i (some c)).data.length = cs.length by
          rw [CArray.set, List.length_set, htmp]) hdone' (by omega)
      refine ⟨a, ha', fuel₀ + 1, fun fuel hfuel => ?_⟩
      obtain ⟨fuel, rfl⟩ : ∃ f, fuel = f + 1 := ⟨fuel - 1, by omega⟩
      have hnat : (BitVec.ofNat 32 i).toNat = i := by
        rw [BitVec.toNat_ofNat, Nat.mod_eq_of_lt (by omega)]
      dsimp only
      rw [strdupLoop, if_pos, hnat, List.getElem?_map, hc, Option.map_some]
      · dsimp only
        have hrest := hfuel₀ fuel (by omega)
        rw [BitVec.ofNat_add] at hrest
        rw [strdup_block ha]
        exact hrest
      · rw [BitVec.lt_def, BitVec.toNat_setWidth, hnat, hlen]
        omega

omit ha in
lemma eq_map_some {α : Type} {l : List (Option α)} (h : none ∉ l) : ∃ xs : List α,
    l = xs.map some := by
  induction l with
  | nil => exact ⟨[], rfl⟩
  | cons p l ih =>
      rw [List.mem_cons, not_or] at h
      obtain ⟨xs, rfl⟩ := ih h.2
      obtain ⟨x, rfl⟩ := Option.ne_none_iff_exists'.mp (Ne.symm h.1)
      exact ⟨x :: xs, rfl⟩

/-- An array of strings is copied if none is null and the index reaches its length. -/
lemma copiedStrings_returns (a : CArray (Option CString) 8) (hnull : none ∉ a.data)
    (hshort : a.data.length < 2 ^ 32) :
    Returns (fun fuel => copiedStrings host fuel (stringBlocks a)) a := by
  obtain ⟨cs, hcs⟩ := eq_map_some hnull
  have hdata : (stringBlocks a).data = cs.map fun c => some c.block := by
    show a.data.map _ = _
    rw [hcs, List.map_map]
    rfl
  have hlength : (stringBlocks a).data.length = cs.length := by rw [hdata, List.length_map]
  have hcount : cs.length = a.data.length := by rw [hcs, List.length_map]
  obtain ⟨block, hblock⟩ := Option.isSome_iff_exists.mp (ha (stringBlocks a).size.toNat)
  by_cases hpos : 0 < (stringBlocks a).size
  · obtain ⟨b, hb, hreturns⟩ := strdupLoop_returns ha
      ((CArray.arrayLen_toNat (by decide) (stringBlocks a)).trans hlength) (by omega)
      (Nat.zero_le _) (show ((stringBlocks a).map fun _ => none).data.length = cs.length by
        rw [CArray.map, List.length_map, hlength]) nofun
    have hba : b = a := by
      cases a
      cases b
      simp only [CArray.mk.injEq]
      exact hb.trans hcs.symm
    rw [hba, ← hdata] at hreturns
    simp only [copiedStrings, if_pos hpos, hblock]
    exact hreturns
  · have hempty : (stringBlocks a).data = [] := by
      rwa [CArray.size_pos_iff (by decide), not_not] at hpos
    rw [hempty, List.length_nil] at hlength
    have hdata : a.data = [] := List.length_eq_zero_iff.mp (by omega)
    simp only [copiedStrings, if_neg hpos]
    rw [CArray.eq_empty hdata]
    exact Returns.of_pure _

end Copies

section Reads
variable {idata odata : List Slot} {dataNdx m : ℕ}

lemma readSlot_ok {α : Type} {get : Slot → Option α} {v : α} :
    readSlot get idata dataNdx = .ok v ↔ idata[dataNdx]?.bind get = some v := by
  unfold readSlot
  cases idata[dataNdx]?.bind get with
  | none => exact ⟨nofun, nofun⟩
  | some w =>
      exact ⟨fun h => congrArg some (Except.ok.inj h),
        fun h => congrArg Except.ok (Option.some.inj h)⟩

/-- The slots are found from an entry on. -/
def Holds (odata : List Slot) (m : ℕ) (slots : List Slot) : Prop :=
  ∀ i < slots.length, odata[m + i]? = slots[i]?

lemma Holds.readSlot {α : Type} {get : Slot → Option α} {s : Slot} {slots : List Slot}
    (h : Holds odata m (s :: slots)) {v : α} (hget : get s = some v) :
    readSlot get odata m = .ok v := by
  have hfirst := h 0 (Nat.succ_pos _)
  rw [Nat.add_zero, List.getElem?_cons_zero] at hfirst
  rw [readSlot_ok, hfirst]
  exact hget

lemma Holds.tail {s : Slot} {slots : List Slot} (h : Holds odata m (s :: slots)) :
    Holds odata (m + 1) slots := by
  intro i hi
  have hnext := h (i + 1) (Nat.succ_lt_succ hi)
  rwa [List.getElem?_cons_succ, ← Nat.add_assoc, Nat.add_right_comm] at hnext

section Arrays
variable {α : Type} {elsize : ℕ} {get : Slot → Option (CArray α elsize)} {len : Slot → Option ℕ}
  {a : CArray α elsize}

/-- The length of an array that is read stands in the second entry. -/
lemma readArray_len (h : readArray get len idata dataNdx = .ok a) :
    readSlot len idata (dataNdx + 1) = .ok a.data.length := by
  obtain ⟨b, -, h⟩ := bind_ok_iff.mp h
  obtain ⟨n, hn, h⟩ := bind_ok_iff.mp h
  split_ifs at h with hle
  cases h
  rw [hn, CArray.take, List.length_take, Nat.min_eq_left hle]

lemma Holds.readArray {s t : Slot} (h : Holds odata m [s, t]) (hget : get s = some a)
    (hlen : len t = some a.data.length) : readArray get len odata m = .ok a := by
  have hsame : a.take a.data.length = a := by
    cases a
    simp [CArray.take]
  rw [Wire.readArray, h.readSlot hget, ok_bind, h.tail.readSlot hlen, ok_bind, if_pos le_rfl, hsame]
  rfl

lemma shortLen_lt (h : readArray get shortLen idata dataNdx = .ok a) : a.data.length < 2 ^ 32 := by
  have hlen := readSlot_ok.mp (readArray_len h)
  obtain ⟨s, -, hs⟩ := Option.bind_eq_some_iff.mp hlen
  obtain ⟨v, -, hv⟩ := Option.map_eq_some_iff.mp hs
  rw [← hv]
  exact v.isLt

lemma shortLen_slot (helem : 0 < elsize) (h : a.data.length < 2 ^ 32) :
    shortLen (shortSlot a) = some a.data.length := by
  show some (a.arrayLen.setWidth 32).toNat = _
  rw [BitVec.toNat_setWidth, CArray.arrayLen_toNat helem, Nat.mod_eq_of_lt h]

lemma largeLen_slot (helem : 0 < elsize) (a : CArray α elsize) :
    largeLen (largeSlot a) = some a.data.length :=
  congrArg some (CArray.arrayLen_toNat helem a)

end Arrays

lemma noNull_of_blocks {a : CArray (Option CString) 8} (h : none ∉ (stringBlocks a).data) :
    none ∉ a.data :=
  fun hmem => h (List.mem_map_of_mem (f := Option.map CString.block) hmem)

/-- The value can be handed back: no string is null, and a large array of strings is shorter
than the index of the loop over it can tell. -/
structure Unpackable (type : DataType) (v : DataValue type) : Prop where
  noNull : none ∉ DataValue.strings type v
  short : type = .stringLrgArray → DataValue.arrayLen type v < 2 ^ 32

/-- The slots are stored for the value, and are read as the value. -/
structure Stores (host : Host) (type : DataType) (v : DataValue type) (slots : List Slot) :
    Prop where
  length_eq : slots.length = type.slots
  returns : Returns (fun fuel => extract host fuel type v) slots
  reads : ∀ odata m, Holds odata m slots → readValue odata m type = .ok v

variable {host : Host} (ha : host.Allocates)
include ha

section Arrays
variable {α : Type} {elsize : ℕ} {get : Slot → Option (CArray α elsize)}
  {mk : CArray α elsize → Slot} (helem : 0 < elsize) (hmk : ∀ a, get (mk a) = some a)
include helem hmk

lemma shortArray_stored {a : CArray α elsize}
    (h : readArray get shortLen idata dataNdx = .ok a) :
    Returns (fun _ => do return [mk (← copied host a), shortSlot a]) [mk a, shortSlot a] ∧
      ∀ odata m, Holds odata m [mk a, shortSlot a] → readArray get shortLen odata m = .ok a :=
  ⟨Returns.lift (copied_eq ha helem a) (Returns.of_pure _), fun _ _ hholds =>
    hholds.readArray (hmk a) (shortLen_slot helem (shortLen_lt h))⟩

lemma largeArray_stored (a : CArray α elsize) :
    Returns (fun _ => do return [mk (← copied host a), largeSlot a]) [mk a, largeSlot a] ∧
      ∀ odata m, Holds odata m [mk a, largeSlot a] → readArray get largeLen odata m = .ok a :=
  ⟨Returns.lift (copied_eq ha helem a) (Returns.of_pure _), fun _ _ hholds =>
    hholds.readArray (hmk a) (largeLen_slot helem a)⟩

end Arrays

theorem exists_stores {type : DataType} {v : DataValue type} (hne : type ≠ .unknown)
    (h : readValue idata dataNdx type = .ok v) (hv : Unpackable type v) :
    ∃ slots, Stores host type v slots := by
  cases type with
  | unknown => exact absurd rfl hne
  | char | uchar =>
      exact ⟨[.byte v], rfl, Returns.of_pure _, fun _ _ hholds => hholds.readSlot rfl⟩
  | int16 | uint16 =>
      exact ⟨[.half v], rfl, Returns.of_pure _, fun _ _ hholds => hholds.readSlot rfl⟩
  | int32 | uint32 | float =>
      exact ⟨[.word v], rfl, Returns.of_pure _, fun _ _ hholds => hholds.readSlot rfl⟩
  | int64 | uint64 | double =>
      exact ⟨[.dword v], rfl, Returns.of_pure _, fun _ _ hholds => hholds.readSlot rfl⟩
  | charArray | ucharArray =>
      obtain ⟨hreturns, hreads⟩ := shortArray_stored ha (by decide)
        (show ∀ a, Slot.bytes? (.bytes a) = some a from fun _ => rfl) h
      exact ⟨_, rfl, hreturns, hreads⟩
  | int16Array | uint16Array =>
      obtain ⟨hreturns, hreads⟩ := shortArray_stored ha (by decide)
        (show ∀ a, Slot.halves? (.halves a) = some a from fun _ => rfl) h
      exact ⟨_, rfl, hreturns, hreads⟩
  | int32Array | uint32Array | floatArray =>
      obtain ⟨hreturns, hreads⟩ := shortArray_stored ha (by decide)
        (show ∀ a, Slot.words? (.words a) = some a from fun _ => rfl) h
      exact ⟨_, rfl, hreturns, hreads⟩
  | int64Array | uint64Array | doubleArray =>
      obtain ⟨hreturns, hreads⟩ := shortArray_stored ha (by decide)
        (show ∀ a, Slot.dwords? (.dwords a) = some a from fun _ => rfl) h
      exact ⟨_, rfl, hreturns, hreads⟩
  | charLrgArray | ucharLrgArray =>
      obtain ⟨hreturns, hreads⟩ := largeArray_stored ha (by decide)
        (show ∀ a, Slot.bytes? (.bytes a) = some a from fun _ => rfl) v
      exact ⟨_, rfl, hreturns, hreads⟩
  | int16LrgArray | uint16LrgArray =>
      obtain ⟨hreturns, hreads⟩ := largeArray_stored ha (by decide)
        (show ∀ a, Slot.halves? (.halves a) = some a from fun _ => rfl) v
      exact ⟨_, rfl, hreturns, hreads⟩
  | int32LrgArray | uint32LrgArray | floatLrgArray =>
      obtain ⟨hreturns, hreads⟩ := largeArray_stored ha (by decide)
        (show ∀ a, Slot.words? (.words a) = some a from fun _ => rfl) v
      exact ⟨_, rfl, hreturns, hreads⟩
  | int64LrgArray | uint64LrgArray | doubleLrgArray =>
      obtain ⟨hreturns, hreads⟩ := largeArray_stored ha (by decide)
        (show ∀ a, Slot.dwords? (.dwords a) = some a from fun _ => rfl) v
      exact ⟨_, rfl, hreturns, hreads⟩
  | string =>
      obtain ⟨p, hp, h⟩ := bind_ok_iff.mp h
      cases h
      cases p with
      | none => exact absurd (List.mem_singleton_self _) hv.noNull
      | some c =>
          refine ⟨[.string (some c)], rfl, Returns.lift (strdup_block ha c) (Returns.of_pure _),
            fun odata m hholds => ?_⟩
          have hread : readSlot Slot.string? odata m = .ok (some c) := hholds.readSlot rfl
          exact bind_ok_iff.mpr ⟨_, hread, rfl⟩
  | stringArray =>
      obtain ⟨a, hread, h⟩ := bind_ok_iff.mp h
      cases h
      have hlen : (stringBlocks a).data.length = a.data.length := List.length_map _
      refine ⟨[.strings a, shortSlot (stringBlocks a)], rfl,
        Returns.bind (copiedStrings_returns ha a (noNull_of_blocks hv.noNull) (shortLen_lt hread))
          (Returns.of_pure _), fun odata m hholds => ?_⟩
      have hslot := shortLen_slot (a := stringBlocks a) (by decide) (hlen ▸ shortLen_lt hread)
      exact bind_ok_iff.mpr ⟨a, hholds.readArray rfl (hlen ▸ hslot), rfl⟩
  | stringLrgArray =>
      obtain ⟨a, hread, h⟩ := bind_ok_iff.mp h
      cases h
      have hlen : (stringBlocks a).data.length = a.data.length := List.length_map _
      refine ⟨[.strings a, largeSlot (stringBlocks a)], rfl,
        Returns.bind (copiedStrings_returns ha a (noNull_of_blocks hv.noNull)
          (hlen ▸ hv.short rfl)) (Returns.of_pure _), fun odata m hholds => ?_⟩
      have hslot := largeLen_slot (by decide) (stringBlocks a)
      exact bind_ok_iff.mpr ⟨a, hholds.readArray rfl (hlen ▸ hslot), rfl⟩

omit ha

lemma strdup_ok {p : Option (List Byte)} {c : CString} (h : strdup host p = .ok c) : p ≠ none := by
  rintro rfl
  cases h

/-- A loop that ends has an index that can reach the length, and has seen no null pointer. -/
lemma strdupLoop_pure {data : List (Option (List Byte))} {arrayLen : BitVec 64} {fuel : ℕ}
    {j : BitVec 32} {tmpArray b : CArray (Option CString) 8}
    (h : strdupLoop host data arrayLen fuel j tmpArray = pure b) :
    arrayLen.toNat < 2 ^ 32 ∧ ∀ k, j.toNat ≤ k → k < arrayLen.toNat → data[k]? ≠ some none := by
  induction fuel generalizing j tmpArray with
  | zero => cases h
  | succ fuel ih =>
      rw [strdupLoop] at h
      have hj := j.isLt
      have hlt : j.setWidth 64 < arrayLen ↔ j.toNat < arrayLen.toNat := by
        rw [BitVec.lt_def, BitVec.toNat_setWidth, Nat.mod_eq_of_lt (by omega)]
      split_ifs at h with hmore <;> rw [hlt] at hmore
      · cases hp : data[j.toNat]? with
        | none =>
            rw [hp] at h
            cases h
        | some p =>
            rw [hp] at h
            obtain ⟨c, hc, h⟩ := run_bind_eq_pure.mp h
            obtain ⟨hshort, hrest⟩ := ih h
            have hnext : (j + 1).toNat = j.toNat + 1 := by
              rw [BitVec.toNat_add, Nat.mod_eq_of_lt]
              · rfl
              · show j.toNat + 1 < 2 ^ 32
                omega
            refine ⟨hshort, fun k hk hk' => ?_⟩
            rcases Nat.eq_or_lt_of_le hk with rfl | hk
            · rw [hp]
              exact fun heq => strdup_ok (lift_eq_pure.mp hc) (Option.some.inj heq)
            · exact hrest k (by omega) hk'
      · exact ⟨by omega, fun k hk hk' => by omega⟩

lemma copiedStrings_pure {a : CArray (Option (List Byte)) 8} {b : CArray (Option CString) 8}
    {fuel : ℕ} (h : copiedStrings host fuel a = pure b) :
    none ∉ a.data ∧ a.data.length < 2 ^ 32 := by
  have hlen := CArray.arrayLen_toNat (by decide) a
  unfold copiedStrings at h
  split_ifs at h with hpos
  · cases hblock : host.malloc a.size.toNat with
    | none =>
        rw [hblock] at h
        cases h
    | some block =>
        rw [hblock] at h
        obtain ⟨hshort, hall⟩ := strdupLoop_pure h
        refine ⟨fun hmem => ?_, hlen ▸ hshort⟩
        obtain ⟨k, hk, hget⟩ := List.getElem_of_mem hmem
        exact hall k (Nat.zero_le k) (hlen ▸ hk) (List.getElem?_eq_some_iff.mpr ⟨hk, hget⟩)
  · rw [CArray.size_pos_iff (by decide), not_not] at hpos
    rw [hpos]
    exact ⟨List.not_mem_nil, by decide⟩

/-- What is stored for a value that can be handed back takes the entries of its type. -/
lemma extract_pure {type : DataType} {v : DataValue type} {fuel : ℕ} {slots : List Slot}
    (h : extract host fuel type v = pure slots) :
    Unpackable type v ∧ slots.length = type.slots := by
  cases type with
  | unknown | char | uchar | int16 | uint16 | int32 | uint32 | float | int64 | uint64 | double =>
      cases h
      exact ⟨⟨List.not_mem_nil, nofun⟩, rfl⟩
  | charArray | ucharArray | int16Array | uint16Array | int32Array | uint32Array | floatArray
  | int64Array | uint64Array | doubleArray | charLrgArray | ucharLrgArray | int16LrgArray
  | uint16LrgArray | int32LrgArray | uint32LrgArray | floatLrgArray | int64LrgArray
  | uint64LrgArray | doubleLrgArray =>
      obtain ⟨a, -, h⟩ := run_bind_eq_pure.mp h
      cases h
      exact ⟨⟨List.not_mem_nil, nofun⟩, rfl⟩
  | string =>
      obtain ⟨c, hc, h⟩ := run_bind_eq_pure.mp h
      cases h
      exact ⟨⟨fun hmem => strdup_ok (lift_eq_pure.mp hc) (List.mem_singleton.mp hmem).symm, nofun⟩,
        rfl⟩
  | stringArray | stringLrgArray =>
      obtain ⟨b, hb, h⟩ := run_bind_eq_pure.mp h
      cases h
      obtain ⟨hnull, hshort⟩ := copiedStrings_pure hb
      exact ⟨⟨hnull, fun _ => hshort⟩, rfl⟩

/-- The entries of the types in their order. -/
def entries (types : List DataType) : ℕ := (types.map DataType.slots).sum

/-- The entries up to the last one that is stored. -/
def extent : List DataType → ℕ
  | [] => 0
  | [type] => type.slots
  | type :: types => type.slotsOut + extent types

lemma entries_cons (type : DataType) (types : List DataType) :
    entries (type :: types) = type.slots + entries types := by
  rw [entries, List.map_cons, List.sum_cons]
  rfl

lemma extent_cons {types : List DataType} (hne : types ≠ []) (type : DataType) :
    extent (type :: types) = type.slotsOut + extent types := by
  obtain ⟨t, ts, rfl⟩ := List.exists_cons_of_ne_nil hne
  rfl

/-- An array of strings that is not the last element makes the elements after it miss their
entries. -/
lemma extent_le_iff (types : List DataType) : entries types ≤ extent types ∧
    (extent types ≤ entries types ↔ ∀ type ∈ types.dropLast, type.isStringArray = false) := by
  induction types with
  | nil => exact ⟨le_rfl, iff_of_true le_rfl nofun⟩
  | cons type types ih =>
      rw [entries_cons]
      cases types with
      | nil => exact ⟨le_rfl, iff_of_true le_rfl nofun⟩
      | cons t ts =>
          rw [extent_cons (List.cons_ne_nil t ts), DataType.slotsOut, List.dropLast_cons_cons,
            List.forall_mem_cons, ← ih.2]
          have hle := ih.1
          cases type.isStringArray with
          | true =>
              rw [if_pos rfl]
              exact ⟨by omega, iff_of_false (by omega) (fun h => nomatch h.1)⟩
          | false =>
              rw [if_neg Bool.false_ne_true]
              exact ⟨by omega, ⟨fun h => ⟨rfl, by omega⟩, fun h => by omega⟩⟩

/-- The elements have the types of the tokens, and each one is read at its entry. -/
inductive ReadFrom (idata : List Slot) : List (List Byte) → ℕ → List DataElement → Prop
  | nil {ndx} : ReadFrom idata [] ndx []
  | cons {curFmt toks ndx v elems} (hne : fmt2Type curFmt ≠ .unknown)
      (hv : readValue idata ndx (fmt2Type curFmt) = .ok v)
      (rest : ReadFrom idata toks (ndx + (fmt2Type curFmt).slots) elems) :
      ReadFrom idata (curFmt :: toks) ndx (⟨fmt2Type curFmt, v⟩ :: elems)

theorem argVecLoop_true {toks : List (List Byte)} {before elems : List DataElement} {n : ℕ} :
    argVecLoop idata toks dataNdx before = .ok (true, elems, n) ↔
      ∃ new, ReadFrom idata toks dataNdx new ∧ elems = before ++ new ∧
        n = dataNdx + entries (toks.map fmt2Type) := by
  induction toks generalizing dataNdx before with
  | nil =>
      constructor
      · intro h
        cases h
        exact ⟨[], .nil, (List.append_nil _).symm, rfl⟩
      · rintro ⟨_, ⟨⟩, rfl, rfl⟩
        rw [List.append_nil]
        rfl
  | cons curFmt toks ih =>
      rw [argVecLoop, List.map_cons, entries_cons, ← Nat.add_assoc]
      by_cases hne : fmt2Type curFmt = .unknown
      · rw [if_pos hne]
        constructor
        · intro h
          cases h
        · rintro ⟨new, hnew, -⟩
          cases hnew with
          | cons hne' _ _ => exact absurd hne hne'
      · rw [if_neg hne, bind_ok_iff]
        constructor
        · rintro ⟨v, hv, h⟩
          obtain ⟨new, hnew, rfl, rfl⟩ := ih.mp h
          exact ⟨_, .cons hne hv hnew, (List.append_cons _ _ _).symm, rfl⟩
        · rintro ⟨new, hnew, rfl, rfl⟩
          cases hnew with
          | cons _ hv rest => exact ⟨_, hv, ih.mpr ⟨_, rest, List.append_cons _ _ _, rfl⟩⟩

/-- The slots are stored, and nothing else has changed. -/
structure Stored (odata odata' : List Slot) (m n : ℕ) : Prop where
  length_eq : odata'.length = odata.length
  frame : ∀ i, i < m ∨ m + n ≤ i → odata'[i]? = odata[i]?

lemma store_fits {slots : List Slot} (h : m + slots.length ≤ odata.length) :
    ∃ odata', store odata m slots = .ok odata' ∧ Holds odata' m slots ∧
      Stored odata odata' m slots.length := by
  induction slots generalizing odata m with
  | nil => exact ⟨odata, rfl, nofun, rfl, fun _ _ => rfl⟩
  | cons s slots ih =>
      rw [List.length_cons] at h
      obtain ⟨odata', hstore, hholds, hlength, hframe⟩ := ih
        (show m + 1 + slots.length ≤ (odata.set m s).length by rw [List.length_set]; omega)
      refine ⟨odata', ?_, fun i hi => ?_, hlength.trans List.length_set, fun i hi => ?_⟩
      · rw [store, if_pos (by omega), hstore]
      · cases i with
        | zero =>
            rw [Nat.add_zero, hframe m (.inl (Nat.lt_succ_self m)), List.getElem?_set_self (by omega)]
            rfl
        | succ i =>
            rw [List.getElem?_cons_succ, ← hholds i (by rw [List.length_cons] at hi; omega)]
            congr 1
            omega
      · rw [List.length_cons] at hi
        rw [hframe i (by omega), List.getElem?_set_ne (by omega)]

lemma store_ok {slots odata' : List Slot} (h : store odata m slots = .ok odata') :
    odata'.length = odata.length ∧ (slots ≠ [] → m + slots.length ≤ odata.length) := by
  induction slots generalizing odata m with
  | nil =>
      cases h
      exact ⟨rfl, fun hne => absurd rfl hne⟩
  | cons s slots ih =>
      rw [store] at h
      split_ifs at h with hlt
      obtain ⟨hlength, hfits⟩ := ih h
      rw [List.length_set] at hlength hfits
      refine ⟨hlength, fun _ => ?_⟩
      cases slots with
      | nil =>
          rw [List.length_singleton]
          omega
      | cons t ts =>
          have hle := hfits (List.cons_ne_nil t ts)
          rw [List.length_cons]
          omega

lemma slots_pos {type : DataType} (h : type ≠ .unknown) : 0 < type.slots := by
  cases type <;> first | exact absurd rfl h | decide

/-- An element that can be handed back is stored at its entries. -/
theorem argVecOutLoop_returns (ha : host.Allocates) {toks : List (List Byte)}
    {elems : List DataElement} (h : ReadFrom idata toks m elems)
    (helems : ∀ e ∈ elems, Unpackable e.type e.val)
    (hlast : ∀ type ∈ (toks.map fmt2Type).dropLast, type.isStringArray = false)
    (hfits : m + entries (toks.map fmt2Type) ≤ odata.length) :
    ∃ odata', Returns (fun fuel => argVecOutLoop host fuel toks elems m odata) (true, odata') ∧
      ReadFrom odata' toks m elems ∧ Stored odata odata' m (entries (toks.map fmt2Type)) := by
  induction h generalizing odata with
  | nil => exact ⟨odata, Returns.of_pure _, .nil, rfl, fun _ _ => rfl⟩
  | @cons curFmt toks m v elems hne hv rest ih =>
      obtain ⟨hfirst, helems⟩ := List.forall_mem_cons.mp helems
      rw [List.map_cons, entries_cons] at hfits
      obtain ⟨slots, hslots⟩ := exists_stores ha hne hv hfirst
      obtain ⟨odata₁, hstore, hholds, hlength, hframe⟩ := store_fits
        (show m + slots.length ≤ odata.length by rw [hslots.length_eq]; omega)
      rw [hslots.length_eq] at hframe
      obtain ⟨odata', hrun, hread, hlength', hframe'⟩ :
          ∃ odata', Returns (fun fuel => argVecOutLoop host fuel toks elems
              (m + (fmt2Type curFmt).slotsOut) odata₁) (true, odata') ∧
            ReadFrom odata' toks (m + (fmt2Type curFmt).slots) elems ∧
            Stored odata₁ odata' (m + (fmt2Type curFmt).slots) (entries (toks.map fmt2Type)) := by
        cases rest with
        | nil => exact ⟨odata₁, Returns.of_pure _, .nil, rfl, fun _ _ => rfl⟩
        | @cons curFmt' toks' _ _ _ hne' hv' rest' =>
            rw [List.map_cons, List.map_cons, List.dropLast_cons_cons, List.forall_mem_cons] at hlast
            have hout : (fmt2Type curFmt).slotsOut = (fmt2Type curFmt).slots := by
              rw [DataType.slotsOut, hlast.1]
              rfl
            rw [hout]
            exact ih helems hlast.2 (by omega)
      refine ⟨odata', ?_, .cons hne (hslots.reads odata' m fun i hi => ?_) hread,
        hlength'.trans hlength, fun i hi => ?_⟩
      · simp only [argVecOutLoop, ne_eq, not_true_eq_false, if_false, if_neg hne]
        exact Returns.bind hslots.returns (Returns.lift hstore hrun)
      · rw [hslots.length_eq] at hi
        rw [hframe' _ (.inl (by omega)), hholds i (hslots.length_eq ▸ hi)]
      · rw [List.map_cons, entries_cons] at hi
        rw [hframe' i (by omega), hframe i (by omega)]

/-- A run that comes to an end has handed back every element, and has not left the vector. -/
theorem argVecOutLoop_pure {toks : List (List Byte)} {elems : List DataElement}
    (h : ReadFrom idata toks dataNdx elems) {fuel : ℕ} {odata' : List Slot}
    (hrun : argVecOutLoop host fuel toks elems m odata = pure (true, odata')) :
    (∀ e ∈ elems, Unpackable e.type e.val) ∧
      (toks ≠ [] → m + extent (toks.map fmt2Type) ≤ odata.length) := by
  induction h generalizing m odata with
  | nil => exact ⟨nofun, fun hne => absurd rfl hne⟩
  | @cons curFmt toks _ v elems hne hv rest ih =>
      simp only [argVecOutLoop, ne_eq, not_true_eq_false, if_false, if_neg hne] at hrun
      obtain ⟨slots, hslots, hrun⟩ := run_bind_eq_pure.mp hrun
      obtain ⟨odata₁, hstore, hrun⟩ := run_bind_eq_pure.mp hrun
      obtain ⟨hfirst, hlength⟩ := extract_pure hslots
      obtain ⟨hlength₁, hfits⟩ := store_ok (lift_eq_pure.mp hstore)
      obtain ⟨helems, hrest⟩ := ih hrun
      refine ⟨List.forall_mem_cons.mpr ⟨hfirst, helems⟩, fun _ => ?_⟩
      cases htoks : toks with
      | nil =>
          have hpos := slots_pos hne
          have hle := hfits (List.length_pos_iff.mp (hlength ▸ hpos))
          rw [hlength] at hle
          exact hle
      | cons t ts =>
          have hle := hrest (htoks ▸ List.cons_ne_nil t ts)
          rw [List.map_cons, ← htoks, extent_cons (by rw [htoks]; exact List.cons_ne_nil _ _)]
          omega

end Reads

/-- The elements are handed back at the entries they were read from, and at no others. -/
def HandsBack (host : Host) (fmt : List Byte) (elems : List DataElement) (n : ℕ) : Prop :=
  ∀ odata : List Slot, n ≤ odata.length → ∃ odata',
    Returns (fun fuel => dataElementArray2ArgVec host fuel fmt elems odata) (true, odata') ∧
      argVec2DataElementArray fmt odata' = .ok (true, elems, n) ∧
      odata'.length = odata.length ∧ ∀ i ≥ n, odata'[i]? = odata[i]?

/-- Arrays of strings come last, and all values can be handed back. -/
structure CanHandBack (fmt : List Byte) (elems : List DataElement) : Prop where
  last : ∀ tok ∈ (Tokenizer.tokens fmt delim).dropLast, (fmt2Type tok).isStringArray = false
  values : ∀ e ∈ elems, Unpackable e.type e.val

lemma map_dropLast {toks : List (List Byte)} :
    (∀ type ∈ (toks.map fmt2Type).dropLast, type.isStringArray = false) ↔
      ∀ tok ∈ toks.dropLast, (fmt2Type tok).isStringArray = false := by
  rw [← List.map_dropLast, List.forall_mem_map]

theorem handsBack_iff (host : Host) (ha : host.Allocates) (fmt : List Byte) (idata : List Slot)
    (elems : List DataElement) (n : ℕ)
    (hread : argVec2DataElementArray fmt idata = .ok (true, elems, n)) :
    HandsBack host fmt elems n ↔ CanHandBack fmt elems := by
  obtain ⟨_, hfrom, rfl, rfl⟩ := argVecLoop_true.mp hread
  rw [Nat.zero_add]
  constructor
  · intro h
    obtain ⟨odata', ⟨fuel, hrun⟩, -⟩ :=
      h (List.replicate (entries ((Tokenizer.tokens fmt delim).map fmt2Type)) (.byte 0))
        (by rw [List.length_replicate])
    obtain ⟨hvalues, hfits⟩ := argVecOutLoop_pure hfrom (hrun fuel le_rfl)
    refine ⟨map_dropLast.mp ((extent_le_iff _).2.mp ?_), hvalues⟩
    cases htoks : Tokenizer.tokens fmt delim with
    | nil => exact le_rfl
    | cons t ts =>
        have hle := hfits (htoks ▸ List.cons_ne_nil t ts)
        rwa [List.length_replicate, Nat.zero_add, htoks] at hle
  · intro h odata hlen
    obtain ⟨odata', hrun, hread', hlength, hframe⟩ := argVecOutLoop_returns ha hfrom h.values
      (map_dropLast.mpr h.last) (by rwa [Nat.zero_add])
    rw [Nat.zero_add] at hframe
    refine ⟨odata', hrun, ?_, hlength, fun i hi => hframe i (.inr hi)⟩
    exact argVecLoop_true.mpr ⟨_, hread', rfl, (Nat.zero_add _).symm⟩

/-- `"%d %s"`. -/
def numberString : List Byte := ascii ['%', 'd', ' ', '%', 's']

theorem handsBack_numberString :
    HandsBack (Host.ample .little) numberString
        [⟨.int32, (7 : BitVec 32)⟩, ⟨.string, (some [97, 0] : Option (List Byte))⟩] 2 ↔
      CanHandBack numberString
        [⟨.int32, (7 : BitVec 32)⟩, ⟨.string, (some [97, 0] : Option (List Byte))⟩] :=
  handsBack_iff _ (Host.ample_allocates _) numberString
    [.word 7, .string (some ⟨[97], by decide⟩)] _ 2 rfl

/-- `"%as %d"`. -/
def stringsNumber : List Byte := ascii ['%', 'a', 's', ' ', '%', 'd']

def oneString : CArray (Option CString) 8 := ⟨[some ⟨[97], by decide⟩], by decide⟩

/-- The number is stored behind its entry. -/
theorem stringsNumber_not_handsBack :
    argVec2DataElementArray stringsNumber [.strings oneString, .word 1, .word 7] =
        .ok (true, [⟨.stringArray, stringBlocks oneString⟩, ⟨.int32, (7 : BitVec 32)⟩], 3) ∧
      ¬HandsBack (Host.ample .little) stringsNumber
        [⟨.stringArray, stringBlocks oneString⟩, ⟨.int32, (7 : BitVec 32)⟩] 3 := by
  have hread : argVec2DataElementArray stringsNumber [.strings oneString, .word 1, .word 7] =
      .ok (true, [⟨.stringArray, stringBlocks oneString⟩, ⟨.int32, (7 : BitVec 32)⟩], 3) := rfl
  refine ⟨hread, fun h => ?_⟩
  obtain ⟨odata', ⟨fuel, hrun⟩, -⟩ := h [.byte 0, .byte 0, .byte 0] le_rfl
  obtain ⟨_, hfrom, heq, -⟩ := argVecLoop_true.mp hread
  rw [List.nil_append] at heq
  have hfits := (argVecOutLoop_pure (heq ▸ hfrom) (hrun fuel le_rfl)).2 (by decide)
  revert hfits
  decide

end MRNet.Wire
