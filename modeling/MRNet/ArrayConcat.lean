import MRNet.Buffers
import MRNet.PacketAccess
import MRNet.PacketArguments

/-!
# Concatenation of arrays

Translation of `tfilter_ArrayConcat` of `FilterDefinitions.C`. The arrays are unpacked into an
`unsigned int` for the length, whatever the format, and copied into one block. Sizes and
positions are computed in 32 bits. A block is seen as the elements that fit into it.
-/
namespace MRNet.Wire
open NativeBytes Codec Buffers

/-- The switch over the type of the first packet: the size of an element, and the format. -/
def concatSwitch : DataType → Option (BitVec 32 × CString)
  | .charArray => some (1, ⟨ascii ['%', 'a', 'c'], by decide⟩)
  | .ucharArray => some (1, ⟨ascii ['%', 'a', 'u', 'c'], by decide⟩)
  | .int16Array => some (2, ⟨ascii ['%', 'a', 'h', 'd'], by decide⟩)
  | .uint16Array => some (2, ⟨ascii ['%', 'a', 'u', 'h', 'd'], by decide⟩)
  | .int32Array => some (4, ⟨ascii ['%', 'a', 'd'], by decide⟩)
  | .uint32Array => some (4, ⟨ascii ['%', 'a', 'u', 'd'], by decide⟩)
  | .int64Array => some (8, ⟨ascii ['%', 'a', 'l', 'd'], by decide⟩)
  | .uint64Array => some (8, ⟨ascii ['%', 'a', 'u', 'l', 'd'], by decide⟩)
  | .floatArray => some (4, ⟨ascii ['%', 'a', 'f'], by decide⟩)
  | .doubleArray => some (8, ⟨ascii ['%', 'a', 'l', 'f'], by decide⟩)
  | .stringArray => some (8, ⟨ascii ['%', 'a', 's'], by decide⟩)
  | .charLrgArray => some (1, ⟨ascii ['%', 'A', 'c'], by decide⟩)
  | .ucharLrgArray => some (1, ⟨ascii ['%', 'A', 'u', 'c'], by decide⟩)
  | .int16LrgArray => some (2, ⟨ascii ['%', 'A', 'h', 'd'], by decide⟩)
  | .uint16LrgArray => some (2, ⟨ascii ['%', 'A', 'u', 'h', 'd'], by decide⟩)
  | .int32LrgArray => some (4, ⟨ascii ['%', 'A', 'd'], by decide⟩)
  | .uint32LrgArray => some (4, ⟨ascii ['%', 'A', 'u', 'd'], by decide⟩)
  | .int64LrgArray => some (8, ⟨ascii ['%', 'A', 'l', 'd'], by decide⟩)
  | .uint64LrgArray => some (8, ⟨ascii ['%', 'A', 'u', 'l', 'd'], by decide⟩)
  | .floatLrgArray => some (4, ⟨ascii ['%', 'A', 'f'], by decide⟩)
  | .doubleLrgArray => some (8, ⟨ascii ['%', 'A', 'l', 'f'], by decide⟩)
  | .stringLrgArray => some (8, ⟨ascii ['%', 'A', 's'], by decide⟩)
  | _ => none

/-- `get_FormatString`, as a string. -/
def Packet.formatString (p : Packet) : Outcome (List Byte) :=
  match p.fmtStr with
  | none => .error (.fault .nullPointer)
  | some block => cString block

/-- The pointers and lengths that were unpacked. -/
structure ConcatState where
  iarrays : List (Slot × BitVec 32)
  resultArraySize : BitVec 32

section Filter
variable (toFloat : BitVec 64 → BitVec 32) (host : Host)

/-- `tmp_arr` and `tmp_arr_len` after `unpack`. A length of eight bytes is stored past the end of
the variable. -/
def tmpArr : List Slot → Outcome (Slot × BitVec 32)
  | [arr, .word len] => return (arr, len)
  | [_, .dword _] => .error (.fault .storePast)
  | _ => .error (.fault .readPast)

/-- The body of the first loop. A packet that cannot be unpacked is left out. -/
def unpackArray (fuel : ℕ) (fmtStr : List Byte) (formatString : CString) (s : ConcatState)
    (curPacket : Packet) : Run ConcatState := do
  let curFmt ← curPacket.formatString
  if curFmt ≠ fmtStr then throw (.fault .assertion)
  else do
    let (_, ret, vars) ← curPacket.unpack host fuel (some formatString) [.word 0, .word 0]
    if ret = -1 then return s
    else do
      let (arr, len) ← tmpArr vars
      return ⟨s.iarrays ++ [(arr, len)], s.resultArraySize + len⟩

section Join
variable {α : Type} {elsize : ℕ} (dataSize : BitVec 32)

/-- `memcpy`: the elements, and how many of them are copied. -/
def plainCopy (a : CArray α elsize) (len : BitVec 32) : Outcome (List α × ℕ) :=
  return (a.data, (len * dataSize).toNat / elsize)

/-- `strdup`, without a look at the result. -/
def strdupOrNull (p : Option CString) : Outcome (Option CString) :=
  match p with
  | none => .error (.fault .nullPointer)
  | some c => return (host.malloc (c.chars.length + 1)).map fun _ => c

/-- Strings are copied one by one. -/
def stringCopy (a : CArray (Option CString) 8) (len : BitVec 32) :
    Outcome (List (Option CString) × ℕ) := do
  let copies ← (a.data.take len.toNat).mapM (strdupOrNull host)
  return (copies, len.toNat)

/-- The loop over the arrays, from a position in the result on. -/
def joinLoop (get : Slot → Option (CArray α elsize))
    (copy : CArray α elsize → BitVec 32 → Outcome (List α × ℕ)) :
    List (Slot × BitVec 32) → BitVec 32 → Block α → Outcome (Block α)
  | [], _, result => return result
  | (arr, len) :: iarrays, pos, result =>
      match get arr with
      | none => .error (.fault .readPast)
      | some a => do
          let (source, count) ← copy a len
          let result ← copyInto result (pos.toNat / elsize) source count
          joinLoop get copy iarrays (pos + len * dataSize) result

/-- The result has as many elements as its block has cells. -/
def joined (get : Slot → Option (CArray α elsize))
    (copy : CArray α elsize → BitVec 32 → Outcome (List α × ℕ)) (s : ConcatState) :
    Outcome (CArray α elsize) := do
  let size := s.resultArraySize * dataSize
  let result := allocate α (if (host.malloc size.toNat).isSome then size.toNat / elsize else 0)
  let result ← joinLoop dataSize get copy s.iarrays 0 result
  let data ← (List.range result.length).mapM (readAt result)
  if h : data.length * elsize < 2 ^ 64 then return ⟨data, h⟩ else .error (.fault .readPast)

end Join

/-- The arrays in one block, by the type of their elements. -/
def resultArray (dataSize : BitVec 32) (s : ConcatState) : DataType → Outcome Slot
  | .charArray | .ucharArray | .charLrgArray | .ucharLrgArray => do
      return .bytes (← joined host dataSize Slot.bytes? (plainCopy dataSize) s)
  | .int16Array | .uint16Array | .int16LrgArray | .uint16LrgArray => do
      return .halves (← joined host dataSize Slot.halves? (plainCopy dataSize) s)
  | .int32Array | .uint32Array | .floatArray | .int32LrgArray | .uint32LrgArray
  | .floatLrgArray => do
      return .words (← joined host dataSize Slot.words? (plainCopy dataSize) s)
  | .int64Array | .uint64Array | .doubleArray | .int64LrgArray | .uint64LrgArray
  | .doubleLrgArray => do
      return .dwords (← joined host dataSize Slot.dwords? (plainCopy dataSize) s)
  | .stringArray => do return .strings (← joined host dataSize Slot.strings? (stringCopy host) s)
  | .stringLrgArray => do return .strings (← joined host dataSize Slot.strings? (plainCopy dataSize) s)
  | _ => .error (.fault .readPast)

/-- The type is found in the format string without its first character. -/
def tfilterArrayConcat (fuel : ℕ) (ipackets : List Packet) : Run (List Packet) :=
  match ipackets with
  | [] => throw (.fault .readPast)
  | p :: rest => do
      let fmtStr ← p.formatString
      match fmtStr with
      | [] => throw (.fault .readPast)
      | _ :: fmt =>
          match concatSwitch (fmt2Type fmt) with
          | none => return []
          | some (dataSize, formatString) => do
              let s ← (p :: rest).foldlM (unpackArray host fuel fmtStr formatString) ⟨[], 0⟩
              let result ← resultArray host dataSize s (fmt2Type fmt)
              let newPacket ← construct toFloat host unknownRank p.streamId p.tag formatString
                (.list [.pointer result, .int s.resultArraySize])
              return [newPacket]

end Filter

section Copies
variable {host : Host} {α : Type} {elsize : ℕ}

/-- The number of bytes of an array whose elements fit into 32 bits. -/
lemma toNat_mul_ofNat {n : ℕ} (h : n * elsize < 2 ^ 32) :
    (BitVec.ofNat 32 n * BitVec.ofNat 32 elsize).toNat = n * elsize := by
  rw [BitVec.toNat_mul, BitVec.toNat_ofNat, BitVec.toNat_ofNat, ← Nat.mul_mod, Nat.mod_eq_of_lt h]

/-- A copy function copies the whole array if its bytes fit into 32 bits. -/
def CopiesAll (copy : CArray α elsize → BitVec 32 → Outcome (List α × ℕ)) (a : CArray α elsize) :
    Prop :=
  a.data.length * elsize < 2 ^ 32 →
    copy a (BitVec.ofNat 32 a.data.length) = .ok (a.data, a.data.length)

lemma plainCopy_copies (helem : 0 < elsize) (a : CArray α elsize) :
    CopiesAll (plainCopy (BitVec.ofNat 32 elsize)) a := by
  intro h
  rw [plainCopy, toNat_mul_ofNat h, Nat.mul_div_cancel _ helem]
  rfl

lemma stringCopy_copies (ha : host.Allocates) {a : CArray (Option CString) 8}
    (hnull : none ∉ a.data) : CopiesAll (stringCopy host) a := by
  intro h
  have hn : (BitVec.ofNat 32 a.data.length).toNat = a.data.length := by
    rw [BitVec.toNat_ofNat, Nat.mod_eq_of_lt (by omega)]
  have hcopies : ∀ l : List (Option CString), none ∉ l →
      l.mapM (strdupOrNull host) = .ok l := by
    intro l hl
    induction l with
    | nil => rfl
    | cons p l ih =>
        rw [List.mem_cons, not_or] at hl
        obtain ⟨c, rfl⟩ := Option.ne_none_iff_exists'.mp (Ne.symm hl.1)
        obtain ⟨block, hblock⟩ := Option.isSome_iff_exists.mp (ha (c.chars.length + 1))
        rw [List.mapM_cons, ih hl.2, strdupOrNull, hblock]
        rfl
  rw [stringCopy, hn, List.take_length, hcopies a.data hnull]
  rfl

section Loop
variable {get : Slot → Option (CArray α elsize)} {mk : CArray α elsize → Slot}
  {copy : CArray α elsize → BitVec 32 → Outcome (List α × ℕ)}

/-- The elements of some arrays, one after the other. -/
def allData (as : List (CArray α elsize)) : List α := (as.map CArray.data).flatten

lemma allData_cons (a : CArray α elsize) (as : List (CArray α elsize)) :
    allData (a :: as) = a.data ++ allData as := by
  rw [allData, List.map_cons, List.flatten_cons, allData]

/-- The pointers and lengths of some arrays. -/
def pointers (mk : CArray α elsize → Slot) (as : List (CArray α elsize)) :
    List (Slot × BitVec 32) :=
  as.map fun a => (mk a, BitVec.ofNat 32 a.data.length)

/-- A block that holds the arrays is filled with them. -/
lemma joinLoop_fills (helem : 0 < elsize) (hget : ∀ a, get (mk a) = some a)
    {as : List (CArray α elsize)} (hcopy : ∀ a ∈ as, CopiesAll copy a) {written : List α} {free : ℕ}
    (hfree : (allData as).length = free) (hfit : (written.length + free) * elsize < 2 ^ 32) :
    joinLoop (BitVec.ofNat 32 elsize) get copy (pointers mk as)
      (BitVec.ofNat 32 written.length * BitVec.ofNat 32 elsize) (filled written free) =
      .ok (filled (written ++ allData as) 0) := by
  induction as generalizing written free with
  | nil =>
      subst hfree
      rw [allData, List.map_nil, List.flatten_nil, List.append_nil]
      rfl
  | cons a as ih =>
      have hlength : a.data.length + (allData as).length = free := by
        rw [← hfree, allData_cons, List.length_append]
      obtain ⟨hfirst, hcopy⟩ := List.forall_mem_cons.mp hcopy
      have hwritten : written.length * elsize < 2 ^ 32 :=
        lt_of_le_of_lt (Nat.mul_le_mul_right _ (Nat.le_add_right _ _)) hfit
      have hdata : a.data.length * elsize < 2 ^ 32 :=
        lt_of_le_of_lt (Nat.mul_le_mul_right _ (by omega)) hfit
      have hpos : (BitVec.ofNat 32 written.length * BitVec.ofNat 32 elsize).toNat / elsize =
          written.length := by
        rw [toNat_mul_ofNat hwritten, Nat.mul_div_cancel _ helem]
      have hrest := @ih hcopy (written ++ a.data) (free - a.data.length) (by omega)
        (by rw [List.length_append]; exact lt_of_le_of_lt (Nat.mul_le_mul_right _ (by omega)) hfit)
      have hnext : BitVec.ofNat 32 (written ++ a.data).length * BitVec.ofNat 32 elsize =
          BitVec.ofNat 32 written.length * BitVec.ofNat 32 elsize +
            BitVec.ofNat 32 a.data.length * BitVec.ofNat 32 elsize := by
        rw [List.length_append, BitVec.ofNat_add, BitVec.add_mul]
      rw [hnext, List.append_assoc] at hrest
      rw [pointers, List.map_cons, joinLoop, hget]
      dsimp only
      rw [hfirst hdata, ok_bind]
      dsimp only
      rw [copyInto_filled hpos le_rfl (by omega), ok_bind, List.take_length]
      exact hrest

/-- The block keeps its size. -/
lemma joinLoop_length {dataSize : BitVec 32} {iarrays : List (Slot × BitVec 32)} {pos : BitVec 32}
    {result result' : Block α} (h : joinLoop dataSize get copy iarrays pos result = .ok result') :
    result'.length = result.length := by
  induction iarrays generalizing pos result with
  | nil =>
      cases h
      rfl
  | cons entry iarrays ih =>
      obtain ⟨arr, len⟩ := entry
      rw [joinLoop] at h
      split at h
      · cases h
      · obtain ⟨⟨source, count⟩, -, h⟩ := bind_ok_iff.mp h
        obtain ⟨result₁, hcopy, h⟩ := bind_ok_iff.mp h
        obtain ⟨hsource, hblock, rfl⟩ := copyInto_ok hcopy
        rw [ih h, List.length_append, List.length_append, List.length_take, List.length_map,
          List.length_take, List.length_drop]
        omega

/-- The arrays are joined if their bytes fit into 32 bits. -/
lemma joined_ok (ha : host.Allocates) (helem : 0 < elsize) (hget : ∀ a, get (mk a) = some a)
    {as : List (CArray α elsize)} (hcopy : ∀ a ∈ as, CopiesAll copy a)
    (hfit : (allData as).length * elsize < 2 ^ 32) :
    ∃ b : CArray α elsize, b.data = allData as ∧
      joined host (BitVec.ofNat 32 elsize) get copy
        ⟨pointers mk as, BitVec.ofNat 32 (allData as).length⟩ = .ok b := by
  have hloop := joinLoop_fills helem hget hcopy rfl
    (show (([] : List α).length + (allData as).length) * elsize < 2 ^ 32 by
      rw [List.length_nil, Nat.zero_add]; exact hfit)
  rw [List.length_nil, BitVec.zero_mul, List.nil_append] at hloop
  refine ⟨⟨allData as, by omega⟩, rfl, ?_⟩
  rw [joined]
  dsimp only
  rw [toNat_mul_ofNat hfit, Nat.mul_div_cancel _ helem, if_pos (ha _), allocate_eq_filled]
  refine bind_ok_iff.mpr ⟨_, hloop, bind_ok_iff.mpr ⟨allData as, ?_, ?_⟩⟩
  · have hread := mapM_readAt_written (allData as) []
    rwa [length_filled, Nat.add_zero]
  · exact dif_pos (by omega)

/-- What is joined has been in the block. -/
lemma joined_length {dataSize : BitVec 32} {s : ConcatState} {b : CArray α elsize}
    (h : joined host dataSize get copy s = .ok b) :
    b.data.length ≤ (s.resultArraySize * dataSize).toNat / elsize := by
  obtain ⟨result, hloop, h⟩ := bind_ok_iff.mp h
  obtain ⟨data, hdata, h⟩ := bind_ok_iff.mp h
  have hlength := joinLoop_length hloop
  have hread : data.length = result.length := by
    rw [mapM_ok_iff] at hdata
    rw [← hdata.length_eq, List.length_range]
  split_ifs at h
  cases h
  rw [hread, hlength, allocate, List.length_replicate]
  split_ifs
  · exact le_rfl
  · exact Nat.zero_le _

end Loop

end Copies

/-- The array of a value holds the arrays of some values, one after the other. -/
def Joined : (type : DataType) → List (DataValue type) → DataValue type → Prop
  | .charArray, vs, v | .ucharArray, vs, v | .charLrgArray, vs, v | .ucharLrgArray, vs, v =>
      CArray.data v = allData vs
  | .int16Array, vs, v | .uint16Array, vs, v | .int16LrgArray, vs, v | .uint16LrgArray, vs, v =>
      CArray.data v = allData vs
  | .int32Array, vs, v | .uint32Array, vs, v | .floatArray, vs, v | .int32LrgArray, vs, v
  | .uint32LrgArray, vs, v | .floatLrgArray, vs, v => CArray.data v = allData vs
  | .int64Array, vs, v | .uint64Array, vs, v | .doubleArray, vs, v | .int64LrgArray, vs, v
  | .uint64LrgArray, vs, v | .doubleLrgArray, vs, v => CArray.data v = allData vs
  | .stringArray, vs, v | .stringLrgArray, vs, v => CArray.data v = allData vs
  | _, _, _ => False

/-- The arrays of a type: as elements, as a value, and as what a pointer points to. -/
structure ArrayView (host : Host) (type : DataType) (α : Type) (elsize : ℕ) where
  val : CArray α elsize → DataValue type
  slot : CArray α elsize → Slot
  get : Slot → Option (CArray α elsize)
  copy : CArray α elsize → BitVec 32 → Outcome (List α × ℕ)
  Good : CArray α elsize → Prop
  elsize_pos : 0 < elsize
  elsize_le : elsize ≤ 8
  get_slot : ∀ a, get (slot a) = some a
  switch : ∃ fmt, concatSwitch type = some (BitVec.ofNat 32 elsize, fmt)
  resultArray_eq : ∀ s, resultArray host (BitVec.ofNat 32 elsize) s type =
    (do return slot (← joined host (BitVec.ofNat 32 elsize) get copy s))
  copies : ∀ a, Good a → CopiesAll copy a
  extract_val : ∀ a, Good a → a.data.length < 2 ^ 32 →
    Returns (fun fuel => extract host fuel type (val a))
      [slot a, .word (BitVec.ofNat 32 a.data.length)]
  argValue_slot : ∀ toFloat a n, argValue toFloat [.pointer (slot a), .int n] type =
    if n.toNat ≤ a.data.length then .ok (val (a.take n.toNat), []) else .error (.fault .readPast)
  arrayLen_val : ∀ a, DataValue.arrayLen type (val a) = a.data.length
  exists_val : ∀ v, (∀ sp ∈ DataValue.strings type v, PlainString sp) → ∃ a, v = val a ∧ Good a
  joined_val : ∀ as b, b.data = allData as → Joined type (as.map val) (val b)

section View
variable {host : Host} (ha : host.Allocates) {type : DataType}
include ha

lemma extract_plain {α : Type} {elsize : ℕ} (helem : 0 < elsize) (slot : CArray α elsize → Slot)
    (a : CArray α elsize) :
    Returns (fun _ => (do return [slot (← copied host a), shortSlot a] : Run (List Slot)))
      [slot a, .word (BitVec.ofNat 32 a.data.length)] := by
  refine Returns.lift (copied_eq ha helem a) ?_
  have hlen : a.arrayLen.setWidth 32 = BitVec.ofNat 32 a.data.length :=
    BitVec.setWidth_ofNat_of_le (by decide) _
  rw [shortSlot, hlen]
  exact Returns.of_pure _

omit ha in
/-- Blocks of plain strings are those of strings. -/
lemma exists_strings {v : CArray (Option (List Byte)) 8} (h : ∀ sp ∈ v.data, PlainString sp) :
    ∃ a, v = stringBlocks a ∧ none ∉ a.data := by
  have hlist : ∀ l : List (Option (List Byte)), (∀ sp ∈ l, PlainString sp) →
      ∃ ps : List (Option CString), l = ps.map (·.map CString.block) ∧ none ∉ ps := by
    intro l hl
    induction l with
    | nil => exact ⟨[], rfl, List.not_mem_nil⟩
    | cons sp l ih =>
        obtain ⟨⟨chars, rfl, hplain⟩, hrest⟩ := List.forall_mem_cons.mp hl
        obtain ⟨ps, rfl, hnull⟩ := ih hrest
        refine ⟨some ⟨chars, hplain⟩ :: ps, rfl, ?_⟩
        rw [List.mem_cons, not_or]
        exact ⟨nofun, hnull⟩
  obtain ⟨data, hfits⟩ := v
  obtain ⟨ps, rfl, hnull⟩ := hlist data h
  exact ⟨⟨ps, by rwa [List.length_map] at hfits⟩, rfl, hnull⟩

lemma extract_strings {a : CArray (Option CString) 8} (hnull : none ∉ a.data)
    (hlen : a.data.length < 2 ^ 32) :
    Returns (fun fuel => extract host fuel .stringArray (stringBlocks a))
      [.strings a, .word (BitVec.ofNat 32 a.data.length)] := by
  have hslot : shortSlot (stringBlocks a) = .word (BitVec.ofNat 32 a.data.length) := by
    have hcount : (stringBlocks a).data.length = a.data.length := List.length_map _
    rw [shortSlot, CArray.arrayLen, hcount, BitVec.setWidth_ofNat_of_le (by decide)]
  rw [← hslot]
  exact Returns.bind (copiedStrings_returns ha a hnull hlen) (Returns.of_pure _)

omit ha in
lemma argValue_strings (toFloat : BitVec 64 → BitVec 32) (a : CArray (Option CString) 8)
    (n : BitVec 32) : argValue toFloat [.pointer (.strings a), .int n] .stringArray =
      if n.toNat ≤ a.data.length then .ok (stringBlocks (a.take n.toNat), [])
      else .error (.fault .readPast) := by
  have harray : vaArray Slot.strings? shortArg [.pointer (.strings a), .int n] =
      if n.toNat ≤ a.data.length then .ok (a.take n.toNat, []) else .error (.fault .readPast) := rfl
  rw [argValue, harray]
  split_ifs <;> rfl

omit ha in
lemma joined_strings {as : List (CArray (Option CString) 8)} {b : CArray (Option CString) 8}
    (hb : b.data = allData as) :
    Joined .stringArray (as.map stringBlocks) (stringBlocks b) := by
  show b.data.map _ = allData (as.map stringBlocks)
  rw [hb, allData, allData, List.map_flatten, List.map_map, List.map_map]
  rfl

/-- The arrays of a short type. -/
lemma exists_view (h : type.isShortArray = true) :
    ∃ α elsize, Nonempty (ArrayView host type α elsize) := by
  cases type with
  | charArray | ucharArray =>
      exact ⟨Byte, 1, ⟨id, .bytes, Slot.bytes?, plainCopy 1, fun _ => True, by decide, by decide,
        fun _ => rfl, ⟨_, rfl⟩, fun _ => rfl, fun a _ => plainCopy_copies (by decide) a,
        fun a _ _ => extract_plain ha (by decide) .bytes a, fun _ _ _ => rfl, fun _ => rfl,
        fun v _ => ⟨v, rfl, trivial⟩, fun as b hb => (List.map_id as).symm ▸ hb⟩⟩
  | int16Array | uint16Array =>
      exact ⟨BitVec 16, 2, ⟨id, .halves, Slot.halves?, plainCopy 2, fun _ => True, by decide,
        by decide, fun _ => rfl, ⟨_, rfl⟩, fun _ => rfl, fun a _ => plainCopy_copies (by decide) a,
        fun a _ _ => extract_plain ha (by decide) .halves a, fun _ _ _ => rfl, fun _ => rfl,
        fun v _ => ⟨v, rfl, trivial⟩, fun as b hb => (List.map_id as).symm ▸ hb⟩⟩
  | int32Array | uint32Array | floatArray =>
      exact ⟨BitVec 32, 4, ⟨id, .words, Slot.words?, plainCopy 4, fun _ => True, by decide,
        by decide, fun _ => rfl, ⟨_, rfl⟩, fun _ => rfl, fun a _ => plainCopy_copies (by decide) a,
        fun a _ _ => extract_plain ha (by decide) .words a, fun _ _ _ => rfl, fun _ => rfl,
        fun v _ => ⟨v, rfl, trivial⟩, fun as b hb => (List.map_id as).symm ▸ hb⟩⟩
  | int64Array | uint64Array | doubleArray =>
      exact ⟨BitVec 64, 8, ⟨id, .dwords, Slot.dwords?, plainCopy 8, fun _ => True, by decide,
        by decide, fun _ => rfl, ⟨_, rfl⟩, fun _ => rfl, fun a _ => plainCopy_copies (by decide) a,
        fun a _ _ => extract_plain ha (by decide) .dwords a, fun _ _ _ => rfl, fun _ => rfl,
        fun v _ => ⟨v, rfl, trivial⟩, fun as b hb => (List.map_id as).symm ▸ hb⟩⟩
  | stringArray =>
      exact ⟨Option CString, 8, ⟨stringBlocks, .strings, Slot.strings?, stringCopy host,
        fun a => none ∉ a.data, by decide, by decide, fun _ => rfl, ⟨_, rfl⟩, fun _ => rfl,
        fun a hnull => stringCopy_copies ha hnull, fun a hnull hlen => extract_strings ha hnull hlen,
        fun toFloat a n => argValue_strings toFloat a n, fun a => List.length_map _,
        fun v hv => exists_strings hv, fun as b hb => joined_strings hb⟩⟩
  | _ => cases h

end View

section Packets
variable {host : Host} {type : DataType} {fuel : ℕ}

/-- A format of the switch has one token, of its type. -/
lemma concatSwitch_format {dataSize : BitVec 32} {fmt : CString}
    (h : concatSwitch type = some (dataSize, fmt)) :
    ∃ percent tok, fmt.chars = percent :: tok ∧ Tokenizer.tokens fmt.chars delim = [tok] ∧
      fmt2Type tok = type := by
  cases type <;> cases h <;> exact ⟨_, _, rfl, rfl, rfl⟩

/-- A packet with one array that can be sent, under the format of the filter. -/
structure CarriesArray (host : Host) (type : DataType) (p : Packet) (v : DataValue type) : Prop where
  fmtStr : ∃ dataSize fmt, concatSwitch type = some (dataSize, fmt) ∧ p.fmtStr = some fmt.block
  decodes : ∃ q, p.decodePdrData host = .ok q ∧ q.dataElements = [⟨type, v⟩]
  wellFormed : DataElement.WellFormed int32Max ⟨type, v⟩
  shortStrings : DataElement.ShortStrings ⟨type, v⟩

lemma liftM_ok_bind {α β : Type} {r : Outcome α} {a : α} (h : r = .ok a) (f : α → Run β) :
    ((liftM r : Run α) >>= f) = f a := by
  rw [h]
  rfl

/-- The array is extracted, and stored into the two variables. -/
lemma CarriesArray.unpack_eq {p : Packet} {v : DataValue type} (h : CarriesArray host type p v)
    {dataSize : BitVec 32} {fmt : CString} (hswitch : concatSwitch type = some (dataSize, fmt))
    (vars : List Slot) :
    ∃ q, ∀ fuel, p.unpack host fuel (some fmt) vars = (do
      let slots ← extract host fuel type v
      let vars ← store vars 0 slots
      return (q, 0, vars)) := by
  obtain ⟨_, _, hswitch', hfmt⟩ := h.fmtStr
  obtain ⟨rfl, rfl⟩ := Prod.mk.inj (Option.some.inj (hswitch.symm.trans hswitch'))
  obtain ⟨q, hdec, helems⟩ := h.decodes
  obtain ⟨percent, tok, -, htoks, htok⟩ := concatSwitch_format hswitch
  have hq : q.fmtStr = some fmt.block := (decodePdrData_fmtStr hdec).trans hfmt
  have hstr : cString fmt.block = .ok fmt.chars := cString_terminated fmt.plain
  have hne : type ≠ .unknown := by
    rintro rfl
    cases hswitch
  refine ⟨q, fun fuel => ?_⟩
  rw [Packet.unpack, Packet.unpackVaList, liftM_ok_bind hdec]
  simp only [Packet.extractVaList, hq]
  rw [liftM_ok_bind hstr, if_neg (not_not.mpr rfl), Packet.dataElementArray2ArgList, hq]
  dsimp only
  rw [liftM_ok_bind hstr, htoks, helems, argListOutLoop, if_neg (not_not.mpr htok.symm), if_neg hne]
  simp only [bind_assoc, argListOutLoop, pure_bind]

/-- The 32-bit length of a large array is not all that is stored. -/
lemma extract_large (hlarge : type.isShortArray = false) {dataSize : BitVec 32} {fmt : CString}
    (hswitch : concatSwitch type = some (dataSize, fmt)) {v : DataValue type} {slots : List Slot}
    (h : extract host fuel type v = pure slots) : ∃ s n, slots = [s, .dword n] := by
  cases type with
  | charLrgArray | ucharLrgArray | int16LrgArray | uint16LrgArray | int32LrgArray
  | uint32LrgArray | int64LrgArray | uint64LrgArray | floatLrgArray | doubleLrgArray
  | stringLrgArray =>
      obtain ⟨a, -, h⟩ := run_bind_eq_pure.mp h
      cases h
      exact ⟨_, _, rfl⟩
  | charArray | ucharArray | int16Array | uint16Array | int32Array | uint32Array | int64Array
  | uint64Array | floatArray | doubleArray | stringArray => cases hlarge
  | _ => cases hswitch

/-- The first loop does not get past a large array. -/
lemma unpackArray_large (hlarge : type.isShortArray = false) {dataSize : BitVec 32} {fmt : CString}
    (hswitch : concatSwitch type = some (dataSize, fmt)) {p : Packet} {v : DataValue type}
    (h : CarriesArray host type p v) {fmtStr : List Byte} {s s' : ConcatState} :
    unpackArray host fuel fmtStr fmt s p ≠ pure s' := by
  intro hrun
  obtain ⟨curFmt, -, hrun⟩ := run_bind_eq_pure.mp hrun
  split_ifs at hrun
  · cases hrun
  obtain ⟨⟨q, ret, vars⟩, hunpack, hrun⟩ := run_bind_eq_pure.mp hrun
  obtain ⟨q', hq'⟩ := h.unpack_eq hswitch [.word 0, .word 0]
  rw [hq'] at hunpack
  obtain ⟨slots, hslots, hunpack⟩ := run_bind_eq_pure.mp hunpack
  obtain ⟨s₁, n, rfl⟩ := extract_large hlarge hswitch hslots
  cases hunpack
  cases hrun

lemma CarriesArray.formatString {p : Packet} {v : DataValue type} (h : CarriesArray host type p v)
    {dataSize : BitVec 32} {fmt : CString} (hswitch : concatSwitch type = some (dataSize, fmt)) :
    p.formatString = .ok fmt.chars := by
  obtain ⟨_, _, hswitch', hfmt⟩ := h.fmtStr
  obtain ⟨rfl, rfl⟩ := Prod.mk.inj (Option.some.inj (hswitch.symm.trans hswitch'))
  rw [Packet.formatString, hfmt]
  exact cString_terminated fmt.plain

section Short
variable {α : Type} {elsize : ℕ} (V : ArrayView host type α elsize) {fmt : CString}
  (hswitch : concatSwitch type = some (BitVec.ofNat 32 elsize, fmt))
include hswitch

lemma unpackArray_returns {p : Packet} {a : CArray α elsize}
    (h : CarriesArray host type p (V.val a)) (hgood : V.Good a) (hlen : a.data.length < 2 ^ 32)
    (s : ConcatState) :
    Returns (fun fuel => unpackArray host fuel fmt.chars fmt s p)
      ⟨s.iarrays ++ [(V.slot a, BitVec.ofNat 32 a.data.length)],
        s.resultArraySize + BitVec.ofNat 32 a.data.length⟩ := by
  obtain ⟨n, hn⟩ := V.extract_val a hgood hlen
  obtain ⟨q, hq⟩ := h.unpack_eq hswitch [.word 0, .word 0]
  refine ⟨n, fun fuel hfuel => ?_⟩
  have hslots := hn fuel hfuel
  dsimp only at hslots ⊢
  rw [unpackArray, liftM_ok_bind (h.formatString hswitch), if_neg (not_not.mpr rfl), hq, hslots]
  rfl

/-- The first loop collects the pointers and adds up the lengths. -/
lemma unpackArrays_returns {ps : List Packet} {as : List (CArray α elsize)}
    (h : List.Forall₂ (fun p a => CarriesArray host type p (V.val a) ∧ V.Good a ∧
      a.data.length < 2 ^ 32) ps as) (s : ConcatState) :
    Returns (fun fuel => ps.foldlM (unpackArray host fuel fmt.chars fmt) s)
      ⟨s.iarrays ++ pointers V.slot as,
        s.resultArraySize + BitVec.ofNat 32 (allData as).length⟩ := by
  induction h generalizing s with
  | nil =>
      have hnone : (allData ([] : List (CArray α elsize))).length = 0 := rfl
      rw [hnone, pointers, List.map_nil, List.append_nil, BitVec.add_zero]
      exact Returns.of_pure s
  | @cons p a ps as hp _ ih =>
      have hrest := ih ⟨s.iarrays ++ [(V.slot a, BitVec.ofNat 32 a.data.length)],
        s.resultArraySize + BitVec.ofNat 32 a.data.length⟩
      simp only [List.foldlM_cons]
      have hend : s.iarrays ++ pointers V.slot (a :: as) =
          s.iarrays ++ [(V.slot a, BitVec.ofNat 32 a.data.length)] ++ pointers V.slot as := by
        rw [pointers, List.map_cons, List.append_assoc, List.singleton_append, pointers]
      rw [hend, allData_cons, List.length_append, BitVec.ofNat_add, ← BitVec.add_assoc]
      exact Returns.bind (unpackArray_returns V hswitch hp.1 hp.2.1 hp.2.2 s) hrest

/-- The constructor reads as many elements as the argument says. -/
lemma construct_array {toFloat : BitVec 64 → BitVec 32} {srcRank streamId tag : BitVec 32}
    (b : CArray α elsize) (n : BitVec 32) :
    construct toFloat host srcRank streamId tag fmt (.list [.pointer (V.slot b), .int n]) =
      if n.toNat ≤ b.data.length then
        Packet.create host srcRank streamId tag (some fmt.chars) [⟨type, V.val (b.take n.toNat)⟩]
      else .error (.fault .readPast) := by
  obtain ⟨percent, tok, -, htoks, htok⟩ := concatSwitch_format hswitch
  have hne : fmt2Type tok ≠ .unknown := by
    rintro hunknown
    rw [← htok, hunknown] at hswitch
    cases hswitch
  subst htok
  rw [construct, Arguments.dataElements, argList2DataElementArray, htoks, argListLoop, if_neg hne,
    V.argValue_slot]
  split_ifs <;> rfl

/-- After the first loop, which always ends, the arrays are joined and sent. -/
lemma arrayConcat_returns_iff (toFloat : BitVec 64 → BitVec 32) {p q : Packet} {ps : List Packet}
    {as : List (CArray α elsize)}
    (h : List.Forall₂ (fun p a => CarriesArray host type p (V.val a) ∧ V.Good a ∧
      a.data.length < 2 ^ 32) (p :: ps) as) :
    Returns (fun fuel => tfilterArrayConcat toFloat host fuel (p :: ps)) [q] ↔
      ∃ b : CArray α elsize, joined host (BitVec.ofNat 32 elsize) V.get V.copy
          ⟨pointers V.slot as, BitVec.ofNat 32 (allData as).length⟩ = .ok b ∧
        (BitVec.ofNat 32 (allData as).length).toNat ≤ b.data.length ∧
        Packet.create host unknownRank p.streamId p.tag (some fmt.chars)
          [⟨type, V.val (b.take (BitVec.ofNat 32 (allData as).length).toNat)⟩] = .ok q := by
  obtain ⟨percent, tok, hchars, htoks, htok⟩ := concatSwitch_format hswitch
  obtain ⟨n, hn⟩ := unpackArrays_returns V hswitch h ⟨[], 0⟩
  have hfirst : p.formatString = .ok (percent :: tok) := by
    cases h with
    | cons hp _ => rw [hp.1.formatString hswitch, hchars]
  set size := BitVec.ofNat 32 (allData as).length with hsize
  have hnum : (0 : BitVec 32) + size = size := BitVec.zero_add size
  -- from some fuel on, the run is what follows the first loop
  have hrun : ∀ fuel ≥ n, tfilterArrayConcat toFloat host fuel (p :: ps) = (do
      let result ← resultArray host (BitVec.ofNat 32 elsize) ⟨pointers V.slot as, size⟩ type
      let newPacket ← construct toFloat host unknownRank p.streamId p.tag fmt
        (.list [.pointer result, .int size])
      return [newPacket]) := by
    intro fuel hfuel
    have hloop := hn fuel hfuel
    rw [hnum, List.nil_append] at hloop
    rw [tfilterArrayConcat, liftM_ok_bind hfirst]
    dsimp only
    rw [htok, hswitch]
    dsimp only at hloop ⊢
    rw [← hchars, hloop, pure_bind]
  have hiff : Returns (fun fuel => tfilterArrayConcat toFloat host fuel (p :: ps)) [q] ↔
      ∃ result, resultArray host (BitVec.ofNat 32 elsize) ⟨pointers V.slot as, size⟩ type =
        .ok result ∧ construct toFloat host unknownRank p.streamId p.tag fmt
          (.list [.pointer result, .int size]) = .ok q := by
    constructor
    · rintro ⟨n', hn'⟩
      have hret := hn' (max n n') (le_max_right n n')
      dsimp only at hret
      rw [hrun _ (le_max_left n n')] at hret
      obtain ⟨result, hresult, hret⟩ := run_bind_eq_pure.mp hret
      obtain ⟨q', hq', hret⟩ := run_bind_eq_pure.mp hret
      cases hret
      exact ⟨result, lift_eq_pure.mp hresult, lift_eq_pure.mp hq'⟩
    · rintro ⟨result, hresult, hq⟩
      refine ⟨n, fun fuel hfuel => ?_⟩
      dsimp only
      rw [hrun fuel hfuel, liftM_ok_bind hresult, liftM_ok_bind hq]
  rw [hiff, V.resultArray_eq]
  constructor
  · rintro ⟨result, hresult, hq⟩
    obtain ⟨b, hb, hresult⟩ := bind_ok_iff.mp hresult
    cases hresult
    rw [construct_array V hswitch] at hq
    split_ifs at hq with hle
    exact ⟨b, hb, hle, hq⟩
  · rintro ⟨b, hb, hle, hq⟩
    refine ⟨V.slot b, bind_ok_iff.mpr ⟨b, hb, rfl⟩, ?_⟩
    rw [construct_array V hswitch, if_pos hle]
    exact hq

end Short

end Packets

section Result
variable {type : DataType}

lemma Joined.arrayLen {vs : List (DataValue type)} {v : DataValue type} (h : Joined type vs v) :
    DataValue.arrayLen type v = (vs.map (DataValue.arrayLen type)).sum := by
  have hlen : ∀ {α : Type} {elsize : ℕ} {as : List (CArray α elsize)} {b : CArray α elsize},
      b.data = allData as → b.data.length = (as.map fun a => a.data.length).sum := by
    intro α elsize as b hb
    rw [hb, allData, List.length_flatten, List.map_map]
    rfl
  cases type with
  | charArray | ucharArray | charLrgArray | ucharLrgArray | int16Array | uint16Array
  | int16LrgArray | uint16LrgArray | int32Array | uint32Array | floatArray | int32LrgArray
  | uint32LrgArray | floatLrgArray | int64Array | uint64Array | doubleArray | int64LrgArray
  | uint64LrgArray | doubleLrgArray | stringArray | stringLrgArray => exact hlen h
  | _ => cases h

lemma Joined.strings {vs : List (DataValue type)} {v : DataValue type} (h : Joined type vs v) :
    ∀ sp ∈ DataValue.strings type v, ∃ u ∈ vs, sp ∈ DataValue.strings type u := by
  cases type with
  | stringArray | stringLrgArray =>
      intro sp hsp
      have hmem : sp ∈ allData vs := (show CArray.data v = allData vs from h) ▸ hsp
      obtain ⟨l, hl, hsp⟩ := List.mem_flatten.mp hmem
      obtain ⟨u, hu, rfl⟩ := List.mem_map.mp hl
      exact ⟨u, hu, hsp⟩
  | string => cases h
  | _ => exact nofun

lemma arrayForm_lt {α : Type} {o : ByteOrder} {form : α → List Byte} {data : List α}
    (hform : ∀ x ∈ data, (form x).length ≤ 2 ^ 32 + 2) (hlen : data.length ≤ int32Max) :
    (arrayForm o form data).length < 2 ^ 64 := by
  have hsum : (data.flatMap form).length ≤ data.length * (2 ^ 32 + 2) := by
    have hle := List.sum_le_card_nsmul (data.map fun x => (form x).length) (2 ^ 32 + 2) (by
      intro n hn
      obtain ⟨x, hx, rfl⟩ := List.mem_map.mp hn
      exact hform x hx)
    rwa [List.length_map, smul_eq_mul, ← List.length_flatMap] at hle
  have hmul : data.length * (2 ^ 32 + 2) ≤ int32Max * (2 ^ 32 + 2) := Nat.mul_le_mul_right _ hlen
  have hmax : int32Max * (2 ^ 32 + 2) + 8 < 2 ^ 64 := by norm_num [int32Max]
  rw [arrayForm, List.length_append, nativeBytes_length]
  exact lt_of_le_of_lt (by omega) hmax

/-- An array of a short type has fewer than 2^64 bytes. -/
lemma shortArray_form_lt {o : ByteOrder} {v : DataValue type} (hshort : type.isShortArray = true)
    (hwf : DataElement.WellFormed int32Max ⟨type, v⟩)
    (hstr : DataElement.ShortStrings ⟨type, v⟩) : (elementsForm o [⟨type, v⟩]).length < 2 ^ 64 := by
  have hlen := hwf.1 hshort
  have hword : ∀ {w : ℕ} {data : List (BitVec w)}, w ≤ 64 → data.length ≤ int32Max →
      (arrayForm o (nativeBytes o) data).length < 2 ^ 64 := fun {w data} hw hlen =>
    arrayForm_lt (fun x _ => by rw [nativeBytes_length]; omega) hlen
  rw [elementsForm, List.flatMap_singleton]
  cases type with
  | charArray | ucharArray => exact arrayForm_lt (fun _ _ => by simp) hlen
  | int16Array | uint16Array => exact hword (by decide) hlen
  | int32Array | uint32Array | floatArray => exact hword (by decide) hlen
  | int64Array | uint64Array | doubleArray => exact hword (by decide) hlen
  | stringArray =>
      refine arrayForm_lt (fun sp hsp => ?_) hlen
      obtain ⟨chars, rfl, -⟩ := hwf.2 sp hsp
      have hmax := hstr _ hsp
      simp only [slotForm, stringForm, List.length_append, nativeBytes_length, wrapstringMax] at hmax ⊢
      omega
  | _ => cases hshort

end Result

/-- The filter ends without a fault, and its one packet has the arrays of the packets in one. -/
def Concatenates (toFloat : BitVec 64 → BitVec 32) (host : Host) (type : DataType)
    (ps : List Packet) (vs : List (DataValue type)) : Prop :=
  ∃ q v, Returns (fun fuel => tfilterArrayConcat toFloat host fuel ps) [q] ∧
    q.dataElements = [⟨type, v⟩] ∧ q.Carries host [⟨type, v⟩] ∧ Joined type vs v ∧
      DataValue.arrayLen type v = (vs.map (DataValue.arrayLen type)).sum

/-- The filter does not get past the first packet of a large type. -/
lemma large_not_returns {toFloat : BitVec 64 → BitVec 32} {host : Host} {type : DataType}
    (hlarge : type.isShortArray = false) {dataSize : BitVec 32} {fmt : CString}
    (hswitch : concatSwitch type = some (dataSize, fmt)) {p : Packet} {v : DataValue type}
    (h : CarriesArray host type p v) {ps qs : List Packet} {fuel : ℕ} :
    tfilterArrayConcat toFloat host fuel (p :: ps) ≠ pure qs := by
  intro hrun
  obtain ⟨percent, tok, hchars, -, htok⟩ := concatSwitch_format hswitch
  rw [tfilterArrayConcat, liftM_ok_bind (h.formatString hswitch), hchars] at hrun
  dsimp only at hrun
  rw [htok, hswitch] at hrun
  obtain ⟨s, hloop, -⟩ := run_bind_eq_pure.mp hrun
  rw [List.foldlM_cons] at hloop
  obtain ⟨s₁, hfirst, -⟩ := run_bind_eq_pure.mp hloop
  exact unpackArray_large hlarge hswitch h hfirst

section Short
variable {toFloat : BitVec 64 → BitVec 32} {host : Host} (ha : host.Allocates) {type : DataType}
  {α : Type} {elsize : ℕ} (V : ArrayView host type α elsize) {fmt : CString}
  (hswitch : concatSwitch type = some (BitVec.ofNat 32 elsize, fmt))

lemma ArrayView.arrayLen_sum (as : List (CArray α elsize)) :
    ((as.map V.val).map (DataValue.arrayLen type)).sum = (allData as).length := by
  rw [allData, List.length_flatten, List.map_map, List.map_map]
  exact congrArg List.sum (List.map_congr_left fun a _ => V.arrayLen_val a)

lemma exists_arrays {ps : List Packet} {vs : List (DataValue type)}
    (hshort : type.isShortArray = true) (h : List.Forall₂ (CarriesArray host type) ps vs) :
    ∃ as : List (CArray α elsize), vs = as.map V.val ∧
      List.Forall₂ (fun p a => CarriesArray host type p (V.val a) ∧ V.Good a ∧
        a.data.length < 2 ^ 32) ps as := by
  induction h with
  | nil => exact ⟨[], rfl, .nil⟩
  | @cons p v ps vs hp _ ih =>
      obtain ⟨as, rfl, hps⟩ := ih
      obtain ⟨a, rfl, hgood⟩ := V.exists_val v hp.wellFormed.2
      have hlen := hp.wellFormed.1 hshort
      rw [V.arrayLen_val] at hlen
      exact ⟨a :: as, rfl, .cons ⟨hp, hgood, lt_of_le_of_lt hlen (by decide)⟩ hps⟩

lemma good_of_mem {ps : List Packet} {as : List (CArray α elsize)}
    (h : List.Forall₂ (fun p a => CarriesArray host type p (V.val a) ∧ V.Good a ∧
      a.data.length < 2 ^ 32) ps as) : ∀ a ∈ as, V.Good a := by
  induction h with
  | nil => exact nofun
  | cons hp _ ih => exact List.forall_mem_cons.mpr ⟨hp.2.1, ih⟩

/-- What is joined can be sent again. -/
lemma joined_sendable {ps : List Packet} {as : List (CArray α elsize)} {b : CArray α elsize}
    (h : List.Forall₂ (fun p a => CarriesArray host type p (V.val a) ∧ V.Good a ∧
      a.data.length < 2 ^ 32) ps as) (hb : b.data = allData as)
    (hmax : (allData as).length ≤ int32Max) :
    DataElement.WellFormed int32Max ⟨type, V.val b⟩ ∧ DataElement.ShortStrings ⟨type, V.val b⟩ := by
  have hmem : ∀ v ∈ as.map V.val, DataElement.WellFormed int32Max ⟨type, v⟩ ∧
      DataElement.ShortStrings ⟨type, v⟩ := by
    intro v hv
    obtain ⟨a, ha, rfl⟩ := List.mem_map.mp hv
    clear hb hmax hv
    induction h with
    | nil => cases ha
    | cons hp _ ih =>
        rcases List.mem_cons.mp ha with rfl | ha
        · exact ⟨hp.1.wellFormed, hp.1.shortStrings⟩
        · exact ih ha
  have hjoined := V.joined_val as b hb
  refine ⟨⟨fun _ => ?_, fun sp hsp => ?_⟩, fun block hblock => ?_⟩
  · dsimp only
    rw [V.arrayLen_val, hb]
    exact hmax
  · obtain ⟨u, hu, hsp⟩ := hjoined.strings sp hsp
    exact (hmem u hu).1.2 sp hsp
  · obtain ⟨u, hu, hsp⟩ := hjoined.strings _ hblock
    exact (hmem u hu).2 block hsp

include ha hswitch

/-- Short arrays are concatenated if there are not too many elements, or too many bytes. -/
lemma short_concatenates_iff {p : Packet} {ps : List Packet} {as : List (CArray α elsize)}
    (hshort : type.isShortArray = true)
    (h : List.Forall₂ (fun p a => CarriesArray host type p (V.val a) ∧ V.Good a ∧
      a.data.length < 2 ^ 32) (p :: ps) as) :
    Concatenates toFloat host type (p :: ps) (as.map V.val) ↔
      (allData as).length ≤ int32Max ∧ (allData as).length * elsize < 2 ^ 32 := by
  constructor
  · rintro ⟨q, v, hrun, hq, hcarries, -, hlen⟩
    obtain ⟨b, hb, hle, hcreate⟩ := (arrayConcat_returns_iff V hswitch toFloat h).mp hrun
    have hv := (create_fields hcreate).2.2.symm.trans hq
    cases hv
    obtain ⟨o, fmt', -, henc, -⟩ := hcarries.encoded
    have hmax := (henc.sendable.wellFormed _ (List.mem_singleton_self _)).1 hshort
    dsimp only at hmax
    rw [V.arrayLen_sum, V.arrayLen_val] at hlen
    rw [V.arrayLen_val, hlen] at hmax
    have hsize : (BitVec.ofNat 32 (allData as).length).toNat = (allData as).length := by
      rw [CArray.take, List.length_take, min_eq_left hle] at hlen
      exact hlen
    refine ⟨hmax, ?_⟩
    -- the elements that are sent have been in the block
    have hblock := hle.trans (joined_length hb)
    rw [hsize, Nat.le_div_iff_mul_le V.elsize_pos] at hblock
    exact lt_of_le_of_lt hblock (BitVec.isLt _)
  · rintro ⟨hmax, hfit⟩
    obtain ⟨b, hb, hjoin⟩ := joined_ok ha V.elsize_pos V.get_slot
      (fun a hmem => V.copies a (good_of_mem V h a hmem)) hfit
    have hsize : (BitVec.ofNat 32 (allData as).length).toNat = (allData as).length := by
      rw [BitVec.toNat_ofNat, Nat.mod_eq_of_lt (lt_of_le_of_lt hmax (by decide))]
    have htake : b.take (allData as).length = b := by
      obtain ⟨data, hdata⟩ := b
      obtain rfl : data = allData as := hb
      simp only [CArray.take, List.take_length]
    obtain ⟨hwf, hstr⟩ := joined_sendable V h hb hmax
    obtain ⟨percent, tok, -, htoks, htok⟩ := concatSwitch_format hswitch
    have hne : type ≠ .unknown := by
      rintro rfl
      cases hshort
    have hsend : Sendable int32Max fmt.chars [⟨type, V.val b⟩] := by
      refine ⟨fmt.plain, ?_, ?_, ?_⟩
      · intro t ht
        rw [htoks, List.mem_singleton] at ht
        rw [ht, htok]
        exact hne
      · rw [htoks, List.map_singleton, List.map_singleton, htok]
      · exact fun e he => (List.mem_singleton.mp he) ▸ hwf
    obtain ⟨q, hcreate, hcarries, -⟩ := create_carries host ha unknownRank p.streamId p.tag
      (fun e he => (List.mem_singleton.mp he) ▸ hstr) (shortArray_form_lt hshort hwf hstr) hsend
    have hjoined := V.joined_val as b hb
    refine ⟨q, V.val b, (arrayConcat_returns_iff V hswitch toFloat h).mpr ⟨b, hjoin, ?_, ?_⟩,
      (create_fields hcreate).2.2, hcarries, hjoined, hjoined.arrayLen⟩
    · rw [hsize, hb]
    · rw [hsize, htake]
      exact hcreate

end Short

/-- The filter concatenates arrays exactly if they are of a short type, and have at most 2^31 - 1
elements and fewer than 2^32 bytes in all. -/
theorem concatenates_iff (toFloat : BitVec 64 → BitVec 32) (host : Host) (ha : host.Allocates)
    (type : DataType) (dataSize : BitVec 32) (fmt : CString)
    (hswitch : concatSwitch type = some (dataSize, fmt)) (ps : List Packet)
    (vs : List (DataValue type)) (h : List.Forall₂ (CarriesArray host type) ps vs) (hne : ps ≠ []) :
    Concatenates toFloat host type ps vs ↔ type.isShortArray ∧
      (vs.map (DataValue.arrayLen type)).sum ≤ int32Max ∧
        (vs.map (DataValue.arrayLen type)).sum * dataSize.toNat < 2 ^ 32 := by
  obtain ⟨p, ps, rfl⟩ := List.exists_cons_of_ne_nil hne
  cases hshort : type.isShortArray with
  | false =>
      refine iff_of_false ?_ (fun hshort' => absurd hshort'.1 Bool.false_ne_true)
      rintro ⟨q, v, ⟨n, hn⟩, -⟩
      cases h with
      | cons hp _ => exact large_not_returns hshort hswitch hp (hn n le_rfl)
  | true =>
      obtain ⟨α, elsize, ⟨V⟩⟩ := exists_view ha hshort
      obtain ⟨fmt', hswitch'⟩ := V.switch
      obtain ⟨rfl, rfl⟩ := Prod.mk.inj (Option.some.inj (hswitch.symm.trans hswitch'))
      obtain ⟨as, rfl, hps⟩ := exists_arrays V hshort h
      have hsize : (BitVec.ofNat 32 elsize).toNat = elsize := by
        rw [BitVec.toNat_ofNat, Nat.mod_eq_of_lt (lt_of_le_of_lt V.elsize_le (by decide))]
      rw [short_concatenates_iff ha V hswitch hshort hps, V.arrayLen_sum, hsize]
      exact (and_iff_right rfl).symm

/-- A packet with the bytes 1 and 2. -/
def bytesPacket (type : DataType) (v : DataValue type) (fmt : CString) : Packet :=
  { Packet.blank 0 none 0 none 0 with
    fmtStr := some fmt.block
    dataElements := [⟨type, v⟩]
    decoded := true }

def twoBytes : CArray Byte 1 := ⟨[1, 2], by decide⟩

def charArrays : CString := ⟨ascii ['%', 'a', 'c'], by decide⟩
def largeCharArrays : CString := ⟨ascii ['%', 'A', 'c'], by decide⟩

lemma bytesPacket_carries :
    CarriesArray (Host.ample .little) .charArray
      (bytesPacket .charArray twoBytes charArrays) twoBytes :=
  ⟨⟨_, _, rfl, rfl⟩, ⟨_, rfl, rfl⟩, ⟨fun _ => by decide, nofun⟩, nofun⟩

theorem concatenates_twoBytes :
    Concatenates (fun _ => 0) (Host.ample .little) .charArray
        [bytesPacket .charArray twoBytes charArrays, bytesPacket .charArray twoBytes charArrays]
        [twoBytes, twoBytes] ↔
      DataType.charArray.isShortArray ∧
        ([twoBytes, twoBytes].map (DataValue.arrayLen .charArray)).sum ≤ int32Max ∧
          ([twoBytes, twoBytes].map (DataValue.arrayLen .charArray)).sum * (1 : BitVec 32).toNat <
            2 ^ 32 :=
  concatenates_iff _ _ (Host.ample_allocates _) .charArray 1 charArrays rfl _ _
    (.cons bytesPacket_carries (.cons bytesPacket_carries .nil)) (by simp)

/-- A large array: the length is stored into a variable of four bytes. -/
theorem largeBytes_store_past :
    CarriesArray (Host.ample .little) .charLrgArray
        (bytesPacket .charLrgArray twoBytes largeCharArrays) twoBytes ∧
      ∀ fuel, tfilterArrayConcat (fun _ => 0) (Host.ample .little) fuel
        [bytesPacket .charLrgArray twoBytes largeCharArrays] = throw (.fault .storePast) :=
  ⟨⟨⟨_, _, rfl, rfl⟩, ⟨_, rfl, rfl⟩, ⟨nofun, nofun⟩, nofun⟩, fun _ => rfl⟩

end MRNet.Wire
