import MRNet.ArgumentVectors
import MRNet.PacketContents

/-!
# The arguments of a packet

A packet is made from a list of arguments or from an argument vector. The pass over the
arguments stops at the first token that is not recognised; the constructors go on to encode
without looking at its return value.
-/
namespace MRNet.Wire
open NativeBytes Codec

/-- An argument as it is passed: smaller integers are promoted, and a `float` is a `double`. -/
inductive Arg
  | int (v : BitVec 32)
  | long (v : BitVec 64)
  | double (v : BitVec 64)
  | pointer (s : Slot)

namespace Arg

def int? : Arg → Option (BitVec 32)
  | .int v => some v
  | _ => none

def long? : Arg → Option (BitVec 64)
  | .long v => some v
  | _ => none

def double? : Arg → Option (BitVec 64)
  | .double v => some v
  | _ => none

def pointer? : Arg → Option Slot
  | .pointer s => some s
  | _ => none

end Arg

/-- `va_arg`. -/
def vaArg {α : Type} (get : Arg → Option α) : List Arg → Outcome (α × List Arg)
  | [] => .error (.fault .readPast)
  | a :: args =>
      match get a with
      | none => .error (.fault .readPast)
      | some v => return (v, args)

/-- A pointer to an array and its length. -/
def vaArray {α : Type} {elsize : ℕ} (get : Slot → Option (CArray α elsize)) (len : Arg → Option ℕ)
    (args : List Arg) : Outcome (CArray α elsize × List Arg) := do
  let (a, args) ← vaArg (fun x => x.pointer?.bind get) args
  let (n, args) ← vaArg len args
  if n ≤ a.data.length then return (a.take n, args) else .error (.fault .readPast)

def shortArg (a : Arg) : Option ℕ := a.int?.map BitVec.toNat
def largeArg (a : Arg) : Option ℕ := a.long?.map BitVec.toNat

section Pass
variable (toFloat : BitVec 64 → BitVec 32)

/-- The switch over the type of an element. `toFloat` is the conversion of a `double`. -/
def argValue (args : List Arg) : (type : DataType) → Outcome (DataValue type × List Arg)
  | .unknown => .ok ((), args)
  | .char | .uchar => do
      let (v, args) ← vaArg Arg.int? args
      return (v.setWidth 8, args)
  | .int16 | .uint16 => do
      let (v, args) ← vaArg Arg.int? args
      return (v.setWidth 16, args)
  | .int32 | .uint32 => vaArg Arg.int? args
  | .int64 | .uint64 => vaArg Arg.long? args
  | .float => do
      let (v, args) ← vaArg Arg.double? args
      return (toFloat v, args)
  | .double => vaArg Arg.double? args
  | .charArray | .ucharArray => vaArray Slot.bytes? shortArg args
  | .int16Array | .uint16Array => vaArray Slot.halves? shortArg args
  | .int32Array | .uint32Array | .floatArray => vaArray Slot.words? shortArg args
  | .int64Array | .uint64Array | .doubleArray => vaArray Slot.dwords? shortArg args
  | .stringArray => do
      let (a, args) ← vaArray Slot.strings? shortArg args
      return (stringBlocks a, args)
  | .charLrgArray | .ucharLrgArray => vaArray Slot.bytes? largeArg args
  | .int16LrgArray | .uint16LrgArray => vaArray Slot.halves? largeArg args
  | .int32LrgArray | .uint32LrgArray | .floatLrgArray => vaArray Slot.words? largeArg args
  | .int64LrgArray | .uint64LrgArray | .doubleLrgArray => vaArray Slot.dwords? largeArg args
  | .stringLrgArray => do
      let (a, args) ← vaArray Slot.strings? largeArg args
      return (stringBlocks a, args)
  | .string => do
      let (p, args) ← vaArg (fun x => x.pointer?.bind Slot.string?) args
      return (p.map CString.block, args)

/-- The loop over the tokens: the return value and the elements. -/
def argListLoop :
    List (List Byte) → List Arg → List DataElement → Outcome (Bool × List DataElement)
  | [], _, elems => return (true, elems)
  | curFmt :: toks, args, elems =>
      if fmt2Type curFmt = .unknown then return (false, elems)
      else do
        let (v, args) ← argValue toFloat args (fmt2Type curFmt)
        argListLoop toks args (elems ++ [⟨fmt2Type curFmt, v⟩])

def argList2DataElementArray (fmt : List Byte) (args : List Arg) :
    Outcome (Bool × List DataElement) :=
  argListLoop toFloat (Tokenizer.tokens fmt delim) args []

/-- What a constructor is given. -/
inductive Arguments
  | list (args : List Arg)
  | vector (idata : List Slot)

/-- `data_elements` when the arguments have been passed over; the return value is dropped. -/
def Arguments.dataElements (fmt : List Byte) : Arguments → Outcome (List DataElement)
  | .list args => do
      let (_, elems) ← argList2DataElementArray toFloat fmt args
      return elems
  | .vector idata => do
      let (_, elems, _) ← argVec2DataElementArray fmt idata
      return elems

/-- The constructors with a format string. -/
def construct (host : Host) (srcRank streamId tag : BitVec 32) (fmt : CString)
    (arguments : Arguments) : Outcome Packet := do
  let elems ← arguments.dataElements toFloat fmt.chars
  Packet.create host srcRank streamId tag (some fmt.chars) elems

end Pass

/-- A null pointer or a string. -/
def PlainStrings (type : DataType) (v : DataValue type) : Prop :=
  ∀ sp ∈ DataValue.strings type v, sp = none ∨ PlainString sp

/-- There is an element for each token up to the first one that is not recognised. -/
structure Taken (toks : List (List Byte)) (elems : List DataElement) : Prop where
  types_eq : elems.map DataElement.type = (toks.map fmt2Type).takeWhile (· ≠ .unknown)
  plain : ∀ e ∈ elems, PlainStrings e.type e.val

lemma Taken.stop {curFmt : List Byte} (h : fmt2Type curFmt = .unknown) (toks : List (List Byte)) :
    Taken (curFmt :: toks) [] := by
  refine ⟨?_, nofun⟩
  rw [List.map_cons, h]
  rfl

lemma Taken.cons {curFmt : List Byte} {toks : List (List Byte)} {elems : List DataElement}
    {v : DataValue (fmt2Type curFmt)} (hne : fmt2Type curFmt ≠ .unknown)
    (hv : PlainStrings (fmt2Type curFmt) v) (h : Taken toks elems) :
    Taken (curFmt :: toks) (⟨fmt2Type curFmt, v⟩ :: elems) := by
  refine ⟨?_, List.forall_mem_cons.mpr ⟨hv, h.plain⟩⟩
  rw [List.map_cons, List.map_cons, List.takeWhile_cons_of_pos (by simpa using hne), h.types_eq]

lemma block_plain (p : Option CString) :
    p.map CString.block = none ∨ PlainString (p.map CString.block) := by
  cases p with
  | none => exact .inl rfl
  | some c => exact .inr ⟨c.chars, rfl, c.plain⟩

lemma stringBlocks_plain (a : CArray (Option CString) 8) :
    ∀ sp ∈ (stringBlocks a).data, sp = none ∨ PlainString sp := by
  intro sp hsp
  obtain ⟨p, -, rfl⟩ := List.mem_map.mp hsp
  exact block_plain p

lemma readValue_plain {idata : List Slot} {dataNdx : ℕ} {type : DataType} {v : DataValue type}
    (h : readValue idata dataNdx type = .ok v) : PlainStrings type v := by
  cases type with
  | string =>
      obtain ⟨p, -, h⟩ := bind_ok_iff.mp h
      cases h
      intro sp hsp
      rw [List.mem_singleton.mp hsp]
      exact block_plain p
  | stringArray | stringLrgArray =>
      obtain ⟨a, -, h⟩ := bind_ok_iff.mp h
      cases h
      exact stringBlocks_plain a
  | _ => exact nofun

lemma argValue_plain {toFloat : BitVec 64 → BitVec 32} {args args' : List Arg} {type : DataType}
    {v : DataValue type} (h : argValue toFloat args type = .ok (v, args')) :
    PlainStrings type v := by
  cases type with
  | string =>
      obtain ⟨⟨p, _⟩, -, h⟩ := bind_ok_iff.mp h
      cases h
      intro sp hsp
      rw [List.mem_singleton.mp hsp]
      exact block_plain p
  | stringArray | stringLrgArray =>
      obtain ⟨⟨a, _⟩, -, h⟩ := bind_ok_iff.mp h
      cases h
      exact stringBlocks_plain a
  | _ => exact nofun

lemma argVecLoop_taken {idata : List Slot} {toks : List (List Byte)} {dataNdx n : ℕ}
    {before elems : List DataElement} {retval : Bool}
    (h : argVecLoop idata toks dataNdx before = .ok (retval, elems, n)) :
    ∃ new, elems = before ++ new ∧ Taken toks new := by
  induction toks generalizing dataNdx before with
  | nil =>
      cases h
      exact ⟨[], (List.append_nil _).symm, rfl, nofun⟩
  | cons curFmt toks ih =>
      rw [argVecLoop] at h
      split_ifs at h with hne
      · cases h
        exact ⟨[], (List.append_nil _).symm, .stop hne toks⟩
      · obtain ⟨v, hv, h⟩ := bind_ok_iff.mp h
        obtain ⟨new, rfl, hnew⟩ := ih h
        exact ⟨_, (List.append_cons _ _ _).symm, hnew.cons hne (readValue_plain hv)⟩

lemma argListLoop_taken {toFloat : BitVec 64 → BitVec 32} {toks : List (List Byte)}
    {args : List Arg} {before elems : List DataElement} {retval : Bool}
    (h : argListLoop toFloat toks args before = .ok (retval, elems)) :
    ∃ new, elems = before ++ new ∧ Taken toks new := by
  induction toks generalizing args before with
  | nil =>
      cases h
      exact ⟨[], (List.append_nil _).symm, rfl, nofun⟩
  | cons curFmt toks ih =>
      rw [argListLoop] at h
      split_ifs at h with hne
      · cases h
        exact ⟨[], (List.append_nil _).symm, .stop hne toks⟩
      · obtain ⟨⟨v, args'⟩, hv, h⟩ := bind_ok_iff.mp h
        obtain ⟨new, rfl, hnew⟩ := ih h
        exact ⟨_, (List.append_cons _ _ _).symm, hnew.cons hne (argValue_plain hv)⟩

theorem dataElements_taken {toFloat : BitVec 64 → BitVec 32} {fmt : List Byte}
    {arguments : Arguments} {elems : List DataElement}
    (h : arguments.dataElements toFloat fmt = .ok elems) :
    Taken (Tokenizer.tokens fmt delim) elems := by
  cases arguments with
  | list args =>
      obtain ⟨⟨retval, _⟩, hloop, h⟩ := bind_ok_iff.mp h
      cases h
      obtain ⟨new, rfl, hnew⟩ := argListLoop_taken hloop
      exact hnew
  | vector idata =>
      obtain ⟨⟨retval, _, n⟩, hloop, h⟩ := bind_ok_iff.mp h
      cases h
      obtain ⟨new, rfl, hnew⟩ := argVecLoop_taken hloop
      exact hnew

/-- All tokens are recognised, no string is null or too long, and the arrays of the short types
have the length that is allowed for them. -/
structure Encodable (fmt : List Byte) (elems : List DataElement) : Prop where
  recognised : Recognised fmt
  noNull : ∀ e ∈ elems, none ∉ DataValue.strings e.type e.val
  shortStrings : ∀ e ∈ elems, e.ShortStrings
  shortArrays : ∀ e ∈ elems, e.type.isShortArray → DataValue.arrayLen e.type e.val ≤ int32Max

lemma sentWrapstring_some {o : ByteOrder} {sp : Option (List Byte)} {bs : List Byte}
    (hplain : sp = none ∨ PlainString sp) (h : sentWrapstring o sp = some bs) :
    sp ≠ none ∧ ∀ block, sp = some block → block.length ≤ wrapstringMax := by
  rcases hplain with rfl | ⟨chars, rfl, hz⟩
  · cases h
  · refine ⟨nofun, fun block hblock => ?_⟩
    obtain rfl := Option.some.inj hblock
    rw [List.length_append, List.length_singleton]
    by_contra hlong
    have hnone : sentWrapstring o (some (chars ++ [0])) = none :=
      sentString_eq_none hz (by omega)
    rw [hnone] at h
    cases h

lemma sentAll_some {α : Type} {sent : α → Option (List Byte)} {data : List α} {bs : List Byte}
    (h : sentAll sent data = some bs) : ∀ v ∈ data, ∃ b, sent v = some b := by
  induction data generalizing bs with
  | nil => exact nofun
  | cons v data ih =>
      obtain ⟨b, hb, h⟩ := Option.bind_eq_some_iff.mp h
      obtain ⟨bs', hbs', -⟩ := Option.map_eq_some_iff.mp h
      exact List.forall_mem_cons.mpr ⟨⟨b, hb⟩, ih hbs'⟩

lemma sentArray_some {α : Type} {o : ByteOrder} {maxsize : ℕ} {sent : α → Option (List Byte)}
    {data : List α} {bs : List Byte} (h : sentArray o maxsize sent data = some bs) :
    data.length ≤ maxsize ∧ ∀ v ∈ data, ∃ b, sent v = some b := by
  unfold sentArray at h
  split_ifs at h with hle
  obtain ⟨bs', hbs', -⟩ := Option.map_eq_some_iff.mp h
  exact ⟨hle, sentAll_some hbs'⟩

/-- What is sent of an element shows that it can be. -/
lemma sentElement_some {short : ℕ} {o : ByteOrder} {e : DataElement} {bs : List Byte}
    (hplain : PlainStrings e.type e.val) (h : sentElement short o e.type e.val = some bs) :
    none ∉ DataValue.strings e.type e.val ∧ e.ShortStrings ∧
      (e.type.isShortArray → DataValue.arrayLen e.type e.val ≤ short) := by
  obtain ⟨type, v⟩ := e
  cases type with
  | unknown => cases h
  | char | uchar | int16 | uint16 | int32 | uint32 | int64 | uint64 | float | double =>
      exact ⟨List.not_mem_nil, nofun, nofun⟩
  | charArray | ucharArray | int16Array | uint16Array | int32Array | uint32Array | int64Array
  | uint64Array | floatArray | doubleArray =>
      exact ⟨List.not_mem_nil, nofun, fun _ => (sentArray_some h).1⟩
  | charLrgArray | ucharLrgArray | int16LrgArray | uint16LrgArray | int32LrgArray
  | uint32LrgArray | int64LrgArray | uint64LrgArray | floatLrgArray | doubleLrgArray =>
      exact ⟨List.not_mem_nil, nofun, nofun⟩
  | string =>
      obtain ⟨hne, hshort⟩ := sentWrapstring_some (hplain v (List.mem_singleton_self _)) h
      refine ⟨fun hmem => hne (List.mem_singleton.mp hmem).symm, fun block hblock => ?_, nofun⟩
      exact hshort block (List.mem_singleton.mp hblock).symm
  | stringArray | stringLrgArray =>
      obtain ⟨hle, hall⟩ := sentArray_some h
      refine ⟨fun hmem => ?_, fun block hblock => ?_, ?_⟩
      · obtain ⟨b, hb⟩ := hall none hmem
        exact (sentWrapstring_some (hplain none hmem) hb).1 rfl
      · obtain ⟨b, hb⟩ := hall (some block) hblock
        exact (sentWrapstring_some (hplain _ hblock) hb).2 block rfl
      · first | exact fun _ => hle | exact nofun

lemma sentElements_some {short : ℕ} {o : ByteOrder} {toks : List (List Byte)}
    {elems : List DataElement} {bs : List Byte} (h : sentElements short o toks elems = some bs) :
    toks.length ≤ elems.length ∧
      ∀ e ∈ elems.take toks.length, ∃ b, sentElement short o e.type e.val = some b := by
  induction toks generalizing elems bs with
  | nil => exact ⟨Nat.zero_le _, nofun⟩
  | cons tok toks ih =>
      cases elems with
      | nil => cases h
      | cons e elems =>
          obtain ⟨b, hb, h⟩ := Option.bind_eq_some_iff.mp h
          obtain ⟨bs', hbs', -⟩ := Option.map_eq_some_iff.mp h
          obtain ⟨hle, hall⟩ := ih hbs'
          rw [List.length_cons, List.length_cons, List.take_succ_cons]
          exact ⟨Nat.succ_le_succ hle, List.forall_mem_cons.mpr ⟨⟨b, hb⟩, hall⟩⟩

section Taken
variable {fmt : CString} {elems : List DataElement}
  (htaken : Taken (Tokenizer.tokens fmt.chars delim) elems)
include htaken

lemma Taken.length_le : elems.length ≤ (Tokenizer.tokens fmt.chars delim).length := by
  have hlen := congrArg List.length htaken.types_eq
  rw [List.length_map] at hlen
  rw [hlen]
  exact (List.takeWhile_prefix _).length_le.trans (List.length_map _).le

/-- There are as many elements as tokens exactly if all tokens are recognised. -/
lemma Taken.recognised_iff :
    Recognised fmt.chars ↔ (Tokenizer.tokens fmt.chars delim).length ≤ elems.length := by
  have hlen := congrArg List.length htaken.types_eq
  rw [List.length_map] at hlen
  constructor
  · intro h
    rw [hlen, List.takeWhile_eq_self_iff.mpr, List.length_map]
    intro type htype
    obtain ⟨tok, htok, rfl⟩ := List.mem_map.mp htype
    exact decide_eq_true (h tok htok)
  · intro hle tok htok
    have hprefix := List.takeWhile_prefix (fun type => decide (type ≠ DataType.unknown))
      (l := (Tokenizer.tokens fmt.chars delim).map fmt2Type)
    have hall := hprefix.eq_of_length_le (by rw [List.length_map, ← hlen]; exact hle)
    have hmem : fmt2Type tok ∈ (Tokenizer.tokens fmt.chars delim).map fmt2Type :=
      List.mem_map_of_mem htok
    rw [← hall] at hmem
    simpa using List.mem_takeWhile_imp hmem

lemma Encodable.sendable (h : Encodable fmt.chars elems) : Sendable int32Max fmt.chars elems := by
  refine ⟨fmt.plain, h.recognised, ?_, fun e he => ⟨h.shortArrays e he, fun sp hsp => ?_⟩⟩
  · rw [htaken.types_eq, List.takeWhile_eq_self_iff]
    intro type htype
    obtain ⟨tok, htok, rfl⟩ := List.mem_map.mp htype
    exact decide_eq_true (h.recognised tok htok)
  · exact (htaken.plain e he sp hsp).resolve_left fun hnone => h.noNull e he (hnone ▸ hsp)

/-- The data that can be encoded are those for which there are bytes to send. -/
theorem Taken.encodable_iff (o : ByteOrder) :
    Encodable fmt.chars elems ↔ sentData int32Max o (some fmt.block) elems ≠ none := by
  constructor
  · intro h
    rw [CString.block, (h.sendable htaken).sentData_eq h.shortStrings o]
    exact Option.some_ne_none _
  · intro h
    obtain ⟨bs, hbs⟩ := Option.ne_none_iff_exists'.mp h
    rw [CString.block] at hbs
    simp only [sentData, cString_terminated fmt.plain] at hbs
    obtain ⟨hle, hall⟩ := sentElements_some hbs
    rw [List.take_of_length_le htaken.length_le] at hall
    have hsent : ∀ e ∈ elems, none ∉ DataValue.strings e.type e.val ∧ e.ShortStrings ∧
        (e.type.isShortArray → DataValue.arrayLen e.type e.val ≤ int32Max) := by
      intro e he
      obtain ⟨b, hb⟩ := hall e he
      exact sentElement_some (htaken.plain e he) hb
    exact ⟨htaken.recognised_iff.mpr hle, fun e he => (hsent e he).1, fun e he => (hsent e he).2.1,
      fun e he => (hsent e he).2.2⟩

end Taken

/-- The constructor comes to an end, with an error or with the data in the packet. -/
def Reports (host : Host) (elems : List DataElement) (r : Outcome Packet) : Prop :=
  ∃ p, r = .ok p ∧ (p.hasError = true ∨ p.Carries host elems)

/-- There is a buffer for that many bytes: the size in 64 bits is not zero, and allocated. -/
def HasBuffer (host : Host) (n : ℕ) : Prop :=
  n = 0 ∨ BitVec.ofNat 64 n ≠ 0 ∧ (host.malloc (BitVec.ofNat 64 n).toNat).isSome

lemma sizeof_of_blocks {α : Type} {f : PDR → Action α}
    (h : (countingSink 64).Blocks (f ⟨.encode, sizeofOps⟩)) :
    pdrSizeof f = .ok (false, 0) ∨ ∃ e, pdrSizeof f = .error (.fault e) := by
  have hr := h ⟨[], 0, 0⟩ (by simp [countingSink])
  unfold pdrSizeof
  cases hx : f ⟨.encode, sizeofOps⟩ ⟨[], 0, 0⟩ with
  | ok r => exact absurd hx (hr r)
  | error e =>
      cases e with
      | refused => exact .inl rfl
      | fault e => exact .inr ⟨e, rfl⟩

section Create
variable {host : Host} {srcRank streamId tag : BitVec 32} {fmt : CString} {elems : List DataElement}

/-- Without bytes to send the size is not known, and an assertion fails if nothing else does. -/
lemma create_faults (h : sentData int32Max host.bo (some fmt.block) elems = none) :
    ∃ e, Packet.create host srcRank streamId tag (some fmt.chars) elems = .error (.fault e) := by
  have hsize := pdrPacketData_encodes host (sizeofOps_feeds host.bo) (some fmt.block) elems
  rw [h] at hsize
  simp only [Packet.create, Packet.encodePdrData]
  rcases sizeof_of_blocks (f := fun x => pdrPacketData host x (some fmt.block) elems) hsize with
    hsz | ⟨e, hsz⟩
  · refine ⟨.assertion, ?_⟩
    rw [CString.block] at hsz
    simp only [hsz, ok_bind]
    rfl
  · refine ⟨e, ?_⟩
    rw [CString.block] at hsz
    simp only [hsz]
    rfl

/-- A packet without a header of its own carries data in the order of this machine. -/
lemma Packet.Carries.encoded_here {p : Packet} (h : p.Carries host elems) (hhdr : p.hdr = none) :
    p.bufLen.toNat = (elementsForm host.bo elems).length ∧
      (elementsForm host.bo elems ≠ [] → p.buf = some (elementsForm host.bo elems)) := by
  obtain ⟨o, fmt, -, henc, ⟨-, rfl⟩ | ⟨fields, hbytes, -⟩⟩ := h.encoded
  · exact ⟨henc.length, henc.bytes⟩
  · rw [hbytes.form] at hhdr
    cases hhdr

section Sizes
variable (htaken : Taken (Tokenizer.tokens fmt.chars delim) elems) (h : Encodable fmt.chars elems)
include htaken h

lemma Encodable.carries {p : Packet} (herr : p.hasError = false)
    (hfmt : p.fmtStr = some (fmt.chars ++ [0])) (hhdr : p.hdrLen = 0)
    (hlen : p.bufLen.toNat = (elementsForm host.bo elems).length)
    (hbuf : elementsForm host.bo elems ≠ [] → p.buf = some (elementsForm host.bo elems)) :
    p.Carries host elems :=
  ⟨herr, host.bo, fmt.chars, hfmt, ⟨h.sendable htaken, h.shortStrings, hlen, hbuf⟩,
    .inl ⟨hhdr, rfl⟩⟩

lemma Encodable.sized :
    (pdrSizeof fun x => pdrPacketData host x (some (fmt.chars ++ [0])) elems) =
      .ok (true, BitVec.ofNat 64 (elementsForm host.bo elems).length) := by
  have hsize := pdrPacketData_encodes host (sizeofOps_feeds host.bo) (some (fmt.chars ++ [0])) elems
  rw [(h.sendable htaken).sentData_eq h.shortStrings] at hsize
  exact @pdrSizeof_emits _ (fun x => pdrPacketData host x (some (fmt.chars ++ [0])) elems) _ _ hsize

/-- A size that wraps to zero: nothing is written, and no error is set. -/
lemma create_reports_zero (hzero : BitVec.ofNat 64 (elementsForm host.bo elems).length = 0) :
    Reports host elems (Packet.create host srcRank streamId tag (some fmt.chars) elems) ↔
      (elementsForm host.bo elems).length = 0 := by
  obtain ⟨p, hp, herr, hfmt, hhdrLen, hhdr, hlen⟩ : ∃ p,
      Packet.create host srcRank streamId tag (some fmt.chars) elems = .ok p ∧
      p.hasError = false ∧ p.fmtStr = some (fmt.chars ++ [0]) ∧ p.hdrLen = 0 ∧ p.hdr = none ∧
      p.bufLen = 0 := by
    simp only [Packet.create, Packet.encodePdrData, h.sized htaken, ok_bind, hzero]
    exact ⟨_, rfl, rfl, rfl, rfl, rfl, rfl⟩
  constructor
  · rintro ⟨q, hq, hrep⟩
    obtain rfl := Except.ok.inj (hp.symm.trans hq)
    have hhere := (hrep.resolve_left (by simp [herr])).encoded_here hhdr
    rw [hlen] at hhere
    exact hhere.1.symm
  · intro h0
    refine ⟨p, hp, .inr (h.carries htaken herr hfmt hhdrLen ?_ fun hne => ?_)⟩
    · rw [hlen, h0]
      rfl
    · exact absurd (List.length_eq_zero_iff.mp h0) hne

/-- Without a block nothing is written either. -/
lemma create_unallocated (hzero : BitVec.ofNat 64 (elementsForm host.bo elems).length ≠ 0)
    (hblock : host.malloc (BitVec.ofNat 64 (elementsForm host.bo elems).length).toNat = none) :
    ¬ Reports host elems (Packet.create host srcRank streamId tag (some fmt.chars) elems) := by
  obtain ⟨p, hp, herr, hhdr, hbuf⟩ : ∃ p,
      Packet.create host srcRank streamId tag (some fmt.chars) elems = .ok p ∧
      p.hasError = false ∧ p.hdr = none ∧ p.buf = none := by
    simp only [Packet.create, Packet.encodePdrData, h.sized htaken, ok_bind, hzero, hblock]
    exact ⟨_, rfl, rfl, rfl, rfl⟩
  rintro ⟨q, hq, hrep⟩
  obtain rfl := Except.ok.inj (hp.symm.trans hq)
  have hhere := (hrep.resolve_left (by simp [herr])).encoded_here hhdr
  rw [hbuf] at hhere
  refine absurd (hhere.2 fun hnil => hzero ?_) (Option.some_ne_none _).symm
  rw [hnil]
  rfl

/-- In a block the encoding is complete, or the writer runs out of space and sets the error. -/
lemma create_allocated (hzero : BitVec.ofNat 64 (elementsForm host.bo elems).length ≠ 0)
    {block : List Byte}
    (hblock : host.malloc (BitVec.ofNat 64 (elementsForm host.bo elems).length).toNat =
      some block) :
    Reports host elems (Packet.create host srcRank streamId tag (some fmt.chars) elems) := by
  have hput := pdrPacketData_encodes host (pdrmemOps_feeds host) (some (fmt.chars ++ [0])) elems
  rw [(h.sendable htaken).sentData_eq h.shortStrings] at hput
  have hblockLen := host.malloc_length _ _ hblock
  by_cases hlt : (elementsForm host.bo elems).length < 2 ^ 64
  · have hn := toNat_ofNat_length hlt
    rw [hn] at hblockLen
    have hwrite : encodeBlock host
        (fun x => pdrPacketData host x (some (fmt.chars ++ [0])) elems) block
        (BitVec.ofNat 64 (elementsForm host.bo elems).length).toNat =
          .ok (elementsForm host.bo elems, false) := by
      simp only [encodeBlock, pdrmemCreate_encode, hn, Sink.Emits.fills hput hblockLen]
    simp only [Packet.create, Packet.encodePdrData, h.sized htaken, ok_bind, hzero, hblock, hwrite]
    exact ⟨_, rfl, .inr (h.carries htaken rfl rfl rfl hn fun _ => rfl)⟩
  · have hvalid : Cursor.Valid
        ⟨block, 0, (BitVec.ofNat 64 (elementsForm host.bo elems).length).toNat⟩ := by
      simp [Cursor.Valid, hblockLen]
    have hspace : (BitVec.ofNat 64 (elementsForm host.bo elems).length).toNat <
        (elementsForm host.bo elems).length :=
      (BitVec.ofNat 64 _).isLt.trans_le (not_lt.mp hlt)
    have hwrite : encodeBlock host
        (fun x => pdrPacketData host x (some (fmt.chars ++ [0])) elems) block
        (BitVec.ofNat 64 (elementsForm host.bo elems).length).toNat =
          .ok (host.scrap block, true) := by
      simp only [encodeBlock, pdrmemCreate_encode, Sink.Emits.refuses hput hvalid hspace]
    simp only [Packet.create, Packet.encodePdrData, h.sized htaken, ok_bind, hzero, hblock, hwrite]
    exact ⟨_, rfl, .inl rfl⟩

/-- With bytes to send the constructor reports if there is a buffer for them. -/
lemma create_reports :
    Reports host elems (Packet.create host srcRank streamId tag (some fmt.chars) elems) ↔
      HasBuffer host (elementsForm host.bo elems).length := by
  by_cases hzero : BitVec.ofNat 64 (elementsForm host.bo elems).length = 0
  · rw [create_reports_zero htaken h hzero]
    exact (or_iff_left fun hbuf => hbuf.1 hzero).symm
  · cases hblock : host.malloc (BitVec.ofNat 64 (elementsForm host.bo elems).length).toNat with
    | none =>
        refine iff_of_false (create_unallocated htaken h hzero hblock) ?_
        rintro (h0 | ⟨-, hsome⟩)
        · exact hzero (by rw [h0]; rfl)
        · rw [hblock] at hsome
          cases hsome
    | some block =>
        refine iff_of_true (create_allocated htaken h hzero hblock) (.inr ⟨hzero, ?_⟩)
        rw [hblock]
        rfl

end Sizes

/-- A packet is made of its arguments, or has an error, exactly if the arguments can be encoded
and there is a buffer for the encoding. -/
theorem construct_reports_iff {toFloat : BitVec 64 → BitVec 32} {arguments : Arguments}
    (hargs : arguments.dataElements toFloat fmt.chars = .ok elems) :
    Reports host elems (construct toFloat host srcRank streamId tag fmt arguments) ↔
      Encodable fmt.chars elems ∧ HasBuffer host (elementsForm host.bo elems).length := by
  have htaken := dataElements_taken hargs
  rw [construct, hargs, ok_bind]
  by_cases henc : Encodable fmt.chars elems
  · rw [create_reports htaken henc]
    exact (and_iff_right henc).symm
  · refine iff_of_false ?_ fun h => henc h.1
    rintro ⟨p, hp, -⟩
    have hnone := not_not.mp (mt (htaken.encodable_iff host.bo).mpr henc)
    obtain ⟨e, he⟩ : ∃ e, Packet.create host srcRank streamId tag (some fmt.chars) elems =
        .error (.fault e) := create_faults hnone
    rw [he] at hp
    cases hp

theorem construct_reports_numberString :
    Reports (Host.ample .little)
        [⟨.int32, (7 : BitVec 32)⟩, ⟨.string, (some [97, 0] : Option (List Byte))⟩]
        (construct (fun _ => 0) (Host.ample .little) 0 1 100 ⟨numberString, by decide⟩
          (.list [.int 7, .pointer (.string (some ⟨[97], by decide⟩))])) ↔
      Encodable numberString
        [⟨.int32, (7 : BitVec 32)⟩, ⟨.string, (some [97, 0] : Option (List Byte))⟩] ∧
      HasBuffer (Host.ample .little) (elementsForm .little
        [⟨.int32, (7 : BitVec 32)⟩, ⟨.string, (some [97, 0] : Option (List Byte))⟩]).length :=
  construct_reports_iff rfl

/-- A null pointer as the string: there is no size, and the assertion fails. -/
theorem nullString_not_reports :
    (Arguments.list [.pointer (.string none)]).dataElements (fun _ => 0) (ascii ['%', 's']) =
        .ok [⟨.string, (none : Option (List Byte))⟩] ∧
      construct (fun _ => 0) (Host.ample .little) 0 1 100 ⟨ascii ['%', 's'], by decide⟩
        (.list [.pointer (.string none)]) = .error (.fault .assertion) :=
  ⟨rfl, rfl⟩

/-- A token that is not recognised: the size is asked for elements that are not there. -/
example :
    construct (fun _ => 0) (Host.ample .little) 0 1 100 ⟨ascii ['%', 'x'], by decide⟩ (.list []) =
      .error (.fault .readPast) :=
  rfl

end Create

end MRNet.Wire
