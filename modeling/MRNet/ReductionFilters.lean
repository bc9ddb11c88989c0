import MRNet.Buffers
import MRNet.Formats
import MRNet.Reductions

/-!
# Sums, minima and maxima

Translation of `tfilter_Sum`, `tfilter_Min` and `tfilter_Max` of `FilterDefinitions.C`. The
result is accumulated in eight bytes that are read and written by the type of the packets, and
it is sent on through an argument list, which widens the short types.
-/
namespace MRNet.Filters
open NativeBytes Codec Buffers Reductions
open Wire (DataType ascii delim fmt2Type)

/-- The types that the filters know. -/
inductive ScalarType where
  | char | uchar
  | int16 | uint16
  | int32 | uint32
  | int64 | uint64
  | float | double
  deriving DecidableEq

namespace ScalarType

def width : ScalarType → ℕ
  | char | uchar => 8
  | int16 | uint16 => 16
  | int32 | uint32 | float => 32
  | int64 | uint64 | double => 64

/-- The `switch` over the type of the first packet. -/
def ofDataType : DataType → Option ScalarType
  | .char => some char
  | .uchar => some uchar
  | .int16 => some int16
  | .uint16 => some uint16
  | .int32 => some int32
  | .uint32 => some uint32
  | .int64 => some int64
  | .uint64 => some uint64
  | .float => some float
  | .double => some double
  | _ => none

def formatString : ScalarType → List Byte
  | char => ascii ['%', 'c']
  | uchar => ascii ['%', 'u', 'c']
  | int16 => ascii ['%', 'h', 'd']
  | uint16 => ascii ['%', 'u', 'h', 'd']
  | int32 => ascii ['%', 'd']
  | uint32 => ascii ['%', 'u', 'd']
  | int64 => ascii ['%', 'l', 'd']
  | uint64 => ascii ['%', 'u', 'l', 'd']
  | float => ascii ['%', 'f']
  | double => ascii ['%', 'l', 'f']

end ScalarType

/-- What differs between machines: the byte order, whether a `char` has a sign, and floating
point. -/
structure Machine where
  byteOrder : ByteOrder
  charSigned : Bool
  addFloat : BitVec 32 → BitVec 32 → BitVec 32
  ltFloat : BitVec 32 → BitVec 32 → Bool
  addDouble : BitVec 64 → BitVec 64 → BitVec 64
  ltDouble : BitVec 64 → BitVec 64 → Bool
  /-- From `float` to `double`. -/
  widen : BitVec 32 → BitVec 64
  narrow : BitVec 64 → BitVec 32

namespace Machine

variable (m : Machine)

/-- `*((const T*)in)` for a type of `w` bits. -/
def load (w : ℕ) (block : Block Byte) : Outcome (BitVec w) := do
  let bytes ← (List.range (w / 8)).mapM (readAt block)
  return nativeValue m.byteOrder w bytes

/-- `*((T*)out) = v`. -/
def store (block : Block Byte) {w : ℕ} (v : BitVec w) : Outcome (Block Byte) :=
  copyInto block 0 (nativeBytes m.byteOrder v) (w / 8)

/-- Signed additions wrap like unsigned ones. -/
def add : (type : ScalarType) → BitVec type.width → BitVec type.width → BitVec type.width
  | .char, a, b | .uchar, a, b => (a + b : BitVec 8)
  | .int16, a, b | .uint16, a, b => (a + b : BitVec 16)
  | .int32, a, b | .uint32, a, b => (a + b : BitVec 32)
  | .int64, a, b | .uint64, a, b => (a + b : BitVec 64)
  | .float, a, b => m.addFloat a b
  | .double, a, b => m.addDouble a b

def less : (type : ScalarType) → BitVec type.width → BitVec type.width → Bool
  | .char, a, b => if m.charSigned then BitVec.slt a b else BitVec.ult a b
  | .int16, a, b | .int32, a, b | .int64, a, b => BitVec.slt a b
  | .uchar, a, b | .uint16, a, b | .uint32, a, b | .uint64, a, b => BitVec.ult a b
  | .float, a, b => m.ltFloat a b
  | .double, a, b => m.ltDouble a b

def sum (in1 in2 out : Block Byte) (type : ScalarType) : Outcome (Block Byte) := do
  let a ← m.load type.width in1
  let b ← m.load type.width in2
  m.store out (m.add type a b)

def mrnMin (in1 in2 out : Block Byte) (type : ScalarType) : Outcome (Block Byte) := do
  let a ← m.load type.width in1
  let b ← m.load type.width in2
  m.store out (if m.less type a b then a else b)

def mrnMax (in1 in2 out : Block Byte) (type : ScalarType) : Outcome (Block Byte) := do
  let a ← m.load type.width in1
  let b ← m.load type.width in2
  m.store out (if m.less type b a then a else b)

end Machine

/-- The union of a data element with its tag. -/
structure Element where
  type : ScalarType
  val : Block Byte

/-- The first data element, if there is one. -/
structure FilterPacket where
  streamId : BitVec 32
  tag : BitVec 32
  fmtStr : List Byte
  element : Option Element

/-- An argument as it is passed, after the promotion of the short types. -/
inductive VaArg where
  | int (v : BitVec 32)
  | int64 (v : BitVec 64)
  | double (v : BitVec 64)

namespace Machine

variable (m : Machine)

def pass : (type : ScalarType) → BitVec type.width → VaArg
  | .char, v => .int (if m.charSigned then BitVec.signExtend 32 v else BitVec.setWidth 32 v)
  | .uchar, v | .uint16, v => .int (BitVec.setWidth 32 v)
  | .int16, v => .int (BitVec.signExtend 32 v)
  | .int32, v | .uint32, v => .int v
  | .int64, v | .uint64, v => .int64 v
  | .float, v => .double (m.widen v)
  | .double, v => .double v

/-- The value of a new element is zero, and a part of it is set from the argument. An argument
of another type than the one that is asked for is a fault. -/
def setValue (type : ScalarType) (arg : VaArg) : Outcome (Block Byte) :=
  let val : Block Byte := filled (List.replicate 8 0) 0
  match type, arg with
  | .char, .int v | .uchar, .int v => m.store val (BitVec.setWidth 8 v)
  | .int16, .int v | .uint16, .int v => m.store val (BitVec.setWidth 16 v)
  | .int32, .int v | .uint32, .int v => m.store val v
  | .int64, .int64 v | .uint64, .int64 v => m.store val v
  | .float, .double v => m.store val (m.narrow v)
  | .double, .double v => m.store val v
  | _, _ => .error (.fault .readPast)

/-- The constructor of `Packet` with the format string of a type. -/
def newPacket (streamId tag : BitVec 32) (type : ScalarType) (arg : VaArg) :
    Outcome FilterPacket := do
  let val ← m.setValue type arg
  return ⟨streamId, tag, type.formatString, some ⟨type, val⟩⟩

/-- `&((*cur_packet)[0]->val.p)`. A missing element is not tested for. -/
def firstValue (p : FilterPacket) : Outcome (Block Byte) :=
  match p.element with
  | none => .error (.fault .nullPointer)
  | some e => return e.val

/-- The filters differ in the buffer they start with and in what a packet does to it, which may
be different for the first packet. The format of every packet is compared with the first one. -/
def tfilter (start : Block Byte)
    (first next : Block Byte → Block Byte → ScalarType → Outcome (Block Byte))
    (ipackets : List FilterPacket) : Outcome (List FilterPacket) :=
  match ipackets with
  | [] => .error (.fault .assertion)
  | p :: rest =>
      match p.fmtStr with
      | [] => .error (.fault .readPast)
      | _ :: fmt =>
          match ScalarType.ofDataType (fmt2Type fmt) with
          | none => return []
          | some type => do
              let val ← firstValue p
              let result ← first start val type
              let result ← rest.foldlM (fun result curPacket =>
                if curPacket.fmtStr = p.fmtStr then do
                  let val ← firstValue curPacket
                  next result val type
                else .error (.fault .assertion)) result
              let tmp ← m.load type.width result
              let newPacket ← m.newPacket p.streamId p.tag type (m.pass type tmp)
              return [newPacket]

def tfilterSum : List FilterPacket → Outcome (List FilterPacket) :=
  m.tfilter (filled (List.replicate 8 0) 0) (fun result val => m.sum result val result)
    fun result val => m.sum result val result

/-- The buffer is not set before the first packet. -/
def tfilterMax : List FilterPacket → Outcome (List FilterPacket) :=
  m.tfilter (allocate Byte 8) (fun result val => m.mrnMax val val result)
    fun result val => m.mrnMax result val result

def tfilterMin : List FilterPacket → Outcome (List FilterPacket) :=
  m.tfilter (allocate Byte 8) (fun result val => m.mrnMin val val result)
    fun result val => m.mrnMin result val result

/-- What a back-end sends. -/
structure Leaf (type : ScalarType) where
  streamId : BitVec 32
  tag : BitVec 32
  value : BitVec type.width

def send {type : ScalarType} (leaf : Leaf type) : Outcome (List FilterPacket) := do
  let p ← m.newPacket leaf.streamId leaf.tag type (m.pass type leaf.value)
  return [p]

def isSigned : ScalarType → Bool
  | .char => m.charSigned
  | .int16 | .int32 | .int64 => true
  | _ => false

/-- The number that a value of an integer type stands for. -/
def number (type : ScalarType) (v : BitVec type.width) : ℤ :=
  if m.isSigned type then v.toInt else v.toNat

end Machine

/-- The type is not one of floating point. -/
def ScalarType.IsInteger (type : ScalarType) : Prop := type ≠ .float ∧ type ≠ .double

section Memory

variable {m : Machine} {type : ScalarType} {w : ℕ}

/-- A buffer of eight bytes with a value of a type in front. -/
structure Holds (m : Machine) (block : Block Byte) (v : BitVec w) : Prop where
  length : block.length = 8
  load : m.load w block = .ok v

lemma store_holds {block : Block Byte} (hblock : block.length = 8) (hdvd : 8 ∣ w) (hw : w ≤ 64)
    (v : BitVec w) : ∃ block', m.store block v = .ok block' ∧ Holds m block' v := by
  have hbytes : (nativeBytes m.byteOrder v).length = w / 8 := nativeBytes_length m.byteOrder v
  have hstore : m.store block v =
      .ok ((nativeBytes m.byteOrder v).map some ++ block.drop (w / 8)) := by
    rw [Machine.store, copyInto, if_neg (by omega), if_neg (by omega), List.take_zero,
      List.nil_append, Nat.zero_add, List.take_of_length_le (by omega)]
    rfl
  refine ⟨_, hstore, ?_, ?_⟩
  · rw [List.length_append, List.length_map, List.length_drop]
    omega
  · have hread := mapM_readAt_written (nativeBytes m.byteOrder v) (block.drop (w / 8))
    rw [hbytes] at hread
    rw [Machine.load, hread, ok_bind, nativeValue_nativeBytes _ hdvd]
    rfl

lemma nativeBytes_zero (o : ByteOrder) (w : ℕ) :
    nativeBytes o (0 : BitVec w) = List.replicate (w / 8) 0 := by
  have hlittle : ∀ n, littleBytes n 0 = List.replicate n 0 := by
    intro n
    induction n with
    | zero => rfl
    | succ n ih => exact congrArg (List.cons 0) ih
  cases o with
  | little => exact hlittle _
  | big => exact (congrArg List.reverse (hlittle _)).trans List.reverse_replicate

/-- A zeroed buffer holds the zero of every type. -/
lemma holds_zero (m : Machine) (hdvd : 8 ∣ w) (hw : w ≤ 64) :
    Holds m (filled (List.replicate 8 0) 0) (0 : BitVec w) := by
  refine ⟨rfl, ?_⟩
  have hsplit : filled (List.replicate 8 (0 : Byte)) 0 =
      (nativeBytes m.byteOrder (0 : BitVec w)).map some ++
        (List.replicate (8 - w / 8) (0 : Byte)).map some := by
    rw [nativeBytes_zero, ← List.map_append, List.replicate_append_replicate,
      Nat.add_sub_cancel' (by omega)]
    rfl
  have hread := mapM_readAt_written (nativeBytes m.byteOrder (0 : BitVec w))
    ((List.replicate (8 - w / 8) (0 : Byte)).map some)
  rw [nativeBytes_length, ← hsplit] at hread
  rw [Machine.load, hread, ok_bind, nativeValue_nativeBytes _ hdvd]
  rfl

lemma dvd_width (type : ScalarType) : 8 ∣ type.width := by
  cases type <;> decide

lemma width_le (type : ScalarType) : type.width ≤ 64 := by
  cases type <;> decide

lemma setWidth_signExtend (hw : w ≤ 32) (v : BitVec w) :
    BitVec.setWidth w (BitVec.signExtend 32 v) = v := by
  apply BitVec.eq_of_getLsbD_eq
  intro i hi
  rw [BitVec.getLsbD_setWidth, BitVec.getLsbD_signExtend]
  simp [hi, hi.trans_le hw]

/-- An argument that was widened is cut back to the value. -/
lemma setValue_pass (hinteger : type.IsInteger) (v : BitVec type.width) :
    ∃ block, m.setValue type (m.pass type v) = .ok block ∧ Holds m block v := by
  have hlength : (filled (List.replicate 8 (0 : Byte)) 0).length = 8 := rfl
  obtain ⟨block, hstore, hholds⟩ :=
    store_holds (m := m) hlength (dvd_width type) (width_le type) v
  refine ⟨block, ?_, hholds⟩
  rw [← hstore]
  cases type with
  | char =>
      simp only [Machine.setValue, Machine.pass]
      congr 1
      split_ifs
      · exact setWidth_signExtend (by decide) v
      · exact (BitVec.setWidth_setWidth_of_le v (by decide)).trans (BitVec.setWidth_eq v)
  | uchar =>
      apply congrArg (m.store _)
      exact (BitVec.setWidth_setWidth_of_le v (by decide)).trans (BitVec.setWidth_eq v)
  | int16 => exact congrArg (m.store _) (setWidth_signExtend (by decide) v)
  | uint16 =>
      apply congrArg (m.store _)
      exact (BitVec.setWidth_setWidth_of_le v (by decide)).trans (BitVec.setWidth_eq v)
  | int32 => rfl
  | uint32 => rfl
  | int64 => rfl
  | uint64 => rfl
  | float => exact absurd rfl hinteger.1
  | double => exact absurd rfl hinteger.2

/-- A packet with one value of a type. -/
structure Carries (m : Machine) (type : ScalarType) (p : FilterPacket) (v : BitVec type.width) :
    Prop where
  fmtStr : p.fmtStr = type.formatString
  element : ∃ val, p.element = some ⟨type, val⟩ ∧ Holds m val v

lemma newPacket_carries (hinteger : type.IsInteger) (streamId tag : BitVec 32)
    (v : BitVec type.width) :
    ∃ p, m.newPacket streamId tag type (m.pass type v) = .ok p ∧ Carries m type p v := by
  obtain ⟨val, hval, hholds⟩ := setValue_pass hinteger v
  exact ⟨_, bind_ok_iff.mpr ⟨val, hval, rfl⟩, rfl, val, rfl, hholds⟩

/-- The type is found in the format string without its first character. -/
lemma ofDataType_formatString (type : ScalarType) :
    ∃ percent fmt, type.formatString = percent :: fmt ∧
      ScalarType.ofDataType (fmt2Type fmt) = some type := by
  cases type <;> exact ⟨_, _, rfl, by decide⟩

/-- A filter folds the values of the packets, and sends one packet of their format. -/
theorem tfilter_carries (hinteger : type.IsInteger) {start : Block Byte}
    {first next : Block Byte → Block Byte → ScalarType → Outcome (Block Byte)}
    {f : BitVec type.width → BitVec type.width → BitVec type.width}
    (hfirst : ∀ {val} {v : BitVec type.width}, Holds m val v →
      ∃ r, first start val type = .ok r ∧ Holds m r v)
    (hnext : ∀ {result val} {r v : BitVec type.width}, Holds m result r → Holds m val v →
      ∃ result', next result val type = .ok result' ∧ Holds m result' (f r v))
    {p : FilterPacket} {v : BitVec type.width} {ps : List FilterPacket}
    {vs : List (BitVec type.width)} (hp : Carries m type p v)
    (hps : List.Forall₂ (Carries m type) ps vs) :
    ∃ q, m.tfilter start first next (p :: ps) = .ok [q] ∧ Carries m type q (vs.foldl f v) := by
  have hloop : ∀ {result : Block Byte} {r : BitVec type.width}, Holds m result r →
      ∃ result', ps.foldlM (fun result curPacket =>
          if curPacket.fmtStr = p.fmtStr then do
            let val ← Machine.firstValue curPacket
            next result val type
          else .error (.fault .assertion)) result = .ok result' ∧
        Holds m result' (vs.foldl f r) := by
    induction hps with
    | nil => exact fun {result r} hr => ⟨result, rfl, hr⟩
    | @cons q u ps vs hq _ ih =>
        intro result r hr
        obtain ⟨val, helement, hval⟩ := hq.element
        obtain ⟨result₁, hnext₁, hholds⟩ := hnext hr hval
        obtain ⟨result', hrest, hend⟩ := ih hholds
        refine ⟨result', ?_, hend⟩
        rw [List.foldlM_cons, if_pos (hq.fmtStr.trans hp.fmtStr.symm), Machine.firstValue, helement]
        exact (congrArg (· >>= _) hnext₁).trans hrest
  obtain ⟨percent, fmt, hformat, htype⟩ := ofDataType_formatString type
  obtain ⟨val, helement, hval⟩ := hp.element
  obtain ⟨result, hresult, hholds⟩ := hfirst hval
  obtain ⟨result', hrest, hend⟩ := hloop hholds
  obtain ⟨q, hq, hcarries⟩ := newPacket_carries (m := m) hinteger p.streamId p.tag (vs.foldl f v)
  refine ⟨q, ?_, hcarries⟩
  have hfmt := hp.fmtStr.trans hformat
  have hvalue : Machine.firstValue p = .ok val := by
    rw [Machine.firstValue, helement]
    rfl
  simp only [Machine.tfilter, hfmt, htype, hvalue, ok_bind, hresult]
  rw [hfmt] at hrest
  rw [hrest, ok_bind, hend.load, ok_bind, hq]
  rfl

lemma sum_holds (hinteger : type.IsInteger) {in1 in2 out : Block Byte} {a b : BitVec type.width}
    (ha : Holds m in1 a) (hb : Holds m in2 b) (hout : out.length = 8) :
    ∃ r, m.sum in1 in2 out type = .ok r ∧ Holds m r (a + b) := by
  obtain ⟨r, hr, hholds⟩ := store_holds (m := m) hout (dvd_width type) (width_le type) (a + b)
  have hadd : m.add type a b = a + b := by
    cases type with
    | float => exact absurd rfl hinteger.1
    | double => exact absurd rfl hinteger.2
    | _ => rfl
  refine ⟨r, ?_, hholds⟩
  rw [Machine.sum, ha.load, ok_bind, hb.load, ok_bind, hadd, hr]

/-- The buffer starts with a zero of every type. -/
lemma sum_first (hinteger : type.IsInteger) {val : Block Byte} {v : BitVec type.width}
    (hval : Holds m val v) : ∃ r, m.sum (filled (List.replicate 8 0) 0) val
      (filled (List.replicate 8 0) 0) type = .ok r ∧ Holds m r v := by
  have hzeros : (filled (List.replicate 8 (0 : Byte)) 0).length = 8 := rfl
  obtain ⟨r, hr, hholds⟩ :=
    sum_holds hinteger (holds_zero m (dvd_width type) (width_le type)) hval hzeros
  have hadd : 0 + v = v := BitVec.zero_add v
  exact ⟨r, hr, hadd ▸ hholds⟩

lemma mrnMin_holds {in1 in2 out : Block Byte} {a b : BitVec type.width}
    (ha : Holds m in1 a) (hb : Holds m in2 b) (hout : out.length = 8) :
    ∃ r, m.mrnMin in1 in2 out type = .ok r ∧ Holds m r (if m.less type a b then a else b) := by
  obtain ⟨r, hr, hholds⟩ := store_holds (m := m) hout (dvd_width type) (width_le type)
    (if m.less type a b then a else b)
  refine ⟨r, ?_, hholds⟩
  rw [Machine.mrnMin, ha.load, ok_bind, hb.load, ok_bind, hr]

lemma mrnMax_holds {in1 in2 out : Block Byte} {a b : BitVec type.width}
    (ha : Holds m in1 a) (hb : Holds m in2 b) (hout : out.length = 8) :
    ∃ r, m.mrnMax in1 in2 out type = .ok r ∧ Holds m r (if m.less type b a then a else b) := by
  obtain ⟨r, hr, hholds⟩ := store_holds (m := m) hout (dvd_width type) (width_le type)
    (if m.less type b a then a else b)
  refine ⟨r, ?_, hholds⟩
  rw [Machine.mrnMax, ha.load, ok_bind, hb.load, ok_bind, hr]

lemma less_iff (hinteger : type.IsInteger) (a b : BitVec type.width) :
    m.less type a b = true ↔ m.number type a < m.number type b := by
  have hslt : ∀ {w : ℕ} (a b : BitVec w), BitVec.slt a b = true ↔ a.toInt < b.toInt := by
    intro w a b
    rw [BitVec.slt, decide_eq_true_eq]
  have hult : ∀ {w : ℕ} (a b : BitVec w), BitVec.ult a b = true ↔ (a.toNat : ℤ) < b.toNat := by
    intro w a b
    rw [BitVec.ult, decide_eq_true_eq, Int.ofNat_lt]
  cases type with
  | char =>
      cases hsigned : m.charSigned with
      | true =>
          simp only [Machine.less, Machine.number, Machine.isSigned, hsigned, if_true]
          exact hslt a b
      | false =>
          simp only [Machine.less, Machine.number, Machine.isSigned, hsigned, Bool.false_eq_true,
            if_false]
          exact hult a b
  | int16 => exact hslt a b
  | int32 => exact hslt a b
  | int64 => exact hslt a b
  | uchar => exact hult a b
  | uint16 => exact hult a b
  | uint32 => exact hult a b
  | uint64 => exact hult a b
  | float => exact absurd rfl hinteger.1
  | double => exact absurd rfl hinteger.2

/-- The values of some leaves. -/
def values (inputs : List (Machine.Leaf type)) : List (BitVec type.width) :=
  inputs.map Machine.Leaf.value

lemma send_carries (hinteger : type.IsInteger) (leaf : Machine.Leaf type) :
    ∃ p, m.send leaf = .ok [p] ∧ Carries m type p leaf.value := by
  obtain ⟨p, hp, hcarries⟩ := newPacket_carries (m := m) hinteger leaf.streamId leaf.tag leaf.value
  refine ⟨p, ?_, hcarries⟩
  rw [Machine.send, hp]
  rfl

lemma values_flatten (inputs : List (List (Machine.Leaf type))) :
    values inputs.flatten = (inputs.map values).flatten :=
  List.map_flatten

/-- A relation between lists of values and their result that the operation joins is one for
the fold. -/
lemma foldl_joins {R : List (BitVec w) → BitVec w → Prop} {f : BitVec w → BitVec w → BitVec w}
    (hjoin : ∀ {us vs u v}, R us u → R vs v → R (us ++ vs) (f u v))
    {uss : List (List (BitVec w))} {vs : List (BitVec w)} (h : List.Forall₂ R uss vs)
    {us : List (BitVec w)} {u : BitVec w} (hu : R us u) : R (us ++ uss.flatten) (vs.foldl f u) := by
  induction h generalizing us u with
  | nil =>
      rw [List.flatten_nil, List.append_nil]
      exact hu
  | cons hv _ ih =>
      rw [List.flatten_cons, ← List.append_assoc, List.foldl_cons]
      exact ih (hjoin hu hv)

lemma exists_values {R : List (BitVec type.width) → BitVec type.width → Prop}
    {inputs : List (List (Machine.Leaf type))} {ps : List FilterPacket}
    (h : List.Forall₂ (fun inputs p => ∃ v, Carries m type p v ∧ R (values inputs) v) inputs ps) :
    ∃ vs, List.Forall₂ (Carries m type) ps vs ∧ List.Forall₂ R (inputs.map values) vs := by
  induction h with
  | nil => exact ⟨[], .nil, .nil⟩
  | cons hfirst _ ih =>
      obtain ⟨v, hcarries, hv⟩ := hfirst
      obtain ⟨vs, hps, hvs⟩ := ih
      exact ⟨v :: vs, .cons hcarries hps, .cons hv hvs⟩

/-- A filter that folds an operation makes of a tree what the operation makes of its values. -/
theorem run_carries (hinteger : type.IsInteger) (start : Block Byte)
    (first next : Block Byte → Block Byte → ScalarType → Outcome (Block Byte))
    {f : BitVec type.width → BitVec type.width → BitVec type.width}
    (hfirst : ∀ {val} {v : BitVec type.width}, Holds m val v →
      ∃ r, first start val type = .ok r ∧ Holds m r v)
    (hnext : ∀ {result val} {r v : BitVec type.width}, Holds m result r → Holds m val v →
      ∃ result', next result val type = .ok result' ∧ Holds m result' (f r v))
    (R : List (BitVec type.width) → BitVec type.width → Prop) (hleaf : ∀ v, R [v] v)
    (hjoin : ∀ {us vs u v}, R us u → R vs v → R (us ++ vs) (f u v))
    (t : FilterTree (Machine.Leaf type)) :
    ∃ p v, t.run m.send (m.tfilter start first next) = .ok [p] ∧ Carries m type p v ∧
      R (values t.leaves) v := by
  have hsend : ∀ leaf, ∃ p, m.send leaf = .ok [p] ∧
      ∃ v, Carries m type p v ∧ R (values [leaf]) v := by
    intro leaf
    obtain ⟨p, hp, hcarries⟩ := send_carries (m := m) hinteger leaf
    exact ⟨p, hp, leaf.value, hcarries, hleaf leaf.value⟩
  have hfilter : ∀ inputs results,
      List.Forall₂ (fun inputs p => ∃ v, Carries m type p v ∧ R (values inputs) v) inputs results →
      results ≠ [] → ∃ q, m.tfilter start first next results = .ok [q] ∧
        ∃ v, Carries m type q v ∧ R (values inputs.flatten) v := by
    intro inputs results hresults hne
    obtain ⟨vs, hps, hvs⟩ := exists_values hresults
    cases hresults with
    | nil => exact absurd rfl hne
    | cons _ _ =>
        cases hps with
        | cons hp hps =>
            cases hvs with
            | cons hv hvs =>
                obtain ⟨q, hq, hcarries⟩ := tfilter_carries hinteger hfirst hnext hp hps
                refine ⟨q, hq, _, hcarries, ?_⟩
                rw [values_flatten, List.map_cons, List.flatten_cons]
                exact foldl_joins hjoin hvs hv
  obtain ⟨p, hrun, v, hcarries, hv⟩ := t.run_rule hsend hfilter
  exact ⟨p, v, hrun, hcarries, hv⟩

/-- The value is among those of a list and stands for the least number. -/
def IsMin (m : Machine) (type : ScalarType) (vs : List (BitVec type.width))
    (v : BitVec type.width) : Prop :=
  v ∈ vs ∧ ∀ u ∈ vs, m.number type v ≤ m.number type u

def IsMax (m : Machine) (type : ScalarType) (vs : List (BitVec type.width))
    (v : BitVec type.width) : Prop :=
  v ∈ vs ∧ ∀ u ∈ vs, m.number type u ≤ m.number type v

lemma isMin_singleton (v : BitVec type.width) : IsMin m type [v] v :=
  ⟨List.mem_singleton_self v, fun _ hu => (List.mem_singleton.mp hu) ▸ le_rfl⟩

lemma isMax_singleton (v : BitVec type.width) : IsMax m type [v] v :=
  ⟨List.mem_singleton_self v, fun _ hu => (List.mem_singleton.mp hu) ▸ le_rfl⟩

lemma isMin_join (hinteger : type.IsInteger) {us vs : List (BitVec type.width)}
    {u v : BitVec type.width} (hu : IsMin m type us u) (hv : IsMin m type vs v) :
    IsMin m type (us ++ vs) (if m.less type u v then u else v) := by
  split_ifs with hless
  · rw [less_iff hinteger] at hless
    refine ⟨List.mem_append_left vs hu.1, fun w hw => ?_⟩
    rcases List.mem_append.mp hw with hw | hw
    · exact hu.2 w hw
    · exact hless.le.trans (hv.2 w hw)
  · rw [less_iff hinteger, not_lt] at hless
    refine ⟨List.mem_append_right us hv.1, fun w hw => ?_⟩
    rcases List.mem_append.mp hw with hw | hw
    · exact hless.trans (hu.2 w hw)
    · exact hv.2 w hw

lemma isMax_join (hinteger : type.IsInteger) {us vs : List (BitVec type.width)}
    {u v : BitVec type.width} (hu : IsMax m type us u) (hv : IsMax m type vs v) :
    IsMax m type (us ++ vs) (if m.less type v u then u else v) := by
  split_ifs with hless
  · rw [less_iff hinteger] at hless
    refine ⟨List.mem_append_left vs hu.1, fun w hw => ?_⟩
    rcases List.mem_append.mp hw with hw | hw
    · exact hu.2 w hw
    · exact (hv.2 w hw).trans hless.le
  · rw [less_iff hinteger, not_lt] at hless
    refine ⟨List.mem_append_right us hv.1, fun w hw => ?_⟩
    rcases List.mem_append.mp hw with hw | hw
    · exact (hu.2 w hw).trans hless
    · exact hv.2 w hw

/-- Whatever the tree and the order of the children, the one packet that comes out has the
format of the leaves, and the sum, the minimum or the maximum of their values. -/
theorem reductions_of_tree (m : Machine) {type : ScalarType} (hinteger : type.IsInteger)
    (t : FilterTree (Machine.Leaf type)) :
    (∃ p, t.run m.send m.tfilterSum = .ok [p] ∧ Carries m type p (values t.leaves).sum) ∧
      (∃ p v, t.run m.send m.tfilterMin = .ok [p] ∧ Carries m type p v ∧
        IsMin m type (values t.leaves) v) ∧
      ∃ p v, t.run m.send m.tfilterMax = .ok [p] ∧ Carries m type p v ∧
        IsMax m type (values t.leaves) v := by
  have hunset : (allocate Byte 8).length = 8 := rfl
  refine ⟨?_, ?_, ?_⟩
  · have hjoin : ∀ {us vs : List (BitVec type.width)} {u v}, u = us.sum → v = vs.sum →
        u + v = (us ++ vs).sum := by
      rintro us vs _ _ rfl rfl
      exact List.sum_append.symm
    obtain ⟨p, v, hrun, hcarries, rfl⟩ := run_carries hinteger
      (filled (List.replicate 8 0) 0) (fun result val => m.sum result val result)
      (fun result val => m.sum result val result) (sum_first hinteger)
      (fun hresult hval => sum_holds hinteger hresult hval hresult.length)
      (fun vs v => v = vs.sum) (fun v => List.sum_singleton.symm) hjoin t
    exact ⟨p, hrun, hcarries⟩
  · have hfirst : ∀ {val} {v : BitVec type.width}, Holds m val v →
        ∃ r, m.mrnMin val val (allocate Byte 8) type = .ok r ∧ Holds m r v := by
      intro val v hval
      obtain ⟨r, hr, hholds⟩ := mrnMin_holds hval hval hunset
      rw [ite_self] at hholds
      exact ⟨r, hr, hholds⟩
    exact run_carries hinteger _ _ _ hfirst
      (fun hresult hval => mrnMin_holds hresult hval hresult.length)
      (IsMin m type) isMin_singleton (isMin_join hinteger) t
  · have hfirst : ∀ {val} {v : BitVec type.width}, Holds m val v →
        ∃ r, m.mrnMax val val (allocate Byte 8) type = .ok r ∧ Holds m r v := by
      intro val v hval
      obtain ⟨r, hr, hholds⟩ := mrnMax_holds hval hval hunset
      rw [ite_self] at hholds
      exact ⟨r, hr, hholds⟩
    exact run_carries hinteger _ _ _ hfirst
      (fun hresult hval => mrnMax_holds hresult hval hresult.length)
      (IsMax m type) isMax_singleton (isMax_join hinteger) t

/-- The sum of two short numbers wraps, one level below the root. -/
theorem reductions_of_two_levels :
    let m : Machine := ⟨.little, true, fun a _ => a, fun _ _ => false, fun a _ => a,
      fun _ _ => false, BitVec.setWidth 64, BitVec.setWidth 32⟩
    let t : FilterTree (Machine.Leaf .int16) :=
      .node (.node (.leaf ⟨1, 7, (32767 : BitVec 16)⟩) [.leaf ⟨1, 7, (1 : BitVec 16)⟩])
        [.leaf ⟨1, 7, (0 : BitVec 16)⟩]
    ScalarType.int16.IsInteger ∧
      ∃ p, t.run m.send m.tfilterSum = .ok [p] ∧ Carries m .int16 p (-32768 : BitVec 16) := by
  intro m t
  have hinteger : ScalarType.int16.IsInteger := ⟨by decide, by decide⟩
  obtain ⟨⟨p, hrun, hcarries⟩, _⟩ := reductions_of_tree m hinteger t
  have hleaves : values t.leaves = [(32767 : BitVec 16), (1 : BitVec 16), (0 : BitVec 16)] := by
    simp only [t, values, FilterTree.leaves, List.map_cons, List.map_nil]
    rfl
  have hsum : (values t.leaves).sum = (-32768 : BitVec 16) := by
    rw [hleaves]
    rfl
  exact ⟨hinteger, p, hrun, hsum ▸ hcarries⟩

end Memory
end MRNet.Filters
