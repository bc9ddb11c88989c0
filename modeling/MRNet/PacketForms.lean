import MRNet.PdrForms
import MRNet.Packet

/-!
# Forms of packets on the wire

The header and data procedures described in the terms of the PDR forms: what an
encode emits into any sink, what a decode accepts, and on which bytes it faults.
-/
namespace MRNet.Wire
open NativeBytes Codec

def sentWord {w : ℕ} (o : ByteOrder) (v : BitVec w) : Option (List Byte) := some (nativeBytes o v)

/-- Two parts sent one after the other. -/
def sentThen (a b : Option (List Byte)) : Option (List Byte) :=
  a.bind fun bs => b.map fun bs' => bs ++ bs'

def sentWrapstring (o : ByteOrder) (sp : Option (List Byte)) : Option (List Byte) :=
  sentString o wrapstringMax sp

def sentHeader (o : ByteOrder) (pkt : HeaderFields) : Option (List Byte) :=
  sentThen (sentWord o pkt.streamId) <| sentThen (sentWord o pkt.tag) <|
  sentThen (sentWord o pkt.srcRank) <| sentThen (sentWrapstring o pkt.fmtStr) <|
  sentThen (sentArray o uint64Max (sentWord o) pkt.destArr.data) (sentWord o pkt.byteorder)

/-- The bytes of an element, if its type and size are accepted. Arrays of the short
types have at most `short` elements. -/
def sentElement (short : ℕ) (o : ByteOrder) : (type : DataType) → DataValue type → Option (List Byte)
  | .unknown, _ => none
  | .char, v | .uchar, v => sentWord o (w := 8) v
  | .charArray, v | .ucharArray, v => sentArray o short (fun b => some [b]) (CArray.data v)
  | .charLrgArray, v | .ucharLrgArray, v => sentArray o uint64Max (fun b => some [b]) (CArray.data v)
  | .int16, v | .uint16, v => sentWord o (w := 16) v
  | .int16Array, v | .uint16Array, v => sentArray o short (sentWord o) (CArray.data v)
  | .int16LrgArray, v | .uint16LrgArray, v => sentArray o uint64Max (sentWord o) (CArray.data v)
  | .int32, v | .uint32, v | .float, v => sentWord o (w := 32) v
  | .int32Array, v | .uint32Array, v | .floatArray, v =>
      sentArray o short (sentWord o) (CArray.data v)
  | .int32LrgArray, v | .uint32LrgArray, v | .floatLrgArray, v =>
      sentArray o uint64Max (sentWord o) (CArray.data v)
  | .int64, v | .uint64, v | .double, v => sentWord o (w := 64) v
  | .int64Array, v | .uint64Array, v | .doubleArray, v =>
      sentArray o short (sentWord o) (CArray.data v)
  | .int64LrgArray, v | .uint64LrgArray, v | .doubleLrgArray, v =>
      sentArray o uint64Max (sentWord o) (CArray.data v)
  | .string, v => sentWrapstring o v
  | .stringArray, v => sentArray o short (sentWrapstring o) (CArray.data v)
  | .stringLrgArray, v => sentArray o uint64Max (sentWrapstring o) (CArray.data v)

/-- One element for each token. -/
def sentElements (short : ℕ) (o : ByteOrder) : List (List Byte) → List DataElement → Option (List Byte)
  | [], _ => some []
  | _ :: _, [] => none
  | _ :: toks, elem :: elems =>
      sentThen (sentElement short o elem.type elem.val) (sentElements short o toks elems)

def sentData (short : ℕ) (o : ByteOrder) (fmtStr : Option (List Byte)) (elems : List DataElement) :
    Option (List Byte) :=
  match fmtStr with
  | none => some []
  | some block =>
      match cString block with
      | .error _ => none
      | .ok fmt => sentElements short o (Tokenizer.tokens fmt delim) elems

lemma encodeLoop_encodes {k : Sink} {o : ByteOrder} {short : ℕ}
    {element : (type : DataType) → DataValue type → Action (DataValue type)}
    (h : ∀ type v, k.Encodes (element type v) v (sentElement short o type v))
    (toks : List (List Byte)) (elems : List DataElement) :
    k.Encodes (encodeLoop element toks elems) () (sentElements short o toks elems) := by
  induction toks generalizing elems with
  | nil => exact Sink.Emits.pure ()
  | cons tok toks ih =>
      cases elems with
      | nil => exact Sink.Blocks.stop _
      | cons elem elems => exact (h elem.type elem.val).bind (ih elems)

section Encode
variable {k : Sink} {o : ByteOrder} {ops : PdrOps} (host : Host) (hf : Feeds k o ops)
include hf

lemma pdrWrapstring_encodes (sp : Option (List Byte)) :
    k.Encodes (pdrWrapstring host ⟨.encode, ops⟩ (some sp)) sp (sentWrapstring o sp) :=
  pdrString_encodes host hf sp (by decide)

theorem pdrPacketHeader_encodes (pkt : HeaderFields) :
    k.Encodes (pdrPacketHeader host ⟨.encode, ops⟩ pkt) pkt (sentHeader o pkt) := by
  have harr := pdrArray_encodes host hf (by decide) pkt.destArr uint64Max (0 : BitVec 32)
    (pdrUint32_scalar.encodes hf)
  exact (pdrUint32_scalar.encodes hf pkt.streamId).bind <|
    (pdrUint32_scalar.encodes hf pkt.tag).bind <|
    (pdrUint32_scalar.encodes hf pkt.srcRank).bind <|
    (pdrWrapstring_encodes host hf pkt.fmtStr).bind <| harr.bind <|
    Sink.Encodes.ret _ (pdrUchar_scalar.encodes hf pkt.byteorder)

theorem pdrElement_encodes (type : DataType) (v : DataValue type) :
    k.Encodes (pdrElement host ⟨.encode, ops⟩ type v) v (sentElement int32Max o type v) := by
  cases type with
  | unknown => exact Sink.Blocks.stop _
  | char | uchar => exact pdrUchar_scalar.encodes hf v
  | int16 | uint16 => exact pdrUint16_scalar.encodes hf v
  | int32 | uint32 => exact pdrUint32_scalar.encodes hf v
  | int64 | uint64 => exact pdrUint64_scalar.encodes hf v
  | float => exact pdrFloat_scalar.encodes hf v
  | double => exact pdrDouble_scalar.encodes hf v
  | charArray | ucharArray | charLrgArray | ucharLrgArray => exact pdrBytes_encodes host hf v _
  | int16Array | uint16Array | int16LrgArray | uint16LrgArray =>
      exact pdrArray_encodes host hf (by decide) v _ 0 (pdrUint16_scalar.encodes hf)
  | int32Array | uint32Array | int32LrgArray | uint32LrgArray =>
      exact pdrArray_encodes host hf (by decide) v _ 0 (pdrUint32_scalar.encodes hf)
  | int64Array | uint64Array | int64LrgArray | uint64LrgArray =>
      exact pdrArray_encodes host hf (by decide) v _ 0 (pdrUint64_scalar.encodes hf)
  | floatArray | floatLrgArray =>
      exact pdrArray_encodes host hf (by decide) v _ 0 (pdrFloat_scalar.encodes hf)
  | doubleArray | doubleLrgArray =>
      exact pdrArray_encodes host hf (by decide) v _ 0 (pdrDouble_scalar.encodes hf)
  | string => exact pdrWrapstring_encodes host hf v
  | stringArray | stringLrgArray =>
      exact pdrArray_encodes host hf (by decide) v _ none (pdrWrapstring_encodes host hf)

theorem pdrPacketData_encodes (fmtStr : Option (List Byte)) (elems : List DataElement) :
    k.Encodes (pdrPacketData host ⟨.encode, ops⟩ fmtStr elems) elems
      (sentData int32Max o fmtStr elems) := by
  unfold pdrPacketData sentData
  cases fmtStr with
  | none => exact Sink.Emits.pure elems
  | some block =>
      dsimp only
      cases cString block with
      | error e => exact Sink.Blocks.stop _
      | ok fmt =>
          exact Sink.Encodes.ret (fun _ => elems)
            (encodeLoop_encodes (pdrElement_encodes host hf) _ elems)

end Encode

def ElementOk (host : Host) (short : ℕ) : (type : DataType) → DataValue type → Prop
  | .unknown, _ => False
  | .char, _ | .uchar, _ | .int16, _ | .uint16, _ | .int32, _ | .uint32, _ | .int64, _
  | .uint64, _ | .float, _ | .double, _ => True
  | .charArray, v | .ucharArray, v => ArrayOk host 1 short (fun _ => True) (CArray.data v)
  | .charLrgArray, v | .ucharLrgArray, v =>
      ArrayOk host 1 uint64Max (fun _ => True) (CArray.data v)
  | .int16Array, v | .uint16Array, v => ArrayOk host 2 short (fun _ => True) (CArray.data v)
  | .int16LrgArray, v | .uint16LrgArray, v =>
      ArrayOk host 2 uint64Max (fun _ => True) (CArray.data v)
  | .int32Array, v | .uint32Array, v | .floatArray, v =>
      ArrayOk host 4 short (fun _ => True) (CArray.data v)
  | .int32LrgArray, v | .uint32LrgArray, v | .floatLrgArray, v =>
      ArrayOk host 4 uint64Max (fun _ => True) (CArray.data v)
  | .int64Array, v | .uint64Array, v | .doubleArray, v =>
      ArrayOk host 8 short (fun _ => True) (CArray.data v)
  | .int64LrgArray, v | .uint64LrgArray, v | .doubleLrgArray, v =>
      ArrayOk host 8 uint64Max (fun _ => True) (CArray.data v)
  | .string, v => SlotOk host v
  | .stringArray, v => ArrayOk host 8 short (SlotOk host) (CArray.data v)
  | .stringLrgArray, v => ArrayOk host 8 uint64Max (SlotOk host) (CArray.data v)

def elementForm (o : ByteOrder) : (type : DataType) → DataValue type → List Byte
  | .unknown, _ => []
  | .char, v | .uchar, v => nativeBytes o (w := 8) v
  | .charArray, v | .ucharArray, v | .charLrgArray, v | .ucharLrgArray, v =>
      arrayForm o (fun b => [b]) (CArray.data v)
  | .int16, v | .uint16, v => nativeBytes o (w := 16) v
  | .int16Array, v | .uint16Array, v | .int16LrgArray, v | .uint16LrgArray, v =>
      arrayForm o (nativeBytes o) (CArray.data v)
  | .int32, v | .uint32, v | .float, v => nativeBytes o (w := 32) v
  | .int32Array, v | .uint32Array, v | .floatArray, v | .int32LrgArray, v | .uint32LrgArray, v
  | .floatLrgArray, v => arrayForm o (nativeBytes o) (CArray.data v)
  | .int64, v | .uint64, v | .double, v => nativeBytes o (w := 64) v
  | .int64Array, v | .uint64Array, v | .doubleArray, v | .int64LrgArray, v | .uint64LrgArray, v
  | .doubleLrgArray, v => arrayForm o (nativeBytes o) (CArray.data v)
  | .string, v => slotForm o v
  | .stringArray, v | .stringLrgArray, v => arrayForm o (slotForm o) (CArray.data v)

/-- The bytes on which the decode of an element leaves a block or asserts. -/
def ElementHarm (host : Host) (short : ℕ) (o : ByteOrder) : DataType → List Byte → Prop
  | .unknown => fun _ => True
  | .int16LrgArray | .uint16LrgArray => WordArrayHarm host o 2
  | .int32LrgArray | .uint32LrgArray | .floatLrgArray => WordArrayHarm host o 4
  | .int64LrgArray | .uint64LrgArray | .doubleLrgArray => WordArrayHarm host o 8
  | .string => EmptyStringHarm host o
  | .stringArray => StringArrayHarm host o short
  | .stringLrgArray => StringArrayHarm host o uint64Max
  | _ => fun _ => False

section Decode
variable {o : ByteOrder} {ops : PdrOps} (host : Host) (hf : Fetches o ops)
include hf

theorem pdrElement_decodes (type : DataType) :
    Decodes (pdrElement host ⟨.decode, ops⟩ type (DataValue.init type))
      (fun v bs => ElementOk host int32Max type v ∧ bs = elementForm o type v)
      (ElementHarm host int32Max o type) := by
  cases type with
  | unknown => exact (Decodes.fault .assertion).congr (by simp [ElementOk]) (by simp [ElementHarm])
  | char | uchar => exact pdrUchar_scalar.decodes_any hf 0
  | int16 | uint16 => exact pdrUint16_scalar.decodes_any hf 0
  | int32 | uint32 => exact pdrUint32_scalar.decodes_any hf 0
  | int64 | uint64 => exact pdrUint64_scalar.decodes_any hf 0
  | float => exact pdrFloat_scalar.decodes_any hf 0
  | double => exact pdrDouble_scalar.decodes_any hf 0
  | charArray | ucharArray | charLrgArray | ucharLrgArray => exact pdrBytes_decodes host hf _ _
  | int16Array | uint16Array =>
      exact pdrArray_decodes_words_short host hf pdrUint16_scalar _ (by decide) 0
  | int16LrgArray | uint16LrgArray =>
      exact pdrArray_decodes_words host hf pdrUint16_scalar _ (by decide) 0
  | int32Array | uint32Array =>
      exact pdrArray_decodes_words_short host hf pdrUint32_scalar _ (by decide) 0
  | int32LrgArray | uint32LrgArray =>
      exact pdrArray_decodes_words host hf pdrUint32_scalar _ (by decide) 0
  | int64Array | uint64Array =>
      exact pdrArray_decodes_words_short host hf pdrUint64_scalar _ (by decide) 0
  | int64LrgArray | uint64LrgArray =>
      exact pdrArray_decodes_words host hf pdrUint64_scalar _ (by decide) 0
  | floatArray =>
      exact pdrArray_decodes_words_short host hf pdrFloat_scalar _ (by decide) 0
  | floatLrgArray =>
      exact pdrArray_decodes_words host hf pdrFloat_scalar _ (by decide) 0
  | doubleArray =>
      exact pdrArray_decodes_words_short host hf pdrDouble_scalar _ (by decide) 0
  | doubleLrgArray =>
      exact pdrArray_decodes_words host hf pdrDouble_scalar _ (by decide) 0
  | string => exact pdrWrapstring_decodes host hf
  | stringArray | stringLrgArray => exact pdrArray_decodes_strings host hf _ _

end Decode

/-- The decoded elements, without the bookkeeping of a failure. -/
def readElements (element : (type : DataType) → DataValue type → Action (DataValue type)) :
    List (List Byte) → Action (List DataElement)
  | [] => return []
  | curFmt :: toks => do
      let type := fmt2Type curFmt
      let val ← element type (DataValue.init type)
      let elems ← readElements element toks
      return ⟨type, val⟩ :: elems

/-- A decode that returns `TRUE` has added the elements read. -/
lemma decodeLoop_accepted
    (element : (type : DataType) → DataValue type → Action (DataValue type))
    (toks : List (List Byte)) (elems : List DataElement) :
    (do let (retval, elems) ← decodeLoop element toks elems
        if retval then return elems else Action.stop .refused : Action (List DataElement)) =
      (do let new ← readElements element toks
          return elems ++ new) := by
  induction toks generalizing elems with
  | nil =>
      funext s
      simp [decodeLoop, readElements]
  | cons curFmt toks ih =>
      funext s
      simp only [decodeLoop, readElements, Action.bind_run, Action.attempt]
      cases element (fmt2Type curFmt) (DataValue.init _) s with
      | error e => cases e <;> rfl
      | ok r =>
          obtain ⟨val, s'⟩ := r
          refine (congrFun (ih (elems ++ [⟨fmt2Type curFmt, val⟩])) s').trans ?_
          simp only [Action.bind_run, ok_bind]
          cases readElements element toks s' with
          | error e => rfl
          | ok r => simp [Action.pure_run]

/-- The elements a format string can have as the result of a decode. -/
def ElementsOk (host : Host) (short : ℕ) (toks : List (List Byte)) (elems : List DataElement) :
    Prop :=
  elems.map DataElement.type = toks.map fmt2Type ∧ ∀ e ∈ elems, ElementOk host short e.type e.val

def elementsForm (o : ByteOrder) (elems : List DataElement) : List Byte :=
  elems.flatMap fun e => elementForm o e.type e.val

/-- Some token meets harmful bytes behind the forms of the elements before it. -/
def ElementsHarm (host : Host) (short : ℕ) (o : ByteOrder) (toks : List (List Byte))
    (bs : List Byte) : Prop :=
  ∃ (before after : List (List Byte)) (curFmt : List Byte) (elems : List DataElement)
    (tl : List Byte), toks = before ++ curFmt :: after ∧
      ElementsOk host short before elems ∧ bs = elementsForm o elems ++ tl ∧
      ElementHarm host short o (fmt2Type curFmt) tl

section DecodeData
variable {o : ByteOrder} {host : Host} {short : ℕ}
  {element : (type : DataType) → DataValue type → Action (DataValue type)}

lemma readElements_decodes
    (helem : ∀ type, Decodes (element type (DataValue.init type))
      (fun v bs => ElementOk host short type v ∧ bs = elementForm o type v)
      (ElementHarm host short o type)) (toks : List (List Byte)) :
    Decodes (readElements element toks)
      (fun elems bs => ElementsOk host short toks elems ∧ bs = elementsForm o elems)
      (ElementsHarm host short o toks) := by
  induction toks with
  | nil =>
      refine (Decodes.pure []).congr ?_ ?_
      · intro elems bs
        constructor
        · rintro ⟨rfl, rfl⟩
          exact ⟨⟨rfl, by simp⟩, rfl⟩
        · rintro ⟨⟨ht, -⟩, rfl⟩
          obtain rfl : elems = [] := by simpa using ht
          exact ⟨rfl, rfl⟩
      · intro bs
        simp [ElementsHarm]
  | cons curFmt toks ih =>
      refine ((helem (fmt2Type curFmt)).bind fun val =>
        ih.bind fun elems => Decodes.pure (⟨fmt2Type curFmt, val⟩ :: elems)).congr ?_ ?_
      · intro elems bs
        constructor
        · rintro ⟨val, b₁, b₂, ⟨hv, rfl⟩, ⟨es, c₁, c₂, ⟨⟨ht, hes⟩, rfl⟩, ⟨rfl, rfl⟩, rfl⟩, rfl⟩
          exact ⟨⟨by simp [ht], by simpa using ⟨hv, hes⟩⟩, by simp [elementsForm]⟩
        · rintro ⟨⟨ht, hes⟩, rfl⟩
          cases elems with
          | nil => simp at ht
          | cons e es =>
              obtain ⟨type, val⟩ := e
              simp only [List.map_cons, List.cons.injEq] at ht
              obtain ⟨rfl, ht⟩ := ht
              simp only [List.mem_cons, forall_eq_or_imp] at hes
              exact ⟨val, _, _, ⟨hes.1, rfl⟩, ⟨es, _, [], ⟨⟨ht, hes.2⟩, rfl⟩, ⟨rfl, rfl⟩, rfl⟩,
                by simp [elementsForm]⟩
      · intro bs
        constructor
        · rintro (hh | ⟨val, b₁, tl, ⟨hv, rfl⟩, rfl, hh | hh⟩)
          · exact ⟨[], toks, curFmt, [], bs, rfl, ⟨rfl, by simp⟩, rfl, hh⟩
          · obtain ⟨before, after, fmt, es, tl', rfl, ⟨ht, hes⟩, rfl, hh⟩ := hh
            exact ⟨curFmt :: before, after, fmt, ⟨fmt2Type curFmt, val⟩ :: es, tl', rfl,
              ⟨by simp [ht], by simpa using ⟨hv, hes⟩⟩, by simp [elementsForm], hh⟩
          · simp at hh
        · rintro ⟨before, after, fmt, es, tl, htoks, ⟨ht, hes⟩, rfl, hh⟩
          cases before with
          | nil =>
              obtain rfl : es = [] := by simpa using ht
              simp only [List.nil_append, List.cons.injEq] at htoks
              obtain ⟨rfl, rfl⟩ := htoks
              exact Or.inl hh
          | cons first before =>
              simp only [List.cons_append, List.cons.injEq] at htoks
              obtain ⟨rfl, rfl⟩ := htoks
              cases es with
              | nil => simp at ht
              | cons e es =>
                  obtain ⟨type, val⟩ := e
                  simp only [List.map_cons, List.cons.injEq] at ht
                  obtain ⟨rfl, ht⟩ := ht
                  simp only [List.mem_cons, forall_eq_or_imp] at hes
                  exact Or.inr ⟨val, _, elementsForm o es ++ tl, ⟨hes.1, rfl⟩,
                    by simp [elementsForm], Or.inl
                    ⟨before, after, fmt, es, tl, rfl, ⟨ht, hes.2⟩, rfl, hh⟩⟩

/-- A decode loop adds the elements it reads to those already there. -/
theorem decodeLoop_decodes
    (helem : ∀ type, Decodes (element type (DataValue.init type))
      (fun v bs => ElementOk host short type v ∧ bs = elementForm o type v)
      (ElementHarm host short o type)) (toks : List (List Byte)) (elems : List DataElement) :
    Decodes
      (do let (retval, elems) ← decodeLoop element toks elems
          if retval then return elems else Action.stop .refused)
      (fun es bs => ∃ new, es = elems ++ new ∧ ElementsOk host short toks new ∧
        bs = elementsForm o new)
      (ElementsHarm host short o toks) := by
  rw [decodeLoop_accepted]
  refine ((readElements_decodes helem _).bind fun new => Decodes.pure (elems ++ new)).congr ?_ ?_
  · intro es bs
    constructor
    · rintro ⟨new, b₁, b₂, ⟨hok, rfl⟩, ⟨rfl, rfl⟩, rfl⟩
      exact ⟨new, rfl, hok, by simp⟩
    · rintro ⟨new, rfl, hok, rfl⟩
      exact ⟨new, _, [], ⟨hok, rfl⟩, ⟨rfl, rfl⟩, by simp⟩
  · simp

/-- The loop returns `TRUE` exactly where it finds the forms of matching elements. -/
theorem decodeLoop_true_iff
    (helem : ∀ type, Decodes (element type (DataValue.init type))
      (fun v bs => ElementOk host short type v ∧ bs = elementForm o type v)
      (ElementHarm host short o type)) {toks : List (List Byte)} {elems es : List DataElement}
    {s s' : Cursor} (hs : s.Valid) :
    decodeLoop element toks elems s = .ok ((true, es), s') ↔
      ∃ new, es = elems ++ new ∧ ElementsOk host short toks new ∧
        elementsForm o new <+: s.rest ∧ s' = s.advance (elementsForm o new).length := by
  have hiff := (decodeLoop_decodes helem toks elems).ok_iff s hs es s'
  rw [Action.bind_run] at hiff
  have hloop : decodeLoop element toks elems s = .ok ((true, es), s') ↔
      (decodeLoop element toks elems s >>= fun r =>
        (if r.1.1 then pure r.1.2 else Action.stop .refused : Action _) r.2) = .ok (es, s') := by
    rw [bind_ok_iff]
    constructor
    · intro h
      exact ⟨_, h, rfl⟩
    · rintro ⟨⟨⟨retval, es'⟩, s''⟩, hr, h⟩
      cases retval with
      | false => cases h
      | true =>
          cases h
          exact hr
  rw [hloop, hiff]
  constructor
  · rintro ⟨_, ⟨new, rfl, hok, rfl⟩, hpre, rfl⟩
    exact ⟨new, rfl, hok, hpre, rfl⟩
  · rintro ⟨new, rfl, hok, hpre, rfl⟩
    exact ⟨_, ⟨new, rfl, hok, rfl⟩, hpre, rfl⟩

end DecodeData

theorem pdrPacketData_decodes {o : ByteOrder} {ops : PdrOps} (host : Host) (hf : Fetches o ops)
    {block fmt : List Byte} (hfmt : cString block = .ok fmt) (elems : List DataElement) :
    Decodes (pdrPacketData host ⟨.decode, ops⟩ (some block) elems)
      (fun es bs => ∃ new, es = elems ++ new ∧
        ElementsOk host int32Max (Tokenizer.tokens fmt delim) new ∧ bs = elementsForm o new)
      (ElementsHarm host int32Max o (Tokenizer.tokens fmt delim)) := by
  simp only [pdrPacketData, hfmt]
  exact decodeLoop_decodes (pdrElement_decodes host hf) _ elems

def headerForm (o : ByteOrder) (pkt : HeaderFields) : List Byte :=
  nativeBytes o pkt.streamId ++ (nativeBytes o pkt.tag ++ (nativeBytes o pkt.srcRank ++
    (slotForm o pkt.fmtStr ++ (arrayForm o (nativeBytes o) pkt.destArr.data ++ [pkt.byteorder]))))

def HeaderOk (host : Host) (pkt : HeaderFields) : Prop :=
  SlotOk host pkt.fmtStr ∧ ArrayOk host 4 uint64Max (fun _ => True) pkt.destArr.data

/-- Behind the three words stands an empty string, or a proper string and a
destination count whose size in bytes wraps. -/
def HeaderHarm (host : Host) (o : ByteOrder) (bs : List Byte) : Prop :=
  ∃ words tl, words.length = 12 ∧ bs = words ++ tl ∧
    (EmptyStringHarm host o tl ∨ ∃ sp tl', SlotOk host sp ∧ tl = slotForm o sp ++ tl' ∧
      WordArrayHarm host o 4 tl')

lemma sentThen_eq_some {a b : Option (List Byte)} {bs : List Byte} :
    sentThen a b = some bs ↔ ∃ x y, a = some x ∧ b = some y ∧ bs = x ++ y := by
  cases a <;> cases b <;> simp [sentThen, eq_comm]

/-- A header that is accepted has at least the length of an empty one. -/
theorem sentHeader_length {o : ByteOrder} {pkt : HeaderFields} {bs : List Byte}
    (h : sentHeader o pkt = some bs) : 26 ≤ bs.length := by
  simp only [sentHeader, sentThen_eq_some, sentWord, Option.some.injEq] at h
  obtain ⟨_, _, rfl, ⟨_, _, rfl, ⟨_, _, rfl, ⟨s, _, hs, ⟨a, _, ha, rfl, rfl⟩, rfl⟩, rfl⟩, rfl⟩,
    rfl⟩ := h
  have hslen : 5 ≤ s.length := by
    simp only [sentWrapstring, sentString, Option.bind_eq_some_iff] at hs
    obtain ⟨block, -, hs⟩ := hs
    split_ifs at hs with hb
    cases hs
    have hlt := List.idxOf_lt_length_of_mem hb.1
    simp only [stringForm, List.length_append, nativeBytes_length, List.length_take]
    omega
  have halen : 8 ≤ a.length := by
    simp only [sentArray] at ha
    split_ifs at ha
    rw [Option.map_eq_some_iff] at ha
    obtain ⟨body, -, rfl⟩ := ha
    simp
  simp only [List.length_append, nativeBytes_length]
  omega

lemma CArray.length_le {α : Type} {elsize : ℕ} (a : CArray α elsize) (he : 0 < elsize) :
    a.data.length ≤ uint64Max := by
  have hn := a.arrayLen_toNat he
  have hlt := a.arrayLen.isLt
  unfold uint64Max
  omega

/-- A plain header is sent as its form. -/
theorem sentHeader_eq_form {o : ByteOrder} {pkt : HeaderFields} {chars : List Byte}
    (hfmt : pkt.fmtStr = some (chars ++ [0])) (hz : 0 ∉ chars)
    (hl : chars.length + 1 ≤ wrapstringMax) : sentHeader o pkt = some (headerForm o pkt) := by
  have hstr : sentWrapstring o pkt.fmtStr = some (slotForm o pkt.fmtStr) := by
    rw [hfmt]
    exact sentString_eq_form hz hl
  have harr : sentArray o uint64Max (sentWord o) pkt.destArr.data =
      some (arrayForm o (nativeBytes o) pkt.destArr.data) :=
    sentArray_eq_form (pkt.destArr.length_le (by decide)) (fun _ _ => rfl)
  rw [sentHeader, hstr, harr]
  simp [sentThen, sentWord, headerForm]

theorem headerForm_length {o : ByteOrder} {pkt : HeaderFields} {chars : List Byte}
    (hfmt : pkt.fmtStr = some (chars ++ [0])) :
    (headerForm o pkt).length = 26 + chars.length + 4 * pkt.destArr.data.length := by
  simp only [headerForm, hfmt, slotForm, stringForm, arrayForm, List.length_append,
    nativeBytes_length, List.length_singleton, flatMap_nativeBytes_length]
  omega

/-- The byte order stands last. -/
theorem headerForm_getLast (o : ByteOrder) (pkt : HeaderFields) :
    (headerForm o pkt).getLast? = some pkt.byteorder := by
  simp [headerForm, List.getLast?_append]

section DecodeHeader
variable {o : ByteOrder} {ops : PdrOps} (host : Host)

theorem pdrPacketHeader_decodes (hf : Fetches o ops) (pkt : HeaderFields)
    (hnull : pkt.fmtStr = none) :
    Decodes (pdrPacketHeader host ⟨.decode, ops⟩ pkt)
      (fun fields bs => HeaderOk host fields ∧ bs = headerForm o fields)
      (HeaderHarm host o) := by
  have harr := pdrArray_decodes_words host hf pdrUint32_scalar pkt.destArr (m := uint64Max)
    (by decide) 0
  have hword := fun v : BitVec 32 => pdrUint32_scalar.decodes hf v
  unfold pdrPacketHeader
  rw [hnull]
  refine ((hword pkt.streamId).bind fun a => (hword pkt.tag).bind fun b =>
    (hword pkt.srcRank).bind fun c => (pdrWrapstring_decodes host hf).bind fun d =>
    harr.bind fun e => (pdrUchar_scalar.decodes hf pkt.byteorder).bind fun f =>
    Decodes.pure (HeaderFields.mk a b c d e f)).congr ?_ ?_
  · intro fields bs
    constructor
    · rintro ⟨a, _, _, rfl, ⟨b, _, _, rfl, ⟨c, _, _, rfl, ⟨d, _, _, ⟨hd, rfl⟩,
        ⟨e, _, _, ⟨he, rfl⟩, ⟨f, _, _, rfl, ⟨rfl, rfl⟩, rfl⟩, rfl⟩, rfl⟩, rfl⟩, rfl⟩, rfl⟩
      exact ⟨⟨hd, he⟩, by simp [headerForm]⟩
    · rintro ⟨⟨hd, he⟩, rfl⟩
      exact ⟨fields.streamId, _, _, rfl, ⟨fields.tag, _, _, rfl, ⟨fields.srcRank, _, _, rfl,
        ⟨fields.fmtStr, _, _, ⟨hd, rfl⟩, ⟨fields.destArr, _, _, ⟨he, rfl⟩,
        ⟨fields.byteorder, _, [], rfl, ⟨rfl, rfl⟩, rfl⟩, rfl⟩, rfl⟩, rfl⟩, rfl⟩,
        by simp [headerForm]⟩
  · intro bs
    constructor
    · rintro (h | ⟨a, _, _, rfl, rfl, h | ⟨b, _, _, rfl, rfl, h | ⟨c, _, tl, rfl, rfl, h⟩⟩⟩)
      · exact h.elim
      · exact h.elim
      · exact h.elim
      · refine ⟨nativeBytes o a ++ (nativeBytes o b ++ nativeBytes o c), tl, by simp, by simp, ?_⟩
        rcases h with h | ⟨d, _, tl', ⟨hd, rfl⟩, rfl, h | h⟩
        · exact Or.inl h
        · exact Or.inr ⟨d, tl', hd, rfl, h⟩
        · simp at h
    · rintro ⟨words, tl, hlen, rfl, h⟩
      obtain ⟨ws, hl, rfl⟩ := exists_words o (w := 32) (by decide) 3 words (by simpa using hlen)
      obtain ⟨a, b, c, rfl⟩ := List.length_eq_three.mp hl
      refine Or.inr ⟨a, _, nativeBytes o b ++ (nativeBytes o c ++ tl), rfl, by simp,
        Or.inr ⟨b, _, nativeBytes o c ++ tl, rfl, rfl, Or.inr ⟨c, _, tl, rfl, rfl, ?_⟩⟩⟩
      rcases h with h | ⟨d, tl', hd, rfl, h⟩
      · exact Or.inl h
      · exact Or.inr ⟨d, _, tl', ⟨hd, rfl⟩, rfl, Or.inl h⟩

end DecodeHeader

end MRNet.Wire
