import MRNet.ArgumentVectors
import MRNet.PacketContents

/-!
# Access to a received packet

The data of a received packet are decoded when they are first asked for, by `unpack` or by
`operator[]`. Elements decoded before a failure stay in the packet, and the failure is not
looked at.
-/
namespace MRNet.Wire
open NativeBytes Codec

section Access
variable (host : Host)

/-- The loop over the tokens, with the elements that are left. Values are stored into the
variables one after the other. -/
def argListOutLoop (fuel : ℕ) :
    List (List Byte) → List DataElement → ℕ → List Slot → Run (ℤ × List Slot)
  | [], _, _, vars => return (0, vars)
  | _ :: _, [], _, _ => throw (.fault .readPast)
  | curFmt :: toks, curElem :: elems, n, vars =>
      if curElem.type ≠ fmt2Type curFmt then throw (.fault .assertion)
      else if curElem.type = .unknown then return (-1, vars)
      else do
        let slots ← extract host fuel curElem.type curElem.val
        let vars ← store vars n slots
        argListOutLoop fuel toks elems (n + slots.length) vars

namespace Packet

def dataElementArray2ArgList (fuel : ℕ) (p : Packet) (vars : List Slot) :
    Run (ℤ × List Slot) :=
  match p.fmtStr with
  | none => throw (.fault .nullPointer)
  | some block => do
      let fmt ← cString block
      argListOutLoop host fuel (Tokenizer.tokens fmt delim) p.dataElements 0 vars

def extractVaList (fuel : ℕ) (p : Packet) (fmt : CString) (vars : List Slot) :
    Run (ℤ × List Slot) :=
  match p.fmtStr with
  | none => return (-1, vars)
  | some block => do
      let fmtStr ← cString block
      if fmt.chars ≠ fmtStr then return (-1, vars)
      else p.dataElementArray2ArgList host fuel vars

/-- `unpack` with a `va_list`. -/
def unpackVaList (fuel : ℕ) (p : Packet) (ifmtStr : Option CString) (vars : List Slot) :
    Run (Packet × ℤ × List Slot) := do
  let p ← p.decodePdrData host
  match ifmtStr with
  | none => return (p, -1, vars)
  | some fmt => do
      let r ← p.extractVaList host fuel fmt vars
      return (p, r)

def unpack (fuel : ℕ) (p : Packet) (ifmtStr : Option CString) (vars : List Slot) :
    Run (Packet × ℤ × List Slot) :=
  match ifmtStr with
  | none => return (p, -1, vars)
  | some _ => p.unpackVaList host fuel ifmtStr vars

/-- `operator[]`. -/
def getElement (p : Packet) (i : BitVec 32) : Outcome (Packet × Option DataElement) := do
  let p ← p.decodePdrData host
  return (p, p.dataElements[i.toNat]?)

end Packet

/-- A call that asks for the data of a packet. -/
inductive Access
  | unpack (ifmtStr : Option CString) (vars : List Slot)
  | unpackVaList (ifmtStr : Option CString) (vars : List Slot)
  | element (i : BitVec 32)

inductive Access.Result
  | unpacked (ret : ℤ) (vars : List Slot)
  | element (e : Option DataElement)

namespace Access

def run (fuel : ℕ) (p : Packet) : Access → Run (Packet × Result)
  | .unpack ifmtStr vars => do
      let (p, ret, vars) ← p.unpack host fuel ifmtStr vars
      return (p, .unpacked ret vars)
  | .unpackVaList ifmtStr vars => do
      let (p, ret, vars) ← p.unpackVaList host fuel ifmtStr vars
      return (p, .unpacked ret vars)
  | .element i => do
      let (p, e) ← p.getElement host i
      return (p, .element e)

/-- The formats under which the data are asked for. -/
def Names (fmt : List Byte) : Access → Prop
  | .unpack ifmtStr _ | .unpackVaList ifmtStr _ => ifmtStr.map CString.chars = some fmt
  | .element _ => False

/-- Only `unpack` without a format does not ask for the data. -/
def Decodes : Access → Prop
  | .unpack none _ => False
  | _ => True

/-- What `unpack` returns when it fails. -/
def Result.Failed : Result → Prop
  | .unpacked ret _ => ret = -1
  | .element _ => True

end Access

/-- Each of the calls returns, an `unpack` with -1, with the result it has on the packet as it
was received, and leaves the elements as they were. -/
def CleanFrom (received : Packet) : Packet → List Access → Prop
  | _, [] => True
  | p, a :: accesses => ∃ q r, Returns (fun fuel => a.run host fuel p) (q, r) ∧ r.Failed ∧
      (∃ q', Returns (fun fuel => a.run host fuel received) (q', r)) ∧
      q.dataElements = received.dataElements ∧ CleanFrom received q accesses

def Clean (received : Packet) (accesses : List Access) : Prop :=
  CleanFrom host received received accesses

end Access

/-- The bytes of the data buffer. -/
def Packet.data (p : Packet) : List Byte := (p.buf.getD []).take p.bufLen.toNat

section Data
variable (host : Host) (p : Packet) (fmt : List Byte)

/-- The data begin with the forms of elements that match the format. -/
def Packet.Decodable : Prop :=
  ∃ elems, ElementsOk host int32Max (Tokenizer.tokens fmt delim) elems ∧
    elementsForm (decodeOrder host p.byteorder) elems <+: p.data

/-- The data do not begin with a form of the first element, and are harmless to read. -/
def Packet.FirstRefused : Prop :=
  ∀ tok ∈ (Tokenizer.tokens fmt delim).head?,
    ¬ ElementHarm host int32Max (decodeOrder host p.byteorder) (fmt2Type tok) p.data ∧
      ∀ v : DataValue (fmt2Type tok), ElementOk host int32Max (fmt2Type tok) v →
        ¬ elementForm (decodeOrder host p.byteorder) (fmt2Type tok) v <+: p.data

end Data

/-- A packet as the receive constructor leaves it, with its format and its buffer in place. -/
structure Packet.Fresh (p : Packet) (fmt : List Byte) : Prop where
  undecoded : p.decoded = false
  noElements : p.dataElements = []
  fmtStr : ∃ block, p.fmtStr = some block ∧ cString block = .ok fmt
  place : p.DataInPlace

lemma receive_fresh {host : Host} {ihdrLen : BitVec 32} {ihdr : Option (List Byte)}
    {ibufLen : BitVec 64} {ibuf : Option (List Byte)} {iinletRank : BitVec 32} {p : Packet}
    {block fmt : List Byte}
    (hrecv : Packet.receive host ihdrLen ihdr ibufLen ibuf iinletRank = .ok p)
    (hblock : p.fmtStr = some block) (hfmt : cString block = .ok fmt) (hplace : p.DataInPlace) :
    p.Fresh fmt := by
  obtain ⟨hdec, helems⟩ : p.decoded = false ∧ p.dataElements = [] := by
    unfold Packet.receive Packet.decodePdrHeader at hrecv
    split at hrecv
    · cases hrecv
      exact ⟨rfl, rfl⟩
    · split at hrecv
      · cases hrecv
      · split at hrecv
        · cases hrecv
        · split at hrecv
          all_goals cases hrecv
          all_goals exact ⟨rfl, rfl⟩
  exact ⟨hdec, helems, ⟨block, hblock, hfmt⟩, hplace⟩

/-- The loop keeps the elements that are there. -/
lemma decodeLoop_prefix {element : (type : DataType) → DataValue type → Action (DataValue type)}
    {toks : List (List Byte)} {elems es : List DataElement} {s s' : Cursor} {retval : Bool}
    (h : decodeLoop element toks elems s = .ok ((retval, es), s')) : elems <+: es := by
  induction toks generalizing elems s with
  | nil =>
      cases h
      exact List.prefix_rfl
  | cons curFmt toks ih =>
      rw [decodeLoop, Action.bind_run] at h
      obtain ⟨⟨val, s₁⟩, -, h⟩ := bind_ok_iff.mp h
      cases val with
      | none =>
          cases h
          exact List.prefix_rfl
      | some val => exact (List.prefix_append _ _).trans (ih h)

section Again
variable {host : Host} {received : Packet} {fmt : List Byte} (hfresh : received.Fresh fmt)
  (hbad : ¬ received.Decodable host fmt)

/-- What the calls leave of a received packet: it has no elements, and is marked as decoded only
without data. -/
structure Untouched (received p : Packet) : Prop where
  fields : p.toHeaderFields = received.toHeaderFields
  buf : p.buf = received.buf
  bufLen : p.bufLen = received.bufLen
  noElements : p.dataElements = []
  undecoded : p.decoded = true → received.bufLen = 0

include hfresh in
lemma Packet.Fresh.untouched : Untouched received received :=
  ⟨rfl, rfl, rfl, hfresh.noElements, fun h => by rw [hfresh.undecoded] at h; cases h⟩

include hbad in
lemma exists_token : ∃ tok toks, Tokenizer.tokens fmt delim = tok :: toks := by
  cases htoks : Tokenizer.tokens fmt delim with
  | nil =>
      refine absurd ⟨[], ⟨?_, nofun⟩, List.nil_prefix⟩ hbad
      rw [htoks]
      rfl
  | cons tok toks => exact ⟨tok, toks, rfl⟩

include hfresh in
/-- The bytes a decode of the data starts from. -/
lemma Packet.Fresh.reads (h0 : received.bufLen ≠ 0) :
    ∃ block, received.buf = some block ∧ received.data = block ∧
      Cursor.Valid ⟨block, 0, received.bufLen.toNat⟩ ∧
      Cursor.rest ⟨block, 0, received.bufLen.toNat⟩ = block := by
  obtain ⟨block, hblock, hlen⟩ := hfresh.place.resolve_left h0
  refine ⟨block, hblock, ?_, ?_, ?_⟩
  · rw [Packet.data, hblock, ← hlen, Option.getD_some, List.take_length]
  · rw [← hlen]
    exact Cursor.ofBlock_valid block
  · rw [← hlen]
    exact Cursor.ofBlock_rest block

include hfresh in
/-- The first element is refused exactly if it has no form in the data. -/
lemma Packet.Fresh.firstRefused_iff (h0 : received.bufLen ≠ 0) {tok : List Byte}
    {toks : List (List Byte)} (htoks : Tokenizer.tokens fmt delim = tok :: toks) {block : List Byte}
    (hblock : received.buf = some block) :
    received.FirstRefused host fmt ↔
      pdrElement host (pdrmemCreate host .decode received.byteorder) (fmt2Type tok)
        (DataValue.init (fmt2Type tok)) ⟨block, 0, received.bufLen.toNat⟩ = .error .refused := by
  obtain ⟨block', hblock', hdata, hvalid, hrest⟩ := hfresh.reads h0
  obtain rfl := Option.some.inj (hblock'.symm.trans hblock)
  have hdecodes := pdrElement_decodes host (pdrmemCreate_fetches host received.byteorder)
    (fmt2Type tok)
  have hiff := hdecodes.refused_iff hvalid
  rw [hrest] at hiff
  rw [Packet.FirstRefused, htoks, List.head?_cons, hdata]
  constructor
  · intro h
    obtain ⟨hharm, hno⟩ := h tok rfl
    refine hiff.mpr ⟨hharm, ?_⟩
    rintro v bs ⟨hok, rfl⟩
    exact hno v hok
  · intro h tok' htok'
    obtain rfl := Option.some.inj htok'
    obtain ⟨hharm, hno⟩ := hiff.mp h
    exact ⟨hharm, fun v hok => hno v _ ⟨hok, rfl⟩⟩

include hfresh hbad

/-- A decode that begins with a refusal changes nothing that is looked at. -/
lemma decode_untouched (hstop : received.bufLen = 0 ∨ received.FirstRefused host fmt) {p : Packet}
    (hp : Untouched received p) : ∃ q, p.decodePdrData host = .ok q ∧ Untouched received q := by
  by_cases hdec : p.decoded = true
  · exact ⟨p, by rw [Packet.decodePdrData, if_pos hdec]; rfl, hp⟩
  by_cases h0 : received.bufLen = 0
  · refine ⟨{ p with decoded := true }, ?_, hp.fields, hp.buf, hp.bufLen, hp.noElements, fun _ => h0⟩
    rw [Packet.decodePdrData, if_neg hdec, hp.bufLen, if_pos h0]
    rfl
  · obtain ⟨tok, toks, htoks⟩ := exists_token hbad
    obtain ⟨block, hblock, -⟩ := hfresh.reads h0
    obtain ⟨fmtBlock, hfmt, hstr⟩ := hfresh.fmtStr
    have hrefused := (hfresh.firstRefused_iff h0 htoks hblock).mp (hstop.resolve_left h0)
    refine ⟨{ p with dataElements := [], hasError := true }, ?_, hp.fields, hp.buf, hp.bufLen, rfl,
      fun h => absurd h hdec⟩
    have hp' : p.fmtStr = some fmtBlock := by rw [hp.fields, hfmt]
    have hloop : decodeLoop (pdrElement host (pdrmemCreate host .decode p.byteorder))
        (tok :: toks) p.dataElements ⟨block, 0, p.bufLen.toNat⟩ =
          .ok ((false, []), ⟨block, 0, p.bufLen.toNat⟩) := by
      rw [decodeLoop, Action.bind_run, Action.attempt, hp.bufLen, hp.fields, hrefused,
        hp.noElements]
      rfl
    simp only [Packet.decodePdrData, if_neg hdec, hp.bufLen, if_neg h0, hp', hstr, ok_bind, hp.buf,
      hblock, htoks]
    rw [hp.bufLen] at hloop
    rw [hloop]
    rfl

/-- A first decode that leaves no elements begins with a refusal. -/
lemma firstRefused_of_decode {q : Packet} (h : received.decodePdrData host = .ok q)
    (hq : q.dataElements = []) (h0 : received.bufLen ≠ 0) : received.FirstRefused host fmt := by
  obtain ⟨tok, toks, htoks⟩ := exists_token hbad
  obtain ⟨block, hblock, -⟩ := hfresh.reads h0
  obtain ⟨fmtBlock, hfmt, hstr⟩ := hfresh.fmtStr
  rw [hfresh.firstRefused_iff h0 htoks hblock]
  simp only [Packet.decodePdrData, hfresh.undecoded, Bool.false_eq_true, if_false, if_neg h0, hfmt,
    hstr, ok_bind, hblock, htoks] at h
  obtain ⟨⟨⟨retval, elems⟩, s⟩, hloop, h⟩ := bind_ok_iff.mp h
  have helems : elems = [] := by
    cases retval with
    | false => cases h; exact hq
    | true => cases h; exact hq
  subst helems
  rw [decodeLoop, Action.bind_run] at hloop
  obtain ⟨⟨val, s₁⟩, hfirst, hloop⟩ := bind_ok_iff.mp hloop
  cases val with
  | none =>
      rw [Action.attempt] at hfirst
      split at hfirst
      · cases hfirst
      · assumption
      · cases hfirst
  | some val =>
      have hpre := decodeLoop_prefix hloop
      simp at hpre

end Again

section Calls
variable {host : Host} {fuel : ℕ} {p q : Packet} {fmt : List Byte}

lemma decodePdrData_fmtStr (h : p.decodePdrData host = .ok q) : q.fmtStr = p.fmtStr := by
  unfold Packet.decodePdrData at h
  split at h
  · cases h
    rfl
  split at h
  · cases h
    rfl
  split at h
  · cases h
    rfl
  obtain ⟨chars, -, h⟩ := bind_ok_iff.mp h
  split at h
  · cases h
  obtain ⟨⟨⟨retval, elems⟩, s⟩, -, h⟩ := bind_ok_iff.mp h
  cases retval with
  | false => cases h; rfl
  | true => cases h; rfl

/-- A format of its own makes the extraction ask for elements. -/
lemma extractVaList_own {ifmtStr : CString} {vars : List Slot} {r : ℤ × List Slot} {block : List Byte}
    (hfmt : p.fmtStr = some block) (hstr : cString block = .ok ifmtStr.chars)
    (htoks : Tokenizer.tokens ifmtStr.chars delim ≠ []) (hnone : p.dataElements = []) :
    p.extractVaList host fuel ifmtStr vars ≠ pure r := by
  intro h
  obtain ⟨tok, toks, htoks⟩ := List.exists_cons_of_ne_nil htoks
  simp only [Packet.extractVaList, hfmt, run_bind_eq_pure, lift_eq_pure] at h
  obtain ⟨fmt, hchars, h⟩ := h
  obtain rfl := Except.ok.inj (hstr.symm.trans hchars)
  rw [if_neg (not_not.mpr rfl)] at h
  simp only [Packet.dataElementArray2ArgList, hfmt, run_bind_eq_pure, lift_eq_pure] at h
  obtain ⟨fmt, hchars', h⟩ := h
  obtain rfl := Except.ok.inj (hstr.symm.trans hchars')
  rw [htoks, hnone] at h
  cases h

/-- Another format is refused without a look at the elements. -/
lemma extractVaList_other {ifmtStr : CString} {vars : List Slot} {block : List Byte}
    (hfmt : p.fmtStr = some block) (hstr : cString block = .ok fmt) (hne : ifmtStr.chars ≠ fmt) :
    p.extractVaList host fuel ifmtStr vars = pure (-1, vars) := by
  simp only [Packet.extractVaList, hfmt, hstr]
  exact if_pos hne

/-- What a call on data that do not decode should give. -/
def Access.failure : Access → Access.Result
  | .unpack _ vars | .unpackVaList _ vars => .unpacked (-1) vars
  | .element _ => .element none

lemma unpackVaList_other {ifmtStr : Option CString} {vars : List Slot} {block : List Byte}
    (hdec : p.decodePdrData host = .ok q) (hfmt : q.fmtStr = some block)
    (hstr : cString block = .ok fmt) (hne : ifmtStr.map CString.chars ≠ some fmt) :
    p.unpackVaList host fuel ifmtStr vars = pure (q, -1, vars) := by
  refine run_bind_eq_pure.mpr ⟨q, lift_eq_pure.mpr hdec, ?_⟩
  cases ifmtStr with
  | none => rfl
  | some ifmt =>
      have hchars : ifmt.chars ≠ fmt := fun heq => hne (congrArg some heq)
      exact run_bind_eq_pure.mpr ⟨_, extractVaList_other hfmt hstr hchars, rfl⟩

/-- A call under another format fails if the data cannot be decoded any further. -/
lemma Access.run_other {a : Access} {block : List Byte} (hdec : p.decodePdrData host = .ok q)
    (hfmt : q.fmtStr = some block) (hstr : cString block = .ok fmt) (hnone : q.dataElements = [])
    (hne : ¬ a.Names fmt) (hdecodes : a.Decodes) :
    a.run host fuel p = pure (q, a.failure) := by
  cases a with
  | unpack ifmtStr vars =>
      cases ifmtStr with
      | none => exact hdecodes.elim
      | some ifmt =>
          exact run_bind_eq_pure.mpr ⟨_, unpackVaList_other hdec hfmt hstr hne, rfl⟩
  | unpackVaList ifmtStr vars =>
      exact run_bind_eq_pure.mpr ⟨_, unpackVaList_other hdec hfmt hstr hne, rfl⟩
  | element i =>
      refine run_bind_eq_pure.mpr ⟨(q, none), lift_eq_pure.mpr ?_, rfl⟩
      rw [Packet.getElement, hdec, ok_bind, hnone]
      rfl

lemma Access.run_undecoding {a : Access} (h : ¬ a.Decodes) :
    a.run host fuel p = pure (p, a.failure) := by
  cases a with
  | unpack ifmtStr vars =>
      cases ifmtStr with
      | none => rfl
      | some ifmt => exact absurd trivial h
  | unpackVaList ifmtStr vars => exact absurd trivial h
  | element i => exact absurd trivial h

lemma unpackVaList_pure {ifmtStr : Option CString} {vars vars' : List Slot} {ret : ℤ}
    (h : p.unpackVaList host fuel ifmtStr vars = pure (q, ret, vars')) :
    p.decodePdrData host = .ok q ∧
      ∀ ifmt, ifmtStr = some ifmt → q.extractVaList host fuel ifmt vars = pure (ret, vars') := by
  obtain ⟨q', hdec, h⟩ := run_bind_eq_pure.mp h
  rw [lift_eq_pure] at hdec
  cases ifmtStr with
  | none =>
      cases h
      exact ⟨hdec, nofun⟩
  | some ifmt =>
      obtain ⟨⟨ret', vars''⟩, hext, h⟩ := run_bind_eq_pure.mp h
      cases h
      refine ⟨hdec, fun ifmt' heq => ?_⟩
      obtain rfl := Option.some.inj heq
      exact hext

/-- A call that returns has decoded the data, and not under the packet's own format if there are
no elements. -/
lemma Access.run_pure {a : Access} {r : Access.Result}
    (h : a.run host fuel p = pure (q, r)) (hdecodes : a.Decodes) :
    p.decodePdrData host = .ok q ∧ ∀ block fmt, q.dataElements = [] → q.fmtStr = some block →
      cString block = .ok fmt → Tokenizer.tokens fmt delim ≠ [] → ¬ a.Names fmt := by
  have hunpack : ∀ {ifmtStr : Option CString} {vars vars' : List Slot} {ret : ℤ},
      p.unpackVaList host fuel ifmtStr vars = pure (q, ret, vars') →
      p.decodePdrData host = .ok q ∧ ∀ block fmt, q.dataElements = [] → q.fmtStr = some block →
        cString block = .ok fmt → Tokenizer.tokens fmt delim ≠ [] →
          ¬ ifmtStr.map CString.chars = some fmt := by
    intro ifmtStr vars vars' ret hrun
    obtain ⟨hdec, hext⟩ := unpackVaList_pure hrun
    refine ⟨hdec, fun block fmt hnone hfmt hstr htoks hown => ?_⟩
    obtain ⟨ifmt, rfl, rfl⟩ := Option.map_eq_some_iff.mp hown
    exact extractVaList_own hfmt hstr htoks hnone (hext ifmt rfl)
  cases a with
  | unpack ifmtStr vars =>
      cases ifmtStr with
      | none => exact hdecodes.elim
      | some ifmt =>
          obtain ⟨⟨p', ret, vars'⟩, hrun, hq⟩ := run_bind_eq_pure.mp h
          cases hq
          exact hunpack hrun
  | unpackVaList ifmtStr vars =>
      obtain ⟨⟨p', ret, vars'⟩, hrun, hq⟩ := run_bind_eq_pure.mp h
      cases hq
      exact hunpack hrun
  | element i =>
      obtain ⟨⟨p', e⟩, hrun, hq⟩ := run_bind_eq_pure.mp h
      cases hq
      obtain ⟨p', hdec, hp'⟩ := bind_ok_iff.mp (lift_eq_pure.mp hrun)
      cases hp'
      exact ⟨hdec, fun _ _ _ _ _ _ => not_false⟩

end Calls

section Runs
variable {host : Host} {received : Packet} {fmt : List Byte} (hfresh : received.Fresh fmt)
  (hbad : ¬ received.Decodable host fmt)
include hfresh hbad

/-- Calls under other formats, on data that are refused at once, are clean. -/
lemma cleanFrom_of_refused {accesses : List Access}
    (hstop : (∃ a ∈ accesses, a.Decodes) → received.bufLen = 0 ∨ received.FirstRefused host fmt)
    (hnames : ∀ a ∈ accesses, ¬ a.Names fmt) {p : Packet} (hp : Untouched received p) :
    CleanFrom host received p accesses := by
  induction accesses generalizing p with
  | nil => trivial
  | cons a accesses ih =>
      obtain ⟨hne, hnames⟩ := List.forall_mem_cons.mp hnames
      have hrest : (∃ a ∈ accesses, a.Decodes) →
          received.bufLen = 0 ∨ received.FirstRefused host fmt := by
        rintro ⟨b, hb, hdec⟩
        exact hstop ⟨b, List.mem_cons_of_mem a hb, hdec⟩
      have hfailed : a.failure.Failed := by
        cases a with
        | element i => trivial
        | _ => rfl
      -- every call has the result it would have on the packet as received
      have hrun : ∀ {p : Packet}, Untouched received p →
          ∃ q, Returns (fun fuel => a.run host fuel p) (q, a.failure) ∧ Untouched received q := by
        intro p hp
        by_cases hdec : a.Decodes
        · obtain ⟨q, hq, hq'⟩ :=
            decode_untouched hfresh hbad (hstop ⟨a, List.mem_cons_self, hdec⟩) hp
          obtain ⟨block, hblock, hstr⟩ := hfresh.fmtStr
          have hfmt : q.fmtStr = some block := by rw [hq'.fields, hblock]
          exact ⟨q, ⟨0, fun _ _ => Access.run_other hq hfmt hstr hq'.noElements hne hdec⟩, hq'⟩
        · exact ⟨p, ⟨0, fun _ _ => Access.run_undecoding hdec⟩, hp⟩
      obtain ⟨q, hq, hq'⟩ := hrun hp
      obtain ⟨q', hfirst, -⟩ := hrun hfresh.untouched
      refine ⟨q, a.failure, hq, hfailed, ⟨q', hfirst⟩, ?_, ih hrest hnames hq'⟩
      rw [hq'.noElements, hfresh.noElements]

/-- In a clean run no call is made under the packet's own format. -/
lemma CleanFrom.not_names {accesses : List Access} {p : Packet} (hp : p.fmtStr = received.fmtStr)
    (h : CleanFrom host received p accesses) : ∀ a ∈ accesses, ¬ a.Names fmt := by
  induction accesses generalizing p with
  | nil => exact nofun
  | cons a accesses ih =>
      obtain ⟨q, r, ⟨fuel, hrun⟩, -, -, hnone, hrest⟩ := h
      have hret := hrun fuel le_rfl
      obtain ⟨block, hblock, hstr⟩ := hfresh.fmtStr
      obtain ⟨tok, toks, htoks⟩ := exists_token hbad
      have hne : Tokenizer.tokens fmt delim ≠ [] := htoks ▸ List.cons_ne_nil tok toks
      by_cases hdec : a.Decodes
      · obtain ⟨hdecode, hown⟩ := Access.run_pure hret hdec
        have hq : q.fmtStr = received.fmtStr := (decodePdrData_fmtStr hdecode).trans hp
        refine List.forall_mem_cons.mpr ⟨?_, ih hq hrest⟩
        exact hown block fmt (hnone.trans hfresh.noElements) (hq.trans hblock) hstr hne
      · have hsame := hret.symm.trans (Access.run_undecoding hdec)
        cases hsame
        refine List.forall_mem_cons.mpr ⟨fun hnames => hdec ?_, ih hp hrest⟩
        cases a with
        | unpack ifmtStr vars =>
            cases ifmtStr with
            | none => cases hnames
            | some ifmt => trivial
        | unpackVaList ifmtStr vars => trivial
        | element i => trivial

/-- In a clean run the first element is refused, as soon as the data are decoded. -/
lemma Clean.firstRefused {accesses : List Access} (h : Clean host received accesses)
    (hdec : ∃ a ∈ accesses, a.Decodes) : received.bufLen = 0 ∨ received.FirstRefused host fmt := by
  induction accesses with
  | nil => exact absurd hdec nofun
  | cons a accesses ih =>
      obtain ⟨q, r, ⟨fuel, hrun⟩, -, -, hnone, hrest⟩ := h
      have hret := hrun fuel le_rfl
      by_cases ha : a.Decodes
      · rw [or_iff_not_imp_left]
        exact firstRefused_of_decode hfresh hbad (Access.run_pure hret ha).1
          (hnone.trans hfresh.noElements)
      · have hsame := hret.symm.trans (Access.run_undecoding ha)
        cases hsame
        obtain ⟨b, hb, hbdec⟩ := hdec
        exact ih hrest ⟨b, (List.mem_cons.mp hb).resolve_left fun heq => ha (heq ▸ hbdec), hbdec⟩

end Runs

/-- Calls on a received packet whose data do not decode are clean exactly if none of them is made
under the packet's own format, and nothing is decoded before the failure. -/
theorem clean_iff (host : Host) (ihdrLen : BitVec 32) (ihdr : Option (List Byte))
    (ibufLen : BitVec 64) (ibuf : Option (List Byte)) (iinletRank : BitVec 32) (p : Packet)
    (block fmt : List Byte) (accesses : List Access)
    (hrecv : Packet.receive host ihdrLen ihdr ibufLen ibuf iinletRank = .ok p)
    (hblock : p.fmtStr = some block) (hfmt : cString block = .ok fmt) (hplace : p.DataInPlace)
    (hbad : ¬ p.Decodable host fmt) :
    Clean host p accesses ↔ (∀ a ∈ accesses, ¬ a.Names fmt) ∧
      ((∃ a ∈ accesses, a.Decodes) → p.bufLen = 0 ∨ p.FirstRefused host fmt) := by
  have hfresh := receive_fresh hrecv hblock hfmt hplace
  constructor
  · intro h
    exact ⟨h.not_names hfresh hbad rfl, h.firstRefused hfresh hbad⟩
  · rintro ⟨hnames, hstop⟩
    exact cleanFrom_of_refused hfresh hbad hstop hnames hfresh.untouched

/-- `"%d"`. -/
def oneNumber : CString := ⟨ascii ['%', 'd'], by decide⟩

def oneNumberHeader : List Byte :=
  headerForm .little ⟨1, 100, 0, some oneNumber.block, CArray.empty, pdrByteorder .little⟩

/-- A received packet with two bytes for a number of four. -/
def cutPacket : Packet :=
  { Packet.blank (BitVec.ofNat 32 oneNumberHeader.length) (some oneNumberHeader) 2 (some [1, 2]) 0
      with toHeaderFields :=
        ⟨1, 100, 0, some oneNumber.block, CArray.empty, pdrByteorder .little⟩ }

lemma receive_cutPacket :
    Packet.receive (Host.ample .little) (BitVec.ofNat 32 oneNumberHeader.length)
      (some oneNumberHeader) 2 (some [1, 2]) 0 = .ok cutPacket :=
  (receivedAs_headerForm (Host.ample .little) 0 (Host.ample_allocates _) rfl rfl (by decide)
    [1, 2]).1

lemma cutPacket_not_decodable : ¬ cutPacket.Decodable (Host.ample .little) oneNumber.chars := by
  rintro ⟨elems, ⟨htypes, -⟩, hpre⟩
  match elems, htypes, hpre with
  | [⟨type, v⟩], htypes, hpre =>
      obtain rfl : type = .int32 := List.singleton_injective htypes
      have hlen := hpre.length_le
      have hform := nativeBytes_length .little (w := 32) v
      simp [elementsForm, elementForm, Packet.data, cutPacket, Packet.blank] at hlen
      omega

theorem clean_cutPacket :
    Clean (Host.ample .little) cutPacket [.element 0, .unpackVaList none []] ↔
      (∀ a ∈ [Access.element 0, .unpackVaList none []], ¬ a.Names oneNumber.chars) ∧
        ((∃ a ∈ [Access.element 0, .unpackVaList none []], a.Decodes) →
          cutPacket.bufLen = 0 ∨
            cutPacket.FirstRefused (Host.ample .little) oneNumber.chars) :=
  clean_iff (Host.ample .little) _ _ _ _ _ cutPacket oneNumber.block oneNumber.chars _
    receive_cutPacket rfl rfl (.inr ⟨_, rfl, rfl⟩) cutPacket_not_decodable

/-- The first element is looked for, and there is none. -/
theorem cutPacket_reads_past :
    ¬ cutPacket.Decodable (Host.ample .little) oneNumber.chars ∧
      ∀ fuel, Packet.unpack (Host.ample .little) fuel cutPacket (some oneNumber) [.word 0] =
        throw (.fault .readPast) :=
  ⟨cutPacket_not_decodable, fun _ => rfl⟩

end MRNet.Wire
