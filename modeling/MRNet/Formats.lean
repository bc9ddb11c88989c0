import MRNet.Pdr

/-!
# Format strings and data elements

The tokenizers of both implementations, `Fmt2Type`, and the typed values a format
string describes. `Tokenizer::GetNextToken` works on positions in the string and
`strtok_r` on the rest of it; both enumerate the maximal runs of characters that
are not delimiters.

The value of an element has the C type its tag stands for. An array is a pointer
with its `array_len`, which is the length of the list here. The `array_len` that
the constructors store for a `STRING_T` is read by no routine and left out.
-/
namespace MRNet.Wire
open NativeBytes Codec

def ascii (text : List Char) : List Byte := text.map fun c => BitVec.ofNat 8 c.toNat

/-- The delimiters `" \t\n%"` of all format loops. -/
def delim : List Byte := ascii [' ', '\t', '\n', '%']

namespace Tokenizer

/-- `none` is `std::string::npos`. -/
def findFirstNotOf (s delim : List Byte) (pos : ℕ) : Option ℕ :=
  ((s.drop pos).findIdx? fun b => b ∉ delim).map (pos + ·)

def findFirstOf (s delim : List Byte) (pos : ℕ) : Option ℕ :=
  ((s.drop pos).findIdx? fun b => b ∈ delim).map (pos + ·)

structure Token where
  pos : Option ℕ
  len : ℕ
  deriving DecidableEq, Repr

/-- One call: the token and the new `curPos`. -/
def getNextToken (s delim : List Byte) (curPos : Option ℕ) : Token × Option ℕ :=
  match curPos with
  | none => (⟨none, 0⟩, none)
  | some curPos =>
      match findFirstNotOf s delim curPos with
      | none => (⟨none, 0⟩, none)
      | some start =>
          let curEnd := (findFirstOf s delim start).getD s.length
          let len := curEnd - start
          (⟨some start, len⟩, if start + len = s.length then none else some (start + len))

/-- The calls of a format loop until `npos` is returned, with the substrings they
designate. -/
def run (s delim : List Byte) : ℕ → Option ℕ → List (List Byte)
  | 0, _ => []
  | fuel + 1, curPos =>
      match getNextToken s delim curPos with
      | (⟨none, _⟩, _) => []
      | (⟨some start, len⟩, next) => (s.drop start).take len :: run s delim fuel next

/-- Every call consumes a character, so one call more than characters is enough. -/
def tokens (s delim : List Byte) : List (List Byte) := run s delim (s.length + 1) (some 0)

end Tokenizer

/-- One call on what is left of the string: the token and the new rest. -/
def strtok (rest delim : List Byte) : Option (List Byte × List Byte) :=
  match rest.dropWhile (· ∈ delim) with
  | [] => none
  | b :: rest =>
      some ((b :: rest).takeWhile (· ∉ delim), ((b :: rest).dropWhile (· ∉ delim)).drop 1)

def strtokRun (delim : List Byte) : ℕ → List Byte → List (List Byte)
  | 0, _ => []
  | fuel + 1, rest =>
      match strtok rest delim with
      | none => []
      | some (tok, rest) => tok :: strtokRun delim fuel rest

def strtokTokens (s delim : List Byte) : List (List Byte) := strtokRun delim (s.length + 1) s

/-- The maximal runs of characters that are not delimiters. -/
def splitTokens (delim s : List Byte) : List (List Byte) :=
  (s.splitOnP (· ∈ delim)).filter (· ≠ [])

section Split
variable {delim : List Byte}

@[simp] theorem splitTokens_nil : splitTokens delim [] = [] := by simp [splitTokens]

theorem splitTokens_delimiter {b : Byte} (hb : b ∈ delim) (s : List Byte) :
    splitTokens delim (b :: s) = splitTokens delim s := by
  simp [splitTokens, List.splitOnP_cons_eq_if_modifyHead, hb]

theorem splitTokens_skip (s : List Byte) :
    splitTokens delim (s.dropWhile (· ∈ delim)) = splitTokens delim s := by
  induction s with
  | nil => rfl
  | cons b s ih =>
      by_cases hb : b ∈ delim
      · rw [List.dropWhile_cons_of_pos (by simpa using hb), ih, splitTokens_delimiter hb]
      · rw [List.dropWhile_cons_of_neg (by simpa using hb)]

/-- A string that starts with a token is that token and the tokens behind it. -/
theorem splitTokens_token {b : Byte} (hb : b ∉ delim) (s : List Byte) :
    splitTokens delim (b :: s) = (b :: s).takeWhile (· ∉ delim) ::
      splitTokens delim ((b :: s).dropWhile (· ∉ delim)) := by
  have hfree : ∀ c ∈ (b :: s).takeWhile (· ∉ delim), decide (c ∈ delim) = false := by
    intro c hc
    simpa using List.mem_takeWhile_imp hc
  have hne : (b :: s).takeWhile (· ∉ delim) ≠ [] := by simp [hb]
  have hsplit := List.takeWhile_append_dropWhile (p := fun c => decide (c ∉ delim)) (l := b :: s)
  cases hd : (b :: s).dropWhile (· ∉ delim) with
  | nil =>
      rw [hd, List.append_nil] at hsplit
      rw [hsplit] at hfree ⊢
      simp [splitTokens, List.splitOnP_eq_singleton hfree]
  | cons c rest =>
      have hc : c ∈ delim := by
        have hhead := List.head?_dropWhile_not (fun c => decide (c ∉ delim)) (b :: s)
        rw [hd] at hhead
        simpa using hhead
      rw [splitTokens_delimiter hc]
      conv_lhs => rw [← hsplit, hd]
      rw [splitTokens, List.splitOnP_append_cons _ _ (by simpa using hc),
        List.splitOnP_eq_singleton hfree, List.singleton_append,
        List.filter_cons_of_pos (by simpa using hne)]
      rfl

/-- The rest of the string after its first token. -/
lemma strtok_eq (rest : List Byte) :
    strtok rest delim =
      if rest.dropWhile (· ∈ delim) = [] then none
      else some ((rest.dropWhile (· ∈ delim)).takeWhile (· ∉ delim),
        ((rest.dropWhile (· ∈ delim)).dropWhile (· ∉ delim)).drop 1) := by
  unfold strtok
  cases rest.dropWhile (· ∈ delim) <;> simp

lemma head_dropWhile_notMem {rest t : List Byte} {b : Byte}
    (h : rest.dropWhile (· ∈ delim) = b :: t) : b ∉ delim := by
  have hhead := List.head?_dropWhile_not (fun c => decide (c ∈ delim)) rest
  rw [h] at hhead
  simpa using hhead

lemma splitTokens_drop_one (s : List Byte) :
    splitTokens delim ((s.dropWhile (· ∉ delim)).drop 1) =
      splitTokens delim (s.dropWhile (· ∉ delim)) := by
  cases hd : s.dropWhile (· ∉ delim) with
  | nil => rfl
  | cons c rest =>
      have hhead := List.head?_dropWhile_not (fun c => decide (c ∉ delim)) s
      rw [hd] at hhead
      rw [List.drop_one, List.tail_cons, splitTokens_delimiter (by simpa using hhead)]

theorem strtokRun_eq_splitTokens (fuel : ℕ) (rest : List Byte) (h : rest.length < fuel) :
    strtokRun delim fuel rest = splitTokens delim rest := by
  induction fuel generalizing rest with
  | zero => omega
  | succ fuel ih =>
      have hlen := List.length_dropWhile_le (fun c => decide (c ∈ delim)) rest
      rw [strtokRun, strtok_eq, ← splitTokens_skip rest]
      cases ht : rest.dropWhile (· ∈ delim) with
      | nil => simp
      | cons b t =>
          have hb := head_dropWhile_notMem ht
          have hle := List.length_dropWhile_le (fun c => decide (c ∉ delim)) t
          rw [ht, List.length_cons] at hlen
          rw [if_neg (by simp), splitTokens_token hb, ← splitTokens_drop_one]
          dsimp only
          rw [ih]
          rw [List.length_drop, List.dropWhile_cons_of_pos (by simpa using hb)]
          omega

theorem strtokTokens_eq (s : List Byte) : strtokTokens s delim = splitTokens delim s :=
  strtokRun_eq_splitTokens _ s (Nat.lt_succ_self _)

lemma findIdx?_eq_takeWhile {α : Type} (p : α → Bool) (l : List α) :
    l.findIdx? p = if l.dropWhile (fun a => !p a) = [] then none
      else some (l.takeWhile (fun a => !p a)).length := by
  induction l with
  | nil => simp
  | cons a l ih =>
      rw [List.findIdx?_cons]
      cases hp : p a with
      | true => simp [hp]
      | false =>
          rw [List.dropWhile_cons_of_pos (by simp [hp]), List.takeWhile_cons_of_pos (by simp [hp]),
            ih, List.length_cons, if_neg (by simp)]
          by_cases hd : l.dropWhile (fun a => !p a) = []
          · rw [if_pos hd, if_pos hd, Option.map_none]
          · rw [if_neg hd, if_neg hd, Option.map_some]

lemma drop_takeWhile_length {α : Type} (p : α → Bool) (l : List α) :
    l.drop (l.takeWhile p).length = l.dropWhile p := by
  have h := List.takeWhile_append_dropWhile (p := p) (l := l)
  calc l.drop (l.takeWhile p).length
      = (l.takeWhile p ++ l.dropWhile p).drop (l.takeWhile p).length := by rw [h]
    _ = l.dropWhile p := List.drop_left

lemma take_takeWhile_length {α : Type} (p : α → Bool) (l : List α) :
    l.take (l.takeWhile p).length = l.takeWhile p := by
  have h := List.takeWhile_append_dropWhile (p := p) (l := l)
  calc l.take (l.takeWhile p).length
      = (l.takeWhile p ++ l.dropWhile p).take (l.takeWhile p).length := by rw [h]
    _ = l.takeWhile p := List.take_left

namespace Tokenizer

lemma findFirstNotOf_eq (s : List Byte) (pos : ℕ) :
    findFirstNotOf s delim pos = if (s.drop pos).dropWhile (· ∈ delim) = [] then none
      else some (pos + ((s.drop pos).takeWhile (· ∈ delim)).length) := by
  have hp : (fun b : Byte => !decide (b ∉ delim)) = fun b => decide (b ∈ delim) := by
    funext b
    simp
  rw [findFirstNotOf, findIdx?_eq_takeWhile, hp]
  split_ifs <;> rfl

lemma findFirstOf_eq (s : List Byte) (pos : ℕ) :
    findFirstOf s delim pos = if (s.drop pos).dropWhile (· ∉ delim) = [] then none
      else some (pos + ((s.drop pos).takeWhile (· ∉ delim)).length) := by
  have hp : (fun b : Byte => !decide (b ∈ delim)) = fun b => decide (b ∉ delim) := by
    funext b
    simp
  rw [findFirstOf, findIdx?_eq_takeWhile, hp]
  split_ifs <;> rfl

/-- The end of a token, whether or not a delimiter follows it. -/
lemma tokenEnd_eq (s : List Byte) (start : ℕ) :
    (findFirstOf s delim start).getD s.length - start =
      ((s.drop start).takeWhile (· ∉ delim)).length := by
  have hsplit := congrArg List.length
    (List.takeWhile_append_dropWhile (p := fun c => decide (c ∉ delim)) (l := s.drop start))
  rw [List.length_append, List.length_drop] at hsplit
  rw [findFirstOf_eq]
  split_ifs with hd
  · rw [hd, List.length_nil] at hsplit
    rw [Option.getD_none]
    omega
  · rw [Option.getD_some]
    omega

/-- One call skips the delimiters and returns the run of other characters behind them. -/
theorem getNextToken_eq (s : List Byte) (curPos : ℕ) :
    getNextToken s delim (some curPos) =
      if (s.drop curPos).dropWhile (· ∈ delim) = [] then (⟨none, 0⟩, none)
      else
        let start := curPos + ((s.drop curPos).takeWhile (· ∈ delim)).length
        let len := (((s.drop curPos).dropWhile (· ∈ delim)).takeWhile (· ∉ delim)).length
        (⟨some start, len⟩, if start + len = s.length then none else some (start + len)) := by
  unfold getNextToken
  dsimp only
  rw [findFirstNotOf_eq]
  by_cases hd : (s.drop curPos).dropWhile (· ∈ delim) = []
  · rw [if_pos hd, if_pos hd]
  · rw [if_neg hd, if_neg hd]
    dsimp only
    rw [tokenEnd_eq, ← List.drop_drop, drop_takeWhile_length]

theorem run_eq_splitTokens (s : List Byte) (fuel curPos : ℕ) (h : curPos ≤ s.length)
    (hf : s.length - curPos < fuel) :
    run s delim fuel (some curPos) = splitTokens delim (s.drop curPos) := by
  induction fuel generalizing curPos with
  | zero => omega
  | succ fuel ih =>
      rw [run, getNextToken_eq s curPos, ← splitTokens_skip (s.drop curPos)]
      cases ht : (s.drop curPos).dropWhile (· ∈ delim) with
      | nil => simp
      | cons b t =>
          have hb := head_dropWhile_notMem ht
          have hdrop := drop_takeWhile_length (fun c => decide (c ∈ delim)) (s.drop curPos)
          rw [List.drop_drop, ht] at hdrop
          set start := curPos + ((s.drop curPos).takeWhile (· ∈ delim)).length with hstart
          set len := ((b :: t).takeWhile (· ∉ delim)).length with hlen
          have hlenpos : 0 < len := by simp [hlen, hb]
          have hbt := congrArg List.length hdrop
          rw [List.length_drop, List.length_cons] at hbt
          have hrest : s.drop (start + len) = (b :: t).dropWhile (· ∉ delim) := by
            rw [← List.drop_drop, hdrop, hlen, drop_takeWhile_length]
          have hfit : len ≤ (b :: t).length :=
            (List.takeWhile_prefix (fun c => decide (c ∉ delim)) (l := b :: t)).length_le
          rw [List.length_cons] at hfit
          rw [if_neg (by simp), splitTokens_token hb, ← hrest]
          dsimp only
          rw [hdrop, hlen, take_takeWhile_length, ← hlen]
          congr 1
          by_cases hend : start + len = s.length
          · rw [if_pos hend, hend, List.drop_length, splitTokens_nil]
            cases fuel <;> rfl
          · rw [if_neg hend]
            exact ih _ (by omega) (by omega)

/-- The tokenizer enumerates exactly the maximal runs. -/
theorem tokens_eq (s : List Byte) : tokens s delim = splitTokens delim s :=
  run_eq_splitTokens s _ 0 (Nat.zero_le _) (by omega)

end Tokenizer

/-- Both implementations see the same tokens. -/
theorem tokens_eq_strtokTokens (s : List Byte) :
    Tokenizer.tokens s delim = strtokTokens s delim := by
  rw [Tokenizer.tokens_eq, strtokTokens_eq]

end Split

inductive DataType where
  | unknown
  | char | uchar
  | charArray | ucharArray
  | string | stringArray
  | int16 | uint16
  | int16Array | uint16Array
  | int32 | uint32
  | int32Array | uint32Array
  | int64 | uint64
  | int64Array | uint64Array
  | float | double
  | floatArray | doubleArray
  | charLrgArray | ucharLrgArray
  | stringLrgArray
  | int16LrgArray | uint16LrgArray
  | int32LrgArray | uint32LrgArray
  | int64LrgArray | uint64LrgArray
  | floatLrgArray | doubleLrgArray
  deriving DecidableEq, Repr

/-- The comparisons of `Fmt2Type` in order. Each first character has its own
group in the source, which does not change the outcome. -/
def fmtTable : List (List Char × DataType) :=
  [(['a', 'c'], .charArray), (['a', 'u', 'c'], .ucharArray),
   (['a', 'd'], .int32Array), (['a', 'u', 'd'], .uint32Array),
   (['a', 'h', 'd'], .int16Array), (['a', 'u', 'h', 'd'], .uint16Array),
   (['a', 'l', 'd'], .int64Array), (['a', 'u', 'l', 'd'], .uint64Array),
   (['a', 'f'], .floatArray), (['a', 'l', 'f'], .doubleArray), (['a', 's'], .stringArray),
   (['A', 'c'], .charLrgArray), (['A', 'u', 'c'], .ucharLrgArray),
   (['A', 'd'], .int32LrgArray), (['A', 'u', 'd'], .uint32LrgArray),
   (['A', 'h', 'd'], .int16LrgArray), (['A', 'u', 'h', 'd'], .uint16LrgArray),
   (['A', 'l', 'd'], .int64LrgArray), (['A', 'u', 'l', 'd'], .uint64LrgArray),
   (['A', 'f'], .floatLrgArray), (['A', 'l', 'f'], .doubleLrgArray), (['A', 's'], .stringLrgArray),
   (['c'], .char), (['d'], .int32), (['f'], .float), (['h', 'd'], .int16),
   (['l', 'd'], .int64), (['l', 'f'], .double), (['s'], .string),
   (['u', 'c'], .uchar), (['u', 'h', 'd'], .uint16), (['u', 'd'], .uint32),
   (['u', 'l', 'd'], .uint64)]

/-- The lightweight `DataType_Fmt2Type` has the same comparisons. -/
def fmt2Type (curFmt : List Byte) : DataType :=
  ((fmtTable.find? fun entry => ascii entry.1 = curFmt).map Prod.snd).getD .unknown

example : (Tokenizer.tokens (ascii ['%', 'd', ' ', '%', 'a', 's']) delim).map fmt2Type =
    [.int32, .stringArray] := by decide

/-- The part of the value union that the tag selects. -/
def DataValue : DataType → Type
  | .unknown => Unit
  | .char | .uchar => Byte
  | .charArray | .ucharArray | .charLrgArray | .ucharLrgArray => CArray Byte 1
  | .int16 | .uint16 => BitVec 16
  | .int16Array | .uint16Array | .int16LrgArray | .uint16LrgArray => CArray (BitVec 16) 2
  | .int32 | .uint32 | .float => BitVec 32
  | .int32Array | .uint32Array | .int32LrgArray | .uint32LrgArray
  | .floatArray | .floatLrgArray => CArray (BitVec 32) 4
  | .int64 | .uint64 | .double => BitVec 64
  | .int64Array | .uint64Array | .int64LrgArray | .uint64LrgArray
  | .doubleArray | .doubleLrgArray => CArray (BitVec 64) 8
  | .string => Option (List Byte)
  | .stringArray | .stringLrgArray => CArray (Option (List Byte)) 8

/-- The value of a new element: `val.uld = 0`, and a null pointer before a decode. -/
def DataValue.init : (type : DataType) → DataValue type
  | .unknown => ()
  | .char | .uchar => (0 : Byte)
  | .charArray | .ucharArray | .charLrgArray | .ucharLrgArray => (CArray.empty : CArray Byte 1)
  | .int16 | .uint16 => (0 : BitVec 16)
  | .int16Array | .uint16Array | .int16LrgArray | .uint16LrgArray =>
      (CArray.empty : CArray (BitVec 16) 2)
  | .int32 | .uint32 | .float => (0 : BitVec 32)
  | .int32Array | .uint32Array | .int32LrgArray | .uint32LrgArray
  | .floatArray | .floatLrgArray => (CArray.empty : CArray (BitVec 32) 4)
  | .int64 | .uint64 | .double => (0 : BitVec 64)
  | .int64Array | .uint64Array | .int64LrgArray | .uint64LrgArray
  | .doubleArray | .doubleLrgArray => (CArray.empty : CArray (BitVec 64) 8)
  | .string => (none : Option (List Byte))
  | .stringArray | .stringLrgArray => (CArray.empty : CArray (Option (List Byte)) 8)

structure DataElement where
  type : DataType
  val : DataValue type

/-- A format string all of whose tokens are recognised. -/
def Recognised (fmt : List Byte) : Prop :=
  ∀ tok ∈ Tokenizer.tokens fmt delim, fmt2Type tok ≠ .unknown

instance (fmt : List Byte) : Decidable (Recognised fmt) :=
  inferInstanceAs (Decidable (∀ tok ∈ Tokenizer.tokens fmt delim, fmt2Type tok ≠ .unknown))

end MRNet.Wire
