import MRNet.MaximalRuns
import MRNet.PacketAccess
import MRNet.PacketArguments

/-!
# The sequence of tokens

`GetNextToken` enumerates the maximal runs of characters that are not delimiters. All loops of a
packet go over the tokens of its format. The loops over the arguments and the decode add an
element for a token, and the encode and the two extractions take the element that is at the index
of the token. A decode that starts with elements left in the packet adds its own behind them.
-/
namespace MRNet.Wire
open NativeBytes Codec MaximalRuns

namespace Tokenizer

/-- The calls until `npos` is returned, with what they return. `none` if there are more calls
than `fuel`. -/
def calls (s delim : List Byte) : ℕ → Option ℕ → Option (List (ℕ × ℕ))
  | 0, _ => none
  | fuel + 1, curPos =>
      match getNextToken s delim curPos with
      | (⟨none, _⟩, _) => some []
      | (⟨some start, len⟩, next) => (calls s delim fuel next).map ((start, len) :: ·)

/-- The calls end, and return the maximal runs in order. -/
def EnumeratesTokens (s delim : List Byte) : Prop :=
  ∃ toks, (∀ fuel, s.length < fuel → calls s delim fuel (some 0) = some toks) ∧
    Enumerates (· ∉ delim) s 0 toks ∧ (∀ tok ∈ toks, 0 < tok.2) ∧
    tokens s delim = toks.map fun tok => (s.drop tok.1).take tok.2

variable {s delim : List Byte} {pos k : ℕ}

lemma map_findIdx?_drop_eq_none {α : Type} {p : α → Bool} {l : List α} :
    ((l.drop pos).findIdx? p).map (pos + ·) = none ↔
      ∀ i a, pos ≤ i → l[i]? = some a → p a = false := by
  rw [Option.map_eq_none_iff, List.findIdx?_eq_none_iff]
  constructor
  · intro h i a hle ha
    exact h a (List.mem_of_getElem? (by rwa [List.getElem?_drop, Nat.add_sub_cancel' hle]))
  · intro h a ha
    obtain ⟨i, ha⟩ := List.mem_iff_getElem?.mp ha
    rw [List.getElem?_drop] at ha
    exact h _ a (Nat.le_add_right pos i) ha

lemma map_findIdx?_drop_eq_some {α : Type} {p : α → Bool} {l : List α}
    (h : ((l.drop pos).findIdx? p).map (pos + ·) = some k) :
    pos ≤ k ∧ (∃ a, l[k]? = some a ∧ p a) ∧
      ∀ i a, pos ≤ i → i < k → l[i]? = some a → p a = false := by
  obtain ⟨j, hj, rfl⟩ := Option.map_eq_some_iff.mp h
  obtain ⟨hlt, hp, hbefore⟩ := List.findIdx?_eq_some_iff_getElem.mp hj
  rw [List.getElem_drop] at hp
  rw [List.length_drop] at hlt
  refine ⟨Nat.le_add_right pos j, ⟨_, List.getElem?_eq_getElem (by omega), hp⟩, ?_⟩
  intro i a hle hi ha
  obtain ⟨j', rfl⟩ := Nat.exists_eq_add_of_le hle
  obtain ⟨hlen, rfl⟩ := List.getElem?_eq_some_iff.mp ha
  have hj' := hbefore j' (by omega)
  rw [List.getElem_drop] at hj'
  exact Bool.eq_false_of_not_eq_true hj'

/-- What one call returns: the next run, from a border on, or that there is none. -/
theorem getNextToken_spec (hborder : Border (· ∉ delim) s pos) :
    (getNextToken s delim (some pos) = (⟨none, 0⟩, none) ∧
      ∀ i b, pos ≤ i → s[i]? = some b → ¬ b ∉ delim) ∨
    ∃ start len, getNextToken s delim (some pos) =
        (⟨some start, len⟩, if start + len = s.length then none else some (start + len)) ∧
      pos ≤ start ∧ (∀ i b, pos ≤ i → i < start → s[i]? = some b → ¬ b ∉ delim) ∧
      IsRun (· ∉ delim) s start len := by
  unfold getNextToken
  dsimp only
  cases hstart : findFirstNotOf s delim pos with
  | none =>
      refine .inl ⟨rfl, fun i b hle hb => ?_⟩
      simpa using map_findIdx?_drop_eq_none.mp hstart i b hle hb
  | some start =>
      obtain ⟨hle, ⟨b, hb, hnot⟩, hgap⟩ := map_findIdx?_drop_eq_some hstart
      have hgap' : ∀ i b, pos ≤ i → i < start → s[i]? = some b → ¬ b ∉ delim :=
        fun i b hle hi hb => by simpa using hgap i b hle hi hb
      have hin : start < s.length := (List.getElem?_eq_some_iff.mp hb).1
      refine .inr ⟨start, _, rfl, hle, hgap', ?_⟩
      cases hend : findFirstOf s delim start with
      | none =>
          have hall := map_findIdx?_drop_eq_none.mp hend
          rw [Option.getD_none]
          refine isRun_of_border hborder hle hgap' (by omega) (by omega) ?_ ?_
          · intro i a hi _ ha
            simpa using hall i a hi ha
          · intro a ha
            have hlt := (List.getElem?_eq_some_iff.mp ha).1
            omega
      | some curEnd =>
          obtain ⟨hle', ⟨c, hc, hmem⟩, hrun⟩ := map_findIdx?_drop_eq_some hend
          have hlt := (List.getElem?_eq_some_iff.mp hc).1
          have hne : start ≠ curEnd := by
            rintro rfl
            obtain rfl := Option.some.inj (hb.symm.trans hc)
            exact of_decide_eq_true hnot (of_decide_eq_true hmem)
          rw [Option.getD_some]
          refine isRun_of_border hborder hle hgap' (by omega) (by omega) ?_ ?_
          · intro i a hi hi' ha
            simpa using hrun i a hi (by omega) ha
          · intro a ha
            rw [Nat.add_sub_cancel' hle', hc] at ha
            obtain rfl := Option.some.inj ha
            simpa using hmem

lemma calls_succ {fuel : ℕ} {curPos : Option ℕ} {toks : List (ℕ × ℕ)}
    (h : calls s delim fuel curPos = some toks) : calls s delim (fuel + 1) curPos = some toks := by
  induction fuel generalizing curPos toks with
  | zero => cases h
  | succ fuel ih =>
      rcases hcall : getNextToken s delim curPos with ⟨⟨start, len⟩, next⟩
      rw [calls, hcall] at h ⊢
      cases start with
      | none => exact h
      | some start =>
          obtain ⟨rest, hrest, rfl⟩ := Option.map_eq_some_iff.mp h
          dsimp only
          rw [ih hrest, Option.map_some]

/-- Each call but the last consumes a character. -/
theorem calls_enumerates (fuel : ℕ) (hborder : Border (· ∉ delim) s pos) (hpos : pos ≤ s.length)
    (hfuel : s.length - pos < fuel) :
    ∃ toks, calls s delim fuel (some pos) = some toks ∧ Enumerates (· ∉ delim) s pos toks := by
  induction fuel generalizing pos with
  | zero => omega
  | succ fuel ih =>
      rw [calls]
      rcases getNextToken_spec hborder with ⟨hcall, hnone⟩ | ⟨start, len, hcall, hle, hgap, hrun⟩
      · rw [hcall]
        exact ⟨[], rfl, enumerates_nil hnone⟩
      · have hlen := hrun.len_pos
        have hwithin := hrun.within
        rw [hcall]
        by_cases hend : start + len = s.length
        · -- the next call finds the cursor at `npos`
          obtain ⟨fuel, rfl⟩ : ∃ n, fuel = n + 1 := ⟨fuel - 1, by omega⟩
          rw [if_pos hend]
          refine ⟨[(start, len)], rfl, enumerates_cons hle hgap hrun (enumerates_nil ?_)⟩
          intro i b hi hb
          have hlt := (List.getElem?_eq_some_iff.mp hb).1
          omega
        · obtain ⟨toks, htoks, henum⟩ := ih (.inr hrun.behind) hwithin (by omega)
          rw [if_neg hend]
          exact ⟨(start, len) :: toks, by simp only [htoks, Option.map_some],
            enumerates_cons hle hgap hrun henum⟩

lemma run_of_calls {fuel : ℕ} {curPos : Option ℕ} {toks : List (ℕ × ℕ)}
    (h : calls s delim fuel curPos = some toks) :
    run s delim fuel curPos = toks.map fun tok => (s.drop tok.1).take tok.2 := by
  induction fuel generalizing curPos toks with
  | zero => cases h
  | succ fuel ih =>
      rcases hcall : getNextToken s delim curPos with ⟨⟨start, len⟩, next⟩
      rw [calls, hcall] at h
      rw [run, hcall]
      cases start with
      | none =>
          cases h
          rfl
      | some start =>
          obtain ⟨rest, hrest, rfl⟩ := Option.map_eq_some_iff.mp h
          exact congrArg _ (ih hrest)

theorem enumeratesTokens (s delim : List Byte) : EnumeratesTokens s delim := by
  obtain ⟨toks, htoks, henum⟩ := calls_enumerates (s.length + 1)
    (.inl rfl : Border (· ∉ delim) s 0) (Nat.zero_le _) (by omega)
  refine ⟨toks, fun fuel hfuel => ?_, henum, ?_, run_of_calls htoks⟩
  · induction fuel, hfuel using Nat.le_induction with
    | base => exact htoks
    | succ fuel _ ih => exact calls_succ ih
  · rintro ⟨start, len⟩ hmem
    exact ((henum.mem_iff _ _).mp hmem).2.len_pos

end Tokenizer

/-- Elements made by the tokens, one by each. -/
inductive Pushes {σ : Type} (step : List Byte → σ → DataElement → σ → Prop) :
    σ → List (List Byte) → List DataElement → σ → Prop
  | nil (s : σ) : Pushes step s [] [] s
  | cons {tok : List Byte} {e : DataElement} {toks : List (List Byte)} {es : List DataElement}
      {s s' s'' : σ} (h : step tok s e s') (hrest : Pushes step s' toks es s'') :
      Pushes step s (tok :: toks) (e :: es) s''

/-- A loop that adds elements is in step with the tokens. The loop over the first tokens leaves as
many elements, of the types that these name, and they are the first of those that the loop over
more tokens leaves. Where it stops before the end, it leaves those of the tokens before. -/
structure MakesInOrder (toks : List (List Byte))
    (makes : Bool → List (List Byte) → List DataElement → Prop) : Prop where
  types : ∀ i elems, makes true (toks.take i) elems →
    elems.map DataElement.type = (toks.take i).map fmt2Type
  prefixes : ∀ i j elems, i ≤ j → makes true (toks.take j) elems →
    makes true (toks.take i) (elems.take i)
  stops : ∀ elems, makes false toks elems → ∃ i < toks.length, makes true (toks.take i) elems

section Pushes
variable {σ : Type} {step : List Byte → σ → DataElement → σ → Prop} {s s' : σ}
    {toks : List (List Byte)} {elems : List DataElement}

lemma Pushes.take (h : Pushes step s toks elems s') (i : ℕ) :
    ∃ s'', Pushes step s (toks.take i) (elems.take i) s'' := by
  induction h generalizing i with
  | nil s =>
      rw [List.take_nil, List.take_nil]
      exact ⟨s, .nil s⟩
  | cons hstep _ ih =>
      cases i with
      | zero => exact ⟨_, .nil _⟩
      | succ i =>
          obtain ⟨s'', hrest⟩ := ih i
          exact ⟨s'', .cons hstep hrest⟩

lemma Pushes.types (h : Pushes step s toks elems s')
    (hstep : ∀ tok s e s', step tok s e s' → e.type = fmt2Type tok) :
    elems.map DataElement.type = toks.map fmt2Type := by
  induction h with
  | nil => rfl
  | cons h _ ih => rw [List.map_cons, List.map_cons, hstep _ _ _ _ h, ih]

/-- A loop that leaves what is pushed is in order, if it comes to the end exactly when it returns
success. -/
lemma makesInOrder_of_pushes (step : List Byte → σ → DataElement → σ → Prop) (s : σ)
    {makes : Bool → List (List Byte) → List DataElement → Prop}
    (hstep : ∀ tok s e s', step tok s e s' → e.type = fmt2Type tok)
    (hmakes : ∀ toks elems s', Pushes step s toks elems s' → makes true toks elems)
    (hpushes : ∀ retval toks elems, makes retval toks elems →
      ∃ i s', Pushes step s (toks.take i) elems s' ∧
        if retval then i = toks.length else i < toks.length) : MakesInOrder toks makes := by
  have hall : ∀ toks elems, makes true toks elems → ∃ s', Pushes step s toks elems s' := by
    intro toks elems h
    obtain ⟨i, s', hs', hi⟩ := hpushes true toks elems h
    rw [if_pos rfl] at hi
    rw [hi, List.take_length] at hs'
    exact ⟨s', hs'⟩
  refine ⟨fun i elems h => ?_, fun i j elems hle h => ?_, fun elems h => ?_⟩
  · obtain ⟨s', hs'⟩ := hall _ _ h
    exact hs'.types hstep
  · obtain ⟨s', hs'⟩ := hall _ _ h
    obtain ⟨s'', htake⟩ := hs'.take i
    rw [List.take_take, min_eq_left hle] at htake
    exact hmakes _ _ _ htake
  · obtain ⟨i, s', hs', hi⟩ := hpushes false toks elems h
    exact ⟨i, hi, hmakes _ _ _ hs'⟩

end Pushes

section Steps

/-- A token takes a value from the arguments. -/
def ArgListStep (toFloat : BitVec 64 → BitVec 32) (curFmt : List Byte) (args : List Arg)
    (e : DataElement) (args' : List Arg) : Prop :=
  fmt2Type curFmt ≠ .unknown ∧ ∃ v, argValue toFloat args (fmt2Type curFmt) = .ok (v, args') ∧
    e = ⟨fmt2Type curFmt, v⟩

def ArgVecStep (idata : List Slot) (curFmt : List Byte) (dataNdx : ℕ) (e : DataElement)
    (dataNdx' : ℕ) : Prop :=
  fmt2Type curFmt ≠ .unknown ∧ (∃ v, readValue idata dataNdx (fmt2Type curFmt) = .ok v ∧
    e = ⟨fmt2Type curFmt, v⟩) ∧ dataNdx' = dataNdx + (fmt2Type curFmt).slots

def DecodeStep (element : (type : DataType) → DataValue type → Action (DataValue type))
    (curFmt : List Byte) (s : Cursor) (e : DataElement) (s' : Cursor) : Prop :=
  ∃ v, element (fmt2Type curFmt) (DataValue.init _) s = .ok (v, s') ∧ e = ⟨fmt2Type curFmt, v⟩

variable {toks : List (List Byte)} {elems before : List DataElement}

/-- The loop has come one token further than the loop over the rest. -/
lemma stops_cons {retval : Bool} {i : ℕ} {curFmt : List Byte}
    (h : if retval then i = toks.length else i < toks.length) :
    if retval then i + 1 = (curFmt :: toks).length else i + 1 < (curFmt :: toks).length := by
  cases retval with
  | false => exact Nat.succ_lt_succ h
  | true => exact congrArg (· + 1) h

lemma argListLoop_of_pushes {toFloat : BitVec 64 → BitVec 32} {args args' : List Arg}
    {new : List DataElement} (h : Pushes (ArgListStep toFloat) args toks new args')
    (before : List DataElement) :
    argListLoop toFloat toks args before = .ok (true, before ++ new) := by
  induction h generalizing before with
  | nil s =>
      rw [argListLoop, List.append_nil]
      rfl
  | cons hstep _ ih =>
      obtain ⟨hne, v, hv, rfl⟩ := hstep
      rw [argListLoop, if_neg hne, hv, ok_bind]
      dsimp only
      rw [ih, List.append_assoc, List.singleton_append]

/-- How far the loop comes, which is to the end if it returns success. -/
lemma argListLoop_pushes {toFloat : BitVec 64 → BitVec 32} {args : List Arg} {retval : Bool}
    (h : argListLoop toFloat toks args before = .ok (retval, elems)) :
    ∃ i new args', Pushes (ArgListStep toFloat) args (toks.take i) new args' ∧
      elems = before ++ new ∧ if retval then i = toks.length else i < toks.length := by
  induction toks generalizing args before with
  | nil =>
      cases h
      exact ⟨0, [], _, .nil _, (List.append_nil _).symm, rfl⟩
  | cons curFmt toks ih =>
      rw [argListLoop] at h
      split_ifs at h with hne
      · cases h
        exact ⟨0, [], _, .nil _, (List.append_nil _).symm, Nat.succ_pos _⟩
      · obtain ⟨⟨v, args'⟩, hv, h⟩ := bind_ok_iff.mp h
        obtain ⟨i, new, args'', hpushes, rfl, hi⟩ := ih h
        exact ⟨i + 1, _, args'', .cons ⟨hne, v, hv, rfl⟩ hpushes,
          (List.append_cons _ _ _).symm, stops_cons hi⟩

lemma argVecLoop_of_pushes {idata : List Slot} {n n' : ℕ} {new : List DataElement}
    (h : Pushes (ArgVecStep idata) n toks new n') (before : List DataElement) :
    argVecLoop idata toks n before = .ok (true, before ++ new, n') := by
  induction h generalizing before with
  | nil s =>
      rw [argVecLoop, List.append_nil]
      rfl
  | cons hstep _ ih =>
      obtain ⟨hne, ⟨v, hv, rfl⟩, rfl⟩ := hstep
      rw [argVecLoop, if_neg hne, hv, ok_bind, ih, List.append_assoc, List.singleton_append]

lemma argVecLoop_pushes {idata : List Slot} {n n' : ℕ} {retval : Bool}
    (h : argVecLoop idata toks n before = .ok (retval, elems, n')) :
    ∃ i new, Pushes (ArgVecStep idata) n (toks.take i) new n' ∧ elems = before ++ new ∧
      if retval then i = toks.length else i < toks.length := by
  induction toks generalizing n before with
  | nil =>
      cases h
      exact ⟨0, [], .nil _, (List.append_nil _).symm, rfl⟩
  | cons curFmt toks ih =>
      rw [argVecLoop] at h
      split_ifs at h with hne
      · cases h
        exact ⟨0, [], .nil _, (List.append_nil _).symm, Nat.succ_pos _⟩
      · obtain ⟨v, hv, h⟩ := bind_ok_iff.mp h
        obtain ⟨i, new, hpushes, rfl, hi⟩ := ih h
        exact ⟨i + 1, _, .cons ⟨hne, ⟨v, hv, rfl⟩, rfl⟩ hpushes,
          (List.append_cons _ _ _).symm, stops_cons hi⟩

section
variable {element : (type : DataType) → DataValue type → Action (DataValue type)} {s s' : Cursor}

lemma decodeLoop_of_pushes {new : List DataElement} (h : Pushes (DecodeStep element) s toks new s')
    (before : List DataElement) :
    decodeLoop element toks before s = .ok ((true, before ++ new), s') := by
  induction h generalizing before with
  | nil s =>
      rw [decodeLoop, List.append_nil]
      rfl
  | cons hstep _ ih =>
      obtain ⟨v, hv, rfl⟩ := hstep
      rw [decodeLoop, Action.bind_run, Action.attempt_ok hv, ok_bind]
      dsimp only
      rw [ih, List.append_assoc, List.singleton_append]

lemma attempt_some {type : DataType} {v w : DataValue type}
    (h : (element type v).attempt s = .ok (some w, s')) : element type v s = .ok (w, s') := by
  rw [Action.attempt] at h
  split at h
  · next hv =>
      cases h
      exact hv
  · cases h
  · cases h

lemma decodeLoop_pushes {retval : Bool}
    (h : decodeLoop element toks before s = .ok ((retval, elems), s')) :
    ∃ i new s'', Pushes (DecodeStep element) s (toks.take i) new s'' ∧ elems = before ++ new ∧
      if retval then i = toks.length else i < toks.length := by
  induction toks generalizing s before with
  | nil =>
      cases h
      exact ⟨0, [], _, .nil _, (List.append_nil _).symm, rfl⟩
  | cons curFmt toks ih =>
      rw [decodeLoop, Action.bind_run] at h
      obtain ⟨⟨val, s₁⟩, hval, h⟩ := bind_ok_iff.mp h
      cases val with
      | none =>
          cases h
          exact ⟨0, [], _, .nil _, (List.append_nil _).symm, Nat.succ_pos _⟩
      | some val =>
          obtain ⟨i, new, s'', hpushes, rfl, hi⟩ := ih h
          exact ⟨i + 1, _, s'', .cons ⟨val, attempt_some hval, rfl⟩ hpushes,
            (List.append_cons _ _ _).symm, stops_cons hi⟩

end

end Steps

/-- The tokens, each with what is at its index in the elements. -/
def pairs (toks : List (List Byte)) (elems : List DataElement) :
    List (List Byte × Option DataElement) :=
  toks.zipIdx.map fun tok => (tok.1, elems[tok.2]?)

/-- A loop that hands every pair to its body, which may end the loop with a result. -/
def overPairs {m : Type → Type} [Monad m] {σ ρ : Type}
    (body : List Byte → Option DataElement → σ → m (ρ ⊕ σ)) (finish : σ → ρ) :
    List (List Byte × Option DataElement) → σ → m ρ
  | [], s => return finish s
  | (tok, elem) :: rest, s => do
      match ← body tok elem s with
      | .inl r => return r
      | .inr s => overPairs body finish rest s

lemma pairs_cons (tok : List Byte) (toks : List (List Byte)) (elems : List DataElement) :
    pairs (tok :: toks) elems = (tok, elems.head?) :: pairs toks elems.tail := by
  rw [pairs, List.zipIdx_cons', List.map_cons, List.map_map, List.head?_eq_getElem?, pairs]
  congr 1
  refine List.map_congr_left fun x _ => ?_
  simp [List.getElem?_tail]

section Steps
variable (host : Host)

/-- An encode looks at the element only. -/
def encodeStep (element : (type : DataType) → DataValue type → Action (DataValue type)) :
    List Byte → Option DataElement → Unit → Action (Unit ⊕ Unit)
  | _, none, _ => Action.stop (.fault .readPast)
  | _, some elem, _ => do
      let _ ← element elem.type elem.val
      return .inr ()

/-- An extraction compares the type of the element with the token, and stores its values.
`advance` says how many entries are passed over. -/
def extractStep {ρ : Type} (fuel : ℕ) (failed : List Slot → ρ)
    (advance : DataElement → List Slot → ℕ) :
    List Byte → Option DataElement → ℕ × List Slot → Run (ρ ⊕ ℕ × List Slot)
  | _, none, _ => throw (.fault .readPast)
  | curFmt, some curElem, (n, stored) =>
      if curElem.type ≠ fmt2Type curFmt then throw (.fault .assertion)
      else if curElem.type = .unknown then return .inl (failed stored)
      else do
        let slots ← extract host fuel curElem.type curElem.val
        let stored ← store stored n slots
        return .inr (n + advance curElem slots, stored)

variable (toks : List (List Byte)) (elems : List DataElement)

lemma encodeLoop_eq (element : (type : DataType) → DataValue type → Action (DataValue type)) :
    encodeLoop element toks elems = overPairs (encodeStep element) id (pairs toks elems) () := by
  induction toks generalizing elems with
  | nil => rfl
  | cons curFmt toks ih =>
      rw [pairs_cons, overPairs]
      cases elems with
      | nil => rfl
      | cons elem elems =>
          rw [encodeLoop, ih]
          simp only [encodeStep, List.head?_cons, List.tail_cons, bind_assoc, pure_bind]

lemma argListOutLoop_eq (fuel n : ℕ) (vars : List Slot) :
    argListOutLoop host fuel toks elems n vars =
      overPairs (extractStep host fuel (fun vars => ((-1 : ℤ), vars)) fun _ slots => slots.length)
        (fun s => (0, s.2)) (pairs toks elems) (n, vars) := by
  induction toks generalizing elems n vars with
  | nil => rfl
  | cons curFmt toks ih =>
      rw [pairs_cons, overPairs]
      cases elems with
      | nil => rfl
      | cons curElem elems =>
          simp only [argListOutLoop, extractStep, List.head?_cons, List.tail_cons]
          split_ifs with htype hunknown
          · rfl
          · rfl
          · simp only [bind_assoc, pure_bind, ih]

lemma argVecOutLoop_eq (fuel n : ℕ) (odata : List Slot) :
    argVecOutLoop host fuel toks elems n odata =
      overPairs (extractStep host fuel (fun odata => (false, odata)) fun e _ => e.type.slotsOut)
        (fun s => (true, s.2)) (pairs toks elems) (n, odata) := by
  induction toks generalizing elems n odata with
  | nil => rfl
  | cons curFmt toks ih =>
      rw [pairs_cons, overPairs]
      cases elems with
      | nil => rfl
      | cons curElem elems =>
          simp only [argVecOutLoop, extractStep, List.head?_cons, List.tail_cons]
          split_ifs with htype hunknown
          · rfl
          · rfl
          · simp only [bind_assoc, pure_bind, ih]

end Steps

/-- The loops over the tokens of a format, with the elements that are in the packet when a decode
starts. -/
structure PairsTokens (toFloat : BitVec 64 → BitVec 32) (host : Host) (fmt : List Byte)
    (before : List DataElement) : Prop where
  argList : ∀ args, MakesInOrder (Tokenizer.tokens fmt delim) fun retval toks elems =>
    argListLoop toFloat toks args [] = .ok (retval, elems)
  argVec : ∀ idata, MakesInOrder (Tokenizer.tokens fmt delim) fun retval toks elems =>
    ∃ n, argVecLoop idata toks 0 [] = .ok (retval, elems, n)
  decode : ∀ byteorder s, MakesInOrder (Tokenizer.tokens fmt delim) fun retval toks elems =>
    ∃ s', decodeLoop (pdrElement host (pdrmemCreate host .decode byteorder)) toks before s =
      .ok ((retval, elems), s')
  encode : ∀ x elems, encodeLoop (pdrElement host x) (Tokenizer.tokens fmt delim) elems =
    overPairs (encodeStep (pdrElement host x)) id (pairs (Tokenizer.tokens fmt delim) elems) ()
  argListOut : ∀ fuel elems vars,
    argListOutLoop host fuel (Tokenizer.tokens fmt delim) elems 0 vars =
      overPairs (extractStep host fuel (fun vars => ((-1 : ℤ), vars)) fun _ slots => slots.length)
        (fun s => (0, s.2)) (pairs (Tokenizer.tokens fmt delim) elems) (0, vars)
  argVecOut : ∀ fuel elems odata,
    argVecOutLoop host fuel (Tokenizer.tokens fmt delim) elems 0 odata =
      overPairs (extractStep host fuel (fun odata => (false, odata)) fun e _ => e.type.slotsOut)
        (fun s => (true, s.2)) (pairs (Tokenizer.tokens fmt delim) elems) (0, odata)

lemma argListLoop_inOrder (toFloat : BitVec 64 → BitVec 32) (toks : List (List Byte))
    (args : List Arg) : MakesInOrder toks fun retval toks elems =>
      argListLoop toFloat toks args [] = .ok (retval, elems) := by
  refine makesInOrder_of_pushes (ArgListStep toFloat) args ?_ ?_ ?_
  · rintro _ _ _ _ ⟨-, v, -, rfl⟩
    rfl
  · intro toks elems args' h
    exact argListLoop_of_pushes h []
  · intro retval toks elems h
    obtain ⟨i, new, args', hpushes, rfl, hi⟩ := argListLoop_pushes h
    exact ⟨i, args', hpushes, hi⟩

lemma argVecLoop_inOrder (toks : List (List Byte)) (idata : List Slot) :
    MakesInOrder toks fun retval toks elems =>
      ∃ n, argVecLoop idata toks 0 [] = .ok (retval, elems, n) := by
  refine makesInOrder_of_pushes (ArgVecStep idata) 0 ?_ ?_ ?_
  · rintro _ _ _ _ ⟨-, ⟨v, -, rfl⟩, -⟩
    rfl
  · intro toks elems n h
    exact ⟨n, argVecLoop_of_pushes h []⟩
  · rintro retval toks elems ⟨n, h⟩
    obtain ⟨i, new, hpushes, rfl, hi⟩ := argVecLoop_pushes h
    exact ⟨i, n, hpushes, hi⟩

lemma decodeLoop_inOrder
    (element : (type : DataType) → DataValue type → Action (DataValue type))
    (toks : List (List Byte)) (s : Cursor) : MakesInOrder toks fun retval toks elems =>
      ∃ s', decodeLoop element toks [] s = .ok ((retval, elems), s') := by
  refine makesInOrder_of_pushes (DecodeStep element) s ?_ ?_ ?_
  · rintro _ _ _ _ ⟨v, -, rfl⟩
    rfl
  · intro toks elems s' h
    exact ⟨s', decodeLoop_of_pushes h []⟩
  · rintro retval toks elems ⟨s', h⟩
    obtain ⟨i, new, s'', hpushes, rfl, hi⟩ := decodeLoop_pushes h
    exact ⟨i, s'', hpushes, hi⟩

/-- The tokens are enumerated for every string, and the loops of a packet are in step with them
exactly if no elements are left in it when a decode starts. -/
theorem pairsTokens_iff (toFloat : BitVec 64 → BitVec 32) (host : Host) (fmt : List Byte)
    (before : List DataElement) :
    ((∀ s delim, Tokenizer.EnumeratesTokens s delim) ∧ PairsTokens toFloat host fmt before) ↔
      before = [] := by
  constructor
  · rintro ⟨-, h⟩
    -- in front of the first token there has to be no element
    have hfirst := (h.decode 0 ⟨[], 0, 0⟩).types 0 before ⟨_, rfl⟩
    exact List.map_eq_nil_iff.mp hfirst
  · rintro rfl
    exact ⟨Tokenizer.enumeratesTokens,
      { argList := argListLoop_inOrder toFloat _
        argVec := argVecLoop_inOrder _
        decode := fun byteorder => decodeLoop_inOrder _ _
        encode := fun x elems => encodeLoop_eq _ elems _
        argListOut := fun fuel elems => argListOutLoop_eq host _ elems fuel 0
        argVecOut := fun fuel elems => argVecOutLoop_eq host _ elems fuel 0 }⟩

/-- `"%d %d"`. -/
def numberPair : CString := ⟨ascii ['%', 'd', ' ', '%', 'd'], by decide⟩

def numberPairHeader : List Byte :=
  headerForm .little ⟨1, 100, 0, some numberPair.block, CArray.empty, pdrByteorder .little⟩

def sixBytes : List Byte := [7, 0, 0, 0, 1, 2]

/-- A received packet with six bytes for two numbers, and with the elements of the decodes so
far. -/
def sixBytesPacket (elems : List DataElement) (hasError : Bool) : Packet :=
  { Packet.blank (BitVec.ofNat 32 numberPairHeader.length) (some numberPairHeader) 6
      (some sixBytes) 0
      with
        toHeaderFields :=
          ⟨1, 100, 0, some numberPair.block, CArray.empty, pdrByteorder .little⟩
        dataElements := elems
        hasError := hasError }

def seven : DataElement := ⟨.int32, (7 : BitVec 32)⟩

/-- The first decode leaves the number of the first token, and the second one adds it again, as
the element after it. -/
theorem sixBytesPacket_not_paired :
    Packet.receive (Host.ample .little) (BitVec.ofNat 32 numberPairHeader.length)
      (some numberPairHeader) 6 (some sixBytes) 0 = .ok (sixBytesPacket [] false) ∧
    (sixBytesPacket [] false).decodePdrData (Host.ample .little) =
      .ok (sixBytesPacket [seven] true) ∧
    (sixBytesPacket [seven] true).decodePdrData (Host.ample .little) =
      .ok (sixBytesPacket [seven, seven] true) ∧
    ¬ ((∀ s delim, Tokenizer.EnumeratesTokens s delim) ∧
      PairsTokens (fun _ => 0) (Host.ample .little) numberPair.chars
        (sixBytesPacket [seven] true).dataElements) := by
  refine ⟨?_, rfl, rfl, fun h => ?_⟩
  · exact (receivedAs_headerForm (Host.ample .little) 0 (Host.ample_allocates _) rfl rfl
      (by decide) sixBytes).1
  · -- behind the first token of the second decode there are two elements
    have htypes := (h.2.decode (pdrByteorder .little) ⟨sixBytes, 0, 6⟩).types 1 [seven, seven]
      ⟨⟨sixBytes, 4, 2⟩, rfl⟩
    have hlength := congrArg List.length htypes
    rw [List.length_map, List.length_map, List.length_take] at hlength
    exact absurd (hlength ▸ min_le_left 1 _) (by decide)

end MRNet.Wire
