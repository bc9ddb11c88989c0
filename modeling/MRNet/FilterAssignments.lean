import MRNet.HostFiles
import MRNet.GraphText

/-!
# Filter assignments

Translation of `simple_parser` and `find_FilterAssignment`. The text is cut at its semicolons,
and each item is read by stream extractions. Ranks are keys of type `int`, with -1 for `*`.
-/
namespace MRNet.FilterAssignments
open SerialGraph (Text find findText findText_eq_none_iff substr atoi isSpace isSpace_of_isDigit)
open WaitForAll (Rank)
open Std (TreeMap)
open Words

def arrow : Text := ['=', '>']

/-- The characters of a number in front, its sign first. -/
def signOf : Text → Bool × Text
  | '-' :: text => (true, text)
  | '+' :: text => (false, text)
  | text => (false, text)

def intOf (negative : Bool) (number : Text) : ℤ :=
  if negative then -(Nat.ofDigitChars 10 number 0 : ℤ) else Nat.ofDigitChars 10 number 0

/-- `ss >> filter`, and what is left of the stream. Without a number, or with one that is no
`int`, the stream fails. -/
def readInt (ss : Text) : ℤ × Option Text :=
  let (negative, text) := signOf (ss.dropWhile isSpace)
  let number := text.takeWhile Char.isDigit
  let filter := intOf negative number
  if number ≠ [] ∧ -2 ^ 31 ≤ filter ∧ filter < 2 ^ 31 then
    (filter, some (text.dropWhile Char.isDigit))
  else (0, none)

/-- `ss >> dummy`. A stream that fails leaves the text empty. -/
def readText (ss : Option Text) : Text × Option Text :=
  match ss.bind (next isSpace) with
  | none => ([], none)
  | some (word, ss) => (word, some ss)

/-- The pieces in front of the semicolons, from a position on. The first two characters of each
are not searched. -/
def splitItems (s : Text) (start : ℕ) : Option (List Text) :=
  match _h : find s ';' (start + arrow.length) with
  | none => none
  | some semi =>
      let a := substr s start (semi - start)
      if s.length ≤ semi + 1 then some [a]
      else
        match findText s arrow (semi + 1) with
        | none => some [a]
        | some _ => (splitItems s (semi + 1)).map (a :: ·)
termination_by s.length - start
decreasing_by
  have := SerialGraph.find_lt _h
  omega

def rankOf (who : Text) : ℤ := if who = ['*'] then -1 else (atoi who).toInt

/-- The rank and the filter of one item. -/
def readItem (a : Text) : Option (ℤ × ℤ) :=
  let (filter, ss) := readInt a
  let (dummy, ss) := readText ss
  let (who, _) := readText ss
  if who.isEmpty then
    match findText dummy arrow 0 with
    | none => none
    | some tmp => some (rankOf (dummy.drop (tmp + arrow.length)), filter)
  else some (rankOf who, filter)

abbrev RankFilters := TreeMap ℤ (List ℤ)

def assign (m : RankFilters) (item : ℤ × ℤ) : RankFilters :=
  m.insert item.1 (m[item.1]?.getD [] ++ [item.2])

/-- The map if the text is parsed. -/
def simpleParser (s : Text) : Option RankFilters :=
  if s.length = 0 then none
  else do
    let assignments ← splitItems s 0
    let items ← assignments.mapM readItem
    return items.foldl assign ∅

/-- The id if one is found. -/
def findFilterAssignment (assignments : Text) (me : Rank) : Option ℤ := do
  let rankFilters ← simpleParser assignments
  match rankFilters[me.toInt]? with
  | some filters => filters.head?
  | none => do
      let filters ← rankFilters[(-1 : ℤ)]?
      filters.head?

/-- Pieces with semicolons behind them. -/
def joined (pieces : List Text) : Text := (pieces.map (· ++ [';'])).flatten

/-- A piece that is cut off at its end. -/
structure IsPiece (p : Text) : Prop where
  noSemicolon : ';' ∉ p.drop arrow.length
  long : arrow.length ≤ p.length

lemma joined_cons (p : Text) (ps : List Text) : joined (p :: ps) = p ++ ';' :: joined ps := by
  rw [joined, joined, List.map_cons, List.flatten_cons, List.append_assoc]
  rfl

lemma find_semicolon {p : Text} (h : IsPiece p) (pre rest : Text) :
    find (pre ++ (p ++ ';' :: rest)) ';' (pre.length + arrow.length) = some (pre ++ p).length := by
  have hlong := h.long
  rw [← List.append_assoc]
  apply SerialGraph.find_at
  · rw [List.length_append]
    omega
  · rw [List.drop_append, List.drop_eq_nil_of_le (by omega), Nat.add_sub_cancel_left]
    exact h.noSemicolon

/-- One piece, and what is behind its semicolon. -/
lemma splitItems_step {p : Text} (h : IsPiece p) (pre rest : Text) :
    splitItems (pre ++ (p ++ ';' :: rest)) pre.length =
      if arrow <:+: rest then
        (splitItems (pre ++ (p ++ [';']) ++ rest) (pre ++ (p ++ [';'])).length).map (p :: ·)
      else some [p] := by
  have hfind := find_semicolon h pre rest
  have htext : pre ++ (p ++ [';']) ++ rest = pre ++ (p ++ ';' :: rest) := by simp
  have hlength : (pre ++ (p ++ [';'])).length = (pre ++ p).length + 1 := by
    simp only [List.length_append, List.length_singleton]
    omega
  have hpiece : substr (pre ++ (p ++ ';' :: rest)) pre.length ((pre ++ p).length - pre.length) = p := by
    rw [substr, List.drop_left, List.length_append, Nat.add_sub_cancel_left, List.take_left]
  have hrest : (pre ++ (p ++ ';' :: rest)).drop ((pre ++ p).length + 1) = rest := by
    rw [← htext, ← hlength, List.drop_left]
  rw [splitItems]
  split
  · next heq => cases hfind.symm.trans heq
  · next semi heq =>
      cases hfind.symm.trans heq
      dsimp only
      rw [hpiece, htext, hlength]
      by_cases hend : (pre ++ (p ++ ';' :: rest)).length ≤ (pre ++ p).length + 1
      · have hnil : rest = [] := by
          rw [← hrest]
          exact List.drop_eq_nil_of_le hend
        rw [if_pos hend, hnil, if_neg (by decide)]
      · rw [if_neg hend]
        by_cases harrow : arrow <:+: rest
        · rw [if_pos harrow]
          cases hfound : findText (pre ++ (p ++ ';' :: rest)) arrow ((pre ++ p).length + 1) with
          | none =>
              rw [findText_eq_none_iff, hrest] at hfound
              exact absurd harrow hfound
          | some i => rfl
        · rw [if_neg harrow, findText_eq_none_iff.mpr (by rw [hrest]; exact harrow)]

/-- The pieces are found if there is an arrow in each and none behind the last one. -/
theorem splitItems_joined {p : Text} {ps : List Text} {tail : Text} (hp : IsPiece p)
    (hps : ∀ p ∈ ps, IsPiece p ∧ arrow <:+: p) (htail : ¬arrow <:+: tail) (pre : Text) :
    splitItems (pre ++ (joined (p :: ps) ++ tail)) pre.length = some (p :: ps) := by
  have hsplit : ∀ rest, joined (p :: ps) ++ rest = p ++ ';' :: (joined ps ++ rest) := by
    intro rest
    rw [joined_cons, List.append_assoc, List.cons_append]
  induction ps generalizing p pre with
  | nil => rw [hsplit, splitItems_step hp, joined, List.map_nil, List.flatten_nil,
      List.nil_append, if_neg htail]
  | cons q qs ih =>
      obtain ⟨hq, harrow⟩ := hps q List.mem_cons_self
      have harrow : arrow <:+: joined (q :: qs) ++ tail := by
        rw [joined_cons, List.append_assoc]
        exact harrow.trans (List.prefix_append _ _).isInfix
      have hnext := ih hq (fun p hp => hps p (List.mem_cons_of_mem _ hp))
        (pre ++ (p ++ [';'])) fun rest => by
          rw [joined_cons, List.append_assoc, List.cons_append]
      rw [hsplit, splitItems_step hp, if_pos harrow, hnext]
      rfl

/-- A text up to a character that was found, and what is behind it. -/
lemma drop_find {s : Text} {c : Char} {start pos i : ℕ} (h : find s c pos = some i)
    (hpos : start ≤ pos) : s.drop start = substr s start (i - start) ++ c :: s.drop (i + 1) := by
  have hlt := SerialGraph.find_lt h
  obtain ⟨j, hj, rfl⟩ := Option.map_eq_some_iff.mp h
  obtain ⟨hjlt, hc, -⟩ := List.findIdx?_eq_some_iff_getElem.mp hj
  rw [List.getElem_drop, decide_eq_true_iff] at hc
  have htail : (s.drop start).drop (j + pos - start) = c :: s.drop (j + pos + 1) := by
    rw [List.drop_drop, Nat.add_sub_cancel' (by omega), List.drop_eq_getElem_cons hlt.2]
    congr 1
    rw [← hc]
    congr 1
    omega
  rw [substr, ← htail, List.take_append_drop]

/-- What the pieces are of a text that is split. -/
theorem splitItems_spec {s : Text} {start : ℕ} {pieces : List Text}
    (h : splitItems s start = some pieces) :
    pieces ≠ [] ∧ ∃ tail, s.drop start = joined pieces ++ tail ∧ ¬arrow <:+: tail := by
  have hone : ∀ (a tail : Text), a ++ ';' :: tail = joined [a] ++ tail := by
    intro a tail
    simp [joined]
  fun_induction splitItems s start generalizing pieces with
  | case1 start hfind => cases h
  | case2 =>
      rename_i start semi hfind a hend
      cases h
      refine ⟨List.cons_ne_nil _ _, [], ?_, by decide⟩
      rw [drop_find hfind (Nat.le_add_right _ _), List.drop_eq_nil_of_le hend, hone]
  | case3 =>
      rename_i start semi hfind a hend hnone
      cases h
      refine ⟨List.cons_ne_nil _ _, s.drop (semi + 1), ?_, findText_eq_none_iff.mp hnone⟩
      rw [drop_find hfind (Nat.le_add_right _ _), hone]
  | case4 =>
      rename_i start semi hfind a hend i hsome ih
      obtain ⟨rest, hrest, rfl⟩ := Option.map_eq_some_iff.mp h
      obtain ⟨-, tail, htail, harrow⟩ := ih hrest
      refine ⟨List.cons_ne_nil _ _, tail, ?_, harrow⟩
      rw [drop_find hfind (Nat.le_add_right _ _), htail, joined_cons, List.append_assoc]
      rfl

/-- What is read of an item behind its number: the target of the arrow. -/
def targetOf (words : List Text) : Option Text :=
  match words with
  | [] => none
  | [dummy] => (findText dummy arrow 0).map fun tmp => dummy.drop (tmp + arrow.length)
  | _ :: who :: _ => some who

lemma readText_some (ss : Text) : readText (some ss) =
    match next isSpace ss with
    | none => ([], none)
    | some (word, ss) => (word, some ss) := rfl

/-- An item in terms of the words behind its number. -/
theorem readItem_eq (a : Text) : readItem a =
    (readInt a).2.bind fun rest =>
      (targetOf (words isSpace rest)).map fun who => (rankOf who, (readInt a).1) := by
  rw [readItem]
  dsimp only
  cases (readInt a).2 with
  | none => rfl
  | some rest =>
      rw [readText_some, Option.bind_some]
      rcases blank_or_word isSpace rest with hblank | ⟨s, w, r, rfl, hs, hw, hr⟩
      · rw [next_eq_none_iff.mpr hblank, words_blank hblank]
        rfl
      · rw [next_split hs hw hr, words_split hs hw hr]
        dsimp only
        rw [readText_some]
        rcases blank_or_word isSpace r with hblank | ⟨s', w', r', rfl, hs', hw', hr'⟩
        · rw [next_eq_none_iff.mpr hblank, words_blank hblank, targetOf]
          rw [List.isEmpty_nil, if_pos rfl]
          cases findText w arrow 0 <;> rfl
        · rw [next_split hs' hw' hr', words_split hs' hw' hr', targetOf]
          dsimp only
          rw [if_neg (by simpa using hw'.ne_nil)]
          rfl

/-- A sign and digits. -/
def IsInteger (text : Text) : Prop :=
  ∃ sign number, (sign = [] ∨ sign = ['-'] ∨ sign = ['+']) ∧ number ≠ [] ∧
    (∀ c ∈ number, c.isDigit = true) ∧ text = sign ++ number

/-- The digits of a rank. -/
structure IsRank (text : Text) : Prop where
  ne_nil : text ≠ []
  digits : ∀ c ∈ text, c.isDigit = true
  small : Nat.ofDigitChars 10 text 0 < 2 ^ 32

def IsTarget (text : Text) : Prop := text = ['*'] ∨ IsRank text

/-- The parts of `id => target`. -/
structure Item where
  before : Text
  id : Text
  toArrow : Text
  fromArrow : Text
  target : Text
  after : Text

namespace Item

/-- What is behind the number. -/
def rest (i : Item) : Text := i.toArrow ++ (arrow ++ (i.fromArrow ++ (i.target ++ i.after)))

def text (i : Item) : Text := i.before ++ (i.id ++ i.rest)

structure IsProper (i : Item) : Prop where
  before : Blank isSpace i.before
  id : IsInteger i.id
  toArrow : Blank isSpace i.toArrow
  fromArrow : Blank isSpace i.fromArrow
  target : IsTarget i.target
  after : Blank isSpace i.after

end Item

lemma arrow_isWord : IsWord isSpace arrow := ⟨by decide, by simp [arrow, isSpace]⟩

lemma IsTarget.isWord {target : Text} (h : IsTarget target) : IsWord isSpace target := by
  rcases h with rfl | h
  · exact ⟨by decide, by simp [isSpace]⟩
  · exact ⟨h.ne_nil, fun c hc => isSpace_of_isDigit (h.digits c hc)⟩

/-- The words behind the number of an item. -/
lemma Item.IsProper.words {i : Item} (h : i.IsProper) : words isSpace i.rest =
    if i.fromArrow = [] then [arrow ++ i.target] else [arrow, i.target] := by
  have htarget := h.target.isWord
  rw [Item.rest]
  split_ifs with hnil
  · have hjoined : IsWord isSpace (arrow ++ i.target) :=
      ⟨by simp [arrow], fun c hc => by
        rcases List.mem_append.mp hc with hc | hc
        · exact arrow_isWord.solid c hc
        · exact htarget.solid c hc⟩
    have hafter : Apart isSpace i.after := by
      have hblank := h.after.apart_append (r := []) apart_nil
      rwa [List.append_nil] at hblank
    rw [hnil, List.nil_append, ← List.append_assoc arrow, words_split h.toArrow hjoined hafter,
      words_blank h.after]
  · have hafter : Apart isSpace i.after := by
      have hblank := h.after.apart_append (r := []) apart_nil
      rwa [List.append_nil] at hblank
    have hfrom : Apart isSpace (i.fromArrow ++ (i.target ++ i.after)) := by
      obtain ⟨c, l, heq⟩ := List.exists_cons_of_ne_nil hnil
      have hc := h.fromArrow
      rw [heq] at hc ⊢
      exact apart_cons (hc c List.mem_cons_self)
    rw [words_split h.toArrow arrow_isWord hfrom, words_split h.fromArrow htarget hafter,
      words_blank h.after]

lemma targetOf_joined (target : Text) : targetOf [arrow ++ target] = some target := by
  have hfound : findText (arrow ++ target) arrow 0 = some 0 := by
    rw [findText, List.drop_zero, arrow, List.cons_append, List.tails_cons, List.findIdx?_cons]
    simp
  rw [targetOf, hfound, Option.map_some, Nat.zero_add, List.drop_left]

lemma targetOf_apart (target : Text) : targetOf [arrow, target] = some target := rfl

/-- A number in front of something else. -/
lemma readInt_integer {before sign number rest : Text} (hbefore : Blank isSpace before)
    (hsign : sign = [] ∨ sign = ['-'] ∨ sign = ['+']) (hne : number ≠ [])
    (hdigits : ∀ c ∈ number, c.isDigit = true) (hrest : ∀ c ∈ rest.head?, c.isDigit = false) :
    readInt (before ++ (sign ++ number ++ rest)) =
      if -2 ^ 31 ≤ intOf (decide (sign = ['-'])) number ∧
          intOf (decide (sign = ['-'])) number < 2 ^ 31 then
        (intOf (decide (sign = ['-'])) number, some rest)
      else (0, none) := by
  obtain ⟨d, ds, rfl⟩ := List.exists_cons_of_ne_nil hne
  have hd := hdigits d List.mem_cons_self
  have hskip : (before ++ (sign ++ (d :: ds) ++ rest)).dropWhile isSpace =
      sign ++ (d :: ds) ++ rest := by
    rw [dropWhile_blank hbefore]
    rcases hsign with rfl | rfl | rfl
    · exact List.dropWhile_cons_of_neg (by simp [isSpace_of_isDigit hd])
    · exact List.dropWhile_cons_of_neg (by simp [isSpace])
    · exact List.dropWhile_cons_of_neg (by simp [isSpace])
  have hstart : signOf (sign ++ (d :: ds) ++ rest) =
      (decide (sign = ['-']), (d :: ds) ++ rest) := by
    rcases hsign with rfl | rfl | rfl
    · rw [List.nil_append, List.cons_append, signOf]
      · rfl
      · rintro text heq
        cases heq
        cases hd
      · rintro text heq
        cases heq
        cases hd
    · rfl
    · rfl
  have hstop : rest.takeWhile Char.isDigit = [] ∧ rest.dropWhile Char.isDigit = rest := by
    cases rest with
    | nil => exact ⟨rfl, rfl⟩
    | cons c rest =>
        have hc := hrest c rfl
        exact ⟨List.takeWhile_cons_of_neg (by simp [hc]), List.dropWhile_cons_of_neg (by simp [hc])⟩
  have htake : ((d :: ds) ++ rest).takeWhile Char.isDigit = d :: ds := by
    rw [List.takeWhile_append_of_pos hdigits, hstop.1, List.append_nil]
  have hdrop : ((d :: ds) ++ rest).dropWhile Char.isDigit = rest := by
    rw [List.dropWhile_append_of_pos hdigits, hstop.2]
  rw [readInt, hskip, hstart]
  dsimp only
  rw [htake, hdrop]
  simp only [ne_eq, hne, not_false_eq_true, true_and]

namespace Item
variable {i : Item}

lemma head_rest (h : i.IsProper) : ∀ c ∈ i.rest.head?, c.isDigit = false := by
  intro c hc
  rw [Item.rest] at hc
  cases hto : i.toArrow with
  | nil =>
      rw [hto] at hc
      cases hc
      rfl
  | cons d l =>
      rw [hto] at hc
      cases hc
      by_contra hdigit
      rw [Bool.not_eq_false] at hdigit
      have hspace := h.toArrow c (by rw [hto]; exact List.mem_cons_self)
      rw [isSpace_of_isDigit hdigit] at hspace
      cases hspace

/-- A proper item is read if its number is an `int`. -/
theorem readItem_proper (h : i.IsProper) {sign number : Text}
    (hsign : sign = [] ∨ sign = ['-'] ∨ sign = ['+']) (hne : number ≠ [])
    (hdigits : ∀ c ∈ number, c.isDigit = true) (hid : i.id = sign ++ number)
    (hlow : -2 ^ 31 ≤ intOf (decide (sign = ['-'])) number)
    (hhigh : intOf (decide (sign = ['-'])) number < 2 ^ 31) :
    readItem i.text = some (rankOf i.target, intOf (decide (sign = ['-'])) number) := by
  have hread := readInt_integer h.before hsign hne hdigits (head_rest h)
  rw [if_pos ⟨hlow, hhigh⟩, ← hid] at hread
  rw [readItem_eq, Item.text, hread]
  dsimp only
  rw [Option.bind_some, h.words]
  split_ifs
  · rw [targetOf_joined]
    rfl
  · rw [targetOf_apart]
    rfl

/-- A proper item has no semicolon, so that it is a piece. -/
lemma isPiece (h : i.IsProper) : IsPiece i.text := by
  have hblank : ∀ {l : Text}, Blank isSpace l → ';' ∉ l := by
    intro l hl hmem
    exact absurd (hl _ hmem) (by simp [isSpace])
  have hid : ';' ∉ i.id := by
    obtain ⟨sign, number, hsign, -, hdigits, hid⟩ := h.id
    rw [hid, List.mem_append, not_or]
    refine ⟨by rcases hsign with rfl | rfl | rfl <;> decide, fun hmem => ?_⟩
    cases hdigits _ hmem
  have htarget : ';' ∉ i.target := by
    rcases h.target with heq | hrank
    · rw [heq]
      decide
    · intro hmem
      cases hrank.digits _ hmem
  have hsemicolon : ';' ∉ i.text := by
    simp only [Item.text, Item.rest, List.mem_append, not_or]
    exact ⟨hblank h.before, hid, hblank h.toArrow, by decide, hblank h.fromArrow, htarget,
      hblank h.after⟩
  refine ⟨fun hmem => hsemicolon (List.mem_of_mem_drop hmem), ?_⟩
  simp only [Item.text, Item.rest, List.length_append]
  omega

lemma arrow_infix (i : Item) : arrow <:+: i.text := by
  refine ⟨i.before ++ (i.id ++ i.toArrow), i.fromArrow ++ (i.target ++ i.after), ?_⟩
  simp [Item.text, Item.rest]

end Item

/-- Proper items with semicolons behind them, and no arrow behind the last one. -/
theorem splitItems_items {items : List Item} (hne : items ≠ []) (h : ∀ i ∈ items, i.IsProper)
    {tail : Text} (htail : ¬arrow <:+: tail) :
    splitItems (joined (items.map Item.text) ++ tail) 0 = some (items.map Item.text) := by
  obtain ⟨i, is, rfl⟩ := List.exists_cons_of_ne_nil hne
  refine splitItems_joined (Item.isPiece (h i List.mem_cons_self)) (fun p hp => ?_) htail []
  obtain ⟨j, hj, rfl⟩ := List.mem_map.mp hp
  exact ⟨Item.isPiece (h j (List.mem_cons_of_mem _ hj)), j.arrow_infix⟩

end MRNet.FilterAssignments
