import MRNet.GenericTree

/-!
# What a generic specification lists

Levels are separated by colons and the items of a level by commas. The last part of an item that
is divided by `x` is a number of children, and the part before it tells how often it is listed.
-/
namespace MRNet.TopologyFile.GenericTree
open Codec
open SerialGraph (Text atoi)

variable {m : BitVec 32} {item text level : Text} {c : Char} {n : ℕ} {s : ParseState}

def childSpecs (m : BitVec 32) : List Text → List (BitVec 32)
  | [] => []
  | [count] => List.replicate m.toNat (atoi count)
  | multiplier :: parts => childSpecs (atoi multiplier) parts

def itemNumbers (item : Text) : List (BitVec 32) := childSpecs 1 (item.splitOn 'x')

def levelNumbers (level : Text) : List (BitVec 32) := (level.splitOn ',').flatMap itemNumbers

/-- The numbers of children that are listed for each level. -/
def listed (spec : Text) : ChildrenByLevel := ((cStr spec).splitOn ':').map levelNumbers

/-- What a level lists when a part of its first item was read. -/
def levelFrom (m : BitVec 32) (item level : Text) : List (BitVec 32) :=
  match level.splitOn ',' with
  | [] => []
  | first :: rest =>
      childSpecs m ((first.splitOn 'x').modifyHead (item ++ ·)) ++ rest.flatMap itemNumbers

lemma splitOn_cons (a c : Char) (text : Text) : (c :: text).splitOn a =
    if c = a then [] :: text.splitOn a else (text.splitOn a).modifyHead (c :: ·) := by
  rw [List.splitOn, List.splitOnP_cons_eq_if_modifyHead]
  exact if_congr (by simp) rfl rfl

lemma exists_splitOn (a : Char) (text : Text) : ∃ first rest, text.splitOn a = first :: rest :=
  List.exists_cons_of_ne_nil (List.splitOnP_ne_nil _ _)

lemma levelNumbers_eq (level : Text) : levelNumbers level = levelFrom 1 [] level := by
  obtain ⟨first, rest, hsplit⟩ := exists_splitOn ',' level
  have hhead : (first.splitOn 'x').modifyHead ([] ++ ·) = first.splitOn 'x' := by
    cases first.splitOn 'x' <;> rfl
  rw [levelNumbers, levelFrom, hsplit]
  dsimp only
  rw [hhead, List.flatMap_cons]
  rfl

lemma levelFrom_nil : levelFrom m item [] = List.replicate m.toNat (atoi item) := by
  simp [levelFrom, List.splitOn, childSpecs]

lemma levelFrom_comma : levelFrom m item (',' :: level) =
    List.replicate m.toNat (atoi item) ++ levelNumbers level := by
  rw [levelFrom, splitOn_cons, if_pos rfl, levelNumbers]
  simp [List.splitOn, childSpecs]

lemma levelFrom_x : levelFrom m item ('x' :: level) = levelFrom (atoi item) [] level := by
  obtain ⟨first, rest, hsplit⟩ := exists_splitOn ',' level
  obtain ⟨part, parts, hparts⟩ := exists_splitOn 'x' first
  rw [levelFrom, levelFrom, splitOn_cons, if_neg (by decide), hsplit, List.modifyHead_cons]
  dsimp only
  rw [splitOn_cons, if_pos rfl, hparts]
  simp [childSpecs]

lemma levelFrom_cons (hcomma : c ≠ ',') (hx : c ≠ 'x') :
    levelFrom m item (c :: level) = levelFrom m (item ++ [c]) level := by
  obtain ⟨first, rest, hsplit⟩ := exists_splitOn ',' level
  obtain ⟨part, parts, hparts⟩ := exists_splitOn 'x' first
  rw [levelFrom, levelFrom, splitOn_cons, if_neg hcomma, hsplit, List.modifyHead_cons]
  dsimp only
  rw [splitOn_cons, if_neg hx, hparts]
  simp

/-- What a text lists when a part of its first level was read. -/
def listedFrom (s : ParseState) (text : Text) : ChildrenByLevel :=
  match text.splitOn ':' with
  | [] => []
  | first :: rest =>
      (s.curLevel ++ levelFrom s.multiplier s.curItem first) :: rest.map levelNumbers

lemma listedFrom_nil : listedFrom s [] = [s.childSpec] := by
  simp [listedFrom, List.splitOn, levelFrom_nil, ParseState.childSpec]

lemma listedFrom_colon : listedFrom s (':' :: text) =
    s.childSpec :: (text.splitOn ':').map levelNumbers := by
  rw [listedFrom, splitOn_cons, if_pos rfl]
  dsimp only
  rw [levelFrom_nil]
  rfl

/-- A character of the level that was read gives another state. -/
lemma listedFrom_cons {s' : ParseState} (hc : c ≠ ':')
    (hstep : ∀ level, s.curLevel ++ levelFrom s.multiplier s.curItem (c :: level) =
      s'.curLevel ++ levelFrom s'.multiplier s'.curItem level) :
    listedFrom s (c :: text) = listedFrom s' text := by
  obtain ⟨first, rest, hsplit⟩ := exists_splitOn ':' text
  rw [listedFrom, listedFrom, splitOn_cons, if_neg hc, hsplit, List.modifyHead_cons]
  dsimp only
  rw [hstep]

lemma listedFrom_comma : listedFrom s (',' :: text) = listedFrom s.nextItem text :=
  listedFrom_cons (by decide) fun level => by
    rw [levelFrom_comma, levelNumbers_eq, ← List.append_assoc]
    rfl

lemma listedFrom_x : listedFrom s ('x' :: text) = listedFrom s.multiply text :=
  listedFrom_cons (by decide) fun level => by
    rw [levelFrom_x]
    rfl

lemma listedFrom_digit (hc : c ≠ ',' ∧ c ≠ ':' ∧ c ≠ 'x') :
    listedFrom s (c :: text) = listedFrom { s with curItem := s.curItem ++ [c] } text :=
  listedFrom_cons hc.2.1 fun level => by rw [levelFrom_cons hc.1 hc.2.2]

lemma listedFrom_start (text : Text) (levels : ChildrenByLevel) (firstTime : Bool) :
    listedFrom ⟨levels, [], [], 1, firstTime⟩ text = (text.splitOn ':').map levelNumbers := by
  obtain ⟨first, rest, hsplit⟩ := exists_splitOn ':' text
  rw [listedFrom, hsplit]
  dsimp only
  rw [← levelNumbers_eq]
  rfl

def IsSpecChar (c : Char) : Prop := c = ',' ∨ c = ':' ∨ c = 'x' ∨ c.isDigit = true

instance : DecidablePred IsSpecChar := fun _ => inferInstanceAs (Decidable (_ ∨ _))

/-- Some digits were read. Before a character that is not accepted, 16 of them come before the end
of an item, or more. -/
def Overlong : ℕ → Text → Prop
  | digits, [] => 16 ≤ digits
  | digits, c :: text =>
      if c = ',' ∨ c = ':' ∨ c = 'x' then 16 ≤ digits ∨ Overlong 0 text
      else c.isDigit = true ∧ (16 ≤ digits ∨ Overlong (digits + 1) text)

instance decidableOverlong : ∀ (digits : ℕ) (text : Text), Decidable (Overlong digits text)
  | digits, [] => inferInstanceAs (Decidable (16 ≤ digits))
  | digits, c :: text =>
      have := decidableOverlong 0 text
      have := decidableOverlong (digits + 1) text
      inferInstanceAs (Decidable (if c = ',' ∨ c = ':' ∨ c = 'x' then _ else _))

def firstLevel (text : Text) : Text := text.takeWhile (· ≠ ':')

/-- The first level lists one number. -/
def OneFirst (text : Text) : Prop := (levelNumbers (firstLevel text)).length = 1

instance : Decidable (OneFirst text) := inferInstanceAs (Decidable (_ = _))

/-- What is read: nothing behind a first level that is refused. -/
def readText (spec : Text) : Text :=
  if OneFirst (cStr spec) then cStr spec else firstLevel (cStr spec)

/-- An item has more digits than there is room for. -/
def ItemTooLong (spec : Text) : Prop := Overlong 0 (readText spec)

instance {spec : Text} : Decidable (ItemTooLong spec) := inferInstanceAs (Decidable (Overlong _ _))

def Accepted (spec : Text) : Prop :=
  OneFirst (cStr spec) ∧ ∀ c ∈ cStr spec, IsSpecChar c

instance {spec : Text} : Decidable (Accepted spec) :=
  have : Decidable (∀ c ∈ cStr spec, IsSpecChar c) := List.decidableBAll _ _
  inferInstanceAs (Decidable (OneFirst (cStr spec) ∧ _))

/-- How the levels behind the first are read. -/
def readLevels (s : ParseState) (text : Text) : Outcome (Option ChildrenByLevel) :=
  if Overlong s.curItem.length text then throw (.fault .storePast)
  else if ∀ c ∈ text, IsSpecChar c then return some (s.levels ++ listedFrom s text)
  else return none

lemma overlong_separator (hc : c = ',' ∨ c = ':' ∨ c = 'x') :
    Overlong n (c :: text) ↔ 16 ≤ n ∨ Overlong 0 text := by
  rw [Overlong, if_pos hc]

lemma overlong_other (hc : c ≠ ',' ∧ c ≠ ':' ∧ c ≠ 'x') :
    Overlong n (c :: text) ↔ c.isDigit = true ∧ (16 ≤ n ∨ Overlong (n + 1) text) := by
  rw [Overlong, if_neg (by tauto)]

lemma readLevels_invalid (hc : ¬IsSpecChar c) : readLevels s (c :: text) = return none := by
  have hother : c ≠ ',' ∧ c ≠ ':' ∧ c ≠ 'x' := by
    unfold IsSpecChar at hc
    tauto
  have hnot : ¬Overlong s.curItem.length (c :: text) := by
    rw [overlong_other hother]
    exact fun h => hc (.inr (.inr (.inr h.1)))
  rw [readLevels, if_neg hnot, if_neg fun h => hc (h c List.mem_cons_self)]

/-- A character that stays in the buffer's room gives another state. -/
lemma readLevels_congr {s' : ParseState} (hspec : IsSpecChar c)
    (hlong : Overlong s.curItem.length (c :: text) ↔ Overlong s'.curItem.length text)
    (hlisted : s.levels ++ listedFrom s (c :: text) = s'.levels ++ listedFrom s' text) :
    readLevels s (c :: text) = readLevels s' text := by
  rw [readLevels, readLevels, hlisted]
  refine if_congr hlong rfl (if_congr ?_ rfl rfl)
  rw [List.forall_mem_cons]
  exact and_iff_right hspec

lemma terminate_long (hlong : 16 ≤ item.length) {α : Type} (f : Unit → Outcome α) :
    terminate item >>= f = throw (.fault .storePast) := by
  rw [terminate, if_neg (by omega)]
  rfl

lemma terminate_short (hshort : ¬16 ≤ item.length) {α : Type} (f : Unit → Outcome α) :
    terminate item >>= f = f () := by
  rw [terminate, if_pos (by omega)]
  rfl

/-- A separator ends the item. -/
lemma readLevels_separator {s' : ParseState} (hc : c = ',' ∨ c = ':' ∨ c = 'x')
    (hitem : s'.curItem = [])
    (hlisted : s.levels ++ listedFrom s (c :: text) = s'.levels ++ listedFrom s' text) :
    readLevels s (c :: text) = (do terminate s.curItem; readLevels s' text) := by
  have hspec : IsSpecChar c := by
    unfold IsSpecChar
    tauto
  by_cases hlong : 16 ≤ s.curItem.length
  · rw [readLevels, if_pos ((overlong_separator hc).mpr (.inl hlong)), terminate_long hlong]
  · rw [terminate_short hlong]
    refine readLevels_congr hspec ?_ hlisted
    rw [overlong_separator hc, or_iff_right hlong, hitem]
    rfl

lemma readLevels_digit (hc : c ≠ ',' ∧ c ≠ ':' ∧ c ≠ 'x') (hdigit : c.isDigit = true) :
    readLevels s (c :: text) =
      (do let curItem ← storeItem s.curItem c; readLevels { s with curItem } text) := by
  by_cases hlong : 16 ≤ s.curItem.length
  · rw [readLevels, if_pos ((overlong_other hc).mpr ⟨hdigit, .inl hlong⟩), storeItem,
      if_neg (by omega)]
    rfl
  · rw [storeItem, if_pos (by omega)]
    refine readLevels_congr (.inr (.inr (.inr hdigit))) ?_ (congrArg _ (listedFrom_digit hc))
    rw [overlong_other hc, and_iff_right hdigit, or_iff_right hlong, List.length_append]
    rfl

lemma readLevels_comma :
    readLevels s (',' :: text) = (do terminate s.curItem; readLevels s.nextItem text) :=
  readLevels_separator (.inl rfl) rfl (congrArg _ listedFrom_comma)

lemma readLevels_x :
    readLevels s ('x' :: text) = (do terminate s.curItem; readLevels s.multiply text) :=
  readLevels_separator (.inr (.inr rfl)) rfl (congrArg _ listedFrom_x)

lemma readLevels_colon :
    readLevels s (':' :: text) = (do terminate s.curItem; readLevels s.nextLevel text) := by
  refine readLevels_separator (.inr (.inl rfl)) rfl ?_
  rw [listedFrom_colon, ParseState.nextLevel, listedFrom_start]
  exact List.append_cons _ _ _

lemma readLevels_nil : readLevels s [] =
    (do terminate s.curItem; return some (s.levels ++ [s.childSpec])) := by
  by_cases hlong : 16 ≤ s.curItem.length
  · rw [terminate_long hlong]
    exact if_pos hlong
  · rw [terminate_short hlong, readLevels, listedFrom_nil]
    exact (if_neg hlong).trans (if_pos nofun)

/-- The levels behind the first one. -/
theorem parse_rest (text : Text) (s : ParseState) (hfirst : s.firstTime = false) :
    parse text s = readLevels s text := by
  have hrefused : ¬(s.firstTime = true ∧ s.childSpec.length ≠ 1) := by simp [hfirst]
  induction text generalizing s with
  | nil => rw [parse, if_neg hrefused, readLevels_nil]
  | cons c text ih =>
      have hnext (s : ParseState) (hfirst : s.firstTime = false) :
          parse text s = readLevels s text := ih s hfirst (by simp [hfirst])
      rw [parse]
      split_ifs with hcomma hcolon hx hdigit
      · rw [hcomma, readLevels_comma, hnext s.nextItem hfirst]
      · rw [hcolon, readLevels_colon, hnext s.nextLevel rfl]
      · rw [hx, readLevels_x, hnext s.multiply hfirst]
      · rw [readLevels_digit ⟨hcomma, hcolon, hx⟩ hdigit]
        refine congrArg _ (funext fun curItem => hnext _ hfirst)
      · refine (readLevels_invalid ?_).symm
        unfold IsSpecChar
        tauto

/-- What the first level lists when a part of it was read. -/
def firstNumbers (s : ParseState) (text : Text) : List (BitVec 32) :=
  s.curLevel ++ levelFrom s.multiplier s.curItem (firstLevel text)

/-- How all levels are read, with one number or with others on the first level. -/
def readFirst (s : ParseState) (text : Text) : Outcome (Option ChildrenByLevel) :=
  if (firstNumbers s text).length = 1 then readLevels s text
  else if Overlong s.curItem.length (firstLevel text) then throw (.fault .storePast)
  else return none

lemma firstLevel_cons (hc : c ≠ ':') : firstLevel (c :: text) = c :: firstLevel text :=
  List.takeWhile_cons_of_pos (by simpa using hc)

lemma readFirst_end (htext : text = [] ∨ ∃ rest, text = ':' :: rest) : readFirst s text =
    if s.childSpec.length = 1 then readLevels s text
    else (do terminate s.curItem; return none) := by
  have hfirst : firstLevel text = [] := by
    rcases htext with rfl | ⟨rest, rfl⟩
    · rfl
    · exact List.takeWhile_cons_of_neg (by simp)
  have hnumbers : firstNumbers s text = s.childSpec := by
    rw [firstNumbers, hfirst, levelFrom_nil]
    rfl
  rw [readFirst, hnumbers, hfirst]
  refine if_congr Iff.rfl rfl ?_
  by_cases hlong : 16 ≤ s.curItem.length
  · rw [terminate_long hlong]
    exact if_pos hlong
  · rw [terminate_short hlong]
    exact if_neg hlong

lemma readFirst_long (hc : c ≠ ':') (hlong : ∀ text, Overlong s.curItem.length (c :: text)) :
    readFirst s (c :: text) = throw (.fault .storePast) := by
  rw [readFirst, readLevels, if_pos (hlong text), firstLevel_cons hc, if_pos (hlong _), ite_self]

/-- A character of the first level. -/
lemma readFirst_congr {s' : ParseState} (hc : c ≠ ':') (hspec : IsSpecChar c)
    (hlong : ∀ text, Overlong s.curItem.length (c :: text) ↔ Overlong s'.curItem.length text)
    (hlevels : s'.levels = s.levels)
    (hstep : ∀ level, s.curLevel ++ levelFrom s.multiplier s.curItem (c :: level) =
      s'.curLevel ++ levelFrom s'.multiplier s'.curItem level) :
    readFirst s (c :: text) = readFirst s' text := by
  have hnumbers : firstNumbers s (c :: text) = firstNumbers s' text := by
    rw [firstNumbers, firstLevel_cons hc, hstep]
    rfl
  have hlisted : listedFrom s (c :: text) = listedFrom s' text := listedFrom_cons hc hstep
  rw [readFirst, readFirst, hnumbers, readLevels_congr hspec (hlong text) (by rw [hlevels, hlisted]),
    firstLevel_cons hc]
  exact if_congr Iff.rfl rfl (if_congr (hlong _) rfl rfl)

lemma readFirst_invalid (hc : ¬IsSpecChar c) : readFirst s (c :: text) = return none := by
  have hcolon : c ≠ ':' := fun heq => hc (.inr (.inl heq))
  have hother : c ≠ ',' ∧ c ≠ ':' ∧ c ≠ 'x' := by
    unfold IsSpecChar at hc
    tauto
  have hnot : ¬Overlong s.curItem.length (c :: firstLevel text) := by
    rw [overlong_other hother]
    exact fun h => hc (.inr (.inr (.inr h.1)))
  rw [readFirst, readLevels_invalid hc, firstLevel_cons hcolon, if_neg hnot, ite_self]

theorem parse_first (text : Text) (s : ParseState) (hfirst : s.firstTime = true) :
    parse text s = readFirst s text := by
  induction text generalizing s with
  | nil =>
      rw [parse, readFirst_end (.inl rfl), hfirst, readLevels_nil]
      by_cases hone : s.childSpec.length = 1
      · rw [if_pos hone, if_neg fun h => h.2 hone]
      · rw [if_neg hone, if_pos ⟨rfl, hone⟩]
  | cons c text ih =>
      rw [parse]
      split_ifs with hcomma hcolon hrefused hx hdigit
      · subst hcomma
        by_cases hlong : 16 ≤ s.curItem.length
        · rw [terminate_long hlong, readFirst_long (by decide) fun text =>
            (overlong_separator (.inl rfl)).mpr (.inl hlong)]
        · rw [terminate_short hlong, ih s.nextItem hfirst, eq_comm]
          refine readFirst_congr (by decide) (.inl rfl) (fun text => ?_) rfl fun level => ?_
          · exact (overlong_separator (.inl rfl)).trans (or_iff_right hlong)
          · rw [levelFrom_comma, levelNumbers_eq, ← List.append_assoc]
            rfl
      · rw [hcolon, readFirst_end (.inr ⟨text, rfl⟩), if_neg hrefused.2]
      · have hone : s.childSpec.length = 1 := not_not.mp fun hne => hrefused ⟨hfirst, hne⟩
        rw [hcolon, readFirst_end (.inr ⟨text, rfl⟩), if_pos hone, readLevels_colon,
          parse_rest text s.nextLevel rfl]
      · subst hx
        by_cases hlong : 16 ≤ s.curItem.length
        · rw [terminate_long hlong, readFirst_long (by decide) fun text =>
            (overlong_separator (.inr (.inr rfl))).mpr (.inl hlong)]
        · rw [terminate_short hlong, ih s.multiply hfirst, eq_comm]
          refine readFirst_congr (by decide) (.inr (.inr (.inl rfl))) (fun text => ?_) rfl
            fun level => by rw [levelFrom_x]; rfl
          exact (overlong_separator (.inr (.inr rfl))).trans (or_iff_right hlong)
      · have hother : c ≠ ',' ∧ c ≠ ':' ∧ c ≠ 'x' := ⟨hcomma, hcolon, hx⟩
        by_cases hlong : 16 ≤ s.curItem.length
        · rw [storeItem, if_neg (by omega), readFirst_long hcolon fun text =>
            (overlong_other hother).mpr ⟨hdigit, .inl hlong⟩]
          rfl
        · rw [storeItem, if_pos (by omega)]
          refine (ih { s with curItem := s.curItem ++ [c] } hfirst).trans ?_
          rw [eq_comm]
          refine readFirst_congr hcolon (.inr (.inr (.inr hdigit))) (fun text => ?_) rfl
            fun level => by rw [levelFrom_cons hcomma hx]
          rw [overlong_other hother, and_iff_right hdigit, or_iff_right hlong, List.length_append]
          rfl
      · refine (readFirst_invalid ?_).symm
        unfold IsSpecChar
        tauto

/-- The specification is read as it lists the numbers, or refused, or an item is too long. -/
theorem parseSpec_eq (spec : Text) : parseSpec spec =
    if ItemTooLong spec then throw (.fault .storePast)
    else return if Accepted spec then some (listed spec) else none := by
  have hnumbers : firstNumbers ⟨[], [], [], 1, true⟩ (cStr spec) =
      levelNumbers (firstLevel (cStr spec)) := (levelNumbers_eq _).symm
  rw [parseSpec, parse_first _ _ rfl, readFirst, hnumbers]
  by_cases hone : OneFirst (cStr spec)
  · have hread : readText spec = cStr spec := if_pos hone
    have hlong : ItemTooLong spec ↔ Overlong 0 (cStr spec) := by rw [ItemTooLong, hread]
    have haccepted : Accepted spec ↔ ∀ c ∈ cStr spec, IsSpecChar c := and_iff_right hone
    have hlength : (levelNumbers (firstLevel (cStr spec))).length = 1 := hone
    rw [if_pos hlength, readLevels, listedFrom_start]
    refine if_congr hlong.symm rfl ?_
    by_cases hchars : ∀ c ∈ cStr spec, IsSpecChar c
    · rw [if_pos hchars, if_pos (haccepted.mpr hchars)]
      rfl
    · rw [if_neg hchars, if_neg (mt haccepted.mp hchars)]
  · have hread : readText spec = firstLevel (cStr spec) := if_neg hone
    have hlong : ItemTooLong spec ↔ Overlong 0 (firstLevel (cStr spec)) := by
      rw [ItemTooLong, hread]
    have hlength : ¬(levelNumbers (firstLevel (cStr spec))).length = 1 := hone
    rw [if_neg hlength, if_neg fun h : Accepted spec => hone h.1]
    exact if_congr hlong.symm rfl rfl

end MRNet.TopologyFile.GenericTree
