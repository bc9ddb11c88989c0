import MRNet.AssignedFilters

/-!
# Accepted texts of assignments

The parser looks for a number and a word behind it, and for an arrow if there is no other word.
What it does not look at can be anything.
-/
namespace MRNet.FilterAssignments
open SerialGraph (Text find findText findText_eq_none_iff substr atoi isSpace)
open WaitForAll (Rank)
open Words

/-- One or more items, possibly followed by text without an arrow. -/
def IsWellFormed (s : Text) : Prop :=
  ∃ items : List Item, items ≠ [] ∧ (∀ i ∈ items, i.IsProper) ∧
    ∃ tail, s = joined (items.map Item.text) ++ tail ∧ ¬arrow <:+: tail

/-- What is looked at: the number in front, and the arrow if only one word is behind it. -/
def Refused (a : Text) : Prop :=
  (readInt a).2 = none ∨ ∃ rest, (readInt a).2 = some rest ∧
    (words isSpace rest = [] ∨ ∃ dummy, words isSpace rest = [dummy] ∧ ¬arrow <:+: dummy)

/-- What is not looked at in the words behind a number. -/
inductive Unchecked : List Text → Prop
  | front {dummy who : Text} (h : targetOf [dummy] = some who) (hne : dummy ≠ arrow ++ who) :
      Unchecked [dummy]
  | between {dummy : Text} (who : Text) (more : List Text) (hne : dummy ≠ arrow) :
      Unchecked (dummy :: who :: more)
  | behind (dummy who next : Text) (more : List Text) : Unchecked (dummy :: who :: next :: more)
  | target {words : List Text} {who : Text} (h : targetOf words = some who) (hne : ¬IsTarget who) :
      Unchecked words

lemma targetOf_eq_none_iff {ws : List Text} :
    targetOf ws = none ↔ ws = [] ∨ ∃ dummy, ws = [dummy] ∧ ¬arrow <:+: dummy := by
  rcases ws with - | ⟨dummy, - | ⟨who, more⟩⟩
  · simp [targetOf]
  · rw [targetOf, Option.map_eq_none_iff, findText_eq_none_iff, List.drop_zero]
    simp
  · simp [targetOf]

lemma readItem_eq_none_iff {a : Text} : readItem a = none ↔ Refused a := by
  rw [readItem_eq, Refused]
  cases hread : (readInt a).2 with
  | none => simp
  | some rest =>
      rw [Option.bind_some, Option.map_eq_none_iff, targetOf_eq_none_iff]
      simp

/-- What stands in front of the rest of an item. -/
lemma readInt_some {a rest : Text} (h : (readInt a).2 = some rest) :
    ∃ before id, a = before ++ (id ++ rest) ∧ Blank isSpace before ∧ IsInteger id := by
  have hblank : Blank isSpace (a.takeWhile isSpace) := fun c hc => List.mem_takeWhile_imp hc
  have hsplit := List.takeWhile_append_dropWhile (p := isSpace) (l := a)
  rw [readInt] at h
  have hsign : ∃ sign, (sign = [] ∨ sign = ['-'] ∨ sign = ['+']) ∧
      a.dropWhile isSpace = sign ++ (signOf (a.dropWhile isSpace)).2 := by
    generalize a.dropWhile isSpace = text
    unfold signOf
    split
    · exact ⟨['-'], .inr (.inl rfl), rfl⟩
    · exact ⟨['+'], .inr (.inr rfl), rfl⟩
    · exact ⟨[], .inl rfl, rfl⟩
  obtain ⟨sign, hsign, hsigned⟩ := hsign
  dsimp only at h
  split_ifs at h with hread
  cases h
  have hdigits : ∀ c ∈ (signOf (a.dropWhile isSpace)).2.takeWhile Char.isDigit, c.isDigit = true :=
    fun c hc => List.mem_takeWhile_imp hc
  refine ⟨_, sign ++ (signOf (a.dropWhile isSpace)).2.takeWhile Char.isDigit, ?_, hblank,
    sign, _, hsign, hread.1, hdigits, rfl⟩
  rw [List.append_assoc, List.takeWhile_append_dropWhile, ← hsigned, hsplit]

/-- The words of a proper item are all looked at. -/
lemma Item.IsProper.not_unchecked {i : Item} (h : i.IsProper) :
    ¬Unchecked (Words.words isSpace i.rest) := by
  rw [h.words]
  intro hunchecked
  split_ifs at hunchecked
  · cases hunchecked with
    | front hwho hne =>
        rw [targetOf_joined] at hwho
        cases hwho
        exact hne rfl
    | target hwho hne =>
        rw [targetOf_joined] at hwho
        cases hwho
        exact hne h.target
  · cases hunchecked with
    | between _ _ hne => exact hne rfl
    | target hwho hne =>
        rw [targetOf_apart] at hwho
        cases hwho
        exact hne h.target

/-- What is accepted and all looked at is a proper item. -/
lemma exists_item {a rest : Text} (hread : (readInt a).2 = some rest) {who : Text}
    (hwho : targetOf (words isSpace rest) = some who)
    (hchecked : ¬Unchecked (words isSpace rest)) : ∃ i : Item, i.IsProper ∧ a = i.text := by
  obtain ⟨before, id, rfl, hbefore, hid⟩ := readInt_some hread
  have htarget : IsTarget who := by
    by_contra hne
    exact hchecked (.target hwho hne)
  cases hwords : words isSpace rest with
  | nil =>
      rw [hwords] at hwho
      cases hwho
  | cons dummy ws =>
      obtain ⟨toArrow, r, rfl, hto, -, -, hws⟩ := words_eq_cons_iff.mp hwords
      rw [hwords] at hwho hchecked
      cases ws with
      | nil =>
          have hjoined : dummy = arrow ++ who := by
            by_contra hne
            exact hchecked (.front hwho hne)
          refine ⟨⟨before, id, toArrow, [], who, r⟩, ⟨hbefore, hid, hto, blank_nil, htarget,
            words_eq_nil_iff.mp hws⟩, ?_⟩
          rw [Item.text, Item.rest, hjoined]
          simp
      | cons target ws =>
          have harrow : dummy = arrow := by
            by_contra hne
            exact hchecked (.between _ _ hne)
          cases hwho
          obtain ⟨fromArrow, r', rfl, hfrom, -, -, hmore⟩ := words_eq_cons_iff.mp hws
          cases ws with
          | nil =>
              refine ⟨⟨before, id, toArrow, fromArrow, who, r'⟩, ⟨hbefore, hid, hto, hfrom,
                htarget, words_eq_nil_iff.mp hmore⟩, ?_⟩
              rw [Item.text, Item.rest, harrow]
          | cons next more => exact absurd (.behind _ _ _ _) hchecked

/-- The stream of a proper item goes on behind its number, or has failed. -/
lemma Item.IsProper.readInt {i : Item} (h : i.IsProper) :
    (readInt i.text).2 = none ∨ (readInt i.text).2 = some i.rest := by
  obtain ⟨sign, number, hsign, hne, hdigits, hid⟩ := h.id
  have hread := readInt_integer h.before hsign hne hdigits (Item.head_rest h)
  rw [← hid] at hread
  change (FilterAssignments.readInt (i.before ++ (i.id ++ i.rest))).2 = none ∨ _ = some i.rest
  rw [Item.text, hread]
  split_ifs
  · exact .inr rfl
  · exact .inl rfl

/-- A piece that is accepted is a proper item if all of it is looked at. -/
lemma proper_iff {a : Text} (h : ¬Refused a) : (∃ i : Item, i.IsProper ∧ a = i.text) ↔
    ∀ rest, (readInt a).2 = some rest → ¬Unchecked (words isSpace rest) := by
  constructor
  · rintro ⟨i, hi, rfl⟩ rest hrest
    rcases hi.readInt with hnone | hsome
    · exact absurd (.inl hnone) h
    · cases hsome.symm.trans hrest
      exact hi.not_unchecked
  · intro hchecked
    rw [← readItem_eq_none_iff, readItem_eq, Option.bind_eq_none_iff] at h
    push Not at h
    obtain ⟨rest, hrest, hsome⟩ := h
    obtain ⟨who, hwho⟩ := Option.ne_none_iff_exists'.mp (mt Option.map_eq_none_iff.mpr hsome)
    exact exists_item hrest hwho (hchecked rest hrest)

lemma toInt_rankOf (who : Text) : (BitVec.ofInt 32 (rankOf who)).toInt = rankOf who := by
  rw [rankOf]
  split_ifs
  · rfl
  · rw [BitVec.ofInt_toInt]

lemma mapM_readItem_iff {pieces : List Text} :
    (∃ items, pieces.mapM readItem = some items) ↔ ∀ a ∈ pieces, ¬Refused a := by
  induction pieces with
  | nil => simp
  | cons a as ih =>
      rw [List.forall_mem_cons, ← ih, ← readItem_eq_none_iff, List.mapM_cons]
      cases readItem a with
      | none => simp
      | some item => cases as.mapM readItem <;> simp

/-- A text is accepted if all its pieces are. -/
lemma accepted_iff {s : Text} : (∃ me id, findFilterAssignment s me = some id) ↔
    ∃ pieces, splitItems s 0 = some pieces ∧ ∀ a ∈ pieces, ¬Refused a := by
  constructor
  · rintro ⟨me, id, hfound⟩
    have hparsed : simpleParser s ≠ none := by
      intro hnone
      rw [findFilterAssignment, hnone] at hfound
      cases hfound
    rw [simpleParser] at hparsed
    split_ifs at hparsed with hlength
    · exact absurd rfl hparsed
    · cases hsplit : splitItems s 0 with
      | none =>
          rw [hsplit] at hparsed
          exact absurd rfl hparsed
      | some pieces =>
          refine ⟨pieces, rfl, mapM_readItem_iff.mp (Option.ne_none_iff_exists'.mp fun hnone => ?_)⟩
          rw [hsplit] at hparsed
          change (pieces.mapM readItem).bind _ ≠ none at hparsed
          rw [hnone] at hparsed
          exact hparsed rfl
  · rintro ⟨pieces, hsplit, haccepted⟩
    obtain ⟨items, hitems⟩ := mapM_readItem_iff.mpr haccepted
    obtain ⟨a, as, rfl⟩ := List.exists_cons_of_ne_nil (splitItems_spec hsplit).1
    have hparsed := simpleParser_of_split hsplit hitems
    rw [List.mapM_cons] at hitems
    cases hitem : readItem a with
    | none =>
        rw [hitem] at hitems
        cases hitems
    | some item =>
        rw [hitem] at hitems
        obtain ⟨rest, -, hrest⟩ :
            ∃ rest, as.mapM readItem = some rest ∧ some (item :: rest) = some items :=
          Option.bind_eq_some_iff.mp hitems
        cases hrest
        obtain ⟨who, hwho⟩ : ∃ who, item.1 = rankOf who := by
          rw [readItem_eq, Option.bind_eq_some_iff] at hitem
          obtain ⟨rest, -, hitem⟩ := hitem
          obtain ⟨who, -, rfl⟩ := Option.map_eq_some_iff.mp hitem
          exact ⟨who, rfl⟩
        refine ⟨BitVec.ofInt 32 item.1, item.2, ?_⟩
        rw [findFilterAssignment_of_items hparsed, hwho, toInt_rankOf, ← hwho, firstOf,
          List.find?_cons_of_pos (by simp)]
        rfl

/-- The pieces of a text that is split tell whether it is well formed. -/
lemma wellFormed_iff {s : Text} {pieces : List Text} (h : splitItems s 0 = some pieces) :
    IsWellFormed s ↔ ∀ a ∈ pieces, ∃ i : Item, i.IsProper ∧ a = i.text := by
  constructor
  · rintro ⟨items, hne, hproper, tail, rfl, htail⟩ a ha
    cases (splitItems_items hne hproper htail).symm.trans h
    obtain ⟨i, hi, rfl⟩ := List.mem_map.mp ha
    exact ⟨i, hproper i hi, rfl⟩
  · intro hall
    obtain ⟨hne, tail, hs, htail⟩ := splitItems_spec h
    rw [List.drop_zero] at hs
    have : Nonempty Item := ⟨⟨[], [], [], [], [], []⟩⟩
    choose! item hitem using hall
    have htexts : (pieces.map item).map Item.text = pieces := by
      rw [List.map_map]
      exact (List.map_congr_left fun a ha => (hitem a ha).2.symm).trans (List.map_id _)
    refine ⟨pieces.map item, by simpa using hne, fun i hi => ?_, tail, ?_, htail⟩
    · obtain ⟨a, ha, rfl⟩ := List.mem_map.mp hi
      exact (hitem a ha).1
    · rw [htexts, hs]

/-- When accepted texts are well formed: a piece is refused, or all is looked at. -/
theorem accepted_wellFormed_iff (s : Text) :
    (∀ me id, findFilterAssignment s me = some id → IsWellFormed s) ↔
      ∀ pieces, splitItems s 0 = some pieces → (∃ a ∈ pieces, Refused a) ∨
        ∀ a ∈ pieces, ∀ rest, (readInt a).2 = some rest → ¬Unchecked (words isSpace rest) := by
  constructor
  · intro hwell pieces hsplit
    by_cases hrefused : ∃ a ∈ pieces, Refused a
    · exact .inl hrefused
    · push Not at hrefused
      obtain ⟨me, id, hfound⟩ := accepted_iff.mpr ⟨pieces, hsplit, hrefused⟩
      have hitems := (wellFormed_iff hsplit).mp (hwell me id hfound)
      exact .inr fun a ha => (proper_iff (hrefused a ha)).mp (hitems a ha)
  · intro hcond me id hfound
    obtain ⟨pieces, hsplit, haccepted⟩ := accepted_iff.mp ⟨me, id, hfound⟩
    rcases hcond pieces hsplit with ⟨a, ha, hrefused⟩ | hchecked
    · exact absurd hrefused (haccepted a ha)
    · exact (wellFormed_iff hsplit).mpr fun a ha =>
        (proper_iff (haccepted a ha)).mpr (hchecked a ha)

/-- `5 foo *;` is accepted. -/
theorem accepted_not_wellFormed :
    findFilterAssignment ['5', ' ', 'f', 'o', 'o', ' ', '*', ';'] 0 = some 5 ∧
      ¬IsWellFormed ['5', ' ', 'f', 'o', 'o', ' ', '*', ';'] := by
  have hpiece : IsPiece ['5', ' ', 'f', 'o', 'o', ' ', '*'] := ⟨by decide, by decide⟩
  have hsplit : splitItems ['5', ' ', 'f', 'o', 'o', ' ', '*', ';'] 0 =
      some [['5', ' ', 'f', 'o', 'o', ' ', '*']] := by
    have hstep := splitItems_step hpiece [] []
    rw [if_neg (by decide)] at hstep
    exact hstep
  have hrest : readInt ['5', ' ', 'f', 'o', 'o', ' ', '*'] =
      (5, some [' ', 'f', 'o', 'o', ' ', '*']) := by
    have hread := @readInt_integer [] [] ['5'] [' ', 'f', 'o', 'o', ' ', '*'] blank_nil (.inl rfl)
      (List.cons_ne_nil _ _) (by simp) (by simp)
    have hvalue : intOf (decide (([] : Text) = ['-'])) ['5'] = 5 := rfl
    rw [hvalue, if_pos (by decide)] at hread
    exact hread
  have hwords : words isSpace [' ', 'f', 'o', 'o', ' ', '*'] = [['f', 'o', 'o'], ['*']] := by
    rw [words_eq_cons_iff]
    refine ⟨[' '], [' ', '*'], rfl, ?_, ⟨by decide, ?_⟩, apart_cons rfl, ?_⟩
    · simp [Blank, isSpace]
    · simp [isSpace]
    · rw [words_space rfl, words_eq_cons_iff]
      exact ⟨[], [], rfl, blank_nil, ⟨by decide, by simp [isSpace]⟩, apart_nil,
        words_blank blank_nil⟩
  have hitem : readItem ['5', ' ', 'f', 'o', 'o', ' ', '*'] = some (-1, 5) := by
    rw [readItem_eq, hrest]
    dsimp only
    rw [Option.bind_some, hwords]
    rfl
  constructor
  · have hparsed := @simpleParser_of_split _ _ [(-1, 5)] hsplit (by
      rw [List.mapM_cons, hitem]
      rfl)
    rw [findFilterAssignment_of_items hparsed]
    rfl
  · intro hwell
    have haccepted : ¬Refused ['5', ' ', 'f', 'o', 'o', ' ', '*'] := by
      rw [← readItem_eq_none_iff, hitem]
      exact Option.some_ne_none _
    have hproper := (wellFormed_iff hsplit).mp hwell _ List.mem_cons_self
    have hchecked := (proper_iff haccepted).mp hproper _ (congrArg Prod.snd hrest)
    rw [hwords] at hchecked
    exact hchecked (.between _ _ (by decide))

end MRNet.FilterAssignments
