import MRNet.FilterAssignments

/-!
# Which filter is assigned

Assignments that are written in any spacing are resolved: the first filter for the rank, else
the first one for all. Texts that are no such assignments can be accepted too, since the words
behind a number are not all looked at.
-/
namespace MRNet.FilterAssignments
open SerialGraph (Text find findText substr atoi atoi_digits isSpace)
open WaitForAll (Rank)
open Std (TreeMap)
open Words

/-- The first filter of a rank. -/
def firstOf (items : List (ℤ × ℤ)) (rank : ℤ) : Option ℤ :=
  (items.find? fun item => item.1 = rank).map Prod.snd

/-- A rank has the filters of its items, in their order. -/
lemma foldl_assign_lookup (items : List (ℤ × ℤ)) (rank : ℤ) :
    (items.foldl assign ∅)[rank]? =
      if items.filter (fun item => item.1 = rank) = [] then none
      else some ((items.filter fun item => item.1 = rank).map Prod.snd) := by
  induction items using List.reverseRecOn with
  | nil => simp
  | append_singleton items item ih =>
      rw [List.foldl_append, List.filter_append]
      change (assign (items.foldl assign ∅) item)[rank]? = _
      rw [assign, TreeMap.getElem?_insert]
      by_cases hrank : item.1 = rank
      · rw [if_pos (Std.LawfulEqCmp.compare_eq_iff_eq.mpr hrank), hrank, ih,
          List.filter_cons_of_pos (by simpa using hrank), List.filter_nil,
          if_neg (List.append_ne_nil_of_right_ne_nil _ (List.cons_ne_nil _ _)), List.map_append]
        by_cases hnil : items.filter (fun item => decide (item.1 = rank)) = []
        · rw [if_pos hnil, hnil]
          rfl
        · rw [if_neg hnil]
          rfl
      · rw [if_neg (mt Std.LawfulEqCmp.compare_eq_iff_eq.mp hrank), ih,
          List.filter_cons_of_neg (by simpa using hrank), List.filter_nil,
          List.append_nil]

lemma foldl_assign_first (items : List (ℤ × ℤ)) (rank : ℤ) :
    ((items.foldl assign ∅)[rank]?).bind List.head? = firstOf items rank := by
  rw [foldl_assign_lookup, firstOf]
  split_ifs with hnil
  · rw [← List.head?_filter, hnil]
    rfl
  · rw [Option.bind_some, List.head?_map, List.head?_filter]

lemma simpleParser_of_split {s : Text} {pieces : List Text} {items : List (ℤ × ℤ)}
    (hsplit : splitItems s 0 = some pieces) (hread : pieces.mapM readItem = some items) :
    simpleParser s = some (items.foldl assign ∅) := by
  have hlength : s.length ≠ 0 := by
    intro hzero
    rw [List.length_eq_zero_iff.mp hzero, splitItems] at hsplit
    cases hsplit
  rw [simpleParser, if_neg hlength, hsplit]
  change (pieces.mapM readItem).bind _ = _
  rw [hread]
  rfl

/-- What is found for a rank, or else for all. -/
lemma findFilterAssignment_of_items {s : Text} {items : List (ℤ × ℤ)}
    (h : simpleParser s = some (items.foldl assign ∅)) (me : Rank) :
    findFilterAssignment s me = (firstOf items me.toInt).or (firstOf items (-1)) := by
  have hall : ∀ rank, firstOf items rank = none ↔ (items.foldl assign ∅)[rank]? = none := by
    intro rank
    rw [foldl_assign_lookup, firstOf, Option.map_eq_none_iff, ← List.head?_filter,
      List.head?_eq_none_iff]
    by_cases hnil : items.filter (fun item => decide (item.1 = rank)) = []
    · rw [if_pos hnil]
      exact iff_of_true hnil rfl
    · rw [if_neg hnil]
      exact iff_of_false hnil (Option.some_ne_none _)
  have hother := foldl_assign_first items (-1)
  have hmine := foldl_assign_first items me.toInt
  simp only [findFilterAssignment, h, Option.bind_eq_bind, Option.bind_some, hother]
  cases hlookup : (items.foldl assign ∅)[me.toInt]? with
  | none => rw [(hall _).mpr hlookup, Option.none_or]
  | some filters =>
      rw [hlookup, Option.bind_some] at hmine
      cases hfirst : firstOf items me.toInt with
      | none =>
          rw [(hall _).mp hfirst] at hlookup
          cases hlookup
      | some id =>
          rw [Option.some_or, ← hfirst]
          exact hmine

/-- A filter for a rank, or for all. -/
structure Assignment where
  filterId : ℕ
  target : Option ℕ
  deriving DecidableEq

structure Assignment.IsValid (a : Assignment) : Prop where
  filterId : a.filterId < 2 ^ 31
  target : ∀ rank ∈ a.target, rank < 2 ^ 31 - 1

/-- Blank space in and around an item. -/
structure Spacing where
  before : Text
  toArrow : Text
  fromArrow : Text
  after : Text

structure Spacing.IsBlank (s : Spacing) : Prop where
  before : Blank isSpace s.before
  toArrow : Blank isSpace s.toArrow
  fromArrow : Blank isSpace s.fromArrow
  after : Blank isSpace s.after

namespace Assignment

def targetText (a : Assignment) : Text :=
  match a.target with
  | none => ['*']
  | some rank => Nat.toDigits 10 rank

def item (a : Assignment) (s : Spacing) : Item :=
  ⟨s.before, Nat.toDigits 10 a.filterId, s.toArrow, s.fromArrow, a.targetText, s.after⟩

/-- The key of the map. -/
def rank (a : Assignment) : ℤ :=
  match a.target with
  | none => -1
  | some rank => rank

end Assignment

/-- Assignments as they are written. -/
def rendered (assignments : List (Assignment × Spacing)) (tail : Text) : Text :=
  joined (assignments.map fun a => (a.1.item a.2).text) ++ tail

/-- The first filter that is assigned. -/
def firstFor (assignments : List (Assignment × Spacing)) (target : Option ℕ) : Option ℕ :=
  (assignments.find? fun a => a.1.target = target).map fun a => a.1.filterId

section Rendered
variable {a : Assignment} {s : Spacing}

lemma isDigit_digits (n : ℕ) : ∀ c ∈ Nat.toDigits 10 n, c.isDigit = true :=
  fun _ hc => Nat.isDigit_of_mem_toDigits (by decide) (by decide) hc

lemma isProper_item (ha : a.IsValid) (hs : s.IsBlank) : (a.item s).IsProper := by
  refine ⟨hs.before, ?_, hs.toArrow, hs.fromArrow, ?_, hs.after⟩
  · exact ⟨[], Nat.toDigits 10 a.filterId, .inl rfl, Nat.toDigits_ne_nil, isDigit_digits _, rfl⟩
  · change IsTarget a.targetText
    rw [Assignment.targetText]
    cases htarget : a.target with
    | none => exact .inl rfl
    | some rank =>
        have hlt := ha.target rank htarget
        refine .inr ⟨Nat.toDigits_ne_nil, isDigit_digits _, ?_⟩
        rw [Nat.ofDigitChars_ten_toDigits]
        omega

lemma rankOf_target (ha : a.IsValid) : rankOf a.targetText = a.rank := by
  rw [Assignment.targetText, Assignment.rank]
  cases htarget : a.target with
  | none => rfl
  | some rank =>
      have hlt := ha.target rank htarget
      have hne : Nat.toDigits 10 rank ≠ ['*'] := by
        intro heq
        have hdigit := isDigit_digits rank '*' (by rw [heq]; exact List.mem_cons_self)
        cases hdigit
      dsimp only
      rw [rankOf, if_neg hne, atoi_digits Nat.toDigits_ne_nil (isDigit_digits rank) (by
        rw [Nat.ofDigitChars_ten_toDigits]; omega), Nat.ofDigitChars_ten_toDigits,
        BitVec.toInt_ofNat', Int.bmod_def]
      omega

lemma readItem_assignment (ha : a.IsValid) (hs : s.IsBlank) :
    readItem (a.item s).text = some (a.rank, (a.filterId : ℤ)) := by
  have hlt := ha.filterId
  have hvalue : intOf (decide (([] : Text) = ['-'])) (Nat.toDigits 10 a.filterId) = a.filterId := by
    rw [intOf, if_neg (by decide), Nat.ofDigitChars_ten_toDigits]
  have hread := Item.readItem_proper (isProper_item ha hs) (.inl rfl) Nat.toDigits_ne_nil
    (isDigit_digits a.filterId) rfl (by rw [hvalue]; omega) (by rw [hvalue]; omega)
  rw [hread, hvalue]
  exact congrArg some (congrArg (·, (a.filterId : ℤ)) (rankOf_target ha))

/-- The rank of an item is a given one if its target is. -/
lemma rank_eq_iff {a : Assignment} {target : Option ℕ} :
    a.rank = Assignment.rank ⟨0, target⟩ ↔ a.target = target := by
  rw [Assignment.rank, Assignment.rank]
  cases a.target <;> cases target <;> simp

variable {assignments : List (Assignment × Spacing)}
  (h : ∀ a ∈ assignments, a.1.IsValid ∧ a.2.IsBlank)
include h

lemma mapM_readItem : (assignments.map fun a => (a.1.item a.2).text).mapM readItem =
    some (assignments.map fun a => (a.1.rank, (a.1.filterId : ℤ))) := by
  induction assignments with
  | nil => rfl
  | cons a as ih =>
      have ha := h a List.mem_cons_self
      rw [List.map_cons, List.mapM_cons, readItem_assignment ha.1 ha.2,
        ih fun b hb => h b (List.mem_cons_of_mem _ hb)]
      rfl

lemma simpleParser_rendered (hne : assignments ≠ []) {tail : Text} (htail : Blank isSpace tail) :
    simpleParser (rendered assignments tail) =
      some ((assignments.map fun a => (a.1.rank, (a.1.filterId : ℤ))).foldl assign ∅) := by
  have harrow : ¬arrow <:+: tail := by
    intro harrow
    have hspace := htail '=' (harrow.subset List.mem_cons_self)
    exact absurd hspace (by simp [isSpace])
  have hproper : ∀ i ∈ assignments.map fun a => a.1.item a.2, i.IsProper := by
    intro i hi
    obtain ⟨a, ha, rfl⟩ := List.mem_map.mp hi
    exact isProper_item (h a ha).1 (h a ha).2
  have hsplit := splitItems_items (by simpa using hne) hproper harrow
  rw [List.map_map] at hsplit
  exact simpleParser_of_split hsplit (mapM_readItem h)

omit h in
lemma firstOf_rendered (target : Option ℕ) :
    firstOf (assignments.map fun a => (a.1.rank, (a.1.filterId : ℤ)))
      (Assignment.rank ⟨0, target⟩) = (firstFor assignments target).map Int.ofNat := by
  have hsame : ((fun item : ℤ × ℤ => decide (item.1 = Assignment.rank ⟨0, target⟩)) ∘
      fun a : Assignment × Spacing => (a.1.rank, (a.1.filterId : ℤ))) =
        fun a => decide (a.1.target = target) := by
    funext a
    exact decide_eq_decide.mpr rank_eq_iff
  rw [firstOf, firstFor, List.find?_map, hsame, Option.map_map, Option.map_map]
  rfl

/-- The first filter for the rank is found, else the first one for all, however the assignments
are spaced. -/
theorem findFilterAssignment_rendered (hne : assignments ≠ []) {tail : Text}
    (htail : Blank isSpace tail) {me : Rank} (hme : me.toNat < 2 ^ 31 - 1) :
    findFilterAssignment (rendered assignments tail) me =
      ((firstFor assignments (some me.toNat)).or (firstFor assignments none)).map Int.ofNat := by
  have hrank : me.toInt = Assignment.rank ⟨0, some me.toNat⟩ := by
    rw [BitVec.toInt_eq_toNat_of_lt (by omega)]
    rfl
  have hall : (-1 : ℤ) = Assignment.rank ⟨0, none⟩ := rfl
  rw [findFilterAssignment_of_items (simpleParser_rendered h hne htail), hrank, hall,
    firstOf_rendered, firstOf_rendered]
  cases firstFor assignments (some me.toNat) <;> rfl

end Rendered

/-- A filter for all and one for rank 3, without blanks. -/
def sampleAssignments : List (Assignment × Spacing) :=
  [(⟨5, none⟩, ⟨[], [], [], []⟩), (⟨7, some 3⟩, ⟨[], [], [], []⟩)]

/-- What rank 3 finds. -/
theorem findFilterAssignment_sample :
    findFilterAssignment (rendered sampleAssignments []) 3 =
      ((firstFor sampleAssignments (some (3 : Rank).toNat)).or
        (firstFor sampleAssignments none)).map Int.ofNat := by
  have hblank : Spacing.IsBlank ⟨[], [], [], []⟩ := ⟨blank_nil, blank_nil, blank_nil, blank_nil⟩
  refine findFilterAssignment_rendered (fun a ha => ?_) (List.cons_ne_nil _ _) blank_nil (by decide)
  rcases List.mem_cons.mp ha with rfl | ha
  · exact ⟨⟨by decide, nofun⟩, hblank⟩
  · cases List.mem_singleton.mp ha
    refine ⟨⟨by decide, fun rank hrank => ?_⟩, hblank⟩
    cases hrank
    decide

end MRNet.FilterAssignments
