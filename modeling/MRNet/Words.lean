import Mathlib.Data.List.TakeWhile

/-!
# Words

The words of a list are its longest parts without a separator. A reader that wants the next word
skips separators, takes the word, and stops behind it.
-/
namespace MRNet.Words

variable {α : Type} {space : α → Bool} {l s w r : List α}

/-- The next word and what is behind it. -/
def next (space : α → Bool) (l : List α) : Option (List α × List α) :=
  match l.dropWhile space with
  | [] => none
  | c :: l => some ((c :: l).takeWhile (!space ·), (c :: l).dropWhile (!space ·))

/-- Nothing but separators. -/
def Blank (space : α → Bool) (l : List α) : Prop := ∀ c ∈ l, space c = true

/-- A word, without separators. -/
structure IsWord (space : α → Bool) (w : List α) : Prop where
  ne_nil : w ≠ []
  solid : ∀ c ∈ w, space c = false

/-- A separator or the end. -/
def Apart (space : α → Bool) (r : List α) : Prop := ∀ c ∈ r.head?, space c = true

lemma blank_nil : Blank space [] := nofun

lemma apart_nil : Apart space [] := nofun

lemma apart_cons {c : α} (h : space c = true) : Apart space (c :: r) := by
  intro d hd
  cases hd
  exact h

lemma apart_iff : Apart space r ↔ r = [] ∨ ∃ c r', r = c :: r' ∧ space c = true := by
  cases r with
  | nil => simp [apart_nil]
  | cons c r => simp [Apart]

lemma Blank.apart_append (h : Blank space s) (hr : Apart space r) : Apart space (s ++ r) := by
  cases s with
  | nil => exact hr
  | cons c s => exact apart_cons (h c List.mem_cons_self)

lemma dropWhile_blank (h : Blank space s) (l : List α) :
    (s ++ l).dropWhile space = l.dropWhile space :=
  List.dropWhile_append_of_pos h

lemma next_blank (h : Blank space s) (l : List α) : next space (s ++ l) = next space l := by
  rw [next, next, dropWhile_blank h]

theorem next_word (hw : IsWord space w) (hr : Apart space r) :
    next space (w ++ r) = some (w, r) := by
  have hsolid : ∀ c ∈ w, (!space c) = true := fun c hc => by rw [hw.solid c hc]; rfl
  have hstop : r.takeWhile (!space ·) = [] ∧ r.dropWhile (!space ·) = r := by
    cases r with
    | nil => exact ⟨rfl, rfl⟩
    | cons c r =>
        have hc := hr c rfl
        exact ⟨List.takeWhile_cons_of_neg (by simp [hc]), List.dropWhile_cons_of_neg (by simp [hc])⟩
  obtain ⟨c, w', rfl⟩ := List.exists_cons_of_ne_nil hw.ne_nil
  have hskip : ((c :: w') ++ r).dropWhile space = c :: (w' ++ r) :=
    List.dropWhile_cons_of_neg (by simp [hw.solid c List.mem_cons_self])
  rw [next, hskip]
  dsimp only
  rw [← List.cons_append, List.takeWhile_append_of_pos hsolid, List.dropWhile_append_of_pos hsolid,
    hstop.1, hstop.2, List.append_nil]

lemma next_eq_none_iff : next space l = none ↔ Blank space l := by
  have hnil : l.dropWhile space = [] ↔ Blank space l := List.dropWhile_eq_nil_iff
  rw [← hnil, next]
  split
  · next heq => exact iff_of_true rfl heq
  · next c l' heq => simp [heq]

/-- Every list is blank or starts with a word behind blanks. -/
theorem blank_or_word (space : α → Bool) (l : List α) :
    Blank space l ∨ ∃ s w r, l = s ++ (w ++ r) ∧ Blank space s ∧ IsWord space w ∧ Apart space r := by
  have hsplit := List.takeWhile_append_dropWhile (p := space) (l := l)
  have hblank : Blank space (l.takeWhile space) := fun c hc => List.mem_takeWhile_imp hc
  cases hrest : l.dropWhile space with
  | nil => exact .inl (List.dropWhile_eq_nil_iff.mp hrest)
  | cons c l' =>
      have hc : space c = false := by
        have hhead := List.head_dropWhile_not space (by rw [hrest]; exact List.cons_ne_nil _ _)
        simpa [hrest] using hhead
      have hword := List.takeWhile_append_dropWhile (p := (!space ·)) (l := c :: l')
      refine .inr ⟨_, (c :: l').takeWhile (!space ·), (c :: l').dropWhile (!space ·), ?_, hblank,
        ⟨?_, fun d hd => ?_⟩, fun d hd => ?_⟩
      · rw [hword, ← hrest, hsplit]
      · rw [List.takeWhile_cons_of_pos (by simp [hc])]
        exact List.cons_ne_nil _ _
      · simpa using List.mem_takeWhile_imp hd
      · by_contra hd'
        have hne : (c :: l').dropWhile (!space ·) ≠ [] := by
          intro hnil
          rw [hnil] at hd
          cases hd
        have hhead := List.head_dropWhile_not (!space ·) hne
        rw [List.head?_eq_some_head hne] at hd
        cases hd
        exact hd' (by simpa using hhead)

/-- What is read of a list with a word, behind blanks. -/
lemma next_split (hs : Blank space s) (hw : IsWord space w) (hr : Apart space r) :
    next space (s ++ (w ++ r)) = some (w, r) := by
  rw [next_blank hs, next_word hw hr]

lemma next_lt (h : next space l = some (w, r)) : r.length < l.length := by
  rcases blank_or_word space l with hblank | ⟨s, w', r', rfl, hs, hw, hr⟩
  · rw [next_eq_none_iff.mpr hblank] at h
    cases h
  · rw [next_split hs hw hr] at h
    cases h
    have hpos := List.length_pos_iff.mpr hw.ne_nil
    rw [List.length_append, List.length_append]
    omega

lemma length_next (h : next space l = some (w, r)) : w.length + r.length ≤ l.length := by
  rcases blank_or_word space l with hblank | ⟨s, w', r', rfl, hs, hw, hr⟩
  · rw [next_eq_none_iff.mpr hblank] at h
    cases h
  · rw [next_split hs hw hr] at h
    cases h
    rw [List.length_append, List.length_append]
    omega

/-- All words, from the first to the last. -/
def words (space : α → Bool) (l : List α) : List (List α) :=
  match _h : next space l with
  | none => []
  | some (w, r) => w :: words space r
termination_by l.length
decreasing_by exact next_lt _h

lemma length_of_mem_words (hw : w ∈ words space l) : w.length ≤ l.length := by
  fun_induction words space l with
  | case1 l hnone => cases hw
  | case2 l w' r hnext ih =>
      have hle := length_next hnext
      rcases List.mem_cons.mp hw with rfl | hw
      · omega
      · have := ih hw
        omega

lemma words_blank (h : Blank space l) : words space l = [] := by
  rw [words]
  split
  · rfl
  · next heq => cases (next_eq_none_iff.mpr h).symm.trans heq

lemma words_split (hs : Blank space s) (hw : IsWord space w) (hr : Apart space r) :
    words space (s ++ (w ++ r)) = w :: words space r := by
  rw [words]
  split
  · next heq => cases (next_split hs hw hr).symm.trans heq
  · next heq =>
      cases (next_split hs hw hr).symm.trans heq
      rfl

lemma words_space {c : α} (h : space c = true) (l : List α) :
    words space (c :: l) = words space l := by
  have hnext : next space (c :: l) = next space l := by
    rw [next, next, List.dropWhile_cons_of_pos h]
  rw [words, words, hnext]

lemma words_eq_nil_iff : words space l = [] ↔ Blank space l := by
  refine ⟨fun hnil => ?_, words_blank⟩
  rcases blank_or_word space l with hblank | ⟨s, w, r, rfl, hs, hw, hr⟩
  · exact hblank
  · rw [words_split hs hw hr] at hnil
    cases hnil

lemma words_eq_cons_iff {ws : List (List α)} : words space l = w :: ws ↔
    ∃ s r, l = s ++ (w ++ r) ∧ Blank space s ∧ IsWord space w ∧ Apart space r ∧
      words space r = ws := by
  constructor
  · intro hcons
    rcases blank_or_word space l with hblank | ⟨s, w', r, rfl, hs, hw, hr⟩
    · rw [words_blank hblank] at hcons
      cases hcons
    · rw [words_split hs hw hr] at hcons
      cases hcons
      exact ⟨s, r, rfl, hs, hw, hr, rfl⟩
  · rintro ⟨s, r, rfl, hs, hw, hr, rfl⟩
    exact words_split hs hw hr

end MRNet.Words
