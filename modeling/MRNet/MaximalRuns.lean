import Mathlib.Data.List.Basic
import Mathlib.Order.Nat

/-!
# Maximal runs

A maximal run of a list is a stretch of elements with a property, with no such element directly
before it or behind it. A scan that skips the other elements and takes the run behind them
enumerates the maximal runs in order.
-/
namespace MaximalRuns

variable {α : Type} (p : α → Prop) (l : List α)

structure IsRun (pos len : ℕ) : Prop where
  len_pos : 0 < len
  within : pos + len ≤ l.length
  holds : ∀ i a, pos ≤ i → i < pos + len → l[i]? = some a → p a
  before : ∀ i a, i + 1 = pos → l[i]? = some a → ¬p a
  behind : ∀ a, l[pos + len]? = some a → ¬p a

/-- The runs from a position on, in order. -/
structure Enumerates (pos : ℕ) (runs : List (ℕ × ℕ)) : Prop where
  ordered : runs.Pairwise fun r r' => r.1 + r.2 < r'.1
  mem_iff : ∀ start len, (start, len) ∈ runs ↔ pos ≤ start ∧ IsRun p l start len

/-- No run reaches over the position. -/
def Border (pos : ℕ) : Prop := pos = 0 ∨ ∀ a, l[pos]? = some a → ¬p a

variable {p l} {pos start len : ℕ} {runs : List (ℕ × ℕ)}

lemma IsRun.holds_at (h : IsRun p l pos len) {i : ℕ} (hle : pos ≤ i) (hlt : i < pos + len) :
    ∃ a, l[i]? = some a ∧ p a := by
  have hi : i < l.length := hlt.trans_le h.within
  exact ⟨l[i], List.getElem?_eq_getElem hi,
    h.holds i _ hle hlt (List.getElem?_eq_getElem hi)⟩

lemma IsRun.len_le {len' : ℕ} (h : IsRun p l pos len) (h' : IsRun p l pos len') : len' ≤ len := by
  by_contra hlt
  obtain ⟨a, ha, hp⟩ := h'.holds_at (Nat.le_add_right pos len) (by omega)
  exact h.behind a ha hp

lemma enumerates_nil (h : ∀ i a, pos ≤ i → l[i]? = some a → ¬p a) : Enumerates p l pos [] where
  ordered := .nil
  mem_iff := by
    intro start len
    refine ⟨fun hmem => absurd hmem List.not_mem_nil, ?_⟩
    rintro ⟨hle, hrun⟩
    obtain ⟨a, ha, hp⟩ := hrun.holds_at le_rfl (Nat.lt_add_of_pos_right hrun.len_pos)
    exact absurd hp (h start a hle ha)

/-- Behind a border the first element with the property starts a run. -/
lemma isRun_of_border (hborder : Border p l pos) (hle : pos ≤ start)
    (hgap : ∀ i a, pos ≤ i → i < start → l[i]? = some a → ¬p a) (hlen : 0 < len)
    (hwithin : start + len ≤ l.length)
    (hholds : ∀ i a, start ≤ i → i < start + len → l[i]? = some a → p a)
    (hbehind : ∀ a, l[start + len]? = some a → ¬p a) : IsRun p l start len where
  len_pos := hlen
  within := hwithin
  holds := hholds
  before := by
    intro i a hi ha hp
    rcases Nat.lt_or_ge i pos with hlt | hge
    · -- the run starts at the border itself
      obtain rfl : start = pos := by omega
      have hstart : start < l.length := by omega
      rcases hborder with rfl | hborder
      · omega
      · exact hborder _ (List.getElem?_eq_getElem hstart)
          (hholds start _ le_rfl (by omega) (List.getElem?_eq_getElem hstart))
    · exact hgap i a hge (by omega) ha hp
  behind := hbehind

/-- A run and the runs behind it. -/
lemma enumerates_cons (hle : pos ≤ start)
    (hgap : ∀ i a, pos ≤ i → i < start → l[i]? = some a → ¬p a) (hrun : IsRun p l start len)
    (h : Enumerates p l (start + len) runs) : Enumerates p l pos ((start, len) :: runs) where
  ordered := by
    refine List.pairwise_cons.mpr ⟨?_, h.ordered⟩
    rintro ⟨start', len'⟩ hmem
    obtain ⟨hle', hrun'⟩ := (h.mem_iff _ _).mp hmem
    refine lt_of_le_of_ne hle' fun heq => ?_
    obtain ⟨a, ha, hp⟩ := hrun'.holds_at le_rfl (Nat.lt_add_of_pos_right hrun'.len_pos)
    exact hrun.behind a (heq ▸ ha) hp
  mem_iff := by
    intro start' len'
    rw [List.mem_cons, Prod.mk.injEq, h.mem_iff]
    constructor
    · rintro (⟨rfl, rfl⟩ | ⟨hle', hrun'⟩)
      · exact ⟨hle, hrun⟩
      · exact ⟨by omega, hrun'⟩
    · rintro ⟨hle', hrun'⟩
      obtain ⟨a, ha, hp⟩ := hrun'.holds_at le_rfl (Nat.lt_add_of_pos_right hrun'.len_pos)
      rcases lt_trichotomy start' start with hlt | rfl | hgt
      · exact absurd hp (hgap start' a hle' hlt ha)
      · exact .inl ⟨rfl, le_antisymm (hrun.len_le hrun') (hrun'.len_le hrun)⟩
      · refine .inr ⟨?_, hrun'⟩
        by_contra hinside
        obtain ⟨b, hb, hpb⟩ := hrun.holds_at (i := start' - 1) (by omega) (by omega)
        exact hrun'.before _ b (by omega) hb hpb

/-- The runs lie apart, so that there are not many of them. -/
lemma Enumerates.length_le (h : Enumerates p l pos runs) (hpos : pos ≤ l.length) :
    2 * runs.length ≤ l.length - pos + 1 := by
  have hall : ∀ r ∈ runs, pos ≤ r.1 ∧ 0 < r.2 ∧ r.1 + r.2 ≤ l.length := by
    rintro ⟨start, len⟩ hmem
    obtain ⟨hle, hrun⟩ := (h.mem_iff _ _).mp hmem
    exact ⟨hle, hrun.len_pos, hrun.within⟩
  have hordered := h.ordered
  clear h
  induction runs generalizing pos with
  | nil => exact Nat.zero_le _
  | cons r runs ih =>
      obtain ⟨hlt, hordered⟩ := List.pairwise_cons.mp hordered
      obtain ⟨hle, hlen, hwithin⟩ := hall r (List.mem_cons_self ..)
      cases runs with
      | nil =>
          rw [List.length_singleton]
          omega
      | cons r' runs =>
          have hnext := hlt r' (List.mem_cons_self ..)
          have hwithin' := hall r' (by simp)
          have hbehind : ∀ u ∈ r' :: runs, r.1 + r.2 + 1 ≤ u.1 ∧ 0 < u.2 ∧ u.1 + u.2 ≤ l.length :=
            fun u hu => ⟨hlt u hu, (hall u (List.mem_cons_of_mem r hu)).2⟩
          have hrest := ih (by omega) hbehind hordered
          rw [List.length_cons]
          omega

end MaximalRuns
