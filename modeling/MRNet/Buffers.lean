import MRNet.Codec

/-!
# Blocks of memory

A block of cells that are written by `memcpy`, and that may not be read before.
-/
namespace MRNet.Buffers
open Codec

variable {α β : Type}

/-- The address space of a process has less than 2^62 bytes. An allocation of more bytes than
the limit fails; each may fail, which ends a run. -/
structure Memory where
  limit : ℕ
  limit_lt : limit < 2 ^ 62

/-- A cell without a value was not written. -/
abbrev Block (α : Type) := List (Option α)

def allocate (α : Type) (n : ℕ) : Block α := List.replicate n none

/-- `memcpy` of a number of elements. -/
def copyInto (block : Block α) (pos : ℕ) (source : List α) (count : ℕ) : Outcome (Block α) :=
  if source.length < count then .error (.fault .readPast)
  else if block.length < pos + count then .error (.fault .storePast)
  else return block.take pos ++ (source.take count).map some ++ block.drop (pos + count)

def readAt (block : Block α) (i : ℕ) : Outcome α :=
  match block[i]? with
  | some (some a) => return a
  | _ => .error (.fault .readPast)

/-- The first cells are written, and a number of cells is left. -/
def filled (written : List α) (free : ℕ) : Block α := written.map some ++ List.replicate free none

lemma allocate_eq_filled (n : ℕ) : allocate α n = filled [] n := rfl

lemma length_filled (written : List α) (free : ℕ) :
    (filled written free).length = written.length + free := by
  rw [filled, List.length_append, List.length_map, List.length_replicate]

theorem copyInto_filled {written source : List α} {free count pos : ℕ}
    (hpos : pos = written.length) (hsource : count ≤ source.length) (hfree : count ≤ free) :
    copyInto (filled written free) pos source count =
      .ok (filled (written ++ source.take count) (free - count)) := by
  have htake : (filled written free).take pos = written.map some := by
    rw [hpos, filled]
    exact List.take_left' (List.length_map some)
  have hdrop : (filled written free).drop (pos + count) = List.replicate (free - count) none := by
    rw [hpos, filled, List.drop_append, List.drop_eq_nil_of_le (by rw [List.length_map]; omega),
      List.nil_append, List.length_map, Nat.add_sub_cancel_left, List.drop_replicate]
  rw [copyInto, if_neg (by omega), if_neg (by rw [length_filled]; omega), htake, hdrop, filled,
    List.map_append]
  rfl

/-- What a copy needs and does. -/
theorem copyInto_ok {block block' : Block α} {pos count : ℕ} {source : List α}
    (h : copyInto block pos source count = .ok block') :
    count ≤ source.length ∧ pos + count ≤ block.length ∧
      block' = block.take pos ++ (source.take count).map some ++ block.drop (pos + count) := by
  unfold copyInto at h
  split_ifs at h with hsource hblock
  cases h
  exact ⟨by omega, by omega, rfl⟩

theorem readAt_written {written : List α} {a : α} {i : ℕ} (h : written[i]? = some a)
    (rest : Block α) : readAt (written.map some ++ rest) i = .ok a := by
  have hlt : i < written.length := (List.getElem?_eq_some_iff.mp h).1
  rw [readAt, List.getElem?_append_left (by rw [List.length_map]; exact hlt), List.getElem?_map, h]
  rfl

/-- Reading the cells from the first on gives what was written. -/
theorem mapM_readAt_written (written : List α) (rest : Block α) :
    (List.range written.length).mapM (readAt (written.map some ++ rest)) = .ok written := by
  rw [mapM_ok_iff, List.forall₂_iff_get]
  refine ⟨List.length_range, fun i h₁ h₂ => ?_⟩
  apply readAt_written
  rw [List.get_eq_getElem, List.get_eq_getElem, List.getElem_range]
  exact List.getElem?_eq_getElem _

/-- A loop over the indices of a list is one over its elements. -/
theorem foldlM_range {σ : Type} {f : σ → ℕ → Outcome σ} {g : σ → α → Outcome σ} {xs : List α}
    (h : ∀ i a, xs[i]? = some a → ∀ s, f s i = g s a) (s : σ) :
    (List.range xs.length).foldlM f s = xs.foldlM g s := by
  induction xs using List.reverseRecOn with
  | nil => rfl
  | append_singleton xs a ih =>
      have hlast : (xs ++ [a])[xs.length]? = some a := by
        rw [List.getElem?_append_right le_rfl, Nat.sub_self]
        rfl
      have hinit : ∀ i b, xs[i]? = some b → ∀ s, f s i = g s b := by
        intro i b hb
        apply h
        rw [List.getElem?_append_left (List.getElem?_eq_some_iff.mp hb).1]
        exact hb
      rw [List.length_append, List.length_singleton, List.range_succ, List.foldlM_append,
        List.foldlM_append, ih hinit]
      congr 1
      ext1 s'
      simp only [List.foldlM_cons, List.foldlM_nil, h _ _ hlast]

/-- An array that is passed with a length of 32 bits. -/
structure ArrayArg (α : Type) where
  elements : List α
  length_lt : elements.length < 2 ^ 32

namespace ArrayArg

/-- The constructor of a packet reads 32 bits of the length. -/
def pass (elements : List α) (len : ℕ) : ArrayArg α where
  elements := elements.take (BitVec.ofNat 32 len).toNat
  length_lt := (List.length_take_le _ _).trans_lt (BitVec.isLt _)

lemma pass_elements {elements : List α} {len : ℕ} (hlen : elements.length = len)
    (hlt : len < 2 ^ 32) : (pass elements len).elements = elements := by
  have hcount : (BitVec.ofNat 32 len).toNat = elements.length := by
    rw [BitVec.toNat_ofNat, Nat.mod_eq_of_lt hlt, hlen]
  change elements.take (BitVec.ofNat 32 len).toNat = elements
  rw [hcount, List.take_length]

end ArrayArg

end MRNet.Buffers
