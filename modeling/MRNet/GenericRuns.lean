import MRNet.GenericSpec
import MRNet.PlannedTrees

/-!
# Runs of the generic generator

The nodes that are available to each level are known from the host lists and the numbers that are
listed. With them the run of each level is known: hosts are missing, more numbers are listed than
there are nodes above, or the level is connected.
-/
namespace MRNet.TopologyFile.GenericTree
open Codec DepthFirst
open Wire (Run Returns)
open SerialGraph (Text)
open BalancedTree (total)
open Plan (levelEdges total_cons)

section Ends
variable {α β : Type} {m : ℕ → Run α} {r : ℕ → Run β}

/-- With any fuel the run is cut off or goes on in this way. -/
def EndsIn (m r : ℕ → Run α) : Prop := ∀ fuel, m fuel = ExceptT.mk none ∨ m fuel = r fuel

/-- With enough fuel it does go on. -/
structure Ends (m r : ℕ → Run α) : Prop where
  within : EndsIn m r
  enough : ∃ n, ∀ fuel ≥ n, m fuel = r fuel

lemma Ends.refl (m : ℕ → Run α) : Ends m m := ⟨fun _ => .inr rfl, 0, fun _ _ => rfl⟩

lemma EndsIn.bind {a : α} {f : ℕ → α → Run β} (h : EndsIn m fun _ => pure a)
    (hf : EndsIn (fun fuel => f fuel a) r) : EndsIn (fun fuel => m fuel >>= f fuel) r := by
  intro fuel
  dsimp only
  rcases h fuel with hm | hm
  · rw [hm]
    exact .inl rfl
  · rw [hm, pure_bind]
    exact hf fuel

lemma Ends.bind {a : α} {f : ℕ → α → Run β} (h : Ends m fun _ => pure a)
    (hf : Ends (fun fuel => f fuel a) r) : Ends (fun fuel => m fuel >>= f fuel) r := by
  obtain ⟨n, hn⟩ := h.enough
  obtain ⟨k, hk⟩ := hf.enough
  refine ⟨h.within.bind hf.within, max n k, fun fuel hfuel => ?_⟩
  rw [hn fuel (le_trans (le_max_left n k) hfuel), pure_bind]
  exact hk fuel (le_trans (le_max_right n k) hfuel)

lemma Ends.bind_throw {e : Stop} {f : ℕ → α → Run β} (h : Ends m fun _ => throw e) :
    Ends (fun fuel => m fuel >>= f fuel) fun _ => throw e := by
  obtain ⟨n, hn⟩ := h.enough
  refine ⟨fun fuel => ?_, n, fun fuel hfuel => ?_⟩
  · rcases h.within fuel with hm | hm <;> rw [hm]
    · exact .inl rfl
    · exact .inr rfl
  · rw [hn fuel hfuel]
    rfl

end Ends

variable {address : Name → ℕ} {counts : List (BitVec 32)} {nodes names avail : List Name}
  {edges : List (Name × Name)} {p : Name} {t : Tree}

/-- The next available nodes are made and become children. -/
lemma addChildren_spec (h : t.Built names edges) (hp : p ∈ names) (n : ℕ) :
    if n ≤ avail.length then
      ∃ t', addChildren address p n t avail = some (t', avail.take n, avail.drop n) ∧
        t'.Built (names ++ avail.take n) (edges ++ (avail.take n).map (p, ·)) ∧ t'.root = t.root
    else addChildren address p n t avail = none := by
  induction n generalizing t names edges avail with
  | zero =>
      rw [if_pos (Nat.zero_le _)]
      exact ⟨t, rfl, by simpa using h, rfl⟩
  | succ n ih =>
      cases avail with
      | nil =>
          rw [if_neg (by simp)]
          rfl
      | cons child avail =>
          have hchild := (h.getNode child).addChild address (List.mem_append_left _ hp) child
          have hrest := @ih _ avail _ _ hchild (List.mem_append_left _ hp)
          have hroot : ((t.getNode child).addChild address p child).root = t.root :=
            Tree.getNode_root t child
          rw [List.length_cons]
          by_cases hn : n ≤ avail.length
          · rw [if_pos hn] at hrest
            rw [if_pos (by omega)]
            obtain ⟨t', hrun, hbuilt, hsame⟩ := hrest
            refine ⟨t', ?_, ?_, hsame.trans hroot⟩
            · rw [addChildren]
              dsimp only
              rw [hrun]
              rfl
            · simpa using hbuilt
          · rw [if_neg hn] at hrest
            rw [if_neg (by omega), addChildren]
            dsimp only
            rw [hrest]
            rfl

variable (address) in
/-- The level without an index: numbers and nodes side by side. -/
def followLevel : List (BitVec 32) → List Name → Tree → List Name → List Name →
    Outcome (Option (Tree × List Name × List Name))
  | [], _, t, next, avail => return some (t, next, avail)
  | _ :: _, [], _, _, _ => throw (.fault .readPast)
  | n :: counts, p :: nodes, t, next, avail =>
      match addChildren address p n.toNat t avail with
      | none => return none
      | some (t, children, avail) => followLevel counts nodes t (next ++ children) avail

/-- An index that does not wrap. -/
lemma connectLevel_follow (hsmall : counts.length < 2 ^ 32 ∨ nodes.length < 2 ^ 32) (fuel : ℕ) {i : ℕ}
    (hcounts : i ≤ counts.length) (hnodes : i ≤ nodes.length) (t : Tree) (next avail : List Name) :
    (connectLevel address counts nodes fuel (BitVec.ofNat 32 i) t next avail = ExceptT.mk none ∧
        fuel ≤ counts.length - i) ∨
      connectLevel address counts nodes fuel (BitVec.ofNat 32 i) t next avail =
        liftM (followLevel address (counts.drop i) (nodes.drop i) t next avail) := by
  induction fuel generalizing i t next avail with
  | zero => exact .inl ⟨rfl, Nat.zero_le _⟩
  | succ fuel ih =>
      have hindex : (BitVec.ofNat 32 i).toNat = i := Nat.mod_eq_of_lt (by omega)
      rw [connectLevel, hindex]
      rcases Nat.eq_or_lt_of_le hcounts with heq | hlt
      · rw [List.getElem?_eq_none heq.ge, List.drop_eq_nil_of_le heq.ge]
        exact .inr rfl
      rw [List.getElem?_eq_getElem hlt, List.drop_eq_getElem_cons hlt]
      rcases Nat.eq_or_lt_of_le hnodes with heq | hlt'
      · rw [List.getElem?_eq_none heq.ge, List.drop_eq_nil_of_le heq.ge]
        exact .inr rfl
      rw [List.getElem?_eq_getElem hlt', List.drop_eq_getElem_cons hlt', followLevel]
      dsimp only
      cases addChildren address nodes[i] counts[i].toNat t avail with
      | none => exact .inr rfl
      | some result =>
          obtain ⟨t', children, rest⟩ := result
          have hnext : BitVec.ofNat 32 i + 1 = BitVec.ofNat 32 (i + 1) := (BitVec.ofNat_add i 1).symm
          dsimp only
          rw [hnext]
          exact (ih hlt hlt' t' (next ++ children) rest).imp_left fun hcut => ⟨hcut.1, by omega⟩

lemma connectLevel_ends (hsmall : counts.length < 2 ^ 32 ∨ nodes.length < 2 ^ 32) (t : Tree)
    (avail : List Name) : Ends (fun fuel => connectLevel address counts nodes fuel 0 t [] avail)
      fun _ => liftM (followLevel address counts nodes t [] avail) := by
  refine ⟨fun fuel => ?_, counts.length + 1, fun fuel hfuel => ?_⟩
  · exact (connectLevel_follow hsmall fuel (Nat.zero_le _) (Nat.zero_le _) t [] avail).imp_left
      And.left
  · exact (connectLevel_follow hsmall fuel (Nat.zero_le _) (Nat.zero_le _) t [] avail).resolve_left
      fun hcut => absurd hcut.2 (by omega)

/-- With as many numbers and nodes as an index can count the loop only ends by missing hosts. -/
lemma connectLevel_endless (hcounts : 2 ^ 32 ≤ counts.length) (hnodes : 2 ^ 32 ≤ nodes.length)
    (fuel : ℕ) (i : BitVec 32) (t : Tree) (next avail : List Name) :
    connectLevel address counts nodes fuel i t next avail = ExceptT.mk none ∨
      connectLevel address counts nodes fuel i t next avail = pure none := by
  induction fuel generalizing i t next avail with
  | zero => exact .inl rfl
  | succ fuel ih =>
      have hi := i.isLt
      rw [connectLevel, List.getElem?_eq_getElem (by omega), List.getElem?_eq_getElem (by omega)]
      dsimp only
      split
      · exact .inr rfl
      · exact ih _ _ _ _

lemma total_nil : total [] = 0 := rfl

lemma levelEdges_take (counts : List (BitVec 32)) (nodes avail : List Name) :
    levelEdges counts nodes (avail.take (total counts)) = levelEdges counts nodes avail := by
  induction counts generalizing nodes avail with
  | nil => rfl
  | cons n counts ih =>
      cases nodes with
      | nil => rfl
      | cons p nodes =>
          rw [levelEdges, levelEdges, total_cons, List.take_take, Nat.min_eq_left (by omega),
            List.drop_take, Nat.add_sub_cancel_left, ih]

/-- What a level comes to. -/
theorem followLevel_spec (h : t.Built names edges) (hnodes : ∀ p ∈ nodes, p ∈ names)
    (next : List Name) :
    if avail.length < total (counts.take nodes.length) then
      followLevel address counts nodes t next avail = .ok none
    else if nodes.length < counts.length then
      followLevel address counts nodes t next avail = .error (.fault .readPast)
    else ∃ t', followLevel address counts nodes t next avail =
        .ok (some (t', next ++ avail.take (total counts), avail.drop (total counts))) ∧
      t'.Built (names ++ avail.take (total counts)) (edges ++ levelEdges counts nodes avail) ∧
        t'.root = t.root := by
  induction counts generalizing nodes t names edges avail next with
  | nil =>
      rw [List.take_nil, total_nil, List.length_nil, if_neg (Nat.not_lt_zero _),
        if_neg (Nat.not_lt_zero _)]
      exact ⟨t, by simp [followLevel]; rfl, by simpa [total, levelEdges] using h, rfl⟩
  | cons n counts ih =>
      cases nodes with
      | nil =>
          rw [List.length_nil, List.take_zero, total_nil, List.length_cons,
            if_neg (Nat.not_lt_zero _), if_pos (Nat.zero_lt_succ _)]
          rfl
      | cons p nodes =>
          obtain ⟨hp, hnodes⟩ := List.forall_mem_cons.mp hnodes
          have hchildren := @addChildren_spec address names avail edges p t h hp n.toNat
          rw [List.length_cons, List.length_cons, List.take_succ_cons, total_cons, total_cons,
            followLevel]
          by_cases hn : n.toNat ≤ avail.length
          · rw [if_pos hn] at hchildren
            obtain ⟨t', hrun, hbuilt, hroot⟩ := hchildren
            have hrest := @ih nodes _ (avail.drop n.toNat) _ t' hbuilt
              (fun q hq => List.mem_append_left _ (hnodes q hq)) (next ++ avail.take n.toNat)
            rw [List.length_drop] at hrest
            rw [hrun]
            dsimp only
            by_cases hfew : avail.length < n.toNat + total (counts.take nodes.length)
            · rw [if_pos (by omega)] at hrest
              rw [if_pos hfew]
              exact hrest
            rw [if_neg (by omega)] at hrest
            rw [if_neg hfew]
            by_cases hmore : nodes.length < counts.length
            · rw [if_pos hmore] at hrest
              rw [if_pos (by omega)]
              exact hrest
            rw [if_neg hmore] at hrest
            rw [if_neg (by omega)]
            obtain ⟨t'', hrun', hbuilt', hroot'⟩ := hrest
            refine ⟨t'', ?_, ?_, hroot'.trans hroot⟩
            · rw [hrun', List.append_assoc, ← List.take_add, List.drop_drop]
            · rw [List.append_assoc, ← List.take_add, List.append_assoc] at hbuilt'
              exact hbuilt'
          · rw [if_neg hn] at hchildren
            rw [if_pos (by omega), hchildren]
            rfl

end MRNet.TopologyFile.GenericTree
