import MRNet.MapErasure

/-!
# The contents of lightweight maps

Maps that are reached by insertions of new keys and by erasures hold what was inserted and not
erased. An erasure comes to an end if its index can reach the size. An insertion of a key that
is there does not keep the map in order.
-/
namespace MRNet.LightweightMap
open Codec
open Wire (Run Returns run_bind_eq_pure)
open LinkedTrees (LinkTree Context Linked Sorted sorted_node)
open LinkedTrees.LinkTree

variable {α : Type} {map map' : MrnMap α} {t t' : MapTree α} {key : Key} {val : Option α}

section Keys
variable {size j : ℕ} {keys : ℕ → Key} {found : Bool}

lemma shiftKeys_last (keys : ℕ → Key) (size : ℕ) : shiftKeys keys size (size - 1) = keys := by
  funext i
  exact if_neg (by omega)

lemma index_next (i : ℕ) : BitVec.ofNat 32 i + 1 = BitVec.ofNat 32 (i + 1) :=
  (BitVec.ofNat_add i 1).symm

lemma index_toNat {i : ℕ} (h : i < 2 ^ 32) : (BitVec.ofNat 32 i).toNat = i :=
  Nat.mod_eq_of_lt h

/-- No further key is found. -/
lemma eraseKey_none (hsize : size < 2 ^ 32) {i : ℕ} (hi : i ≤ size)
    (hnone : ∀ j, i ≤ j → j < size → keys j ≠ key) {fuel : ℕ} (hfuel : size - i < fuel) :
    eraseKey fuel size key (BitVec.ofNat 32 i) keys found = pure (keys, found) := by
  have hindex := @index_toNat i (by omega)
  obtain ⟨fuel, rfl⟩ : ∃ n, fuel = n + 1 := ⟨fuel - 1, by omega⟩
  cases hn : size - i with
  | zero => rw [eraseKey, hindex, if_neg (by omega)]
  | succ n =>
      have hlt : i < size := by omega
      rw [eraseKey, hindex, if_pos hlt, if_neg (hnone i le_rfl hlt), index_next]
      exact eraseKey_none hsize hlt (fun j hj => hnone j (by omega)) (by omega)
termination_by size - i

/-- The key is found once, and those behind it are shifted. -/
lemma eraseKey_found (hsize : size < 2 ^ 32) (hj : j < size) (hkey : keys j = key)
    (honce : ∀ i < size, keys i = key → i = j) {i : ℕ} (hi : i ≤ j) {fuel : ℕ}
    (hfuel : size - i < fuel) :
    eraseKey fuel size key (BitVec.ofNat 32 i) keys found =
      pure (shiftKeys keys size j, true) := by
  have hindex := @index_toNat i (by omega)
  obtain ⟨fuel, rfl⟩ : ∃ n, fuel = n + 1 := ⟨fuel - 1, by omega⟩
  rcases Nat.eq_or_lt_of_le hi with rfl | hlt
  · have hshift : (if i ≠ size - 1 then shiftKeys keys size i else keys) =
        shiftKeys keys size i := by
      by_cases hlast : i = size - 1
      · rw [if_neg (not_not.mpr hlast), hlast, shiftKeys_last]
      · rw [if_pos hlast]
    have hrest : ∀ k, i + 1 ≤ k → k < size → shiftKeys keys size i k ≠ key := by
      intro k hk hlt heq
      rw [shiftKeys] at heq
      split_ifs at heq with hinside
      · have := honce (k + 1) hinside.2 heq
        omega
      · have := honce k hlt heq
        omega
    rw [eraseKey, hindex, if_pos hj, if_pos hkey, hshift, index_next]
    exact eraseKey_none hsize (by omega) hrest (by omega)
  · have hne : keys i ≠ key := fun heq => by
      have := honce i (by omega) heq
      omega
    rw [eraseKey, hindex, if_pos (by omega), if_neg hne, index_next]
    exact eraseKey_found hsize hj hkey honce hlt (by omega)
termination_by j - i

/-- An index of 32 bits does not reach a larger size. -/
lemma eraseKey_stuck (hsize : 2 ^ 32 ≤ size) (fuel : ℕ) (i : BitVec 32) (keys : ℕ → Key)
    (found : Bool) : eraseKey fuel size key i keys found = ExceptT.mk none := by
  induction fuel generalizing i keys found with
  | zero => rfl
  | succ fuel ih =>
      have hlt := i.isLt
      rw [eraseKey, if_pos (by omega)]
      split_ifs <;> exact ih _ _ _

/-- What is listed without a key. -/
lemma listed_shift (hj : j < size) (hkey : keys j = key)
    (hnodup : ((List.range size).map keys).Nodup) :
    (List.range (size - 1)).map (shiftKeys keys size j) =
      ((List.range size).map keys).filter (· ≠ key) := by
  have hlength : j < ((List.range size).map keys).length := by simpa using hj
  have hget : ((List.range size).map keys)[j] = key := by simpa using hkey
  have hfilter : ((List.range size).map keys).filter (· ≠ key) =
      ((List.range size).map keys).erase key := by
    rw [hnodup.erase_eq_filter]
    refine List.filter_congr fun k _ => ?_
    by_cases hk : k = key
    · rw [hk, bne_self_eq_false]
      simp
    · rw [bne_iff_ne.mpr hk]
      simpa using hk
  have herase : ((List.range size).map keys).erase key =
      ((List.range size).map keys).eraseIdx j := by
    rw [← List.eraseIdx_idxOf_eq_erase]
    congr 1
    exact hget ▸ hnodup.idxOf_getElem j hlength
  rw [hfilter, herase]
  apply List.ext_getElem?
  intro i
  rw [List.getElem?_eraseIdx, List.getElem?_map, List.getElem?_map, List.getElem?_map]
  by_cases hi : i < size - 1
  · rw [List.getElem?_range hi, List.getElem?_range (by omega : i < size),
      List.getElem?_range (by omega : i + 1 < size), Option.map_some, shiftKeys]
    by_cases hij : i < j
    · rw [if_pos hij, if_neg (by omega)]
      rfl
    · rw [if_neg hij, if_pos (by omega)]
      rfl
  · have hend : (List.range (size - 1))[i]? = none :=
      List.getElem?_eq_none (by rw [List.length_range]; omega)
    have hnext : (List.range size)[i + 1]? = none :=
      List.getElem?_eq_none (by rw [List.length_range]; omega)
    rw [hend, if_neg (by omega), hnext]
    rfl

end Keys

/-- A node with the key is found. -/
def MrnMap.Holds (map : MrnMap α) (key : Key) : Prop := ∃ target parent,
  Returns (fun fuel => findNodeRecursive fuel map.memory map.root (hashKey key) none)
    (some target, parent)

/-- The keys of the tree are the listed ones. -/
structure Invariant (map : MrnMap α) (t : MapTree α) : Prop where
  root : map.root = t.root
  tree : IsTree map.memory t
  listed : map.listed.Perm (t.items.map Entry.key)
  room : map.size < map.allocSize

lemma nodup_keys (h : Sorted Entry.order t) : (t.items.map Entry.key).Nodup := by
  have hmap : t.items.map Entry.order = (t.items.map Entry.key).map Subtype.val := by
    rw [List.map_map]
    rfl
  exact List.Nodup.of_map _ (hmap ▸ h.nodup)

namespace Invariant
variable (h : Invariant map t)
include h

lemma nodup : map.listed.Nodup := h.listed.nodup_iff.mpr (nodup_keys h.tree.sorted)

lemma mem_listed : key ∈ map.listed ↔ ∃ e ∈ t.items, e.key = key := by
  rw [h.listed.mem_iff, List.mem_map]

lemma holds_iff : map.Holds key ↔ ∃ e ∈ t.items, e.key = key := by
  constructor
  · rintro ⟨target, parent, hfound⟩
    by_contra hnone
    push Not at hnone
    obtain ⟨last, hrun⟩ := findNode_absent h.tree.linked hnone none
    have hlost : Returns (fun fuel => findNodeRecursive fuel map.memory map.root (hashKey key) none)
        (none, last) := ⟨t.ptrs.length + 1, fun fuel hfuel => by rw [h.root]; exact hrun fuel hfuel⟩
    cases hfound.unique hlost
  · rintro ⟨e, he, rfl⟩
    obtain ⟨c, p, l, r, -, hrun⟩ := findNode_present h.tree.linked h.tree.sorted he
    exact ⟨p, _, t.ptrs.length + 1, fun fuel hfuel => by rw [h.root]; exact hrun fuel none hfuel⟩

lemma getVal_of_mem {e : Entry α} (he : e ∈ t.items) :
    Returns (fun fuel => getVal fuel map e.key) e.val := by
  obtain ⟨c, p, l, r, hfill, hrun⟩ := findNode_present h.tree.linked h.tree.sorted he
  have hcell : map.memory.heap p = some (cellOf l.root e r.root) := by
    have hlinked := h.tree.linked
    rw [hfill] at hlinked
    exact hlinked.hole.1
  refine ⟨t.ptrs.length + 1, fun fuel hfuel => ?_⟩
  have hfind := hrun fuel none hfuel
  unfold getVal
  rw [h.root]
  change findNodeRecursive fuel map.memory t.root e.key none >>= _ = _
  rw [hfind, pure_bind]
  change (liftM (map.memory.load p) : Run (MapNode α)) >>= _ = _
  rw [lift_load hcell]
  exact if_pos rfl

lemma getVal_of_absent (habsent : ∀ e ∈ t.items, e.key ≠ key) :
    Returns (fun fuel => getVal fuel map key) none := by
  obtain ⟨last, hrun⟩ := findNode_absent h.tree.linked habsent none
  refine ⟨t.ptrs.length + 1, fun fuel hfuel => ?_⟩
  have hfind := hrun fuel hfuel
  unfold getVal
  rw [h.root]
  change findNodeRecursive fuel map.memory t.root key none >>= _ = _
  rw [hfind, pure_bind]

/-- A map that holds the same under a key gives the same for it. -/
lemma getVal_same {k : Key} (h' : Invariant map' t')
    (hsame : ∀ e : Entry α, e.key = k → (e ∈ t.items ↔ e ∈ t'.items)) :
    ∃ v, Returns (fun fuel => getVal fuel map k) v ∧ Returns (fun fuel => getVal fuel map' k) v := by
  by_cases hk : ∃ e ∈ t.items, e.key = k
  · obtain ⟨e, he, rfl⟩ := hk
    exact ⟨e.val, h.getVal_of_mem he, h'.getVal_of_mem ((hsame e rfl).mp he)⟩
  · push Not at hk
    exact ⟨none, h.getVal_of_absent hk, h'.getVal_of_absent fun e he heq =>
      hk e ((hsame e heq).mpr he) heq⟩

end Invariant

lemma newMapT_invariant : Invariant (newMapT α) nil :=
  ⟨rfl, ⟨trivial, List.nodup_nil, nofun, List.Pairwise.nil⟩, .rfl, Nat.zero_lt_succ 7⟩

/-- The key is listed last whether it is new or not. -/
lemma listed_of_insert (h : Returns (fun fuel => insert fuel map key val) map') :
    map'.listed = map.listed ++ [key] := by
  obtain ⟨n, hn⟩ := h
  have hrun : insert n map key val = pure map' := hn n le_rfl
  unfold insert at hrun
  obtain ⟨⟨memory, root⟩, -, hrest⟩ := run_bind_eq_pure.mp hrun
  clear hrun hn
  dsimp only at hrest
  have hkeys : (List.range map.size).map (Function.update map.keys map.size key) =
      (List.range map.size).map map.keys := by
    refine List.map_congr_left fun i hi => Function.update_of_ne ?_ _ _
    exact ne_of_lt (List.mem_range.mp hi)
  have hlisted : (List.range (map.size + 1)).map (Function.update map.keys map.size key) =
      map.listed ++ [key] := by
    rw [List.range_succ, List.map_append, hkeys, List.map_singleton, Function.update_self]
    rfl
  rw [Nat.add_sub_cancel] at hrest
  generalize (if map.size + 1 = map.allocSize then map.allocSize + map.allocSize
    else map.allocSize) = allocSize at hrest
  by_cases halloc : map.size + 1 ≤ allocSize
  · rw [if_pos halloc] at hrest
    cases hrest
    exact hlisted
  · rw [if_neg halloc] at hrest
    cases hrest

/-- A new key is inserted with its value. -/
theorem insert_new (h : Invariant map t) (habsent : ¬map.Holds key) (val : Option α) :
    ∃ map' t', Returns (fun fuel => insert fuel map key val) map' ∧ Invariant map' t' ∧
      t'.items.Perm (⟨key, val⟩ :: t.items) := by
  rw [h.holds_iff] at habsent
  push Not at habsent
  obtain ⟨m', t', hgrown, hrun⟩ := @insertRecursive_absent _ _ _ _ val h.tree habsent
  have hroom := h.room
  have halloc : map.size + 1 < if map.size + 1 = map.allocSize then map.allocSize + map.allocSize
      else map.allocSize := by
    split_ifs <;> omega
  have hreturns : Returns (fun fuel => insert fuel map key val)
      { memory := m', root := t'.root, keys := Function.update map.keys map.size key,
        size := map.size + 1, allocSize := if map.size + 1 = map.allocSize then
          map.allocSize + map.allocSize else map.allocSize } := by
    refine ⟨t.ptrs.length + 1, fun fuel hfuel => ?_⟩
    unfold insert
    dsimp only
    rw [h.root, hrun fuel hfuel, pure_bind]
    dsimp only
    rw [if_pos (le_of_lt halloc), Nat.add_sub_cancel]
  refine ⟨_, t', hreturns, ⟨rfl, hgrown.isTree h.tree, ?_, halloc⟩, hgrown.items⟩
  rw [listed_of_insert hreturns]
  refine List.perm_append_comm.trans ((h.listed.cons key).trans ?_)
  exact (hgrown.items.map Entry.key).symm

lemma Shrunk.isTree {m m' : Memory α} {before after : List (Entry α)} {e : Entry α}
    (h : Shrunk m m' t t' before e after) (ht : IsTree m t) : IsTree m' t' := by
  obtain ⟨gone, hptrs⟩ := h.ptrs
  have hnodup := List.nodup_cons.mp (hptrs.nodup_iff.mp ht.nodup)
  refine ⟨h.linked, hnodup.2, fun p hp => ?_, ?_⟩
  · rw [h.nextPtr]
    exact ht.fresh p (hptrs.mem_iff.mpr (List.mem_cons_of_mem _ hp))
  · have hsorted := ht.sorted
    rw [Sorted, h.items] at hsorted
    rw [Sorted, h.items']
    exact hsorted.sublist (((List.sublist_cons_self e after).append_left before).map _)

/-- The entries with other keys stay. -/
lemma Shrunk.items_eq {m m' : Memory α} {before after : List (Entry α)} {e : Entry α}
    (h : Shrunk m m' t t' before e after) (ht : IsTree m t) :
    t'.items = t.items.filter (·.key ≠ e.key) := by
  have hnodup := nodup_keys ht.sorted
  rw [h.items, List.map_append, List.map_cons, List.nodup_middle, List.nodup_cons,
    List.mem_append, not_or] at hnodup
  have hbefore : before.filter (·.key ≠ e.key) = before := by
    rw [List.filter_eq_self]
    exact fun x hx => decide_eq_true fun heq => hnodup.1.1 (List.mem_map.mpr ⟨x, hx, heq⟩)
  have hafter : after.filter (·.key ≠ e.key) = after := by
    rw [List.filter_eq_self]
    exact fun x hx => decide_eq_true fun heq => hnodup.1.2 (List.mem_map.mpr ⟨x, hx, heq⟩)
  rw [h.items', h.items, List.filter_append, List.filter_cons_of_neg (by simp), hbefore, hafter]

/-- A key that is held is taken out, if the index can pass the others. -/
theorem erase_held (h : Invariant map t) (hsize : map.size < 2 ^ 32) (hholds : map.Holds key) :
    ∃ map' t', Returns (fun fuel => erase fuel map key) map' ∧ Invariant map' t' ∧
      t'.items = t.items.filter (·.key ≠ key) ∧ map'.size = map.size - 1 ∧
        map'.listed = map.listed.filter (· ≠ key) := by
  have hlisted := h.mem_listed.mpr (h.holds_iff.mp hholds)
  obtain ⟨e, he, rfl⟩ := h.holds_iff.mp hholds
  obtain ⟨j, hj, hkey⟩ := List.mem_map.mp hlisted
  rw [List.mem_range] at hj
  have honce : ∀ i < map.size, map.keys i = e.key → i = j := fun i hi heq =>
    List.inj_on_of_nodup_map h.nodup (List.mem_range.mpr hi) (List.mem_range.mpr hj)
      (heq.trans hkey.symm)
  obtain ⟨c, p, l, r, hfill, hfind⟩ := findNode_present h.tree.linked h.tree.sorted he
  obtain ⟨m', t', hshrunk, herase⟩ := eraseNode_spec h.tree hfill
  have hitems := hshrunk.items_eq h.tree
  have hlist : (List.range (map.size - 1)).map (shiftKeys map.keys map.size j) =
      map.listed.filter (· ≠ e.key) := listed_shift hj hkey h.nodup
  refine ⟨{ map with
    memory := m', root := t'.root, keys := shiftKeys map.keys map.size j, size := map.size - 1 }, t',
      ⟨max (map.size + 1) (t.ptrs.length + 1), fun fuel hfuel => ?_⟩,
      ⟨rfl, hshrunk.isTree h.tree, ?_, lt_of_le_of_lt (Nat.sub_le _ _) h.room⟩, hitems, rfl, hlist⟩
  · have hkeys := @eraseKey_found e.key map.size j map.keys false hsize hj hkey honce 0
      (Nat.zero_le j) fuel (lt_of_lt_of_le (Nat.lt_succ_of_le (Nat.sub_le _ _))
        (le_trans (le_max_left _ _) hfuel))
    have hlt : t.ptrs.length < fuel := lt_of_lt_of_le (Nat.lt_succ_self _)
      (le_trans (le_max_right _ _) hfuel)
    have htarget := hfind fuel none hlt
    rw [Option.or_none] at htarget
    unfold erase
    change eraseKey fuel map.size e.key (BitVec.ofNat 32 0) map.keys false >>= _ = _
    rw [hkeys, pure_bind]
    change findNodeRecursive fuel map.memory map.root e.key none >>= _ = _
    rw [h.root, htarget, pure_bind]
    change eraseNode fuel map.memory t.root c.parent p >>= _ = _
    rw [herase fuel hlt, pure_bind]
  · change ((List.range (map.size - 1)).map (shiftKeys map.keys map.size j)).Perm _
    rw [hlist, hitems]
    have hfilter := h.listed.filter fun k => decide (k ≠ e.key)
    rw [List.filter_map] at hfilter
    exact hfilter

lemma erase_absent (h : Invariant map t) (hsize : map.size < 2 ^ 32) (habsent : ¬map.Holds key) :
    Returns (fun fuel => erase fuel map key) map := by
  have hnone : ∀ j, 0 ≤ j → j < map.size → map.keys j ≠ key := by
    intro j _ hj heq
    apply habsent
    rw [h.holds_iff, ← h.mem_listed]
    exact List.mem_map.mpr ⟨j, List.mem_range.mpr hj, heq⟩
  refine ⟨map.size + 1, fun fuel hfuel => ?_⟩
  have hkeys := @eraseKey_none key map.size map.keys false hsize 0 (Nat.zero_le _) hnone fuel
    (lt_of_lt_of_le (Nat.lt_succ_of_le (Nat.sub_le _ _)) hfuel)
  unfold erase
  change eraseKey fuel map.size key (BitVec.ofNat 32 0) map.keys false >>= _ = _
  rw [hkeys, pure_bind]
  rfl

/-- With more keys than the index can count an erasure goes on forever. -/
lemma erase_stuck (hsize : 2 ^ 32 ≤ map.size) : ¬Returns (fun fuel => erase fuel map key) map' := by
  rintro ⟨n, hn⟩
  have hrun : erase n map key = pure map' := hn n le_rfl
  unfold erase at hrun
  rw [eraseKey_stuck hsize] at hrun
  cases hrun

/-- Built by insertions of keys that are not held, and by erasures. -/
inductive Built : MrnMap α → Prop
  | new : Built (newMapT α)
  | insert {map map' : MrnMap α} {key : Key} {val : Option α} (h : Built map)
      (habsent : ¬map.Holds key) (hinsert : Returns (fun fuel => insert fuel map key val) map') :
      Built map'
  | erase {map map' : MrnMap α} {key : Key} (h : Built map)
      (herase : Returns (fun fuel => erase fuel map key) map') : Built map'

theorem Built.invariant (h : Built map) : ∃ t, Invariant map t := by
  induction h with
  | new => exact ⟨nil, newMapT_invariant⟩
  | @insert map map' key val _ habsent hinsert ih =>
      obtain ⟨t, ht⟩ := ih
      obtain ⟨map₂, t', hreturns, ht', -⟩ := insert_new ht habsent val
      exact ⟨t', hinsert.unique hreturns ▸ ht'⟩
  | @erase map map' key _ herase ih =>
      obtain ⟨t, ht⟩ := ih
      have hsize : map.size < 2 ^ 32 := by
        by_contra hlarge
        exact erase_stuck (not_lt.mp hlarge) herase
      by_cases hholds : map.Holds key
      · obtain ⟨map₂, t', hreturns, ht', -⟩ := erase_held ht hsize hholds
        exact ⟨t', herase.unique hreturns ▸ ht'⟩
      · exact ⟨t, herase.unique (erase_absent ht hsize hholds) ▸ ht⟩

/-- A search tree is at the root. -/
def MrnMap.InOrder (map : MrnMap α) : Prop :=
  ∃ t : MapTree α, map.root = t.root ∧ IsTree map.memory t

/-- The keys that are held are listed once each, and no others. -/
structure MrnMap.ListsKeys (map : MrnMap α) : Prop where
  nodup : map.listed.Nodup
  mem_iff : ∀ key, key ∈ map.listed ↔ map.Holds key

/-- Both maps give the same for a key. -/
def SameVal (map map' : MrnMap α) (key : Key) : Prop :=
  ∃ val, Returns (fun fuel => getVal fuel map key) val ∧ Returns (fun fuel => getVal fuel map' key) val

lemma Invariant.inOrder (h : Invariant map t) : map.InOrder := ⟨t, h.root, h.tree⟩

lemma Invariant.listsKeys (h : Invariant map t) : map.ListsKeys :=
  ⟨h.nodup, fun _ => h.mem_listed.trans h.holds_iff.symm⟩

/-- What an exact erasure does. -/
structure Erased (map map' : MrnMap α) (key : Key) : Prop where
  inOrder : map'.InOrder
  gone : Returns (fun fuel => getVal fuel map' key) none
  kept : ∀ other, other ≠ key → SameVal map map' other
  size_of_held : map.Holds key → map'.size + 1 = map.size
  size_of_absent : ¬map.Holds key → map'.size = map.size
  listed : map'.listed = map.listed.filter (· ≠ key)
  listsKeys : map'.ListsKeys

/-- An erasure comes to an end if and only if the size can be reached by its index of 32 bits, and
then it is exact. -/
theorem erase_exact_iff (h : Built map) (key : Key) :
    (∃ map', Returns (fun fuel => erase fuel map key) map' ∧ Erased map map' key) ↔
      map.size < 2 ^ 32 := by
  constructor
  · rintro ⟨map', herase, -⟩
    by_contra hlarge
    exact erase_stuck (not_lt.mp hlarge) herase
  intro hsize
  obtain ⟨t, ht⟩ := h.invariant
  by_cases hholds : map.Holds key
  · obtain ⟨map', t', herase, ht', hitems, hsize', hlisted⟩ := erase_held ht hsize hholds
    have hpos : 0 < map.size := by
      obtain ⟨j, hj, -⟩ := List.mem_map.mp (ht.listsKeys.mem_iff key |>.mpr hholds)
      exact Nat.zero_lt_of_lt (List.mem_range.mp hj)
    refine ⟨map', herase, ht'.inOrder, ht'.getVal_of_absent fun e he => ?_, fun other hne => ?_,
      fun _ => by omega, fun hno => absurd hholds hno, hlisted, ht'.listsKeys⟩
    · rw [hitems, List.mem_filter] at he
      exact of_decide_eq_true he.2
    · refine ht.getVal_same ht' fun e he => ?_
      rw [hitems, List.mem_filter]
      exact ⟨fun hmem => ⟨hmem, decide_eq_true (he ▸ hne)⟩, And.left⟩
  · have habsent : key ∉ map.listed := fun hmem => hholds ((ht.listsKeys.mem_iff key).mp hmem)
    refine ⟨map, erase_absent ht hsize hholds, ht.inOrder, ht.getVal_of_absent fun e he heq => ?_,
      fun other _ => ht.getVal_same ht fun _ _ => Iff.rfl, fun hyes => absurd hyes hholds,
      fun _ => rfl, ?_, ht.listsKeys⟩
    · exact hholds (ht.holds_iff.mpr ⟨e, he, heq⟩)
    · rw [eq_comm, List.filter_eq_self]
      exact fun k hk => decide_eq_true fun heq => habsent (heq ▸ hk)

/-- The map after an insertion on little fuel. -/
def MrnMap.withKey (map : MrnMap ℕ) (key : Key) (val : ℕ) : MrnMap ℕ :=
  match (insert 8 map key (some val)).run with
  | some (.ok map') => map'
  | _ => map

lemma built_withKey {map : MrnMap ℕ} (h : Built map) (key : Key) (val : ℕ)
    (hnew : key ∉ map.listed)
    (hinsert : ∀ fuel, insert (fuel + 8) map key (some val) = pure (map.withKey key val)) :
    Built (map.withKey key val) := by
  obtain ⟨t, ht⟩ := h.invariant
  have hreturns : Returns (fun fuel => insert fuel map key (some val)) (map.withKey key val) := by
    refine ⟨8, fun fuel hfuel => ?_⟩
    obtain ⟨fuel, rfl⟩ := Nat.exists_eq_add_of_le' hfuel
    exact hinsert fuel
  exact h.insert (fun hholds => hnew ((ht.listsKeys.mem_iff key).mpr hholds)) hreturns

/-- The root has two subtrees, and the largest key of the left one is not next to it. -/
def sampleMap : MrnMap ℕ :=
  (((((newMapT ℕ).withKey ⟨5, by decide⟩ 50).withKey ⟨2, by decide⟩ 20).withKey ⟨8, by decide⟩
    80).withKey ⟨1, by decide⟩ 10).withKey ⟨3, by decide⟩ 30

lemma sampleMap_built : Built sampleMap := by
  have hroot := built_withKey .new ⟨5, by decide⟩ 50 (by decide) fun _ => rfl
  have hleft := built_withKey hroot ⟨2, by decide⟩ 20 (by decide) fun _ => rfl
  have hright := built_withKey hleft ⟨8, by decide⟩ 80 (by decide) fun _ => rfl
  have hleaf := built_withKey hright ⟨1, by decide⟩ 10 (by decide) fun _ => rfl
  exact built_withKey hleaf ⟨3, by decide⟩ 30 (by decide) fun _ => rfl

/-- The root is erased, and the other keys keep their values. -/
theorem erase_exact_root :
    ∃ map', Returns (fun fuel => erase fuel sampleMap ⟨5, by decide⟩) map' ∧
      Erased sampleMap map' ⟨5, by decide⟩ :=
  (erase_exact_iff sampleMap_built ⟨5, by decide⟩).mpr (by decide)

/-- Every list of keys can be inserted. -/
lemma exists_built (keys : List Key) (hnodup : keys.Nodup) : ∃ (map : MrnMap Unit) (t : MapTree Unit),
    Built map ∧ Invariant map t ∧ (t.items.map Entry.key).Perm keys := by
  induction keys with
  | nil => exact ⟨_, nil, .new, newMapT_invariant, .rfl⟩
  | cons key keys ih =>
      obtain ⟨hnew, hnodup⟩ := List.nodup_cons.mp hnodup
      obtain ⟨map, t, hbuilt, ht, hperm⟩ := ih hnodup
      have habsent : ¬map.Holds key := by
        rw [ht.holds_iff]
        rintro ⟨e, he, rfl⟩
        exact hnew (hperm.mem_iff.mp (List.mem_map_of_mem he))
      obtain ⟨map', t', hinsert, ht', hitems⟩ := insert_new ht habsent none
      exact ⟨map', t', hbuilt.insert habsent hinsert, ht',
        (hitems.map Entry.key).trans (hperm.cons key)⟩

lemma int_range (i : Fin (2 ^ 32)) :
    -2 ^ 31 ≤ (i.val : ℤ) - 2 ^ 31 ∧ (i.val : ℤ) - 2 ^ 31 < 2 ^ 31 := by
  omega

/-- All the numbers of type `int`. -/
def allKeys : List Key := List.ofFn fun i : Fin (2 ^ 32) => ⟨(i.val : ℤ) - 2 ^ 31, int_range i⟩

lemma allKeys_nodup : allKeys.Nodup := by
  rw [allKeys, List.nodup_ofFn]
  intro i j hij
  have hval := Subtype.ext_iff.mp hij
  exact Fin.ext (by simpa using hval)

/-- A map of all keys is built, and nothing can be erased from it. -/
theorem erase_not_exact : ¬∀ (map : MrnMap Unit) (key : Key), Built map →
    ∃ map', Returns (fun fuel => erase fuel map key) map' ∧ Erased map map' key := by
  intro hexact
  obtain ⟨map, t, hbuilt, ht, hperm⟩ := exists_built allKeys allKeys_nodup
  have hsize : map.size = 2 ^ 32 := by
    have hlength := (ht.listed.trans hperm).length_eq
    rwa [MrnMap.listed, List.length_map, List.length_range, allKeys, List.length_ofFn] at hlength
  obtain ⟨map', herase, -⟩ := hexact map ⟨0, by decide⟩ hbuilt
  exact erase_stuck hsize.ge herase

/-- What an insertion does that leaves the map undamaged. -/
structure Inserted (map map' : MrnMap α) (key : Key) (val : Option α) : Prop where
  kept : ∀ other, other ≠ key → SameVal map map' other
  old : map.Holds key → SameVal map map' key
  new : ¬map.Holds key → Returns (fun fuel => getVal fuel map' key) val
  holds : map'.Holds key
  listsKeys : map'.ListsKeys

/-- An insertion leaves the map undamaged if and only if the key is new. -/
theorem insert_undamaged_iff (h : Built map) (key : Key) (val : Option α) :
    (∃ map', Returns (fun fuel => insert fuel map key val) map' ∧ Inserted map map' key val) ↔
      ¬map.Holds key := by
  obtain ⟨t, ht⟩ := h.invariant
  constructor
  · rintro ⟨map', hinsert, hinserted⟩ hholds
    have hnodup := hinserted.listsKeys.nodup
    rw [listed_of_insert hinsert, List.nodup_append] at hnodup
    exact hnodup.2.2 key ((ht.listsKeys.mem_iff key).mpr hholds) key List.mem_cons_self rfl
  intro habsent
  obtain ⟨map', t', hinsert, ht', hitems⟩ := insert_new ht habsent val
  have hmem : ⟨key, val⟩ ∈ t'.items := hitems.mem_iff.mpr List.mem_cons_self
  refine ⟨map', hinsert, fun other hne => ht.getVal_same ht' fun e he => ?_,
    fun hholds => absurd hholds habsent, fun _ => ht'.getVal_of_mem hmem,
    ht'.holds_iff.mpr ⟨_, hmem, rfl⟩, ht'.listsKeys⟩
  rw [hitems.mem_iff, List.mem_cons]
  refine ⟨.inr, fun hor => hor.resolve_left ?_⟩
  rintro rfl
  exact hne he.symm

/-- A key with a value is put below the others. -/
theorem insert_undamaged_below :
    ∃ map', Returns (fun fuel => insert fuel sampleMap ⟨4, by decide⟩ (some 40)) map' ∧
      Inserted sampleMap map' ⟨4, by decide⟩ (some 40) := by
  refine (insert_undamaged_iff sampleMap_built ⟨4, by decide⟩ (some 40)).mpr fun hholds => ?_
  obtain ⟨t, ht⟩ := sampleMap_built.invariant
  exact absurd ((ht.listsKeys.mem_iff _).mpr hholds) (by decide)

/-- A key that is inserted twice is listed twice. -/
theorem insert_damages : ¬∀ (map : MrnMap Unit) (key : Key) (val : Option Unit), Built map →
    ∃ map', Returns (fun fuel => insert fuel map key val) map' ∧ Inserted map map' key val := by
  intro hundamaged
  have habsent : ¬(newMapT Unit).Holds ⟨0, by decide⟩ := fun hholds => by
    obtain ⟨e, he, -⟩ := newMapT_invariant.holds_iff.mp hholds
    cases he
  obtain ⟨map, t, hfirst, -, -⟩ := insert_new newMapT_invariant habsent none
  obtain ⟨map', hagain, hinserted⟩ :=
    hundamaged map ⟨0, by decide⟩ none (Built.new.insert habsent hfirst)
  have hnodup := hinserted.listsKeys.nodup
  rw [listed_of_insert hagain, listed_of_insert hfirst] at hnodup
  exact absurd hnodup (by decide)

end MRNet.LightweightMap
