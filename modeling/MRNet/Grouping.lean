import Mathlib.Data.List.Basic
import Std.Data.TreeMap.Lemmas

/-!
# Members by key

A sequence of members, each listed for a key, and the ordered map from the keys to their
members. Two sequences with the same members for every key make the same map.
-/
namespace MRNet.Grouping
open Std

variable {K M : Type} [DecidableEq K]

/-- The members that are listed for a key, in their order. -/
def membersOf (k : K) (listed : List (K × M)) : List M :=
  (listed.filter fun entry => entry.1 = k).map Prod.snd

lemma membersOf_append (k : K) (xs ys : List (K × M)) :
    membersOf k (xs ++ ys) = membersOf k xs ++ membersOf k ys := by
  rw [membersOf, List.filter_append, List.map_append]
  rfl

lemma membersOf_flatMap {α : Type} (k : K) (f : α → List (K × M)) (xs : List α) :
    membersOf k (xs.flatMap f) = xs.flatMap fun x => membersOf k (f x) := by
  induction xs with
  | nil => rfl
  | cons x xs ih => rw [List.flatMap_cons, List.flatMap_cons, membersOf_append, ih]

/-- Entries that are all for one key. -/
lemma membersOf_same (k k' : K) (ms : List M) :
    membersOf k (ms.map fun m => (k', m)) = if k' = k then ms else [] := by
  rw [membersOf, List.filter_map, List.map_map]
  split_ifs with h
  · have hall : ∀ m ∈ ms, ((fun entry : K × M => decide (entry.1 = k)) ∘ fun m => (k', m)) m :=
      fun m _ => decide_eq_true h
    rw [List.filter_eq_self.mpr hall]
    exact List.map_id ms
  · have hnone : ∀ m ∈ ms, ¬((fun entry : K × M => decide (entry.1 = k)) ∘ fun m => (k', m)) m :=
      fun m _ => by simpa using h
    rw [List.filter_eq_nil_iff.mpr hnone]
    rfl

/-- The entries of a list of keys with their members. -/
def entries (classes : List (K × List M)) : List (K × M) :=
  classes.flatMap fun c => c.2.map fun m => (c.1, m)

lemma membersOf_entries_of_ne {classes : List (K × List M)} {k : K} (h : ∀ c ∈ classes, c.1 ≠ k) :
    membersOf k (entries classes) = [] := by
  rw [entries, membersOf_flatMap, List.flatMap_eq_nil_iff]
  intro c hc
  rw [membersOf_same, if_neg (h c hc)]

lemma membersOf_entries_of_mem {classes : List (K × List M)} {k : K} {ms : List M}
    (hdistinct : classes.Pairwise fun c d => c.1 ≠ d.1) (h : (k, ms) ∈ classes) :
    membersOf k (entries classes) = ms := by
  induction classes with
  | nil => cases h
  | cons c classes ih =>
      obtain ⟨hfirst, hrest⟩ := List.pairwise_cons.mp hdistinct
      have hcons : entries (c :: classes) = (c.2.map fun m => (c.1, m)) ++ entries classes := rfl
      rw [hcons, membersOf_append, membersOf_same]
      rcases List.mem_cons.mp h with rfl | hmem
      · rw [if_pos rfl, membersOf_entries_of_ne fun d hd => (hfirst d hd).symm, List.append_nil]
      · rw [if_neg (hfirst _ hmem), List.nil_append, ih hrest hmem]

/-- As many entries as members of all keys. -/
lemma length_eq_of_membersOf {xs ys : List (K × M)} (h : ∀ k, membersOf k xs = membersOf k ys) :
    xs.length = ys.length := by
  have hcount : ∀ (k : K) (zs : List (K × M)), (zs.map Prod.fst).count k = (membersOf k zs).length := by
    intro k zs
    rw [List.count, List.countP_map, membersOf, List.length_map, List.countP_eq_length_filter]
    rfl
  have hperm : (xs.map Prod.fst).Perm (ys.map Prod.fst) := by
    rw [List.perm_iff_count]
    intro k
    rw [hcount, hcount, h k]
  have hlength := hperm.length_eq
  rwa [List.length_map, List.length_map] at hlength

omit [DecidableEq K] in
lemma length_le_length_entries {classes : List (K × List M)} (h : ∀ c ∈ classes, c.2 ≠ []) :
    classes.length ≤ (entries classes).length := by
  induction classes with
  | nil => exact Nat.le_refl _
  | cons c classes ih =>
      obtain ⟨hc, hrest⟩ := List.forall_mem_cons.mp h
      have hpos := List.length_pos_iff.mpr hc
      have htail := ih hrest
      have hcons : entries (c :: classes) = (c.2.map fun m => (c.1, m)) ++ entries classes := rfl
      rw [hcons, List.length_append, List.length_map, List.length_cons]
      omega

variable {cmp : K → K → Ordering}

/-- A member is added behind the others of its key. -/
def push (classes : TreeMap K (List M) cmp) (k : K) (m : M) : TreeMap K (List M) cmp :=
  classes.alter k fun ms => some (ms.getD [] ++ [m])

/-- The map has the members of every key that has some. -/
def Groups (listed : List (K × M)) (classes : TreeMap K (List M) cmp) : Prop :=
  ∀ k : K, classes[k]? = if membersOf k listed = [] then none else some (membersOf k listed)

section Lawful

variable [TransCmp cmp] {listed listed' : List (K × M)} {classes classes' : TreeMap K (List M) cmp}

theorem Groups.empty : Groups ([] : List (K × M)) (∅ : TreeMap K (List M) cmp) :=
  fun _ => TreeMap.getElem?_emptyc

variable [LawfulEqCmp cmp]

theorem Groups.push (h : Groups listed classes) (k : K) (m : M) :
    Groups (listed ++ [(k, m)]) (push classes k m) := by
  intro k'
  have hone : membersOf k' [(k, m)] = if k = k' then [m] else [] := membersOf_same k' k [m]
  rw [Grouping.push, TreeMap.getElem?_alter, membersOf_append, hone]
  by_cases hk : k = k'
  · subst hk
    have hne : membersOf k listed ++ [m] ≠ [] := List.append_ne_nil_of_right_ne_nil _ (by simp)
    rw [if_pos ReflCmp.compare_self, if_pos rfl, if_neg hne, h k]
    split_ifs with hnil
    · rw [hnil]
      rfl
    · rfl
  · rw [if_neg fun hcmp => hk (LawfulEqCmp.eq_of_compare hcmp), if_neg hk, List.append_nil, h k']

/-- Several members of one key. -/
theorem Groups.pushes (h : Groups listed classes) (k : K) (ms : List M) :
    Groups (listed ++ ms.map fun m => (k, m)) (ms.foldl (fun classes m => Grouping.push classes k m)
      classes) := by
  induction ms generalizing listed classes with
  | nil =>
      rw [List.map_nil, List.append_nil]
      exact h
  | cons m ms ih =>
      have hnext := ih (h.push k m)
      rw [List.append_assoc, List.singleton_append] at hnext
      exact hnext

theorem Groups.ne_nil (h : Groups listed classes) {k : K} {ms : List M}
    (hmem : (k, ms) ∈ classes.toList) : ms ≠ [] := by
  have hsome := TreeMap.mem_toList_iff_getElem?_eq_some.mp hmem
  rw [h k] at hsome
  split_ifs at hsome with hne
  cases hsome
  exact hne

/-- The map is read back key by key. -/
theorem Groups.membersOf_entries (h : Groups listed classes) (k : K) :
    membersOf k (entries classes.toList) = membersOf k listed := by
  have hdistinct : classes.toList.Pairwise fun c d => c.1 ≠ d.1 :=
    TreeMap.distinct_keys_toList.imp ReflCmp.ne_of_cmp_ne_eq
  have hget := h k
  split_ifs at hget with hnil
  · rw [hnil]
    apply membersOf_entries_of_ne
    rintro ⟨k', ms⟩ hmem rfl
    rw [TreeMap.mem_toList_iff_getElem?_eq_some.mp hmem] at hget
    cases hget
  · exact membersOf_entries_of_mem hdistinct (TreeMap.mem_toList_iff_getElem?_eq_some.mpr hget)

theorem Groups.toList_eq (h : Groups listed classes) (h' : Groups listed' classes')
    (hsame : ∀ k, membersOf k listed = membersOf k listed') : classes.toList = classes'.toList := by
  apply TreeMap.Equiv.toList_eq
  apply TreeMap.Equiv.of_forall_constGet?_eq
  intro k
  rw [h k, h' k, hsame k]

end Lawful
end MRNet.Grouping
