import MRNet.GrownTrees

/-!
# Unique paths

A graph is a tree with a given root exactly if one path leads from the root to each node. Paths
may run through a node more than once, so that a cycle makes more of them.
-/
namespace DepthFirst
open Relation

variable {α : Type}

/-- A path from the root, with the nodes that it goes through. -/
inductive IsPath (edges : List (α × α)) (root : α) : α → List α → Prop
  | root : IsPath edges root root [root]
  | tail {a b : α} {p : List α} (h : IsPath edges root a p) (he : (a, b) ∈ edges) :
      IsPath edges root b (p ++ [b])

variable {edges : List (α × α)} {nodes p q : List α} {root v : α}

lemma IsPath.ne_nil (h : IsPath edges root v p) : p ≠ [] := by
  cases h with
  | root => exact List.cons_ne_nil _ _
  | tail _ _ => exact List.concat_ne_nil _ _

lemma IsPath.getLast? (h : IsPath edges root v p) : p.getLast? = some v := by
  cases h with
  | root => rfl
  | tail _ _ => exact List.getLast?_concat

lemma exists_path (h : ReflTransGen (fun a b => (a, b) ∈ edges) root v) :
    ∃ p, IsPath edges root v p := by
  induction h with
  | refl => exact ⟨[root], .root⟩
  | tail _ he ih =>
      obtain ⟨p, hp⟩ := ih
      exact ⟨_, hp.tail he⟩

lemma IsPath.reaches (h : IsPath edges root v p) :
    ReflTransGen (fun a b => (a, b) ∈ edges) root v := by
  induction h with
  | root => exact .refl
  | tail _ he ih => exact ih.tail he

variable [DecidableEq α]

/-- In a tree the last step of a path is known, and so are the steps before. -/
lemma IsRootedTree.path_unique (htree : IsRootedTree nodes edges root)
    (hends : ∀ e ∈ edges, e.2 ∈ nodes) (hp : IsPath edges root v p) (hq : IsPath edges root v q) :
    p = q := by
  induction hp generalizing q with
  | root =>
      cases hq with
      | root => rfl
      | tail _ he => exact absurd (List.mem_map_of_mem (f := Prod.snd) he) htree.root_first
  | @tail a b p _ he ih =>
      cases hq with
      | root => exact absurd (List.mem_map_of_mem (f := Prod.snd) he) htree.root_first
      | @tail c _ q hc he' =>
          obtain rfl : a = c := htree.parent_unique (hends _ he) he he'
          rw [ih hc]

/-- One path each, and no edge to the root and two edges to no node. -/
theorem isRootedTree_iff_existsUnique_path (hnodup : edges.Nodup)
    (hends : ∀ e ∈ edges, e.1 ∈ nodes ∧ e.2 ∈ nodes) (hroot : root ∈ nodes) :
    IsRootedTree nodes edges root ↔ ∀ v ∈ nodes, ∃! p, IsPath edges root v p := by
  constructor
  · intro htree v hv
    obtain ⟨p, hp⟩ := exists_path (htree.reachable v hv)
    exact ⟨p, hp, fun q hq => htree.path_unique (fun e he => (hends e he).2) hq hp⟩
  · intro hunique
    have hparent {a b v : α} (ha : (a, v) ∈ edges) (hb : (b, v) ∈ edges) : b = a := by
      obtain ⟨p, hp, -⟩ := hunique a (hends _ ha).1
      obtain ⟨q, hq, -⟩ := hunique b (hends _ hb).1
      have hsame := (hunique v (hends _ ha).2).unique (hq.tail hb) (hp.tail ha)
      have hend := hq.getLast?
      rw [List.append_cancel_right hsame, hp.getLast?] at hend
      exact (Option.some.inj hend).symm
    refine ⟨hroot, fun hmem => ?_, fun v hv hne => ?_, fun v hv => ?_⟩
    · obtain ⟨⟨a, _⟩, he, rfl⟩ := List.mem_map.mp hmem
      obtain ⟨p, hp, -⟩ := hunique a (hends _ he).1
      -- the way around the cycle is another path to the root
      have hsame := (hunique _ hroot).unique (hp.tail he) .root
      exact hp.ne_nil (List.append_eq_singleton_iff.mp hsame |>.resolve_right (by simp)).1
    · obtain ⟨p, hp, -⟩ := hunique v hv
      cases hp with
      | root => exact absurd rfl hne
      | tail _ he => exact count_targets_eq_one hnodup he fun b hb => hparent he hb
    · obtain ⟨p, hp, -⟩ := hunique v hv
      exact hp.reaches

end DepthFirst
