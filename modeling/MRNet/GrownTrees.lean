import MRNet.DepthFirst

/-!
# Grown graphs

A graph grows from a root by edges that start at the root or where an earlier edge ends. It is
a tree exactly if no edge ends at the root and no two edges end at the same node, unless they
start at the same node too: then they are one edge.
-/
namespace DepthFirst
open Relation

variable {α : Type} {root : α} {edges : List (α × α)}

inductive Grown (root : α) : List (α × α) → Prop
  | nil : Grown root []
  | snoc {grown : List (α × α)} (h : Grown root grown) (p c : α)
      (hp : p = root ∨ p ∈ grown.map Prod.snd) : Grown root (grown ++ [(p, c)])

/-- More edges from nodes that are there already. -/
lemma Grown.append {more : List (α × α)} (h : Grown root edges)
    (hmore : ∀ e ∈ more, e.1 = root ∨ e.1 ∈ edges.map Prod.snd) : Grown root (edges ++ more) := by
  induction more using List.reverseRecOn with
  | nil => simpa using h
  | append_singleton more e ih =>
      have hlast : e.1 = root ∨ e.1 ∈ edges.map Prod.snd := hmore e (by simp)
      rw [← List.append_assoc]
      refine (ih fun e' he' => hmore e' (by simp [he'])).snoc e.1 e.2 ?_
      rw [List.map_append, List.mem_append]
      tauto

/-- An edge starts at a node that is there. -/
lemma Grown.source (h : Grown root edges) {e : α × α} (he : e ∈ edges) :
    e.1 = root ∨ e.1 ∈ edges.map Prod.snd := by
  induction h with
  | nil => cases he
  | snoc _ p c hp ih =>
      rw [List.map_append, List.mem_append, ← or_assoc]
      rcases List.mem_append.mp he with he | he
      · exact .inl (ih he)
      · obtain rfl := List.mem_singleton.mp he
        exact .inl hp

/-- Every node is reached from the root. -/
theorem Grown.reached (h : Grown root edges) {v : α} (hv : v = root ∨ v ∈ edges.map Prod.snd) :
    ReflTransGen (fun a b => (a, b) ∈ edges) root v := by
  induction h generalizing v with
  | nil =>
      obtain rfl : v = root := by simpa using hv
      exact .refl
  | @snoc grown _ p c hp ih =>
      have hmore : ∀ {w}, w = root ∨ w ∈ grown.map Prod.snd →
          ReflTransGen (fun a b => (a, b) ∈ grown ++ [(p, c)]) root w := fun hw =>
        (ih hw).lift id fun _ _ he => List.mem_append_left [(p, c)] he
      rw [List.map_append, List.mem_append, List.map_singleton, List.mem_singleton] at hv
      rcases hv with hv | hv | rfl
      · exact hmore (.inl hv)
      · exact hmore (.inr hv)
      · exact (hmore hp).tail (by simp)

variable [DecidableEq α]

/-- In a list without duplicates, the edges that end at a node are counted by their starts. -/
lemma count_targets_eq_one {l : List (α × α)} (hnodup : l.Nodup) {a v : α} (ha : (a, v) ∈ l)
    (hunique : ∀ b, (b, v) ∈ l → b = a) : (l.map Prod.snd).count v = 1 := by
  have hone : l.filter (fun e => e.2 = v) = [(a, v)] := by
    refine (List.perm_singleton.mp ?_)
    rw [List.perm_ext_iff_of_nodup (hnodup.filter _) (List.nodup_singleton _)]
    rintro ⟨b, w⟩
    simp only [List.mem_filter, List.mem_singleton, Prod.mk.injEq, decide_eq_true_eq]
    constructor
    · rintro ⟨hb, rfl⟩
      exact ⟨hunique b hb, rfl⟩
    · rintro ⟨rfl, rfl⟩
      exact ⟨ha, rfl⟩
  rw [List.count, List.countP_map, List.countP_eq_length_filter]
  have hsame : l.filter ((· == v) ∘ Prod.snd) = l.filter fun e => e.2 = v :=
    List.filter_congr fun e _ => by simp [Bool.beq_eq_decide_eq]
  rw [hsame, hone, List.length_singleton]

/-- The nodes and the edges are listed in any order, each edge once. -/
theorem Grown.isRootedTree_iff (h : Grown root edges) {nodes : List α} {listed : List (α × α)}
    (hnodes : ∀ v, v ∈ nodes ↔ v = root ∨ v ∈ edges.map Prod.snd)
    (hlisted : ∀ e, e ∈ listed ↔ e ∈ edges) (hnodup : listed.Nodup) :
    IsRootedTree nodes listed root ↔
      root ∉ edges.map Prod.snd ∧ ∀ a b v, (a, v) ∈ edges → (b, v) ∈ edges → a = b := by
  have htargets (v : α) : v ∈ listed.map Prod.snd ↔ v ∈ edges.map Prod.snd := by
    simp [hlisted]
  constructor
  · intro htree
    refine ⟨fun hroot => htree.root_first ((htargets root).mpr hroot), fun a b v ha hb => ?_⟩
    have hv : v ∈ nodes := (hnodes v).mpr (.inr (List.mem_map_of_mem (f := Prod.snd) ha))
    exact htree.parent_unique hv ((hlisted _).mpr ha) ((hlisted _).mpr hb)
  · rintro ⟨hroot, hunique⟩
    refine ⟨(hnodes root).mpr (.inl rfl), fun hmem => hroot ((htargets root).mp hmem),
      fun v hv hne => ?_, fun v hv => ?_⟩
    · obtain ⟨⟨a, w⟩, ha, rfl⟩ := List.mem_map.mp (((hnodes v).mp hv).resolve_left hne)
      exact count_targets_eq_one hnodup ((hlisted _).mpr ha)
        fun b hb => hunique b a w ((hlisted _).mp hb) ha
    · exact (h.reached ((hnodes v).mp hv)).lift id fun _ _ he => (hlisted _).mpr he

end DepthFirst
