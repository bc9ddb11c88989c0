import Mathlib.Data.List.Forall2

/-!
# Filters on trees

A tree of which the leaves send and every inner node applies a filter to what its children
send. What a filter makes of the results for lists of inputs holds of the whole tree.
-/
namespace MRNet.Reductions

variable {α β ε : Type}

/-- A tree whose inner nodes have a first child and possibly others. -/
inductive FilterTree (α : Type) where
  | leaf (a : α)
  | node (first : FilterTree α) (others : List (FilterTree α))

namespace FilterTree

/-- The induction over the children of a node. -/
@[elab_as_elim, induction_eliminator]
theorem induction {P : FilterTree α → Prop} (leaf : ∀ a, P (.leaf a))
    (node : ∀ first others, (∀ c ∈ first :: others, P c) → P (.node first others)) (t : FilterTree α) :
    P t := by
  have hall : ∀ t : FilterTree α, P t := fun t => @FilterTree.rec α P (fun cs => ∀ c ∈ cs, P c) leaf
    (fun first others hfirst hothers => node first others (List.forall_mem_cons.mpr ⟨hfirst, hothers⟩))
    (fun c hc => by cases hc)
    (fun c cs hc hcs => List.forall_mem_cons.mpr ⟨hc, hcs⟩) t
  exact hall t

/-- What the leaves carry, from left to right. -/
def leaves : FilterTree α → List α
  | .leaf a => [a]
  | .node first others => first.leaves ++ (others.map leaves).flatten

/-- The filter is applied at every inner node to all that the children send, in their order. -/
def run (send : α → Except ε (List β)) (filter : List β → Except ε (List β)) :
    FilterTree α → Except ε (List β)
  | .leaf a => send a
  | .node first others => do
      let sent ← first.run send filter
      let more ← others.mapM (run send filter)
      filter (sent ++ more.flatten)

section Rule

variable {send : α → Except ε (List β)} {filter : List β → Except ε (List β)}
  {P : List α → β → Prop}

/-- Trees that send one result each. -/
lemma mapM_run {cs : List (FilterTree α)}
    (h : ∀ c ∈ cs, ∃ b, c.run send filter = .ok [b] ∧ P c.leaves b) :
    ∃ bs, cs.mapM (run send filter) = .ok (bs.map fun b => [b]) ∧
      List.Forall₂ P (cs.map leaves) bs := by
  induction cs with
  | nil => exact ⟨[], rfl, .nil⟩
  | cons c cs ih =>
      obtain ⟨b, hrun, hb⟩ := h c List.mem_cons_self
      obtain ⟨bs, hruns, hbs⟩ := ih fun c' hc' => h c' (List.mem_cons_of_mem c hc')
      refine ⟨b :: bs, ?_, .cons hb hbs⟩
      rw [List.mapM_cons, hrun, hruns]
      rfl

/-- If a filter makes one result of the results for some lists of inputs, and this is one for
all these inputs, then it makes one result for the inputs of a tree. -/
theorem run_rule (hsend : ∀ a, ∃ b, send a = .ok [b] ∧ P [a] b)
    (hfilter : ∀ inputs results, List.Forall₂ P inputs results → results ≠ [] →
      ∃ b, filter results = .ok [b] ∧ P inputs.flatten b) (t : FilterTree α) :
    ∃ b, t.run send filter = .ok [b] ∧ P t.leaves b := by
  induction t with
  | leaf a =>
      rw [run, leaves]
      exact hsend a
  | node first others ih =>
      obtain ⟨b, hfirst, hb⟩ := ih first List.mem_cons_self
      obtain ⟨bs, hothers, hbs⟩ := mapM_run fun c hc => ih c (List.mem_cons_of_mem first hc)
      obtain ⟨b', hfilter', hb'⟩ := hfilter (first.leaves :: others.map leaves) (b :: bs)
        (.cons hb hbs) (List.cons_ne_nil b bs)
      have hsent : [b] ++ (bs.map fun b => [b]).flatten = b :: bs := by
        rw [← List.flatMap_def, List.flatMap_singleton']
        rfl
      refine ⟨b', ?_, ?_⟩
      · rw [run, hfirst, hothers, ← hfilter', ← hsent]
        rfl
      · rw [leaves, ← List.flatten_cons]
        exact hb'

end Rule

end FilterTree

/-- A tree of which the inner nodes have something of their own. -/
inductive SiteTree (α : Type) where
  | leaf (a : α)
  | node (a : α) (first : SiteTree α) (others : List (SiteTree α))

namespace SiteTree

@[elab_as_elim, induction_eliminator]
theorem induction {P : SiteTree α → Prop} (leaf : ∀ a, P (.leaf a))
    (node : ∀ a first others, (∀ c ∈ first :: others, P c) → P (.node a first others))
    (t : SiteTree α) : P t := by
  have hall : ∀ t : SiteTree α, P t := fun t => @SiteTree.rec α P (fun cs => ∀ c ∈ cs, P c) leaf
    (fun a first others hfirst hothers =>
      node a first others (List.forall_mem_cons.mpr ⟨hfirst, hothers⟩))
    (fun c hc => by cases hc)
    (fun c cs hc hcs => List.forall_mem_cons.mpr ⟨hc, hcs⟩) t
  exact hall t

/-- What the nodes have, every node before its children. -/
def labels : SiteTree α → List α
  | .leaf a => [a]
  | .node a first others => a :: (first.labels ++ (others.map labels).flatten)

/-- The filter of an inner node is applied to what the children send. -/
def run (send : α → Except ε (List β)) (filter : α → List β → Except ε (List β)) :
    SiteTree α → Except ε (List β)
  | .leaf a => send a
  | .node a first others => do
      let sent ← first.run send filter
      let more ← others.mapM (run send filter)
      filter a (sent ++ more.flatten)

lemma labels_node (a : α) (first : SiteTree α) (others : List (SiteTree α)) :
    (node a first others).labels = a :: ((first :: others).map labels).flatten := by
  rw [labels, List.map_cons, List.flatten_cons]

section Rules

variable {send : α → Except ε (List β)} {filter : α → List β → Except ε (List β)}
  {P : List α → β → Prop}

lemma run_node (a : α) (first : SiteTree α) (others : List (SiteTree α)) :
    (node a first others).run send filter =
      (do let sent ← (first :: others).mapM (run send filter); filter a sent.flatten) := by
  rw [run, List.mapM_cons, bind_assoc]
  congr 1
  funext sent
  rw [bind_assoc]
  rfl

/-- Trees that send one result each, if they send any. -/
lemma mapM_run_sound {cs : List (SiteTree α)} {sent : List (List β)}
    (hcs : ∀ c ∈ cs, ∀ bs, c.run send filter = .ok bs → ∃ b, bs = [b] ∧ P c.labels b)
    (h : cs.mapM (run send filter) = .ok sent) :
    List.Forall₂ P (cs.map labels) sent.flatten := by
  induction cs generalizing sent with
  | nil =>
      cases h
      exact .nil
  | cons c cs ih =>
      rw [List.mapM_cons] at h
      cases hrun : c.run send filter with
      | error e =>
          rw [hrun] at h
          cases h
      | ok first =>
          cases hruns : cs.mapM (run send filter) with
          | error e =>
              rw [hrun, hruns] at h
              cases h
          | ok more =>
              rw [hrun, hruns] at h
              cases h
              obtain ⟨b, rfl, hb⟩ := hcs c List.mem_cons_self first hrun
              rw [List.flatten_cons]
              exact .cons hb (ih (fun c' hc' => hcs c' (List.mem_cons_of_mem c hc')) hruns)

/-- The filter of an inner node that returns was given one result of each child. -/
lemma run_node_sound {a : α} {first : SiteTree α} {others : List (SiteTree α)} {bs : List β}
    (hcs : ∀ c ∈ first :: others, ∀ bs, c.run send filter = .ok bs → ∃ b, bs = [b] ∧ P c.labels b)
    (h : (node a first others).run send filter = .ok bs) :
    ∃ results, List.Forall₂ P ((first :: others).map labels) results ∧ results ≠ [] ∧
      filter a results = .ok bs := by
  rw [run_node] at h
  cases hruns : (first :: others).mapM (run send filter) with
  | error e =>
      rw [hruns] at h
      cases h
  | ok sent =>
      rw [hruns] at h
      have hresults := mapM_run_sound hcs hruns
      refine ⟨sent.flatten, hresults, ?_, h⟩
      intro hnil
      rw [hnil] at hresults
      cases hresults

/-- What the filter makes of such results, if it makes any, holds of trees. -/
theorem run_sound (hsend : ∀ a bs, send a = .ok bs → ∃ b, bs = [b] ∧ P [a] b)
    (hfilter : ∀ a inputs results bs, List.Forall₂ P inputs results → results ≠ [] →
      filter a results = .ok bs → ∃ b, bs = [b] ∧ P (a :: inputs.flatten) b)
    (t : SiteTree α) : ∀ bs, t.run send filter = .ok bs → ∃ b, bs = [b] ∧ P t.labels b := by
  induction t with
  | leaf a =>
      intro bs h
      rw [run] at h
      rw [labels]
      exact hsend a bs h
  | node a first others ih =>
      intro bs h
      obtain ⟨results, hresults, hne, happlied⟩ := run_node_sound ih h
      rw [labels_node]
      exact hfilter a _ results bs hresults hne happlied

/-- If the filter returns for all inputs of a kind, and parts of such inputs are of the kind,
then the trees of the kind send one result. -/
theorem run_returns {Q : List α → Prop} (hQ : ∀ {xs ys}, List.Sublist xs ys → Q ys → Q xs)
    (hsend : ∀ a, Q [a] → ∃ b, send a = .ok [b] ∧ P [a] b)
    (hfilter : ∀ a inputs results, Q (a :: inputs.flatten) → List.Forall₂ P inputs results →
      results ≠ [] → ∃ b, filter a results = .ok [b] ∧ P (a :: inputs.flatten) b)
    (t : SiteTree α) (ht : Q t.labels) : ∃ b, t.run send filter = .ok [b] ∧ P t.labels b := by
  induction t with
  | leaf a =>
      rw [labels] at ht
      rw [run, labels]
      exact hsend a ht
  | node a first others ih =>
      rw [labels_node] at ht
      have hcs : ∀ cs : List (SiteTree α), (∀ c ∈ cs, c ∈ first :: others) → ∃ sent,
          cs.mapM (run send filter) = .ok sent ∧
            List.Forall₂ P (cs.map labels) sent.flatten := by
        intro cs hmem
        induction cs with
        | nil => exact ⟨[], rfl, .nil⟩
        | cons c cs ihcs =>
            obtain ⟨hc, hrest⟩ := List.forall_mem_cons.mp hmem
            have hsub : c.labels.Sublist (a :: ((first :: others).map labels).flatten) :=
              (List.sublist_flatten_of_mem (List.mem_map_of_mem hc)).cons a
            obtain ⟨b, hrun, hb⟩ := ih c hc (hQ hsub ht)
            obtain ⟨sent, hruns, hsent⟩ := ihcs hrest
            refine ⟨[b] :: sent, ?_, .cons hb hsent⟩
            rw [List.mapM_cons, hrun, hruns]
            rfl
      obtain ⟨sent, hsent, hresults⟩ := hcs (first :: others) fun c hc => hc
      have hne : sent.flatten ≠ [] := by
        intro hnil
        rw [hnil] at hresults
        cases hresults
      rw [run_node, hsent, labels_node]
      exact hfilter a _ sent.flatten ht hresults hne

end Rules

end SiteTree
end MRNet.Reductions
