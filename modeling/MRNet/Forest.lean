import Mathlib

/-!
# Forests given by parent links

Every node has at most one parent. The links may run in a circle; a node is rooted if
following the links from it ends. If every node is rooted and there are finitely many
links, then a recursion that goes down from a node to its children ends as well.
-/
namespace MRNet.Forest
open Relation

variable {ν : Type}

/-- `b` is the parent of `a`. -/
def Link (parent : ν → Option ν) (a b : ν) : Prop := parent a = some b

/-- Following the links from the node reaches a node without parent. -/
inductive Rooted (parent : ν → Option ν) : ν → Prop
  | root {a : ν} (h : parent a = none) : Rooted parent a
  | link {a b : ν} (h : Link parent a b) (hb : Rooted parent b) : Rooted parent a

/-- `a` is in the subtree of `b`. -/
def Below (parent : ν → Option ν) (a b : ν) : Prop := ReflTransGen (Link parent) a b

variable {parent parent' : ν → Option ν}

lemma link_rightUnique (parent : ν → Option ν) : Relator.RightUnique (Link parent) := by
  intro a b c hb hc
  exact Option.some.inj (hb.symm.trans hc)

/-- A node that is its own ancestor is not rooted. -/
theorem Rooted.not_circular {a : ν} (h : Rooted parent a) : ¬TransGen (Link parent) a a := by
  induction h with
  | root hnone =>
      intro hloop
      obtain ⟨b, hb, -⟩ := TransGen.head'_iff.mp hloop
      rw [Link, hnone] at hb
      cases hb
  | @link a b hlink _ ih =>
      intro hloop
      apply ih
      obtain ⟨b', hb', hback⟩ := TransGen.head'_iff.mp hloop
      have hsame : b' = b := link_rightUnique parent hb' hlink
      subst hsame
      exact TransGen.tail' hback hlink

lemma Rooted.up {a b : ν} (h : Rooted parent a) (hlink : Link parent a b) : Rooted parent b := by
  cases h with
  | root hnone =>
      rw [Link, hnone] at hlink
      cases hlink
  | link hlink' hb =>
      rw [link_rightUnique parent hlink hlink']
      exact hb

/-- The proper ancestors of a rooted node are its other ancestors. -/
lemma Rooted.transGen_iff {a b : ν} (h : Rooted parent a) :
    TransGen (Link parent) a b ↔ b ≠ a ∧ Below parent a b := by
  constructor
  · intro habove
    refine ⟨?_, habove.to_reflTransGen⟩
    rintro rfl
    exact h.not_circular habove
  · rintro ⟨hne, hbelow⟩
    exact (reflTransGen_iff_eq_or_transGen.mp hbelow).resolve_left hne

/-- Links that are removed do not matter. -/
theorem Rooted.cut (h : ∀ a, parent' a = parent a ∨ parent' a = none) {a : ν}
    (ha : Rooted parent a) : Rooted parent' a := by
  induction ha with
  | @root a hnone =>
      rcases h a with heq | hcut
      · exact .root (heq.trans hnone)
      · exact .root hcut
  | @link a b hlink _ ih =>
      rcases h a with heq | hcut
      · exact .link (heq.trans hlink) ih
      · exact .root hcut

section Move
variable [DecidableEq ν] {c p : ν}

/-- The links of a node outside the subtree of `c` do not change when `c` moves. -/
lemma Rooted.outside {a : ν} (ha : Rooted parent a) (hout : ¬Below parent a c) :
    Rooted (Function.update parent c (some p)) a := by
  induction ha with
  | @root a hnone =>
      have hne : a ≠ c := fun he => hout (he ▸ ReflTransGen.refl)
      apply Rooted.root
      rw [Function.update_of_ne hne]
      exact hnone
  | @link a b hlink _ ih =>
      have hne : a ≠ c := fun he => hout (he ▸ ReflTransGen.refl)
      apply Rooted.link (b := b)
      · rw [Link, Function.update_of_ne hne]
        exact hlink
      · exact ih fun hb => hout (ReflTransGen.head hlink hb)

/-- A node may move below every node that is rooted and not in its subtree. -/
theorem Rooted.move (hp : Rooted parent p) (hout : ¬Below parent p c) {a : ν}
    (ha : Rooted parent a) : Rooted (Function.update parent c (some p)) a := by
  have hc : Rooted (Function.update parent c (some p)) c := by
    apply Rooted.link (b := p)
    · rw [Link, Function.update_self]
    · exact hp.outside hout
  induction ha with
  | @root a hnone =>
      by_cases hac : a = c
      · rw [hac]
        exact hc
      · apply Rooted.root
        rw [Function.update_of_ne hac]
        exact hnone
  | @link a b hlink _ ih =>
      by_cases hac : a = c
      · rw [hac]
        exact hc
      · apply Rooted.link (b := b)
        · rw [Link, Function.update_of_ne hac]
          exact hlink
        · exact ih

end Move

/-- Two children of one node have no common descendant, unless one of them is its own
ancestor. -/
theorem child_unique {l c₁ c₂ r : ν} (hc₁ : ¬TransGen (Link parent) c₁ c₁)
    (hc₂ : ¬TransGen (Link parent) c₂ c₂) (h₁ : Link parent c₁ l) (h₂ : Link parent c₂ l)
    (hr₁ : Below parent r c₁) (hr₂ : Below parent r c₂) : c₁ = c₂ := by
  -- Going up from one child, the first step leads to the common parent.
  have hloop : ∀ {c c'}, ¬TransGen (Link parent) c' c' → Link parent c l → Link parent c' l →
      Below parent c c' → c = c' := by
    intro c c' hno hc hc' hbelow
    rcases ReflTransGen.cases_head hbelow with heq | ⟨b, hb, hrest⟩
    · exact heq
    · have hsame : b = l := link_rightUnique parent hb hc
      subst hsame
      exact absurd (TransGen.head' hc' hrest) hno
  rcases ReflTransGen.total_of_right_unique (link_rightUnique parent) hr₁ hr₂ with h | h
  · exact hloop hc₂ h₁ h₂ h
  · exact (hloop hc₁ h₂ h₁ h).symm

/-- With finitely many links and no circle, going down from parents to children ends. -/
theorem wellFounded_link (hfin : {a | (parent a).isSome}.Finite)
    (hroot : ∀ a, Rooted parent a) : WellFounded (Link parent) := by
  have hirrefl : Std.Irrefl (TransGen (Link parent)) := ⟨fun a => (hroot a).not_circular⟩
  have htrans : IsTrans ν (TransGen (Link parent)) := ⟨fun _ _ _ => TransGen.trans⟩
  have horder : IsStrictOrder ν (TransGen (Link parent)) := ⟨⟩
  have hon := Set.wellFoundedOn_iff.mp
    (Set.Finite.wellFoundedOn (r := TransGen (Link parent)) hfin)
  have hsome : ∀ {a b}, Link parent a b → a ∈ {a | (parent a).isSome} := by
    intro a b hlink
    show (parent a).isSome = true
    rw [hlink]
    rfl
  have hlinked : ∀ a, a ∈ {a | (parent a).isSome} → Acc (Link parent) a := by
    intro a
    induction a using hon.induction with
    | h a ih =>
        intro ha
        constructor
        intro b hb
        exact ih b ⟨TransGen.single hb, hsome hb, ha⟩ (hsome hb)
  constructor
  intro a
  constructor
  intro b hb
  exact hlinked b (hsome hb)

lemma not_circular_of_acc {R : ν → ν → Prop} {a : ν} (h : Acc R a) : ¬TransGen R a a := by
  have hacc : Acc (TransGen R) a := h.transGen
  induction hacc with
  | intro a _ ih => exact fun hloop => ih a hloop (Acc.inv_of_transGen h hloop) hloop

/-- A recursion along a relation that may go as many steps as there are nodes is nowhere cut
off. -/
theorem descend_induction {R : ν → ν → Prop} {nodes : Finset ν} (hnodes : ∀ a b, R a b → a ∈ nodes)
    {P : ℕ → ν → Prop} (hstep : ∀ n a, (∀ c, R c a → P n c) → P (n + 1) a) {a : ν}
    (ha : a ∈ nodes) (hacc : Acc R a) : P nodes.card a := by
  classical
  -- What is reached from the next node misses at least the node itself.
  have hsub : ∀ n, (nodes.filter (ReflTransGen R · a)).card ≤ n → P n a := by
    induction hacc with
    | intro a hnext ih =>
        have hself : a ∈ nodes.filter (ReflTransGen R · a) :=
          Finset.mem_filter.mpr ⟨ha, ReflTransGen.refl⟩
        intro n hn
        cases n with
        | zero => exact absurd (Finset.card_pos.mpr ⟨a, hself⟩) (by omega)
        | succ n =>
            apply hstep
            intro c hc
            apply ih c hc (hnodes c a hc)
            have hlt : nodes.filter (ReflTransGen R · c) ⊂ nodes.filter (ReflTransGen R · a) := by
              rw [Finset.ssubset_iff_of_subset]
              · refine ⟨a, hself, fun hmem => ?_⟩
                obtain ⟨-, hbelow⟩ := Finset.mem_filter.mp hmem
                exact not_circular_of_acc (hnext c hc) (TransGen.head' hc hbelow)
              · intro x hx
                obtain ⟨hx, hbelow⟩ := Finset.mem_filter.mp hx
                exact Finset.mem_filter.mpr ⟨hx, hbelow.tail hc⟩
            have := Finset.card_lt_card hlt
            omega
  exact hsub _ (Finset.card_filter_le _ _)

/-- Following the links up from a rooted node ends. -/
lemma Rooted.acc {a : ν} (h : Rooted parent a) : Acc (fun b a => Link parent a b) a := by
  induction h with
  | @root a hnone =>
      constructor
      intro b hb
      rw [Link, hnone] at hb
      cases hb
  | @link a b hlink _ ih =>
      constructor
      intro b' hb'
      rw [link_rightUnique parent hb' hlink]
      exact ih

/-- `n` links lead up from one node to another. -/
inductive Up (parent : ν → Option ν) : ν → ν → ℕ → Prop
  | refl {a : ν} : Up parent a a 0
  | link {a b c : ν} {n : ℕ} (h : Link parent a b) (hb : Up parent b c n) : Up parent a c (n + 1)

lemma Up.isBelow {a b : ν} {n : ℕ} (h : Up parent a b n) : Below parent a b := by
  induction h with
  | refl => exact ReflTransGen.refl
  | link hlink _ ih => exact ReflTransGen.head hlink ih

/-- One more link at the upper end. -/
lemma Up.tail {a b c : ν} {n : ℕ} (h : Up parent a b n) (hc : Link parent b c) :
    Up parent a c (n + 1) := by
  induction h with
  | refl => exact .link hc .refl
  | link hlink _ ih => exact .link hlink (ih hc)

lemma Up.trans {a b c : ν} {m n : ℕ} (h : Up parent a b m) (h' : Up parent b c n) :
    Up parent a c (m + n) := by
  induction h' generalizing m with
  | refl => exact h
  | @link b b' c n hlink _ ih =>
      have hrest := ih (h.tail hlink)
      rwa [Nat.add_right_comm] at hrest

lemma exists_up {a b : ν} (h : Below parent a b) : ∃ n, Up parent a b n := by
  induction h with
  | refl => exact ⟨0, .refl⟩
  | tail _ hlink ih =>
      obtain ⟨n, hn⟩ := ih
      exact ⟨n + 1, hn.tail hlink⟩

/-- All ways up from a rooted node to another are of the same length. -/
lemma Up.unique {a b : ν} {m n : ℕ} (h : Up parent a b m) (h' : Up parent a b n)
    (ha : Rooted parent a) : m = n := by
  induction h generalizing n with
  | refl =>
      cases h' with
      | refl => rfl
      | link hlink hup => exact absurd (TransGen.head' hlink hup.isBelow) ha.not_circular
  | link hlink hup ih =>
      cases h' with
      | refl => exact absurd (TransGen.head' hlink hup.isBelow) ha.not_circular
      | link hlink' hup' =>
          obtain rfl := link_rightUnique _ hlink hlink'
          rw [ih hup' (ha.up hlink)]

/-- A way up from a rooted node is shorter than the number of nodes it may meet. -/
lemma Up.lt_card [DecidableEq ν] {a b : ν} {n : ℕ} (h : Up parent a b n) (ha : Rooted parent a)
    {nodes : Finset ν} (hnodes : ∀ x, Below parent a x → x ∈ nodes) : n < nodes.card := by
  induction h generalizing nodes with
  | @refl a => exact Finset.card_pos.mpr ⟨a, hnodes a ReflTransGen.refl⟩
  | @link a b c n hlink _ ih =>
      have hrest : n < (nodes.erase a).card := ih (ha.up hlink) fun x hx => by
        refine Finset.mem_erase.mpr ⟨?_, hnodes x (ReflTransGen.head hlink hx)⟩
        rintro rfl
        exact ha.not_circular (TransGen.head' hlink hx)
      rw [Finset.card_erase_of_mem (hnodes a ReflTransGen.refl)] at hrest
      omega

/-- `h` is the length of a longest way up to the node. -/
structure IsHeight (parent : ν → Option ν) (a : ν) (h : ℕ) : Prop where
  reached : ∃ d, Up parent d a h
  bound : ∀ d n, Up parent d a n → n ≤ h

lemma IsHeight.unique {a : ν} {h h' : ℕ} (hh : IsHeight parent a h) (hh' : IsHeight parent a h') :
    h = h' := by
  obtain ⟨d, hd⟩ := hh.reached
  obtain ⟨d', hd'⟩ := hh'.reached
  exact le_antisymm (hh'.bound d h hd) (hh.bound d' h' hd')

/-- A node is higher than those below it. -/
lemma IsHeight.add_le {a b : ν} {h h' n : ℕ} (ha : IsHeight parent a h)
    (hb : IsHeight parent b h') (hup : Up parent b a n) : h' + n ≤ h := by
  obtain ⟨d, hd⟩ := hb.reached
  exact ha.bound d _ (hd.trans hup)

/-- The last link of a way up that is not empty. -/
lemma Up.cases_tail {a c : ν} {n : ℕ} (h : Up parent a c n) :
    (a = c ∧ n = 0) ∨ ∃ b m, Up parent a b m ∧ Link parent b c ∧ n = m + 1 := by
  induction h with
  | refl => exact .inl ⟨rfl, rfl⟩
  | @link a b c n hlink hup ih =>
      refine .inr ?_
      rcases ih with ⟨rfl, rfl⟩ | ⟨b', m, hup', hlast, rfl⟩
      · exact ⟨a, 0, .refl, hlink, rfl⟩
      · exact ⟨b', m + 1, .link hlink hup', hlast, rfl⟩

/-- The height of a node with children is one more than the largest of theirs. -/
lemma isHeight_of_children {a : ν} {h : ℕ} (hchild : ∃ c, Link parent c a ∧ IsHeight parent c h)
    (hbound : ∀ c, Link parent c a → ∃ h' ≤ h, IsHeight parent c h') :
    IsHeight parent a (h + 1) := by
  obtain ⟨c, hc, hheight⟩ := hchild
  obtain ⟨d, hd⟩ := hheight.reached
  refine ⟨⟨d, hd.tail hc⟩, fun d n hup => ?_⟩
  rcases hup.cases_tail with ⟨-, rfl⟩ | ⟨b, m, hup', hlast, rfl⟩
  · exact Nat.zero_le _
  · obtain ⟨h', hle, hb⟩ := hbound b hlast
    exact Nat.succ_le_succ ((hb.bound d m hup').trans hle)

lemma isHeight_zero {a : ν} (hnone : ∀ c, ¬Link parent c a) : IsHeight parent a 0 := by
  refine ⟨⟨a, .refl⟩, fun d n hup => ?_⟩
  rcases hup.cases_tail with ⟨-, rfl⟩ | ⟨b, m, -, hlast, -⟩
  · exact le_rfl
  · exact absurd hlast (hnone b)

/-- A way to a node without parent stays a way if it does in part. -/
lemma Below.between (hcut : ∀ {a b}, Link parent' a b → Link parent a b) {x q z : ν}
    (hz : parent z = none) (hxz : Below parent' x z) (hxq : Below parent x q) :
    Below parent' x q := by
  induction hxz using ReflTransGen.head_induction_on generalizing q with
  | refl =>
      rcases ReflTransGen.cases_head hxq with rfl | ⟨b, hb, -⟩
      · exact .refl
      · rw [Link, hz] at hb
        cases hb
  | @head x b hxb _ ih =>
      rcases ReflTransGen.cases_head hxq with rfl | ⟨b', hb', hrest⟩
      · exact .refl
      · rw [link_rightUnique parent hb' (hcut hxb)] at hrest
        exact .head hxb (ih hrest)

section Moved
variable [DecidableEq ν] {c p : ν}

lemma link_update_iff {a b : ν} (ha : a ≠ c) :
    Link (Function.update parent c (some p)) a b ↔ Link parent a b := by
  rw [Link, Function.update_of_ne ha, Link]

/-- Outside the subtree that moves, ways stay. -/
lemma below_update_iff {x z : ν} (hout : ¬Below parent x c) :
    Below (Function.update parent c (some p)) x z ↔ Below parent x z := by
  constructor
  · intro h
    induction h using ReflTransGen.head_induction_on with
    | refl => exact .refl
    | @head x b hxb _ ih =>
        have hx : x ≠ c := fun heq => hout (heq ▸ .refl)
        have hlink := (link_update_iff hx).mp hxb
        exact .head hlink (ih fun hb => hout (.head hlink hb))
  · intro h
    induction h using ReflTransGen.head_induction_on with
    | refl => exact .refl
    | @head x b hxb _ ih =>
        have hx : x ≠ c := fun heq => hout (heq ▸ .refl)
        exact .head ((link_update_iff hx).mpr hxb) (ih fun hb => hout (.head hxb hb))

/-- Inside it too. -/
lemma below_update_inside (hrooted : ∀ a, Rooted parent a) {x q : ν} (hxq : Below parent x q)
    (hqc : Below parent q c) : Below (Function.update parent c (some p)) x q := by
  induction hxq using ReflTransGen.head_induction_on with
  | refl => exact .refl
  | @head x b hxb hbq ih =>
      have hx : x ≠ c := by
        rintro rfl
        exact (hrooted x).not_circular (TransGen.head' hxb (hbq.trans hqc))
      exact .head ((link_update_iff hx).mpr hxb) ih

/-- A way up from the subtree that moved, to a node without parent, leads past its new parent. -/
lemma below_of_update {x z : ν} (hrooted : ∀ a, Rooted parent a) (hpc : ¬Below parent p c)
    (hz : parent z = none) (hzc : z ≠ c) (hxc : Below parent x c)
    (h : Below (Function.update parent c (some p)) x z) : Below parent p z := by
  have hxc' := below_update_inside (p := p) hrooted hxc .refl
  have hunique := link_rightUnique (Function.update parent c (some p))
  rcases ReflTransGen.total_of_right_unique hunique hxc' h with hcz | hzc'
  · rcases ReflTransGen.cases_head hcz with heq | ⟨b, hb, hrest⟩
    · exact absurd heq.symm hzc
    · rw [Link, Function.update_self] at hb
      cases hb
      exact (below_update_iff hpc).mp hrest
  · rcases ReflTransGen.cases_head hzc' with heq | ⟨b, hb, -⟩
    · exact absurd heq hzc
    · rw [link_update_iff hzc, Link, hz] at hb
      cases hb

end Moved

/-- A link that is followed by a climb that stops at the first node with a property. -/
def Climbs (parent : ν → Option ν) (S : ν → Prop) (a b : ν) : Prop := Link parent a b ∧ ¬S a

/-- Where the climb meets the property. -/
def Meets (parent : ν → Option ν) (S : ν → Prop) (a z : ν) : Prop :=
  ReflTransGen (Climbs parent S) a z ∧ S z

lemma meets_unique {S : ν → Prop} {a z z' : ν} (h : Meets parent S a z)
    (h' : Meets parent S a z') : z = z' := by
  obtain ⟨hup, hz⟩ := h
  induction hup using ReflTransGen.head_induction_on with
  | refl =>
      rcases ReflTransGen.cases_head h'.1 with heq | ⟨b, hb, -⟩
      · exact heq
      · exact absurd hz hb.2
  | @head a b hab _ ih =>
      rcases ReflTransGen.cases_head h'.1 with heq | ⟨b', hb', hrest⟩
      · exact absurd (heq ▸ h'.2) hab.2
      · rw [link_rightUnique parent hb'.1 hab.1] at hrest
        exact ih ⟨hrest, h'.2⟩

/-- The links of a node without children matter to no other node. -/
lemma transGen_of_leaf {c : ν} (hsame : ∀ q, q ≠ c → parent' q = parent q)
    (hleaf : ∀ d, d ≠ c → parent d ≠ some c) {q z : ν} (hq : q ≠ c)
    (h : TransGen (Link parent) q z) : TransGen (Link parent') q z := by
  induction h using TransGen.head_induction_on with
  | @single a hlink =>
      apply TransGen.single
      rw [Link, hsame a hq]
      exact hlink
  | @head a b hlink _ ih =>
      have hb : b ≠ c := by
        rintro rfl
        exact hleaf a hq hlink
      apply TransGen.head _ (ih hb)
      rw [Link, hsame a hq]
      exact hlink

lemma transGen_leaf_iff {c : ν} (hsame : ∀ q, q ≠ c → parent' q = parent q)
    (hleaf : ∀ d, d ≠ c → parent d ≠ some c) {q z : ν} (hq : q ≠ c) :
    TransGen (Link parent') q z ↔ TransGen (Link parent) q z := by
  constructor
  · apply transGen_of_leaf (fun q hq => (hsame q hq).symm) _ hq
    intro d hd
    rw [hsame d hd]
    exact hleaf d hd
  · exact transGen_of_leaf hsame hleaf hq

end MRNet.Forest
