import MRNet.SubTreeSearch

/-!
# Setting ports

`set_Port` writes a port over the five digits of an unknown one, without padding it. So the
texts are those of graphs where the ports of some ranks have been set before.
-/
namespace MRNet.SerialGraph
open Codec
open WaitForAll (Rank)

/-- The text afterwards, and whether the node was found. -/
def setPort (text hostName : Text) (port : Port) (rank : Rank) : Text × Bool :=
  match findText text (nodeText hostName unknownPort rank ++ [':']) 0 with
  | none => (text, false)
  | some begin =>
      -- `npos + 1` is zero
      let portPos := ((find (text.drop begin) ':' 0).map (· + 1)).getD 0
      (text.take (begin + portPos) ++ Nat.toDigits 10 port.toNat ++
        text.drop (begin + portPos + 5), true)

/-- The graph that the members read of a text. -/
def parse (text : Text) : Outcome Graph :=
  match _hkids : getChildren text with
  | .error e => .error e
  | .ok kids => do
      let hostName ← getRootHostName text
      let port ← getRootPort text
      let rank ← getRootRank text
      let isBackEnd ← isRootBackEnd text
      let children ← kids.attach.mapM fun kid => parse kid.1
      return ⟨hostName, port, rank, isBackEnd, children⟩
termination_by text.length
decreasing_by exact getChildren_shorter _hkids kid.1 kid.2

/-- The key stands at `n` places of a text. If there is one then a label is written there for
another. -/
structure Edits (k : Text) (R : Text → Text → Prop) (old new : Text) (n : ℕ) : Prop where
  absent : n = 0 → new = old ∧ ∀ pre rest, findText (pre ++ old ++ rest) ('[' :: k) pre.length =
    findText (pre ++ old ++ rest) ('[' :: k) (pre ++ old).length
  once : n = 1 → ∃ l l' a b, R l l' ∧ old = a ++ '[' :: l ++ b ∧ new = a ++ '[' :: l' ++ b ∧
    ∀ pre rest, findText (pre ++ old ++ rest) ('[' :: k) pre.length = some (pre ++ a).length

section Edits
variable {k : Text} {R : Text → Text → Prop} {old new old' new' : Text} {n n' : ℕ}

lemma Edits.plain (h : '[' ∉ old) : Edits k R old old 0 :=
  ⟨fun _ => ⟨rfl, findText_plain h⟩, fun hone => by cases hone⟩

lemma Edits.append (h : Edits k R old new n) (h' : Edits k R old' new' n') :
    Edits k R (old ++ old') (new ++ new') (n + n') := by
  have hassoc : ∀ pre rest, pre ++ (old ++ old') ++ rest = pre ++ old ++ (old' ++ rest) ∧
      pre ++ (old ++ old') ++ rest = (pre ++ old) ++ old' ++ rest := by
    intro pre rest
    simp
  constructor
  · intro hzero
    obtain ⟨rfl, hpass⟩ := h.absent (by omega)
    obtain ⟨rfl, hpass'⟩ := h'.absent (by omega)
    refine ⟨rfl, fun pre rest => ?_⟩
    have hfirst := hpass pre (new' ++ rest)
    rw [← (hassoc pre rest).1] at hfirst
    have hsecond := hpass' (pre ++ new) rest
    rw [← (hassoc pre rest).2] at hsecond
    rw [hfirst, hsecond, List.append_assoc pre new new']
  · intro hone
    rcases (by omega : n = 1 ∧ n' = 0 ∨ n = 0 ∧ n' = 1) with ⟨hn, hn'⟩ | ⟨hn, hn'⟩
    · obtain ⟨l, l', a, b, hR, rfl, rfl, hfound⟩ := h.once hn
      obtain ⟨rfl, -⟩ := h'.absent hn'
      refine ⟨l, l', a, b ++ new', hR, by simp, by simp, fun pre rest => ?_⟩
      rw [(hassoc pre rest).1]
      exact hfound pre _
    · obtain ⟨rfl, hpass⟩ := h.absent hn
      obtain ⟨l, l', a, b, hR, hold, rfl, hfound⟩ := h'.once hn'
      refine ⟨l, l', new ++ a, b, hR, by rw [hold]; simp, by simp, fun pre rest => ?_⟩
      have hfirst := hpass pre (old' ++ rest)
      rw [← (hassoc pre rest).1] at hfirst
      rw [hfirst, (hassoc pre rest).2, hfound, List.append_assoc]

/-- A label at which the key may stand. -/
lemma Edits.head {l l' : Text} {p : Bool} (hl : '[' ∉ l) (hkey : ∀ rest, k <+: l ++ rest ↔ p = true)
    (hR : p = true → R l l') :
    Edits k R ('[' :: l) ('[' :: if p then l' else l) (if p then 1 else 0) := by
  cases p with
  | true =>
      refine ⟨nofun, fun _ => ⟨l, l', [], [], hR rfl, by simp, by simp, ?_⟩⟩
      intro pre rest
      have hstart : '[' :: k <+: '[' :: l ++ rest := by
        rw [List.cons_append, List.cons_prefix_cons]
        exact ⟨rfl, (hkey rest).mpr rfl⟩
      rw [List.append_assoc, findText_here hstart, List.append_nil]
  | false =>
      refine ⟨fun _ => ⟨rfl, fun pre rest => ?_⟩, nofun⟩
      have hnot : ¬ '[' :: k <+: '[' :: (l ++ rest) := by
        rw [List.cons_prefix_cons]
        rintro ⟨-, hprefix⟩
        exact Bool.false_ne_true ((hkey rest).mp hprefix)
      have hpass := findText_plain (k := k) hl (pre ++ ['[']) rest
      rw [List.append_assoc, List.cons_append, findText_skip hnot]
      simpa using hpass

lemma Edits.flatten {α : Type} {f g : α → Text} {count : α → ℕ} {xs : List α}
    (h : ∀ x ∈ xs, Edits k R (f x) (g x) (count x)) :
    Edits k R (xs.map f).flatten (xs.map g).flatten (xs.map count).sum := by
  induction xs with
  | nil => exact Edits.plain List.not_mem_nil
  | cons x xs ih =>
      rw [List.map_cons, List.map_cons, List.map_cons, List.flatten_cons, List.flatten_cons,
        List.sum_cons]
      exact (h x List.mem_cons_self).append (ih fun y hy => h y (List.mem_cons_of_mem _ hy))

end Edits

namespace Graph

/-- A port is padded until it is set. -/
def portText (set : Rank → Bool) (g : Graph) : Text :=
  if set g.rank then Nat.toDigits 10 g.port.toNat else paddedPort g.port

def labelAfter (set : Rank → Bool) (g : Graph) : Text :=
  g.hostName ++ ':' :: (g.portText set ++ ':' :: (Nat.toDigits 10 g.rank.toNat ++
    [':', if g.isBackEnd then '0' else '1']))

/-- The text after the ports of some ranks have been set. -/
def textAfter (set : Rank → Bool) : Graph → Text
  | ⟨hostName, port, rank, isBackEnd, children⟩ =>
      '[' :: labelAfter set ⟨hostName, port, rank, isBackEnd, children⟩ ++
        (children.map (textAfter set)).flatten ++ [']']

/-- The port of the node with this host name and rank is another. -/
def withPort (hostName : Text) (port : Port) (rank : Rank) : Graph → Graph
  | ⟨name, port', rank', isBackEnd, children⟩ =>
      ⟨name, if name = hostName ∧ rank' = rank then port else port', rank', isBackEnd,
        children.map (withPort hostName port rank)⟩

variable {g : Graph} {set : Rank → Bool} {hostName : Text} {port : Port} {rank : Rank}

lemma textAfter_eq (g : Graph) : g.textAfter set =
    '[' :: g.labelAfter set ++ (g.children.map (textAfter set)).flatten ++ [']'] := by
  cases g
  rw [textAfter]

lemma withPort_eq (g : Graph) : g.withPort hostName port rank =
    ⟨g.hostName, if g.hostName = hostName ∧ g.rank = rank then port else g.port, g.rank,
      g.isBackEnd, g.children.map (withPort hostName port rank)⟩ := by
  cases g
  rw [withPort]

/-- Before any port is set the text is the serialized one. -/
lemma textAfter_none (g : Graph) : g.textAfter (fun _ => false) = g.text := by
  induction g with
  | node g ih =>
      have hkids : g.children.map (textAfter fun _ => false) = g.children.map text :=
        List.map_congr_left ih
      rw [textAfter_eq, text_eq, body, hkids]
      simp [labelAfter, portText, label]

lemma isDigit_portText (set : Rank → Bool) (g : Graph) : ∀ c ∈ g.portText set, c.isDigit = true := by
  unfold portText
  split_ifs
  · exact fun _ hc => Nat.isDigit_of_mem_toDigits (by decide) (by decide) hc
  · exact isDigit_paddedPort g.port

lemma atoi_portText (g : Graph) : atoi (g.portText set) = BitVec.ofNat 32 g.port.toNat := by
  unfold portText
  split_ifs
  · have hlt := g.port.isLt
    rw [atoi_digits Nat.toDigits_ne_nil fun _ hc =>
      Nat.isDigit_of_mem_toDigits (by decide) (by decide) hc] <;>
      rw [Nat.ofDigitChars_ten_toDigits]
    omega
  · exact atoi_paddedPort g.port

lemma portOf_portText (set : Rank → Bool) (g : Graph) : portOf (g.portText set) = g.port := by
  have hlt := g.port.isLt
  have hnumber : (BitVec.ofNat 32 g.port.toNat).toInt = g.port.toNat := by
    rw [BitVec.toInt_ofNat', Int.bmod_def]
    omega
  rw [portOf, atoi_portText, hnumber]
  rw [if_pos (by omega), BitVec.ofInt_natCast, BitVec.ofNat_toNat, BitVec.setWidth_eq]

lemma textAfter_fields (g : Graph) : g.textAfter set =
    fieldsText g.hostName (g.portText set) (Nat.toDigits 10 g.rank.toNat)
      ((if g.isBackEnd then '0' else '1') ::
        ((g.children.map (textAfter set)).flatten ++ [']'])) := by
  rw [textAfter_eq, labelAfter, fieldsText]
  simp

def layoutAfter (set : Rank → Bool) : Graph → Bracketed
  | ⟨hostName, port, rank, isBackEnd, children⟩ =>
      ⟨labelAfter set ⟨hostName, port, rank, isBackEnd, children⟩,
        children.map (layoutAfter set)⟩

lemma layoutAfter_eq (g : Graph) :
    g.layoutAfter set = ⟨g.labelAfter set, g.children.map (layoutAfter set)⟩ := by
  cases g
  rw [layoutAfter]

lemma text_layoutAfter (g : Graph) : (g.layoutAfter set).text = g.textAfter set := by
  induction g with
  | node g ih =>
      have hkids : (g.children.map (layoutAfter set)).map Bracketed.text =
          g.children.map (textAfter set) := by
        rw [List.map_map]
        exact List.map_congr_left ih
      rw [layoutAfter_eq, Bracketed.text_eq, Bracketed.body, hkids, textAfter_eq]
      simp

lemma not_mem_labelAfter (set : Rank → Bool) (h : Legible g.hostName) {c : Char}
    (hc : c = '[' ∨ c = ']') :
    c ∉ g.labelAfter set := by
  have hdigit : c.isDigit = false := by rcases hc with rfl | rfl <;> rfl
  have hport := not_digit hdigit (g.isDigit_portText set)
  have hrank := not_digit hdigit (isDigit_rank g.rank)
  have hhost : c ∉ g.hostName := by
    rcases hc with rfl | rfl
    · exact h.noOpening
    · exact h.noClosing
  have hcolon : c ≠ ':' := by rcases hc with rfl | rfl <;> decide
  have hflag : c ≠ if g.isBackEnd then '0' else '1' := by
    rcases hc with rfl | rfl <;> split_ifs <;> decide
  simp [labelAfter, hhost, hport, hrank, hcolon, hflag]

lemma IsLegible.plainAfter (set : Rank → Bool) (h : g.IsLegible) : (g.layoutAfter set).Plain := by
  induction g with
  | node g ih =>
      intro s hs
      rw [layoutAfter_eq, Bracketed.subtrees_eq] at hs
      rcases List.mem_cons.mp hs with rfl | hs
      · exact ⟨not_mem_labelAfter set h.root (Or.inl rfl), not_mem_labelAfter set h.root (Or.inr rfl)⟩
      · obtain ⟨part, hpart, hs⟩ := List.mem_flatten.mp hs
        obtain ⟨t, ht, rfl⟩ := List.mem_map.mp hpart
        obtain ⟨c, hc, rfl⟩ := List.mem_map.mp ht
        exact ih c hc (h.child hc) s hs

lemma getChildren_textAfter (h : g.IsLegible) :
    getChildren (g.textAfter set) = .ok (g.children.map (textAfter set)) := by
  have hplain := h.plainAfter set
  have hchildren := Bracketed.getChildren_root hplain.root.1 fun c hc => hplain.child hc
  rw [text_layoutAfter, layoutAfter_eq, List.map_map] at hchildren
  rw [hchildren]
  exact congrArg _ (List.map_congr_left fun c _ => c.text_layoutAfter)

lemma getRootPort_textAfter (h : ':' ∉ g.hostName) :
    getRootPort (g.textAfter set) = .ok g.readPort := by
  have hport : ':' ∉ g.portText set := not_digit rfl (g.isDigit_portText set)
  have hrank : ':' ∉ Nat.toDigits 10 g.rank.toNat := not_digit rfl (isDigit_rank g.rank)
  rw [textAfter_fields, getRootPort_fields _ h hport hrank, portOf_portText, portOf, atoi_rank]
  rfl

theorem parse_textAfter (set : Rank → Bool) (h : g.IsLegible) :
    parse (g.textAfter set) = .ok g.asRead := by
  induction g with
  | node g ih =>
      have hhost := h.root.noColon
      have hport : ':' ∉ g.portText set := not_digit rfl (g.isDigit_portText set)
      have hrank : ':' ∉ Nat.toDigits 10 g.rank.toNat := not_digit rfl (isDigit_rank g.rank)
      have hkids : ((g.children.map (textAfter set)).attach.mapM fun kid => parse kid.1) =
          .ok (g.children.map asRead) := by
        rw [List.mapM_subtype fun _ _ => rfl, List.unattach_attach, mapM_ok_iff,
          List.forall₂_map_left_iff, List.forall₂_map_right_iff, List.forall₂_same]
        exact fun c hc => ih c hc (h.child hc)
      have hroot : getRootHostName (g.textAfter set) = .ok g.hostName ∧
          getRootRank (g.textAfter set) = .ok g.rank ∧
          isRootBackEnd (g.textAfter set) = .ok g.isBackEnd := by
        rw [textAfter_fields, getRootHostName_fields _ hhost,
          getRootRank_fields _ hhost hport hrank, isRootBackEnd_fields _ hhost hport hrank, atoi_rank]
        cases g.isBackEnd <;> exact ⟨rfl, rfl, rfl⟩
      rw [parse]
      split
      · rename_i hread
        cases (getChildren_textAfter h).symm.trans hread
      · rename_i kids hread
        cases (getChildren_textAfter h).symm.trans hread
        rw [hroot.1, ok_bind, getRootPort_textAfter hhost, ok_bind, hroot.2.1, ok_bind, hroot.2.2,
          ok_bind, hkids, ok_bind, asRead_eq]
        rfl

/-- The node that is asked for. -/
def Unset (hostName : Text) (rank : Rank) (s : Graph) : Prop :=
  s.hostName = hostName ∧ s.rank = rank ∧ s.port = unknownPort

/-- The node that is looked for: a port that was set to the unknown one has one digit. -/
def Sought (set : Rank → Bool) (hostName : Text) (rank : Rank) (s : Graph) : Prop :=
  s.hostName = hostName ∧ s.rank = rank ∧ s.port = unknownPort ∧ set rank = false

instance : DecidablePred (Sought set hostName rank) := fun s =>
  inferInstanceAs (Decidable
    (s.hostName = hostName ∧ s.rank = rank ∧ s.port = unknownPort ∧ set rank = false))

lemma portText_unknown (g : Graph) : g.portText set = paddedPort unknownPort ↔
    g.port = unknownPort ∧ set g.rank = false := by
  constructor
  · intro heq
    have hport : g.port = unknownPort := by
      rw [← portOf_portText set g, heq]
      decide
    refine ⟨hport, Bool.eq_false_iff.mpr fun hset => ?_⟩
    rw [portText, if_pos hset, hport] at heq
    exact absurd heq (by decide)
  · rintro ⟨hport, hset⟩
    rw [portText, hset, hport]
    rfl

/-- Where the key of `set_Port` stands. -/
lemma sought_iff (h : Legible g.hostName) (hhost : ':' ∉ hostName) (rest : Text) :
    hostName ++ ':' :: (paddedPort unknownPort ++ ':' :: (Nat.toDigits 10 rank.toNat ++ [':'])) <+:
      g.labelAfter set ++ rest ↔ g.Sought set hostName rank := by
  have hlabel : g.labelAfter set ++ rest = g.hostName ++ ':' :: (g.portText set ++ ':' ::
      (Nat.toDigits 10 g.rank.toNat ++ ':' :: ((if g.isBackEnd then '0' else '1') :: rest))) := by
    simp [labelAfter]
  have hport : ':' ∉ g.portText set := not_digit rfl (g.isDigit_portText set)
  have hrank : ∀ rank : Rank, ':' ∉ Nat.toDigits 10 rank.toNat :=
    fun rank => not_digit rfl (isDigit_rank rank)
  rw [hlabel, prefix_colon_iff hhost h.noColon,
    prefix_colon_iff (not_digit rfl (isDigit_paddedPort unknownPort)) hport,
    prefix_colon_iff (hrank rank) (hrank g.rank), rankText_inj, eq_comm (b := g.portText set),
    portText_unknown, Sought]
  constructor
  · rintro ⟨rfl, ⟨hunknown, hset⟩, rfl, -⟩
    exact ⟨rfl, rfl, hunknown, hset⟩
  · rintro ⟨rfl, rfl, hunknown, hset⟩
    exact ⟨rfl, ⟨hunknown, hset⟩, rfl, List.nil_prefix⟩

/-- A text that differs at the places that are looked for. -/
lemma edits_textAfter (set : Rank → Bool) (rank : Rank) (R : Text → Text → Prop)
    (new l' : Graph → Text) (h : g.IsLegible) (hhost : ':' ∉ hostName)
    (hnew : ∀ s ∈ g.subgraphs, new s = '[' ::
      (if s.Sought set hostName rank then l' s else s.labelAfter set) ++
        (s.children.map new).flatten ++ [']'])
    (hR : ∀ s ∈ g.subgraphs, s.Sought set hostName rank → R (s.labelAfter set) (l' s)) :
    Edits (hostName ++ ':' :: (paddedPort unknownPort ++ ':' ::
      (Nat.toDigits 10 rank.toNat ++ [':']))) R (g.textAfter set) (new g)
        (g.subgraphs.countP (Sought set hostName rank)) := by
  induction g with
  | node g ih =>
      have hself : g ∈ g.subgraphs := by
        rw [subgraphs_eq]
        exact List.mem_cons_self
      have hkids : ∀ c ∈ g.children, Edits _ R (c.textAfter set) (new c)
          (c.subgraphs.countP (Sought set hostName rank)) := fun c hc =>
        ih c hc (h.child hc) (fun s hs => hnew s (subgraphs_child hc hs))
          fun s hs => hR s (subgraphs_child hc hs)
      have hhead := @Edits.head _ R _ (l' g) (decide (g.Sought set hostName rank))
        (not_mem_labelAfter set h.root (Or.inl rfl))
        (fun rest => (sought_iff h.root hhost rest).trans decide_eq_true_iff.symm)
        fun hsought => hR g hself (of_decide_eq_true hsought)
      have hclose : '[' ∉ [']'] := by decide
      have hnode := (hhead.append (Edits.flatten hkids)).append (Edits.plain hclose)
      have hcount : g.subgraphs.countP (Sought set hostName rank) =
          (if decide (g.Sought set hostName rank) then 1 else 0) +
            (g.children.map fun c => c.subgraphs.countP (Sought set hostName rank)).sum + 0 := by
        rw [subgraphs_eq, List.countP_cons, List.countP_flatten, List.map_map, Nat.add_comm]
        rfl
      rw [hcount, textAfter_eq, hnew g hself]
      simpa only [decide_eq_true_eq] using hnode

end Graph

variable {g s : Graph} {set : Rank → Bool} {hostName : Text} {port : Port} {rank : Rank}

/-- What is written where the key was found. -/
lemma setPort_at {a rest : Text} (hhost : ':' ∉ hostName)
    (hfound : findText (a ++ '[' :: (hostName ++ ':' :: (paddedPort unknownPort ++ rest)))
      (nodeText hostName unknownPort rank ++ [':']) 0 = some a.length) :
    setPort (a ++ '[' :: (hostName ++ ':' :: (paddedPort unknownPort ++ rest))) hostName port rank =
      (a ++ '[' :: (hostName ++ ':' :: (Nat.toDigits 10 port.toNat ++ rest)), true) := by
  have hcolon : find ('[' :: (hostName ++ ':' :: (paddedPort unknownPort ++ rest))) ':' 0 =
      some (hostName.length + 1) := by
    have hnot : ':' ∉ '[' :: hostName := by simpa using hhost
    exact find_at ('[' :: hostName) _ (Nat.zero_le _) hnot
  have hsplit : a ++ '[' :: (hostName ++ ':' :: (paddedPort unknownPort ++ rest)) =
      (a ++ '[' :: (hostName ++ [':'])) ++ (paddedPort unknownPort ++ rest) := by
    simp
  have hlength : (a ++ '[' :: (hostName ++ [':'])).length = a.length + (hostName.length + 1 + 1) := by
    simp
  have hfive : (paddedPort unknownPort).length = 5 := by decide
  unfold setPort
  rw [hfound]
  dsimp only
  rw [List.drop_left, hcolon, Option.map_some, Option.getD_some, hsplit, ← hlength, List.take_left,
    List.drop_append, List.drop_eq_nil_of_le (by omega), Nat.add_sub_cancel_left,
    List.drop_left' hfive]
  simp

lemma key_eq : nodeText hostName unknownPort rank ++ [':'] =
    '[' :: (hostName ++ ':' :: (paddedPort unknownPort ++ ':' ::
      (Nat.toDigits 10 rank.toNat ++ [':']))) := by
  simp [nodeText]

lemma setPort_missing (h : g.IsLegible) (hhost : ':' ∉ hostName)
    (hnone : ∀ s ∈ g.subgraphs, ¬s.Sought set hostName rank) :
    setPort (g.textAfter set) hostName port rank = (g.textAfter set, false) := by
  have hedits := Graph.edits_textAfter set rank (fun _ _ => True) (Graph.textAfter set)
    (Graph.labelAfter set) h hhost (fun s _ => by rw [ite_self]; exact s.textAfter_eq)
    fun _ _ _ => trivial
  have hcount : g.subgraphs.countP (Graph.Sought set hostName rank) = 0 := by
    rw [List.countP_eq_zero]
    simpa using hnone
  obtain ⟨-, hpass⟩ := hedits.absent hcount
  have hend := hpass [] []
  rw [← key_eq, List.nil_append, List.append_nil] at hend
  have hnone : findText (g.textAfter set) (nodeText hostName unknownPort rank ++ [':']) 0 = none := by
    refine hend.trans ?_
    rw [findText, List.drop_length, key_eq]
    rfl
  rw [setPort, hnone]

/-- The label of another node stays. -/
lemma labelAfter_other (hrank : s.rank ≠ rank) :
    (s.withPort hostName port rank).labelAfter (fun r => decide (r = rank) || set r) =
      s.labelAfter set := by
  have hport : (s.withPort hostName port rank).port = s.port := by
    rw [Graph.withPort_eq]
    exact if_neg fun hboth => hrank hboth.2
  rw [Graph.labelAfter, Graph.portText, hport, Graph.withPort_eq, Graph.labelAfter, Graph.portText]
  simp [hrank]

/-- In the label of the node the port is written over. -/
lemma labelAfter_sought (hsought : s.Sought set hostName rank) :
    ∃ rest, s.labelAfter set = hostName ++ ':' :: (paddedPort unknownPort ++ rest) ∧
      (s.withPort hostName port rank).labelAfter (fun r => decide (r = rank) || set r) =
        hostName ++ ':' :: (Nat.toDigits 10 port.toNat ++ rest) := by
  obtain ⟨hname, hrank, hport, hset⟩ := hsought
  refine ⟨':' :: (Nat.toDigits 10 s.rank.toNat ++ [':', if s.isBackEnd then '0' else '1']), ?_, ?_⟩
  · rw [Graph.labelAfter, s.portText_unknown.mpr ⟨hport, hrank ▸ hset⟩, hname]
  · rw [Graph.labelAfter, Graph.portText, Graph.withPort_eq]
    simp [hname, hrank]

/-- The node that is found, and no other, has another port. -/
lemma setPort_found (h : g.IsLegible) (hdistinct : g.DistinctRanks) (hhost : ':' ∉ hostName)
    (hs : s ∈ g.subgraphs) (hsought : s.Sought set hostName rank) :
    setPort (g.textAfter set) hostName port rank =
      ((g.withPort hostName port rank).textAfter fun r => decide (r = rank) || set r, true) := by
  have hunique : ∀ s' ∈ g.subgraphs, s'.rank = rank → s' = s := fun s' hs' hrank =>
    hdistinct.unique hs' hs (hrank.trans hsought.2.1.symm)
  have hedits := Graph.edits_textAfter set rank
    (fun l l' => ∃ rest, l = hostName ++ ':' :: (paddedPort unknownPort ++ rest) ∧
      l' = hostName ++ ':' :: (Nat.toDigits 10 port.toNat ++ rest))
    (fun s' => (s'.withPort hostName port rank).textAfter fun r => decide (r = rank) || set r)
    (fun s' => (s'.withPort hostName port rank).labelAfter fun r => decide (r = rank) || set r)
    h hhost (fun s' hs' => by
      have hlabel : (if s'.Sought set hostName rank then
          (s'.withPort hostName port rank).labelAfter (fun r => decide (r = rank) || set r)
          else s'.labelAfter set) =
          (s'.withPort hostName port rank).labelAfter (fun r => decide (r = rank) || set r) := by
        split_ifs with hhere
        · rfl
        · refine (labelAfter_other fun hrank => hhere ?_).symm
          rw [hunique s' hs' hrank]
          exact hsought
      rw [hlabel, Graph.textAfter_eq, Graph.withPort_eq, List.map_map]
      rfl)
    fun s' _ hhere => labelAfter_sought hhere
  have hcount : g.subgraphs.countP (Graph.Sought set hostName rank) = 1 := by
    obtain ⟨before, after, hsplit⟩ := List.append_of_mem hs
    have hnodup := hdistinct
    rw [Graph.DistinctRanks, hsplit, List.map_append, List.map_cons, List.nodup_middle,
      List.nodup_cons, List.mem_append, not_or, List.mem_map, List.mem_map] at hnodup
    have hbefore : before.countP (Graph.Sought set hostName rank) = 0 := by
      rw [List.countP_eq_zero]
      exact fun s' hs' hhere => hnodup.1.1
        ⟨s', hs', (of_decide_eq_true hhere).2.1.trans hsought.2.1.symm⟩
    have hafter : after.countP (Graph.Sought set hostName rank) = 0 := by
      rw [List.countP_eq_zero]
      exact fun s' hs' hhere => hnodup.1.2
        ⟨s', hs', (of_decide_eq_true hhere).2.1.trans hsought.2.1.symm⟩
    rw [hsplit, List.countP_append, List.countP_cons_of_pos (by exact decide_eq_true hsought),
      hbefore, hafter]
  obtain ⟨l, l', a, b, ⟨rest, rfl, rfl⟩, hold, hnew, hfound⟩ := hedits.once hcount
  have htext : g.textAfter set =
      a ++ '[' :: (hostName ++ ':' :: (paddedPort unknownPort ++ (rest ++ b))) := by
    rw [hold]
    simp
  have hhere := hfound [] []
  rw [← key_eq, List.nil_append, List.append_nil, htext] at hhere
  rw [htext, setPort_at hhost hhere, hnew]
  simp

lemma subgraphs_withPort (g : Graph) : (g.withPort hostName port rank).subgraphs =
    g.subgraphs.map (Graph.withPort hostName port rank) := by
  induction g with
  | node g ih =>
      have hkids : (g.withPort hostName port rank).children =
          g.children.map (Graph.withPort hostName port rank) := by
        rw [Graph.withPort_eq]
      have hparts : g.children.map (Graph.subgraphs ∘ Graph.withPort hostName port rank) =
          g.children.map (List.map (Graph.withPort hostName port rank) ∘ Graph.subgraphs) :=
        List.map_congr_left ih
      rw [Graph.subgraphs_eq, hkids, Graph.subgraphs_eq g, List.map_cons, List.map_flatten,
        List.map_map, List.map_map, hparts]

lemma isLegible_withPort (h : g.IsLegible) : (g.withPort hostName port rank).IsLegible := by
  intro s hs
  rw [subgraphs_withPort] at hs
  obtain ⟨s', hs', rfl⟩ := List.mem_map.mp hs
  rw [Graph.withPort_eq]
  exact h s' hs'

lemma readPort_eq (g : Graph) : g.readPort =
    if g.hostName = [] then portOf (Nat.toDigits 10 g.rank.toNat) else g.port := by
  rw [Graph.readPort, portOf, atoi_rank]

/-- A port that was set is read, unless it is the rank that is read. -/
lemma asRead_withPort_iff : (g.withPort hostName port rank).asRead =
    g.asRead.withPort hostName port rank ↔
      ∀ s ∈ g.subgraphs, s.hostName = hostName → s.rank = rank → hostName = [] →
        portOf (Nat.toDigits 10 rank.toNat) = port := by
  induction g with
  | node g ih =>
      have hroot : (g.withPort hostName port rank).readPort =
          (if g.hostName = hostName ∧ g.rank = rank then port else g.readPort) ↔
            (g.hostName = hostName → g.rank = rank → hostName = [] →
              portOf (Nat.toDigits 10 rank.toNat) = port) := by
        rw [readPort_eq, readPort_eq, Graph.withPort_eq]
        dsimp only
        by_cases hhere : g.hostName = hostName ∧ g.rank = rank
        · rw [if_pos hhere, if_pos hhere, hhere.1, hhere.2]
          split_ifs with hnil
          · exact ⟨fun heq _ _ _ => heq, fun heq => heq rfl rfl hnil⟩
          · exact ⟨fun _ _ _ hnil' => absurd hnil' hnil, fun _ => rfl⟩
        · rw [if_neg hhere, if_neg hhere]
          exact ⟨fun _ hname hrank => absurd ⟨hname, hrank⟩ hhere, fun _ => rfl⟩
      have hkids : (g.children.map (Graph.withPort hostName port rank)).map Graph.asRead =
          (g.children.map Graph.asRead).map (Graph.withPort hostName port rank) ↔
            ∀ c ∈ g.children, ∀ s ∈ c.subgraphs, s.hostName = hostName → s.rank = rank →
              hostName = [] → portOf (Nat.toDigits 10 rank.toNat) = port := by
        rw [List.map_map, List.map_map, List.map_inj_left]
        exact forall₂_congr fun c hc => ih c hc
      have hnode : (g.withPort hostName port rank).asRead = g.asRead.withPort hostName port rank ↔
          (g.withPort hostName port rank).readPort =
            (if g.hostName = hostName ∧ g.rank = rank then port else g.readPort) ∧
          (g.children.map (Graph.withPort hostName port rank)).map Graph.asRead =
            (g.children.map Graph.asRead).map (Graph.withPort hostName port rank) := by
        rw [Graph.asRead_eq, Graph.asRead_eq g, Graph.withPort_eq, Graph.withPort_eq]
        simp only [Graph.mk.injEq, true_and]
      rw [hnode, hroot, hkids, Graph.subgraphs_eq]
      simp only [List.mem_cons, List.mem_flatten, List.mem_map, forall_eq_or_imp]
      refine and_congr_right fun _ => ⟨?_, fun hall c hc s hs => hall s ⟨_, ⟨c, hc, rfl⟩, hs⟩⟩
      rintro hall s ⟨_, ⟨c, hc, rfl⟩, hs⟩
      exact hall c hc s hs

/-- One node is set: the tree that is read differs in its port. -/
structure SetsOne (g : Graph) (text hostName : Text) (port : Port) (rank : Rank)
    (r : Text × Bool) : Prop where
  found : r.2 = true ↔ ∃ s ∈ g.subgraphs, s.Unset hostName rank
  parsed : r.2 = true → ∃ old, parse text = .ok old ∧
    parse r.1 = .ok (old.withPort hostName port rank)
  unchanged : r.2 = false → r.1 = text

/-- A node that is found is set if the port that is read of it is the new one. -/
lemma setsOne_found (h : g.IsLegible) (hdistinct : g.DistinctRanks) (hhost : ':' ∉ hostName)
    (hs : s ∈ g.subgraphs) (hsought : s.Sought set hostName rank) :
    SetsOne g (g.textAfter set) hostName port rank (setPort (g.textAfter set) hostName port rank) ↔
      (hostName = [] → portOf (Nat.toDigits 10 rank.toNat) = port) := by
  have hparse := Graph.parse_textAfter set h
  have hparse' := Graph.parse_textAfter (fun r => decide (r = rank) || set r)
    (@isLegible_withPort _ hostName port rank h)
  obtain ⟨hname, hrank, hport, -⟩ := id hsought
  rw [setPort_found h hdistinct hhost hs hsought]
  constructor
  · intro hsets
    obtain ⟨old, hold, hnew⟩ := hsets.parsed rfl
    cases hparse.symm.trans hold
    have heq := Except.ok.inj (hparse'.symm.trans hnew)
    exact asRead_withPort_iff.mp heq s hs hname hrank
  · intro hreads
    refine ⟨⟨fun _ => ⟨s, hs, hname, hrank, hport⟩, fun _ => rfl⟩, fun _ => ⟨_, hparse, ?_⟩, nofun⟩
    rw [hparse', asRead_withPort_iff.mpr fun _ _ _ _ => hreads]

/-- Without the node that is asked for nothing is found and nothing is set. -/
lemma setsOne_missing (hnone : setPort (g.textAfter set) hostName port rank =
    (g.textAfter set, false)) :
    SetsOne g (g.textAfter set) hostName port rank (setPort (g.textAfter set) hostName port rank) ↔
      ∀ s ∈ g.subgraphs, ¬s.Unset hostName rank := by
  rw [hnone]
  constructor
  · exact fun hsets s hs hunset => Bool.false_ne_true (hsets.found.mpr ⟨s, hs, hunset⟩)
  · intro hnot
    refine ⟨⟨nofun, ?_⟩, nofun, fun _ => rfl⟩
    rintro ⟨s, hs, hunset⟩
    exact absurd hunset (hnot s hs)

/-- A name that no node can have is found if the key stands in the text. -/
lemma setsOne_illegible (h : g.IsLegible) (hhost : ¬Legible hostName) :
    SetsOne g (g.textAfter set) hostName port rank (setPort (g.textAfter set) hostName port rank) ↔
      ¬nodeText hostName unknownPort rank ++ [':'] <:+: g.textAfter set := by
  have hnone : ∀ s ∈ g.subgraphs, ¬s.Unset hostName rank := by
    intro s hs hunset
    apply hhost
    rw [← hunset.1]
    exact h s hs
  cases hkey : findText (g.textAfter set) (nodeText hostName unknownPort rank ++ [':']) 0 with
  | none =>
      have hmissing : setPort (g.textAfter set) hostName port rank = (g.textAfter set, false) := by
        rw [setPort, hkey]
      rw [setsOne_missing hmissing]
      rw [findText_eq_none_iff, List.drop_zero] at hkey
      exact ⟨fun _ => hkey, fun _ => hnone⟩
  | some begin =>
      have hfound : (setPort (g.textAfter set) hostName port rank).2 = true := by
        rw [setPort, hkey]
      have hin : nodeText hostName unknownPort rank ++ [':'] <:+: g.textAfter set := by
        by_contra hnot
        rw [← List.drop_zero (l := g.textAfter set), ← findText_eq_none_iff, hkey] at hnot
        cases hnot
      refine ⟨fun hsets => ?_, fun hnot => absurd hin hnot⟩
      obtain ⟨s, hs, hunset⟩ := hsets.found.mp hfound
      exact absurd hunset (hnone s hs)

/-- When one node is set: the node that is asked for has its first port, and a name, or its rank
reads as the port; and a name that no node can have is not part of a key in the text. -/
theorem setPort_setsOne_iff (h : g.IsLegible) (hdistinct : g.DistinctRanks) (set : Rank → Bool)
    (hostName : Text) (port : Port) (rank : Rank) :
    SetsOne g (g.textAfter set) hostName port rank (setPort (g.textAfter set) hostName port rank) ↔
      (∀ s ∈ g.subgraphs, s.Unset hostName rank → set rank = false ∧
        (hostName = [] → portOf (Nat.toDigits 10 rank.toNat) = port)) ∧
      (¬Legible hostName → ¬nodeText hostName unknownPort rank ++ [':'] <:+: g.textAfter set) := by
  by_cases hhost : Legible hostName
  · have hout : (¬Legible hostName →
        ¬nodeText hostName unknownPort rank ++ [':'] <:+: g.textAfter set) ↔ True :=
      ⟨fun _ => trivial, fun _ hnot => absurd hhost hnot⟩
    rw [hout, and_true]
    by_cases hexists : ∃ s ∈ g.subgraphs, s.Sought set hostName rank
    · obtain ⟨s, hs, hsought⟩ := hexists
      obtain ⟨hname, hrank, hport, hset⟩ := id hsought
      rw [setsOne_found h hdistinct hhost.noColon hs hsought]
      exact ⟨fun hreads _ _ _ => ⟨hset, hreads⟩, fun hall => (hall s hs ⟨hname, hrank, hport⟩).2⟩
    · have hmissing : setPort (g.textAfter set) hostName port rank = (g.textAfter set, false) :=
        setPort_missing h hhost.noColon fun s hs hsought => hexists ⟨s, hs, hsought⟩
      rw [setsOne_missing hmissing]
      refine ⟨fun hnot s hs hunset => absurd hunset (hnot s hs), fun hall s hs hunset => ?_⟩
      obtain ⟨hname, hrank, hport⟩ := id hunset
      exact hexists ⟨s, hs, hname, hrank, hport, (hall s hs hunset).1⟩
  · rw [setsOne_illegible h hhost]
    refine ⟨fun hkey => ⟨fun s hs hunset => absurd ?_ hhost, fun _ => hkey⟩, fun hboth => hboth.2 hhost⟩
    rw [← hunset.1]
    exact h s hs

/-- A root and a back-end whose port is unknown. -/
def unsetGraph (hostName : Text) : Graph :=
  ⟨['a'], 1, 0, false, [⟨hostName, unknownPort, 1, true, []⟩]⟩

lemma subgraphs_unsetGraph (hostName : Text) : (unsetGraph hostName).subgraphs =
    [unsetGraph hostName, ⟨hostName, unknownPort, 1, true, []⟩] := by
  simp [Graph.subgraphs_eq, unsetGraph]

lemma unsetGraph_isLegible (h : Legible hostName) : (unsetGraph hostName).IsLegible := by
  intro s hs
  rw [subgraphs_unsetGraph] at hs
  rcases List.mem_cons.mp hs with rfl | hs
  · have hroot : Legible ['a'] := ⟨by decide, by decide, by decide⟩
    exact hroot
  · cases List.mem_singleton.mp hs
    exact h

lemma unsetGraph_distinctRanks (hostName : Text) : (unsetGraph hostName).DistinctRanks := by
  rw [Graph.DistinctRanks, subgraphs_unsetGraph]
  simp [unsetGraph]

/-- The port of the back-end is set, also when another port was set before. -/
theorem setPort_setsOne_sample :
    SetsOne (unsetGraph ['b']) ((unsetGraph ['b']).textAfter fun r => decide (r = 0)) ['b'] 7 1
      (setPort ((unsetGraph ['b']).textAfter fun r => decide (r = 0)) ['b'] 7 1) := by
  have hlegible : Legible ['b'] := ⟨by decide, by decide, by decide⟩
  refine (setPort_setsOne_iff (unsetGraph_isLegible hlegible) (unsetGraph_distinctRanks ['b'])
    _ ['b'] 7 1).mpr ⟨fun s hs hunset => ⟨by decide, fun hnil => by cases hnil⟩,
      fun hnot => absurd hlegible hnot⟩

/-- The rank of a back-end without a host name is read as its port, whatever port was set. -/
theorem setPort_not_setsOne : Legible [] ∧ (unsetGraph []).IsLegible ∧
    (unsetGraph []).DistinctRanks ∧
    ¬SetsOne (unsetGraph []) (unsetGraph []).text [] 7 1 (setPort (unsetGraph []).text [] 7 1) := by
  have hnil : Legible [] := ⟨by decide, by decide, by decide⟩
  have hlegible := unsetGraph_isLegible hnil
  have hdistinct := unsetGraph_distinctRanks []
  have hback : (⟨[], unknownPort, 1, true, []⟩ : Graph) ∈ (unsetGraph []).subgraphs := by
    rw [subgraphs_unsetGraph]
    exact List.mem_cons_of_mem _ List.mem_cons_self
  refine ⟨hnil, hlegible, hdistinct, fun hsets => ?_⟩
  rw [← Graph.textAfter_none] at hsets
  have hreads := (setsOne_found hlegible hdistinct hnil.noColon hback
    ⟨rfl, rfl, rfl, rfl⟩).mp hsets rfl
  exact absurd hreads (by decide)

end MRNet.SerialGraph
