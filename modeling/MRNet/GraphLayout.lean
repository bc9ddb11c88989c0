import MRNet.SerialGraph

/-!
# The layout of serialized graphs

A serialized graph is a tree in brackets, where each node has a label in front of its children.
Brackets are matched and found whatever the labels say, as long as there are no brackets in
them. What the members read of a root are the fields of its label, which end with colons.
-/
namespace MRNet.SerialGraph
open Codec
open WaitForAll (Rank)

lemma find_at (pre rest : Text) {c : Char} {pos : ℕ} (hpos : pos ≤ pre.length)
    (h : c ∉ pre.drop pos) : find (pre ++ c :: rest) c pos = some pre.length := by
  have hnone : (pre.drop pos).findIdx? (· = c) = none := by
    rw [List.findIdx?_eq_none_iff]
    intro d hd
    exact decide_eq_false fun heq => h (heq ▸ hd)
  rw [find, List.drop_append_of_le_length hpos, List.findIdx?_append, hnone, List.findIdx?_cons,
    decide_eq_true rfl]
  simp [Nat.sub_add_cancel hpos]

lemma find_none {text : Text} {c : Char} {pos : ℕ} (h : c ∉ text.drop pos) :
    find text c pos = none := by
  rw [find, Option.map_eq_none_iff, List.findIdx?_eq_none_iff]
  intro d hd
  exact decide_eq_false fun heq => h (heq ▸ hd)

lemma between_at (a b rest : Text) {first last : ℕ} (hfirst : first = a.length)
    (hlast : last = (a ++ b).length) : between (a ++ b ++ rest) first (some last) = b := by
  rw [between, substr, hfirst, hlast, List.length_append, Nat.add_sub_cancel_left,
    List.append_assoc, List.drop_left, List.take_left]

/-- A text that begins with three fields. -/
def fieldsText (host port rank rest : Text) : Text :=
  '[' :: (host ++ ':' :: (port ++ ':' :: (rank ++ ':' :: rest)))

/-- What a number stands for as a port. -/
def portOf (number : Text) : Port :=
  let number := (atoi number).toInt
  if number ≤ 65535 ∧ 0 ≤ number then BitVec.ofInt 16 number else BitVec.allOnes 16

section Fields
variable {host port rank : Text} (rest : Text)

lemma find_first (h : ':' ∉ host) {pos : ℕ} (hpos : pos ≤ host.length + 1) :
    find (fieldsText host port rank rest) ':' pos = some (host.length + 1) := by
  have hnot : ':' ∉ '[' :: host := by simpa using h
  exact find_at ('[' :: host) _ hpos fun hmem => hnot (List.mem_of_mem_drop hmem)

lemma find_second (h : ':' ∉ port) :
    find (fieldsText host port rank rest) ':' (host.length + 2) =
      some (host.length + port.length + 2) := by
  have htext : fieldsText host port rank rest =
      ('[' :: (host ++ ':' :: port)) ++ ':' :: (rank ++ ':' :: rest) := by
    simp [fieldsText]
  have hdrop : ('[' :: (host ++ ':' :: port)).drop (host.length + 2) = port := by
    rw [show '[' :: (host ++ ':' :: port) = ('[' :: (host ++ [':'])) ++ port by simp]
    exact List.drop_left' (by simp)
  have hlength : ('[' :: (host ++ ':' :: port)).length = host.length + port.length + 2 := by
    simp only [List.length_cons, List.length_append]
    omega
  rw [htext, find_at _ _ (by omega) (by rw [hdrop]; exact h), hlength]

lemma find_third (h : ':' ∉ rank) :
    find (fieldsText host port rank rest) ':' (host.length + port.length + 3) =
      some (host.length + port.length + rank.length + 3) := by
  have htext : fieldsText host port rank rest =
      ('[' :: (host ++ ':' :: (port ++ ':' :: rank))) ++ ':' :: rest := by
    simp [fieldsText]
  have hdrop : ('[' :: (host ++ ':' :: (port ++ ':' :: rank))).drop (host.length + port.length + 3) =
      rank := by
    rw [show '[' :: (host ++ ':' :: (port ++ ':' :: rank)) =
      ('[' :: (host ++ ':' :: (port ++ [':']))) ++ rank by simp]
    refine List.drop_left' ?_
    simp only [List.length_cons, List.length_append, List.length_nil]
    omega
  have hlength : ('[' :: (host ++ ':' :: (port ++ ':' :: rank))).length =
      host.length + port.length + rank.length + 3 := by
    simp only [List.length_cons, List.length_append]
    omega
  rw [htext, find_at _ _ (by omega) (by rw [hdrop]; exact h), hlength]

lemma between_second : between (fieldsText host port rank rest) (host.length + 2)
    (some (host.length + port.length + 2)) = port := by
  rw [show fieldsText host port rank rest =
    ('[' :: (host ++ [':'])) ++ port ++ ':' :: (rank ++ ':' :: rest) by simp [fieldsText]]
  refine between_at _ _ _ (by simp) ?_
  simp only [List.length_cons, List.length_append, List.length_nil]
  omega

lemma between_third : between (fieldsText host port rank rest) (host.length + port.length + 3)
    (some (host.length + port.length + rank.length + 3)) = rank := by
  rw [show fieldsText host port rank rest =
    ('[' :: (host ++ ':' :: (port ++ [':']))) ++ rank ++ ':' :: rest by simp [fieldsText]]
  refine between_at _ _ _ ?_ ?_ <;>
    (simp only [List.length_cons, List.length_append, List.length_nil]; omega)

variable (hhost : ':' ∉ host) (hport : ':' ∉ port) (hrank : ':' ∉ rank)
include hhost

theorem getRootHostName_fields : getRootHostName (fieldsText host port rank rest) = .ok host := by
  have hfirst : colon (fieldsText host port rank rest) 1 = .ok (host.length + 1) := by
    rw [colon, find_first rest hhost (by omega)]
    rfl
  rw [getRootHostName, hfirst, ok_bind, Nat.add_sub_cancel, substr, fieldsText, List.drop_succ_cons,
    List.drop_zero, List.take_left]
  rfl

include hport hrank

/-- The search for the port starts behind the first character of the host name. Without a host
name it comes to the rank. -/
theorem getRootPort_fields : getRootPort (fieldsText host port rank rest) =
    .ok (if host = [] then portOf rank else portOf port) := by
  rw [getRootPort]
  split_ifs with hnil
  · subst hnil
    have hcolon : colon (fieldsText [] port rank rest) 2 = .ok (port.length + 2) := by
      have hsecond := @find_second [] port rank rest hport
      rw [List.length_nil, Nat.zero_add, Nat.zero_add] at hsecond
      rw [colon, hsecond]
      rfl
    have hthird := @find_third [] port rank rest hrank
    have hbetween := @between_third [] port rank rest
    rw [List.length_nil, Nat.zero_add] at hthird hbetween
    rw [hcolon, ok_bind, hthird, hbetween]
    rfl
  · have hpos := List.length_pos_iff.mpr hnil
    have hcolon : colon (fieldsText host port rank rest) 2 = .ok (host.length + 1) := by
      rw [colon, find_first rest hhost (by omega)]
      rfl
    rw [hcolon, ok_bind, find_second rest hport, between_second]
    rfl

theorem getRootRank_fields : getRootRank (fieldsText host port rank rest) = .ok (atoi rank) := by
  have hfirst : colon (fieldsText host port rank rest) 0 = .ok (host.length + 1) := by
    rw [colon, find_first rest hhost (Nat.zero_le _)]
    rfl
  have hsecond : colon (fieldsText host port rank rest) (host.length + 2) =
      .ok (host.length + port.length + 2) := by
    rw [colon, find_second rest hport]
    rfl
  rw [getRootRank, hfirst, ok_bind, hsecond, ok_bind, find_third rest hrank, between_third]
  rfl

theorem isRootBackEnd_fields (flag : Char) :
    isRootBackEnd (fieldsText host port rank (flag :: rest)) = .ok (decide (flag = '0')) := by
  have hflag : (fieldsText host port rank (flag :: rest))[
      host.length + port.length + rank.length + 3 + 1]? = some flag := by
    rw [show fieldsText host port rank (flag :: rest) =
      ('[' :: (host ++ ':' :: (port ++ ':' :: (rank ++ [':'])))) ++ flag :: rest by simp [fieldsText]]
    rw [List.getElem?_append_right]
    · simp only [List.length_cons, List.length_append, List.length_nil]
      rw [show host.length + port.length + rank.length + 3 + 1 -
        (host.length + (port.length + (rank.length + (0 + 1) + 1) + 1) + 1) = 0 by omega]
      rfl
    · simp only [List.length_cons, List.length_append, List.length_nil]
      omega
  rw [isRootBackEnd, find_first _ hhost (Nat.zero_le _), Option.bind_some, find_second _ hport,
    Option.bind_some, find_third _ hrank]
  dsimp only
  rw [hflag]
  simp [pure, Except.pure]

end Fields

/-- Only the number of brackets that are still open counts. -/
lemma closing_shift (text : Text) (opened closed k : ℕ) :
    closing text (opened + k) (closed + k) = closing text opened closed := by
  induction text generalizing opened closed with
  | nil => rfl
  | cons c text ih =>
      have hopened : (if c = '[' then opened + k + 1 else opened + k) =
          (if c = '[' then opened + 1 else opened) + k := by
        split_ifs <;> omega
      have hclosed : (if c = ']' then closed + k + 1 else closed + k) =
          (if c = ']' then closed + 1 else closed) + k := by
        split_ifs <;> omega
      simp only [closing, hopened, hclosed, ih, Nat.add_right_cancel_iff]

lemma closing_cons (c : Char) (text : Text) {opened closed opened' closed' : ℕ}
    (hopened : (if c = '[' then opened + 1 else opened) = opened')
    (hclosed : (if c = ']' then closed + 1 else closed) = closed') (hne : opened' ≠ closed') :
    closing (c :: text) opened closed = (closing text opened' closed').map (· + 1) := by
  simp only [closing, hopened, hclosed, if_neg hne]

/-- A text without brackets is passed over. -/
lemma closing_plain {pre : Text} (ho : '[' ∉ pre) (hc : ']' ∉ pre) (rest : Text)
    {opened closed : ℕ} (hne : opened ≠ closed) :
    closing (pre ++ rest) opened closed = (closing rest opened closed).map (· + pre.length) := by
  induction pre with
  | nil => simp
  | cons c pre ih =>
      rw [List.mem_cons, not_or] at ho hc
      rw [List.cons_append, closing_cons c _ (if_neg (Ne.symm ho.1)) (if_neg (Ne.symm hc.1)) hne,
        ih ho.2 hc.2, Option.map_map]
      rfl

/-- Labels and children in brackets. -/
structure Bracketed where
  label : Text
  children : List Bracketed

namespace Bracketed

def text : Bracketed → Text
  | ⟨label, children⟩ => ['['] ++ label ++ (children.map text).flatten ++ [']']

/-- The tree and all those below it, each one followed by those below it. -/
def subtrees : Bracketed → List Bracketed
  | ⟨label, children⟩ => ⟨label, children⟩ :: (children.map subtrees).flatten

/-- No label has a bracket in it. -/
def Plain (t : Bracketed) : Prop := ∀ s ∈ t.subtrees, '[' ∉ s.label ∧ ']' ∉ s.label

/-- The induction over the children of a node. -/
@[elab_as_elim, induction_eliminator]
theorem induction {P : Bracketed → Prop} (node : ∀ t : Bracketed, (∀ c ∈ t.children, P c) → P t)
    (t : Bracketed) : P t := by
  have hall : ∀ t : Bracketed, P t := fun t => @Bracketed.rec P (fun cs => ∀ c ∈ cs, P c)
    (fun label children ih => node ⟨label, children⟩ ih)
    (fun c hc => by cases hc)
    (fun t ts ht hts c hc => by
      rcases List.mem_cons.mp hc with rfl | hmem
      · exact ht
      · exact hts c hmem) t
  exact hall t

/-- What follows the opening bracket. -/
def body (t : Bracketed) : Text := t.label ++ (t.children.map text).flatten ++ [']']

variable {t : Bracketed} {ts : List Bracketed}

lemma text_eq (t : Bracketed) : t.text = '[' :: t.body := by
  cases t
  rw [text, body, List.append_assoc, List.append_assoc, List.append_assoc]
  rfl

lemma subtrees_eq (t : Bracketed) : t.subtrees = t :: (t.children.map subtrees).flatten := by
  cases t
  rw [subtrees]

lemma subtrees_child {c s : Bracketed} (hc : c ∈ t.children) (hs : s ∈ c.subtrees) :
    s ∈ t.subtrees := by
  rw [subtrees_eq]
  exact List.mem_cons_of_mem _ (List.mem_flatten.mpr ⟨_, List.mem_map_of_mem hc, hs⟩)

lemma Plain.root (h : t.Plain) : '[' ∉ t.label ∧ ']' ∉ t.label := by
  apply h t
  rw [subtrees_eq]
  exact List.mem_cons_self

lemma Plain.child (h : t.Plain) {c : Bracketed} (hc : c ∈ t.children) : c.Plain :=
  fun s hs => h s (subtrees_child hc hs)

lemma body_length_pos (t : Bracketed) : 0 < t.body.length := by
  rw [body, List.length_append, List.length_singleton]
  omega

/-- Texts that are passed over one by one are passed over together. -/
lemma closing_texts
    (h : ∀ t ∈ ts, ∀ rest {opened closed : ℕ}, closed < opened → closing (t.text ++ rest) opened
      closed = (closing rest opened closed).map (· + t.text.length)) (rest : Text)
    {opened closed : ℕ} (hlt : closed < opened) :
    closing ((ts.map text).flatten ++ rest) opened closed =
      (closing rest opened closed).map (· + (ts.map text).flatten.length) := by
  induction ts with
  | nil => simp
  | cons t ts ih =>
      rw [List.map_cons, List.flatten_cons, List.append_assoc, h t List.mem_cons_self _ hlt,
        ih fun c hc => h c (List.mem_cons_of_mem _ hc), Option.map_map, List.length_append]
      congr 1
      ext n
      exact by simp only [Function.comp_apply]; omega

/-- The scan comes to the closing bracket of the node itself. -/
lemma closing_inner (hroot : '[' ∉ t.label ∧ ']' ∉ t.label)
    (h : ∀ c ∈ t.children, ∀ rest {opened closed : ℕ}, closed < opened →
      closing (c.text ++ rest) opened closed =
        (closing rest opened closed).map (· + c.text.length)) (rest : Text)
    {opened closed : ℕ} (hlt : closed < opened) :
    closing (t.body ++ rest) opened closed =
      (closing (']' :: rest) opened closed).map (· + (t.body.length - 1)) := by
  have hbody : t.body ++ rest = t.label ++ ((t.children.map text).flatten ++ ']' :: rest) := by
    rw [body]
    simp
  have hlen : t.body.length - 1 = (t.children.map text).flatten.length + t.label.length := by
    simp only [body, List.length_append, List.length_singleton]
    omega
  rw [hbody, closing_plain hroot.1 hroot.2 _ (Nat.ne_of_gt hlt), closing_texts h _ hlt,
    Option.map_map, hlen]
  congr 1
  ext n
  exact Nat.add_assoc n _ _

/-- The text of a node is passed over. -/
lemma closing_text (h : t.Plain) (rest : Text) {opened closed : ℕ}
    (hlt : closed < opened) : closing (t.text ++ rest) opened closed =
      (closing rest opened closed).map (· + t.text.length) := by
  induction t generalizing rest opened closed with
  | node t ih =>
      have hkids : ∀ c ∈ t.children, ∀ rest {opened closed : ℕ}, closed < opened →
          closing (c.text ++ rest) opened closed =
            (closing rest opened closed).map (· + c.text.length) :=
        fun c hc rest _ _ hlt => ih c hc (h.child hc) rest hlt
      have hpos := t.body_length_pos
      rw [text_eq, List.cons_append, closing_cons '[' _ (if_pos rfl) (if_neg (by decide)) (by omega),
        closing_inner h.root hkids _ (by omega),
        closing_cons ']' _ (if_neg (by decide)) (if_pos rfl) (by omega), closing_shift,
        Option.map_map, Option.map_map, List.length_cons]
      congr 1
      ext n
      simp only [Function.comp_apply]
      omega

/-- The bracket that a node opens is closed at its end. -/
lemma closing_body (h : t.Plain) (rest : Text) :
    closing (t.body ++ rest) 1 0 = some t.body.length := by
  have hpos := t.body_length_pos
  rw [closing_inner h.root (fun c hc rest _ _ hlt => closing_text (h.child hc) rest hlt) _
    Nat.zero_lt_one]
  show some (1 + (t.body.length - 1)) = _
  rw [Nat.add_sub_cancel' hpos]

lemma closing_at (h : t.Plain) (before rest : Text) :
    closing ((before ++ t.text ++ rest).drop (before.length + 1)) 1 0 = some t.body.length := by
  have hdrop : (before ++ t.text ++ rest).drop (before.length + 1) = t.body ++ rest := by
    rw [text_eq, List.append_assoc, List.drop_append]
    simp
  rw [hdrop, closing_body h]

lemma substr_at (t : Bracketed) (before rest : Text) :
    substr (before ++ t.text ++ rest) before.length (t.body.length + 1) = t.text := by
  have hlen : t.body.length + 1 = t.text.length := by
    rw [text_eq, List.length_cons]
  rw [substr, hlen, List.append_assoc, List.drop_left, List.take_left]

lemma getNextChild_text (h : t.Plain) (before rest : Text) :
    getNextChild (before ++ t.text ++ rest) (some before.length) =
      .ok (some (t.text, (before ++ t.text).length)) := by
  have hfind : find (before ++ t.text ++ rest) '[' before.length = some before.length := by
    rw [List.append_assoc, text_eq, List.cons_append]
    apply find_at _ _ le_rfl
    rw [List.drop_length]
    exact List.not_mem_nil
  unfold getNextChild
  dsimp only
  rw [hfind]
  dsimp only
  rw [closing_at h]
  dsimp only
  rw [substr_at, List.length_append, text_eq, List.length_cons]
  rfl

lemma subTreeAt_text (h : t.Plain) (before rest : Text) :
    subTreeAt (before ++ t.text ++ rest) before.length = .ok t.text := by
  rw [subTreeAt, closing_at h]
  dsimp only
  rw [substr_at]
  rfl

/-- The loop over the children, after what was read. -/
lemma childrenFrom_texts (h : ∀ t ∈ ts, t.Plain) (before : Text) (hpos : 0 < before.length) :
    childrenFrom (before ++ (ts.map text).flatten ++ [']']) before.length hpos =
      .ok (ts.map text) := by
  induction ts generalizing before with
  | nil =>
      have hnext : getNextChild (before ++ [] ++ [']']) (some before.length) = .ok none := by
        have hnone : find (before ++ [] ++ [']']) '[' before.length = none := by
          apply find_none
          rw [List.append_nil, List.drop_left]
          decide
        simp only [getNextChild, hnone]
        rfl
      rw [List.map_nil, List.flatten_nil, childrenFrom]
      split
      · rename_i heq
        cases hnext.symm.trans heq
      · rfl
      · rename_i heq
        cases hnext.symm.trans heq
  | cons t ts ih =>
      have hnext := getNextChild_text (h t List.mem_cons_self) before
        ((ts.map text).flatten ++ [']'])
      have htext : before ++ ((t :: ts).map text).flatten ++ [']'] =
          before ++ t.text ++ ((ts.map text).flatten ++ [']']) := by
        simp
      have hrest := ih (fun c hc => h c (List.mem_cons_of_mem _ hc)) (before ++ t.text)
        (by rw [List.length_append]; omega)
      rw [List.append_assoc] at hrest
      simp only [htext]
      rw [childrenFrom]
      split
      · rename_i heq
        cases hnext.symm.trans heq
      · rename_i heq
        cases hnext.symm.trans heq
      · rename_i heq
        cases hnext.symm.trans heq
        rw [hrest]
        rfl

/-- The label of the node itself may hold a closing bracket. -/
theorem getChildren_root (hlabel : '[' ∉ t.label) (h : ∀ c ∈ t.children, c.Plain) :
    getChildren t.text = .ok (t.children.map text) := by
  have htext : t.text = (['['] ++ t.label) ++ (t.children.map text).flatten ++ [']'] := by
    rw [text_eq, body]
    simp
  have hdrop : (['['] ++ t.label).drop 1 = t.label := rfl
  cases hkids : t.children with
  | nil =>
      have hnone : setToFirstChild t.text = none := by
        apply find_none
        rw [htext, hkids]
        simpa using hlabel
      unfold getChildren
      split
      · rfl
      · rename_i heq
        rw [hnone] at heq
        cases heq
  | cons c cs =>
      have hfirst : setToFirstChild t.text = some (['['] ++ t.label).length := by
        rw [setToFirstChild, htext, hkids, List.map_cons, List.flatten_cons, text_eq c,
          List.append_assoc, List.cons_append, List.cons_append]
        exact find_at (['['] ++ t.label) _ (by simp) (by rw [hdrop]; exact hlabel)
      unfold getChildren
      split
      · rename_i heq
        rw [hfirst] at heq
        cases heq
      · rename_i start heq
        rw [hfirst] at heq
        cases heq
        have hloop := childrenFrom_texts h (['['] ++ t.label) (by simp)
        simp only [← htext] at hloop
        rw [← hkids]
        exact hloop

end Bracketed

section Search
variable {k : Text}

lemma findText_here {pre rest : Text} (h : '[' :: k <+: rest) :
    findText (pre ++ rest) ('[' :: k) pre.length = some pre.length := by
  obtain ⟨rest', rfl⟩ := h
  have hkey : ('[' :: k).isPrefixOf ('[' :: (k ++ rest')) = true :=
    List.isPrefixOf_iff_prefix.mpr ⟨rest', rfl⟩
  rw [findText, List.drop_left, List.cons_append, List.tails_cons, List.findIdx?_cons, hkey]
  simp

/-- A character at which the key does not stand is passed. -/
lemma findText_skip {pre rest : Text} {c : Char} (h : ¬ '[' :: k <+: c :: rest) :
    findText (pre ++ c :: rest) ('[' :: k) pre.length =
      findText (pre ++ c :: rest) ('[' :: k) (pre ++ [c]).length := by
  have hkey : ('[' :: k).isPrefixOf (c :: rest) = false := by
    rw [Bool.eq_false_iff, ne_eq, List.isPrefixOf_iff_prefix]
    exact h
  have hdrop : (pre ++ c :: rest).drop (pre ++ [c]).length = rest := by
    rw [List.append_cons pre c rest, List.drop_left]
  rw [findText, findText, hdrop, List.drop_left, List.tails_cons, List.findIdx?_cons, hkey]
  cases rest.tails.findIdx? (('[' :: k).isPrefixOf ·) with
  | none => rfl
  | some n =>
      rw [List.length_append, List.length_singleton]
      simp only [Bool.false_eq_true, if_false, Option.map_some, Option.some_inj]
      omega

/-- The key stands nowhere but at a bracket. -/
lemma findText_plain {mid : Text} (h : '[' ∉ mid) (pre rest : Text) :
    findText (pre ++ mid ++ rest) ('[' :: k) pre.length =
      findText (pre ++ mid ++ rest) ('[' :: k) (pre ++ mid).length := by
  induction mid generalizing pre with
  | nil => rw [List.append_nil]
  | cons c mid ih =>
      rw [List.mem_cons, not_or] at h
      have hstep : ¬ '[' :: k <+: c :: (mid ++ rest) := by
        rintro ⟨rest', hrest⟩
        exact h.1 (List.cons.inj hrest).1
      have hrest := ih h.2 (pre ++ [c])
      rw [List.append_assoc, List.cons_append, findText_skip hstep]
      rw [List.append_assoc pre, List.singleton_append] at hrest
      rw [List.append_assoc pre, List.cons_append] at hrest
      exact hrest

end Search

end MRNet.SerialGraph
