import MRNet.GraphText

/-!
# The lightweight reader of serialized graphs

Translation of the functions of the lightweight library that read a serialized graph, and
how they and the members of `SerialGraph` agree. Both find the same parts of a node and the
same children. They look for different subtrees: the one for a place and a rank, the other
for a rank and the beginning of a host name.
-/
namespace MRNet.SerialGraph
open Codec
open WaitForAll (Rank)

namespace Lightweight

/-- The number of characters before the first that is `c`, or before the end. -/
def strcspn (buf : Text) (c : Char) : ℕ := (buf.takeWhile (· ≠ c)).length

/-- The text after the next colon. Without a colon the terminator is passed. -/
def afterColon (buf : Text) : Outcome Text :=
  match buf.drop (strcspn buf ':') with
  | [] => .error (.fault .readPast)
  | _ :: rest => return rest

/-- The search starts at index 1. -/
def fromFirst : Text → Outcome Text
  | [] => .error (.fault .readPast)
  | _ :: buf => return buf

def getRootHostName (text : Text) : Outcome Text := do
  let buf ← fromFirst text
  return buf.take (strcspn buf ':')

def getRootPort (text : Text) : Outcome Port := do
  let buf ← fromFirst text
  let buf ← afterColon buf
  return (atoi (buf.take (strcspn buf ':'))).setWidth 16

/-- The number is cut to a port before it is a rank. -/
def getRootRank (text : Text) : Outcome Rank := do
  let buf ← fromFirst text
  let buf ← afterColon buf
  let buf ← afterColon buf
  let port : Port := (atoi (buf.take (strcspn buf ':'))).setWidth 16
  return port.setWidth 32

/-- The type of a node is one of two characters. -/
def isRootBackEnd (text : Text) : Outcome Bool :=
  match (find text ':' 0).bind fun i => (find text ':' (i + 1)).bind fun j =>
    find text ':' (j + 1) with
  | none => .error (.fault .readPast)
  | some k =>
      match text[k + 1]? with
      | some '0' => return true
      | some '1' => return false
      | _ => .error (.fault .assertion)

def setToFirstChild (text : Text) : Outcome ℕ := do
  let buf ← fromFirst text
  return strcspn buf '[' + 1

/-- The length that is kept counts the terminator. -/
def getNextChild (text : Text) (cur : ℕ) : Outcome (Option (Text × ℕ)) :=
  if cur > text.length + 1 then return none
  else if '[' ∉ text.drop cur then return none
  else
    match closing (text.drop (cur + 1)) 1 0 with
    | none => .error (.fault .readPast)
    | some n => return some (substr text cur (n + 1), cur + n + 1)

/-- The loop over the children, which are fewer than the characters. -/
def childrenFrom (text : Text) : ℕ → ℕ → Outcome (List Text)
  | 0, _ => .error (.fault .storePast)
  | calls + 1, bufIdx => do
      match ← getNextChild text bufIdx with
      | none => return []
      | some (child, next) => do
          let rest ← childrenFrom text calls next
          return child :: rest

def getChildren (text : Text) : Outcome (List Text) := do
  let bufIdx ← setToFirstChild text
  childrenFrom text (text.length + 1) bufIdx

/-- The key of a node as `sprintf` writes it. -/
def nodeKey (hostName : Text) (port : Port) (rank : Rank) : Text := nodeText hostName port rank ++ [':']

/-- The key is written to a buffer of 256 characters. -/
def getMySubTree (text hostName : Text) (port : Port) (rank : Rank) : Outcome (Option Text) := do
  let hoststr := nodeKey hostName port rank
  if hoststr.length + 1 > 256 then .error (.fault .storePast)
  else
    match findText text hoststr 0 with
    | none => return none
    | some start => do
        let subTree ← subTreeAt text start
        return some subTree

end Lightweight

section Accessors

lemma strcspn_at {pre : Text} {c : Char} (h : c ∉ pre) (rest : Text) :
    Lightweight.strcspn (pre ++ c :: rest) c = pre.length := by
  rw [Lightweight.strcspn, List.takeWhile_append_of_pos]
  · simp
  · intro d hd
    exact decide_eq_true fun heq => h (heq ▸ hd)

lemma afterColon_at {pre : Text} (h : ':' ∉ pre) (rest : Text) :
    Lightweight.afterColon (pre ++ ':' :: rest) = .ok rest := by
  rw [Lightweight.afterColon, strcspn_at h, List.drop_left]
  rfl

lemma take_strcspn {pre : Text} {c : Char} (h : c ∉ pre) (rest : Text) :
    (pre ++ c :: rest).take (Lightweight.strcspn (pre ++ c :: rest) c) = pre := by
  rw [strcspn_at h, List.take_left]

variable {g : Graph}

lemma fromFirst_text : Lightweight.fromFirst g.text = .ok (g.hostName ++ ':' ::
    (paddedPort g.port ++ ':' :: (Nat.toDigits 10 g.rank.toNat ++ ':' :: g.tail))) := by
  rw [Graph.text_host, Graph.toHost]
  rfl

variable (h : Legible g.hostName)
include h

lemma lightweight_getRootHostName : Lightweight.getRootHostName g.text = .ok g.hostName := by
  rw [Lightweight.getRootHostName, fromFirst_text, ok_bind, take_strcspn h.noColon]
  rfl

lemma lightweight_getRootPort : Lightweight.getRootPort g.text = .ok g.port := by
  rw [Lightweight.getRootPort, fromFirst_text, ok_bind, afterColon_at h.noColon, ok_bind,
    take_strcspn (not_digit rfl (isDigit_paddedPort g.port)), atoi_paddedPort]
  have hlt := g.port.isLt
  have hsame : (BitVec.ofNat 32 g.port.toNat).setWidth 16 = g.port := by
    apply BitVec.eq_of_toNat_eq
    rw [BitVec.toNat_setWidth, BitVec.toNat_ofNat]
    omega
  rw [hsame]
  rfl

lemma lightweight_getRootRank (hrank : g.rank.toNat < 2 ^ 16) :
    Lightweight.getRootRank g.text = .ok g.rank := by
  rw [Lightweight.getRootRank, fromFirst_text, ok_bind, afterColon_at h.noColon, ok_bind,
    afterColon_at (not_digit rfl (isDigit_paddedPort g.port)), ok_bind,
    take_strcspn (not_digit rfl (isDigit_rank g.rank)), atoi_rank]
  have hsame : (g.rank.setWidth 16).setWidth 32 = g.rank := by
    apply BitVec.eq_of_toNat_eq
    rw [BitVec.toNat_setWidth, BitVec.toNat_setWidth]
    omega
  dsimp only
  rw [hsame]
  rfl

lemma lightweight_isRootBackEnd : Lightweight.isRootBackEnd g.text = .ok g.isBackEnd := by
  rw [Lightweight.isRootBackEnd, Graph.find_host h.noColon (Nat.zero_le _), Option.bind_some,
    Graph.find_port, Option.bind_some, Graph.find_rank]
  dsimp only
  rw [Graph.getElem?_flag]
  cases g.isBackEnd <;> rfl

end Accessors

lemma lightweight_getNextChild {g : Graph} (h : g.IsLegible) (before rest : Text) :
    Lightweight.getNextChild (before ++ g.text ++ rest) before.length =
      .ok (some (g.text, (before ++ g.text).length)) := by
  have hopening : '[' ∈ (before ++ g.text ++ rest).drop before.length := by
    rw [List.append_assoc, List.drop_left, Graph.text_eq]
    exact List.mem_cons_self
  have hlen : ¬before.length > (before ++ g.text ++ rest).length + 1 := by
    rw [List.append_assoc, List.length_append]
    omega
  unfold Lightweight.getNextChild
  rw [if_neg hlen, if_neg (not_not.mpr hopening), Graph.closing_at h]
  dsimp only
  rw [Graph.substr_at, List.length_append, Graph.text_eq, List.length_cons]
  rfl

lemma lightweight_childrenFrom {gs : List Graph} (h : ∀ g ∈ gs, g.IsLegible) (before : Text)
    {calls : ℕ} (hcalls : gs.length < calls) :
    Lightweight.childrenFrom (before ++ (gs.map Graph.text).flatten ++ [']']) calls before.length =
      .ok (gs.map Graph.text) := by
  induction gs generalizing before calls with
  | nil =>
      obtain ⟨calls, rfl⟩ : ∃ n, calls = n + 1 := ⟨calls - 1, by omega⟩
      have hnone : Lightweight.getNextChild (before ++ [] ++ [']']) before.length = .ok none := by
        unfold Lightweight.getNextChild
        rw [List.append_nil, List.drop_left, if_pos (by decide : '[' ∉ [']'])]
        split_ifs <;> rfl
      rw [List.map_nil, List.flatten_nil, Lightweight.childrenFrom, hnone]
      rfl
  | cons g gs ih =>
      obtain ⟨calls, rfl⟩ : ∃ n, calls = n + 1 := ⟨calls - 1, by omega⟩
      rw [List.length_cons] at hcalls
      have hnext := lightweight_getNextChild (h g List.mem_cons_self) before
        ((gs.map Graph.text).flatten ++ [']'])
      have hrest := ih (fun c hc => h c (List.mem_cons_of_mem _ hc)) (before ++ g.text)
        (Nat.lt_of_succ_lt_succ hcalls)
      have htext : before ++ ((g :: gs).map Graph.text).flatten ++ [']'] =
          before ++ g.text ++ ((gs.map Graph.text).flatten ++ [']']) := by
        simp
      rw [List.append_assoc] at hrest
      rw [htext, Lightweight.childrenFrom, hnext, ok_bind]
      dsimp only
      rw [hrest]
      rfl

lemma children_lt_length (g : Graph) : g.children.length < g.text.length + 1 := by
  have hle : g.children.length ≤ (g.children.map Graph.text).flatten.length := by
    induction g.children with
    | nil => exact Nat.zero_le _
    | cons c cs ih =>
        rw [List.map_cons, List.flatten_cons, List.length_append, List.length_cons, Graph.text_eq,
          List.length_cons]
        omega
  rw [Graph.text_eq, Graph.body, List.length_cons, List.length_append, List.length_append]
  omega

lemma lightweight_getChildren {g : Graph} (h : g.IsLegible) :
    Lightweight.getChildren g.text = .ok (g.children.map Graph.text) := by
  have hlabel := (Graph.not_mem_label h.root).1
  have htext : g.text = (['['] ++ g.label) ++ (g.children.map Graph.text).flatten ++ [']'] := by
    rw [Graph.text_eq, Graph.body]
    simp
  have hfrom : Lightweight.fromFirst g.text = .ok g.body := by
    rw [Graph.text_eq]
    rfl
  rw [Lightweight.getChildren, Lightweight.setToFirstChild, hfrom, ok_bind]
  cases hkids : g.children with
  | nil =>
      -- Without a bracket the index is that of the terminator.
      have hnot : '[' ∉ g.body := by
        rw [Graph.body, hkids]
        simpa using hlabel
      have hindex : Lightweight.strcspn g.body '[' + 1 = g.text.length := by
        rw [Lightweight.strcspn, List.takeWhile_eq_self_iff.mpr, Graph.text_eq, List.length_cons]
        intro d hd
        exact decide_eq_true fun heq => hnot (heq ▸ hd)
      have hnone : Lightweight.getNextChild g.text g.text.length = .ok none := by
        unfold Lightweight.getNextChild
        rw [List.drop_length, if_pos List.not_mem_nil]
        split_ifs <;> rfl
      rw [hindex]
      show Lightweight.childrenFrom g.text (g.text.length + 1) g.text.length = _
      rw [Lightweight.childrenFrom, hnone]
      rfl
  | cons c cs =>
      have hindex : Lightweight.strcspn g.body '[' + 1 = (['['] ++ g.label).length := by
        rw [Graph.body, hkids, List.map_cons, List.flatten_cons, Graph.text_eq, List.append_assoc,
          List.cons_append, List.cons_append, strcspn_at hlabel]
        simp
      have hloop := lightweight_childrenFrom (fun c hc => h.child hc) (['['] ++ g.label)
        (children_lt_length g)
      rw [← htext] at hloop
      rw [hindex, ← hkids]
      exact hloop

/-- What is left of a text while its nodes are gone through. -/
inductive Item where
  | graph (g : Graph)
  | close

def Item.text : Item → Text
  | graph g => g.text
  | close => [']']

def itemsText (items : List Item) : Text := (items.map Item.text).flatten

/-- What is left after the label of the first node. -/
def enter (g : Graph) (items : List Item) : List Item :=
  g.children.map Item.graph ++ Item.close :: items

lemma itemsText_graph (g : Graph) (items : List Item) :
    itemsText (.graph g :: items) = '[' :: g.label ++ itemsText (enter g items) := by
  simp [itemsText, enter, Item.text, Graph.text_eq g, Graph.body, Function.comp_def]

lemma itemsText_graphs (gs : List Graph) (items : List Item) :
    itemsText (gs.map Item.graph ++ items) = (gs.map Graph.text).flatten ++ itemsText items := by
  simp [itemsText, Item.text, Function.comp_def]

namespace Graph

mutual

/-- The nodes of a graph, each with the text behind its closing bracket. -/
def places : Graph → Text → List (Graph × Text)
  | ⟨hostName, port, rank, isBackEnd, children⟩, rest =>
      (⟨hostName, port, rank, isBackEnd, children⟩, rest) :: placesAll children (']' :: rest)

def placesAll : List Graph → Text → List (Graph × Text)
  | [], _ => []
  | c :: cs, rest => places c ((cs.map text).flatten ++ rest) ++ placesAll cs rest

end

lemma places_eq (g : Graph) (rest : Text) :
    g.places rest = (g, rest) :: placesAll g.children (']' :: rest) := by
  cases g
  rw [places]

lemma map_fst_placesAll {gs : List Graph}
    (h : ∀ g ∈ gs, ∀ rest, (g.places rest).map Prod.fst = g.subgraphs) (rest : Text) :
    (placesAll gs rest).map Prod.fst = (gs.map subgraphs).flatten := by
  induction gs with
  | nil => rw [placesAll, List.map_nil, List.map_nil, List.flatten_nil]
  | cons g gs ih =>
      rw [placesAll, List.map_append, h g List.mem_cons_self,
        ih fun c hc => h c (List.mem_cons_of_mem _ hc), List.map_cons, List.flatten_cons]

/-- The places are those of the subgraphs, in their order. -/
lemma map_fst_places (g : Graph) (rest : Text) : (g.places rest).map Prod.fst = g.subgraphs := by
  induction g generalizing rest with
  | node g ih => rw [places_eq, List.map_cons, map_fst_placesAll ih, subgraphs_eq]

end Graph

/-- The places that are left. -/
def itemsPlaces : List Item → List (Graph × Text)
  | [] => []
  | .graph g :: items => g.places (itemsText items) ++ itemsPlaces items
  | .close :: items => itemsPlaces items

lemma itemsPlaces_graphs (gs : List Graph) (items : List Item) :
    itemsPlaces (gs.map Item.graph ++ items) =
      Graph.placesAll gs (itemsText items) ++ itemsPlaces items := by
  induction gs with
  | nil => rw [Graph.placesAll, List.map_nil, List.nil_append, List.nil_append]
  | cons g gs ih =>
      rw [List.map_cons, List.cons_append, itemsPlaces, ih, itemsText_graphs, Graph.placesAll,
        List.append_assoc]

lemma itemsPlaces_graph (g : Graph) (items : List Item) :
    itemsPlaces (.graph g :: items) = (g, itemsText items) :: itemsPlaces (enter g items) := by
  have hclose : itemsText (.close :: items) = ']' :: itemsText items := rfl
  rw [itemsPlaces, Graph.places_eq, enter, itemsPlaces_graphs, hclose, itemsPlaces, List.cons_append]

lemma itemsText_body (g : Graph) (items : List Item) :
    itemsText (.graph g :: items) = '[' :: (g.body ++ itemsText items) := by
  rw [itemsText, List.map_cons, List.flatten_cons, Item.text, Graph.text_eq]
  rfl

section Search
variable {k : Text}

/-- Where the key stands next: at the first node from which on the text begins with it. -/
lemma findText_items {items : List Item}
    (hlegible : ∀ p ∈ itemsPlaces items, Legible p.1.hostName) (pre : Text) :
    ((∀ p ∈ itemsPlaces items, ¬k <+: p.1.body ++ p.2) ∧
        findText (pre ++ itemsText items) ('[' :: k) pre.length = none) ∨
      ∃ before g items' pre', itemsPlaces items = before ++ itemsPlaces (.graph g :: items') ∧
        (∀ p ∈ before, ¬k <+: p.1.body ++ p.2) ∧ k <+: g.body ++ itemsText items' ∧
        pre ++ itemsText items = pre' ++ itemsText (.graph g :: items') ∧
        findText (pre ++ itemsText items) ('[' :: k) pre.length = some pre'.length := by
  induction hn : (itemsText items).length using Nat.strong_induction_on
    generalizing items pre with
  | _ n ih =>
      cases items with
      | nil =>
          refine .inl ⟨fun p hp => absurd hp List.not_mem_nil, ?_⟩
          show findText (pre ++ []) ('[' :: k) pre.length = none
          rw [List.append_nil, findText, List.drop_length]
          rfl
      | cons item items =>
          cases item with
          | close =>
              have htext : itemsText (.close :: items) = ']' :: itemsText items := rfl
              have hplaces : itemsPlaces (.close :: items) = itemsPlaces items := rfl
              have hskip : ¬ '[' :: k <+: ']' :: itemsText items := by
                rintro ⟨rest', hrest⟩
                exact absurd (List.cons.inj hrest).1 (by decide)
              rw [htext] at hn ⊢
              rw [hplaces] at hlegible ⊢
              rw [findText_skip hskip, List.append_cons]
              exact ih _ (by rw [← hn, List.length_cons]; omega) hlegible (pre ++ [']']) rfl
          | graph g =>
              have htext := itemsText_graph g items
              have hplaces := itemsPlaces_graph g items
              have hg : (g, itemsText items) ∈ itemsPlaces (.graph g :: items) := by
                rw [hplaces]
                exact List.mem_cons_self
              have hlabel := (Graph.not_mem_label (hlegible _ hg)).1
              by_cases hhere : k <+: g.body ++ itemsText items
              · refine .inr ⟨[], g, items, pre, rfl, fun p hp => absurd hp List.not_mem_nil, hhere,
                  rfl, ?_⟩
                apply findText_here
                rw [itemsText_body, List.cons_prefix_cons]
                exact ⟨rfl, hhere⟩
              · have hmem : ∀ p ∈ itemsPlaces (enter g items), p ∈ itemsPlaces (.graph g :: items) := by
                  intro p hp
                  rw [hplaces]
                  exact List.mem_cons_of_mem _ hp
                have hskip : ¬ '[' :: k <+: '[' :: (g.label ++ itemsText (enter g items)) := by
                  rw [← List.cons_append, ← htext, itemsText_body, List.cons_prefix_cons]
                  exact fun hkey => hhere hkey.2
                have hnext := ih (itemsText (enter g items)).length
                  (by rw [← hn, htext, List.length_append, List.length_cons]; omega)
                  (fun p hp => hlegible p (hmem p hp)) (pre ++ ['['] ++ g.label) rfl
                rw [← findText_plain hlabel] at hnext
                rw [htext, List.cons_append, findText_skip hskip, hplaces]
                have hassoc : pre ++ ['['] ++ g.label ++ itemsText (enter g items) =
                    pre ++ '[' :: (g.label ++ itemsText (enter g items)) := by
                  simp
                rw [hassoc] at hnext
                rcases hnext with
                  ⟨hno, hnone⟩ | ⟨before, s, items', pre', hbefore, hno, hs, hsplit, hsome⟩
                · refine .inl ⟨fun p hp => ?_, hnone⟩
                  rcases List.mem_cons.mp hp with rfl | hp
                  · exact hhere
                  · exact hno p hp
                · refine .inr ⟨(g, itemsText items) :: before, s, items', pre', ?_, fun p hp => ?_, hs,
                    hsplit, hsome⟩
                  · rw [hbefore, List.cons_append]
                  · rcases List.mem_cons.mp hp with rfl | hp
                    · exact hhere
                    · exact hno p hp

end Search

/-- Texts up to the first colon are told apart. -/
lemma prefix_colon_iff {a b x y : Text} (ha : ':' ∉ a) (hb : ':' ∉ b) :
    a ++ ':' :: x <+: b ++ ':' :: y ↔ a = b ∧ x <+: y := by
  induction a generalizing b with
  | nil =>
      cases b with
      | nil => simp [List.cons_prefix_cons]
      | cons d b =>
          have hd : ':' ≠ d := fun heq => hb (heq ▸ List.mem_cons_self)
          simp [List.cons_prefix_cons, hd]
  | cons c a ih =>
      have hc : c ≠ ':' := fun heq => ha (heq ▸ List.mem_cons_self)
      cases b with
      | nil => simp [List.cons_prefix_cons, hc]
      | cons d b =>
          rw [List.mem_cons, not_or] at ha hb
          rw [List.cons_append, List.cons_append, List.cons_prefix_cons, ih ha.2 hb.2,
            List.cons_eq_cons, and_assoc]

/-- A text without a colon begins the label if it begins the host name. -/
lemma prefix_host_iff {a b y : Text} (ha : ':' ∉ a) : a <+: b ++ ':' :: y ↔ a <+: b := by
  induction a generalizing b with
  | nil => simp
  | cons c a ih =>
      rw [List.mem_cons, not_or] at ha
      cases b with
      | nil => simp [List.cons_prefix_cons, Ne.symm ha.1]
      | cons d b => rw [List.cons_append, List.cons_prefix_cons, List.cons_prefix_cons, ih ha.2]

lemma body_eq (g : Graph) (rest : Text) : g.body ++ rest = g.hostName ++ ':' ::
    (paddedPort g.port ++ ':' :: (Nat.toDigits 10 g.rank.toNat ++ ':' ::
      ((if g.isBackEnd then '0' else '1') ::
        ((g.children.map Graph.text).flatten ++ [']'] ++ rest)))) := by
  simp [Graph.body, Graph.label]

lemma paddedPort_inj {port port' : Port} : paddedPort port = paddedPort port' ↔ port = port' := by
  constructor
  · intro heq
    have hnumber := congrArg atoi heq
    rw [atoi_paddedPort, atoi_paddedPort] at hnumber
    have hlt := port.isLt
    have hlt' := port'.isLt
    apply BitVec.eq_of_toNat_eq
    have hnat := congrArg BitVec.toNat hnumber
    rw [BitVec.toNat_ofNat, BitVec.toNat_ofNat] at hnat
    omega
  · exact congrArg paddedPort

lemma rankText_inj {rank rank' : Rank} :
    Nat.toDigits 10 rank.toNat = Nat.toDigits 10 rank'.toNat ↔ rank = rank' := by
  constructor
  · intro heq
    have hnumber := congrArg atoi heq
    rw [atoi_rank, atoi_rank] at hnumber
    exact hnumber
  · rintro rfl
    rfl

/-- The key of a node stands at the nodes with this host name, port and rank. -/
lemma key_prefix_iff {g : Graph} (hg : Legible g.hostName) {hostName : Text}
    (hhost : ':' ∉ hostName) (port : Port) (rank : Rank) (rest : Text) :
    hostName ++ ':' :: (paddedPort port ++ ':' :: (Nat.toDigits 10 rank.toNat ++ [':'])) <+:
      g.body ++ rest ↔ g.hostName = hostName ∧ g.port = port ∧ g.rank = rank := by
  rw [body_eq, prefix_colon_iff hhost hg.noColon,
    prefix_colon_iff (not_digit rfl (isDigit_paddedPort port))
      (not_digit rfl (isDigit_paddedPort g.port)),
    prefix_colon_iff (not_digit rfl (isDigit_rank rank)) (not_digit rfl (isDigit_rank g.rank)),
    paddedPort_inj, rankText_inj]
  constructor
  · rintro ⟨rfl, rfl, rfl, -⟩
    exact ⟨rfl, rfl, rfl⟩
  · rintro ⟨rfl, rfl, rfl⟩
    exact ⟨rfl, rfl, rfl, List.nil_prefix⟩

lemma searchRank_eq (text key myrank : Text) (begin : ℕ) :
    searchRank text key myrank begin =
      match findText text key begin with
      | none => .ok none
      | some cur =>
          match find text ':' cur with
          | none => .error (.fault .assertion)
          | some first =>
              match find text ':' (first + 1) with
              | none => .error (.fault .assertion)
              | some second =>
                  if between text (second + 1) (find text ':' (second + 1)) = myrank then
                    .ok (some cur)
                  else searchRank text key myrank (second + 1) := by
  rw [searchRank]
  split
  · rename_i hcur
    rw [hcur]
    rfl
  · rename_i cur hcur
    rw [hcur]
    dsimp only
    split
    · rename_i hfirst
      rw [hfirst]
    · rename_i first hfirst
      rw [hfirst]
      dsimp only
      split
      · rename_i hsecond
        rw [hsecond]
      · rename_i second hsecond
        rw [hsecond]
        rfl

/-- At a node the loop reads the rank of the node. -/
lemma searchRank_at {g : Graph} (hg : Legible g.hostName) {text key pre rest : Text}
    (myrank : Text) {begin : ℕ} (htext : text = pre ++ g.text ++ rest)
    (hfind : findText text key begin = some pre.length) :
    searchRank text key myrank begin =
      if Nat.toDigits 10 g.rank.toNat = myrank then .ok (some pre.length)
      else searchRank text key myrank (pre.length + (g.toPort.length + 1)) := by
  have hshift : ∀ {pos i}, find g.text ':' pos = some i →
      find text ':' (pre.length + pos) = some (pre.length + i) := by
    intro pos i hpos
    rw [htext, List.append_assoc, find_shift, find_append hpos]
    rfl
  have hfirst : find text ':' pre.length = some (pre.length + g.toHost.length) :=
    hshift (Graph.find_host hg.noColon (Nat.zero_le _))
  have hsecond : find text ':' (pre.length + g.toHost.length + 1) =
      some (pre.length + g.toPort.length) := hshift g.find_port
  have hthird : find text ':' (pre.length + g.toPort.length + 1) =
      some (pre.length + g.toRank.length) := hshift g.find_rank
  have hlen : g.toPort.length + 1 ≤ g.toRank.length ∧ g.toRank.length ≤ g.text.length := by
    rw [Graph.text_rank, Graph.toRank]
    simp only [List.length_append, List.length_cons, List.length_nil]
    omega
  have hbetween := between_shift pre g.text rest hlen.1 hlen.2
  rw [← htext, g.between_rank, ← Nat.add_assoc] at hbetween
  rw [searchRank_eq, hfind]
  dsimp only
  rw [hfirst]
  dsimp only
  rw [hsecond]
  dsimp only
  rw [hthird, hbetween]
  rfl

/-- The loop depends on its start only by the place that is found first. -/
lemma searchRank_congr {text key myrank : Text} {begin begin' : ℕ}
    (h : findText text key begin = findText text key begin') :
    searchRank text key myrank begin = searchRank text key myrank begin' := by
  rw [searchRank_eq, searchRank_eq text key myrank begin', h]

/-- What the members look for: the rank, and the given name where the text goes on. -/
def reached (hostName : Text) (rank : Rank) (p : Graph × Text) : Bool :=
  hostName.isPrefixOf (p.1.body ++ p.2) && decide (p.1.rank = rank)

lemma reached_iff {hostName : Text} {rank : Rank} {p : Graph × Text} :
    reached hostName rank p = true ↔ hostName <+: p.1.body ++ p.2 ∧ p.1.rank = rank := by
  rw [reached, Bool.and_eq_true, List.isPrefixOf_iff_prefix, decide_eq_true_iff]

/-- For a name without a colon it is the rank, and the beginning of the host name. -/
def Graph.answers (hostName : Text) (rank : Rank) (g : Graph) : Bool :=
  hostName.isPrefixOf g.hostName && decide (g.rank = rank)

/-- What the lightweight function looks for: the place and the rank. -/
def Graph.standsAt (hostName : Text) (port : Port) (rank : Rank) (g : Graph) : Bool :=
  decide (g.hostName = hostName ∧ g.port = port ∧ g.rank = rank)

lemma find?_after {α : Type} {P : α → Bool} {before after : List α} (h : ∀ s ∈ before, P s = false) :
    (before ++ after).find? P = after.find? P := by
  rw [List.find?_append, List.find?_eq_none.mpr]
  · rfl
  · intro s hs
    rw [h s hs]
    exact Bool.false_ne_true

/-- After the label of a node the search goes on at the next one. -/
lemma findText_label {g : Graph} (hg : Legible g.hostName) (k pre : Text) (items : List Item) :
    findText (pre ++ itemsText (.graph g :: items)) ('[' :: k)
        (pre.length + (g.toPort.length + 1)) =
      findText (pre ++ itemsText (.graph g :: items)) ('[' :: k)
        (pre ++ '[' :: g.label).length := by
  have hlabel : '[' :: g.label = g.toPort ++ [':'] ++ (Nat.toDigits 10 g.rank.toNat ++
      [':', if g.isBackEnd then '0' else '1']) := by
    simp [Graph.label, Graph.toPort, Graph.toHost]
  have htext : pre ++ itemsText (.graph g :: items) = pre ++ (g.toPort ++ [':']) ++
      (Nat.toDigits 10 g.rank.toNat ++ [':', if g.isBackEnd then '0' else '1']) ++
      itemsText (enter g items) := by
    rw [itemsText_graph, hlabel]
    simp
  have hmid : '[' ∉ Nat.toDigits 10 g.rank.toNat ++ [':', if g.isBackEnd then '0' else '1'] := by
    intro hmem
    apply (Graph.not_mem_label hg).1
    rw [Graph.label, List.append_assoc]
    exact List.mem_append_right _ hmem
  have hplain := findText_plain (k := k) hmid (pre ++ (g.toPort ++ [':']))
    (itemsText (enter g items))
  rw [htext, hlabel]
  convert hplain using 2
  · simp
  · simp

/-- The first node with the rank from which on the text begins with the given name. -/
lemma searchRank_items (hostName : Text) (rank : Rank) {items : List Item}
    (hlegible : ∀ p ∈ itemsPlaces items, p.1.IsLegible) (pre : Text) :
    ((itemsPlaces items).find? (reached hostName rank) = none ∧
        searchRank (pre ++ itemsText items) ('[' :: hostName) (Nat.toDigits 10 rank.toNat)
          pre.length = .ok none) ∨
      ∃ s pre' rest, (itemsPlaces items).find? (reached hostName rank) = some (s, rest) ∧
        s.IsLegible ∧ pre ++ itemsText items = pre' ++ s.text ++ rest ∧
        searchRank (pre ++ itemsText items) ('[' :: hostName) (Nat.toDigits 10 rank.toNat)
          pre.length = .ok (some pre'.length) := by
  induction hn : (itemsText items).length using Nat.strong_induction_on
    generalizing items pre with
  | _ n ih =>
      have hskip : ∀ p : Graph × Text, ¬hostName <+: p.1.body ++ p.2 →
          reached hostName rank p = false := by
        intro p hp
        rw [Bool.eq_false_iff, ne_eq, reached_iff]
        exact fun hreached => hp hreached.1
      rcases findText_items (k := hostName) (fun p hp => (hlegible p hp).root) pre with
        ⟨hno, hnone⟩ | ⟨before, g, items', pre', hsplit, hno, hhere, htext, hsome⟩
      · refine .inl ⟨?_, ?_⟩
        · rw [List.find?_eq_none]
          intro p hp
          rw [hskip p (hno p hp)]
          exact Bool.false_ne_true
        · rw [searchRank_eq, hnone]
      · rw [itemsPlaces_graph] at hsplit
        have hmem : ∀ p ∈ (g, itemsText items') :: itemsPlaces (enter g items'),
            p ∈ itemsPlaces items := by
          intro p hp
          rw [hsplit]
          exact List.mem_append_right _ hp
        have hg := hlegible _ (hmem _ List.mem_cons_self)
        have htext' : pre ++ itemsText items = pre' ++ g.text ++ itemsText items' := by
          rw [htext, List.append_assoc]
          rfl
        have hat := searchRank_at hg.root (Nat.toDigits 10 rank.toNat) htext' hsome
        have hfind : (itemsPlaces items).find? (reached hostName rank) =
            ((g, itemsText items') :: itemsPlaces (enter g items')).find? (reached hostName rank) := by
          rw [hsplit, find?_after fun p hp => hskip p (hno p hp)]
        rw [hfind, hat]
        by_cases hrank : g.rank = rank
        · refine .inr ⟨g, pre', itemsText items', List.find?_cons_of_pos ?_, hg, htext', ?_⟩
          · exact reached_iff.mpr ⟨hhere, hrank⟩
          · rw [if_pos (rankText_inj.mpr hrank)]
        · have hnot : ¬reached hostName rank (g, itemsText items') = true := fun hreached =>
            hrank (reached_iff.mp hreached).2
          have henter : pre' ++ itemsText (.graph g :: items') =
              (pre' ++ '[' :: g.label) ++ itemsText (enter g items') := by
            rw [itemsText_graph, List.append_assoc]
          have hlen : (itemsText (enter g items')).length < n := by
            have hle := findText_le hsome
            have htotal := congrArg List.length (htext.trans henter)
            simp only [List.length_append, List.length_cons] at htotal
            omega
          have hnext := ih _ hlen (fun p hp => hlegible p (hmem p (List.mem_cons_of_mem _ hp)))
            (pre' ++ '[' :: g.label) rfl
          have hlabel := findText_label hg.root hostName pre' items'
          rw [if_neg (mt rankText_inj.mp hrank), List.find?_cons_of_neg hnot]
          rw [← henter, ← htext] at hnext
          rw [← htext] at hlabel
          rw [searchRank_congr hlabel]
          exact hnext

lemma itemsText_single (g : Graph) : itemsText [.graph g] = g.text := List.append_nil _

lemma itemsPlaces_single (g : Graph) : itemsPlaces [.graph g] = g.places [] := List.append_nil _

lemma mem_subgraphs_of_place {g : Graph} {rest : Text} {p : Graph × Text} (hp : p ∈ g.places rest) :
    p.1 ∈ g.subgraphs := by
  rw [← g.map_fst_places rest]
  exact List.mem_map_of_mem hp

/-- Which subtree is found, whatever name is given. -/
theorem getMySubTree_places {g : Graph} (h : g.IsLegible) (hostName : Text) (port : Port)
    (rank : Rank) : getMySubTree g.text hostName port rank =
      .ok (((g.places []).find? (reached hostName rank)).map fun p => p.1.text) := by
  have hlegible : ∀ p ∈ itemsPlaces [.graph g], p.1.IsLegible := by
    intro p hp
    rw [itemsPlaces_single] at hp
    exact h.subgraph (mem_subgraphs_of_place hp)
  have hsearch := searchRank_items hostName rank hlegible []
  rw [itemsText_single, itemsPlaces_single, List.nil_append] at hsearch
  unfold getMySubTree
  rcases hsearch with ⟨hnone, hsearch⟩ | ⟨s, pre, rest, hsome, hs, htext, hsearch⟩
  · change searchRank _ _ _ 0 = _ at hsearch
    rw [hsearch, hnone]
    rfl
  · change searchRank _ _ _ 0 = _ at hsearch
    rw [hsearch, hsome, ok_bind]
    dsimp only
    rw [htext, Graph.subTreeAt_text hs]
    rfl

/-- A search that only looks at the nodes. -/
lemma find?_places {P : Graph × Text → Bool} {Q : Graph → Bool} (g : Graph)
    (h : ∀ p ∈ g.places [], P p = Q p.1) :
    ((g.places []).find? P).map Prod.fst = g.subgraphs.find? Q := by
  rw [← g.map_fst_places [], List.find?_map]
  congr 1
  exact List.find?_congr h

theorem getMySubTree_text {g : Graph} (h : g.IsLegible) {hostName : Text} (hhost : ':' ∉ hostName)
    (port : Port) (rank : Rank) : getMySubTree g.text hostName port rank =
      .ok ((g.subgraphs.find? (Graph.answers hostName rank)).map Graph.text) := by
  have hsame : ∀ p ∈ g.places [], reached hostName rank p = p.1.answers hostName rank := by
    intro p _
    rw [Bool.eq_iff_iff, reached_iff, body_eq, prefix_host_iff hhost, Graph.answers,
      Bool.and_eq_true, List.isPrefixOf_iff_prefix, decide_eq_true_iff]
  rw [getMySubTree_places h, ← find?_places g hsame, Option.map_map]
  rfl

theorem lightweight_getMySubTree {g : Graph} (h : g.IsLegible) {hostName : Text}
    (hhost : ':' ∉ hostName) {port : Port} {rank : Rank}
    (hfits : (Lightweight.nodeKey hostName port rank).length < 256) :
    Lightweight.getMySubTree g.text hostName port rank =
      .ok ((g.subgraphs.find? (Graph.standsAt hostName port rank)).map Graph.text) := by
  have hkey : Lightweight.nodeKey hostName port rank = '[' :: (hostName ++ ':' ::
      (paddedPort port ++ ':' :: (Nat.toDigits 10 rank.toNat ++ [':']))) := by
    simp [Lightweight.nodeKey, nodeText]
  have hstands : ∀ p ∈ g.places [], hostName ++ ':' ::
      (paddedPort port ++ ':' :: (Nat.toDigits 10 rank.toNat ++ [':'])) <+: p.1.body ++ p.2 ↔
        p.1.standsAt hostName port rank = true := by
    intro p hp
    rw [key_prefix_iff (h p.1 (mem_subgraphs_of_place hp)) hhost, Graph.standsAt, decide_eq_true_iff]
  have hlegible : ∀ p ∈ itemsPlaces [.graph g], Legible p.1.hostName := by
    intro p hp
    rw [itemsPlaces_single] at hp
    exact h p.1 (mem_subgraphs_of_place hp)
  have hsearch := findText_items (k := hostName ++ ':' ::
      (paddedPort port ++ ':' :: (Nat.toDigits 10 rank.toNat ++ [':']))) hlegible []
  rw [itemsText_single, itemsPlaces_single, List.nil_append, ← hkey] at hsearch
  rw [← find?_places g (P := fun p => p.1.standsAt hostName port rank) fun _ _ => rfl]
  unfold Lightweight.getMySubTree
  dsimp only
  rw [if_neg (by omega)]
  rcases hsearch with ⟨hno, hnone⟩ | ⟨before, s, items, pre, hsplit, hno, hhere, htext, hsome⟩
  · change findText _ _ 0 = _ at hnone
    rw [hnone, List.find?_eq_none.mpr fun p hp => mt (hstands p hp).mpr (hno p hp)]
    rfl
  · change findText _ _ 0 = _ at hsome
    rw [itemsPlaces_graph] at hsplit
    have hmem : ∀ p ∈ before ++ (s, itemsText items) :: itemsPlaces (enter s items),
        p ∈ g.places [] := fun p hp => hsplit ▸ hp
    have hs := hmem (s, itemsText items) (List.mem_append_right _ List.mem_cons_self)
    have htext' : g.text = pre ++ s.text ++ itemsText items := by
      rw [htext, List.append_assoc]
      rfl
    have hbefore : ∀ p ∈ before, p.1.standsAt hostName port rank = false := fun p hp =>
      Bool.eq_false_iff.mpr (mt (hstands p (hmem p (List.mem_append_left _ hp))).mpr (hno p hp))
    have hfound : (g.places []).find? (fun p => p.1.standsAt hostName port rank) =
        some (s, itemsText items) := by
      rw [hsplit, find?_after hbefore]
      exact List.find?_cons_of_pos ((hstands _ hs).mp hhere)
    rw [hsome, hfound]
    dsimp only
    rw [htext', Graph.subTreeAt_text (h.subgraph (mem_subgraphs_of_place hs))]
    rfl

/-- Both readers see the same root and the same children. -/
structure ReadsAlike (text : Text) : Prop where
  hostName : Lightweight.getRootHostName text = getRootHostName text
  port : Lightweight.getRootPort text = getRootPort text
  rank : Lightweight.getRootRank text = getRootRank text
  isBackEnd : Lightweight.isRootBackEnd text = isRootBackEnd text
  children : Lightweight.getChildren text = getChildren text

lemma readsAlike {g : Graph} (h : g.IsLegible) (hnamed : g.hostName ≠ [])
    (hrank : g.rank.toNat < 2 ^ 16) : ReadsAlike g.text := by
  constructor
  · rw [lightweight_getRootHostName h.root, Graph.getRootHostName_text h.root.noColon]
  · rw [lightweight_getRootPort h.root, Graph.getRootPort_text h.root.noColon hnamed]
  · rw [lightweight_getRootRank h.root hrank, Graph.getRootRank_text h.root.noColon]
  · rw [lightweight_isRootBackEnd h.root, Graph.isRootBackEnd_text h.root.noColon]
  · rw [lightweight_getChildren h, Graph.getChildren_text h]

lemma answers_of_standsAt {hostName : Text} {port : Port} {rank : Rank} {g : Graph}
    (h : g.standsAt hostName port rank = true) : g.answers hostName rank = true := by
  obtain ⟨rfl, -, rfl⟩ := of_decide_eq_true h
  rw [Graph.answers, Bool.and_eq_true, List.isPrefixOf_iff_prefix, decide_eq_true_iff]
  exact ⟨List.prefix_rfl, rfl⟩

/-- The readers agree on every node. A subtree is found by the rank and the beginning of the
host name by the one, and by the whole place and the rank by the other, so they find the same
where these come to the same. -/
theorem readers_agree {g : Graph} (h : g.IsLegible)
    (hnodes : ∀ s ∈ g.subgraphs, s.hostName ≠ [] ∧ s.rank.toNat < 2 ^ 16) :
    (∀ s ∈ g.subgraphs, ReadsAlike s.text) ∧
      ∀ hostName port rank, Legible hostName →
        (Lightweight.nodeKey hostName port rank).length < 256 →
        getMySubTree g.text hostName port rank =
            .ok ((g.subgraphs.find? (Graph.answers hostName rank)).map Graph.text) ∧
          Lightweight.getMySubTree g.text hostName port rank =
            .ok ((g.subgraphs.find? (Graph.standsAt hostName port rank)).map Graph.text) ∧
          ((∀ s ∈ g.subgraphs, s.answers hostName rank = true →
              s.standsAt hostName port rank = true) →
            Lightweight.getMySubTree g.text hostName port rank =
              getMySubTree g.text hostName port rank) := by
  refine ⟨fun s hs => readsAlike (h.subgraph hs) (hnodes s hs).1 (hnodes s hs).2,
    fun hostName port rank hhost hfits => ?_⟩
  have hmember := getMySubTree_text h hhost.noColon port rank
  have hlightweight := lightweight_getMySubTree h hhost.noColon hfits
  refine ⟨hmember, hlightweight, fun hsame => ?_⟩
  rw [hmember, hlightweight]
  congr 2
  apply List.find?_congr
  intro s hs
  rw [Bool.eq_iff_iff]
  exact ⟨answers_of_standsAt, hsame s hs⟩

/-- A root with one back-end. -/
def sampleGraph : Graph := ⟨['a'], 1, 0, false, [⟨['b'], 2, 1, true, []⟩]⟩

lemma subgraphs_sampleGraph :
    sampleGraph.subgraphs = [sampleGraph, ⟨['b'], 2, 1, true, []⟩] := by
  simp [Graph.subgraphs_eq, sampleGraph]

lemma sampleGraph_isLegible : sampleGraph.IsLegible := by
  intro s hs
  rw [subgraphs_sampleGraph] at hs
  rcases List.mem_cons.mp hs with rfl | hs
  · exact ⟨by decide, by decide, by decide⟩
  · cases List.mem_singleton.mp hs
    exact ⟨by decide, by decide, by decide⟩

/-- Both find the back-end. -/
theorem readers_agree_sample :
    Lightweight.getMySubTree sampleGraph.text ['b'] 2 1 =
        getMySubTree sampleGraph.text ['b'] 2 1 ∧
      (∀ s ∈ sampleGraph.subgraphs, ReadsAlike s.text) := by
  have hnodes : ∀ s ∈ sampleGraph.subgraphs, s.hostName ≠ [] ∧ s.rank.toNat < 2 ^ 16 := by
    rw [subgraphs_sampleGraph]
    intro s hs
    rcases List.mem_cons.mp hs with rfl | hs
    · exact ⟨by decide, by decide⟩
    · cases List.mem_singleton.mp hs
      exact ⟨by decide, by decide⟩
  obtain ⟨hreads, hsearch⟩ := readers_agree sampleGraph_isLegible hnodes
  obtain ⟨-, -, hsame⟩ :=
    hsearch ['b'] 2 1 ⟨by decide, by decide, by decide⟩ (by decide)
  refine ⟨hsame fun s hs hanswers => ?_, hreads⟩
  rw [subgraphs_sampleGraph] at hs
  rcases List.mem_cons.mp hs with rfl | hs
  · cases hanswers
  · cases List.mem_singleton.mp hs
    decide

/-- The members disregard the port. -/
theorem port_disregarded :
    getMySubTree sampleGraph.text ['b'] 3 1 = .ok (some (Graph.text ⟨['b'], 2, 1, true, []⟩)) ∧
      Lightweight.getMySubTree sampleGraph.text ['b'] 3 1 = .ok none := by
  rw [getMySubTree_text sampleGraph_isLegible (by decide),
    lightweight_getMySubTree sampleGraph_isLegible (by decide) (by decide), subgraphs_sampleGraph]
  exact ⟨rfl, rfl⟩

end MRNet.SerialGraph
