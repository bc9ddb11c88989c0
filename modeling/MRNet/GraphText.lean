import MRNet.GraphLayout

/-!
# Graphs and their texts

The tree of nodes that a serialized graph stands for, and what the members that read the
text return of it: the parts of the root and the texts of its children.
-/
namespace MRNet.SerialGraph
open Codec
open WaitForAll (Rank)

/-- A graph before it is written. -/
structure Graph where
  hostName : Text
  port : Port
  rank : Rank
  isBackEnd : Bool
  children : List Graph

/-- A host name that can be told from what is around it. -/
structure Legible (hostName : Text) : Prop where
  noColon : ':' ∉ hostName
  noOpening : '[' ∉ hostName
  noClosing : ']' ∉ hostName

namespace Graph

/-- The text of the node itself, up to its children. -/
def label (g : Graph) : Text :=
  g.hostName ++ [':'] ++ paddedPort g.port ++ [':'] ++ Nat.toDigits 10 g.rank.toNat ++
    [':', if g.isBackEnd then '0' else '1']

def text : Graph → Text
  | ⟨hostName, port, rank, isBackEnd, children⟩ =>
      ['['] ++ label ⟨hostName, port, rank, isBackEnd, children⟩ ++
        (children.map text).flatten ++ [']']

/-- The graph and all those below it, each one followed by those below it. -/
def subgraphs : Graph → List Graph
  | ⟨hostName, port, rank, isBackEnd, children⟩ =>
      ⟨hostName, port, rank, isBackEnd, children⟩ :: (children.map subgraphs).flatten

/-- Host names are legible. -/
def IsLegible (g : Graph) : Prop := ∀ s ∈ g.subgraphs, Legible s.hostName

/-- The induction over the children of a node. -/
@[elab_as_elim, induction_eliminator]
theorem induction {P : Graph → Prop} (node : ∀ g : Graph, (∀ c ∈ g.children, P c) → P g)
    (g : Graph) : P g := by
  have hall : ∀ g : Graph, P g := fun g => @Graph.rec P (fun cs => ∀ c ∈ cs, P c)
    (fun hostName port rank isBackEnd children ih =>
      node ⟨hostName, port, rank, isBackEnd, children⟩ ih)
    (fun c hc => by cases hc)
    (fun g gs hg hgs c hc => by
      rcases List.mem_cons.mp hc with rfl | hmem
      · exact hg
      · exact hgs c hmem) g
  exact hall g

/-- What follows the opening bracket. -/
def body (g : Graph) : Text := g.label ++ (g.children.map text).flatten ++ [']']

lemma text_eq (g : Graph) : g.text = '[' :: g.body := by
  cases g
  rw [text, body, List.append_assoc, List.append_assoc, List.append_assoc]
  rfl

lemma subgraphs_eq (g : Graph) : g.subgraphs = g :: (g.children.map subgraphs).flatten := by
  cases g
  rw [subgraphs]

lemma IsLegible.root {g : Graph} (h : g.IsLegible) : Legible g.hostName := by
  apply h g
  rw [subgraphs_eq]
  exact List.mem_cons_self

lemma subgraphs_child {g c s : Graph} (hc : c ∈ g.children) (hs : s ∈ c.subgraphs) :
    s ∈ g.subgraphs := by
  rw [subgraphs_eq]
  exact List.mem_cons_of_mem _ (List.mem_flatten.mpr ⟨_, List.mem_map_of_mem hc, hs⟩)

lemma subgraphs_trans {g s s' : Graph} (hs : s ∈ g.subgraphs) (hs' : s' ∈ s.subgraphs) :
    s' ∈ g.subgraphs := by
  induction g with
  | node g ih =>
      rw [subgraphs_eq] at hs
      rcases List.mem_cons.mp hs with rfl | hmem
      · exact hs'
      · obtain ⟨part, hpart, hs⟩ := List.mem_flatten.mp hmem
        obtain ⟨c, hc, rfl⟩ := List.mem_map.mp hpart
        exact subgraphs_child hc (ih c hc hs)

lemma IsLegible.subgraph {g s : Graph} (h : g.IsLegible) (hs : s ∈ g.subgraphs) : s.IsLegible :=
  fun s' hs' => h s' (subgraphs_trans hs hs')

lemma IsLegible.child {g c : Graph} (h : g.IsLegible) (hc : c ∈ g.children) : c.IsLegible :=
  fun s hs => h s (subgraphs_child hc hs)

end Graph

lemma digits_eq {ds : Text} (h : ∀ c ∈ ds, c.isDigit = true) (n : ℕ) :
    digits ds n = Nat.ofDigitChars 10 ds n := by
  induction ds generalizing n with
  | nil => rfl
  | cons c ds ih =>
      rw [digits, if_pos (h c List.mem_cons_self), Nat.ofDigitChars_cons]
      exact ih (fun d hd => h d (List.mem_cons_of_mem _ hd)) _

lemma not_digit {c : Char} (hc : c.isDigit = false) {ds : Text} (h : ∀ d ∈ ds, d.isDigit = true) :
    c ∉ ds := by
  intro hmem
  rw [h c hmem] at hc
  cases hc

lemma isSpace_of_isDigit {c : Char} (h : c.isDigit = true) : isSpace c = false := by
  by_contra hspace
  rw [Bool.not_eq_false] at hspace
  simp only [isSpace, Bool.or_eq_true, beq_iff_eq] at hspace
  rcases hspace with ((((rfl | rfl) | rfl) | rfl) | rfl) | rfl <;> cases h

/-- A number in decimal digits is read back. -/
lemma atoi_digits {ds : Text} (hne : ds ≠ []) (h : ∀ c ∈ ds, c.isDigit = true)
    (hlt : Nat.ofDigitChars 10 ds 0 < 2 ^ 63) :
    atoi ds = BitVec.ofNat 32 (Nat.ofDigitChars 10 ds 0) := by
  have hmin : min ((Nat.ofDigitChars 10 ds 0 : ℕ) : ℤ) (2 ^ 63 - 1) = Nat.ofDigitChars 10 ds 0 := by
    omega
  have hskip : ds.dropWhile isSpace = ds := by
    cases ds with
    | nil => rfl
    | cons c ds =>
        apply List.dropWhile_cons_of_neg
        rw [isSpace_of_isDigit (h c List.mem_cons_self)]
        exact Bool.false_ne_true
  unfold atoi
  rw [hskip]
  split
  · exact absurd List.mem_cons_self (not_digit rfl h)
  · exact absurd List.mem_cons_self (not_digit rfl h)
  · rw [digits_eq h, hmin, BitVec.ofInt_natCast]

lemma isDigit_rank (rank : Rank) : ∀ c ∈ Nat.toDigits 10 rank.toNat, c.isDigit = true :=
  fun _ hc => Nat.isDigit_of_mem_toDigits (by decide) (by decide) hc

lemma isDigit_paddedPort (port : Port) : ∀ c ∈ paddedPort port, c.isDigit = true := by
  intro c hc
  rcases List.mem_append.mp hc with hzero | hnumber
  · rw [List.eq_of_mem_replicate hzero]
    rfl
  · exact Nat.isDigit_of_mem_toDigits (by decide) (by decide) hnumber

lemma atoi_rank (rank : Rank) : atoi (Nat.toDigits 10 rank.toNat) = rank := by
  have hlt := rank.isLt
  rw [atoi_digits Nat.toDigits_ne_nil (isDigit_rank rank)] <;> rw [Nat.ofDigitChars_ten_toDigits]
  · rw [BitVec.ofNat_toNat, BitVec.setWidth_eq]
  · omega

lemma atoi_paddedPort (port : Port) : atoi (paddedPort port) = BitVec.ofNat 32 port.toNat := by
  have hlt := port.isLt
  have hvalue : Nat.ofDigitChars 10 (paddedPort port) 0 = port.toNat := by
    rw [paddedPort, Nat.ofDigitChars_append, Nat.ofDigitChars_replicate_zero, Nat.mul_zero,
      Nat.ofDigitChars_ten_toDigits]
  have hne : paddedPort port ≠ [] := by
    intro hnil
    exact Nat.toDigits_ne_nil (List.append_eq_nil_iff.mp hnil).2
  rw [atoi_digits hne (isDigit_paddedPort port)] <;> rw [hvalue]
  omega

lemma find_shift (pre text : Text) (c : Char) (pos : ℕ) :
    find (pre ++ text) c (pre.length + pos) = (find text c pos).map (pre.length + ·) := by
  rw [find, find, List.drop_append, Nat.add_sub_cancel_left, List.drop_eq_nil_of_le (by omega),
    List.nil_append, Option.map_map]
  congr 1
  ext n
  simp only [Function.comp_apply]
  omega

lemma find_append {text : Text} {c : Char} {pos i : ℕ} (h : find text c pos = some i)
    (rest : Text) : find (text ++ rest) c pos = some i := by
  have hlt := find_lt h
  obtain ⟨j, hj, rfl⟩ := Option.map_eq_some_iff.mp h
  rw [find, List.drop_append_of_le_length (by omega), List.findIdx?_append, hj]
  rfl

lemma between_shift (pre text rest : Text) {first last : ℕ} (hfirst : first ≤ last)
    (hlast : last ≤ text.length) :
    between (pre ++ text ++ rest) (pre.length + first) (some (pre.length + last)) =
      between text first (some last) := by
  have hlen : pre.length + last - (pre.length + first) = last - first := by omega
  rw [between, between, hlen, substr, substr, List.append_assoc, List.drop_append,
    Nat.add_sub_cancel_left, List.drop_eq_nil_of_le (by omega), List.nil_append,
    List.drop_append_of_le_length (by omega), List.take_append_of_le_length]
  rw [List.length_drop]
  omega

namespace Graph
variable (g : Graph)

/-- What follows the third colon. -/
def tail : Text := (if g.isBackEnd then '0' else '1') :: (g.children.map text).flatten ++ [']']

/-- The text before the first colon, the second and the third. -/
def toHost : Text := ['['] ++ g.hostName
def toPort : Text := g.toHost ++ [':'] ++ paddedPort g.port
def toRank : Text := g.toPort ++ [':'] ++ Nat.toDigits 10 g.rank.toNat

lemma text_rank : g.text = g.toRank ++ ':' :: g.tail := by
  rw [text_eq, body, label, tail, toRank, toPort, toHost]
  simp

lemma text_port :
    g.text = g.toPort ++ ':' :: (Nat.toDigits 10 g.rank.toNat ++ ':' :: g.tail) := by
  rw [text_rank, toRank]
  simp

lemma text_host : g.text = g.toHost ++ ':' ::
    (paddedPort g.port ++ ':' :: (Nat.toDigits 10 g.rank.toNat ++ ':' :: g.tail)) := by
  rw [text_port, toPort]
  simp

lemma find_port : find g.text ':' (g.toHost.length + 1) = some g.toPort.length := by
  have hdrop : g.toPort.drop (g.toHost.length + 1) = paddedPort g.port := by
    rw [toPort]
    exact List.drop_left' (by simp)
  rw [text_port]
  apply find_at
  · simp [toPort]
  · rw [hdrop]
    exact not_digit rfl (isDigit_paddedPort g.port)

lemma find_rank : find g.text ':' (g.toPort.length + 1) = some g.toRank.length := by
  have hdrop : g.toRank.drop (g.toPort.length + 1) = Nat.toDigits 10 g.rank.toNat := by
    rw [toRank]
    exact List.drop_left' (by simp)
  rw [text_rank]
  apply find_at
  · simp [toRank]
  · rw [hdrop]
    exact not_digit rfl (isDigit_rank g.rank)

lemma between_rank : between g.text (g.toPort.length + 1) (some g.toRank.length) =
    Nat.toDigits 10 g.rank.toNat := by
  rw [text_rank, toRank]
  exact between_at _ _ _ (by simp) (by simp)

/-- The character after the third colon. -/
lemma getElem?_flag :
    g.text[g.toRank.length + 1]? = some (if g.isBackEnd then '0' else '1') := by
  rw [text_rank, List.getElem?_append_right (by omega), Nat.add_sub_cancel_left]
  rfl

/-- Without a name, the colon that is sought for the port is the one before the rank. -/
lemma getRootPort_nameless (hnil : g.hostName = []) : getRootPort g.text =
    .ok (if g.rank.toInt ≤ 65535 ∧ 0 ≤ g.rank.toInt then BitVec.ofInt 16 g.rank.toInt
      else BitVec.allOnes 16) := by
  have hlen : g.toHost.length = 1 := by rw [toHost, hnil]; rfl
  have hsecond : colon g.text 2 = .ok g.toPort.length := by
    rw [colon, show 2 = g.toHost.length + 1 by omega, find_port]
    rfl
  rw [getRootPort, hsecond, ok_bind, find_rank, between_rank, atoi_rank]
  rfl

variable {g} (h : ':' ∉ g.hostName)
include h

/-- The first colon, from any position before it. -/
lemma find_host {pos : ℕ} (hpos : pos ≤ g.toHost.length) :
    find g.text ':' pos = some g.toHost.length := by
  have hnot : ':' ∉ g.toHost := by
    simpa [toHost] using h
  rw [text_host]
  exact find_at _ _ hpos fun hmem => hnot (List.mem_of_mem_drop hmem)

lemma colon_host {pos : ℕ} (hpos : pos ≤ g.toHost.length) :
    colon g.text pos = .ok g.toHost.length := by
  rw [colon, find_host h hpos]
  rfl

theorem getRootHostName_text : getRootHostName g.text = .ok g.hostName := by
  have hlen : g.toHost.length = g.hostName.length + 1 := by
    simp [toHost]
  rw [getRootHostName, colon_host h (by omega), ok_bind, hlen, text_host, toHost, substr]
  simp [pure, Except.pure]

theorem getRootPort_text (hne : g.hostName ≠ []) : getRootPort g.text = .ok g.port := by
  have hpos := List.length_pos_iff.mpr hne
  have hlen : 2 ≤ g.toHost.length := by
    simp [toHost]
    omega
  have hbetween : between g.text (g.toHost.length + 1) (some g.toPort.length) =
      paddedPort g.port := by
    rw [text_port, toPort]
    exact between_at _ _ _ (by simp) (by simp)
  have hlt := g.port.isLt
  have hnumber : (BitVec.ofNat 32 g.port.toNat).toInt = g.port.toNat := by
    rw [BitVec.toInt_ofNat', Int.bmod_def]
    omega
  rw [getRootPort, colon_host h hlen, ok_bind, find_port, hbetween, atoi_paddedPort, hnumber]
  dsimp only
  rw [if_pos (by omega), BitVec.ofInt_natCast, BitVec.ofNat_toNat, BitVec.setWidth_eq]
  rfl

theorem getRootRank_text : getRootRank g.text = .ok g.rank := by
  have hsecond : colon g.text (g.toHost.length + 1) = .ok g.toPort.length := by
    rw [colon, find_port]
    rfl
  rw [getRootRank, colon_host h (Nat.zero_le _), ok_bind, hsecond, ok_bind, find_rank,
    between_rank, atoi_rank]
  rfl

theorem isRootBackEnd_text : isRootBackEnd g.text = .ok g.isBackEnd := by
  rw [isRootBackEnd, find_host h (Nat.zero_le _), Option.bind_some, find_port, Option.bind_some,
    find_rank]
  dsimp only
  rw [getElem?_flag]
  cases g.isBackEnd <;> rfl

end Graph

namespace Graph

/-- Only the name of a node can bring a bracket into its label. -/
lemma bracket_not_mem_label {g : Graph} {c : Char} (hc : c = '[' ∨ c = ']')
    (h : c ∉ g.hostName) : c ∉ g.label := by
  have hdigit : c.isDigit = false := by rcases hc with rfl | rfl <;> rfl
  have hport := not_digit hdigit (isDigit_paddedPort g.port)
  have hrank := not_digit hdigit (isDigit_rank g.rank)
  have hcolon : c ≠ ':' := by rcases hc with rfl | rfl <;> decide
  have hflag : c ≠ if g.isBackEnd then '0' else '1' := by
    rcases hc with rfl | rfl <;> split_ifs <;> decide
  simp only [label, List.mem_append, List.mem_cons, List.not_mem_nil, or_false, not_or]
  exact ⟨⟨⟨⟨⟨h, hcolon⟩, hport⟩, hcolon⟩, hrank⟩, hcolon, hflag⟩

lemma not_mem_label {g : Graph} (h : Legible g.hostName) : '[' ∉ g.label ∧ ']' ∉ g.label :=
  ⟨bracket_not_mem_label (Or.inl rfl) h.noOpening, bracket_not_mem_label (Or.inr rfl) h.noClosing⟩

/-- The labels and the brackets of a graph. -/
def layout : Graph → Bracketed
  | ⟨hostName, port, rank, isBackEnd, children⟩ =>
      ⟨label ⟨hostName, port, rank, isBackEnd, children⟩, children.map layout⟩

lemma layout_eq (g : Graph) : g.layout = ⟨g.label, g.children.map layout⟩ := by
  cases g
  rw [layout]

lemma text_layout (g : Graph) : g.layout.text = g.text := by
  induction g with
  | node g ih =>
      have hkids : (g.children.map layout).map Bracketed.text = g.children.map text := by
        rw [List.map_map]
        exact List.map_congr_left ih
      rw [layout_eq, Bracketed.text_eq, text_eq, Bracketed.body, body, hkids]

lemma map_layout (gs : List Graph) : (gs.map layout).map Bracketed.text = gs.map text := by
  rw [List.map_map]
  exact List.map_congr_left fun g _ => g.text_layout

lemma body_layout (g : Graph) : g.layout.body = g.body := by
  have heq := g.text_layout
  rw [Bracketed.text_eq, text_eq] at heq
  exact (List.cons.inj heq).2

lemma IsLegible.plain {g : Graph} (h : g.IsLegible) : g.layout.Plain := by
  induction g with
  | node g ih =>
      intro s hs
      rw [layout_eq, Bracketed.subtrees_eq] at hs
      rcases List.mem_cons.mp hs with rfl | hs
      · exact not_mem_label h.root
      · obtain ⟨part, hpart, hs⟩ := List.mem_flatten.mp hs
        obtain ⟨t, ht, rfl⟩ := List.mem_map.mp hpart
        obtain ⟨c, hc, rfl⟩ := List.mem_map.mp ht
        exact ih c hc (h.child hc) s hs

lemma closing_at {g : Graph} (h : g.IsLegible) (before rest : Text) :
    closing ((before ++ g.text ++ rest).drop (before.length + 1)) 1 0 = some g.body.length := by
  rw [← text_layout, ← body_layout]
  exact Bracketed.closing_at h.plain before rest

lemma substr_at (g : Graph) (before rest : Text) :
    substr (before ++ g.text ++ rest) before.length (g.body.length + 1) = g.text := by
  rw [← text_layout, ← body_layout]
  exact g.layout.substr_at before rest

lemma subTreeAt_text {g : Graph} (h : g.IsLegible) (before rest : Text) :
    subTreeAt (before ++ g.text ++ rest) before.length = .ok g.text := by
  rw [← text_layout]
  exact Bracketed.subTreeAt_text h.plain before rest

/-- The name of the node itself may hold a closing bracket. -/
theorem getChildren_root {g : Graph} (hroot : '[' ∉ g.hostName)
    (h : ∀ c ∈ g.children, c.IsLegible) : getChildren g.text = .ok (g.children.map text) := by
  have hchildren := Bracketed.getChildren_root (t := g.layout)
    (by rw [layout_eq]; exact bracket_not_mem_label (Or.inl rfl) hroot)
    (fun c hc => by
      rw [layout_eq] at hc
      obtain ⟨d, hd, rfl⟩ := List.mem_map.mp hc
      exact (h d hd).plain)
  rw [text_layout, layout_eq, map_layout] at hchildren
  exact hchildren

theorem getChildren_text {g : Graph} (h : g.IsLegible) :
    getChildren g.text = .ok (g.children.map text) :=
  getChildren_root h.root.noOpening fun _ hc => h.child hc

/-- The port that is read of a node: without a name it is taken from the rank. -/
def readPort (g : Graph) : Port :=
  if g.hostName = [] then
    if g.rank.toInt ≤ 65535 ∧ 0 ≤ g.rank.toInt then BitVec.ofInt 16 g.rank.toInt
    else BitVec.allOnes 16
  else g.port

lemma getRootPort_read {g : Graph} (h : ':' ∉ g.hostName) :
    getRootPort g.text = .ok g.readPort := by
  unfold readPort
  split
  · next hnil => exact getRootPort_nameless g hnil
  · next hne => exact getRootPort_text h hne

/-- The graph as it is read. -/
def asRead : Graph → Graph
  | ⟨hostName, port, rank, isBackEnd, children⟩ =>
      ⟨hostName, readPort ⟨hostName, port, rank, isBackEnd, children⟩, rank, isBackEnd,
        children.map asRead⟩

lemma asRead_eq (g : Graph) :
    g.asRead = ⟨g.hostName, g.readPort, g.rank, g.isBackEnd, g.children.map asRead⟩ := by
  cases g
  rw [asRead]

lemma asRead_of_named {g : Graph} (h : ∀ s ∈ g.subgraphs, s.hostName ≠ []) : g.asRead = g := by
  induction g with
  | node g ih =>
      have hroot : g.hostName ≠ [] := h g (by rw [subgraphs_eq]; exact List.mem_cons_self)
      have hkids : g.children.map asRead = g.children := by
        refine (List.map_congr_left fun c hc => ?_).trans (List.map_id _)
        exact ih c hc fun s hs => h s (subgraphs_child hc hs)
      rw [asRead_eq, hkids, readPort, if_neg hroot]
      cases g
      rfl

end Graph

end MRNet.SerialGraph
