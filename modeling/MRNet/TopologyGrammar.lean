import MRNet.GraphText
import MRNet.ParsedGraph

/-!
# The grammar of topology files

The parser shifts the tokens of a file onto its stack and runs the actions of the grammar
as it reduces. The rule for a configuration is right-recursive: the lines stay on the stack
up to the end of the file, and the stack of the generated parser is bounded.
-/
namespace MRNet.TopologyFile
open DepthFirst Relation
open SerialGraph (Text)
open WaitForAll (Rank)
open Std (TreeMap)

inductive Token
  | hostname (name : Text)
  | uint (value : Rank)
  | colon
  | semi
  | arrow
  | star
  deriving DecidableEq

/-- A symbol on the stack, with its value. The stack holds a state for each, and the initial
state. -/
inductive Symbol
  | hostname (name : Text)
  | uint (value : Rank)
  | colon
  | semi
  | arrow
  | host (node : Key)
  | hosts
  | line

abbrev Stack := List Symbol

/-- `parsed_graph` and the two lists of the parser. -/
structure Parser where
  parsedGraph : Option ParsedGraph
  hostlist : List Key
  potentialRoot : List Key

def yyMaxDepth : ℕ := 10000

/-- The stack grows as long as it has fewer states than it may have. -/
def push (x : Symbol) (stack : Stack) : Option Stack :=
  if stack.length + 2 < yyMaxDepth then some (x :: stack) else none

/-- The first host of a file makes a new graph. -/
def Parser.start (p : Parser) : ParsedGraph × Parser :=
  match p.parsedGraph with
  | some g => (g, p)
  | none => ({}, { p with hostlist := [], potentialRoot := [] })

/-- `host: HOSTNAME COLON MRN_UINT`. -/
def hostAction (networkName : Text → Text) (name : Text) (value : Rank) (p : Parser) :
    Key × Parser :=
  let (g, p) := p.start
  match g.findNode networkName name value with
  | some curNode => (curNode, { p with parsedGraph := some g })
  | none =>
      let node := Node.new networkName name value
      let curNode := key node.hostName node.localRank
      (curNode, { p with
        parsedGraph := some (g.addNode node)
        potentialRoot := p.potentialRoot ++ [curNode] })

/-- `hosts: hosts host` and `hosts: host`. -/
def hostsAction (node : Key) (p : Parser) : Parser := { p with hostlist := p.hostlist ++ [node] }

/-- One child of a line; it cannot be the root. -/
def childAction (parent curNode : Key) (p : Parser) : Parser :=
  { p with
    potentialRoot := p.potentialRoot.filter (· ≠ curNode)
    parsedGraph := p.parsedGraph.map fun g =>
      (g.modify parent (Node.addChild curNode)).modify curNode (Node.setParent parent) }

/-- `line: host ARROW hosts SEMI`. -/
def lineAction (parent : Key) (p : Parser) : Parser :=
  { p.hostlist.foldl (fun p curNode => childAction parent curNode p) p with hostlist := [] }

/-- `config: line`, the last line of the file. -/
def configAction (p : Parser) : Option Parser :=
  match p.potentialRoot with
  | [root] => some ⟨p.parsedGraph.map (·.setRoot root), [], []⟩
  | _ => none

/-- A host that has been reduced: the parent of a line, or one of its children. -/
def reduceHost (node : Key) (stack : Stack) (p : Parser) : Option (Stack × Parser) := do
  let full ← push (.host node) stack
  match stack with
  | .arrow :: _ => return (← push .hosts stack, hostsAction node p)
  | .hosts :: below => return (← push .hosts below, hostsAction node p)
  | _ => return (full, p)

/-- Whether a host may come next. -/
def expectsHost : Stack → Bool
  | [] | .line :: _ | .arrow :: _ | .hosts :: _ => true
  | _ => false

/-- A token is shifted, and what it completes is reduced. Every error aborts. -/
def shift (networkName : Text → Text) : Token → Stack → Parser → Option (Stack × Parser)
  | .hostname name, stack, p =>
      if expectsHost stack then return (← push (.hostname name) stack, p) else none
  | .colon, .hostname name :: stack, p => return (← push .colon (.hostname name :: stack), p)
  | .uint value, .colon :: .hostname name :: stack, p => do
      let _ ← push (.uint value) (.colon :: .hostname name :: stack)
      let (node, p) := hostAction networkName name value p
      reduceHost node stack p
  | .arrow, .host node :: stack, p => return (← push .arrow (.host node :: stack), p)
  | .semi, .host node :: stack, p => do
      let _ ← push .semi (.host node :: stack)
      return (← push .line stack, p)
  | .semi, .hosts :: .arrow :: .host node :: stack, p => do
      let _ ← push .semi (.hosts :: .arrow :: .host node :: stack)
      return (← push .line stack, lineAction node p)
  | _, _, _ => none

def yyparse (networkName : Text → Text) : List Token → Stack → Parser → Option Parser
  | token :: tokens, stack, p => do
      let (stack, p) ← shift networkName token stack p
      yyparse networkName tokens stack p
  | [], .line :: _, p => configAction p
  | [], _, _ => none

/-- A host as it is written, `host:n`. -/
abbrev Host := Text × Rank

/-- `host:n => children ;`, or `host:n ;` without children. -/
structure Line where
  parent : Host
  children : List Host

def hostTokens (h : Host) : List Token := [.hostname h.1, .colon, .uint h.2]

def Line.tokens (l : Line) : List Token :=
  match l.children with
  | [] => hostTokens l.parent ++ [.semi]
  | children => hostTokens l.parent ++ .arrow :: children.flatMap hostTokens ++ [.semi]

def Line.hosts (l : Line) : List Host := l.parent :: l.children

def Line.edges (l : Line) : List (Host × Host) := l.children.map (l.parent, ·)

/-- The most symbols that a line has on the stack. -/
def Line.symbols (l : Line) : ℕ :=
  match l.children with
  | [] => 3
  | [_] => 5
  | _ => 6

/-- The most symbols on the stack in the whole file. -/
def symbols : List Line → ℕ
  | [] => 0
  | l :: lines => max l.symbols (1 + symbols lines)

/-- The stack of the parser is deep enough for the lines. -/
def FitsStack (lines : List Line) : Prop := symbols lines + 1 < yyMaxDepth

variable {networkName : Text → Text}

/-- The hosts on the right of an arrow. -/
def childrenEffect (networkName : Text → Text) (children : List Host) (p : Parser) : Parser :=
  children.foldl (fun p h =>
    let (child, p) := hostAction networkName h.1 h.2 p
    hostsAction child p) p

/-- What a line does. -/
def Line.effect (networkName : Text → Text) (l : Line) (p : Parser) : Parser :=
  let (node, p) := hostAction networkName l.parent.1 l.parent.2 p
  match l.children with
  | [] => p
  | children => lineAction node (childrenEffect networkName children p)

variable {networkName : Text → Text} {stack : Stack} {p : Parser} {tokens : List Token}

lemma yyparse_cons (token : Token) :
    yyparse networkName (token :: tokens) stack p =
      (shift networkName token stack p).bind fun s => yyparse networkName tokens s.1 s.2 := rfl

lemma push_of_lt {x : Symbol} (h : stack.length + 2 < yyMaxDepth) :
    push x stack = some (x :: stack) := if_pos h

lemma push_of_not_lt {x : Symbol} (h : ¬stack.length + 2 < yyMaxDepth) : push x stack = none :=
  if_neg h

lemma shift_hostname (name : Text) (hexpects : expectsHost stack = true) :
    shift networkName (.hostname name) stack p =
      (push (.hostname name) stack).bind fun stack => some (stack, p) := by
  rw [shift, if_pos hexpects]
  rfl

lemma shift_colon (name : Text) : shift networkName .colon (.hostname name :: stack) p =
    (push .colon (.hostname name :: stack)).bind fun stack => some (stack, p) := rfl

lemma shift_uint (name : Text) (value : Rank) :
    shift networkName (.uint value) (.colon :: .hostname name :: stack) p =
      (push (.uint value) (.colon :: .hostname name :: stack)).bind fun _ =>
        reduceHost (hostAction networkName name value p).1 stack
          (hostAction networkName name value p).2 := rfl

lemma shift_arrow (node : Key) : shift networkName .arrow (.host node :: stack) p =
    (push .arrow (.host node :: stack)).bind fun stack => some (stack, p) := rfl

/-- A host takes three symbols until it is reduced. -/
lemma yyparse_host (h : Host) (hexpects : expectsHost stack = true) :
    yyparse networkName (hostTokens h ++ tokens) stack p =
      if stack.length + 4 < yyMaxDepth then
        (reduceHost (hostAction networkName h.1 h.2 p).1 stack
          (hostAction networkName h.1 h.2 p).2).bind
          fun s => yyparse networkName tokens s.1 s.2
      else none := by
  rw [hostTokens, List.cons_append, List.cons_append, List.cons_append, List.nil_append,
    yyparse_cons, shift_hostname _ hexpects]
  by_cases hname : stack.length + 2 < yyMaxDepth
  swap
  · rw [push_of_not_lt hname, if_neg (by omega)]
    rfl
  rw [push_of_lt hname, Option.bind_some, Option.bind_some, yyparse_cons, shift_colon]
  by_cases hcolon : (Symbol.hostname h.1 :: stack).length + 2 < yyMaxDepth
  swap
  · rw [push_of_not_lt hcolon, if_neg (by rw [List.length_cons] at hcolon; omega)]
    rfl
  rw [push_of_lt hcolon, Option.bind_some, Option.bind_some, yyparse_cons, shift_uint]
  by_cases huint : (Symbol.colon :: .hostname h.1 :: stack).length + 2 < yyMaxDepth
  swap
  · rw [push_of_not_lt huint, if_neg (by simp only [List.length_cons] at huint; omega)]
    rfl
  rw [push_of_lt huint, Option.bind_some,
    if_pos (by simp only [List.length_cons] at huint; omega)]

lemma reduceHost_parent {i : ℕ} (node : Key) (hfits : i + 2 < yyMaxDepth) :
    reduceHost node (List.replicate i .line) p =
      some (.host node :: List.replicate i .line, p) := by
  have hpush : push (.host node) (List.replicate i .line) =
      some (.host node :: List.replicate i .line) := push_of_lt (by rwa [List.length_replicate])
  cases i with
  | zero => rw [reduceHost, hpush]; rfl
  | succ i => rw [reduceHost, hpush]; rfl

lemma reduceHost_first (node : Key) (hfits : stack.length + 3 < yyMaxDepth) :
    reduceHost node (.arrow :: stack) p = some (.hosts :: .arrow :: stack, hostsAction node p) := by
  have hhost : push (.host node) (.arrow :: stack) = some (.host node :: .arrow :: stack) :=
    push_of_lt (by rw [List.length_cons]; omega)
  have hhosts : push .hosts (.arrow :: stack) = some (.hosts :: .arrow :: stack) :=
    push_of_lt (by rw [List.length_cons]; omega)
  simp only [reduceHost, hhost, hhosts, Option.bind_eq_bind, Option.bind_some, Option.pure_def]

lemma reduceHost_more (node : Key) (hfits : stack.length + 3 < yyMaxDepth) :
    reduceHost node (.hosts :: stack) p = some (.hosts :: stack, hostsAction node p) := by
  have hhost : push (.host node) (.hosts :: stack) = some (.host node :: .hosts :: stack) :=
    push_of_lt (by rw [List.length_cons]; omega)
  have hhosts : push .hosts stack = some (.hosts :: stack) := push_of_lt (by omega)
  simp only [reduceHost, hhost, hhosts, Option.bind_eq_bind, Option.bind_some, Option.pure_def]

/-- The hosts after the first one. -/
lemma yyparse_more (children : List Host) :
    yyparse networkName (children.flatMap hostTokens ++ tokens) (.hosts :: stack) p =
      if children = [] ∨ stack.length + 5 < yyMaxDepth then
        yyparse networkName tokens (.hosts :: stack) (childrenEffect networkName children p)
      else none := by
  induction children generalizing p with
  | nil => rw [if_pos (Or.inl rfl)]; rfl
  | cons h children ih =>
      rw [List.flatMap_cons, List.append_assoc, yyparse_host h rfl, List.length_cons,
        Nat.add_assoc, show 1 + 4 = 5 from rfl]
      by_cases hfits : stack.length + 5 < yyMaxDepth
      · rw [if_pos hfits, if_pos (Or.inr hfits), reduceHost_more _ (by omega), Option.bind_some, ih,
          if_pos (Or.inr hfits)]
        rfl
      · rw [if_neg hfits, if_neg (by simpa using hfits)]

lemma yyparse_semi {node : Key} (hfits : stack.length + 3 < yyMaxDepth) :
    yyparse networkName (.semi :: tokens) (.host node :: stack) p =
      yyparse networkName tokens (.line :: stack) p := by
  have hsemi : push .semi (.host node :: stack) = some (.semi :: .host node :: stack) :=
    push_of_lt (by rw [List.length_cons]; omega)
  have hline : push .line stack = some (.line :: stack) := push_of_lt (by omega)
  simp only [yyparse, shift, hsemi, hline, Option.bind_eq_bind, Option.bind_some, Option.pure_def]

lemma yyparse_arrow_semi {node : Key} (hfits : stack.length + 5 < yyMaxDepth) :
    yyparse networkName (.semi :: tokens) (.hosts :: .arrow :: .host node :: stack) p =
      yyparse networkName tokens (.line :: stack) (lineAction node p) := by
  have hsemi : push .semi (.hosts :: .arrow :: .host node :: stack) =
      some (.semi :: .hosts :: .arrow :: .host node :: stack) :=
    push_of_lt (by simp only [List.length_cons]; omega)
  have hline : push .line stack = some (.line :: stack) := push_of_lt (by omega)
  simp only [yyparse, shift, hsemi, hline, Option.bind_eq_bind, Option.bind_some, Option.pure_def]

lemma Line.effect_nil (parent : Host) : Line.effect networkName ⟨parent, []⟩ p =
    (hostAction networkName parent.1 parent.2 p).2 := rfl

lemma Line.effect_cons (parent first : Host) (children : List Host) :
    Line.effect networkName ⟨parent, first :: children⟩ p =
      lineAction (hostAction networkName parent.1 parent.2 p).1
        (childrenEffect networkName (first :: children)
          (hostAction networkName parent.1 parent.2 p).2) := rfl

lemma childrenEffect_cons (h : Host) (children : List Host) :
    childrenEffect networkName (h :: children) p = childrenEffect networkName children
      (hostsAction (hostAction networkName h.1 h.2 p).1 (hostAction networkName h.1 h.2 p).2) := rfl

lemma Line.symbols_cons (parent first : Host) (children : List Host) :
    (children = [] ∧ Line.symbols ⟨parent, first :: children⟩ = 5) ∨
      (children ≠ [] ∧ Line.symbols ⟨parent, first :: children⟩ = 6) := by
  cases children <;> simp [Line.symbols]

/-- A line is read if its symbols fit on the stack above the lines before it. -/
theorem yyparse_line (l : Line) (i : ℕ) :
    yyparse networkName (l.tokens ++ tokens) (List.replicate i .line) p =
      if i + l.symbols + 1 < yyMaxDepth then
        yyparse networkName tokens (List.replicate (i + 1) .line) (l.effect networkName p)
      else none := by
  have hexpects : expectsHost (List.replicate i .line) = true := by cases i <;> rfl
  rcases l with ⟨parent, children⟩
  cases children with
  | nil =>
      rw [Line.tokens, List.append_assoc, yyparse_host parent hexpects, List.length_replicate,
        show i + Line.symbols ⟨parent, []⟩ + 1 = i + 4 from rfl]
      by_cases hfits : i + 4 < yyMaxDepth
      · rw [if_pos hfits, if_pos hfits, reduceHost_parent _ (by omega), Option.bind_some,
          List.singleton_append, yyparse_semi (by rw [List.length_replicate]; omega),
          List.replicate_succ, Line.effect_nil]
      · rw [if_neg hfits, if_neg hfits]
  | cons first children =>
      have htokens : Line.tokens ⟨parent, first :: children⟩ ++ tokens = hostTokens parent ++
          (.arrow :: (hostTokens first ++ (children.flatMap hostTokens ++ .semi :: tokens))) := by
        simp only [Line.tokens, List.flatMap_cons, List.append_assoc, List.cons_append,
          List.nil_append]
      have hsymbols := Line.symbols_cons parent first children
      rw [htokens, yyparse_host parent hexpects, List.length_replicate]
      by_cases hparent : i + 4 < yyMaxDepth
      swap
      · rw [if_neg hparent, if_neg (by omega)]
      rw [if_pos hparent, reduceHost_parent _ (by omega), Option.bind_some, yyparse_cons,
        shift_arrow, push_of_lt (by rw [List.length_cons, List.length_replicate]; omega),
        Option.bind_some, Option.bind_some, yyparse_host first rfl]
      simp only [List.length_cons, List.length_replicate]
      by_cases hfirst : i + 6 < yyMaxDepth
      swap
      · rw [if_neg (by omega), if_neg (by omega)]
      rw [if_pos (by omega),
        reduceHost_first _ (by rw [List.length_cons, List.length_replicate]; omega),
        Option.bind_some, yyparse_more]
      simp only [List.length_cons, List.length_replicate]
      by_cases hmore : children = [] ∨ i + 1 + 1 + 5 < yyMaxDepth
      · rw [if_pos hmore, yyparse_arrow_semi (by rw [List.length_replicate]; omega),
          if_pos (by rcases hsymbols with h | h <;> rcases hmore with h' | h' <;>
            first | omega | exact absurd h' h.1),
          List.replicate_succ, Line.effect_cons, childrenEffect_cons]
      · rw [not_or] at hmore
        rw [if_neg (by tauto), if_neg (by rcases hsymbols with h | h <;>
          first | omega | exact absurd h.1 hmore.1)]

/-- The file is read if it fits on the stack. -/
theorem yyparse_lines (networkName : Text → Text) (lines : List Line) {i : ℕ}
    (hi : i + 1 < yyMaxDepth) :
    yyparse networkName (lines.flatMap Line.tokens) (List.replicate i .line) p =
      if i + symbols lines + 1 < yyMaxDepth then
        yyparse networkName [] (List.replicate (i + lines.length) .line)
          (lines.foldl (fun p l => l.effect networkName p) p)
      else none := by
  induction lines generalizing i p with
  | nil => rw [symbols, Nat.add_zero, if_pos hi]; rfl
  | cons l lines ih =>
      have hpos : 3 ≤ l.symbols := by
        rcases l with ⟨_, _ | ⟨_, _ | _⟩⟩ <;> simp [Line.symbols]
      rw [List.flatMap_cons, yyparse_line, symbols]
      by_cases hline : i + l.symbols + 1 < yyMaxDepth
      · rw [if_pos hline, ih (by omega)]
        by_cases hlines : i + 1 + symbols lines + 1 < yyMaxDepth
        · rw [if_pos hlines, if_pos (by omega), List.length_cons, List.foldl_cons,
            Nat.add_assoc i 1, Nat.add_comm 1]
        · rw [if_neg hlines, if_neg (by omega)]
      · rw [if_neg hline, if_neg (by omega)]

/-- What is left of the parser after a file that fits on the stack. -/
theorem yyparse_file {lines : List Line} (hne : lines ≠ []) :
    yyparse networkName (lines.flatMap Line.tokens) [] p =
      if symbols lines + 1 < yyMaxDepth then
        configAction (lines.foldl (fun p l => l.effect networkName p) p)
      else none := by
  have hrun := yyparse_lines (p := p) networkName lines
    (show 0 + 1 < yyMaxDepth by decide)
  obtain ⟨n, hn⟩ := Nat.exists_eq_succ_of_ne_zero (mt List.length_eq_zero_iff.mp hne)
  rw [Nat.zero_add, Nat.zero_add, hn, List.replicate_succ] at hrun
  exact hrun

end MRNet.TopologyFile
