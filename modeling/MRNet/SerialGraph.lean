import MRNet.WaitForAll

/-!
# Serialized graphs

A graph is written as `[host:port:rank:type children]`, where the type of a back-end is
`0` and that of an internal node is `1`. Translation of the members of `SerialGraph` that
read and write this text. A position that is not found is `none`.
-/
namespace MRNet.SerialGraph
open Codec
open WaitForAll (Rank)

abbrev Text := List Char
abbrev Port := BitVec 16

/-- `XPlat::SocketUtils::InvalidPort`. -/
def unknownPort : Port := 0

/-- `std::string::find`. -/
def find (text : Text) (c : Char) (pos : ℕ) : Option ℕ :=
  ((text.drop pos).findIdx? (· = c)).map (· + pos)

/-- `std::string::substr`. -/
def substr (text : Text) (pos len : ℕ) : Text := (text.drop pos).take len

/-- The text between two positions, to the end if there is no second one. -/
def between (text : Text) (first : ℕ) : Option ℕ → Text
  | none => text.drop first
  | some last => substr text first (last - first)

def digits : Text → ℕ → ℕ
  | c :: text, n => if c.isDigit then digits text (10 * n + (c.toNat - '0'.toNat)) else n
  | [], n => n

/-- `isspace`. -/
def isSpace (c : Char) : Bool :=
  c == ' ' || c == '\t' || c == '\n' || c == '\x0b' || c == '\x0c' || c == '\r'

/-- Blanks, a sign, digits; what is not in the range of a `long` is cut to it. -/
def atoi (text : Text) : BitVec 32 :=
  match text.dropWhile isSpace with
  | '-' :: rest => BitVec.ofInt 32 (max (-(digits rest 0 : ℤ)) (-2 ^ 63))
  | '+' :: rest => BitVec.ofInt 32 (min (digits rest 0 : ℤ) (2 ^ 63 - 1))
  | rest => BitVec.ofInt 32 (min (digits rest 0 : ℤ) (2 ^ 63 - 1))

/-- The colon at or after a position, as the assertions require it. -/
def colon (text : Text) (pos : ℕ) : Outcome ℕ :=
  match find text ':' pos with
  | none => .error (.fault .assertion)
  | some i => return i

/-- The character after the third colon; the scan runs on past the end of a text with
fewer colons. -/
def isRootBackEnd (text : Text) : Outcome Bool :=
  match (find text ':' 0).bind fun i => (find text ':' (i + 1)).bind fun j =>
    find text ':' (j + 1) with
  | none => .error (.fault .readPast)
  | some k => return decide (text[k + 1]? = some '0')

def getRootHostName (text : Text) : Outcome Text := do
  let last ← colon text 1
  return substr text 1 (last - 1)

/-- A number that is no port reads as 65535. -/
def getRootPort (text : Text) : Outcome Port := do
  let first ← colon text 2
  let number := (atoi (between text (first + 1) (find text ':' (first + 1)))).toInt
  return if number ≤ 65535 ∧ 0 ≤ number then BitVec.ofInt 16 number else BitVec.allOnes 16

def getRootRank (text : Text) : Outcome Rank := do
  let first ← colon text 0
  let second ← colon text (first + 1)
  return atoi (between text (second + 1) (find text ':' (second + 1)))

def setToFirstChild (text : Text) : Option ℕ := find text '[' 1

/-- The number of characters up to the bracket that closes as many as are open. -/
def closing : Text → ℕ → ℕ → Option ℕ
  | [], _, _ => none
  | c :: text, opened, closed =>
      let opened := if c = '[' then opened + 1 else opened
      let closed := if c = ']' then closed + 1 else closed
      if opened = closed then some 1 else (closing text opened closed).map (· + 1)

/-- The next child and the position after it. The scan runs past the end of a text whose
brackets do not close. -/
def getNextChild (text : Text) (bufIdx : Option ℕ) : Outcome (Option (Text × ℕ)) :=
  match bufIdx with
  | none => return none
  | some start =>
      match find text '[' start with
      | none => return none
      | some _ =>
          match closing (text.drop (start + 1)) 1 0 with
          | none => .error (.fault .readPast)
          | some n => return some (substr text start (n + 1), start + n + 1)

lemma find_lt {text : Text} {c : Char} {pos i : ℕ} (h : find text c pos = some i) :
    pos ≤ i ∧ i < text.length := by
  obtain ⟨j, hj, hji⟩ := Option.map_eq_some_iff.mp h
  have hlt := (List.findIdx?_eq_some_iff_findIdx_eq.mp hj).1
  rw [List.length_drop] at hlt
  omega

/-- A child that starts after the first character is shorter than the text. -/
lemma getNextChild_lt {text child : Text} {start next : ℕ} (hpos : 0 < start)
    (h : getNextChild text (some start) = .ok (some (child, next))) :
    child.length < text.length ∧ start < next ∧ start < text.length := by
  unfold getNextChild at h
  dsimp only at h
  cases hfind : find text '[' start with
  | none =>
      rw [hfind] at h
      cases h
  | some i =>
      have hlt := find_lt hfind
      rw [hfind] at h
      cases hclose : closing (text.drop (start + 1)) 1 0 with
      | none =>
          rw [hclose] at h
          cases h
      | some n =>
          rw [hclose] at h
          cases h
          have hlen : (substr text start (n + 1)).length ≤ text.length - start := by
            rw [substr, List.length_take, List.length_drop]
            omega
          omega

/-- The loop over the children, from a position on. -/
def childrenFrom (text : Text) (start : ℕ) (hpos : 0 < start) : Outcome (List Text) :=
  match h : getNextChild text (some start) with
  | .error e => .error e
  | .ok none => return []
  | .ok (some (child, next)) => do
      let rest ← childrenFrom text next (hpos.trans (getNextChild_lt hpos h).2.1)
      return child :: rest
termination_by text.length - start
decreasing_by
  have := getNextChild_lt hpos h
  omega

/-- The sub-graphs of the children, as `set_ToFirstChild` and `get_NextChild` list them. -/
def getChildren (text : Text) : Outcome (List Text) :=
  match h : setToFirstChild text with
  | none => return []
  | some start => childrenFrom text start (Nat.lt_of_lt_of_le Nat.zero_lt_one (find_lt h).1)

lemma childrenFrom_shorter (text : Text) (start : ℕ) (hpos : 0 < start) {kids : List Text}
    (h : childrenFrom text start hpos = .ok kids) : ∀ kid ∈ kids, kid.length < text.length := by
  fun_induction childrenFrom text start hpos generalizing kids with
  | case1 start hpos e hnext => cases h
  | case2 start hpos hnext =>
      cases h
      simp
  | case3 start hpos child next hnext ih =>
      obtain ⟨rest, hrest, hkids⟩ := bind_ok_iff.mp h
      cases hkids
      intro kid hkid
      rcases List.mem_cons.mp hkid with heq | hmem
      · rw [heq]
        exact (getNextChild_lt hpos hnext).1
      · exact ih hrest kid hmem

/-- The children of a graph are shorter than its text. -/
theorem getChildren_shorter {text : Text} {kids : List Text} (h : getChildren text = .ok kids) :
    ∀ kid ∈ kids, kid.length < text.length := by
  unfold getChildren at h
  split at h
  · cases h
    simp
  · exact childrenFrom_shorter text _ _ h

/-- `std::string::find` for a text. -/
def findText (text key : Text) (pos : ℕ) : Option ℕ :=
  ((text.drop pos).tails.findIdx? (key.isPrefixOf ·)).map (· + pos)

/-- The text from a bracket to the one that closes it. -/
def subTreeAt (text : Text) (start : ℕ) : Outcome Text :=
  match closing (text.drop (start + 1)) 1 0 with
  | none => .error (.fault .readPast)
  | some n => return substr text start (n + 1)

lemma findText_eq_none_iff {text key : Text} {pos : ℕ} :
    findText text key pos = none ↔ ¬key <:+: text.drop pos := by
  rw [findText, Option.map_eq_none_iff, List.findIdx?_eq_none_iff, List.infix_iff_prefix_suffix]
  constructor
  · rintro hnone ⟨t, hprefix, hsuffix⟩
    have hfalse := hnone t ((List.mem_tails _ _).mpr hsuffix)
    rw [List.isPrefixOf_iff_prefix.mpr hprefix] at hfalse
    cases hfalse
  · intro hnot t ht
    rw [Bool.eq_false_iff, ne_eq, List.isPrefixOf_iff_prefix]
    exact fun hprefix => hnot ⟨t, hprefix, (List.mem_tails _ _).mp ht⟩

lemma findText_le {text key : Text} {pos i : ℕ} (h : findText text key pos = some i) : pos ≤ i := by
  obtain ⟨j, -, hji⟩ := Option.map_eq_some_iff.mp h
  omega

/-- The loop over the places where the key stands, up to one with the rank. -/
def searchRank (text key myrank : Text) (begin : ℕ) : Outcome (Option ℕ) :=
  match _hcur : findText text key begin with
  | none => return none
  | some cur =>
      match _hfirst : find text ':' cur with
      | none => .error (.fault .assertion)
      | some first =>
          match _hsecond : find text ':' (first + 1) with
          | none => .error (.fault .assertion)
          | some second =>
              if between text (second + 1) (find text ':' (second + 1)) = myrank then
                return some cur
              else searchRank text key myrank (second + 1)
termination_by text.length - begin
decreasing_by
  have := findText_le _hcur
  have := find_lt _hfirst
  have := find_lt _hsecond
  omega

/-- The port is disregarded, and the host name need only begin with the given one. -/
def getMySubTree (text hostName : Text) (_port : Port) (rank : Rank) : Outcome (Option Text) := do
  match ← searchRank text ('[' :: hostName) (Nat.toDigits 10 rank.toNat) 0 with
  | none => return none
  | some cur => do
      let subTree ← subTreeAt text cur
      return some subTree

/-- `std::setw( 5 ) << std::setfill( '0' )`. -/
def paddedPort (port : Port) : Text :=
  let number := Nat.toDigits 10 port.toNat
  List.replicate (5 - number.length) '0' ++ number

/-- What both kinds of nodes start with. -/
def nodeText (hostName : Text) (port : Port) (rank : Rank) : Text :=
  ['['] ++ hostName ++ [':'] ++ paddedPort port ++ [':'] ++ Nat.toDigits 10 rank.toNat

def addLeaf (text hostName : Text) (port : Port) (rank : Rank) : Text :=
  text ++ nodeText hostName port rank ++ [':', '0', ']']

def addSubTreeRoot (text hostName : Text) (port : Port) (rank : Rank) : Text :=
  text ++ nodeText hostName port rank ++ [':', '1']

def endSubTree (text : Text) : Text := text ++ [']']

end MRNet.SerialGraph
