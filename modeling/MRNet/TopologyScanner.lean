import MRNet.TopologyGrammar

/-!
# The scanner of topology files

The longest match counts, and the first rule among those that match as much. A character
that starts no token is skipped: blanks, and what the scanner echoes.
-/
namespace MRNet.TopologyFile
open SerialGraph (Text digits)
open WaitForAll (Rank)

/-- `[[a-zA-Z0-9\-".""_"]`, what may follow in a host name. -/
def isHostChar (c : Char) : Bool := c.isAlphanum || c ∈ ['[', '-', '"', '.', '_']

/-- `{DIGIT}|{NZDIGIT}{DIGIT}*`. -/
def isNumber : Text → Bool
  | [] => false
  | [c] => c.isDigit
  | c :: rest => c.isDigit && c ≠ '0' && rest.all Char.isDigit

/-- What is not in the range of an `unsigned long` is cut to it, and the value to 32 bits. -/
def strtoul (number : Text) : Rank := BitVec.ofNat 32 (min (digits number 0) (2 ^ 64 - 1))

/-- The two rules that start with a letter or a digit. Both match the digits of a number;
then it is one. -/
def lexeme (text : Text) : Token :=
  if isNumber text then .uint (strtoul text) else .hostname text

def scan : Text → List Token
  | [] => []
  | c :: rest =>
      if c.isAlphanum then
        lexeme (c :: rest.takeWhile isHostChar) :: scan (rest.dropWhile isHostChar)
      else if c = ';' then .semi :: scan rest
      else if c = '=' ∧ rest.head? = some '>' then .arrow :: scan (rest.drop 1)
      else if c = ':' then .colon :: scan rest
      else if c = '*' then .star :: scan rest
      else if c = '#' then scan (rest.dropWhile (· ≠ '\n'))
      else scan rest
termination_by text => text.length
decreasing_by
  all_goals simp only [List.length_cons, List.length_drop]
  all_goals first
    | omega
    | exact Nat.lt_succ_of_le (List.length_dropWhile_le _ _)

/-- A host name that the scanner takes for one. -/
structure IsHostName (name : Text) : Prop where
  first : ∃ c rest, name = c :: rest ∧ c.isAlphanum = true
  chars : ∀ c ∈ name, isHostChar c = true
  notNumber : isNumber name = false

lemma isHostChar_of_isAlphanum {c : Char} (h : c.isAlphanum = true) : isHostChar c = true := by
  rw [isHostChar, h, Bool.true_or]

lemma isAlphanum_of_isDigit {c : Char} (h : c.isDigit = true) : c.isAlphanum = true := by
  rw [Char.isAlphanum, h, Bool.or_true]

lemma isDigit_toDigits {n : ℕ} : ∀ c ∈ Nat.toDigits 10 n, c.isDigit = true :=
  fun _ hc => Nat.isDigit_of_mem_toDigits (by decide) (by decide) hc

/-- Decimal digits begin with zero only for zero. -/
lemma toDigits_head {n : ℕ} (hn : 0 < n) {c : Char} {rest : Text}
    (h : Nat.toDigits 10 n = c :: rest) : c ≠ '0' := by
  induction n using Nat.strongRecOn generalizing rest with
  | _ n ih =>
      by_cases hlt : n < 10
      · rw [Nat.toDigits_of_lt_base hlt] at h
        rw [← (List.cons.inj h).1, ne_eq, Nat.digitChar_eq_zero]
        omega
      · rw [Nat.toDigits_of_base_le (by decide) (by omega)] at h
        cases hfirst : Nat.toDigits 10 (n / 10) with
        | nil => exact absurd hfirst Nat.toDigits_ne_nil
        | cons d more =>
            rw [hfirst] at h
            obtain ⟨rfl, -⟩ := List.cons.inj h
            exact ih (n / 10) (by omega) (by omega) hfirst

lemma isNumber_toDigits (n : ℕ) : isNumber (Nat.toDigits 10 n) = true := by
  have hdigits := @isDigit_toDigits n
  cases h : Nat.toDigits 10 n with
  | nil => exact absurd h Nat.toDigits_ne_nil
  | cons c rest =>
      rw [h] at hdigits
      obtain ⟨hc, hrest⟩ := List.forall_mem_cons.mp hdigits
      cases rest with
      | nil => exact hc
      | cons d rest =>
          have hpos : 0 < n := by
            by_contra hzero
            rw [Nat.eq_zero_of_not_pos hzero, Nat.toDigits_zero] at h
            cases h
          rw [isNumber, hc, decide_eq_true (toDigits_head hpos h), Bool.true_and, Bool.true_and,
            List.all_eq_true]
          exact hrest
          nofun

lemma digits_toDigits (n : ℕ) : digits (Nat.toDigits 10 n) 0 = n := by
  rw [SerialGraph.digits_eq isDigit_toDigits, Nat.ofDigitChars_ten_toDigits]

lemma IsHostName.noColon {name : Text} (h : IsHostName name) : ':' ∉ name := by
  intro hmem
  have hchar := h.chars ':' hmem
  cases hchar

/-- A lexeme ends before the first character that cannot follow in it. -/
lemma scan_lexeme {c d : Char} {word rest : Text} (hc : c.isAlphanum = true)
    (hword : ∀ w ∈ word, isHostChar w = true) (hd : isHostChar d = false) :
    scan (c :: (word ++ d :: rest)) = lexeme (c :: word) :: scan (d :: rest) := by
  have htake : (word ++ d :: rest).takeWhile isHostChar = word := by
    rw [List.takeWhile_append_of_pos hword, List.takeWhile_cons_of_neg (by rw [hd]; decide),
      List.append_nil]
  have hdrop : (word ++ d :: rest).dropWhile isHostChar = d :: rest := by
    rw [List.dropWhile_append_of_pos hword, List.dropWhile_cons_of_neg (by rw [hd]; decide)]
  rw [scan, if_pos hc, htake, hdrop]

lemma scan_hostname {host : Text} (h : IsHostName host) {d : Char} {rest : Text}
    (hd : isHostChar d = false) :
    scan (host ++ d :: rest) = .hostname host :: scan (d :: rest) := by
  obtain ⟨c, word, rfl, hc⟩ := h.first
  rw [List.cons_append, scan_lexeme hc (List.forall_mem_cons.mp h.chars).2 hd, lexeme,
    h.notNumber]
  rfl

lemma scan_number (n : ℕ) {d : Char} {rest : Text} (hd : isHostChar d = false) :
    scan (Nat.toDigits 10 n ++ d :: rest) =
      .uint (strtoul (Nat.toDigits 10 n)) :: scan (d :: rest) := by
  have hdigits := @isDigit_toDigits n
  have hnumber := isNumber_toDigits n
  cases h : Nat.toDigits 10 n with
  | nil => exact absurd h Nat.toDigits_ne_nil
  | cons c word =>
      rw [h] at hdigits hnumber
      obtain ⟨hc, hword⟩ := List.forall_mem_cons.mp hdigits
      rw [List.cons_append, scan_lexeme (isAlphanum_of_isDigit hc)
        (fun w hw => isHostChar_of_isAlphanum (isAlphanum_of_isDigit (hword w hw))) hd, lexeme,
        hnumber]
      rfl

/-- A name of the form `host:n` is scanned as a host. -/
lemma scan_name {host : Text} (h : IsHostName host) (n : ℕ) {d : Char} {rest : Text}
    (hd : isHostChar d = false) :
    scan (host ++ ':' :: (Nat.toDigits 10 n ++ d :: rest)) =
      hostTokens (host, strtoul (Nat.toDigits 10 n)) ++ scan (d :: rest) := by
  have hcolon (text : Text) : scan (':' :: text) = .colon :: scan text := by rw [scan]; rfl
  rw [scan_hostname h rfl, hcolon, scan_number n hd]
  rfl

end MRNet.TopologyFile
