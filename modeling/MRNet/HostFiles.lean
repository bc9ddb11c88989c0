import MRNet.Words
import MRNet.HostSlots

/-!
# Reading of host lists

Translation of `get_HostsFromFileStream` and `get_HostsFromBuffer`. The stream stops behind each
word. The buffer is searched for the word that was scanned, and goes on one character behind it,
so that a word in front of the terminating null is read past.
-/
namespace MRNet.TopologyFile
open Codec
open SerialGraph (Text atoi findText findText_le isSpace)
open Std (TreeMap)
open Words

abbrev HostCounts := TreeMap Text (BitVec 32)

/-- A host is counted once, or as often as the number behind the colon says. -/
def countHost (hostCounts : HostCounts) (curHost : Text) : HostCounts :=
  let host := curHost.takeWhile (· ≠ ':')
  let count := if ':' ∈ curHost then atoi (curHost.drop (host.length + 1)) else 1
  let count := match hostCounts[host]? with
    | some found => count + found
    | none => count
  hostCounts.insert host count

/-- The words are stored in `cur_host`. -/
def storeWord (hostNameMax : ℕ) (word : Text) : Outcome Text :=
  if word.length < hostNameMax then return word else .error (.fault .storePast)

/-- The loop over the stream, from what is left of it. -/
def countStream (hostNameMax : ℕ) (ifile : Text) (hostCounts : HostCounts) : Outcome HostCounts :=
  match _h : next isSpace ifile with
  | none => return hostCounts
  | some (word, ifile') => do
      let curHost ← storeWord hostNameMax word
      countStream hostNameMax ifile' (countHost hostCounts curHost)
termination_by ifile.length
decreasing_by exact next_lt _h

def getHostsFromFileStream (hostNameMax : ℕ) (ifile : Text) (hosts : HostList) :
    Outcome HostList := do
  let hostCounts ← countStream hostNameMax ifile ∅
  return hosts ++ hostCounts.toList

/-- The loop over the buffer, from a position in it. The null is behind the last character. -/
def countBuffer (hostNameMax : ℕ) (ibuf : Text) (buf : ℕ) (hostCounts : HostCounts) :
    Outcome HostCounts :=
  if ibuf.length < buf then .error (.fault .readPast)
  else
    match next isSpace (ibuf.drop buf) with
    | none => return hostCounts
    | some (word, _) => do
        let curHost ← storeWord hostNameMax word
        match _h : findText ibuf curHost buf with
        | none => .error (.fault .nullPointer)
        | some found =>
            countBuffer hostNameMax ibuf (found + curHost.length + 1)
              (countHost hostCounts curHost)
termination_by ibuf.length + 1 - buf
decreasing_by
  have := findText_le _h
  omega

def getHostsFromBuffer (hostNameMax : ℕ) (ibuf : Text) (hosts : HostList) : Outcome HostList := do
  let hostCounts ← countBuffer hostNameMax ibuf 0 ∅
  return hosts ++ hostCounts.toList

variable {hostNameMax : ℕ} {text s w r : Text} {counts : HostCounts}

lemma storeWord_short (h : w.length < hostNameMax) : storeWord hostNameMax w = .ok w := if_pos h

theorem countStream_words (h : ∀ w ∈ words isSpace text, w.length < hostNameMax) :
    countStream hostNameMax text counts = .ok ((words isSpace text).foldl countHost counts) := by
  induction hn : text.length using Nat.strong_induction_on generalizing text counts with
  | _ n ih =>
      subst hn
      rw [countStream]
      rcases blank_or_word isSpace text with hblank | ⟨s, w, r, rfl, hs, hw, hr⟩
      · rw [words_blank hblank]
        split
        · rfl
        · next heq => cases (next_eq_none_iff.mpr hblank).symm.trans heq
      · rw [words_split hs hw hr] at h ⊢
        split
        · next heq => cases (next_split hs hw hr).symm.trans heq
        · next word rest heq =>
            cases (next_split hs hw hr).symm.trans heq
            rw [storeWord_short (h w List.mem_cons_self), ok_bind, List.foldl_cons]
            exact ih _ (next_lt heq) (fun w hw => h w (List.mem_cons_of_mem _ hw)) rfl

/-- The search comes to the word that was scanned. -/
lemma findText_word (pre : Text) (hs : Blank isSpace s) (hw : IsWord isSpace w) :
    findText (pre ++ (s ++ (w ++ r))) w pre.length = some (pre ++ s).length := by
  have htails : (s ++ (w ++ r)).tails.findIdx? (w.isPrefixOf ·) = some s.length := by
    induction s with
    | nil =>
        have hhere : w.isPrefixOf (w ++ r) = true :=
          List.isPrefixOf_iff_prefix.mpr (List.prefix_append w r)
        cases hwr : w ++ r with
        | nil => exact absurd (List.append_eq_nil_iff.mp hwr).1 hw.ne_nil
        | cons c l =>
            rw [hwr] at hhere
            rw [List.nil_append, List.tails_cons, List.findIdx?_cons, hhere]
            rfl
    | cons c s ih =>
        have hnot : w.isPrefixOf (c :: (s ++ (w ++ r))) = false := by
          rw [Bool.eq_false_iff, ne_eq, List.isPrefixOf_iff_prefix]
          intro hprefix
          obtain ⟨d, w', rfl⟩ := List.exists_cons_of_ne_nil hw.ne_nil
          have hd := hw.solid d List.mem_cons_self
          rw [(List.cons_prefix_cons.mp hprefix).1, hs c List.mem_cons_self] at hd
          cases hd
        rw [List.cons_append, List.tails_cons, List.findIdx?_cons, hnot,
          ih fun d hd => hs d (List.mem_cons_of_mem _ hd)]
        rfl
  rw [findText, List.drop_left, htails, Option.map_some, List.length_append, Nat.add_comm]

/-- No word stands in front of the null. -/
def EndsBlank (text : Text) : Prop := ∀ c ∈ text.getLast?, isSpace c = true

instance (text : Text) : Decidable (EndsBlank text) :=
  inferInstanceAs (Decidable (∀ c ∈ text.getLast?, isSpace c = true))

lemma EndsBlank.of_blank (h : Blank isSpace text) : EndsBlank text :=
  fun c hc => h c (List.mem_of_getLast? hc)

lemma not_endsBlank_word (hw : IsWord isSpace w) : ¬EndsBlank (s ++ (w ++ [])) := by
  intro hends
  have hlast := List.getLast?_eq_some_getLast hw.ne_nil
  have hspace := hends (w.getLast hw.ne_nil) (by
    rw [List.append_nil, List.getLast?_append, hlast]
    rfl)
  rw [hw.solid _ (List.getLast_mem hw.ne_nil)] at hspace
  cases hspace

lemma endsBlank_after {c : Char} (hc : isSpace c = true) (l : Text) :
    EndsBlank (l ++ c :: r) ↔ EndsBlank r := by
  rw [EndsBlank, List.getLast?_append, List.getLast?_cons]
  cases hlast : r.getLast? with
  | none => simp [EndsBlank, hlast, hc]
  | some d => simp [EndsBlank, hlast]

/-- The loop over the buffer reads past a last word without a blank. -/
theorem countBuffer_words (pre : Text) (h : ∀ w ∈ words isSpace text, w.length < hostNameMax) :
    countBuffer hostNameMax (pre ++ text) pre.length counts =
      if EndsBlank text then .ok ((words isSpace text).foldl countHost counts)
      else .error (.fault .readPast) := by
  induction hn : text.length using Nat.strong_induction_on generalizing pre text counts with
  | _ n ih =>
      subst hn
      have hpos : ¬(pre ++ text).length < pre.length := by
        rw [List.length_append]
        omega
      rw [countBuffer, if_neg hpos, List.drop_left]
      rcases blank_or_word isSpace text with hblank | ⟨s, w, r, rfl, hs, hw, hr⟩
      · rw [next_eq_none_iff.mpr hblank, words_blank hblank, if_pos (EndsBlank.of_blank hblank)]
        rfl
      · have hfound : findText (pre ++ (s ++ (w ++ r))) w pre.length = some (pre ++ s).length :=
          findText_word pre hs hw
        rw [words_split hs hw hr] at h ⊢
        rw [next_split hs hw hr]
        dsimp only
        rw [storeWord_short (h w List.mem_cons_self), ok_bind]
        split
        · next heq => cases hfound.symm.trans heq
        · next found heq =>
            cases hfound.symm.trans heq
            rcases apart_iff.mp hr with rfl | ⟨c, r', rfl, hc⟩
            · have hpast : (pre ++ (s ++ (w ++ []))).length < (pre ++ s).length + w.length + 1 := by
                simp only [List.length_append, List.length_nil]
                omega
              rw [if_neg (not_endsBlank_word hw), countBuffer, if_pos hpast]
            · have hsplit : pre ++ (s ++ (w ++ c :: r')) = (pre ++ (s ++ (w ++ [c]))) ++ r' := by
                simp
              have hlength : (pre ++ s).length + w.length + 1 = (pre ++ (s ++ (w ++ [c]))).length := by
                simp only [List.length_append, List.length_singleton]
                omega
              have hends : EndsBlank (s ++ (w ++ c :: r')) ↔ EndsBlank r' := by
                rw [← List.append_assoc]
                exact endsBlank_after hc _
              have hshort : r'.length < (s ++ (w ++ c :: r')).length := by
                simp only [List.length_append, List.length_cons]
                omega
              rw [words_space hc] at h ⊢
              rw [hsplit, hlength, ih _ hshort _ (fun w hw => h w (List.mem_cons_of_mem _ hw)) rfl,
                List.foldl_cons]
              simp only [hends]

/-- Both readers come to an end, with the same hosts. -/
def ReadsSame (hostNameMax : ℕ) (text : Text) (hosts : HostList) : Prop :=
  ∃ read, getHostsFromBuffer hostNameMax text hosts = .ok read ∧
    getHostsFromFileStream hostNameMax text hosts = .ok read

section Same
variable (h : ∀ w ∈ words isSpace text, w.length < hostNameMax)
include h

/-- The stream is read whatever stands in front of the null. -/
lemma getHostsFromFileStream_words (hosts : HostList) :
    getHostsFromFileStream hostNameMax text hosts =
      .ok (hosts ++ ((words isSpace text).foldl countHost ∅).toList) := by
  rw [getHostsFromFileStream, countStream_words h]
  rfl

lemma getHostsFromBuffer_words (hosts : HostList) :
    getHostsFromBuffer hostNameMax text hosts =
      if EndsBlank text then .ok (hosts ++ ((words isSpace text).foldl countHost ∅).toList)
      else .error (.fault .readPast) := by
  have hbuffer := @countBuffer_words hostNameMax text ∅ [] h
  rw [List.nil_append, List.length_nil] at hbuffer
  rw [getHostsFromBuffer, hbuffer]
  split_ifs <;> rfl

/-- When host lists read the same: the text is empty or ends with a blank. -/
theorem getHosts_same_iff (hosts : HostList) :
    ReadsSame hostNameMax text hosts ↔ EndsBlank text := by
  rw [ReadsSame, getHostsFromBuffer_words h, getHostsFromFileStream_words h]
  split_ifs with hends
  · exact iff_of_true ⟨_, rfl, rfl⟩ hends
  · exact iff_of_false (fun ⟨_, hread, _⟩ => nomatch hread) hends

end Same

lemma words_single {w : Text} (hw : IsWord isSpace w) (hr : Apart isSpace r)
    (hblank : Blank isSpace r) : words isSpace (w ++ r) = [w] := by
  have hsplit := words_split (s := []) (fun _ hc => nomatch hc) hw hr
  rw [List.nil_append, words_blank hblank] at hsplit
  exact hsplit

/-- Repeated words, words that begin others, and blanks in a row. -/
def hostLines : Text :=
  ['a', ':', '2', ' ', 'b', ' ', 'b', 'b', '\n', '\n', 'a', ' ', 'b', ' ', 'a', ':', '2', '\t', '\n']

theorem getHosts_same_lines : ReadsSame 256 hostLines [] := by
  have hlength : hostLines.length < 256 := by decide
  exact (getHosts_same_iff (fun w hw => (length_of_mem_words hw).trans_lt hlength) []).mpr
    (by simp [hostLines, EndsBlank, isSpace])

/-- One host without a newline. -/
theorem getHosts_not_same : (∀ w ∈ words isSpace ['a'], w.length < 256) ∧
    getHostsFromBuffer 256 ['a'] [] = .error (.fault .readPast) ∧ ¬ReadsSame 256 ['a'] [] := by
  have hword : IsWord isSpace ['a'] := ⟨by decide, by simp [isSpace]⟩
  have hwords := words_single hword apart_nil (fun _ hc => absurd hc List.not_mem_nil)
  have hshort : ∀ w ∈ words isSpace ['a'], w.length < 256 := by
    intro w hw
    rw [show ['a'] = ['a'] ++ [] from rfl, hwords, List.mem_singleton] at hw
    rw [hw]
    decide
  have hpast : getHostsFromBuffer 256 ['a'] [] = .error (.fault .readPast) := by
    rw [getHostsFromBuffer_words hshort, if_neg (by simp [EndsBlank, isSpace])]
  refine ⟨hshort, hpast, ?_⟩
  rintro ⟨_, hread, _⟩
  rw [hpast] at hread
  cases hread

end MRNet.TopologyFile
