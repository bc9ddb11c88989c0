import MRNet.AdmittedRuns
import MRNet.Buffers
import MRNet.PortSetting

/-!
# The buffer of a lightweight serialized graph

The lightweight functions that write a serialized graph, with the block of memory that holds
its text. Each append trusts the length that is kept for the block. Setting a port replaces the
block and keeps the length.
-/
namespace MRNet.SerialGraph.Lightweight
open Codec Buffers AdmittedRuns
open WaitForAll (Rank)

/-- The text in `byte_array`, without its terminator, and the number of bytes allocated. -/
structure SerialGraphT where
  text : Text
  allocated : ℕ
  arrLen : ℕ
  deriving DecidableEq

/-- A call that fails ends the program. -/
def alloc (mem : Memory) (bytes : ℕ) : Outcome ℕ :=
  if mem.limit < bytes then .error .refused else return bytes

def newSerialGraphT (mem : Memory) : Option Text → Outcome SerialGraphT
  | some ibyteArray => do
      let allocated ← alloc mem (ibyteArray.length + 1)
      return ⟨ibyteArray, allocated, ibyteArray.length + 1⟩
  | none => do
      let allocated ← alloc mem 1024 -- pre-allocation
      return ⟨[], allocated, 1024⟩

/-- What `add_Leaf`, `add_SubTreeRoot` and `end_SubTree` share. -/
def append (mem : Memory) (sg : SerialGraphT) (suffix : Text) : Outcome SerialGraphT := do
  let len := suffix.length + sg.text.length + 1
  let sg ←
    if sg.arrLen < len then do
      let len := len * 2 % 2 ^ 64
      let allocated ← alloc mem len
      pure { sg with allocated, arrLen := len }
    else pure sg
  if sg.allocated < sg.text.length + suffix.length + 1 then .error (.fault .storePast)
  else return { sg with text := sg.text ++ suffix }

/-- `sprintf` to a buffer of 256 characters. -/
def format (hoststr : Text) : Outcome Text :=
  if hoststr.length < 256 then return hoststr else .error (.fault .storePast)

def leafText (hostName : Text) (port : Port) (rank : Rank) : Text :=
  nodeText hostName port rank ++ [':', '0', ']']

def subTreeText (hostName : Text) (port : Port) (rank : Rank) : Text :=
  nodeText hostName port rank ++ [':', '1']

def addLeaf (mem : Memory) (hostName : Text) (port : Port) (rank : Rank) (sg : SerialGraphT) :
    Outcome SerialGraphT := do
  let hoststr ← format (leafText hostName port rank)
  append mem sg hoststr

def addSubTreeRoot (mem : Memory) (hostName : Text) (port : Port) (rank : Rank)
    (sg : SerialGraphT) : Outcome SerialGraphT := do
  let hoststr ← format (subTreeText hostName port rank)
  append mem sg hoststr

def endSubTree (mem : Memory) (sg : SerialGraphT) : Outcome SerialGraphT := append mem sg [']']

/-- The new block is returned in any case; it is lost if the node is not found. -/
def setPort (mem : Memory) (hostName : Text) (port : Port) (rank : Rank) (sg : SerialGraphT) :
    Outcome (SerialGraphT × Bool) := do
  let oldHoststr ← format (nodeKey hostName unknownPort rank)
  let newHoststr ← format (nodeKey hostName port rank)
  let allocated ← alloc mem (sg.text.length + 10)
  match findText sg.text oldHoststr 0 with
  | none => return (sg, false)
  | some beginLen =>
      let text := sg.text.take beginLen ++ newHoststr ++
        sg.text.drop (beginLen + oldHoststr.length)
      if allocated < text.length + 1 then .error (.fault .storePast)
      else return ({ sg with text, allocated }, true)

/-- A call for one of the graphs, which are known by the order in which they were made. The
formatted texts fit their buffers. -/
inductive Op where
  | newSerialGraph (ibyteArray : Option Text)
  | addLeaf (i : ℕ) (hostName : Text) (port : Port) (rank : Rank)
      (fits : (leafText hostName port rank).length < 256)
  | addSubTreeRoot (i : ℕ) (hostName : Text) (port : Port) (rank : Rank)
      (fits : (subTreeText hostName port rank).length < 256)
  | endSubTree (i : ℕ)
  | setPort (i : ℕ) (hostName : Text) (port : Port) (rank : Rank)
      (fits : (nodeKey hostName port rank).length < 256)

def perform (mem : Memory) (graphs : List SerialGraphT) : Op → Outcome (List SerialGraphT)
  | .newSerialGraph ibyteArray => do
      let sg ← newSerialGraphT mem ibyteArray
      return graphs ++ [sg]
  | .addLeaf i hostName port rank _ => update .refused graphs i (addLeaf mem hostName port rank)
  | .addSubTreeRoot i hostName port rank _ =>
      update .refused graphs i (addSubTreeRoot mem hostName port rank)
  | .endSubTree i => update .refused graphs i (endSubTree mem)
  | .setPort i hostName port rank _ => update .refused graphs i fun sg => do
      let (sg, _) ← setPort mem hostName port rank sg
      return sg

/-- The block has the length that is kept for it, and the text fits. -/
def InBounds : Outcome (List SerialGraphT) → Prop
  | .ok graphs => ∀ sg ∈ graphs, sg.arrLen ≤ sg.allocated ∧ sg.text.length + 1 ≤ sg.arrLen
  | .error stop => stop ≠ .fault .storePast

/-- Where a port is set, the length that is kept is not larger than the new block. -/
def Admits (graphs : List SerialGraphT) : Op → Prop
  | .setPort i hostName _ rank _ => ∀ sg, graphs[i]? = some sg →
      findText sg.text (nodeKey hostName unknownPort rank) 0 ≠ none →
        sg.arrLen ≤ sg.text.length + 10
  | _ => True

section Graph
variable {mem : Memory} {sg sg' : SerialGraphT} {hostName suffix : Text} {port : Port} {rank : Rank}

/-- The buffer is as large as the length says, and in the address space. -/
structure SerialGraphT.Sound (mem : Memory) (sg : SerialGraphT) : Prop where
  arrLen_le : sg.arrLen ≤ sg.allocated
  text_lt : sg.text.length + 1 ≤ sg.arrLen
  allocated_le : sg.allocated ≤ mem.limit

/-- The call leaves a sound graph, unless it cannot allocate. -/
def Leaves (mem : Memory) (r : Outcome SerialGraphT) : Prop :=
  r = .error .refused ∨ ∃ sg, r = .ok sg ∧ sg.Sound mem

lemma alloc_cases (mem : Memory) (bytes : ℕ) :
    mem.limit < bytes ∧ alloc mem bytes = .error .refused ∨
      bytes ≤ mem.limit ∧ alloc mem bytes = .ok bytes := by
  unfold alloc
  split_ifs with hlimit
  · exact .inl ⟨hlimit, rfl⟩
  · exact .inr ⟨not_lt.mp hlimit, rfl⟩

lemma newSerialGraphT_leaves (mem : Memory) (ibyteArray : Option Text) :
    Leaves mem (newSerialGraphT mem ibyteArray) := by
  cases ibyteArray with
  | some ibyteArray =>
      rcases alloc_cases mem (ibyteArray.length + 1) with ⟨-, hfail⟩ | ⟨hle, hok⟩
      · exact .inl (by rw [newSerialGraphT, hfail]; rfl)
      · exact .inr ⟨_, by rw [newSerialGraphT, hok]; rfl, le_rfl, le_rfl, hle⟩
  | none =>
      rcases alloc_cases mem 1024 with ⟨-, hfail⟩ | ⟨hle, hok⟩
      · exact .inl (by rw [newSerialGraphT, hfail]; rfl)
      · exact .inr ⟨_, by rw [newSerialGraphT, hok]; rfl, le_rfl, by decide, hle⟩

lemma append_leaves (h : sg.Sound mem) (hsuffix : suffix.length < 256) :
    Leaves mem (append mem sg suffix) := by
  have hstore {sg' : SerialGraphT} (htext : sg'.text = sg.text)
      (hroom : suffix.length + sg.text.length + 1 ≤ sg'.arrLen) (hlen : sg'.arrLen ≤ sg'.allocated)
      (hlimit : sg'.allocated ≤ mem.limit) : Leaves mem
        (if sg'.allocated < sg'.text.length + suffix.length + 1 then .error (.fault .storePast)
          else .ok { sg' with text := sg'.text ++ suffix }) := by
    rw [if_neg (by rw [htext]; omega)]
    refine .inr ⟨_, rfl, hlen, ?_, hlimit⟩
    dsimp only
    rw [htext, List.length_append]
    omega
  have hlimit := mem.limit_lt
  have htext := h.text_lt
  have harr := h.arrLen_le
  have hall := h.allocated_le
  unfold append
  dsimp only
  by_cases hgrow : sg.arrLen < suffix.length + sg.text.length + 1
  · have hdouble : (suffix.length + sg.text.length + 1) * 2 % 2 ^ 64 =
        (suffix.length + sg.text.length + 1) * 2 := Nat.mod_eq_of_lt (by omega)
    rw [if_pos hgrow, hdouble]
    rcases alloc_cases mem ((suffix.length + sg.text.length + 1) * 2) with ⟨-, hfail⟩ | ⟨hle, hok⟩
    · rw [hfail]
      exact .inl rfl
    · rw [hok]
      exact hstore rfl (by dsimp only; omega) le_rfl hle
  · rw [if_neg hgrow]
    exact hstore rfl (by omega) harr hall

lemma format_ok {hoststr : Text} (h : hoststr.length < 256) : format hoststr = .ok hoststr :=
  if_pos h

/-- Ports have five digits. -/
lemma length_paddedPort (port : Port) : (paddedPort port).length = 5 := by
  have hdigits : (Nat.toDigits 10 port.toNat).length ≤ 5 :=
    (Nat.length_toDigits_le_iff (by decide) (by decide)).mpr (by omega)
  rw [paddedPort, List.length_append, List.length_replicate]
  omega

lemma length_nodeKey (hostName : Text) (port port' : Port) (rank : Rank) :
    (nodeKey hostName port rank).length = (nodeKey hostName port' rank).length := by
  simp only [nodeKey, nodeText, List.length_append, length_paddedPort]

lemma findText_fits {text key : Text} {i : ℕ} (h : findText text key 0 = some i) :
    i + key.length ≤ text.length := by
  obtain ⟨j, hj, rfl⟩ := Option.map_eq_some_iff.mp h
  obtain ⟨hlt, hkey, -⟩ := List.findIdx?_eq_some_iff_getElem.mp hj
  rw [List.getElem_tails, List.isPrefixOf_iff_prefix] at hkey
  have hle := hkey.length_le
  rw [List.drop_zero, List.length_drop] at hle
  rw [List.drop_zero, List.length_tails] at hlt
  omega

/-- The text keeps its length, and ten bytes are allocated beyond it. -/
lemma setPort_found (mem : Memory) (hfits : (nodeKey hostName port rank).length < 256)
    (hfound : findText sg.text (nodeKey hostName unknownPort rank) 0 ≠ none) :
    mem.limit < sg.text.length + 10 ∧ setPort mem hostName port rank sg = .error .refused ∨
      sg.text.length + 10 ≤ mem.limit ∧ ∃ text, text.length = sg.text.length ∧
        setPort mem hostName port rank sg =
          .ok ({ sg with text, allocated := sg.text.length + 10 }, true) := by
  have hlength := length_nodeKey hostName unknownPort port rank
  obtain ⟨i, hi⟩ := Option.ne_none_iff_exists'.mp hfound
  have hle := findText_fits hi
  rw [setPort, format_ok (hlength ▸ hfits), ok_bind, format_ok hfits, ok_bind]
  rcases alloc_cases mem (sg.text.length + 10) with ⟨hlimit, hfail⟩ | ⟨hlimit, hok⟩
  · rw [hfail]
    exact .inl ⟨hlimit, rfl⟩
  · have hsame : (sg.text.take i ++ nodeKey hostName port rank ++
        sg.text.drop (i + (nodeKey hostName unknownPort rank).length)).length = sg.text.length := by
      rw [List.length_append, List.length_append, List.length_take_of_le (by omega),
        List.length_drop]
      omega
    refine .inr ⟨hlimit, _, hsame, ?_⟩
    rw [hok, ok_bind, hi]
    exact if_neg (by omega)

lemma setPort_unfound (mem : Memory) (hfits : (nodeKey hostName port rank).length < 256)
    (hmissing : findText sg.text (nodeKey hostName unknownPort rank) 0 = none) :
    setPort mem hostName port rank sg = .error .refused ∨
      setPort mem hostName port rank sg = .ok (sg, false) := by
  have hlength := length_nodeKey hostName unknownPort port rank
  rw [setPort, format_ok (hlength ▸ hfits), ok_bind, format_ok hfits, ok_bind]
  rcases alloc_cases mem (sg.text.length + 10) with ⟨-, hfail⟩ | ⟨-, hok⟩
  · rw [hfail]
    exact .inl rfl
  · rw [hok, ok_bind, hmissing]
    exact .inr rfl

end Graph

variable {mem : Memory} {graphs : List SerialGraphT} {op : Op}

def AllSound (mem : Memory) (graphs : List SerialGraphT) : Prop := ∀ sg ∈ graphs, sg.Sound mem

lemma AllSound.inBounds (h : AllSound mem graphs) : InBounds (.ok graphs) :=
  fun sg hsg => ⟨(h sg hsg).arrLen_le, (h sg hsg).text_lt⟩

lemma refused_inBounds : InBounds (.error .refused) := fun h => by cases h

lemma update_sound {i : ℕ} {f : SerialGraphT → Outcome SerialGraphT} (h : AllSound mem graphs)
    (hf : ∀ sg, graphs[i]? = some sg → sg.Sound mem → Leaves mem (f sg)) :
    Keeps (AllSound mem) InBounds (update .refused graphs i f) := by
  refine update_keeps h refused_inBounds fun sg hi hsg => ?_
  rcases hf sg hi hsg with hfail | ⟨sg', hok, hsound⟩
  · exact .inr ⟨_, hfail, refused_inBounds⟩
  · exact .inl ⟨sg', hok, hsound⟩

lemma perform_keeps (h : AllSound mem graphs) (hadmits : Admits graphs op) :
    Keeps (AllSound mem) InBounds (perform mem graphs op) := by
  cases op with
  | newSerialGraph ibyteArray =>
      rcases newSerialGraphT_leaves mem ibyteArray with hfail | ⟨sg, hok, hsg⟩
      · rw [perform, hfail]
        exact .inr ⟨_, rfl, refused_inBounds⟩
      · rw [perform, hok]
        refine .inl ⟨graphs ++ [sg], rfl, fun sg' hsg' => ?_⟩
        rcases List.mem_append.mp hsg' with hsg' | hsg'
        · exact h sg' hsg'
        · exact List.mem_singleton.mp hsg' ▸ hsg
  | addLeaf i hostName port rank fits =>
      refine update_sound h fun sg _ hsg => ?_
      rw [addLeaf, format_ok fits]
      exact append_leaves hsg fits
  | addSubTreeRoot i hostName port rank fits =>
      refine update_sound h fun sg _ hsg => ?_
      rw [addSubTreeRoot, format_ok fits]
      exact append_leaves hsg fits
  | endSubTree i => exact update_sound h fun sg _ hsg => append_leaves hsg (by decide)
  | setPort i hostName port rank fits =>
      refine update_sound h fun sg hi hsg => ?_
      by_cases hfound : findText sg.text (nodeKey hostName unknownPort rank) 0 = none
      · rcases setPort_unfound mem fits hfound with hfail | hok
        · exact .inl (by rw [hfail]; rfl)
        · exact .inr ⟨sg, by rw [hok]; rfl, hsg⟩
      · rcases setPort_found mem fits hfound with ⟨-, hfail⟩ | ⟨hlimit, text, hlength, hok⟩
        · exact .inl (by rw [hfail]; rfl)
        · refine .inr ⟨_, by rw [hok]; rfl, hadmits sg hi hfound, ?_, hlimit⟩
          exact hlength ▸ hsg.text_lt

/-- What is not admitted leaves a block that is too small. -/
lemma perform_leaves (h : AllSound mem graphs) (hadmits : ¬Admits graphs op) :
    ¬InBounds (perform mem graphs op) := by
  cases op with
  | setPort i hostName port rank fits =>
      simp only [Admits, not_forall, not_le] at hadmits
      obtain ⟨sg, hi, hfound, hsmall⟩ := hadmits
      have hsound := h sg (List.mem_of_getElem? hi)
      have harr := hsound.arrLen_le
      have hall := hsound.allocated_le
      rcases setPort_found mem fits hfound with ⟨hlimit, -⟩ | ⟨-, text, -, hok⟩
      · omega
      · rw [perform, update_some hi, hok]
        intro hin
        have hmem := List.mem_set (List.getElem?_eq_some_iff.mp hi).1
          { sg with text, allocated := sg.text.length + 10 }
        have hle := (hin _ hmem).1
        dsimp only at hle
        omega
  | newSerialGraph | addLeaf | addSubTreeRoot | endSubTree => exact absurd trivial hadmits

lemma monitored (mem : Memory) : Monitored (perform mem) (AllSound mem) Admits InBounds :=
  ⟨AllSound.inBounds, perform_keeps, perform_leaves⟩

/-- The buffers are as large as their lengths say in a whole run exactly if each of its
operations is admitted. -/
theorem buffers_inBounds_iff (mem : Memory) (ops : List Op) :
    (∀ pre, pre <+: ops → InBounds (run (perform mem) [] pre)) ↔
      Admitted (perform mem) Admits [] ops :=
  (monitored mem).run_inBounds_iff fun _ hsg => absurd hsg List.not_mem_nil

/-- The port of the only node is set, and then a leaf is written beyond the new block. -/
theorem buffers_not_inBounds : ¬∀ (mem : Memory) (ops pre : List Op), pre <+: ops →
    InBounds (run (perform mem) [] pre) := by
  intro hbounds
  have hwhole (mem : Memory) (ops : List Op) {r : Outcome (List SerialGraphT)}
      (h : run (perform mem) [] ops = r) : InBounds r := h ▸ hbounds mem ops ops List.prefix_rfl
  have hrun : run (perform ⟨4096, by decide⟩) [] [.newSerialGraph none,
      .addSubTreeRoot 0 ['h'] unknownPort 0 (by decide), .setPort 0 ['h'] 5000 0 (by decide),
      .addLeaf 0 ['h'] unknownPort 1 (by decide)] = .error (.fault .storePast) := by
    decide +kernel
  exact hwhole _ _ hrun rfl

end MRNet.SerialGraph.Lightweight
