import Mathlib.Data.List.SplitLengths
import MRNet.Buffers
import MRNet.Grouping
import MRNet.PacketArguments

/-!
# Equivalence classes

Translation of `tfilter_IntEqClass` of `FilterDefinitions.C`. A packet has the values of some
classes, the number of members of each class, and all the members one class after the other.
The constructor of the packet encodes the arrays, which it does if none has more than 2^31 - 1
elements.
-/
namespace MRNet.Filters
open Codec Buffers Grouping NativeBytes Std
open Wire (CString DataElement Host Sendable ascii elementsForm int32Max unknownRank)

/-- An array of the directive `%aud`. -/
abbrev UIntArray := ArrayArg (BitVec 32)

structure ClassPacket where
  streamId : BitVec 32
  tag : BitVec 32
  vals : UIntArray
  memcnts : UIntArray
  mems : UIntArray

abbrev Classes := TreeMap (BitVec 32) (List (BitVec 32))

/-- The members of one class, from an index on. -/
def addMembers (mems : UIntArray) (curClassMemIdx val memcnt : BitVec 32) (classes : Classes) :
    Outcome Classes :=
  (List.range memcnt.toNat).foldlM (fun classes k =>
    match mems.elements[(curClassMemIdx + BitVec.ofNat 32 k).toNat]? with
    | none => .error (.fault .readPast)
    | some m => return push classes val m) classes

/-- The loop over the classes of a packet, with the index of the next member. -/
def addClasses (mems : UIntArray) (cs : List (BitVec 32 × BitVec 32))
    (s : Classes × BitVec 32) : Outcome (Classes × BitVec 32) :=
  cs.foldlM (fun s c => do
    let classes ← addMembers mems s.2 c.1 c.2 s.1
    return (classes, s.2 + c.2)) s

def addPacket (classes : Classes) (curPacket : ClassPacket) : Outcome Classes :=
  if curPacket.vals.elements.length ≠ curPacket.memcnts.elements.length then
    .error (.fault .assertion)
  else do
    let s ← addClasses curPacket.mems
      (curPacket.vals.elements.zip curPacket.memcnts.elements) (classes, 0)
    return s.1

/-- The loop that copies the members of every class, with the index of the next one. -/
def copyClasses (cs : List (List (BitVec 32) × BitVec 32))
    (s : Block (BitVec 32) × BitVec 32) : Outcome (Block (BitVec 32) × BitVec 32) :=
  cs.foldlM (fun s c => do
    let mems ← copyInto s.1 s.2.toNat c.1 c.2.toNat
    return (mems, s.2 + c.2)) s

def classFormat : CString :=
  ⟨ascii ['%', 'a', 'u', 'd', ' ', '%', 'a', 'u', 'd', ' ', '%', 'a', 'u', 'd'], by decide⟩

lemma UIntArray.fits (a : UIntArray) : a.elements.length * 4 < 2 ^ 64 := by
  have := a.length_lt
  omega

def UIntArray.dataElement (a : UIntArray) : DataElement :=
  ⟨.uint32Array, (⟨a.elements, a.fits⟩ : Wire.CArray (BitVec 32) 4)⟩

def ClassPacket.dataElements (p : ClassPacket) : List DataElement :=
  [p.vals.dataElement, p.memcnts.dataElement, p.mems.dataElement]

/-- The constructor of the packet, which encodes its data. -/
def newClassPacket (host : Host) (streamId tag : BitVec 32) (vals memcnts mems : UIntArray) :
    Outcome ClassPacket := do
  let p : ClassPacket := ⟨streamId, tag, vals, memcnts, mems⟩
  let _ ← Wire.Packet.create host unknownRank streamId tag (some classFormat.chars) p.dataElements
  return p

/-- Sizes and indices are `unsigned int`. -/
def buildPacket (host : Host) (streamId tag : BitVec 32)
    (classes : List (BitVec 32 × List (BitVec 32))) : Outcome ClassPacket := do
  let values := classes.map Prod.fst
  let memcnts := classes.map fun c => BitVec.ofNat 32 c.2.length
  let nMems := memcnts.sum
  let s ← copyClasses ((classes.map Prod.snd).zip memcnts) (allocate _ nMems.toNat, 0)
  let mems ← (List.range nMems.toNat).mapM (readAt s.1)
  newClassPacket host streamId tag (.pass values classes.length) (.pass memcnts classes.length)
    (.pass mems nMems.toNat)

/-- Without a packet, the first one is not there to take the stream from. -/
def tfilterIntEqClass (host : Host) (ipackets : List ClassPacket) :
    Outcome (List ClassPacket) := do
  let classes ← ipackets.foldlM addPacket ∅
  match ipackets with
  | [] => .error (.fault .readPast)
  | p :: _ => do
      let newPacket ← buildPacket host p.streamId p.tag classes.toList
      return [newPacket]

namespace ClassPacket

/-- The classes of a packet with their members. -/
def classes (p : ClassPacket) : List (BitVec 32 × List (BitVec 32)) :=
  p.vals.elements.zip ((p.memcnts.elements.map BitVec.toNat).splitLengths p.mems.elements)

/-- The members for a value, over its occurrences in a packet. -/
def membersFor (v : BitVec 32) (p : ClassPacket) : List (BitVec 32) :=
  membersOf v (entries p.classes)

structure WellFormed (p : ClassPacket) : Prop where
  counts : p.vals.elements.length = p.memcnts.elements.length
  total : (p.memcnts.elements.map BitVec.toNat).sum = p.mems.elements.length

end ClassPacket

/-- The number of all members. -/
def totalMembers (ps : List ClassPacket) : ℕ := (ps.map fun p => p.mems.elements.length).sum

lemma addMembers_eq {mems : UIntArray} {before ms after : List (BitVec 32)}
    (hmems : mems.elements = before ++ (ms ++ after)) {idx memcnt : BitVec 32}
    (hidx : idx.toNat = before.length) (hmemcnt : memcnt.toNat = ms.length) (val : BitVec 32)
    (classes : Classes) :
    addMembers mems idx val memcnt classes =
      .ok (ms.foldl (fun classes m => push classes val m) classes) := by
  have hlt := mems.length_lt
  rw [hmems, List.length_append, List.length_append] at hlt
  have hpure : ms.foldlM (fun classes m => (return push classes val m : Outcome Classes)) classes =
      .ok (ms.foldl (fun classes m => push classes val m) classes) := List.foldlM_pure
  rw [addMembers, hmemcnt, ← hpure]
  apply foldlM_range
  intro k m hk classes
  have hkms := (List.getElem?_eq_some_iff.mp hk).1
  have hindex : (idx + BitVec.ofNat 32 k).toNat = before.length + k := by
    rw [BitVec.toNat_add, BitVec.toNat_ofNat, hidx]
    omega
  have hget : mems.elements[before.length + k]? = some m := by
    rw [hmems, List.getElem?_append_right (by omega), Nat.add_sub_cancel_left,
      List.getElem?_append_left hkms, hk]
  simp only [hindex, hget]

/-- The index runs along the members of the classes. -/
lemma addClasses_groups {mems : UIntArray} {cs : List (BitVec 32 × BitVec 32)}
    {before after : List (BitVec 32)} (hmems : mems.elements = before ++ after)
    (htotal : (cs.map fun c => c.2.toNat).sum = after.length) {idx : BitVec 32}
    (hidx : idx.toNat = before.length) {listed : List (BitVec 32 × BitVec 32)} {classes : Classes}
    (h : Groups listed classes) :
    ∃ classes' idx', addClasses mems cs (classes, idx) = .ok (classes', idx') ∧
      Groups (listed ++ entries ((cs.map Prod.fst).zip
        ((cs.map fun c => c.2.toNat).splitLengths after))) classes' := by
  induction cs generalizing before after idx listed classes with
  | nil => exact ⟨classes, idx, rfl, by simpa [entries] using h⟩
  | cons c cs ih =>
      rw [List.map_cons, List.sum_cons] at htotal
      have hsplit : after.take c.2.toNat ++ after.drop c.2.toNat = after := List.take_append_drop _ _
      have htake : c.2.toNat = (after.take c.2.toNat).length := by
        rw [List.length_take]
        omega
      have hlt := mems.length_lt
      rw [hmems, List.length_append] at hlt
      have hmembers := addMembers_eq (hmems.trans (by rw [hsplit])) hidx htake c.1 classes
      have hmems' : mems.elements = (before ++ after.take c.2.toNat) ++ after.drop c.2.toNat := by
        rw [List.append_assoc, hsplit, hmems]
      have hidx' : (idx + c.2).toNat = (before ++ after.take c.2.toNat).length := by
        rw [BitVec.toNat_add, List.length_append, ← htake, hidx]
        omega
      have htotal' : (cs.map fun c => c.2.toNat).sum = (after.drop c.2.toNat).length := by
        rw [List.length_drop]
        omega
      obtain ⟨classes', idx', hrest, hgroups⟩ :=
        ih hmems' htotal' hidx' (h.pushes c.1 (after.take c.2.toNat))
      refine ⟨classes', idx', ?_, ?_⟩
      · rw [addClasses, List.foldlM_cons, hmembers, ok_bind]
        exact hrest
      · rw [List.append_assoc] at hgroups
        rw [List.map_cons, List.map_cons, List.splitLengths_cons, List.zip_cons_cons]
        exact hgroups

theorem addPacket_groups {p : ClassPacket} (hp : p.WellFormed)
    {listed : List (BitVec 32 × BitVec 32)} {classes : Classes} (h : Groups listed classes) :
    ∃ classes', addPacket classes p = .ok classes' ∧
      Groups (listed ++ entries p.classes) classes' := by
  have hfst : (p.vals.elements.zip p.memcnts.elements).map Prod.fst = p.vals.elements :=
    List.map_fst_zip hp.counts.le
  have hsnd : (p.vals.elements.zip p.memcnts.elements).map (fun c => c.2.toNat) =
      p.memcnts.elements.map BitVec.toNat := by
    have hmap := congrArg (List.map BitVec.toNat) (List.map_snd_zip hp.counts.ge)
    rw [List.map_map] at hmap
    exact hmap
  have hstart : p.mems.elements = [] ++ p.mems.elements := rfl
  have hidx : (0 : BitVec 32).toNat = ([] : List (BitVec 32)).length := rfl
  obtain ⟨classes', idx', hadd, hgroups⟩ :=
    addClasses_groups hstart (hsnd ▸ hp.total) hidx h
  refine ⟨classes', ?_, ?_⟩
  · rw [addPacket, if_neg (not_not.mpr hp.counts), hadd]
    rfl
  · rw [hfst, hsnd] at hgroups
    exact hgroups

theorem addPackets_groups {ps : List ClassPacket} (hps : ∀ p ∈ ps, p.WellFormed)
    {listed : List (BitVec 32 × BitVec 32)} {classes : Classes} (h : Groups listed classes) :
    ∃ classes', ps.foldlM addPacket classes = .ok classes' ∧
      Groups (listed ++ ps.flatMap fun p => entries p.classes) classes' := by
  induction ps generalizing listed classes with
  | nil => exact ⟨classes, rfl, by simpa using h⟩
  | cons p ps ih =>
      obtain ⟨hp, hrest⟩ := List.forall_mem_cons.mp hps
      obtain ⟨classes₁, hadd, hgroups⟩ := addPacket_groups hp h
      obtain ⟨classes', hadds, hgroups'⟩ := ih hrest hgroups
      refine ⟨classes', ?_, ?_⟩
      · rw [List.foldlM_cons, hadd, ok_bind, hadds]
      · rw [List.append_assoc] at hgroups'
        exact hgroups'

lemma splitLengths_flatten (xss : List (List α)) :
    (xss.map List.length).splitLengths xss.flatten = xss := by
  induction xss with
  | nil => rfl
  | cons xs xss ih =>
      rw [List.map_cons, List.flatten_cons, List.splitLengths_cons, List.take_left, List.drop_left, ih]

lemma toNat_length {xss : List (List α)} {n : ℕ} (hlt : (xss.map List.length).sum < n) {xs : List α}
    (hxs : xs ∈ xss) : xs.length < n :=
  (List.single_le_sum (fun _ _ => Nat.zero_le _) _ (List.mem_map_of_mem hxs)).trans_lt hlt

/-- The sizes of the classes, which do not wrap. -/
lemma sizes_toNat {xss : List (List α)} (hlt : (xss.map List.length).sum < 2 ^ 32) :
    (xss.map fun xs => BitVec.ofNat 32 xs.length).map BitVec.toNat = xss.map List.length := by
  rw [List.map_map]
  apply List.map_congr_left
  intro xs hxs
  exact Nat.mod_eq_of_lt (toNat_length hlt hxs)

lemma sum_toNat {cs : List (BitVec 32)} (hlt : (cs.map BitVec.toNat).sum < 2 ^ 32) :
    cs.sum.toNat = (cs.map BitVec.toNat).sum := by
  induction cs with
  | nil => rfl
  | cons c cs ih =>
      rw [List.map_cons, List.sum_cons] at hlt
      rw [List.map_cons, List.sum_cons, List.sum_cons, BitVec.toNat_add, ih (by omega),
        Nat.mod_eq_of_lt hlt]

lemma copyClasses_filled {xss : List (List (BitVec 32))} {written : List (BitVec 32)}
    {idx : BitVec 32} (hidx : idx.toNat = written.length)
    (hlt : written.length + (xss.map List.length).sum < 2 ^ 32) :
    ∃ idx', copyClasses (xss.zip (xss.map fun xs => BitVec.ofNat 32 xs.length))
        (filled written (xss.map List.length).sum, idx) =
      .ok (filled (written ++ xss.flatten) 0, idx') := by
  induction xss generalizing written idx with
  | nil =>
      rw [List.flatten_nil, List.append_nil]
      exact ⟨idx, rfl⟩
  | cons xs xss ih =>
      rw [List.map_cons, List.sum_cons] at hlt
      have hcount : (BitVec.ofNat 32 xs.length).toNat = xs.length := by
        rw [BitVec.toNat_ofNat]
        omega
      have hidx' : (idx + BitVec.ofNat 32 xs.length).toNat = (written ++ xs).length := by
        rw [BitVec.toNat_add, hcount, hidx, List.length_append]
        omega
      have hcopy := copyInto_filled hidx (Nat.le_refl xs.length)
        (Nat.le_add_right xs.length (xss.map List.length).sum)
      rw [List.take_length, Nat.add_sub_cancel_left] at hcopy
      obtain ⟨idx', hrest⟩ := ih hidx' (by rw [List.length_append]; omega)
      refine ⟨idx', ?_⟩
      rw [List.map_cons, List.map_cons, List.zip_cons_cons, List.sum_cons, copyClasses,
        List.foldlM_cons]
      simp only [hcount, hcopy, ok_bind]
      rw [List.flatten_cons, ← List.append_assoc, ← hrest]
      rfl

section Encoding
variable {host : Host} {p : ClassPacket}

lemma mem_dataElements {e : DataElement} (he : e ∈ p.dataElements) :
    ∃ a : UIntArray, e = a.dataElement ∧ (a = p.vals ∨ a = p.memcnts ∨ a = p.mems) := by
  rcases List.mem_cons.mp he with rfl | he
  · exact ⟨_, rfl, .inl rfl⟩
  rcases List.mem_cons.mp he with rfl | he
  · exact ⟨_, rfl, .inr (.inl rfl)⟩
  · exact ⟨_, List.mem_singleton.mp he, .inr (.inr rfl)⟩

lemma shortStrings (e : DataElement) (he : e ∈ p.dataElements) : e.ShortStrings := by
  obtain ⟨a, rfl, -⟩ := mem_dataElements he
  exact fun _ hblock => absurd hblock List.not_mem_nil

lemma sendable (hvals : p.vals.elements.length ≤ int32Max)
    (hmemcnts : p.memcnts.elements.length ≤ int32Max) (hmems : p.mems.elements.length ≤ int32Max) :
    Sendable int32Max classFormat.chars p.dataElements := by
  refine ⟨classFormat.plain, by decide, rfl, fun e he => ?_⟩
  obtain ⟨a, rfl, ha⟩ := mem_dataElements he
  refine ⟨fun _ => ?_, fun _ hsp => absurd hsp List.not_mem_nil⟩
  rcases ha with rfl | rfl | rfl
  · exact hvals
  · exact hmemcnts
  · exact hmems

lemma elementsForm_lt (o : ByteOrder) : (elementsForm o p.dataElements).length < 2 ^ 64 := by
  have hone : ∀ a : UIntArray, (Wire.elementForm o a.dataElement.type a.dataElement.val).length <
      2 ^ 34 + 8 := by
    intro a
    have hlength : (Wire.elementForm o a.dataElement.type a.dataElement.val).length =
        8 + (a.elements.flatMap (NativeBytes.nativeBytes o)).length := by
      show (Wire.arrayForm o (NativeBytes.nativeBytes o) a.elements).length = _
      rw [Wire.arrayForm, List.length_append, NativeBytes.nativeBytes_length]
    have hwords : (a.elements.flatMap (NativeBytes.nativeBytes o)).length =
        4 * a.elements.length := by
      rw [List.length_flatMap, List.map_congr_left fun w _ => NativeBytes.nativeBytes_length o w]
      simp [Nat.mul_comm]
    have := a.length_lt
    omega
  have hvals := hone p.vals
  have hmemcnts := hone p.memcnts
  have hmems := hone p.mems
  rw [ClassPacket.dataElements, elementsForm, List.flatMap_cons, List.flatMap_cons,
    List.flatMap_singleton, List.length_append, List.length_append]
  omega

/-- Arrays that are not too long are encoded. -/
lemma newClassPacket_ok (hvals : p.vals.elements.length ≤ int32Max)
    (hmemcnts : p.memcnts.elements.length ≤ int32Max) (hmems : p.mems.elements.length ≤ int32Max) :
    newClassPacket host p.streamId p.tag p.vals p.memcnts p.mems = .ok p := by
  obtain ⟨q, hq⟩ := Wire.create_ok host unknownRank p.streamId p.tag shortStrings
    (elementsForm_lt host.bo) (sendable hvals hmemcnts hmems)
  rw [newClassPacket, hq]
  rfl

/-- For an array that is too long the size is not known, which an assertion excludes. -/
lemma newClassPacket_fault (host : Host) (hmems : int32Max < p.mems.elements.length) :
    ∃ e, newClassPacket host p.streamId p.tag p.vals p.memcnts p.mems = .error (.fault e) := by
  have hmem : Wire.sentElement int32Max host.bo p.mems.dataElement.type p.mems.dataElement.val =
      none := if_neg hmems.not_ge
  have htoks : Wire.Tokenizer.tokens classFormat.chars Wire.delim =
      [ascii ['a', 'u', 'd'], ascii ['a', 'u', 'd'], ascii ['a', 'u', 'd']] := by
    decide
  have hnone : Wire.sentData int32Max host.bo (some classFormat.block) p.dataElements = none := by
    rw [CString.block, Wire.sentData]
    simp only [Wire.cString_terminated classFormat.plain, htoks, ClassPacket.dataElements,
      Wire.sentElements, hmem]
    cases Wire.sentElement int32Max host.bo p.vals.dataElement.type p.vals.dataElement.val <;>
      cases Wire.sentElement int32Max host.bo p.memcnts.dataElement.type
        p.memcnts.dataElement.val <;> rfl
  obtain ⟨e, he⟩ := @Wire.create_faults host unknownRank p.streamId p.tag _ _ hnone
  refine ⟨e, ?_⟩
  rw [newClassPacket]
  simp only [he]
  rfl

end Encoding

/-- The packet that is built of some classes, before it is encoded. -/
lemma buildPacket_eq (host : Host) (streamId tag : BitVec 32)
    {cs : List (BitVec 32 × List (BitVec 32))} (hcs : cs.length < 2 ^ 32)
    (hlt : ((cs.map Prod.snd).map List.length).sum < 2 ^ 32) :
    ∃ q : ClassPacket, buildPacket host streamId tag cs =
        newClassPacket host q.streamId q.tag q.vals q.memcnts q.mems ∧
      q.streamId = streamId ∧ q.tag = tag ∧ q.vals.elements = cs.map Prod.fst ∧
      q.memcnts.elements = (cs.map fun c => BitVec.ofNat 32 c.2.length) ∧
      q.mems.elements = (cs.map Prod.snd).flatten := by
  have hsizes := sizes_toNat hlt
  have hcounts : (cs.map fun c => BitVec.ofNat 32 c.2.length) =
      (cs.map Prod.snd).map fun xs => BitVec.ofNat 32 xs.length := by
    rw [List.map_map]
    rfl
  have hnMems : ((cs.map Prod.snd).map fun xs => BitVec.ofNat 32 xs.length).sum.toNat =
      ((cs.map Prod.snd).map List.length).sum := by
    rw [sum_toNat (hsizes ▸ hlt), hsizes]
  have hstart : (0 : BitVec 32).toNat = ([] : List (BitVec 32)).length := rfl
  obtain ⟨idx', hcopy⟩ := copyClasses_filled hstart (by rw [List.length_nil, Nat.zero_add]; exact hlt)
  have hflatten : (cs.map Prod.snd).flatten.length = ((cs.map Prod.snd).map List.length).sum :=
    List.length_flatten
  have hread := mapM_readAt_written (cs.map Prod.snd).flatten []
  rw [hflatten, List.append_nil] at hread
  have hfilled : allocate (BitVec 32) ((cs.map Prod.snd).map List.length).sum =
      filled [] ((cs.map Prod.snd).map List.length).sum := allocate_eq_filled _
  have hcells : filled (cs.map Prod.snd).flatten 0 = (cs.map Prod.snd).flatten.map some :=
    List.append_nil _
  refine ⟨⟨streamId, tag, .pass (cs.map Prod.fst) cs.length,
    .pass (cs.map fun c => BitVec.ofNat 32 c.2.length) cs.length,
    .pass (cs.map Prod.snd).flatten ((cs.map Prod.snd).map List.length).sum⟩, ?_, rfl, rfl,
    ArrayArg.pass_elements (List.length_map Prod.fst) hcs,
    ArrayArg.pass_elements (List.length_map fun c : BitVec 32 × List (BitVec 32) =>
      BitVec.ofNat 32 c.2.length) hcs, ArrayArg.pass_elements hflatten hlt⟩
  simp only [buildPacket, hcounts, hnMems, hfilled, hcopy, ok_bind, List.nil_append, hcells, hread]

/-- A packet that is built has the classes it is built from. -/
theorem buildPacket_classes (host : Host) (streamId tag : BitVec 32)
    {cs : List (BitVec 32 × List (BitVec 32))} (hcs : cs.length ≤ int32Max)
    (hmax : ((cs.map Prod.snd).map List.length).sum ≤ int32Max) :
    ∃ q, buildPacket host streamId tag cs = .ok q ∧ q.WellFormed ∧
      q.vals.elements = cs.map Prod.fst ∧
      q.memcnts.elements.map BitVec.toNat = (cs.map Prod.snd).map List.length ∧
      q.classes = cs := by
  have hlt : ((cs.map Prod.snd).map List.length).sum < 2 ^ 32 := hmax.trans_lt (by decide)
  obtain ⟨q, hbuild, -, -, hvals, hmemcnts, hmems⟩ :=
    buildPacket_eq host streamId tag (hcs.trans_lt (by decide)) hlt
  have hcounts : q.memcnts.elements.map BitVec.toNat = (cs.map Prod.snd).map List.length := by
    rw [hmemcnts, ← sizes_toNat hlt, List.map_map, List.map_map, List.map_map]
    rfl
  have hflatten : q.mems.elements.length = ((cs.map Prod.snd).map List.length).sum := by
    rw [hmems, List.length_flatten]
  have hzip : (cs.map Prod.fst).zip (cs.map Prod.snd) = cs := (List.zip_of_prod rfl rfl).symm
  refine ⟨q, hbuild.trans (newClassPacket_ok ?_ ?_ ?_), ⟨?_, ?_⟩, hvals, hcounts, ?_⟩
  · rwa [hvals, List.length_map]
  · rwa [hmemcnts, List.length_map]
  · rwa [hflatten]
  · rw [hvals, hmemcnts, List.length_map, List.length_map]
  · rw [hcounts, hflatten]
  · rw [ClassPacket.classes, hvals, hcounts, hmems, splitLengths_flatten, hzip]

/-- All that the packets list. -/
def listedIn (ps : List ClassPacket) : List (BitVec 32 × BitVec 32) :=
  ps.flatMap fun p => entries p.classes

lemma length_entries (cs : List (BitVec 32 × List (BitVec 32))) :
    (entries cs).length = ((cs.map Prod.snd).map List.length).sum := by
  rw [entries, List.length_flatMap, List.map_map]
  congr 1
  exact List.map_congr_left fun c _ => List.length_map _

lemma ClassPacket.WellFormed.length_listed {p : ClassPacket} (hp : p.WellFormed) :
    (entries p.classes).length = p.mems.elements.length := by
  have hlength : p.vals.elements.length =
      ((p.memcnts.elements.map BitVec.toNat).splitLengths p.mems.elements).length := by
    rw [List.length_splitLengths, List.length_map, hp.counts]
  rw [length_entries, ClassPacket.classes, List.map_snd_zip hlength.ge,
    List.map_splitLengths_length _ _ hp.total.le, hp.total]

lemma length_listedIn {ps : List ClassPacket} (hps : ∀ p ∈ ps, p.WellFormed) :
    (listedIn ps).length = totalMembers ps := by
  rw [listedIn, List.length_flatMap, totalMembers]
  congr 1
  exact List.map_congr_left fun p hp => (hps p hp).length_listed

lemma membersOf_listedIn (v : BitVec 32) (ps : List ClassPacket) :
    membersOf v (listedIn ps) = ps.flatMap (ClassPacket.membersFor v) :=
  membersOf_flatMap v _ ps

/-- The packet has the map of some classes. -/
structure Encodes (q : ClassPacket) (listed : List (BitVec 32 × BitVec 32)) : Prop where
  wellFormed : q.WellFormed
  membersFor : ∀ v, q.membersFor v = membersOf v listed
  ascending : q.vals.elements.Pairwise (· < ·)
  nonzero : ∀ c ∈ q.memcnts.elements, c ≠ 0

/-- The classes of well-formed packets, whose members are those of the packets. -/
lemma addPackets_sizes {ps : List ClassPacket} (hps : ∀ q ∈ ps, q.WellFormed) :
    ∃ classes : Classes, ps.foldlM addPacket ∅ = .ok classes ∧ Groups (listedIn ps) classes ∧
      classes.toList.length ≤ totalMembers ps ∧
      ((classes.toList.map Prod.snd).map List.length).sum = totalMembers ps := by
  obtain ⟨classes, hadd, hgroups⟩ := addPackets_groups hps Groups.empty
  have hne : ∀ c ∈ classes.toList, c.2 ≠ [] := fun c hc => hgroups.ne_nil hc
  have hlength : (entries classes.toList).length = totalMembers ps :=
    (length_eq_of_membersOf hgroups.membersOf_entries).trans (length_listedIn hps)
  refine ⟨classes, hadd, hgroups, ?_, ?_⟩
  · rw [← hlength]
    exact length_le_length_entries hne
  · rw [← length_entries, hlength]

/-- The result depends on the stream of the first packet and on the members of the values. -/
theorem tfilterIntEqClass_eq (host : Host) {p : ClassPacket} {ps : List ClassPacket}
    (hps : ∀ q ∈ p :: ps, q.WellFormed) (htotal : totalMembers (p :: ps) ≤ int32Max) :
    ∃ classes : Classes, Groups (listedIn (p :: ps)) classes ∧
      ∃ q, tfilterIntEqClass host (p :: ps) = .ok [q] ∧
        buildPacket host p.streamId p.tag classes.toList = .ok q ∧
        Encodes q (listedIn (p :: ps)) := by
  obtain ⟨classes, hadd, hgroups, hcount, hsum⟩ := addPackets_sizes hps
  have hne : ∀ c ∈ classes.toList, c.2 ≠ [] := fun c hc => hgroups.ne_nil hc
  obtain ⟨q, hbuild, hwell, hvals, hmemcnts, hq⟩ := buildPacket_classes host p.streamId p.tag
    (hcount.trans htotal) (hsum.trans_le htotal)
  refine ⟨classes, hgroups, q, ?_, hbuild, hwell, fun v => ?_, ?_, fun c hc hzero => ?_⟩
  · rw [tfilterIntEqClass, hadd, ok_bind]
    simp only [hbuild, ok_bind]
    rfl
  · rw [ClassPacket.membersFor, hq]
    exact hgroups.membersOf_entries v
  · rw [hvals, List.pairwise_map]
    have hlt : ∀ a b : BitVec 32, compare a b = .lt → a < b :=
      fun a b hcmp => compareOfLessAndEq_eq_lt.mp hcmp
    exact (TreeMap.ordered_keys_toList (t := classes)).imp fun hcmp => hlt _ _ hcmp
  · have hmem := List.mem_map_of_mem (f := BitVec.toNat) hc
    rw [hmemcnts, hzero, List.map_map] at hmem
    obtain ⟨d, hd, hlen⟩ := List.mem_map.mp hmem
    exact hne d hd (List.length_eq_zero_iff.mp hlen)

/-- The packet cannot be encoded if there are too many members. -/
theorem tfilterIntEqClass_fault (host : Host) {p : ClassPacket} {ps : List ClassPacket}
    (hps : ∀ q ∈ p :: ps, q.WellFormed) (hmany : int32Max < totalMembers (p :: ps))
    (htotal : totalMembers (p :: ps) < 2 ^ 32) :
    ∃ e, tfilterIntEqClass host (p :: ps) = .error (.fault e) := by
  obtain ⟨classes, hadd, -, hcount, hsum⟩ := addPackets_sizes hps
  obtain ⟨q, hbuild, -, -, -, -, hmems⟩ := buildPacket_eq host p.streamId p.tag
    (hcount.trans_lt htotal) (hsum.trans_lt htotal)
  have hlength : int32Max < q.mems.elements.length := by
    rwa [hmems, List.length_flatten, hsum]
  obtain ⟨e, he⟩ := newClassPacket_fault host hlength
  refine ⟨e, ?_⟩
  rw [tfilterIntEqClass, hadd, ok_bind]
  simp only [hbuild, he]
  rfl

lemma buildPacket_stream {host : Host} {streamId tag : BitVec 32}
    {cs : List (BitVec 32 × List (BitVec 32))} {q : ClassPacket}
    (h : buildPacket host streamId tag cs = .ok q) : q.streamId = streamId ∧ q.tag = tag := by
  obtain ⟨s, -, h⟩ := bind_ok_iff.mp h
  obtain ⟨mems, -, h⟩ := bind_ok_iff.mp h
  obtain ⟨_, -, h⟩ := bind_ok_iff.mp h
  cases h
  exact ⟨rfl, rfl⟩

lemma listedIn_append (ps qs : List ClassPacket) :
    listedIn (ps ++ qs) = listedIn ps ++ listedIn qs :=
  List.flatMap_append

lemma totalMembers_append (ps qs : List ClassPacket) :
    totalMembers (ps ++ qs) = totalMembers ps + totalMembers qs := by
  rw [totalMembers, List.map_append, List.sum_append]
  rfl

/-- The packet stands for a group. -/
structure Replaces (q : ClassPacket) (g : List ClassPacket) : Prop where
  encodes : Encodes q (listedIn g)
  stream : ∃ p ∈ g.head?, q.streamId = p.streamId ∧ q.tag = p.tag

lemma mapM_tfilterIntEqClass (host : Host) {groups : List (List ClassPacket)}
    (hne : ∀ g ∈ groups, g ≠ []) (hwell : ∀ p ∈ groups.flatten, p.WellFormed)
    (htotal : totalMembers groups.flatten ≤ int32Max) :
    ∃ qs, groups.mapM (tfilterIntEqClass host) = .ok (qs.map fun q => [q]) ∧
      List.Forall₂ Replaces qs groups := by
  induction groups with
  | nil => exact ⟨[], rfl, .nil⟩
  | cons g groups ih =>
      obtain ⟨hg, hgroups⟩ := List.forall_mem_cons.mp hne
      rw [List.flatten_cons] at hwell htotal
      rw [totalMembers_append] at htotal
      obtain ⟨qs, hqs, hreplaces⟩ :=
        ih hgroups (fun p hp => hwell p (List.mem_append_right g hp)) (by omega)
      obtain ⟨p, ps, rfl⟩ := List.exists_cons_of_ne_nil hg
      obtain ⟨classes, -, q, hq, hbuild, hencodes⟩ :=
        tfilterIntEqClass_eq host (fun q hq => hwell q (List.mem_append_left _ hq)) (by omega)
      refine ⟨q :: qs, ?_, .cons ⟨hencodes, p, rfl, buildPacket_stream hbuild⟩ hreplaces⟩
      rw [List.mapM_cons, hq, hqs]
      rfl

lemma wellFormed_replaced {qs : List ClassPacket} {groups : List (List ClassPacket)}
    (h : List.Forall₂ Replaces qs groups) : ∀ q ∈ qs, q.WellFormed := by
  induction h with
  | nil => exact fun q hq => nomatch hq
  | cons hq _ ih => exact List.forall_mem_cons.mpr ⟨hq.encodes.wellFormed, ih⟩

/-- What replaces the groups lists the same members. -/
lemma membersOf_replaced {qs : List ClassPacket} {groups : List (List ClassPacket)}
    (h : List.Forall₂ Replaces qs groups) (v : BitVec 32) :
    membersOf v (listedIn qs) = membersOf v (listedIn groups.flatten) := by
  induction h with
  | nil => rfl
  | @cons q g qs groups hq _ ih =>
      have hcons : listedIn (q :: qs) = entries q.classes ++ listedIn qs := rfl
      rw [List.flatten_cons, hcons, membersOf_append, listedIn_append, membersOf_append, ih,
        ← ClassPacket.membersFor, hq.encodes.membersFor]

/-- A packet is made of the packets with the classes of all of them. Filtering some of the
packets first makes no difference. -/
theorem tfilterIntEqClass_merges (host : Host) (p : ClassPacket) (ps : List ClassPacket)
    (hwell : ∀ q ∈ p :: ps, q.WellFormed) (htotal : totalMembers (p :: ps) ≤ int32Max) :
    (∃ q, tfilterIntEqClass host (p :: ps) = .ok [q] ∧ q.WellFormed ∧
        q.vals.elements.Pairwise (· < ·) ∧ (∀ c ∈ q.memcnts.elements, c ≠ 0) ∧
        ∀ v, q.membersFor v = (p :: ps).flatMap (ClassPacket.membersFor v)) ∧
      ∀ groups : List (List ClassPacket), groups.flatten = p :: ps → (∀ g ∈ groups, g ≠ []) →
        ∃ results, groups.mapM (tfilterIntEqClass host) = .ok results ∧
          tfilterIntEqClass host results.flatten = tfilterIntEqClass host (p :: ps) := by
  obtain ⟨classes, hclasses, q, hq, hbuild, hencodes⟩ := tfilterIntEqClass_eq host hwell htotal
  refine ⟨⟨q, hq, hencodes.wellFormed, hencodes.ascending, hencodes.nonzero, fun v => ?_⟩, ?_⟩
  · rw [hencodes.membersFor, membersOf_listedIn]
  · intro groups hflatten hne
    obtain ⟨qs, hqs, hreplaces⟩ :=
      mapM_tfilterIntEqClass host hne (hflatten ▸ hwell) (hflatten ▸ htotal)
    have hsame := membersOf_replaced hreplaces
    rw [hflatten] at hsame
    have hresults : (qs.map fun q => [q]).flatten = qs := by
      rw [← List.flatMap_def, List.flatMap_singleton']
    have hwell' := wellFormed_replaced hreplaces
    refine ⟨_, hqs, ?_⟩
    rw [hresults, hq]
    cases hreplaces with
    | nil => cases hflatten
    | @cons r g rs groups hr hrs =>
        have htotal' : totalMembers (r :: rs) ≤ int32Max := by
          rw [← length_listedIn hwell', length_eq_of_membersOf hsame, length_listedIn hwell]
          exact htotal
        obtain ⟨classes', hclasses', q', hq', hbuild', -⟩ := tfilterIntEqClass_eq host hwell' htotal'
        obtain ⟨p', hp', hstream, htag⟩ := hr.stream
        have hfirst : p' = p := by
          cases g with
          | nil => cases hp'
          | cons a g =>
              cases hp'
              exact (List.cons.inj hflatten).1
        rw [hstream, htag, hfirst, hclasses'.toList_eq hclasses hsame, hbuild] at hbuild'
        cases hbuild'
        exact hq'

/-- A packet with two classes, one of them listed twice. -/
def repeatedClass : ClassPacket where
  streamId := 1
  tag := 7
  vals := ⟨[3, 1, 3], by decide⟩
  memcnts := ⟨[1, 2, 1], by decide⟩
  mems := ⟨[10, 20, 21, 11], by decide⟩

theorem tfilterIntEqClass_merges_repeated :
    (∃ q, tfilterIntEqClass (Host.ample .little) [repeatedClass, repeatedClass] = .ok [q] ∧
        q.membersFor 3 = [10, 11, 10, 11]) ∧
      ∃ results, [[repeatedClass], [repeatedClass]].mapM (tfilterIntEqClass (Host.ample .little)) =
        .ok results ∧ tfilterIntEqClass (Host.ample .little) results.flatten =
          tfilterIntEqClass (Host.ample .little) [repeatedClass, repeatedClass] := by
  have hwell : ∀ q ∈ [repeatedClass, repeatedClass], q.WellFormed := by
    intro q hq
    have hrepeated : q = repeatedClass := by simpa using hq
    rw [hrepeated]
    exact ⟨rfl, rfl⟩
  obtain ⟨⟨q, hq, -, -, -, hmembers⟩, hgroups⟩ :=
    tfilterIntEqClass_merges (Host.ample .little) repeatedClass [repeatedClass] hwell (by decide)
  refine ⟨⟨q, hq, ?_⟩, hgroups [[repeatedClass], [repeatedClass]] rfl (by simp)⟩
  rw [hmembers]
  rfl

/-- One class of 2^30 members. -/
def largeClass : ClassPacket where
  streamId := 1
  tag := 7
  vals := ⟨[5], by decide⟩
  memcnts := ⟨[BitVec.ofNat 32 (2 ^ 30)], by decide⟩
  mems := ⟨List.replicate (2 ^ 30) 9, by rw [List.length_replicate]; decide⟩

lemma largeClass_wellFormed : largeClass.WellFormed := by
  refine ⟨rfl, ?_⟩
  rw [largeClass, List.length_replicate]
  decide

/-- Two packets that can be sent give one that cannot: there are 2^31 members. -/
theorem tfilterIntEqClass_not_merges : largeClass.WellFormed ∧
    largeClass.mems.elements.length ≤ int32Max ∧ totalMembers [largeClass, largeClass] < 2 ^ 32 ∧
    ∀ host, ∃ e, tfilterIntEqClass host [largeClass, largeClass] = .error (.fault e) := by
  have hlength : largeClass.mems.elements.length = 2 ^ 30 := List.length_replicate
  have htotal : totalMembers [largeClass, largeClass] = 2 ^ 31 := by
    rw [totalMembers, List.map_cons, List.map_singleton, hlength]
    rfl
  have hwell : ∀ q ∈ [largeClass, largeClass], q.WellFormed := by
    intro q hq
    have hlarge : q = largeClass := by simpa using hq
    rw [hlarge]
    exact largeClass_wellFormed
  refine ⟨largeClass_wellFormed, ?_, ?_, fun host => tfilterIntEqClass_fault host hwell ?_ ?_⟩
  · rw [hlength]
    decide
  all_goals
    rw [htotal]
    decide

end MRNet.Filters
