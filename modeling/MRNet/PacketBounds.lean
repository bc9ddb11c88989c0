import MRNet.PacketRoundTrip

/-!
# Sizes and bounds of packet encodings

The sizing pass and the writing pass run the same procedures over two tables. They
agree on every packet whose encoding has fewer than 2^64 bytes, the range of the
counter. The reading pass stays inside its blocks except on two kinds of input,
which are described exactly: a string announced with length 0, and an array whose
announced length wraps around when it is turned into bytes.
-/
namespace MRNet.Wire
open NativeBytes Codec

/-- The sizing pass returns `TRUE` with `n` if and only if the writing pass exactly
fills a block of `n` bytes and refuses every smaller block without a fault. -/
def SizingAgrees {α : Type} (host : Host) (func : PDR → Action α) : Prop :=
  ∀ n : BitVec 64, pdrSizeof func = .ok (true, n) ↔
    (∀ block : List Byte, block.length = n.toNat → ∃ v s,
      func (pdrmemCreate host .encode (pdrmemGetbo host)) ⟨block, 0, n.toNat⟩ = .ok (v, s) ∧
        s.space = 0) ∧
    ∀ block : List Byte, block.length < n.toNat →
      func (pdrmemCreate host .encode (pdrmemGetbo host)) ⟨block, 0, block.length⟩ = .error .refused

section Sizing
variable {α : Type} {host : Host} {f : PDR → Action α} {v : α}

lemma sizingAgrees_of_blocks (hsize : (countingSink 64).Blocks (f ⟨.encode, sizeofOps⟩))
    (hput : memorySink.Blocks (f ⟨.encode, pdrmemOps host⟩)) : SizingAgrees host f := by
  intro n
  constructor
  · intro h
    exact absurd h (pdrSizeof_blocks hsize n)
  · rintro ⟨hfill, -⟩
    obtain ⟨r, s, hr, -⟩ := hfill (List.replicate n.toNat 0) List.length_replicate
    rw [pdrmemCreate_encode] at hr
    exact absurd hr (hput _ (by simp [memorySink, Cursor.Valid]) _)

lemma sizingAgrees_of_emits {bs : List Byte}
    (hsize : (countingSink 64).Emits (f ⟨.encode, sizeofOps⟩) v bs)
    (hput : memorySink.Emits (f ⟨.encode, pdrmemOps host⟩) v bs) :
    SizingAgrees host f ↔ bs.length < 2 ^ 64 := by
  have hexact : ∀ n : BitVec 64,
      ((∀ block : List Byte, block.length = n.toNat → ∃ v s,
        f (pdrmemCreate host .encode (pdrmemGetbo host)) ⟨block, 0, n.toNat⟩ = .ok (v, s) ∧
          s.space = 0) ∧
      ∀ block : List Byte, block.length < n.toNat →
        f (pdrmemCreate host .encode (pdrmemGetbo host)) ⟨block, 0, block.length⟩ =
          .error .refused) ↔ n.toNat = bs.length := by
    intro n
    rw [pdrmemCreate_encode]
    constructor
    · rintro ⟨hfill, -⟩
      obtain ⟨r, s, hr, hspace⟩ := hfill (List.replicate n.toNat 0) List.length_replicate
      have hvalid : Cursor.Valid ⟨List.replicate n.toNat 0, 0, n.toNat⟩ := by simp [Cursor.Valid]
      by_cases hlt : n.toNat < bs.length
      · rw [hput.refuses hvalid hlt] at hr
        cases hr
      · rw [hput _ hvalid] at hr
        change Except.map _ (Cursor.put _ bs) = _ at hr
        rw [Cursor.put_eq hvalid, if_pos (by simpa using hlt)] at hr
        cases hr
        simp only [Cursor.overwrite] at hspace
        omega
    · intro hn
      rw [hn]
      refine ⟨fun block hl => ⟨_, _, hput.fills hl, rfl⟩, fun block hl => ?_⟩
      exact hput.refuses (by simp [Cursor.Valid]) hl
  unfold SizingAgrees
  simp only [hexact, pdrSizeof_emits hsize, Except.ok.injEq, Prod.mk.injEq, true_and]
  constructor
  · intro h
    have hn := (h (BitVec.ofNat 64 bs.length)).mp rfl
    rw [← hn]
    exact BitVec.isLt _
  · intro hlt n
    constructor
    · rintro rfl
      rw [BitVec.toNat_ofNat, Nat.mod_eq_of_lt hlt]
    · intro hn
      rw [← hn, BitVec.ofNat_toNat, BitVec.setWidth_eq]

end Sizing

/-- The number of bytes sent, 0 for what is not accepted. -/
def sentSize (sent : Option (List Byte)) : ℕ := (sent.getD []).length

/-- The passes agree if the size is in the range of the counter, and only then. -/
theorem sizingAgrees_iff {α : Type} {host : Host} {f : PDR → Action α} {v : α}
    {e : Option (List Byte)} (hsize : (countingSink 64).Encodes (f ⟨.encode, sizeofOps⟩) v e)
    (hput : memorySink.Encodes (f ⟨.encode, pdrmemOps host⟩) v e) :
    SizingAgrees host f ↔ sentSize e < 2 ^ 64 := by
  cases e with
  | none => exact iff_of_true (sizingAgrees_of_blocks hsize hput) (by simp [sentSize])
  | some bs => exact sizingAgrees_of_emits hsize hput

theorem pdrSizeof_agrees (host : Host) (p : Packet) :
    (SizingAgrees host (fun x => pdrPacketHeader host x p.toHeaderFields) ↔
      sentSize (sentHeader host.bo p.toHeaderFields) < 2 ^ 64) ∧
    (SizingAgrees host (fun x => pdrPacketData host x p.fmtStr p.dataElements) ↔
      sentSize (sentData int32Max host.bo p.fmtStr p.dataElements) < 2 ^ 64) :=
  ⟨sizingAgrees_iff (pdrPacketHeader_encodes host (sizeofOps_feeds host.bo) _)
      (pdrPacketHeader_encodes host (pdrmemOps_feeds host) _),
    sizingAgrees_iff (pdrPacketData_encodes host (sizeofOps_feeds host.bo) _ _)
      (pdrPacketData_encodes host (pdrmemOps_feeds host) _ _)⟩

/-- A packet with the same large array twice. -/
def twiceArray (a : CArray Byte 1) : Packet :=
  { bareHeader (ascii ['%', 'A', 'c', '%', 'A', 'c']) CArray.empty with
    dataElements := [⟨.charLrgArray, a⟩, ⟨.charLrgArray, a⟩] }

lemma twiceArray_sentSize (o : ByteOrder) (a : CArray Byte 1) :
    sentSize (sentData int32Max o (twiceArray a).fmtStr (twiceArray a).dataElements) =
      16 + 2 * a.data.length := by
  have hsend : Sendable int32Max (ascii ['%', 'A', 'c', '%', 'A', 'c'])
      [⟨.charLrgArray, a⟩, ⟨.charLrgArray, a⟩] := by
    refine ⟨by decide, by decide, rfl, fun e he => ?_⟩
    have hee : e = ⟨.charLrgArray, a⟩ := by simpa using he
    rw [hee]
    exact ⟨fun h => (by cases h), fun sp hsp => (by cases hsp)⟩
  have hshort : ∀ e ∈ [(⟨.charLrgArray, a⟩ : DataElement), ⟨.charLrgArray, a⟩],
      e.ShortStrings := by
    intro e he
    have hee : e = ⟨.charLrgArray, a⟩ := by simpa using he
    rw [hee]
    intro block hb
    cases hb
  have hsent := hsend.sentData_eq hshort o
  change sentSize (sentData int32Max o (some (ascii ['%', 'A', 'c', '%', 'A', 'c'] ++ [0])) _) = _
  rw [twiceArray, hsent]
  simp only [sentSize, Option.getD_some, elementsForm, elementForm, arrayForm, List.flatMap_cons,
    List.flatMap_nil, List.append_nil, List.length_append, nativeBytes_length,
    List.flatMap_singleton']
  omega

/-- Half of the address space. -/
def halfArray : CArray Byte 1 where
  data := List.replicate (2 ^ 63) 0
  fits := by rw [List.length_replicate]; decide

theorem halfArray_sizing_disagrees :
    ¬ SizingAgrees (Host.ample .little) (fun x => pdrPacketData (Host.ample .little) x
      (twiceArray halfArray).fmtStr (twiceArray halfArray).dataElements) := by
  have hl : halfArray.data.length = 2 ^ 63 := List.length_replicate
  intro h
  have hlt := (sizingAgrees_iff (pdrPacketData_encodes _ (sizeofOps_feeds .little) _ _)
    (pdrPacketData_encodes _ (pdrmemOps_feeds _) _ _)).mp h
  rw [twiceArray_sentSize, hl] at hlt
  omega

/-- The call succeeds or returns `FALSE`: it makes no access outside a block. -/
def InBounds {α : Type} (r : Outcome α) : Prop := ∀ f, r ≠ .error (.fault f)

theorem pdr_decode_in_bounds (host : Host) (bo : Byte) (bytes : List Byte) (blank : HeaderFields)
    (hnull : blank.fmtStr = none) {fmt : List Byte} (hz : 0 ∉ fmt) :
    (InBounds (pdrPacketHeader host (pdrmemCreate host .decode bo) blank (Cursor.ofBlock bytes)) ↔
      ¬ HeaderHarm host (decodeOrder host bo) bytes) ∧
    (InBounds (pdrPacketData host (pdrmemCreate host .decode bo) (some (fmt ++ [0])) []
        (Cursor.ofBlock bytes)) ↔
      ¬ ElementsHarm host int32Max (decodeOrder host bo) (Tokenizer.tokens fmt delim) bytes) := by
  have hf := pdrmemCreate_fetches host bo
  have hheader := (pdrPacketHeader_decodes host hf blank hnull).fault_iff _
    (Cursor.ofBlock_valid bytes)
  have hdata := (pdrPacketData_decodes host hf (cString_terminated hz) []).fault_iff _
    (Cursor.ofBlock_valid bytes)
  rw [Cursor.ofBlock_rest] at hheader hdata
  unfold InBounds
  constructor
  · rw [← hheader, not_exists]
    rfl
  · rw [← hdata, not_exists]
    rfl

/-- The fields before a header is decoded. -/
def noHeader : HeaderFields := ⟨0, 0, 0, none, CArray.empty, 0⟩

theorem pdr_decode_in_bounds_string :
    (InBounds (pdrPacketHeader (Host.ample .big) (pdrmemCreate (Host.ample .big) .decode 0)
        noHeader (Cursor.ofBlock [2, 0, 0, 0, 97, 0])) ↔
      ¬ HeaderHarm (Host.ample .big) .little [2, 0, 0, 0, 97, 0]) ∧
    (InBounds (pdrPacketData (Host.ample .big) (pdrmemCreate (Host.ample .big) .decode 0)
        (some (ascii ['%', 's'] ++ [0])) [] (Cursor.ofBlock [2, 0, 0, 0, 97, 0])) ↔
      ¬ ElementsHarm (Host.ample .big) int32Max .little
        (Tokenizer.tokens (ascii ['%', 's']) delim) [2, 0, 0, 0, 97, 0]) :=
  pdr_decode_in_bounds (Host.ample .big) 0 [2, 0, 0, 0, 97, 0] noHeader rfl (by decide)

/-- An announced string length of 0, and a count of 2^62 ranks in a block of 0
bytes. -/
theorem pdr_decode_out_of_bounds :
    ¬ InBounds (pdrPacketHeader (Host.ample .little)
      (pdrmemCreate (Host.ample .little) .decode 0) noHeader
      (Cursor.ofBlock (List.replicate 16 0))) ∧
    Recognised (ascii ['%', 'A', 'd']) ∧
    ¬ InBounds (pdrPacketData (Host.ample .little)
      (pdrmemCreate (Host.ample .little) .decode 0) (some (ascii ['%', 'A', 'd'] ++ [0])) []
      (Cursor.ofBlock [0, 0, 0, 0, 0, 0, 0, 64, 1, 2, 3, 4])) := by
  refine ⟨fun h => h .storePast ?_, by decide, fun h => h .storePast ?_⟩
  · rfl
  · rfl

end MRNet.Wire
