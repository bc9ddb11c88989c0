import MRNet.Pdr

/-!
# Forms of PDR values on the wire

For each routine: the bytes an encode emits for a value, if it accepts the value,
and the byte strings a decode accepts or faults on. The encode side holds for any
sink the operation table feeds, so it covers the memory table and the counting
table at once. The decode side holds for the native and the swapping table, which
differ only in the byte order they read.
-/
namespace MRNet.Wire
open NativeBytes Codec

/-- A string block preceded by its length in 32 bits. -/
def stringForm (o : ByteOrder) (block : List Byte) : List Byte :=
  nativeBytes o (BitVec.ofNat 32 block.length) ++ block

/-- A counted array: the count in 64 bits, then the elements. -/
def arrayForm {α : Type} (o : ByteOrder) (form : α → List Byte) (data : List α) : List Byte :=
  nativeBytes o (BitVec.ofNat 64 data.length) ++ data.flatMap form

/-- A table whose put entries emit the words in byte order `o`. -/
structure Feeds (k : Sink) (o : ByteOrder) (ops : PdrOps) : Prop where
  putchar : ∀ v, k.Emits (ops.putchar v) () (nativeBytes o v)
  putint16 : ∀ v, k.Emits (ops.putint16 v) () (nativeBytes o v)
  putint32 : ∀ v, k.Emits (ops.putint32 v) () (nativeBytes o v)
  putint64 : ∀ v, k.Emits (ops.putint64 v) () (nativeBytes o v)
  putfloat : ∀ v, k.Emits (ops.putfloat v) () (nativeBytes o v)
  putdouble : ∀ v, k.Emits (ops.putdouble v) () (nativeBytes o v)
  putbytes : ∀ bs, k.Emits (ops.putbytes bs) () bs

lemma pdrmemPut_emits (host : Host) {w : ℕ} (v : BitVec w) :
    memorySink.Emits (pdrmemPut host v) () (nativeBytes host.bo v) := fun _ _ => rfl

theorem pdrmemOps_feeds (host : Host) : Feeds memorySink host.bo (pdrmemOps host) where
  putchar := pdrmemPut_emits host
  putint16 := pdrmemPut_emits host
  putint32 := pdrmemPut_emits host
  putint64 := pdrmemPut_emits host
  putfloat := pdrmemPut_emits host
  putdouble := pdrmemPut_emits host
  putbytes := fun _ _ _ => rfl

lemma sizeofPut_emits (o : ByteOrder) {w : ℕ} (v : BitVec w) :
    (countingSink 64).Emits (sizeofPut v) () (nativeBytes o v) := by
  intro s _
  simp only [sizeofPut, Action.move, countingSink, nativeBytes_length]

/-- The counting table emits in any order: only lengths are counted. -/
theorem sizeofOps_feeds (o : ByteOrder) : Feeds (countingSink 64) o sizeofOps where
  putchar := sizeofPut_emits o
  putint16 := sizeofPut_emits o
  putint32 := sizeofPut_emits o
  putint64 := sizeofPut_emits o
  putfloat := sizeofPut_emits o
  putdouble := sizeofPut_emits o
  putbytes := fun _ _ _ => rfl

/-- A table whose get entries read the words in byte order `o`. -/
structure Fetches (o : ByteOrder) (ops : PdrOps) : Prop where
  getchar : Decodes ops.getchar (fun v bs => bs = nativeBytes o v) (fun _ => False)
  getint16 : Decodes ops.getint16 (fun v bs => bs = nativeBytes o v) (fun _ => False)
  getint32 : Decodes ops.getint32 (fun v bs => bs = nativeBytes o v) (fun _ => False)
  getint64 : Decodes ops.getint64 (fun v bs => bs = nativeBytes o v) (fun _ => False)
  getfloat : Decodes ops.getfloat (fun v bs => bs = nativeBytes o v) (fun _ => False)
  getdouble : Decodes ops.getdouble (fun v bs => bs = nativeBytes o v) (fun _ => False)
  getbytes : ∀ n, Decodes (ops.getbytes n) (fun v bs => bs = v ∧ v.length = n) (fun _ => False)

lemma pdrmemGet_decodes (host : Host) {w : ℕ} (hw : 8 ∣ w) :
    Decodes (pdrmemGet host w) (fun v bs => bs = nativeBytes host.bo v) (fun _ => False) := by
  refine ((Decodes.get (w / 8)).bind fun bytes => Decodes.pure _).congr ?_ (by simp)
  intro v bs
  constructor
  · rintro ⟨x, b₁, b₂, ⟨rfl, hl⟩, ⟨rfl, rfl⟩, rfl⟩
    rw [nativeBytes_nativeValue _ hw _ hl, List.append_nil]
  · rintro rfl
    exact ⟨_, _, [], ⟨rfl, nativeBytes_length _ _⟩,
      ⟨(nativeValue_nativeBytes _ hw v).symm, rfl⟩, (List.append_nil _).symm⟩

/-- The swapping reader reads the other byte order. -/
lemma pdrmemGetSwap_decodes (host : Host) {w : ℕ} (hw : 8 ∣ w) :
    Decodes (pdrmemGetSwap host w) (fun v bs => bs = nativeBytes host.bo.flip v)
      (fun _ => False) := by
  refine ((Decodes.get (w / 8)).bind fun bytes => Decodes.pure _).congr ?_ (by simp)
  intro v bs
  have hswap : ∀ x : List Byte, x.length = w / 8 →
      nativeValue host.bo w (byteSwap (w / 8) x) = nativeValue host.bo.flip w x := by
    intro x hx
    rw [← hx, byteSwap_eq_reverse, nativeValue_reverse]
  constructor
  · rintro ⟨x, b₁, b₂, ⟨rfl, hl⟩, ⟨rfl, rfl⟩, rfl⟩
    rw [hswap _ hl, nativeBytes_nativeValue _ hw _ hl, List.append_nil]
  · rintro rfl
    refine ⟨_, _, [], ⟨rfl, nativeBytes_length _ _⟩, ⟨?_, rfl⟩, (List.append_nil _).symm⟩
    rw [hswap _ (nativeBytes_length _ _), nativeValue_nativeBytes _ hw]

lemma pdrmemOps_fetches (host : Host) : Fetches host.bo (pdrmemOps host) where
  getchar := pdrmemGet_decodes host (by decide)
  getint16 := pdrmemGet_decodes host (by decide)
  getint32 := pdrmemGet_decodes host (by decide)
  getint64 := pdrmemGet_decodes host (by decide)
  getfloat := pdrmemGet_decodes host (by decide)
  getdouble := pdrmemGet_decodes host (by decide)
  getbytes := Decodes.get

lemma pdrmemOpsSwap_fetches (host : Host) : Fetches host.bo.flip (pdrmemOpsSwap host) where
  getchar := (pdrmemGet_decodes host (w := 8) (by decide)).congr (by simp) (by simp)
  getint16 := pdrmemGetSwap_decodes host (by decide)
  getint32 := pdrmemGetSwap_decodes host (by decide)
  getint64 := pdrmemGetSwap_decodes host (by decide)
  getfloat := pdrmemGetSwap_decodes host (by decide)
  getdouble := pdrmemGetSwap_decodes host (by decide)
  getbytes := Decodes.get

theorem pdrmemCreate_encode (host : Host) (bo : Byte) :
    pdrmemCreate host .encode bo = ⟨.encode, pdrmemOps host⟩ := by simp [pdrmemCreate]

/-- What the sizing pass returns for a procedure that emits `bs`. -/
theorem pdrSizeof_emits {α : Type} {func : PDR → Action α} {v : α} {bs : List Byte}
    (h : (countingSink 64).Emits (func ⟨.encode, sizeofOps⟩) v bs) :
    pdrSizeof func = .ok (true, BitVec.ofNat 64 bs.length) := by
  have hr := h ⟨[], 0, 0⟩ (by simp [countingSink])
  simp only [pdrSizeof, hr, countingSink, Except.map, Nat.zero_add]
  congr 2
  apply BitVec.eq_of_toNat_eq
  simp

/-- The sizing pass does not return `TRUE` for a procedure that never completes. -/
theorem pdrSizeof_blocks {α : Type} {f : PDR → Action α}
    (h : (countingSink 64).Blocks (f ⟨.encode, sizeofOps⟩)) (n : BitVec 64) :
    pdrSizeof f ≠ .ok (true, n) := by
  have hr := h ⟨[], 0, 0⟩ (by simp [countingSink])
  unfold pdrSizeof
  cases hx : f ⟨.encode, sizeofOps⟩ ⟨[], 0, 0⟩ with
  | ok r => exact absurd hx (hr r)
  | error e => cases e <;> simp

/-- The byte order a decode assumes when told that the sender's flag is `bo`. -/
def decodeOrder (host : Host) (bo : Byte) : ByteOrder :=
  if bo = pdrmemGetbo host then host.bo else host.bo.flip

theorem pdrmemCreate_fetches (host : Host) (bo : Byte) :
    Fetches (decodeOrder host bo) (pdrmemCreate host .decode bo).ops := by
  by_cases h : bo = pdrmemGetbo host
  · simpa [decodeOrder, pdrmemCreate, h] using pdrmemOps_fetches host
  · simpa [decodeOrder, pdrmemCreate, h] using pdrmemOpsSwap_fetches host

/-- A genuine flag makes every receiver read the sender's order. -/
@[simp] theorem decodeOrder_pdrByteorder (host : Host) (o : ByteOrder) :
    decodeOrder host (pdrByteorder o) = o := by
  unfold decodeOrder pdrmemGetbo
  cases o <;> cases host.bo <;> simp [pdrByteorder, ByteOrder.flip]

lemma pdrPrim_encodes {k : Sink} {α : Type} {put : α → Action Unit} (g : Action α) {v : α}
    {bs : List Byte} (h : k.Emits (put v) () bs) :
    k.Encodes (pdrPrim put g .encode (some v)) v (some bs) :=
  Sink.Encodes.ret (fun _ => v) (e := some bs) h

lemma pdrPrim_decodes {α : Type} (put : α → Action Unit) {g : Action α} (z : α)
    {a : α → List Byte → Prop} {h : List Byte → Prop} (hg : Decodes g a h) :
    Decodes (pdrPrim put g .decode (some z)) a h := by
  refine (hg.bind fun v => Decodes.pure v).congr ?_ (by simp)
  intro v bs
  constructor
  · rintro ⟨x, b₁, b₂, ha, ⟨rfl, rfl⟩, rfl⟩
    rwa [List.append_nil]
  · intro ha
    exact ⟨v, bs, [], ha, ⟨rfl, rfl⟩, (List.append_nil _).symm⟩

/-- A word read into a slot outside its block is stored there all the same. -/
lemma pdrPrim_decodes_outside {o : ByteOrder} {w : ℕ} (hw : 8 ∣ w) (put : BitVec w → Action Unit)
    {g : Action (BitVec w)}
    (hg : Decodes g (fun v bs => bs = nativeBytes o v) (fun _ => False)) :
    Decodes (pdrPrim put g .decode none) (fun _ _ => False) (fun bs => w / 8 ≤ bs.length) := by
  refine (hg.bind fun v => Decodes.fault .storePast).congr (by simp) ?_
  intro bs
  constructor
  · rintro (h | ⟨x, b₁, tl, rfl, rfl, -⟩)
    · exact h.elim
    · simp
  · intro h
    refine Or.inr ⟨nativeValue o w (bs.take (w / 8)), _, bs.drop (w / 8), rfl, ?_, trivial⟩
    rw [nativeBytes_nativeValue o hw _ (by simpa using h), List.take_append_drop]

/-- A machine word: a whole number of bytes that divides the address space. -/
structure WordSize (w : ℕ) : Prop where
  bytes : 8 ∣ w
  pos : 0 < w / 8
  dvd : w / 8 ∣ 2 ^ 64

/-- What every scalar routine does in both directions, and with a pointer outside
its block. -/
structure ScalarProc {w : ℕ} (proc : PDR → Option (BitVec w) → Action (BitVec w)) : Prop where
  size : WordSize w
  encodes : ∀ {k : Sink} {o : ByteOrder} {ops : PdrOps}, Feeds k o ops → ∀ v,
    k.Encodes (proc ⟨.encode, ops⟩ (some v)) v (some (nativeBytes o v))
  decodes : ∀ {o : ByteOrder} {ops : PdrOps}, Fetches o ops → ∀ z,
    Decodes (proc ⟨.decode, ops⟩ (some z)) (fun v bs => bs = nativeBytes o v) (fun _ => False)
  outside : ∀ {o : ByteOrder} {ops : PdrOps}, Fetches o ops →
    Decodes (proc ⟨.decode, ops⟩ none) (fun _ _ => False) (fun bs => w / 8 ≤ bs.length)

/-- Every word is a good one. -/
lemma ScalarProc.decodes_any {w : ℕ} {proc : PDR → Option (BitVec w) → Action (BitVec w)}
    (hp : ScalarProc proc) {o : ByteOrder} {ops : PdrOps} (hf : Fetches o ops) (z : BitVec w) :
    Decodes (proc ⟨.decode, ops⟩ (some z)) (fun v bs => True ∧ bs = nativeBytes o v)
      (fun _ => False) :=
  (hp.decodes hf z).congr (by simp) (fun _ => Iff.rfl)

theorem pdrUchar_scalar : ScalarProc pdrUchar where
  size := ⟨by decide, by decide, by decide⟩
  encodes := fun {_ _ ops} hf v => pdrPrim_encodes ops.getchar (hf.putchar v)
  decodes := fun {_ ops} hf z => pdrPrim_decodes ops.putchar z hf.getchar
  outside := fun {_ ops} hf => pdrPrim_decodes_outside (by decide) ops.putchar hf.getchar

theorem pdrUint16_scalar : ScalarProc pdrUint16 where
  size := ⟨by decide, by decide, by decide⟩
  encodes := fun {_ _ ops} hf v => pdrPrim_encodes ops.getint16 (hf.putint16 v)
  decodes := fun {_ ops} hf z => pdrPrim_decodes ops.putint16 z hf.getint16
  outside := fun {_ ops} hf => pdrPrim_decodes_outside (by decide) ops.putint16 hf.getint16

theorem pdrUint32_scalar : ScalarProc pdrUint32 where
  size := ⟨by decide, by decide, by decide⟩
  encodes := fun {_ _ ops} hf v => pdrPrim_encodes ops.getint32 (hf.putint32 v)
  decodes := fun {_ ops} hf z => pdrPrim_decodes ops.putint32 z hf.getint32
  outside := fun {_ ops} hf => pdrPrim_decodes_outside (by decide) ops.putint32 hf.getint32

theorem pdrUint64_scalar : ScalarProc pdrUint64 where
  size := ⟨by decide, by decide, by decide⟩
  encodes := fun {_ _ ops} hf v => pdrPrim_encodes ops.getint64 (hf.putint64 v)
  decodes := fun {_ ops} hf z => pdrPrim_decodes ops.putint64 z hf.getint64
  outside := fun {_ ops} hf => pdrPrim_decodes_outside (by decide) ops.putint64 hf.getint64

theorem pdrFloat_scalar : ScalarProc pdrFloat where
  size := ⟨by decide, by decide, by decide⟩
  encodes := fun {_ _ ops} hf v => pdrPrim_encodes ops.getfloat (hf.putfloat v)
  decodes := fun {_ ops} hf z => pdrPrim_decodes ops.putfloat z hf.getfloat
  outside := fun {_ ops} hf => pdrPrim_decodes_outside (by decide) ops.putfloat hf.getfloat

theorem pdrDouble_scalar : ScalarProc pdrDouble where
  size := ⟨by decide, by decide, by decide⟩
  encodes := fun {_ _ ops} hf v => pdrPrim_encodes ops.getdouble (hf.putdouble v)
  decodes := fun {_ ops} hf z => pdrPrim_decodes ops.putdouble z hf.getdouble
  outside := fun {_ ops} hf => pdrPrim_decodes_outside (by decide) ops.putdouble hf.getdouble

/-- What an encode sends for a `char*`: the string with its terminator, unless
the pointer is null, the string is unterminated, or it is longer than allowed. -/
def sentString (o : ByteOrder) (maxsize : ℕ) (sp : Option (List Byte)) : Option (List Byte) :=
  sp.bind fun block =>
    if 0 ∈ block ∧ block.idxOf 0 + 1 ≤ maxsize then
      some (stringForm o (block.take (block.idxOf 0 + 1)))
    else none

/-- The concatenation of what is sent for each element. -/
def sentAll {α : Type} (sent : α → Option (List Byte)) : List α → Option (List Byte)
  | [] => some []
  | v :: data => (sent v).bind fun b => (sentAll sent data).map fun bs => b ++ bs

def sentArray {α : Type} (o : ByteOrder) (maxsize : ℕ) (sent : α → Option (List Byte))
    (data : List α) : Option (List Byte) :=
  if data.length ≤ maxsize then
    (sentAll sent data).map fun bs => nativeBytes o (BitVec.ofNat 64 data.length) ++ bs
  else none

lemma sentAll_eq_flatMap {α : Type} {sent : α → Option (List Byte)} {f : α → List Byte}
    (data : List α) (h : ∀ v ∈ data, sent v = some (f v)) :
    sentAll sent data = some (data.flatMap f) := by
  induction data with
  | nil => rfl
  | cons v data ih =>
      rw [sentAll, h v (by simp), ih (fun u hu => h u (by simp [hu]))]
      rfl

/-- Elements that are all accepted give the counted form. -/
theorem sentArray_eq_form {α : Type} {o : ByteOrder} {maxsize : ℕ}
    {sent : α → Option (List Byte)} {form : α → List Byte} {data : List α}
    (hl : data.length ≤ maxsize) (h : ∀ v ∈ data, sent v = some (form v)) :
    sentArray o maxsize sent data = some (arrayForm o form data) := by
  simp only [sentArray, if_pos hl, sentAll_eq_flatMap data h, Option.map_some, arrayForm]

/-- A NUL-terminated block without an interior NUL is sent whole. -/
theorem sentString_eq_form {o : ByteOrder} {maxsize : ℕ} {chars : List Byte}
    (hz : 0 ∉ chars) (hl : chars.length + 1 ≤ maxsize) :
    sentString o maxsize (some (chars ++ [0])) = some (stringForm o (chars ++ [0])) := by
  have hi : (chars ++ [0]).idxOf 0 = chars.length := by
    rw [List.idxOf_append_of_notMem hz]
    simp
  simp only [sentString, Option.bind_some, hi]
  rw [if_pos ⟨by simp, hl⟩, List.take_of_length_le (by simp)]

theorem sentString_eq_none {o : ByteOrder} {maxsize : ℕ} {chars : List Byte}
    (hz : 0 ∉ chars) (hl : maxsize < chars.length + 1) :
    sentString o maxsize (some (chars ++ [0])) = none := by
  have hi : (chars ++ [0]).idxOf 0 = chars.length := by
    rw [List.idxOf_append_of_notMem hz]
    simp
  simp only [sentString, Option.bind_some, hi]
  rw [if_neg (fun h => by omega)]

section Encode
variable {k : Sink} {o : ByteOrder} {ops : PdrOps} (host : Host)

lemma pdrOpaque_encodes (hf : Feeds k o ops) {c : List Byte} {n : ℕ} (hc : n ≤ c.length) :
    k.Encodes (pdrOpaque ⟨.encode, ops⟩ c n) c (some (c.take n)) := by
  unfold pdrOpaque
  by_cases h0 : n = 0
  · rw [if_pos h0, h0]
    exact Sink.Emits.pure c
  · rw [if_neg h0]
    dsimp only
    rw [if_pos hc]
    exact Sink.Encodes.ret (fun _ => c) (e := some _) (hf.putbytes (c.take n))

lemma CArray.arrayLen_toNat {α : Type} {elsize : ℕ} (he : 0 < elsize) (a : CArray α elsize) :
    a.arrayLen.toNat = a.data.length := by
  have h := a.fits
  have hle : a.data.length ≤ a.data.length * elsize := Nat.le_mul_of_pos_right _ he
  simp only [CArray.arrayLen, BitVec.toNat_ofNat]
  exact Nat.mod_eq_of_lt (by omega)

theorem pdrBytes_encodes (hf : Feeds k o ops) (a : CArray Byte 1) (maxsize : ℕ) :
    k.Encodes (pdrBytes host ⟨.encode, ops⟩ a maxsize) a
      (sentArray o maxsize (fun b => some [b]) a.data) := by
  have hn : a.arrayLen.toNat = a.data.length := a.arrayLen_toNat (by decide)
  have hcount := pdrUint64_scalar.encodes hf a.arrayLen
  have hall : sentAll (fun b => some [b]) a.data = some a.data := by
    simpa using sentAll_eq_flatMap (f := fun b => [b]) a.data (fun _ _ => rfl)
  unfold sentArray
  by_cases hl : a.data.length ≤ maxsize
  · rw [if_pos hl, hall]
    refine Sink.Encodes.after (e := some a.data) hcount ?_ rfl
    rw [hn, if_neg (by omega)]
    have hbody := pdrOpaque_encodes hf (c := a.data) (n := a.data.length) le_rfl
    rw [List.take_length] at hbody
    exact Sink.Encodes.ret (fun _ => a) hbody
  · rw [if_neg hl]
    refine Sink.Encodes.after (e := none) hcount ?_ rfl
    rw [hn, if_pos (by omega)]
    exact Sink.Blocks.stop _

theorem pdrString_encodes (hf : Feeds k o ops) (sp : Option (List Byte)) {maxsize : ℕ}
    (hm : maxsize < 2 ^ 32) :
    k.Encodes (pdrString host ⟨.encode, ops⟩ (some sp) maxsize)
      sp (sentString o maxsize sp) := by
  cases sp with
  | none => exact Sink.Blocks.stop _
  | some block =>
      simp only [pdrString, sentString, Option.bind_some, strlen]
      by_cases hz : 0 ∈ block
      · by_cases hl : block.idxOf 0 + 1 ≤ maxsize
        · have hle : block.idxOf 0 + 1 ≤ block.length := List.idxOf_lt_length_of_mem hz
          have hlen : (block.take (block.idxOf 0 + 1)).length = block.idxOf 0 + 1 := by
            rw [List.length_take, min_eq_left hle]
          have hn : (BitVec.ofNat 32 (block.idxOf 0 + 1)).toNat = block.idxOf 0 + 1 := by
            rw [BitVec.toNat_ofNat]
            exact Nat.mod_eq_of_lt (by omega)
          have hcount := pdrUint32_scalar.encodes hf (BitVec.ofNat 32 (block.idxOf 0 + 1))
          rw [if_pos hz, if_pos ⟨hz, hl⟩]
          dsimp only
          rw [if_neg (by omega)]
          refine Sink.Encodes.after (e := some (block.take (block.idxOf 0 + 1))) hcount ?_ ?_
          · rw [hn]
            exact Sink.Encodes.ret some (pdrOpaque_encodes hf hle)
          · rw [stringForm, hlen, Option.map_some]
        · rw [if_pos hz, if_neg (fun h => hl h.2)]
          dsimp only
          rw [if_pos (by omega)]
          exact Sink.Blocks.stop _
      · rw [if_neg hz, if_neg (fun h => hz h.1)]
        exact Sink.Blocks.stop _

lemma pdrArrayPut_encodes {α : Type} {elproc : Option α → Action α}
    {sent : α → Option (List Byte)} (data : List α)
    (h : ∀ v, k.Encodes (elproc (some v)) v (sent v)) :
    k.Encodes (pdrArrayPut elproc data) () (sentAll sent data) := by
  induction data with
  | nil => exact Sink.Emits.pure ()
  | cons v data ih => exact (h v).bind ih

theorem pdrArray_encodes (hf : Feeds k o ops) {α : Type} {elsize : ℕ} (he : 0 < elsize)
    (a : CArray α elsize) (maxsize : ℕ) {elproc : PDR → Option α → Action α} (zero : α)
    {sent : α → Option (List Byte)}
    (h : ∀ v, k.Encodes (elproc ⟨.encode, ops⟩ (some v)) v (sent v)) :
    k.Encodes (pdrArray host ⟨.encode, ops⟩ a maxsize elproc zero) a
      (sentArray o maxsize sent a.data) := by
  have hn := a.arrayLen_toNat he
  have hcount := pdrUint64_scalar.encodes hf a.arrayLen
  unfold sentArray
  by_cases hl : a.data.length ≤ maxsize
  · rw [if_pos hl]
    refine Sink.Encodes.after (e := sentAll sent a.data) hcount ?_ rfl
    rw [hn, if_neg (by omega)]
    exact Sink.Encodes.ret (fun _ => a) (pdrArrayPut_encodes a.data h)
  · rw [if_neg hl]
    refine Sink.Encodes.after (e := none) hcount ?_ rfl
    rw [hn, if_pos (by omega)]
    exact Sink.Blocks.stop _

theorem pdrVector_encodes {w : ℕ} {proc : PDR → Option (BitVec w) → Action (BitVec w)}
    (hp : ScalarProc proc) (hf : Feeds k o ops) (base : List (BitVec w)) :
    k.Encodes (pdrVector (proc ⟨.encode, ops⟩) base) base
      (some (base.flatMap (nativeBytes o))) := by
  induction base with
  | nil => exact Sink.Emits.pure []
  | cons v base ih =>
      refine Sink.Encodes.after (hp.encodes hf v) (Sink.Encodes.ret (fun vs => v :: vs) ih) ?_
      rw [Option.map_some, List.flatMap_cons]

end Encode

/-- A string block a decode can produce: not empty, and the allocator grants it. -/
def StringOk (host : Host) (block : List Byte) : Prop :=
  0 < block.length ∧ block.length < 2 ^ 32 ∧ (host.malloc block.length).isSome

/-- A string pointer as a decode leaves it. -/
def SlotOk (host : Host) : Option (List Byte) → Prop
  | none => False
  | some block => StringOk host block

def slotForm (o : ByteOrder) : Option (List Byte) → List Byte
  | none => []
  | some block => stringForm o block

/-- The elements of an array a decode can produce. -/
def ArrayOk {α : Type} (host : Host) (elsize maxsize : ℕ) (good : α → Prop) (data : List α) :
    Prop :=
  data.length ≤ maxsize ∧ (∀ v ∈ data, good v) ∧
    (data ≠ [] → (host.malloc (data.length * elsize)).isSome)

section Decode
variable {o : ByteOrder} {ops : PdrOps} (host : Host)

lemma pdrOpaque_decodes (hf : Fetches o ops) {c : List Byte} {n : ℕ} (hc : c.length = n) :
    Decodes (pdrOpaque ⟨.decode, ops⟩ c n) (fun v bs => bs = v ∧ v.length = n)
      (fun _ => False) := by
  unfold pdrOpaque
  refine Decodes.ite ?_ ?_
  · intro h0
    obtain rfl : c = [] := List.eq_nil_of_length_eq_zero (hc.trans h0)
    refine (Decodes.pure []).congr ?_ (by simp)
    intro v bs
    rw [h0]
    constructor
    · rintro ⟨rfl, rfl⟩
      exact ⟨rfl, rfl⟩
    · rintro ⟨rfl, hl⟩
      exact ⟨List.eq_nil_of_length_eq_zero hl, List.eq_nil_of_length_eq_zero hl⟩
  · intro _
    dsimp only
    refine ((hf.getbytes n).bind fun bytes => Decodes.ite (c := n ≤ c.length)
      (fun _ => Decodes.pure _) (fun h => absurd hc.ge h)).congr ?_ (by simp)
    intro v bs
    rw [List.drop_of_length_le hc.le]
    constructor
    · rintro ⟨x, b₁, b₂, ⟨rfl, hl⟩, ⟨rfl, rfl⟩, rfl⟩
      simpa using hl
    · rintro ⟨rfl, hl⟩
      exact ⟨bs, bs, [], ⟨rfl, hl⟩, by simp⟩

lemma CArray.ofBlock_decodes {α : Type} {elsize : ℕ} (size : BitVec 64) (data : List α) :
    Decodes (CArray.ofBlock size data : Action (CArray α elsize))
      (fun a bs => (a.data = data ∧ data.length * elsize ≤ size.toNat) ∧ bs = [])
      (fun _ => ¬ data.length * elsize ≤ size.toNat) := by
  unfold CArray.ofBlock
  split_ifs with h
  · refine (Decodes.pure _).congr ?_ (by simp [h])
    intro a bs
    constructor
    · rintro ⟨rfl, rfl⟩
      exact ⟨⟨rfl, h⟩, rfl⟩
    · rintro ⟨⟨hd, -⟩, rfl⟩
      cases a
      cases hd
      exact ⟨rfl, rfl⟩
  · exact (Decodes.fault .readPast).congr (by simp [h]) (by simp [h])

theorem pdrBytes_decodes (hf : Fetches o ops) (a : CArray Byte 1) (maxsize : ℕ) :
    Decodes (pdrBytes host ⟨.decode, ops⟩ a maxsize)
      (fun a bs => ArrayOk host 1 maxsize (fun _ => True) a.data ∧
        bs = arrayForm o (fun b => [b]) a.data)
      (fun _ => False) := by
  have hbody : ∀ nodesize : BitVec 64, Decodes
      (if nodesize.toNat > maxsize then Action.stop .refused
        else if nodesize = 0 then (pure CArray.empty : Action (CArray Byte 1))
        else
          match host.malloc nodesize.toNat with
          | none => Action.stop .refused
          | some sp => do
              let bytes ← pdrOpaque ⟨.decode, ops⟩ sp nodesize.toNat
              CArray.ofBlock nodesize bytes)
      (fun a bs => (a.data.length = nodesize.toNat ∧ nodesize.toNat ≤ maxsize ∧
        (nodesize ≠ 0 → (host.malloc nodesize.toNat).isSome)) ∧ bs = a.data)
      (fun _ => False) := by
    intro nodesize
    refine Decodes.ite (fun hgt => Decodes.refused.congr ?_ (by simp)) fun hle => ?_
    · rintro a bs
      simp only [false_iff, not_and]
      intro h
      omega
    refine Decodes.ite (fun hz => (Decodes.pure _).congr ?_ (by simp)) fun hz => ?_
    · intro a bs
      subst hz
      constructor
      · rintro ⟨rfl, rfl⟩
        simp [CArray.empty]
      · rintro ⟨⟨hl, -⟩, rfl⟩
        have hd : a.data = [] := List.eq_nil_of_length_eq_zero (by simpa using hl)
        obtain ⟨data, fits⟩ := a
        cases hd
        exact ⟨rfl, rfl⟩
    cases hm : host.malloc nodesize.toNat with
    | none =>
        refine Decodes.refused.congr ?_ (by simp)
        intro a bs
        simp only [false_iff, not_and]
        intro h
        simpa using h.2.2 hz
    | some sp =>
        refine ((pdrOpaque_decodes hf (host.malloc_length _ _ hm)).bind
          fun bytes => CArray.ofBlock_decodes nodesize bytes).congr ?_ ?_
        · intro a bs
          constructor
          · rintro ⟨x, b₁, b₂, ⟨rfl, hl⟩, ⟨⟨rfl, -⟩, rfl⟩, rfl⟩
            exact ⟨⟨hl, by omega, by simp⟩, by simp⟩
          · rintro ⟨⟨hl, -, -⟩, rfl⟩
            exact ⟨a.data, a.data, [], ⟨rfl, hl⟩, ⟨⟨rfl, by omega⟩, rfl⟩, by simp⟩
        · intro bs
          constructor
          · rintro (h | ⟨x, b₁, tl, ⟨rfl, hl⟩, rfl, hn⟩)
            · exact h
            · omega
          · exact False.elim
  refine ((pdrUint64_scalar.decodes hf a.arrayLen).bind hbody).congr ?_ (by simp)
  intro a bs
  have hflat : a.data.flatMap (fun b => [b]) = a.data := by simp
  constructor
  · rintro ⟨n, b₁, b₂, rfl, ⟨⟨hl, hmax, hm⟩, rfl⟩, rfl⟩
    have hn : BitVec.ofNat 64 a.data.length = n := by rw [hl]; simp
    refine ⟨⟨by omega, by simp, fun hne => ?_⟩, by rw [arrayForm, hflat, hn]⟩
    rw [hl, Nat.mul_one]
    apply hm
    rintro rfl
    exact hne (List.eq_nil_of_length_eq_zero (by simpa using hl))
  · rintro ⟨⟨hmax, -, hm⟩, rfl⟩
    rw [Nat.mul_one] at hm
    have hn : a.arrayLen.toNat = a.data.length := a.arrayLen_toNat (by decide)
    refine ⟨a.arrayLen, _, a.data, rfl, ⟨⟨hn.symm, by omega, fun hne => ?_⟩, rfl⟩, ?_⟩
    · rw [hn]
      apply hm
      intro hd
      exact hne (BitVec.eq_of_toNat_eq (by simp [hn, hd]))
    · rw [arrayForm, hflat]
      rfl

/-- A decode faults exactly on the length 0, whose terminator would be stored at
index 2^32 - 1. -/
theorem pdrString_decodes (hf : Fetches o ops) (maxsize : ℕ) :
    Decodes (pdrString host ⟨.decode, ops⟩ (some none) maxsize)
      (fun v bs => SlotOk host v ∧ bs = slotForm o v)
      (fun bs => (host.malloc 0).isSome ∧ nativeBytes o (0 : BitVec 32) <+: bs) := by
  have hbody : ∀ nodesize : BitVec 32, Decodes
      (match host.malloc nodesize.toNat with
        | none => (Action.stop .refused : Action (Option (List Byte)))
        | some block =>
            if (nodesize - 1).toNat < block.length then do
              let block ← pdrOpaque ⟨.decode, ops⟩ (block.set (nodesize - 1).toNat 0) nodesize.toNat
              return some block
            else Action.stop (.fault .storePast))
      (fun v bs => ∃ block, v = some block ∧ (block.length = nodesize.toNat ∧
        0 < nodesize.toNat ∧ (host.malloc nodesize.toNat).isSome) ∧ bs = block)
      (fun _ => nodesize = 0 ∧ (host.malloc 0).isSome) := by
    intro nodesize
    cases hm : host.malloc nodesize.toNat with
    | none =>
        refine Decodes.refused.congr (by simp) ?_
        rintro -
        simp only [false_iff, not_and]
        rintro rfl
        simpa using hm
    | some block =>
        have hlen := host.malloc_length _ _ hm
        refine Decodes.ite (fun hlast => ?_) fun hlast => ?_
        · have hpos : 0 < nodesize.toNat := by omega
          refine ((pdrOpaque_decodes hf (by simpa using hlen)).bind
            fun b => Decodes.pure (some b)).congr ?_ ?_
          · intro v bs
            constructor
            · rintro ⟨x, b₁, b₂, ⟨rfl, hl⟩, ⟨rfl, rfl⟩, rfl⟩
              exact ⟨_, rfl, ⟨hl, hpos, rfl⟩, by simp⟩
            · rintro ⟨b, rfl, ⟨hl, -, -⟩, rfl⟩
              exact ⟨bs, bs, [], ⟨rfl, hl⟩, ⟨rfl, rfl⟩, by simp⟩
          · intro bs
            simp only [and_false, exists_false, or_false, false_iff, not_and]
            rintro rfl
            simp at hpos
        · have hz : nodesize = 0 := by
            by_contra hne
            apply hlast
            have h0 : nodesize.toNat ≠ 0 := fun h => hne (BitVec.eq_of_toNat_eq (by simpa using h))
            rw [hlen]
            bv_omega
          subst hz
          refine (Decodes.fault .storePast).congr ?_ ?_
          · simp
          · have hm' : (host.malloc 0).isSome := by simpa using congrArg Option.isSome hm
            simp [hm']
  refine ((pdrUint32_scalar.decodes hf 0).bind hbody).congr ?_ ?_
  · intro v bs
    constructor
    · rintro ⟨n, b₁, b₂, rfl, ⟨block, rfl, ⟨hl, hpos, hm⟩, rfl⟩, rfl⟩
      refine ⟨⟨by omega, by have := n.isLt; omega, by rwa [hl]⟩, ?_⟩
      rw [slotForm, stringForm, hl]
      simp
    · rintro ⟨hok, rfl⟩
      cases v with
      | none => exact hok.elim
      | some block => ?_
      obtain ⟨hpos, hlt, hm⟩ := hok
      have hn : (BitVec.ofNat 32 block.length).toNat = block.length := by
        rw [BitVec.toNat_ofNat, Nat.mod_eq_of_lt hlt]
      exact ⟨BitVec.ofNat 32 block.length, _, block, rfl,
        ⟨block, rfl, ⟨hn.symm, by omega, by rwa [hn]⟩, rfl⟩, rfl⟩
  · intro bs
    constructor
    · rintro (h | ⟨n, b₁, tl, rfl, rfl, rfl, hm⟩)
      · exact h.elim
      · exact ⟨hm, tl, rfl⟩
    · rintro ⟨hm, tl, rfl⟩
      exact Or.inr ⟨0, _, tl, rfl, rfl, rfl, hm⟩

/-- The element loop: it faults at the first element that faults in its slot, or
at the first slot outside the block if the element there is one that faults. -/
lemma pdrArrayGet_decodes {α : Type} {elproc : Option α → Action α} {zero : α}
    {good : α → Prop} {form : α → List Byte} {h hout : List Byte → Prop} (elsize nodesize : ℕ)
    (hin : Decodes (elproc (some zero)) (fun v bs => good v ∧ bs = form v) h)
    (ho : Decodes (elproc none) (fun _ _ => False) hout) (c i : ℕ) :
    Decodes (pdrArrayGet elproc zero elsize nodesize c i)
      (fun data bs => data.length = c ∧ (∀ v ∈ data, good v) ∧
        (∀ j < c, (i + j + 1) * elsize ≤ nodesize) ∧ bs = data.flatMap form)
      (fun bs => ∃ (data : List α) (tl : List Byte), data.length < c ∧ (∀ v ∈ data, good v) ∧
        (∀ j < data.length, (i + j + 1) * elsize ≤ nodesize) ∧ bs = data.flatMap form ++ tl ∧
        if (i + data.length + 1) * elsize ≤ nodesize then h tl else hout tl) := by
  induction c generalizing i with
  | zero =>
      refine (Decodes.pure []).congr ?_ (by simp)
      intro data bs
      constructor
      · rintro ⟨rfl, rfl⟩
        simp
      · rintro ⟨hl, -, -, rfl⟩
        obtain rfl := List.eq_nil_of_length_eq_zero hl
        exact ⟨rfl, rfl⟩
  | succ c ih =>
      have htail := fun v : α => (ih (i + 1)).bind fun data => Decodes.pure (v :: data)
      by_cases hi : (i + 1) * elsize ≤ nodesize
      · have hslot : (if (i + 1) * elsize ≤ nodesize then some zero else none) = some zero :=
          if_pos hi
        simp only [pdrArrayGet, hslot]
        refine (hin.bind htail).congr ?_ ?_
        · intro data bs
          constructor
          · rintro ⟨v, b₁, b₂, ⟨hv, rfl⟩, ⟨d, c₁, c₂, ⟨rfl, hd, hj, rfl⟩, ⟨rfl, rfl⟩, rfl⟩, rfl⟩
            refine ⟨rfl, by simpa using ⟨hv, hd⟩, ?_, by simp⟩
            rintro (_ | j) hlt
            · simpa using hi
            · have hh := hj j (by omega)
              rwa [show i + 1 + j + 1 = i + (j + 1) + 1 by omega] at hh
          · rintro ⟨hl, hd, hj, rfl⟩
            obtain ⟨v, d, rfl⟩ := List.exists_cons_of_length_eq_add_one hl
            simp only [List.mem_cons, forall_eq_or_imp] at hd
            refine ⟨v, _, _, ⟨hd.1, rfl⟩, ⟨d, _, [], ⟨by simpa using hl, hd.2, ?_, rfl⟩,
              ⟨rfl, rfl⟩, rfl⟩, by simp⟩
            intro j hlt
            have hh := hj (j + 1) (by omega)
            rwa [show i + (j + 1) + 1 = i + 1 + j + 1 by omega] at hh
        · intro bs
          constructor
          · rintro (hh | ⟨v, b₁, tl, ⟨hv, rfl⟩, rfl, hh | hh⟩)
            · exact ⟨[], bs, by simp, by simp, by simp, by simp, by simpa [hi] using hh⟩
            · obtain ⟨d, tl', hlt, hd, hj, rfl, hlast⟩ := hh
              refine ⟨v :: d, tl', by simpa using hlt, by simpa using ⟨hv, hd⟩, ?_, by simp, ?_⟩
              · rintro (_ | j) hlt'
                · simpa using hi
                · have hh := hj j (by simpa using hlt')
                  rwa [show i + 1 + j + 1 = i + (j + 1) + 1 by omega] at hh
              · rwa [List.length_cons, show i + (d.length + 1) + 1 = i + 1 + d.length + 1 by omega]
            · simp at hh
          · rintro ⟨d, tl, hlt, hd, hj, rfl, hlast⟩
            cases d with
            | nil => exact Or.inl (by simpa [hi] using hlast)
            | cons v d =>
                simp only [List.mem_cons, forall_eq_or_imp] at hd
                refine Or.inr ⟨v, _, d.flatMap form ++ tl, ⟨hd.1, rfl⟩, by simp, Or.inl
                  ⟨d, tl, by simpa using hlt, hd.2, ?_, rfl, ?_⟩⟩
                · intro j hj'
                  have hh := hj (j + 1) (by simpa using hj')
                  rwa [show i + (j + 1) + 1 = i + 1 + j + 1 by omega] at hh
                · rwa [List.length_cons,
                    show i + (d.length + 1) + 1 = i + 1 + d.length + 1 by omega] at hlast
      · have hslot : (if (i + 1) * elsize ≤ nodesize then some zero else none) = none :=
          if_neg hi
        simp only [pdrArrayGet, hslot]
        refine (ho.bind htail).congr ?_ ?_
        · intro data bs
          simp only [false_and, exists_false, false_iff, not_and]
          intro _ _ hj
          exact absurd (by simpa using hj 0 (by omega)) hi
        · intro bs
          constructor
          · rintro (hh | ⟨v, b₁, tl, hv, -⟩)
            · exact ⟨[], bs, by simp, by simp, by simp, by simp, by simpa [hi] using hh⟩
            · exact hv.elim
          · rintro ⟨d, tl, hlt, hd, hj, rfl, hlast⟩
            cases d with
            | nil => exact Or.inl (by simpa [hi] using hlast)
            | cons v d => exact absurd (by simpa using hj 0 (by simp)) hi

/-- A count whose array leaves the block allocated for it, which has the product
of count and element size in 64 bits, or whose elements fault inside the block. -/
def ArrayHarm {α : Type} (o : ByteOrder) (elsize maxsize : ℕ) (good : α → Prop)
    (form : α → List Byte) (h hout : List Byte → Prop) (bs : List Byte) : Prop :=
  ∃ (c : BitVec 64) (data : List α) (tl : List Byte),
    let nodesize := (c * BitVec.ofNat 64 elsize).toNat
    bs = nativeBytes o c ++ (data.flatMap form ++ tl) ∧ c.toNat ≤ maxsize ∧
    (host.malloc nodesize).isSome ∧ data.length < c.toNat ∧ (∀ v ∈ data, good v) ∧
    data.length * elsize ≤ nodesize ∧
    if (data.length + 1) * elsize ≤ nodesize then h tl else hout tl

lemma slots_iff {elsize nodesize : ℕ} (n : ℕ) :
    (∀ j < n, (0 + j + 1) * elsize ≤ nodesize) ↔ n * elsize ≤ nodesize := by
  constructor
  · intro h
    cases n with
    | zero => simp
    | succ n => simpa using h n (Nat.lt_succ_self n)
  · intro h j hj
    have hle : (0 + j + 1) * elsize ≤ n * elsize := Nat.mul_le_mul_right _ (by omega)
    omega

lemma mul_toNat_of_le {c : BitVec 64} {elsize : ℕ}
    (h : c.toNat * elsize ≤ (c * BitVec.ofNat 64 elsize).toNat) :
    (c * BitVec.ofNat 64 elsize).toNat = c.toNat * elsize := by
  rw [BitVec.toNat_mul, BitVec.toNat_ofNat, Nat.mul_mod_mod] at *
  exact le_antisymm (Nat.mod_le _ _) h

lemma mul_toNat_of_lt (c : BitVec 64) {e : ℕ} (h : c.toNat * e < 2 ^ 64) :
    (c * BitVec.ofNat 64 e).toNat = c.toNat * e := by
  rw [BitVec.toNat_mul, BitVec.toNat_ofNat, Nat.mul_mod_mod, Nat.mod_eq_of_lt h]

lemma CArray.eq_empty {α : Type} {elsize : ℕ} {a : CArray α elsize} (h : a.data = []) :
    a = CArray.empty := by
  obtain ⟨data, fits⟩ := a
  cases h
  rfl

/-- What follows the count of an array in a decode. -/
lemma pdrArray_body_decodes {α : Type} {elsize : ℕ} {elproc : Option α → Action α} {zero : α}
    {good : α → Prop} {form : α → List Byte} {h hout : List Byte → Prop} (maxsize : ℕ)
    (hin : Decodes (elproc (some zero)) (fun v bs => good v ∧ bs = form v) h)
    (ho : Decodes (elproc none) (fun _ _ => False) hout) (c : BitVec 64) :
    Decodes
      (if c.toNat > maxsize then Action.stop .refused
        else if c = 0 then (pure CArray.empty : Action (CArray α elsize))
        else
          match host.malloc (c * BitVec.ofNat 64 elsize).toNat with
          | none => Action.stop .refused
          | some _ => do
              let data ← pdrArrayGet elproc zero elsize (c * BitVec.ofNat 64 elsize).toNat c.toNat 0
              CArray.ofBlock (c * BitVec.ofNat 64 elsize) data)
      (fun a bs => (a.data.length = c.toNat ∧ c.toNat ≤ maxsize ∧ (∀ v ∈ a.data, good v) ∧
        (c ≠ 0 → (host.malloc (c.toNat * elsize)).isSome)) ∧ bs = a.data.flatMap form)
      (fun bs => ∃ (data : List α) (tl : List Byte),
        let nodesize := (c * BitVec.ofNat 64 elsize).toNat
        bs = data.flatMap form ++ tl ∧ c.toNat ≤ maxsize ∧ (host.malloc nodesize).isSome ∧
        data.length < c.toNat ∧ (∀ v ∈ data, good v) ∧ data.length * elsize ≤ nodesize ∧
        if (data.length + 1) * elsize ≤ nodesize then h tl else hout tl) := by
  refine Decodes.ite (fun hgt => Decodes.refused.congr ?_ ?_) fun hle => ?_
  · intro a bs
    simp only [false_iff, not_and]
    intro hc
    omega
  · intro bs
    simp only [false_iff]
    rintro ⟨data, tl, -, hc, -⟩
    omega
  refine Decodes.ite (fun hz => (Decodes.pure _).congr ?_ ?_) fun hz => ?_
  · intro a bs
    subst hz
    constructor
    · rintro ⟨rfl, rfl⟩
      simp [CArray.empty]
    · rintro ⟨⟨hl, -⟩, rfl⟩
      have hd : a.data = [] := List.eq_nil_of_length_eq_zero (by simpa using hl)
      exact ⟨CArray.eq_empty hd, by simp [hd]⟩
  · intro bs
    subst hz
    simp
  cases hm : host.malloc (c * BitVec.ofNat 64 elsize).toNat with
  | none =>
      refine Decodes.refused.congr ?_ ?_
      · intro a bs
        simp only [false_iff, not_and]
        rintro ⟨hl, -, -, hg⟩
        rw [mul_toNat_of_lt c (by rw [← hl]; exact a.fits)] at hm
        simpa [hm] using hg hz
      · intro bs
        simp only [false_iff]
        rintro ⟨data, tl, -, -, hg, -⟩
        rw [hm] at hg
        cases hg
  | some b =>
      refine ((pdrArrayGet_decodes elsize _ hin ho c.toNat 0).bind
        fun data => CArray.ofBlock_decodes _ data).congr ?_ ?_
      · intro a bs
        constructor
        · rintro ⟨x, b₁, b₂, ⟨hl, hd, hj, rfl⟩, ⟨⟨rfl, hfit⟩, rfl⟩, rfl⟩
          rw [hl] at hfit
          have hg : (host.malloc (c.toNat * elsize)).isSome := by
            rw [← mul_toNat_of_le hfit, hm]
            rfl
          exact ⟨⟨hl, by omega, hd, fun _ => hg⟩, by simp⟩
        · rintro ⟨⟨hl, -, hd, -⟩, rfl⟩
          have hn := mul_toNat_of_lt c (e := elsize) (by rw [← hl]; exact a.fits)
          refine ⟨a.data, _, [], ⟨hl, hd, ?_, rfl⟩, ⟨⟨rfl, ?_⟩, rfl⟩, by simp⟩
          · rw [slots_iff, hn]
          · rw [hl, hn]
      · intro bs
        have hg : (host.malloc (c * BitVec.ofNat 64 elsize).toNat).isSome := by rw [hm]; rfl
        constructor
        · rintro (⟨data, tl, hlt, hd, hj, rfl, hlast⟩ | ⟨x, b₁, tl, ⟨hl, -, hj, -⟩, -, hn⟩)
          · refine ⟨data, tl, rfl, by omega, hg, hlt, hd, (slots_iff _).mp hj, ?_⟩
            simpa using hlast
          · rw [slots_iff] at hj
            exact absurd hj (by rwa [← hl])
        · rintro ⟨data, tl, rfl, -, -, hlt, hd, hj, hlast⟩
          exact Or.inl ⟨data, tl, hlt, hd, (slots_iff _).mpr hj, rfl, by simpa using hlast⟩

theorem pdrArray_decodes (hf : Fetches o ops) {α : Type} {elsize : ℕ} (he : 0 < elsize)
    (a : CArray α elsize) (maxsize : ℕ) {elproc : PDR → Option α → Action α} {zero : α}
    {good : α → Prop} {form : α → List Byte} {h hout : List Byte → Prop}
    (hin : Decodes (elproc ⟨.decode, ops⟩ (some zero)) (fun v bs => good v ∧ bs = form v) h)
    (ho : Decodes (elproc ⟨.decode, ops⟩ none) (fun _ _ => False) hout) :
    Decodes (pdrArray host ⟨.decode, ops⟩ a maxsize elproc zero)
      (fun a bs => ArrayOk host elsize maxsize good a.data ∧ bs = arrayForm o form a.data)
      (ArrayHarm host o elsize maxsize good form h hout) := by
  refine ((pdrUint64_scalar.decodes hf a.arrayLen).bind
    (pdrArray_body_decodes host maxsize hin ho)).congr ?_ ?_
  · intro a bs
    constructor
    · rintro ⟨c, b₁, b₂, rfl, ⟨⟨hl, hmax, hd, hg⟩, rfl⟩, rfl⟩
      have hc : BitVec.ofNat 64 a.data.length = c := by rw [hl]; simp
      refine ⟨⟨by omega, hd, fun hne => ?_⟩, by rw [arrayForm, hc]⟩
      rw [hl]
      apply hg
      rintro rfl
      exact hne (List.eq_nil_of_length_eq_zero (by simpa using hl))
    · rintro ⟨⟨hmax, hd, hg⟩, rfl⟩
      have hn := a.arrayLen_toNat he
      refine ⟨a.arrayLen, _, _, rfl, ⟨⟨hn.symm, by omega, hd, fun hne => ?_⟩, rfl⟩, rfl⟩
      rw [hn]
      apply hg
      intro hd
      exact hne (BitVec.eq_of_toNat_eq (by simp [hn, hd]))
  · intro bs
    constructor
    · rintro (hh | ⟨c, b₁, tl, rfl, rfl, data, tl', rfl, hrest⟩)
      · exact hh.elim
      · exact ⟨c, data, tl', rfl, hrest⟩
    · rintro ⟨c, data, tl, rfl, hrest⟩
      exact Or.inr ⟨c, _, _, rfl, rfl, data, tl, rfl, hrest⟩

/-- The empty or missing slot of a string array outside the block is read before
anything else happens. -/
lemma pdrString_decodes_outside (maxsize : ℕ) :
    Decodes (pdrString host ⟨.decode, ops⟩ none maxsize) (fun _ _ => False) (fun _ => True) :=
  Decodes.fault .readPast

/-- A count of words whose size in bytes wraps, with more input than fits the
block. -/
def WordArrayHarm (o : ByteOrder) (elsize : ℕ) (bs : List Byte) : Prop :=
  ∃ (c : BitVec 64) (tl : List Byte),
    let nodesize := (c * BitVec.ofNat 64 elsize).toNat
    bs = nativeBytes o c ++ tl ∧ (host.malloc nodesize).isSome ∧
    2 ^ 64 ≤ c.toNat * elsize ∧ nodesize + elsize ≤ tl.length

theorem arrayHarm_word_iff {w : ℕ} (hw : WordSize w) (maxsize : ℕ) (bs : List Byte) :
    ArrayHarm host o (w / 8) maxsize (fun _ => True) (nativeBytes o (w := w)) (fun _ => False)
      (fun bs => w / 8 ≤ bs.length) bs ↔
    ∃ (c : BitVec 64) (tl : List Byte),
      let nodesize := (c * BitVec.ofNat 64 (w / 8)).toNat
      bs = nativeBytes o c ++ tl ∧ c.toNat ≤ maxsize ∧ (host.malloc nodesize).isSome ∧
      2 ^ 64 ≤ c.toNat * (w / 8) ∧ nodesize + w / 8 ≤ tl.length := by
  obtain ⟨hw, h0, hd⟩ := hw
  have hnode : ∀ c : BitVec 64,
      (c * BitVec.ofNat 64 (w / 8)).toNat = c.toNat * (w / 8) % 2 ^ 64 := by
    intro c
    rw [BitVec.toNat_mul, BitVec.toNat_ofNat, Nat.mul_mod_mod]
  have hdvd : ∀ c : BitVec 64, w / 8 ∣ (c * BitVec.ofNat 64 (w / 8)).toNat := by
    intro c
    rw [hnode, Nat.dvd_mod_iff hd]
    exact Nat.dvd_mul_left _ _
  constructor
  · rintro ⟨c, data, tl, rfl, hmax, hg, hlt, -, hj, hlast⟩
    have hin : ¬ (data.length + 1) * (w / 8) ≤ (c * BitVec.ofNat 64 (w / 8)).toNat := by
      intro hin
      rwa [if_pos hin] at hlast
    rw [if_neg hin] at hlast
    obtain ⟨m, hm⟩ := hdvd c
    rw [Nat.mul_comm] at hm
    rw [hm] at hj hin
    have hge : data.length ≤ m := Nat.le_of_mul_le_mul_right hj h0
    have hlt' : ¬ data.length + 1 ≤ m := fun hle => hin (Nat.mul_le_mul_right _ hle)
    obtain rfl : m = data.length := by omega
    refine ⟨c, _, rfl, hmax, hg, ?_, ?_⟩
    · by_contra hsmall
      rw [hnode, Nat.mod_eq_of_lt (by omega)] at hm
      have := Nat.eq_of_mul_eq_mul_right h0 hm
      omega
    · rw [hm, List.length_append, flatMap_nativeBytes_length]
      omega
  · rintro ⟨c, tl, rfl, hmax, hg, hwrap, hlen⟩
    obtain ⟨m, hm⟩ := hdvd c
    rw [Nat.mul_comm] at hm
    obtain ⟨data, hl, hdata⟩ := exists_words o hw m (tl.take (m * (w / 8)))
      (by rw [List.length_take]; omega)
    refine ⟨c, data, tl.drop (m * (w / 8)), ?_, hmax, hg, ?_, by simp, by rw [hl, hm], ?_⟩
    · rw [hdata, List.take_append_drop]
    · rw [hl]
      have hb : m * (w / 8) < c.toNat * (w / 8) := by
        rw [← hm]
        exact lt_of_lt_of_le (BitVec.isLt _) hwrap
      exact Nat.lt_of_mul_lt_mul_right hb
    · rw [hl, if_neg (by rw [hm, Nat.succ_mul]; omega)]
      simp only [List.length_drop]
      omega

/-- Words in an array of any accepted length. -/
theorem pdrArray_decodes_words (hf : Fetches o ops) {w : ℕ}
    {proc : PDR → Option (BitVec w) → Action (BitVec w)} (hp : ScalarProc proc)
    (a : CArray (BitVec w) (w / 8)) {m : ℕ}
    (hmax : 2 ^ 64 - 1 ≤ m) (z : BitVec w) :
    Decodes (pdrArray host ⟨.decode, ops⟩ a m proc z)
      (fun a bs => ArrayOk host (w / 8) m (fun _ => True) a.data ∧
        bs = arrayForm o (nativeBytes o) a.data)
      (WordArrayHarm host o (w / 8)) := by
  refine (pdrArray_decodes host hf hp.size.pos a m (hp.decodes_any hf z) (hp.outside hf)).congr
    (fun _ _ => Iff.rfl) fun bs => ?_
  rw [arrayHarm_word_iff host hp.size]
  constructor
  · rintro ⟨c, tl, hbs, -, hrest⟩
    exact ⟨c, tl, hbs, hrest⟩
  · rintro ⟨c, tl, hbs, hrest⟩
    exact ⟨c, tl, hbs, by have := c.isLt; omega, hrest⟩

/-- Words in an array so short that its size never wraps: nothing is harmful. -/
theorem pdrArray_decodes_words_short (hf : Fetches o ops) {w : ℕ}
    {proc : PDR → Option (BitVec w) → Action (BitVec w)} (hp : ScalarProc proc)
    (a : CArray (BitVec w) (w / 8)) {m : ℕ}
    (hmax : m * (w / 8) < 2 ^ 64) (z : BitVec w) :
    Decodes (pdrArray host ⟨.decode, ops⟩ a m proc z)
      (fun a bs => ArrayOk host (w / 8) m (fun _ => True) a.data ∧
        bs = arrayForm o (nativeBytes o) a.data)
      (fun _ => False) := by
  refine (pdrArray_decodes host hf hp.size.pos a m (hp.decodes_any hf z) (hp.outside hf)).congr
    (fun _ _ => Iff.rfl) fun bs => ?_
  rw [arrayHarm_word_iff host hp.size, iff_false]
  rintro ⟨c, tl, -, hc, -, hwrap, -⟩
  have hle : c.toNat * (w / 8) ≤ m * (w / 8) := Nat.mul_le_mul_right _ hc
  omega

/-- A string of length 0, if the allocator grants a block of that size. -/
def EmptyStringHarm (o : ByteOrder) (bs : List Byte) : Prop :=
  (host.malloc 0).isSome ∧ nativeBytes o (0 : BitVec 32) <+: bs

/-- Strings in an array: a string of length 0, or a slot outside the block. -/
def StringArrayHarm (o : ByteOrder) (maxsize : ℕ) : List Byte → Prop :=
  ArrayHarm host o 8 maxsize (SlotOk host) (slotForm o) (EmptyStringHarm host o) (fun _ => True)

theorem pdrWrapstring_decodes (hf : Fetches o ops) :
    Decodes (pdrWrapstring host ⟨.decode, ops⟩ (some none))
      (fun v bs => SlotOk host v ∧ bs = slotForm o v) (EmptyStringHarm host o) :=
  pdrString_decodes host hf wrapstringMax

theorem pdrArray_decodes_strings (hf : Fetches o ops) (a : CArray (Option (List Byte)) 8)
    (maxsize : ℕ) :
    Decodes (pdrArray host ⟨.decode, ops⟩ a maxsize (pdrWrapstring host) none)
      (fun a bs => ArrayOk host 8 maxsize (SlotOk host) a.data ∧
        bs = arrayForm o (slotForm o) a.data)
      (StringArrayHarm host o maxsize) :=
  pdrArray_decodes host hf (by decide) a maxsize (pdrWrapstring_decodes host hf)
    (pdrString_decodes_outside host _)

theorem pdrVector_decodes {w : ℕ} {proc : PDR → Option (BitVec w) → Action (BitVec w)}
    (hp : ScalarProc proc) (hf : Fetches o ops) (base : List (BitVec w)) :
    Decodes (pdrVector (proc ⟨.decode, ops⟩) base)
      (fun vs bs => vs.length = base.length ∧ bs = vs.flatMap (nativeBytes o))
      (fun _ => False) := by
  induction base with
  | nil =>
      refine (Decodes.pure []).congr (fun vs bs => ?_) (fun _ => Iff.rfl)
      constructor
      · rintro ⟨rfl, rfl⟩
        exact ⟨rfl, rfl⟩
      · rintro ⟨hl, rfl⟩
        obtain rfl := List.eq_nil_of_length_eq_zero hl
        exact ⟨rfl, rfl⟩
  | cons z base ih =>
      refine ((hp.decodes hf z).bind fun v => ih.bind fun vs => Decodes.pure (v :: vs)).congr
        (fun vs bs => ?_) (by simp)
      constructor
      · rintro ⟨v, _, _, rfl, ⟨vs', _, _, ⟨hl, rfl⟩, ⟨rfl, rfl⟩, rfl⟩, rfl⟩
        exact ⟨by rw [List.length_cons, hl, List.length_cons], by simp⟩
      · rintro ⟨hl, rfl⟩
        cases vs with
        | nil => simp at hl
        | cons v vs =>
            exact ⟨v, _, _, rfl, ⟨vs, _, [], ⟨by simpa using hl, rfl⟩, ⟨rfl, rfl⟩,
              (List.append_nil _).symm⟩, by simp⟩

end Decode

end MRNet.Wire
