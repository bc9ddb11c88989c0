import MRNet.MessageForms

/-!
# Malformed messages

Which streams `recv` handles safely: it stays within its arrays, a failure leaves
the caller's list alone, and every buffer ends with one owner or is released once.
-/
namespace MRNet.Wire
open NativeBytes Codec

/-- Every buffer of the call is owned by one packet or released once, not both. -/
def Received.Balanced (r : Received) : Prop :=
  ∀ u ∈ r.allocated, (r.owned ++ r.released).count u = 1

/-- `recv` returns, a failure does not change the list, and the ledger is balanced. -/
def RecvSafe (host : Host) (iinletRank : BitVec 32) (packetsIn : List Packet)
    (stream : List Byte) : Prop :=
  ∃ r, recv host iinletRank packetsIn stream = .ok r ∧
    (r.rc = -1 → r.packetsIn = packetsIn) ∧ r.Balanced

/-- A header that makes no trouble: its length is 0, or it is there and begins with
the form of a header in the byte order that its last byte says. -/
def HeaderReadable (host : Host) (hdrLen : BitVec 32) (hdr : Option (List Byte)) : Prop :=
  hdrLen = 0 ∨ ∃ block bo fields, hdr = some block ∧ block[hdrLen.toNat - 1]? = some bo ∧
    HeaderOk host fields ∧ headerForm (decodeOrder host bo) fields <+: block.take hdrLen.toNat

/-- The streams that `recv` handles safely. Where the sizes can be received at all,
there is memory to decode them, and where the announced bytes then arrive, the
count is below 2^31 and every header is readable. -/
def WellBehaved (host : Host) (stream : List Byte) : Prop :=
  ∀ a body, Framed host stream a body → VectorGranted host a.numPackets →
    SizesGranted host a.numPackets ∧
    ((recvBufs (allocBufs host a.sizes) body).2.1 = a.sizes.sum →
      a.numPackets.toNat < 2 ^ 31 ∧
      ∀ j < a.numPackets.toNat, ∀ b,
        (recvBufs (allocBufs host a.sizes) body).1[2 * j]? = some b →
          HeaderReadable host (b.len.setWidth 32) b.buf)

lemma le_of_mem_held {u v : ℕ} {bufs : List NCBuf} (h : v ∈ held u bufs) : u ≤ v := by
  induction bufs generalizing u with
  | nil => simp [held] at h
  | cons b bufs ih =>
      simp only [held] at h
      split_ifs at h
      · rcases List.mem_cons.mp h with rfl | h
        · exact le_rfl
        · have hle := ih h
          omega
      · have hle := ih h
        omega

theorem held_nodup (u : ℕ) (bufs : List NCBuf) : (held u bufs).Nodup := by
  induction bufs generalizing u with
  | nil => exact List.nodup_nil
  | cons b bufs ih =>
      simp only [held]
      split_ifs
      · refine List.nodup_cons.mpr ⟨fun h => ?_, ih _⟩
        have hle := le_of_mem_held h
        omega
      · exact ih _

lemma held_append (u : ℕ) (bufs bufs' : List NCBuf) :
    held u (bufs ++ bufs') = held u bufs ++ held (u + bufs.length) bufs' := by
  induction bufs generalizing u with
  | nil => simp [held]
  | cons b bufs ih =>
      simp only [List.cons_append, held, ih, List.length_cons]
      rw [Nat.add_assoc, Nat.add_comm 1]
      split_ifs <;> simp

section Publish
variable (host : Host) (iinletRank : BitVec 32)

/-- The receive constructor succeeds on the readable headers. -/
theorem receive_readable_iff (hdrLen : BitVec 32) (hdr : Option (List Byte)) (bufLen : BitVec 64)
    (buf : Option (List Byte)) :
    (∃ p, Packet.receive host hdrLen hdr bufLen buf iinletRank = .ok p ∧ p.hasError = false) ↔
      HeaderReadable host hdrLen hdr := by
  by_cases h0 : hdrLen = 0
  · refine ⟨fun _ => Or.inl h0, fun _ => ⟨Packet.blank 0 hdr bufLen buf iinletRank, ?_, rfl⟩⟩
    rw [h0]
    rfl
  · simp only [HeaderReadable, h0, false_or, Packet.receive, Packet.decodePdrHeader, Packet.blank,
      if_false]
    cases hdr with
    | none => simp
    | some block =>
        cases hbo : block[hdrLen.toNat - 1]? with
        | none => simp [hbo]
        | some bo =>
            have hvalid : Cursor.Valid ⟨block, 0, hdrLen.toNat⟩ := by
              have hlt := (List.getElem?_eq_some_iff.mp hbo).1
              simp only [Cursor.Valid]
              omega
            have hd : ∀ fields s', pdrPacketHeader host (pdrmemCreate host .decode bo)
                ⟨BitVec.allOnes 32, BitVec.allOnes 32, unknownRank, none, CArray.empty, 0⟩
                ⟨block, 0, hdrLen.toNat⟩ = .ok (fields, s') ↔ _ :=
              (pdrPacketHeader_decodes host (pdrmemCreate_fetches host bo) _ rfl).ok_iff _ hvalid
            have hrest : Cursor.rest ⟨block, 0, hdrLen.toNat⟩ = block.take hdrLen.toNat := rfl
            rw [hrest] at hd
            simp only [hbo]
            constructor
            · rintro ⟨p, hp, herr⟩
              split at hp
              · rename_i fields s heq
                obtain ⟨bs, ⟨hok, rfl⟩, hpre, -⟩ := (hd _ _).mp heq
                exact ⟨block, bo, fields, rfl, hbo, hok, hpre⟩
              · cases hp
                cases herr
              · cases hp
            · rintro ⟨block', bo', fields, hblock, hbo', hok, hpre⟩
              cases hblock
              rw [hbo] at hbo'
              cases hbo'
              rw [(hd fields _).mpr ⟨_, ⟨hok, rfl⟩, hpre, rfl⟩]
              exact ⟨_, rfl, rfl⟩

/-- A packet with an error has a header buffer. -/
lemma receive_error {hdrLen : BitVec 32} {hdr : Option (List Byte)} {bufLen : BitVec 64}
    {buf : Option (List Byte)} {p : Packet}
    (hp : Packet.receive host hdrLen hdr bufLen buf iinletRank = .ok p) (herr : p.hasError) :
    hdr.isSome := by
  by_cases h0 : hdrLen = 0
  · rw [h0] at hp
    cases hp
    cases herr
  · cases hdr with
    | none =>
        rw [Packet.receive, Packet.decodePdrHeader, if_neg (by exact h0)] at hp
        cases hp
    | some block => rfl

/-- With two buffers and a readable header for each packet, all are made, and they
own these buffers. -/
theorem publish_readable {todo : ℕ} (i : ℕ) {bufs : List NCBuf} (hl : 2 * todo ≤ bufs.length)
    (hall : ∀ j < todo, ∀ b, bufs[2 * j]? = some b →
      HeaderReadable host (b.len.setWidth 32) b.buf) :
    ∃ ps, publish host iinletRank todo i bufs =
      .ok ⟨ps, held i (bufs.take (2 * todo)), [], false⟩ := by
  induction todo generalizing i bufs with
  | zero => exact ⟨[], rfl⟩
  | succ todo ih =>
      obtain ⟨h, d, bufs, rfl⟩ : ∃ h d rest, bufs = h :: d :: rest := by
        rcases bufs with _ | ⟨h, _ | ⟨d, rest⟩⟩
        · simp at hl
        · simp at hl
          omega
        · exact ⟨h, d, rest, rfl⟩
      obtain ⟨p, hp, herr⟩ := (receive_readable_iff host iinletRank _ _ d.len d.buf).mpr
        (hall 0 (by omega) h rfl)
      have hl' : 2 * todo ≤ bufs.length := by
        simp only [List.length_cons] at hl
        omega
      obtain ⟨ps, hps⟩ := ih (i + 2) hl'
        fun j hj b hb => hall (j + 1) (by omega) b (by simpa [Nat.mul_add] using hb)
      refine ⟨p :: ps, ?_⟩
      rw [publish, hp, ok_bind, herr, if_neg (by simp), hps, Nat.mul_add]
      simp only [ok_bind, Nat.mul_one, List.take_succ_cons]
      rw [show h :: d :: bufs.take (2 * todo) = [h, d] ++ bufs.take (2 * todo) from rfl,
        held_append]
      rfl

/-- If a packet fails, its header buffer is released twice. -/
theorem publish_cases {todo i : ℕ} {bufs : List NCBuf} {p : Published}
    (h : publish host iinletRank todo i bufs = .ok p) :
    (p.failed = false ∧ 2 * todo ≤ bufs.length ∧ ∀ j < todo, ∀ b, bufs[2 * j]? = some b →
      HeaderReadable host (b.len.setWidth 32) b.buf) ∨
    ∃ u ∈ held i bufs, 2 ≤ (p.owned ++ p.released).count u := by
  induction todo generalizing i bufs p with
  | zero =>
      cases h
      exact Or.inl ⟨rfl, by omega, by simp⟩
  | succ todo ih =>
      rcases bufs with _ | ⟨hb, _ | ⟨d, bufs⟩⟩
      · cases h
      · cases h
      · rw [publish] at h
        obtain ⟨q, hq, h⟩ := bind_ok_iff.mp h
        split_ifs at h with herr
        · cases h
          have hsome := receive_error host iinletRank hq herr
          have hfirst : ∀ rest, 1 ≤ (held i (hb :: rest)).count i := fun rest => by
            simp [held, hsome]
          refine Or.inr ⟨i, by simp [held, hsome], ?_⟩
          have hpair := hfirst [d]
          have hrest := hfirst (d :: bufs)
          simp only [List.nil_append, List.count_append]
          omega
        · obtain ⟨r, hr, h⟩ := bind_ok_iff.mp h
          cases h
          rcases ih hr with ⟨hf, hl, hall⟩ | ⟨u, hu, hcount⟩
          · refine Or.inl ⟨hf, by simp only [List.length_cons]; omega, fun j hj b hj' => ?_⟩
            cases j with
            | zero =>
                cases hj'
                exact (receive_readable_iff host iinletRank _ _ _ _).mp
                  ⟨q, hq, Bool.eq_false_iff.mpr herr⟩
            | succ j => exact hall j (by omega) b (by simpa [Nat.mul_add] using hj')
          · refine Or.inr ⟨u, ?_, ?_⟩
            · rw [show hb :: d :: bufs = [hb, d] ++ bufs from rfl, held_append]
              exact List.mem_append_right _ hu
            · simp only [List.append_assoc, List.count_append] at hcount ⊢
              omega

end Publish

section Recv
variable (host : Host)

lemma recvBufs_length (sizes : List (BitVec 64)) (body : List Byte) :
    (recvBufs (allocBufs host sizes) body).1.length = sizes.length := by
  have hshape := congrArg List.length (recvBufs_shape (allocBufs host sizes) body)
  simpa [allocBufs] using hshape

/-- As many entries as packets need are set up exactly if the count is below 2^31. -/
lemma numBuffers_enough_iff (n : BitVec 32) : 2 * n.toNat ≤ (n * 2).toNat ↔ n.toNat < 2 ^ 31 := by
  have hlt := n.isLt
  have h2 : (2 : BitVec 32).toNat = 2 := rfl
  rw [BitVec.toNat_mul, h2]
  omega

/-- Where the bytes do not arrive, the buffers are released. -/
lemma balanced_released (rc : ℤ) (packetsIn : List Packet) (rest : List Byte)
    (bufs : List NCBuf) :
    Received.Balanced ⟨rc, packetsIn, rest, held 0 bufs, [], held 0 bufs⟩ := by
  intro u hu
  exact List.count_eq_one_of_mem (held_nodup 0 bufs) hu

lemma balanced_owned (rc : ℤ) (packetsIn : List Packet) (rest : List Byte) (bufs : List NCBuf) :
    Received.Balanced ⟨rc, packetsIn, rest, held 0 bufs, held 0 bufs, []⟩ := by
  intro u hu
  rw [List.append_nil]
  exact List.count_eq_one_of_mem (held_nodup 0 bufs) hu

variable (iinletRank : BitVec 32) (packetsIn : List Packet) {stream : List Byte}

lemma wellBehaved_of_recvSafe (h : RecvSafe host iinletRank packetsIn stream) :
    WellBehaved host stream := by
  intro a body hf hv
  obtain ⟨r, hr, -, hbal⟩ := h
  have hs : SizesGranted host a.numPackets := by
    by_contra hs
    rw [recv, recvSizes_fault host hf hv hs] at hr
    cases hr
  refine ⟨hs, fun htotal => ?_⟩
  rw [recv, recvSizes_framed host hf hv hs, ok_bind] at hr
  dsimp only at hr
  rw [if_neg (not_not.mpr htotal)] at hr
  obtain ⟨p, hp, hr⟩ := bind_ok_iff.mp hr
  cases hr
  rcases publish_cases host iinletRank hp with ⟨-, hl, hall⟩ | ⟨u, hu, hcount⟩
  · rw [recvBufs_length, hf.1] at hl
    exact ⟨(numBuffers_enough_iff _).mp hl, hall⟩
  · have hone := hbal u hu
    dsimp only at hone
    omega

lemma recvSafe_of_wellBehaved (h : WellBehaved host stream) :
    RecvSafe host iinletRank packetsIn stream := by
  by_cases hex : ∃ a body, Framed host stream a body ∧ VectorGranted host a.numPackets
  · obtain ⟨a, body, hf, hv⟩ := hex
    obtain ⟨hs, hread⟩ := h a body hf hv
    rw [RecvSafe, recv, recvSizes_framed host hf hv hs, ok_bind]
    dsimp only
    by_cases htotal : (recvBufs (allocBufs host a.sizes) body).2.1 = a.sizes.sum
    · obtain ⟨hn, hall⟩ := hread htotal
      have hl : (recvBufs (allocBufs host a.sizes) body).1.length = 2 * a.numPackets.toNat := by
        have hlt := a.numPackets.isLt
        have h2 : (2 : BitVec 32).toNat = 2 := rfl
        rw [recvBufs_length, hf.1, BitVec.toNat_mul, h2]
        omega
      obtain ⟨ps, hps⟩ := publish_readable host iinletRank 0 hl.ge hall
      rw [List.take_of_length_le hl.le] at hps
      rw [if_neg (not_not.mpr htotal), hps]
      exact ⟨_, rfl, fun hrc => absurd hrc (by simp), balanced_owned _ _ _ _⟩
    · rw [if_pos htotal]
      exact ⟨_, rfl, fun _ => rfl, balanced_released _ _ _ _⟩
  · obtain ⟨rest, hrest⟩ := recvSizes_unframed host fun a body hf hv => hex ⟨a, body, hf, hv⟩
    rw [RecvSafe, recv, hrest, ok_bind]
    exact ⟨_, rfl, fun _ => rfl, fun u hu => by simp at hu⟩

/-- `recv` handles exactly the well-behaved streams safely. -/
theorem recvSafe_iff : RecvSafe host iinletRank packetsIn stream ↔ WellBehaved host stream :=
  ⟨wellBehaved_of_recvSafe host iinletRank packetsIn,
    recvSafe_of_wellBehaved host iinletRank packetsIn⟩

end Recv

/-- A message of one packet with a header of one byte and no data. -/
def shortHeader : List Byte :=
  [0] ++ nativeBytes .little (1 : BitVec 32) ++ nativeBytes .little (1 : BitVec 64) ++
    nativeBytes .little (0 : BitVec 64) ++ [0] ++ [0]

lemma recv_shortHeader : recv (Host.ample .little) 7 [] shortHeader =
    .ok ⟨-1, [], [], [0, 1], [], [0, 1, 0, 1]⟩ := rfl

/-- Both buffers of the packet are released by its destructor and once more. -/
theorem shortHeader_not_safe : ¬ RecvSafe (Host.ample .little) 7 [] shortHeader := by
  rintro ⟨r, hr, -, hbal⟩
  rw [recv_shortHeader] at hr
  cases hr
  exact absurd (hbal 0 (by decide)) (by decide)

end MRNet.Wire
