import Mathlib.Data.List.SplitLengths
import MRNet.SocketUtils

/-!
# Scatter receives from a socket

Translation of `SocketUtils::Recv` and `SocketUtils::recv` from `SocketUtils-unix.C`, as they
are built: `XPLAT_RECV_NO_BLOCK` is defined, so there is one `recv` for each buffer. What the
peer sends is a list, and a run whose list of replies ends is still waiting in a call.
-/
namespace MRNet.SocketUtils

/-- `interrupted` stands for `EINTR` and `EAGAIN`, and `reset` for `ECONNRESET`. A read of `n`
items is one of at most what was asked for and is left; a read of nothing is the end of the
stream. -/
inductive RecvReply where
  | read (n : ℕ)
  | interrupted
  | reset
  | error
  deriving DecidableEq, Repr

/-- How far a function got: what it writes to, its return value unless it is waiting, what is
left of the stream, and the replies not yet given. -/
structure Receipt (α β : Type) where
  target : β
  ret : Option ℤ
  stream : List α
  replies : List RecvReply

section Model
variable {α : Type}

/-- The loop of `recv` with `bytes_recvd`. -/
def recvLoop (buf : List α) (recvd : ℕ) (stream : List α) :
    List RecvReply → Receipt α (List α)
  | [] => ⟨buf, none, stream, []⟩
  | .interrupted :: replies => recvLoop buf recvd stream replies
  | .reset :: replies => ⟨buf, some (-1), stream, replies⟩
  | .error :: replies => ⟨buf, some recvd, stream, replies⟩
  | .read n :: replies =>
      let ret := min n (min (buf.length - recvd) stream.length)
      if ret = 0 then ⟨buf, some (-1), stream, replies⟩
      else
        let buf := buf.take recvd ++ stream.take ret ++ buf.drop (recvd + ret)
        if recvd + ret < buf.length then
          recvLoop buf (recvd + ret) (stream.drop ret) replies
        else ⟨buf, some ↑(recvd + ret), stream.drop ret, replies⟩

def recv (buf stream : List α) (replies : List RecvReply) : Receipt α (List α) :=
  if buf.length = 0 then ⟨buf, some 0, stream, replies⟩ else recvLoop buf 0 stream replies

/-- `SocketUtils::Recv`. A count below zero is not added, and the next buffer is tried. -/
def recvBufs : List (List α) → ℤ → List α → List RecvReply → Receipt α (List (List α))
  | [], ret, stream, replies => ⟨[], some ret, stream, replies⟩
  | buf :: bufs, ret, stream, replies =>
      let p := recv buf stream replies
      match p.ret with
      | none => ⟨p.target :: bufs, none, p.stream, p.replies⟩
      | some rret =>
          let q := recvBufs bufs (if rret ≥ 0 then ret + rret else ret) p.stream p.replies
          { q with target := p.target :: q.target }

end Model

variable {α : Type}

/-- A count that is returned is at most the length of the buffer. If it is the whole length,
then the cells from `recvd` on hold the next items of the stream. -/
structure Fills (p : Receipt α (List α)) (buf : List α) (recvd : ℕ) (stream : List α) : Prop where
  ret_le : ∀ r, p.ret = some r → r ≤ buf.length
  enough : p.ret = some (buf.length : ℤ) → buf.length - recvd ≤ stream.length
  target_eq : p.ret = some (buf.length : ℤ) →
    p.target = buf.take recvd ++ stream.take (buf.length - recvd)
  stream_eq : p.ret = some (buf.length : ℤ) → p.stream = stream.drop (buf.length - recvd)

/-- A return value below the length says nothing about the buffer. -/
lemma Fills.of_lt {p : Receipt α (List α)} {buf stream : List α} {recvd : ℕ} {r : ℤ}
    (hret : p.ret = some r) (hlt : r < buf.length) : Fills p buf recvd stream := by
  have hne : p.ret ≠ some (buf.length : ℤ) := by
    simp only [hret, ne_eq, Option.some.injEq]
    omega
  refine ⟨fun r' hr' => ?_, fun h => absurd h hne, fun h => absurd h hne, fun h => absurd h hne⟩
  simp only [hret, Option.some.injEq] at hr'
  omega

lemma Fills.of_waiting {p : Receipt α (List α)} {buf stream : List α} {recvd : ℕ}
    (hret : p.ret = none) : Fills p buf recvd stream := by
  constructor <;> simp [hret]

/-- The buffer after `n` items were read into it. -/
lemma length_stored {buf : List α} {recvd n : ℕ} (stream : List α) (hn : n ≤ buf.length - recvd)
    (hstream : n ≤ stream.length) (hrecvd : recvd ≤ buf.length) :
    (buf.take recvd ++ stream.take n ++ buf.drop (recvd + n)).length = buf.length := by
  simp only [List.length_append, List.length_take, List.length_drop]
  omega

lemma take_stored {stream : List α} {recvd n : ℕ} (buf : List α) (hstream : n ≤ stream.length)
    (hrecvd : recvd ≤ buf.length) :
    (buf.take recvd ++ stream.take n ++ buf.drop (recvd + n)).take (recvd + n) =
      buf.take recvd ++ stream.take n := by
  apply List.take_left'
  simp only [List.length_append, List.length_take]
  omega

/-- The loop: by induction on the replies, with the items read so far in place. -/
theorem recvLoop_fills (buf stream : List α) (recvd : ℕ) (replies : List RecvReply)
    (h : recvd < buf.length) : Fills (recvLoop buf recvd stream replies) buf recvd stream := by
  induction replies generalizing buf stream recvd with
  | nil => exact .of_waiting rfl
  | cons reply replies ih =>
      cases reply with
      | interrupted => exact ih buf stream recvd h
      | reset => exact .of_lt rfl (by omega)
      | error => exact .of_lt rfl (by omega)
      | read n =>
          obtain ⟨m, hm⟩ : ∃ m, m = min n (min (buf.length - recvd) stream.length) := ⟨_, rfl⟩
          have hroom : m ≤ buf.length - recvd := by omega
          have hstream : m ≤ stream.length := by omega
          have hlength := length_stored stream hroom hstream h.le
          have htake := take_stored buf hstream h.le
          have hsplit (k : ℕ) :
              stream.take m ++ (stream.drop m).take k = stream.take (m + k) :=
            List.take_add.symm
          rw [recvLoop, ← hm]
          simp only [hlength]
          split_ifs with hend hmore
          · exact .of_lt rfl (by omega)
          · obtain ⟨hle, henough, htarget, hrest⟩ := ih
              (buf.take recvd ++ stream.take m ++ buf.drop (recvd + m)) (stream.drop m)
              (recvd + m) (by rw [hlength]; exact hmore)
            have hsum : m + (buf.length - (recvd + m)) = buf.length - recvd := by omega
            rw [hlength] at hle henough htarget hrest
            refine ⟨hle, fun hret => ?_, fun hret => ?_, fun hret => ?_⟩
            · have hleft := henough hret
              rw [List.length_drop] at hleft
              omega
            · rw [htarget hret, htake, List.append_assoc, hsplit, hsum]
            · rw [hrest hret, List.drop_drop, hsum]
          · have hwhole : m = buf.length - recvd := by omega
            refine ⟨fun r hr => ?_, fun _ => by omega, fun _ => ?_, fun _ => by rw [hwhole]⟩
            · simp only [Option.some.injEq] at hr
              omega
            · rw [← hwhole, List.drop_of_length_le (by omega), List.append_nil]

theorem recv_fills (buf stream : List α) (replies : List RecvReply) :
    Fills (recv buf stream replies) buf 0 stream := by
  unfold recv
  split_ifs with hempty
  · have hnil : buf = [] := List.eq_nil_of_length_eq_zero hempty
    constructor <;> simp [hnil]
  · exact recvLoop_fills buf stream 0 replies (by omega)

lemma flatten_splitLengths (lens : List ℕ) (stream : List α) :
    (lens.splitLengths stream).flatten = stream.take lens.sum := by
  induction lens generalizing stream with
  | nil => simp
  | cons n lens ih => simp [ih, List.take_add]

/-- The count is at most the sum of the lengths, and it is the sum only if each buffer was
filled. -/
theorem recvBufs_fills (bufs : List (List α)) (base : ℤ) (stream : List α)
    (replies : List RecvReply) {r : ℤ} (hret : (recvBufs bufs base stream replies).ret = some r) :
    r ≤ base + bufs.flatten.length ∧
      (r = base + bufs.flatten.length →
        bufs.flatten.length ≤ stream.length ∧
        (recvBufs bufs base stream replies).target =
          (bufs.map List.length).splitLengths stream ∧
        (recvBufs bufs base stream replies).stream = stream.drop bufs.flatten.length) := by
  induction bufs generalizing base stream replies with
  | nil => simp_all [recvBufs]
  | cons buf bufs ih =>
      obtain ⟨hle, henough, htarget, hrest⟩ := recv_fills buf stream replies
      rw [recvBufs] at hret ⊢
      cases hone : (recv buf stream replies).ret with
      | none => simp [hone] at hret
      | some rret =>
          simp only [hone] at hret ⊢
          obtain ⟨hsum, hwhole⟩ := ih _ _ _ hret
          have hfirst := hle rret hone
          have hadd : (if rret ≥ 0 then base + rret else base) ≤ base + buf.length := by
            split_ifs <;> omega
          simp only [List.flatten_cons, List.length_append, Nat.cast_add]
          refine ⟨by omega, fun hr => ?_⟩
          -- Nothing may be missing from the count of the first buffer, or of the others.
          have hfull : (if rret ≥ 0 then base + rret else base) = base + buf.length := by omega
          have hrret : rret = buf.length := by
            by_cases hzero : buf.length = 0
            · simp only [recv, if_pos hzero, Option.some.injEq] at hone
              omega
            · split_ifs at hfull <;> omega
          subst hrret
          obtain ⟨hstream, htargets, hdrop⟩ := hwhole (by omega)
          have hroom := henough hone
          rw [hrest hone, Nat.sub_zero] at hstream hdrop htargets ⊢
          rw [List.length_drop] at hstream
          refine ⟨by omega, ?_, by rw [hdrop, List.drop_drop]⟩
          rw [htarget hone, Nat.sub_zero]
          rw [List.map_cons, List.splitLengths_cons, List.take_zero, List.nil_append, htargets]

/-- The total length is returned only if the buffers hold the next items of the stream, each
its own slice of them, and the stream goes on behind them. -/
theorem recvBufs_exact (bufs : List (List α)) (stream : List α) (replies : List RecvReply)
    (hret : (recvBufs bufs 0 stream replies).ret = some (bufs.flatten.length : ℤ)) :
    (recvBufs bufs 0 stream replies).target = (bufs.map List.length).splitLengths stream ∧
      (recvBufs bufs 0 stream replies).target.map List.length = bufs.map List.length ∧
      (recvBufs bufs 0 stream replies).target.flatten = stream.take bufs.flatten.length ∧
      (recvBufs bufs 0 stream replies).stream = stream.drop bufs.flatten.length := by
  obtain ⟨hstream, htarget, hrest⟩ := (recvBufs_fills bufs 0 stream replies hret).2 (by simp)
  have hsum : (bufs.map List.length).sum = bufs.flatten.length := List.length_flatten.symm
  refine ⟨htarget, ?_, ?_, hrest⟩
  · rw [htarget, List.map_splitLengths_length _ _ (by omega)]
  · rw [htarget, flatten_splitLengths, hsum]

/-- Two buffers around an empty one: the first is filled in two reads with an interruption
between them. -/
theorem recvBufs_exact_split :
    (recvBufs [[0, 0], [], [0]] 0 [1, 2, 3, 4] [.read 1, .interrupted, .read 1, .read 5]).ret =
        some 3 ∧
      (recvBufs [[0, 0], [], [0]] 0 [1, 2, 3, 4]
        [.read 1, .interrupted, .read 1, .read 5]).target.flatten = [1, 2, 3] :=
  ⟨by decide, (recvBufs_exact [[0, 0], [], [0]] [1, 2, 3, 4] _ (by decide)).2.2.1⟩

end MRNet.SocketUtils
