import MRNet.NativeBytes
import MRNet.Transfer

/-!
# Scatter sends over a socket

Translation of `SocketUtils::Send` and `SocketUtils::send` from
`SocketUtils-unix.C`. The kernel is the list of its replies to the system calls,
in the order of the calls; a run whose list ends is still waiting in a call. Each
call is logged with the bytes offered to it. `IOV_MAX` is a parameter. Nothing
depends on the items being bytes.
-/
namespace MRNet.SocketUtils
open NativeBytes Transfer

/-- `transient` stands for `EINTR`, `EAGAIN` and `EWOULDBLOCK`. A write of `n`
bytes is a write of at most what was offered. -/
inductive Reply where
  | wrote (n : ℕ)
  | transient
  | error
  deriving DecidableEq, Repr

inductive Syscall where
  | writev
  | send
  deriving DecidableEq, Repr

structure Call (α : Type) where
  via : Syscall
  offered : List α
  reply : Reply
  deriving DecidableEq, Repr

/-- How far a function got: its calls, its return value unless it is waiting, and
the replies not yet given. -/
structure Progress (α ρ : Type) where
  calls : List (Call α)
  ret : Option ρ
  replies : List Reply
  deriving DecidableEq, Repr

section Model
variable {α ρ : Type}

def Progress.after (calls : List (Call α)) (p : Progress α ρ) : Progress α ρ :=
  { p with calls := calls ++ p.calls }

/-- The loop of `send` with `bytes_written`. -/
def sendLoop (buf : List α) : ℕ → List Reply → Progress α ℕ
  | _, [] => ⟨[], none, []⟩
  | written, .transient :: replies =>
      (sendLoop buf written replies).after [⟨.send, buf.drop written, .transient⟩]
  | written, .error :: replies => ⟨[⟨.send, buf.drop written, .error⟩], some written, replies⟩
  | written, .wrote n :: replies =>
      let written' := written + min n (buf.length - written)
      let call : Call α := ⟨.send, buf.drop written, .wrote n⟩
      if written' < buf.length then (sendLoop buf written' replies).after [call]
      else ⟨[call], some written', replies⟩

/-- The count returned on an error is that of the bytes written before it. -/
def send (buf : List α) (replies : List Reply) : Progress α ℕ :=
  if buf.length = 0 then ⟨[], some 0, replies⟩ else sendLoop buf 0 replies

/-- The buffers of a batch that are left after `writev` wrote `wret` bytes: a
buffer that was written in part is cut. -/
def unsent : ℕ → List (List α) → List (List α)
  | _, [] => []
  | wret, buf :: bufs =>
      if buf.length = wret then bufs
      else if buf.length > wret then buf.drop wret :: bufs
      else unsent (wret - buf.length) bufs

/-- The fallback: one `send` for each remaining buffer. -/
def sendEach : List (List α) → ℤ → List Reply → Progress α ℤ
  | [], ret, replies => ⟨[], some ret, replies⟩
  | buf :: bufs, ret, replies =>
      let p := send buf replies
      match p.ret with
      | none => ⟨p.calls, none, p.replies⟩
      | some wret => (sendEach bufs (ret + wret) p.replies).after p.calls

/-- The main loop, one batch of buffers for each `writev`. After a transient error
the next batch is taken up. -/
def sendBatches : List (List (List α)) → ℤ → List Reply → Progress α ℤ
  | [], ret, replies => ⟨[], some ret, replies⟩
  | _ :: _, _, [] => ⟨[], none, []⟩
  | batch :: batches, ret, .transient :: replies =>
      (sendBatches batches ret replies).after [⟨.writev, batch.flatten, .transient⟩]
  | batch :: _, _, .error :: replies =>
      ⟨[⟨.writev, batch.flatten, .error⟩], some (-1), replies⟩
  | batch :: batches, ret, .wrote n :: replies =>
      let wret := min n batch.flatten.length
      let call : Call α := ⟨.writev, batch.flatten, .wrote n⟩
      if wret = batch.flatten.length then
        (sendBatches batches (ret + wret) replies).after [call]
      else
        let p := sendEach (unsent wret batch) (ret + wret) replies
        match p.ret with
        | none => ⟨call :: p.calls, none, p.replies⟩
        | some ret => (sendBatches batches ret p.replies).after (call :: p.calls)

/-- The buffers in groups of `m`. -/
def batchesOf (m : ℕ) : ℕ → List (List α) → List (List (List α))
  | 0, _ => []
  | _ + 1, [] => []
  | fuel + 1, buf :: bufs =>
      (buf :: bufs).take m :: batchesOf m fuel ((buf :: bufs).drop m)

/-- `currIovLen`. -/
def iovLen (iovMax nBufs : ℕ) : ℕ := if nBufs > iovMax then iovMax else 8

/-- `SocketUtils::Send`. -/
def sendBufs (iovMax : ℕ) (bufs : List (List α)) (replies : List Reply) : Progress α ℤ :=
  sendBatches (batchesOf (iovLen iovMax bufs.length) bufs.length bufs) 0 replies

end Model

section Handed
variable {α ρ : Type}

/-- What the kernel took of an offer, and what the code then gives up: a batch
after a transient error of `writev`, the rest of a buffer after an error of
`send`. -/
def Call.step (c : Call α) : Step α where
  taken :=
    match c.reply with
    | .wrote n => c.offered.take n
    | _ => []
  dropped :=
    match c.via, c.reply with
    | .writev, .transient => c.offered
    | .send, .error => c.offered
    | _, _ => []

def Progress.steps (p : Progress α ρ) : List (Step α) := p.calls.map Call.step

/-- The items handed to the kernel. -/
def Progress.handed (p : Progress α ρ) : List α := takenAll p.steps

@[simp] theorem after_steps (calls : List (Call α)) (p : Progress α ρ) :
    (p.after calls).steps = calls.map Call.step ++ p.steps := by
  simp [Progress.after, Progress.steps]

/-- The calls go over the items in order, and over all of them if the function
returns, in which case what it adds to `base` is the number of items handed over. -/
structure Covers (p : Progress α ρ) (val : ρ → ℤ) (base : ℤ) (items : List α) : Prop where
  isPrefix : passed p.steps <+: items
  whole : ∀ r, p.ret = some r → passed p.steps = items ∧ val r = base + p.handed.length

/-- Calls made before others. -/
theorem Covers.after {c : List (Call α)} {p : Progress α ρ} {val : ρ → ℤ} {base : ℤ}
    {items : List α} (before : List α) (hpass : passed (c.map Call.step) = before)
    (h : Covers p val (base + (takenAll (c.map Call.step)).length) items) :
    Covers (p.after c) val base (before ++ items) := by
  refine ⟨?_, fun r hr => ?_⟩
  · rw [after_steps, passed_append, hpass, List.prefix_append_right_inj]
    exact h.isPrefix
  · obtain ⟨hp, hval⟩ := h.whole r hr
    refine ⟨by rw [after_steps, passed_append, hpass, hp], ?_⟩
    rw [hval, Progress.handed, Progress.handed, after_steps, takenAll_append, List.length_append]
    push_cast
    ring

lemma sendLoop_covers (buf : List α) (written : ℕ) (replies : List Reply)
    (h : written < buf.length) :
    Covers (sendLoop buf written replies) (fun r : ℕ => (r : ℤ)) written (buf.drop written) := by
  induction replies generalizing written with
  | nil => exact ⟨List.nil_prefix, fun r hr => by cases hr⟩
  | cons reply replies ih =>
      cases reply with
      | transient =>
          have hrest := ih written h
          rw [sendLoop]
          refine Covers.after (c := [_]) [] (by simp [Call.step]) ?_
          simpa [Call.step] using hrest
      | error =>
          refine ⟨by simp [sendLoop, Progress.steps, Call.step], fun r hr => ?_⟩
          cases hr
          simp [sendLoop, Progress.steps, Progress.handed, Call.step]
      | wrote n =>
          rw [sendLoop]
          split_ifs with hlt
          · have hmin : min n (buf.length - written) = n := min_eq_left (by omega)
            rw [hmin] at hlt ⊢
            have hrest := ih _ hlt
            have hlen : ((buf.drop written).take n).length = n := by
              rw [List.length_take, List.length_drop]
              omega
            have hsplit := List.take_append_drop n (buf.drop written)
            rw [List.drop_drop] at hsplit
            rw [← hsplit]
            refine Covers.after (c := [_]) _ ?_ ?_
            · rw [hsplit]
              simp [Call.step]
            · rw [hsplit]
              simpa [Call.step, hlen] using hrest
          · have hall : (buf.drop written).take n = buf.drop written :=
              List.take_of_length_le (by rw [List.length_drop]; omega)
            refine ⟨by simp [Progress.steps, Call.step, hall], fun r hr => ?_⟩
            cases hr
            refine ⟨by simp [Progress.steps, Call.step, hall], ?_⟩
            simp only [Progress.steps, Progress.handed, Call.step, hall, List.map_cons,
              List.map_nil, takenAll_cons, takenAll_nil, List.append_nil, List.length_drop]
            omega

theorem send_covers (buf : List α) (replies : List Reply) :
    Covers (send buf replies) (fun r : ℕ => (r : ℤ)) 0 buf := by
  unfold send
  split_ifs with h0
  · obtain rfl := List.eq_nil_of_length_eq_zero h0
    refine ⟨List.prefix_refl _, fun r hr => ?_⟩
    cases hr
    exact ⟨rfl, rfl⟩
  · simpa using sendLoop_covers buf 0 replies (by omega)

theorem unsent_flatten (wret : ℕ) (bufs : List (List α)) :
    (unsent wret bufs).flatten = bufs.flatten.drop wret := by
  induction bufs generalizing wret with
  | nil => simp [unsent]
  | cons buf bufs ih =>
      rw [unsent, List.flatten_cons]
      split_ifs with heq hgt
      · rw [← heq, List.drop_left]
      · rw [List.drop_append_of_le_length hgt.le, List.flatten_cons]
      · rw [ih, List.drop_append, List.drop_of_length_le (l := buf) (by omega), List.nil_append]

theorem sendEach_covers (bufs : List (List α)) (ret : ℤ) (replies : List Reply) :
    Covers (sendEach bufs ret replies) id ret bufs.flatten := by
  induction bufs generalizing ret replies with
  | nil =>
      refine ⟨List.prefix_refl _, fun r hr => ?_⟩
      cases hr
      exact ⟨rfl, by simp [sendEach, Progress.handed, Progress.steps]⟩
  | cons buf bufs ih =>
      obtain ⟨hp, hw⟩ := send_covers buf replies
      rw [sendEach, List.flatten_cons]
      cases hret : (send buf replies).ret with
      | none =>
          refine ⟨?_, fun r hr => by cases hr⟩
          exact hp.trans (List.prefix_append _ _)
      | some wret =>
          obtain ⟨hpass, hcount⟩ := hw wret hret
          rw [zero_add] at hcount
          refine Covers.after buf hpass ?_
          change Covers _ _ (ret + ((send buf replies).handed.length : ℤ)) _
          rw [← hcount]
          exact ih (ret + wret) (send buf replies).replies

/-- The main loop. It ends early only on an error of `writev`, which is returned. -/
theorem sendBatches_covers (batches : List (List (List α))) (ret : ℤ) (replies : List Reply) :
    passed (sendBatches batches ret replies).steps <+: batches.flatten.flatten ∧
    ∀ r, (sendBatches batches ret replies).ret = some r →
      r = -1 ∨ r = ret + (sendBatches batches ret replies).handed.length := by
  induction batches generalizing ret replies with
  | nil =>
      refine ⟨List.prefix_refl _, fun r hr => ?_⟩
      cases hr
      exact Or.inr (by simp [sendBatches, Progress.handed, Progress.steps])
  | cons batch batches ih =>
      have hafter : ∀ (calls : List (Call α)) (ret' : ℤ) (replies' : List Reply),
          passed (calls.map Call.step) = batch.flatten →
          ret' = ret + (takenAll (calls.map Call.step)).length →
          passed ((sendBatches batches ret' replies').after calls).steps <+:
            (batch :: batches).flatten.flatten ∧
          ∀ r, ((sendBatches batches ret' replies').after calls).ret = some r →
            r = -1 ∨ r = ret + ((sendBatches batches ret' replies').after calls).handed.length := by
        intro calls ret' replies' hpass hret
        obtain ⟨hp, hw⟩ := ih ret' replies'
        refine ⟨?_, fun r hr => ?_⟩
        · rw [after_steps, passed_append, hpass, List.flatten_cons, List.flatten_append,
            List.prefix_append_right_inj]
          exact hp
        · refine (hw r hr).imp id fun hr => ?_
          rw [hr, hret, Progress.handed, Progress.handed, after_steps, takenAll_append,
            List.length_append]
          push_cast
          ring
      cases replies with
      | nil => exact ⟨List.nil_prefix, fun r hr => by cases hr⟩
      | cons reply replies =>
          cases reply with
          | transient =>
              exact hafter [_] ret replies (by simp [Call.step]) (by simp [Call.step])
          | error =>
              refine ⟨by simp [sendBatches, Progress.steps, Call.step], fun r hr => ?_⟩
              cases hr
              exact Or.inl rfl
          | wrote n =>
              rw [sendBatches]
              split_ifs with hall
              · have htake : batch.flatten.take n = batch.flatten :=
                  List.take_of_length_le (by omega)
                refine hafter [_] _ replies (by simp [Call.step, htake]) ?_
                simp only [List.map_cons, List.map_nil, Call.step, takenAll_cons, takenAll_nil,
                  htake, hall, List.append_nil]
              · have hmin : min n batch.flatten.length = n := min_eq_left (by omega)
                rw [hmin]
                have hlen : (batch.flatten.take n).length = n := by
                  rw [List.length_take, hmin]
                have hsplit := List.take_append_drop n batch.flatten
                obtain ⟨hp, hw⟩ := sendEach_covers (unsent n batch) (ret + n) replies
                rw [unsent_flatten] at hp hw
                dsimp only
                cases hret : (sendEach (unsent n batch) (ret + n) replies).ret with
                | none =>
                    refine ⟨?_, fun r hr => by cases hr⟩
                    simp only [Progress.steps, List.map_cons, passed_cons, Call.step,
                      List.append_nil, List.flatten_cons, List.flatten_append]
                    refine List.IsPrefix.trans ?_ (List.prefix_append batch.flatten _)
                    conv_rhs => rw [← hsplit]
                    rw [List.prefix_append_right_inj]
                    exact hp
                | some ret' =>
                    obtain ⟨hpass, hcount⟩ := hw ret' hret
                    refine hafter (_ :: (sendEach (unsent n batch) (ret + n) replies).calls) ret' _
                      ?_ ?_
                    · simp only [List.map_cons, passed_cons, Call.step, List.append_nil]
                      change _ ++ passed (sendEach (unsent n batch) (ret + n) replies).steps = _
                      rw [hpass, hsplit]
                    · simp only [List.map_cons, takenAll_cons, Call.step, List.length_append, hlen]
                      simp only [id, Progress.handed, Progress.steps] at hcount
                      rw [hcount]
                      push_cast
                      ring

theorem batchesOf_flatten {m : ℕ} (hm : 0 < m) (fuel : ℕ) (bufs : List (List α))
    (h : bufs.length ≤ fuel) : (batchesOf m fuel bufs).flatten = bufs := by
  induction fuel generalizing bufs with
  | zero =>
      obtain rfl := List.eq_nil_of_length_eq_zero (Nat.le_zero.mp h)
      rfl
  | succ fuel ih =>
      cases bufs with
      | nil => rfl
      | cons buf bufs =>
          rw [batchesOf, List.flatten_cons, ih, List.take_append_drop]
          rw [List.length_drop]
          omega

lemma iovLen_pos {iovMax : ℕ} (h : 0 < iovMax) (nBufs : ℕ) : 0 < iovLen iovMax nBufs := by
  unfold iovLen
  split_ifs <;> omega

/-- The calls of `Send` go over the buffers in order, and a count that is returned
is that of the items handed over. -/
theorem sendBufs_covers {iovMax : ℕ} (h : 0 < iovMax) (bufs : List (List α))
    (replies : List Reply) :
    passed (sendBufs iovMax bufs replies).steps <+: bufs.flatten ∧
    ∀ r, (sendBufs iovMax bufs replies).ret = some r →
      r = -1 ∨ r = (sendBufs iovMax bufs replies).handed.length := by
  have hcov := sendBatches_covers (batchesOf (iovLen iovMax bufs.length) bufs.length bufs) 0 replies
  rw [batchesOf_flatten (iovLen_pos h _) _ bufs le_rfl] at hcov
  simpa [sendBufs] using hcov

/-- A full count means that every item was handed over once. -/
theorem sendBufs_full {iovMax : ℕ} (h : 0 < iovMax) (bufs : List (List α)) (replies : List Reply)
    (hret : (sendBufs iovMax bufs replies).ret = some bufs.flatten.length) :
    (sendBufs iovMax bufs replies).handed = bufs.flatten := by
  obtain ⟨hp, hw⟩ := sendBufs_covers h bufs replies
  have hsub := (takenAll_sublist_passed _).trans hp.sublist
  refine hsub.eq_of_length ?_
  rcases hw _ hret with hneg | hlen
  · omega
  · exact_mod_cast hlen.symm

end Handed

section Contents
variable {α β ρ : Type} (f : α → β)

def Call.map (c : Call α) : Call β := { c with offered := c.offered.map f }

def Progress.map (p : Progress α ρ) : Progress β ρ := { p with calls := p.calls.map (Call.map f) }

theorem Call.step_map (c : Call α) : (c.map f).step = c.step.map f := by
  obtain ⟨via, offered, reply⟩ := c
  cases via <;> cases reply <;> simp [Call.map, Call.step, Step.map, List.map_take]

theorem Progress.steps_map (p : Progress α ρ) : (p.map f).steps = p.steps.map (Step.map f) := by
  simp only [Progress.steps, Progress.map, List.map_map, List.map_inj_left, Function.comp_apply]
  exact fun c _ => Call.step_map f c

lemma Progress.map_after (calls : List (Call α)) (p : Progress α ρ) :
    (p.after calls).map f = (p.map f).after (calls.map (Call.map f)) := by
  simp [Progress.map, Progress.after]

lemma sendLoop_map (buf : List α) (written : ℕ) (replies : List Reply) :
    sendLoop (buf.map f) written replies = (sendLoop buf written replies).map f := by
  induction replies generalizing written with
  | nil => rfl
  | cons reply replies ih =>
      cases reply with
      | transient =>
          rw [sendLoop, sendLoop, Progress.map_after, ih]
          simp [Call.map, List.map_drop]
      | error => simp [sendLoop, Progress.map, Call.map, List.map_drop]
      | wrote n =>
          rw [sendLoop, sendLoop, List.length_map]
          split_ifs with h
          · rw [Progress.map_after, ih]
            simp [Call.map, List.map_drop]
          · simp [Progress.map, Call.map, List.map_drop]

lemma send_map (buf : List α) (replies : List Reply) :
    send (buf.map f) replies = (send buf replies).map f := by
  unfold send
  rw [List.length_map, sendLoop_map]
  split_ifs <;> rfl

lemma unsent_map (wret : ℕ) (bufs : List (List α)) :
    unsent wret (bufs.map (List.map f)) = (unsent wret bufs).map (List.map f) := by
  induction bufs generalizing wret with
  | nil => rfl
  | cons buf bufs ih =>
      rw [List.map_cons, unsent, unsent, List.length_map]
      split_ifs
      · rfl
      · simp [List.map_drop]
      · exact ih _

lemma sendEach_map (bufs : List (List α)) (ret : ℤ) (replies : List Reply) :
    sendEach (bufs.map (List.map f)) ret replies = (sendEach bufs ret replies).map f := by
  induction bufs generalizing ret replies with
  | nil => rfl
  | cons buf bufs ih =>
      rw [List.map_cons, sendEach, sendEach, send_map]
      cases hret : (send buf replies).ret with
      | none => simp [Progress.map, hret]
      | some wret =>
          have hmap : ((send buf replies).map f).ret = some wret := hret
          rw [hmap]
          dsimp only
          rw [Progress.map_after, ← ih]
          rfl

lemma sendBatches_map (batches : List (List (List α))) (ret : ℤ) (replies : List Reply) :
    sendBatches (batches.map (List.map (List.map f))) ret replies =
      (sendBatches batches ret replies).map f := by
  induction batches generalizing ret replies with
  | nil => rfl
  | cons batch batches ih =>
      rw [List.map_cons]
      cases replies with
      | nil => rfl
      | cons reply replies =>
          have hflat : (batch.map (List.map f)).flatten = batch.flatten.map f := by
            rw [List.map_flatten]
          cases reply with
          | transient =>
              rw [sendBatches, sendBatches, Progress.map_after, ih, hflat]
              rfl
          | error => simp only [sendBatches, hflat, Progress.map, Call.map, List.map_cons, List.map_nil]
          | wrote n =>
              rw [sendBatches, sendBatches, hflat, List.length_map]
              dsimp only
              split_ifs with hall
              · rw [Progress.map_after, ih]
                rfl
              · rw [unsent_map, sendEach_map]
                cases hret : (sendEach (unsent (min n batch.flatten.length) batch)
                    (ret + (min n batch.flatten.length : ℕ)) replies).ret with
                | none =>
                    have hmap : ((sendEach (unsent (min n batch.flatten.length) batch)
                      (ret + (min n batch.flatten.length : ℕ)) replies).map f).ret = none := hret
                    rw [hmap]
                    rfl
                | some ret' =>
                    have hmap : ((sendEach (unsent (min n batch.flatten.length) batch)
                      (ret + (min n batch.flatten.length : ℕ)) replies).map f).ret = some ret' := hret
                    rw [hmap]
                    dsimp only
                    rw [Progress.map_after, ← ih]
                    rfl

lemma batchesOf_map (m fuel : ℕ) (bufs : List (List α)) :
    batchesOf m fuel (bufs.map (List.map f)) =
      (batchesOf m fuel bufs).map (List.map (List.map f)) := by
  induction fuel generalizing bufs with
  | zero => rfl
  | succ fuel ih =>
      cases bufs with
      | nil => rfl
      | cons buf bufs =>
          rw [List.map_cons, batchesOf, batchesOf, List.map_cons, ← List.map_cons, ← List.map_drop,
            ih, List.map_take]

theorem sendBufs_map (iovMax : ℕ) (bufs : List (List α)) (replies : List Reply) :
    sendBufs iovMax (bufs.map (List.map f)) replies = (sendBufs iovMax bufs replies).map f := by
  rw [sendBufs, sendBufs, List.length_map, batchesOf_map, sendBatches_map]

end Contents

/-- For buffers of these lengths, whatever they hold: the bytes handed to the
kernel are a prefix of all bytes in order, and a full count means that all of them
were handed over exactly once. -/
def StreamIntact (iovMax : ℕ) (lens : List ℕ) (replies : List Reply) : Prop :=
  ∀ bufs : List (List Byte), bufs.map List.length = lens →
    (sendBufs iovMax bufs replies).handed <+: bufs.flatten ∧
    ((sendBufs iovMax bufs replies).ret = some bufs.flatten.length →
      (sendBufs iovMax bufs replies).handed = bufs.flatten)

/-- After a batch that `writev` answered with a transient error, or the rest of a
buffer that `send` answered with another error, the kernel takes nothing more. Only
the lengths of the buffers decide which call a reply answers. -/
def NothingAfterGap (iovMax : ℕ) (lens : List ℕ) (replies : List Reply) : Prop :=
  Undisturbed (sendBufs iovMax (lens.map fun n => List.replicate n ()) replies).steps

instance (iovMax : ℕ) (lens : List ℕ) (replies : List Reply) :
    Decidable (NothingAfterGap iovMax lens replies) :=
  inferInstanceAs (Decidable (Undisturbed _))

lemma nothingAfterGap_iff {α : Type} (iovMax : ℕ) (bufs : List (List α)) (replies : List Reply) :
    NothingAfterGap iovMax (bufs.map List.length) replies ↔
      Undisturbed (sendBufs iovMax bufs replies).steps := by
  have hunit : (bufs.map List.length).map (fun n => List.replicate n ()) =
      bufs.map (List.map fun _ => ()) := by
    rw [List.map_map]
    exact List.map_congr_left fun buf _ => by simp [List.map_const']
  rw [NothingAfterGap, hunit, sendBufs_map, Progress.steps_map, undisturbed_map_iff]

/-- Buffers of given lengths that hold the positions from `k` on. -/
def labels : ℕ → List ℕ → List (List ℕ)
  | _, [] => []
  | k, n :: lens => List.range' k n :: labels (k + n) lens

lemma labels_length (k : ℕ) (lens : List ℕ) : (labels k lens).map List.length = lens := by
  induction lens generalizing k with
  | nil => rfl
  | cons n lens ih => simp [labels, ih]

lemma labels_flatten (k : ℕ) (lens : List ℕ) : (labels k lens).flatten = List.range' k lens.sum := by
  induction lens generalizing k with
  | nil => rfl
  | cons n lens ih => rw [labels, List.flatten_cons, ih, List.sum_cons, List.range'_append_1]

theorem streamIntact_iff {iovMax : ℕ} (hmax : 0 < iovMax) (lens : List ℕ) (replies : List Reply) :
    StreamIntact iovMax lens replies ↔ NothingAfterGap iovMax lens replies := by
  constructor
  · intro hintact
    -- If the positions are not handed over in place, one byte marked by its position shows it.
    have hcov := (sendBufs_covers hmax (labels 0 lens) replies).1
    rw [labels_flatten, ← List.range_eq_range'] at hcov
    rw [← labels_length 0 lens, nothingAfterGap_iff]
    refine undisturbed_of_isPrefix (List.nodup_range.sublist hcov.sublist) ?_
    by_contra hnot
    have hsub := takenAll_sublist_passed (sendBufs iovMax (labels 0 lens) replies).steps
    have hrange : ¬ (sendBufs iovMax (labels 0 lens) replies).handed <+: List.range lens.sum :=
      fun hp => hnot (List.prefix_of_prefix_length_le hp hcov hsub.length_le)
    have hle : (sendBufs iovMax (labels 0 lens) replies).handed.length ≤ lens.sum := by
      have hlen := (hsub.trans hcov.sublist).length_le
      rwa [List.length_range] at hlen
    obtain ⟨i, y, hi, hne⟩ := exists_misplaced hle hrange
    let mark : ℕ → Byte := fun n => if n = i then 1 else 0
    have hp := (hintact ((labels 0 lens).map (List.map mark)) (by
      rw [List.map_map]
      conv_rhs => rw [← labels_length 0 lens]
      exact List.map_congr_left fun buf _ => by simp)).1
    rw [sendBufs_map, Progress.handed, Progress.steps_map, takenAll_map, ← List.map_flatten,
      labels_flatten, ← List.range_eq_range'] at hp
    have hlt : i < lens.sum := by
      have hin := (List.getElem?_eq_some_iff.mp hi).1
      omega
    have hat : ((List.range lens.sum).map mark)[i]? = some (mark y) := by
      obtain ⟨tl, htl⟩ := hp
      rw [← htl, List.getElem?_append_left]
      · rw [List.getElem?_map]
        exact congrArg (Option.map mark) hi
      · rw [List.length_map]
        exact (List.getElem?_eq_some_iff.mp hi).1
    rw [List.getElem?_map, List.getElem?_range hlt] at hat
    simp [mark, hne] at hat
  · intro hgap bufs hlens
    rw [← hlens, nothingAfterGap_iff] at hgap
    exact ⟨hgap.isPrefix.trans (sendBufs_covers hmax bufs replies).1,
      sendBufs_full hmax bufs replies⟩

/-- A short write followed by an interrupted `send` of the rest. -/
theorem streamIntact_short_write :
    StreamIntact 1024 [2, 3] [.wrote 3, .transient, .wrote 1, .wrote 1] :=
  (streamIntact_iff (by decide) _ _).mpr (by decide)

/-- Nine buffers of one byte: `writev` is interrupted on the first eight, and the
ninth is sent all the same. -/
theorem not_streamIntact_interrupted :
    ¬ StreamIntact 1024 [1, 1, 1, 1, 1, 1, 1, 1, 1] [.transient, .wrote 1] := by
  intro h
  have hp := (h [[1], [2], [3], [4], [5], [6], [7], [8], [9]] rfl).1
  exact absurd hp (by decide)

end MRNet.SocketUtils
