import MRNet.NativeBytes

/-!
# Byte cursors, checked calls, and rules for encoders and decoders

A cursor walks over one block of memory with a count of the bytes it may still
use. The block itself bounds every access: an access outside it is a fault, which
a caller cannot observe or handle, while a refusal is an ordinary failure that is
handed back. An encoder is described by the bytes it emits into a sink. A decoder
is described by two predicates on the bytes in front of it: which prefixes it
accepts for which value, and on which inputs it faults. Both descriptions compose
along the monadic bind, so a compound procedure is described part by part.
-/
namespace MRNet.Codec
open NativeBytes

/-- A step outside the contract of the memory or of an assertion. -/
inductive Fault where
  | readPast
  | storePast
  | nullPointer
  | assertion
  deriving DecidableEq, Repr

/-- A call that does not complete: refused with an ordinary failure, or faulted. -/
inductive Stop where
  | refused
  | fault (f : Fault)
  deriving DecidableEq, Repr

abbrev Outcome (α : Type) := Except Stop α

structure Cursor where
  block : List Byte
  cur : ℕ
  space : ℕ
  deriving DecidableEq, Repr

namespace Cursor

def ofBlock (block : List Byte) : Cursor := ⟨block, 0, block.length⟩

/-- The announced space lies inside the block. -/
def Valid (s : Cursor) : Prop := s.cur + s.space ≤ s.block.length

/-- The bytes still in front of the cursor. -/
def rest (s : Cursor) : List Byte := (s.block.drop s.cur).take s.space

def advance (s : Cursor) (n : ℕ) : Cursor :=
  { s with cur := s.cur + n, space := s.space - n }

/-- The cursor after `bs` has been stored at its position. -/
def overwrite (s : Cursor) (bs : List Byte) : Cursor where
  block := s.block.take s.cur ++ bs ++ s.block.drop (s.cur + bs.length)
  cur := s.cur + bs.length
  space := s.space - bs.length

def store (s : Cursor) (bs : List Byte) : Outcome Cursor :=
  if s.cur + bs.length ≤ s.block.length then .ok (s.overwrite bs)
  else .error (.fault .storePast)

def fetch (s : Cursor) (n : ℕ) : Outcome (List Byte × Cursor) :=
  if s.cur + n ≤ s.block.length then .ok ((s.block.drop s.cur).take n, s.advance n)
  else .error (.fault .readPast)

/-- Store after the test of the remaining space. -/
def put (s : Cursor) (bs : List Byte) : Outcome Cursor :=
  if bs.length > s.space then .error .refused else s.store bs

/-- Fetch after the test of the remaining space. -/
def get (s : Cursor) (n : ℕ) : Outcome (List Byte × Cursor) :=
  if n > s.space then .error .refused else s.fetch n

theorem ofBlock_valid (block : List Byte) : (ofBlock block).Valid := by
  simp [ofBlock, Valid]

@[simp] theorem ofBlock_rest (block : List Byte) : (ofBlock block).rest = block := by
  simp [ofBlock, rest]

theorem rest_length {s : Cursor} (h : s.Valid) : s.rest.length = s.space := by
  simp only [rest, List.length_take, List.length_drop]
  unfold Valid at h
  omega

theorem advance_valid {s : Cursor} (h : s.Valid) {n : ℕ} (hn : n ≤ s.space) :
    (s.advance n).Valid := by
  simp only [Valid, advance] at *
  omega

theorem advance_rest (s : Cursor) (n : ℕ) : (s.advance n).rest = s.rest.drop n := by
  simp only [rest, advance, List.drop_take, List.drop_drop]

@[simp] theorem advance_zero (s : Cursor) : s.advance 0 = s := by simp [advance]

theorem advance_advance (s : Cursor) (m n : ℕ) :
    (s.advance m).advance n = s.advance (m + n) := by
  simp only [advance, Cursor.mk.injEq, true_and]
  omega

theorem overwrite_block_length {s : Cursor} (bs : List Byte)
    (h : s.cur + bs.length ≤ s.block.length) :
    (s.overwrite bs).block.length = s.block.length := by
  simp only [overwrite, List.length_append, List.length_take, List.length_drop]
  omega

theorem overwrite_append {s : Cursor} (a b : List Byte)
    (h : s.cur + a.length ≤ s.block.length) :
    (s.overwrite a).overwrite b = s.overwrite (a ++ b) := by
  have hl : (s.block.take s.cur ++ a).length = s.cur + a.length := by
    simp only [List.length_append, List.length_take]
    omega
  simp only [overwrite, List.length_append, Cursor.mk.injEq]
  refine ⟨?_, by omega, by omega⟩
  have hskip : s.cur + a.length + b.length - (s.cur + a.length) = b.length := by omega
  rw [List.take_left' hl, List.drop_append, hl, List.drop_drop,
    List.drop_eq_nil_of_le (by omega), List.nil_append, hskip]
  simp only [List.append_assoc, Nat.add_assoc]

theorem put_eq {s : Cursor} (h : s.Valid) (bs : List Byte) :
    s.put bs = if bs.length ≤ s.space then .ok (s.overwrite bs) else .error .refused := by
  simp only [put, store]
  unfold Valid at h
  split_ifs <;> first | rfl | omega

theorem put_valid {s s' : Cursor} (h : s.Valid) (bs : List Byte) (hp : s.put bs = .ok s') :
    s'.Valid := by
  rw [put_eq h] at hp
  split_ifs at hp with hb
  cases hp
  have hl := overwrite_block_length (s := s) bs (by unfold Valid at h; omega)
  unfold Valid at *
  rw [hl]
  simp only [overwrite]
  omega

theorem put_append {s : Cursor} (h : s.Valid) (a b : List Byte) :
    s.put (a ++ b) = s.put a >>= fun s' => s'.put b := by
  rw [put_eq h (a ++ b), put_eq h a]
  by_cases ha : a.length ≤ s.space
  · have hv : (s.overwrite a).Valid := put_valid h a (by rw [put_eq h, if_pos ha])
    rw [if_pos ha]
    change _ = (s.overwrite a).put b
    rw [put_eq hv, overwrite_append a b (by unfold Valid at h; omega)]
    simp only [overwrite, List.length_append]
    congr 1
    exact propext (by omega)
  · rw [if_neg ha, if_neg (by simp only [List.length_append]; omega)]
    rfl

theorem get_eq {s : Cursor} (h : s.Valid) (n : ℕ) :
    s.get n = if n ≤ s.space then .ok (s.rest.take n, s.advance n) else .error .refused := by
  simp only [get, fetch, rest, List.take_take]
  unfold Valid at h
  split_ifs with h1 h2 h3 h4
  · omega
  · rfl
  · rw [min_eq_left (by omega)]
  · omega
  · omega
  · omega

end Cursor

/-- A procedure that moves a cursor and returns a value. -/
abbrev Action (α : Type) := StateT Cursor (Except Stop) α

namespace Action

def stop {α : Type} (e : Stop) : Action α := fun _ => .error e

/-- A refusal becomes a result, with the cursor where it was. -/
def attempt {α : Type} (m : Action α) : Action (Option α) := fun s =>
  match m s with
  | .ok (a, s') => .ok (some a, s')
  | .error .refused => .ok (none, s)
  | .error (.fault f) => .error (.fault f)

/-- Lift a cursor primitive without a result. -/
def move (f : Cursor → Outcome Cursor) : Action Unit := fun s => (f s).map fun s' => ((), s')

theorem bind_run {α β : Type} (m : Action α) (k : α → Action β) (s : Cursor) :
    (m >>= k) s = m s >>= fun r => k r.1 r.2 := rfl

theorem pure_run {α : Type} (a : α) (s : Cursor) : (pure a : Action α) s = .ok (a, s) := rfl

theorem attempt_ok {α : Type} {m : Action α} {s s' : Cursor} {a : α} (h : m s = .ok (a, s')) :
    m.attempt s = .ok (some a, s') := by simp [attempt, h]

end Action

@[simp] theorem ok_bind {α β : Type} (a : α) (f : α → Outcome β) :
    (Except.ok a >>= f : Outcome β) = f a := rfl

@[simp] theorem error_bind {α β : Type} (e : Stop) (f : α → Outcome β) :
    (Except.error e >>= f : Outcome β) = .error e := rfl

theorem bind_ok_iff {α β : Type} {x : Outcome α} {f : α → Outcome β} {b : β} :
    (x >>= f) = .ok b ↔ ∃ a, x = .ok a ∧ f a = .ok b := by
  cases x <;> simp

theorem bind_fault_iff {α β : Type} {x : Outcome α} {f : α → Outcome β} {e : Fault} :
    (x >>= f) = .error (.fault e) ↔
      x = .error (.fault e) ∨ ∃ a, x = .ok a ∧ f a = .error (.fault e) := by
  cases x <;> simp

/-- A loop succeeds if all its calls do, and collects their results. -/
theorem mapM_ok_iff {α β : Type} {f : α → Outcome β} {xs : List α} {ys : List β} :
    xs.mapM f = .ok ys ↔ List.Forall₂ (fun x y => f x = .ok y) xs ys := by
  induction xs generalizing ys with
  | nil =>
      rw [List.mapM_nil, List.forall₂_nil_left_iff]
      exact ⟨fun h => (Except.ok.inj h).symm, fun h => congrArg Except.ok h.symm⟩
  | cons x xs ih =>
      rw [List.mapM_cons, bind_ok_iff, List.forall₂_cons_left_iff]
      constructor
      · rintro ⟨y, hy, h⟩
        obtain ⟨rest, hrest, h⟩ := bind_ok_iff.mp h
        cases h
        exact ⟨y, rest, hy, ih.mp hrest, rfl⟩
      · rintro ⟨y, rest, hy, hrest, rfl⟩
        exact ⟨y, hy, by rw [ih.mpr hrest]; rfl⟩

theorem mapM_length {α β : Type} {f : α → Outcome β} {xs : List α} {ys : List β}
    (h : xs.mapM f = .ok ys) : ys.length = xs.length :=
  (mapM_ok_iff.mp h).length_eq.symm

theorem forall₂_of_exists {α β : Type} {R : α → β → Prop} {xs : List α}
    (h : ∀ x ∈ xs, ∃ y, R x y) : ∃ ys, List.Forall₂ R xs ys := by
  induction xs with
  | nil => exact ⟨[], .nil⟩
  | cons x xs ih =>
      simp only [List.mem_cons, forall_eq_or_imp] at h
      obtain ⟨⟨y, hy⟩, hrest⟩ := h
      obtain ⟨ys, hys⟩ := ih hrest
      exact ⟨y :: ys, .cons hy hys⟩

theorem forall₂_exists_of_mem {α β : Type} {R : α → β → Prop} {xs : List α} {ys : List β}
    (h : List.Forall₂ R xs ys) {x : α} (hx : x ∈ xs) : ∃ y ∈ ys, R x y := by
  induction h with
  | nil => cases hx
  | @cons a b xs ys hab _ ih =>
      rcases List.mem_cons.mp hx with rfl | hx
      · exact ⟨b, by simp, hab⟩
      · obtain ⟨y, hy, hr⟩ := ih hx
        exact ⟨y, by simp [hy], hr⟩

theorem mem_mapM_iff {α β : Type} {f : α → Outcome β} {xs : List α} {ys : List β}
    (h : xs.mapM f = .ok ys) {y : β} : y ∈ ys ↔ ∃ x ∈ xs, f x = .ok y := by
  have hall := mapM_ok_iff.mp h
  constructor
  · intro hy
    obtain ⟨x, hx, hxy⟩ := forall₂_exists_of_mem hall.flip hy
    exact ⟨x, hx, hxy⟩
  · rintro ⟨x, hx, hxy⟩
    obtain ⟨y', hy', hxy'⟩ := forall₂_exists_of_mem hall hx
    rw [hxy] at hxy'
    cases hxy'
    exact hy'

/-- What every call of a loop keeps holds after the loop. -/
theorem foldlM_keeps {α σ : Type} {f : σ → α → Outcome σ} {xs : List α} {I : σ → Prop}
    (hf : ∀ x ∈ xs, ∀ {s s'}, I s → f s x = .ok s' → I s') {s s' : σ} (hs : I s)
    (h : xs.foldlM f s = .ok s') : I s' := by
  induction xs generalizing s with
  | nil =>
      cases h
      exact hs
  | cons x xs ih =>
      rw [List.foldlM_cons] at h
      obtain ⟨s₁, h₁, h⟩ := bind_ok_iff.mp h
      exact ih (fun y hy => hf y (List.mem_cons_of_mem _ hy)) (hf x List.mem_cons_self hs h₁) h

/-- Every call of a loop that returns has returned. -/
theorem foldlM_each {α σ : Type} {f : σ → α → Outcome σ} {xs : List α} {I : σ → Prop}
    (hf : ∀ x ∈ xs, ∀ {s s'}, I s → f s x = .ok s' → I s') {s s' : σ} (hs : I s)
    (h : xs.foldlM f s = .ok s') {x : α} (hx : x ∈ xs) :
    ∃ s₁ s₂, I s₁ ∧ f s₁ x = .ok s₂ := by
  induction xs generalizing s with
  | nil => cases hx
  | cons y ys ih =>
      rw [List.foldlM_cons] at h
      obtain ⟨s₁, h₁, h⟩ := bind_ok_iff.mp h
      rcases List.mem_cons.mp hx with rfl | hx
      · exact ⟨s, s₁, hs, h₁⟩
      · exact ih (fun z hz => hf z (List.mem_cons_of_mem _ hz)) (hf y List.mem_cons_self hs h₁) h hx

/-- As `foldlM_keeps`, for steps of which it is known what was done before. -/
theorem foldlM_keeps_after {α σ : Type} {f : σ → α → Outcome σ} {xs : List α} {I : σ → Prop}
    {s₀ s' : σ} (hf : ∀ before x after {s s'}, xs = before ++ x :: after →
      before.foldlM f s₀ = .ok s → I s → f s x = .ok s' → I s') (hs : I s₀)
    (h : xs.foldlM f s₀ = .ok s') : I s' := by
  induction xs using List.reverseRecOn generalizing s' with
  | nil =>
      cases h
      exact hs
  | append_singleton xs x ih =>
      rw [List.foldlM_append] at h
      obtain ⟨s, hbefore, hlast⟩ := bind_ok_iff.mp h
      obtain ⟨s'', hx, hres⟩ := bind_ok_iff.mp hlast
      cases hres
      apply hf xs x [] rfl hbefore _ hx
      apply ih _ hbefore
      intro before y after t t' hsplit
      apply hf before y (after ++ [x])
      simp [hsplit]

/-- A loop returns if each of its calls does and keeps what the next one needs. -/
theorem foldlM_returns {α σ : Type} {f : σ → α → Outcome σ} {xs : List α} {I : σ → Prop}
    (hf : ∀ x ∈ xs, ∀ {s}, I s → ∃ s', f s x = .ok s' ∧ I s') {s : σ} (hs : I s) :
    ∃ s', xs.foldlM f s = .ok s' ∧ I s' := by
  induction xs generalizing s with
  | nil => exact ⟨s, rfl, hs⟩
  | cons x xs ih =>
      obtain ⟨s₁, h₁, hs₁⟩ := hf x List.mem_cons_self hs
      obtain ⟨s', h', hs'⟩ := ih (fun y hy => hf y (List.mem_cons_of_mem _ hy)) hs₁
      refine ⟨s', ?_, hs'⟩
      rw [List.foldlM_cons, h₁]
      exact h'

/-- A loop of which each call appends a part of its own appends the parts in turn. -/
theorem foldlM_appends {α β : Type} {f : List β → α → Outcome (List β)} {xs : List α}
    {P : α → List β → Prop}
    (hf : ∀ x ∈ xs, ∀ acc, ∃ part, f acc x = .ok (acc ++ part) ∧ P x part) (acc : List β) :
    ∃ parts, xs.foldlM f acc = .ok (acc ++ parts.flatten) ∧ List.Forall₂ P xs parts := by
  induction xs generalizing acc with
  | nil => exact ⟨[], by rw [List.flatten_nil, List.append_nil]; rfl, .nil⟩
  | cons x xs ih =>
      obtain ⟨part, h₁, hpart⟩ := hf x List.mem_cons_self acc
      obtain ⟨parts, h, hparts⟩ := ih (fun y hy => hf y (List.mem_cons_of_mem _ hy)) (acc ++ part)
      refine ⟨part :: parts, ?_, .cons hpart hparts⟩
      rw [List.foldlM_cons, h₁, List.flatten_cons, ← List.append_assoc]
      exact h

/-- As `foldlM_appends`, for a loop that has returned. -/
theorem foldlM_appended {α β : Type} {f : List β → α → Outcome (List β)} {xs : List α}
    {P : α → List β → Prop}
    (hf : ∀ x ∈ xs, ∀ {acc acc'}, f acc x = .ok acc' → ∃ part, acc' = acc ++ part ∧ P x part)
    {acc acc' : List β} (h : xs.foldlM f acc = .ok acc') :
    ∃ parts, acc' = acc ++ parts.flatten ∧ List.Forall₂ P xs parts := by
  induction xs generalizing acc with
  | nil =>
      cases h
      exact ⟨[], by simp, .nil⟩
  | cons x xs ih =>
      rw [List.foldlM_cons] at h
      obtain ⟨acc₁, h₁, h⟩ := bind_ok_iff.mp h
      obtain ⟨part, rfl, hpart⟩ := hf x List.mem_cons_self h₁
      obtain ⟨parts, rfl, hparts⟩ := ih (fun y hy => hf y (List.mem_cons_of_mem _ hy)) h
      exact ⟨part :: parts, by simp, .cons hpart hparts⟩

/-- Where an encoder puts its bytes: emitting is compatible with concatenation. -/
structure Sink where
  Inv : Cursor → Prop
  emit : Cursor → List Byte → Outcome Cursor
  emit_nil : ∀ s, Inv s → emit s [] = .ok s
  emit_append : ∀ s a b, Inv s → emit s (a ++ b) = emit s a >>= fun s' => emit s' b
  emit_inv : ∀ s s' a, Inv s → emit s a = .ok s' → Inv s'

/-- A block of memory with its announced space. -/
def memorySink : Sink where
  Inv := Cursor.Valid
  emit := Cursor.put
  emit_nil := by
    intro s h
    rw [Cursor.put_eq h]
    simp [Cursor.overwrite]
  emit_append := fun _ a b h => Cursor.put_append h a b
  emit_inv := fun _ _ a h hp => Cursor.put_valid h a hp

/-- A counter of bytes, kept in a word of `w` bits. -/
def countingSink (w : ℕ) : Sink where
  Inv := fun s => s.space < 2 ^ w
  emit := fun s bs => .ok { s with space := (s.space + bs.length) % 2 ^ w }
  emit_nil := by
    intro s h
    simp [Nat.mod_eq_of_lt h]
  emit_append := by
    intro s a b _
    simp only [ok_bind, List.length_append, Nat.mod_add_mod, Nat.add_assoc]
  emit_inv := by
    intro s s' a _ h
    cases h
    exact Nat.mod_lt _ (by positivity)

namespace Sink
variable {k : Sink} {α β : Type}

/-- `m` emits exactly `bs` and returns `v`, whenever the sink takes the bytes. -/
def Emits (k : Sink) (m : Action α) (v : α) (bs : List Byte) : Prop :=
  ∀ s, k.Inv s → m s = (k.emit s bs).map fun s' => (v, s')

/-- `m` never completes on this sink. -/
def Blocks (k : Sink) (m : Action α) : Prop := ∀ s, k.Inv s → ∀ r, m s ≠ .ok r

theorem Emits.pure (v : α) : k.Emits (Pure.pure v) v [] := by
  intro s hs
  rw [k.emit_nil s hs]
  rfl

theorem Emits.bind {m : Action α} {f : α → Action β} {a : α} {v : β} {b₁ b₂ : List Byte}
    (h₁ : k.Emits m a b₁) (h₂ : k.Emits (f a) v b₂) : k.Emits (m >>= f) v (b₁ ++ b₂) := by
  intro s hs
  rw [Action.bind_run, h₁ s hs, k.emit_append s b₁ b₂ hs]
  cases he : k.emit s b₁ with
  | error e => rfl
  | ok s' =>
      change f a s' = (k.emit s' b₂).map fun s' => (v, s')
      exact h₂ s' (k.emit_inv s s' b₁ hs he)

theorem Blocks.bind_left {m : Action α} {f : α → Action β} (h : k.Blocks m) :
    k.Blocks (m >>= f) := by
  intro s hs r hr
  obtain ⟨a, ha, -⟩ := bind_ok_iff.mp hr
  exact h s hs a ha

theorem Blocks.bind_right {m : Action α} {f : α → Action β} {a : α} {b : List Byte}
    (h₁ : k.Emits m a b) (h₂ : k.Blocks (f a)) : k.Blocks (m >>= f) := by
  intro s hs r hr
  obtain ⟨x, hx, hf⟩ := bind_ok_iff.mp hr
  rw [h₁ s hs] at hx
  cases he : k.emit s b with
  | error e => rw [he] at hx; cases hx
  | ok s' =>
      rw [he] at hx
      cases hx
      exact h₂ s' (k.emit_inv s s' b hs he) r hf

theorem Blocks.stop (e : Stop) : k.Blocks (Action.stop e : Action α) := by
  intro s _ r h
  cases h

/-- `m` returns `v` after emitting the given bytes, or never completes if there
are none. -/
def Encodes (k : Sink) (m : Action α) (v : α) : Option (List Byte) → Prop
  | some bs => k.Emits m v bs
  | none => k.Blocks m

theorem Encodes.bind {m : Action α} {f : α → Action β} {a : α} {v : β}
    {e₁ e₂ : Option (List Byte)} (h₁ : k.Encodes m a e₁) (h₂ : k.Encodes (f a) v e₂) :
    k.Encodes (m >>= f) v (e₁.bind fun b₁ => e₂.map fun b₂ => b₁ ++ b₂) := by
  cases e₁ with
  | none => exact Blocks.bind_left h₁
  | some b₁ =>
      cases e₂ with
      | none => exact Blocks.bind_right h₁ h₂
      | some b₂ => exact Emits.bind h₁ h₂

/-- A first part that emits `b` puts `b` in front of what follows. -/
theorem Encodes.after {m : Action α} {f : α → Action β} {a : α} {v : β} {b : List Byte}
    {e e' : Option (List Byte)} (h₁ : k.Encodes m a (some b)) (h₂ : k.Encodes (f a) v e)
    (he : e' = e.map fun bs => b ++ bs) : k.Encodes (m >>= f) v e' := by
  rw [he]
  exact h₁.bind h₂

/-- Returning a value emits nothing more. -/
theorem Encodes.ret {m : Action α} {a : α} {e : Option (List Byte)} (g : α → β)
    (h : k.Encodes m a e) : k.Encodes (m >>= fun x => Pure.pure (g x)) (g a) e := by
  have hp : k.Encodes (Pure.pure (g a)) (g a) (some []) := Emits.pure (g a)
  have hb := h.bind (f := fun x => (Pure.pure (g x) : Action β)) hp
  cases e with
  | none => exact hb
  | some b => simpa using hb

/-- A block of exactly the right size is filled. -/
theorem Emits.fills {m : Action α} {v : α} {bs block : List Byte} (h : memorySink.Emits m v bs)
    (hl : block.length = bs.length) :
    m ⟨block, 0, bs.length⟩ = .ok (v, ⟨bs, bs.length, 0⟩) := by
  have hv : Cursor.Valid ⟨block, 0, bs.length⟩ := by simp [Cursor.Valid, hl]
  have hdrop : block.drop bs.length = [] := List.drop_of_length_le hl.le
  rw [h _ hv]
  change Except.map _ (Cursor.put _ bs) = _
  rw [Cursor.put_eq hv, if_pos le_rfl]
  simp [Cursor.overwrite, hdrop, Except.map]

/-- With enough space the bytes are stored at the cursor. -/
theorem Emits.stores {m : Action α} {v : α} {bs : List Byte} (h : memorySink.Emits m v bs)
    {s : Cursor} (hs : s.Valid) (hle : bs.length ≤ s.space) : m s = .ok (v, s.overwrite bs) := by
  rw [h s hs]
  change Except.map _ (Cursor.put s bs) = _
  rw [Cursor.put_eq hs, if_pos hle]
  rfl

/-- A block that is too small makes the encoder refuse. -/
theorem Emits.refuses {m : Action α} {v : α} {bs : List Byte} (h : memorySink.Emits m v bs)
    {s : Cursor} (hs : s.Valid) (hlt : s.space < bs.length) : m s = .error .refused := by
  rw [h s hs]
  change Except.map _ (Cursor.put s bs) = _
  rw [Cursor.put_eq hs, if_neg (by omega)]
  rfl

end Sink

/-- The behaviour of a decoder in terms of the bytes in front of the cursor:
`accepts v bs` if `bs` is a form of the value `v`, and `harmful bs` if the
decoder faults on the input `bs`. On every other input it refuses. -/
structure Decodes {α : Type} (m : Action α) (accepts : α → List Byte → Prop)
    (harmful : List Byte → Prop) : Prop where
  ok_iff : ∀ s : Cursor, s.Valid → ∀ v s', m s = .ok (v, s') ↔
    ∃ bs, accepts v bs ∧ bs <+: s.rest ∧ s' = s.advance bs.length
  fault_iff : ∀ s : Cursor, s.Valid → ((∃ f, m s = .error (.fault f)) ↔ harmful s.rest)

namespace Decodes
variable {α β : Type}

theorem pure (a : α) : Decodes (Pure.pure a : Action α) (fun v bs => v = a ∧ bs = [])
    (fun _ => False) where
  ok_iff := by
    intro s _ v s'
    rw [Action.pure_run]
    constructor
    · intro h
      cases h
      exact ⟨[], ⟨rfl, rfl⟩, List.nil_prefix, by simp⟩
    · rintro ⟨bs, ⟨rfl, rfl⟩, -, rfl⟩
      simp
  fault_iff := by
    intro s _
    simp [Action.pure_run]

theorem refused : Decodes (Action.stop .refused : Action α) (fun _ _ => False)
    (fun _ => False) where
  ok_iff := by intro s _ v s'; simp [Action.stop]
  fault_iff := by intro s _; simp [Action.stop]

theorem fault (f : Fault) : Decodes (Action.stop (.fault f) : Action α) (fun _ _ => False)
    (fun _ => True) where
  ok_iff := by intro s _ v s'; simp [Action.stop]
  fault_iff := by intro s _; simp [Action.stop]

theorem congr {m : Action α} {a a' : α → List Byte → Prop} {h h' : List Byte → Prop}
    (hd : Decodes m a h) (ha : ∀ v bs, a v bs ↔ a' v bs) (hh : ∀ bs, h bs ↔ h' bs) :
    Decodes m a' h' where
  ok_iff := by intro s hs v s'; rw [hd.ok_iff s hs]; simp only [ha]
  fault_iff := by intro s hs; rw [hd.fault_iff s hs, hh]

theorem ite {c : Prop} [Decidable c] {m m' : Action α} {a : α → List Byte → Prop}
    {h : List Byte → Prop} (h₁ : c → Decodes m a h) (h₂ : ¬c → Decodes m' a h) :
    Decodes (if c then m else m') a h := by
  by_cases hc : c
  · rw [if_pos hc]; exact h₁ hc
  · rw [if_neg hc]; exact h₂ hc

/-- Fetching `n` bytes accepts any `n` bytes and never faults. -/
theorem get (n : ℕ) : Decodes (fun s : Cursor => s.get n)
    (fun v bs => bs = v ∧ v.length = n) (fun _ => False) where
  ok_iff := by
    intro s hs v s'
    have hl := Cursor.rest_length hs
    rw [Cursor.get_eq hs]
    constructor
    · intro h
      split_ifs at h with hn
      cases h
      have hlen : (s.rest.take n).length = n := by rw [List.length_take]; omega
      exact ⟨_, ⟨rfl, hlen⟩, List.take_prefix _ _, by rw [hlen]⟩
    · rintro ⟨bs, ⟨rfl, rfl⟩, hp, rfl⟩
      have hle := hp.length_le
      rw [if_pos (by omega), ← List.prefix_iff_eq_take.mp hp]
  fault_iff := by
    intro s hs
    rw [Cursor.get_eq hs]
    split_ifs <;> simp

/-- Sequencing: the forms are concatenated, and the second part faults on what
follows an accepted form of the first. -/
theorem bind {m : Action α} {f : α → Action β} {a₁ : α → List Byte → Prop}
    {a₂ : α → β → List Byte → Prop} {h₁ : List Byte → Prop} {h₂ : α → List Byte → Prop}
    (hm : Decodes m a₁ h₁) (hf : ∀ x, Decodes (f x) (a₂ x) (h₂ x)) :
    Decodes (m >>= f)
      (fun v bs => ∃ x b₁ b₂, a₁ x b₁ ∧ a₂ x v b₂ ∧ bs = b₁ ++ b₂)
      (fun bs => h₁ bs ∨ ∃ x b₁ tl, a₁ x b₁ ∧ bs = b₁ ++ tl ∧ h₂ x tl) where
  ok_iff := by
    intro s hs v s'
    rw [Action.bind_run, bind_ok_iff]
    constructor
    · rintro ⟨⟨x, t⟩, hx, hv⟩
      obtain ⟨b₁, ha, ⟨tl, htl⟩, rfl⟩ := (hm.ok_iff s hs x t).mp hx
      have hlen : b₁.length ≤ s.space := by
        rw [← Cursor.rest_length hs, ← htl]; simp
      obtain ⟨b₂, hb, ⟨tl', htl'⟩, rfl⟩ :=
        ((hf x).ok_iff _ (Cursor.advance_valid hs hlen) v s').mp hv
      refine ⟨b₁ ++ b₂, ⟨x, b₁, b₂, ha, hb, rfl⟩, ⟨tl', ?_⟩, ?_⟩
      · rw [Cursor.advance_rest, ← htl, List.drop_left] at htl'
        rw [List.append_assoc, htl', htl]
      · rw [Cursor.advance_advance, List.length_append]
    · rintro ⟨bs, ⟨x, b₁, b₂, ha, hb, rfl⟩, ⟨tl, htl⟩, rfl⟩
      have hlen : b₁.length ≤ s.space := by
        rw [← Cursor.rest_length hs, ← htl, List.append_assoc]; simp
      refine ⟨(x, s.advance b₁.length), ?_, ?_⟩
      · exact (hm.ok_iff s hs _ _).mpr
          ⟨b₁, ha, ⟨b₂ ++ tl, by rw [← htl, List.append_assoc]⟩, rfl⟩
      · refine ((hf x).ok_iff _ (Cursor.advance_valid hs hlen) _ _).mpr ⟨b₂, hb, ⟨tl, ?_⟩, ?_⟩
        · rw [Cursor.advance_rest, ← htl, List.append_assoc, List.drop_left]
        · rw [Cursor.advance_advance, List.length_append]
  fault_iff := by
    intro s hs
    rw [Action.bind_run]
    simp only [bind_fault_iff, exists_or, ← hm.fault_iff s hs]
    refine or_congr_right ⟨?_, ?_⟩
    · rintro ⟨e, ⟨x, t⟩, hx, hv⟩
      obtain ⟨b₁, ha, ⟨tl, htl⟩, rfl⟩ := (hm.ok_iff s hs x t).mp hx
      have hlen : b₁.length ≤ s.space := by
        rw [← Cursor.rest_length hs, ← htl]; simp
      refine ⟨x, b₁, tl, ha, htl.symm, ?_⟩
      have hh := ((hf x).fault_iff _ (Cursor.advance_valid hs hlen)).mp ⟨e, hv⟩
      rwa [Cursor.advance_rest, ← htl, List.drop_left] at hh
    · rintro ⟨x, b₁, tl, ha, htl, hh⟩
      have hlen : b₁.length ≤ s.space := by
        rw [← Cursor.rest_length hs, htl]; simp
      have hh' : h₂ x (s.advance b₁.length).rest := by
        rwa [Cursor.advance_rest, htl, List.drop_left]
      obtain ⟨e, he⟩ := ((hf x).fault_iff _ (Cursor.advance_valid hs hlen)).mpr hh'
      exact ⟨e, (x, s.advance b₁.length),
        (hm.ok_iff s hs _ _).mpr ⟨b₁, ha, ⟨tl, htl.symm⟩, rfl⟩, he⟩

/-- A decoder run on a form it accepts returns the value and stops behind it. -/
theorem run_ok {m : Action α} {a : α → List Byte → Prop} {h : List Byte → Prop}
    (hd : Decodes m a h) {s : Cursor} (hs : s.Valid) {v : α} {bs : List Byte} (tl : List Byte)
    (hv : a v bs) (hr : s.rest = bs ++ tl) : m s = .ok (v, s.advance bs.length) :=
  (hd.ok_iff s hs _ _).mpr ⟨bs, hv, ⟨tl, hr.symm⟩, rfl⟩

/-- What is refused is neither harmful nor a form. -/
theorem refused_iff {m : Action α} {accepts : α → List Byte → Prop} {harmful : List Byte → Prop}
    (h : Decodes m accepts harmful) {s : Cursor} (hs : s.Valid) :
    m s = .error .refused ↔
      ¬ harmful s.rest ∧ ∀ v bs, accepts v bs → ¬ bs <+: s.rest := by
  constructor
  · intro hm
    refine ⟨fun hharm => ?_, fun v bs hv hpre => ?_⟩
    · obtain ⟨f, hf⟩ := (h.fault_iff s hs).mpr hharm
      rw [hm] at hf
      cases hf
    · have hok := (h.ok_iff s hs v _).mpr ⟨bs, hv, hpre, rfl⟩
      rw [hm] at hok
      cases hok
  · rintro ⟨hharm, hno⟩
    cases hm : m s with
    | ok r =>
        obtain ⟨bs, hv, hpre, -⟩ := (h.ok_iff s hs r.1 r.2).mp hm
        exact absurd hpre (hno _ _ hv)
    | error e =>
        cases e with
        | refused => rfl
        | fault f => exact absurd ((h.fault_iff s hs).mp ⟨f, hm⟩) hharm

/-- A block that is a form of a value is consumed whole. -/
theorem consumes {m : Action α} {a : α → List Byte → Prop} {h : List Byte → Prop}
    (hd : Decodes m a h) {v : α} {bs : List Byte} (hv : a v bs) :
    m ⟨bs, 0, bs.length⟩ = .ok (v, ⟨bs, bs.length, 0⟩) := by
  have hr := hd.run_ok (Cursor.ofBlock_valid bs) [] hv
    (by rw [Cursor.ofBlock_rest, List.append_nil])
  simpa [Cursor.ofBlock, Cursor.advance] using hr

end Decodes

end MRNet.Codec
