import Mathlib

/-!
# Programs that hold a recursive lock

A program of one thread works on data, and takes and releases a recursive lock. The lock counts
how often the thread holds it; a release that nothing was taken for is an error, and does
nothing. What a program does to the count is said from one number of holds to another, above
those that it began with. The rules follow the binds, branches and loops of a program.
-/
namespace MRNet.RecursiveLock

variable {ε σ α β γ : Type}

/-- The state is the data and the number of holds. -/
abbrev Locking (ε σ : Type) := StateT (σ × ℕ) (Except ε)

def lock : Locking ε σ Unit := fun s => .ok ((), (s.1, s.2 + 1))

def unlock : Locking ε σ Unit := fun s => .ok ((), (s.1, s.2 - 1))

/-- A step that works on the data only. -/
def act (f : σ → Except ε (α × σ)) : Locking ε σ α := fun s => do
  let (a, data) ← f s.1
  return (a, (data, s.2))

def look (f : σ → α) : Locking ε σ α := act fun data => .ok (f data, data)

def consult (f : σ → Except ε α) : Locking ε σ α := act fun data => do
  let a ← f data
  return (a, data)

def change (f : σ → Except ε σ) : Locking ε σ Unit := act fun data => do
  let data ← f data
  return ((), data)

def stop (e : ε) : Locking ε σ α := fun _ => .error e

/-- The lock is held around a program. -/
def guarded (p : Locking ε σ α) : Locking ε σ α := do
  lock
  let a ← p
  unlock
  return a

def whenever (c : Bool) (p : Locking ε σ Unit) : Locking ε σ Unit := if c then p else pure ()

/-- The result does not matter. -/
def drop (p : Locking ε σ α) : Locking ε σ Unit := do
  let _ ← p
  return ()

/-- Every run that returns leads from `a` to `b` holds above some number. -/
def Moves (a b : ℕ) (p : Locking ε σ α) : Prop :=
  ∀ data n x s, p (data, n + a) = .ok (x, s) → s.2 = n + b

/-- A run from this state that returns holds the lock some times more than before. -/
def Keeps (k : ℕ) (p : Locking ε σ α) (s : σ × ℕ) : Prop := ∀ x s', p s = .ok (x, s') → s'.2 = s.2 + k

/-- Every run gives the lock back. -/
def Balanced (p : Locking ε σ α) : Prop := ∀ a, Moves a a p

variable {a b c : ℕ} {p : Locking ε σ α} {f : α → Locking ε σ β}

lemma bind_ok_iff {s s' : σ × ℕ} {y : β} : (p >>= f) s = .ok (y, s') ↔
    ∃ x t, p s = .ok (x, t) ∧ f x t = .ok (y, s') := by
  show (p s >>= fun r => f r.1 r.2) = _ ↔ _
  cases p s with
  | error e => exact iff_of_false (by rintro ⟨⟩) (by rintro ⟨x, t, ⟨⟩, -⟩)
  | ok r => exact ⟨fun h => ⟨r.1, r.2, rfl, h⟩, fun ⟨x, t, hr, h⟩ => by cases hr; exact h⟩

lemma lock_bind (q : Unit → Locking ε σ β) (s : σ × ℕ) :
    (lock >>= q) s = q () (s.1, s.2 + 1) := rfl

lemma unlock_bind (q : Unit → Locking ε σ β) (s : σ × ℕ) :
    (unlock >>= q) s = q () (s.1, s.2 - 1) := rfl

lemma look_bind (g : σ → α) (s : σ × ℕ) : (look g >>= f) s = f (g s.1) s := rfl

lemma guarded_consult_ok_iff {g : σ → Except ε α} {s t : σ × ℕ} {x : α} :
    guarded (consult g) s = .ok (x, t) ↔ g s.1 = .ok x ∧ t = s := by
  obtain ⟨data, n⟩ := s
  rw [guarded, lock_bind]
  cases hg : g data with
  | error e =>
      refine iff_of_false (fun h => ?_) (fun h => by cases h.1)
      obtain ⟨y, t', hy, -⟩ := bind_ok_iff.mp h
      rw [consult, act, hg] at hy
      cases hy
  | ok y =>
      have hrun : consult g (data, n + 1) = .ok (y, (data, n + 1)) := by
        rw [consult, act, hg]
        rfl
      constructor
      · intro h
        obtain ⟨y', t', hy, hrest⟩ := bind_ok_iff.mp h
        cases hrun.symm.trans hy
        cases hrest
        exact ⟨rfl, rfl⟩
      · rintro ⟨hx, rfl⟩
        cases hx
        exact bind_ok_iff.mpr ⟨_, _, hrun, rfl⟩

lemma moves_lock : Moves a (a + 1) (lock : Locking ε σ Unit) := by
  intro data n x s h
  cases h
  exact Nat.add_assoc n a 1

lemma moves_unlock : Moves (a + 1) a (unlock : Locking ε σ Unit) := by
  intro data n x s h
  cases h
  show n + (a + 1) - 1 = n + a
  omega

lemma balanced_pure (x : α) : Balanced (pure x : Locking ε σ α) := by
  intro a data n y s h
  cases h
  rfl

lemma balanced_act (f : σ → Except ε (α × σ)) : Balanced (act f) := by
  intro a data n x s h
  rw [act] at h
  cases hf : f data with
  | error e =>
      rw [hf] at h
      cases h
  | ok r =>
      rw [hf] at h
      cases h
      rfl

lemma balanced_look (f : σ → α) : Balanced (look f : Locking ε σ α) := balanced_act _

lemma balanced_consult (f : σ → Except ε α) : Balanced (consult f) := balanced_act _

lemma balanced_change (f : σ → Except ε σ) : Balanced (change f) := balanced_act _

lemma moves_stop (e : ε) : Moves a b (stop e : Locking ε σ α) := by
  intro data n x s h
  cases h

lemma balanced_stop (e : ε) : Balanced (stop e : Locking ε σ α) := fun _ => moves_stop e

lemma Moves.bind (hp : Moves a b p) (hf : ∀ x, Moves b c (f x)) : Moves a c (p >>= f) := by
  intro data n y s h
  obtain ⟨x, ⟨data', n'⟩, hx, h⟩ := bind_ok_iff.mp h
  obtain rfl : n' = n + b := hp data n x _ hx
  exact hf x data' n y s h

lemma Balanced.bind (hp : Balanced p) (hf : ∀ x, Balanced (f x)) : Balanced (p >>= f) :=
  fun a => (hp a).bind fun x => hf x a

/-- What follows on a balanced program. -/
lemma Balanced.then_ (hp : Balanced p) (hf : ∀ x, Moves a b (f x)) : Moves a b (p >>= f) :=
  (hp a).bind hf

/-- A program that takes the lock first, and later releases it on every way. -/
lemma balanced_lock {q : Unit → Locking ε σ β} (hq : ∀ a, Moves (a + 1) a (q ())) :
    Balanced (lock >>= q) := fun a => moves_lock.bind fun _ => hq a

/-- The last steps of a way. -/
lemma moves_leave {q : Unit → Locking ε σ β} (hq : Balanced (q ())) :
    Moves (a + 1) a (unlock >>= q) := moves_unlock.bind fun _ => hq a

lemma Balanced.guarded (hp : Balanced p) : Balanced (guarded p) :=
  balanced_lock fun _ => hp.then_ fun x => moves_leave (balanced_pure x)

lemma Moves.ite {i : Prop} [Decidable i] {q : Locking ε σ α} (hp : Moves a b p)
    (hq : Moves a b q) : Moves a b (if i then p else q) := by
  split_ifs
  · exact hp
  · exact hq

lemma Balanced.ite {i : Prop} [Decidable i] {q : Locking ε σ α} (hp : Balanced p)
    (hq : Balanced q) : Balanced (if i then p else q) := fun a => (hp a).ite (hq a)

lemma Balanced.whenever {p : Locking ε σ Unit} (hp : Balanced p) (i : Bool) :
    Balanced (whenever i p) := hp.ite (balanced_pure ())

lemma Balanced.drop (hp : Balanced p) : Balanced (drop p) := hp.bind fun _ => balanced_pure ()

section Loops
variable {xs : List γ}

lemma balanced_mapM {g : γ → Locking ε σ β} (hg : ∀ x ∈ xs, Balanced (g x)) :
    Balanced (xs.mapM g) := by
  induction xs with
  | nil => exact balanced_pure []
  | cons x xs ih =>
      rw [List.mapM_cons]
      refine (hg x List.mem_cons_self).bind fun y => ?_
      exact (ih fun x' hx' => hg x' (List.mem_cons_of_mem _ hx')).bind fun ys => balanced_pure _

lemma balanced_foldlM {g : β → γ → Locking ε σ β} (hg : ∀ y, ∀ x ∈ xs, Balanced (g y x)) (y : β) :
    Balanced (xs.foldlM g y) := by
  induction xs generalizing y with
  | nil => exact balanced_pure y
  | cons x xs ih =>
      rw [List.foldlM_cons]
      refine (hg y x List.mem_cons_self).bind fun y' => ?_
      exact ih (fun y x' hx' => hg y x' (List.mem_cons_of_mem _ hx')) y'

lemma balanced_forM {g : γ → Locking ε σ PUnit} (hg : ∀ x ∈ xs, Balanced (g x)) :
    Balanced (xs.forM g) := by
  induction xs with
  | nil => exact balanced_pure _
  | cons x xs ih =>
      refine (hg x List.mem_cons_self).bind fun _ => ?_
      exact ih fun x' hx' => hg x' (List.mem_cons_of_mem _ hx')

end Loops

lemma Balanced.keeps (hp : Balanced p) (s : σ × ℕ) : Keeps 0 p s :=
  fun x s' h => hp 0 s.1 s.2 x s' h

lemma keeps_of_run {s : σ × ℕ} {x : α} {data : σ} {k : ℕ} (h : p s = .ok (x, (data, s.2 + k))) :
    Keeps k p s := by
  intro y s' hy
  cases h.symm.trans hy
  rfl

lemma Keeps.drop {s : σ × ℕ} {k : ℕ} (h : Keeps k p s) : Keeps k (drop p) s := by
  intro x s' hx
  obtain ⟨y, t, hy, hres⟩ := bind_ok_iff.mp hx
  cases hres
  exact h y _ hy

/-- A program that returns where it may forget the lock gives it back only where it does not. -/
lemma keeps_zero_iff {s : σ × ℕ} {forgets : Bool} (h : Keeps forgets.toNat p s)
    (hreturns : forgets = true → ∃ x s', p s = .ok (x, s')) : Keeps 0 p s ↔ forgets = false := by
  cases forgets with
  | false => exact iff_of_true h rfl
  | true =>
      refine iff_of_false (fun hback => ?_) (fun h => by cases h)
      obtain ⟨x, s', hrun⟩ := hreturns rfl
      have hheld : s'.2 = s.2 + 1 := h x s' hrun
      have hsame : s'.2 = s.2 := hback x s' hrun
      omega

section Calls
variable {κ : Type} (perform : κ → Locking ε σ PUnit) (forgets : κ → σ → Bool)

/-- The number of the calls in a run that forget to release the lock. -/
def forgotten : List κ → σ × ℕ → ℕ
  | [], _ => 0
  | c :: calls, s =>
      match perform c s with
      | .error _ => 0
      | .ok (_, s') => (forgets c s.1).toNat + forgotten calls s'

variable {perform forgets}

/-- If every call that forgets the lock holds it once more, then a run holds it as often more as
its calls forget it. -/
theorem forM_keeps (h : ∀ c s, Keeps (forgets c s.1).toNat (perform c) s) (calls : List κ)
    (s : σ × ℕ) : Keeps (forgotten perform forgets calls s) (calls.forM perform) s := by
  induction calls generalizing s with
  | nil => exact (balanced_pure _).keeps s
  | cons c calls ih =>
      intro x s'' hrun
      have hfirst : (perform c >>= fun _ => calls.forM perform) s = .ok (x, s'') := hrun
      obtain ⟨y, s', hcall, hrest⟩ := bind_ok_iff.mp hfirst
      have hstep : s'.2 = s.2 + (forgets c s.1).toNat := h c s y s' hcall
      have hcalls : s''.2 = s'.2 + forgotten perform forgets calls s' := ih s' x s'' hrest
      rw [forgotten, hcall, hcalls, hstep, Nat.add_assoc]

/-- Calls that return with data that pass a test lead to such a state. -/
lemma exists_run (perform : κ → Locking ε σ PUnit) (calls : List κ) (s : σ × ℕ) (test : σ → Bool)
    (h : (calls.forM perform s).map (fun r => test r.2.1) = .ok true) :
    ∃ s', calls.forM perform s = .ok ((), s') ∧ test s'.1 = true := by
  cases hrun : calls.forM perform s with
  | error e =>
      rw [hrun] at h
      cases h
  | ok r =>
      rw [hrun] at h
      exact ⟨r.2, rfl, Except.ok.inj h⟩

end Calls

end MRNet.RecursiveLock
