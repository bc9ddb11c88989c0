import MRNet.Interleavings
import MRNet.RootedTrees

/-!
# Trees of queues

Every node of a tree takes messages from a queue, one after another, and puts messages into the
queues of its children. In which order the nodes take their steps does not matter for what a node
is given.
-/
namespace MRNet.FifoTree
open Forest Interleavings

/-- What the nodes do with a message: the new state, and what goes to which child. -/
structure Relay (N α σ : Type) where
  tree : ParentTree N
  initial : N → σ
  handle : N → σ → α → σ × (N → List α)

structure State (N α σ : Type) where
  node : N → σ
  queue : N → List α

namespace Relay
variable {N α σ : Type} (r : Relay N α σ)

/-- The state of a node after messages. -/
def run (n : N) (s : σ) (messages : List α) : σ :=
  messages.foldl (fun s message => (r.handle n s message).1) s

def state (n : N) (messages : List α) : σ := r.run n (r.initial n) messages

/-- What the messages give one after another, each in the state that it finds. -/
def collectFrom {β : Type} (f : σ → α → List β) (n : N) : σ → List α → List β
  | _, [] => []
  | s, message :: messages =>
      f s message ++ collectFrom f n (r.handle n s message).1 messages

def collect {β : Type} (f : σ → α → List β) (n : N) (messages : List α) : List β :=
  r.collectFrom f n (r.initial n) messages

/-- What a node sends to a child. -/
def outputs (n c : N) (messages : List α) : List α :=
  r.collect (fun s message => (r.handle n s message).2 c) n messages

section Steps
variable [DecidableEq N]

/-- The messages for the root are there from the start. -/
def start (messages : List α) : State N α σ where
  node := r.initial
  queue := fun n => if n = r.tree.root then messages else []

/-- A node takes the first message of its queue. -/
def step (s : State N α σ) (n : N) : Option (State N α σ) :=
  match s.queue n with
  | [] => none
  | message :: rest => some
      { node := Function.update s.node n (r.handle n (s.node n) message).1
        queue := fun m =>
          if m = n then rest
          else if r.tree.parent m = some n then
            s.queue m ++ (r.handle n (s.node n) message).2 m
          else s.queue m }

end Steps

/-- The messages that a node is given when those for the root are given. -/
inductive Feeds (messages : List α) : N → List α → Prop
  | root : Feeds messages r.tree.root messages
  | child {c p : N} {given : List α} (hc : r.tree.parent c = some p) (hp : Feeds messages p given) :
      Feeds messages c (r.outputs p c given)

variable {r} {messages given : List α} {n c p : N}

@[simp] lemma run_cons (s : σ) (x : α) (xs : List α) :
    r.run n s (x :: xs) = r.run n (r.handle n s x).1 xs := rfl

lemma run_append (s : σ) (xs ys : List α) : r.run n s (xs ++ ys) = r.run n (r.run n s xs) ys :=
  List.foldl_append ..

lemma state_append (xs ys : List α) : r.state n (xs ++ ys) = r.run n (r.state n xs) ys :=
  run_append _ xs ys

section Collect
variable {β : Type} {f : σ → α → List β}

lemma collectFrom_append (s : σ) (xs ys : List α) : r.collectFrom f n s (xs ++ ys) =
    r.collectFrom f n s xs ++ r.collectFrom f n (r.run n s xs) ys := by
  induction xs generalizing s with
  | nil => rfl
  | cons x xs ih => rw [List.cons_append, collectFrom, collectFrom, ih, List.append_assoc, run_cons]

lemma collect_append (xs : List α) (x : α) :
    r.collect f n (xs ++ [x]) = r.collect f n xs ++ f (r.state n xs) x := by
  rw [collect, collectFrom_append, collectFrom, collectFrom, List.append_nil]
  rfl

/-- More messages only give more. -/
lemma collect_prefix {xs ys : List α} (h : xs <+: ys) : r.collect f n xs <+: r.collect f n ys := by
  obtain ⟨zs, rfl⟩ := h
  rw [collect, collect, collectFrom_append]
  exact List.prefix_append _ _

end Collect

lemma outputs_append (xs : List α) (x : α) :
    r.outputs n c (xs ++ [x]) = r.outputs n c xs ++ (r.handle n (r.state n xs) x).2 c :=
  collect_append xs x

/-- Every message of a list satisfies a condition in the state that it finds. -/
def AlwaysFrom (r : Relay N α σ) (P : N → σ → α → Prop) (n : N) : σ → List α → Prop
  | _, [] => True
  | s, message :: messages =>
      P n s message ∧ AlwaysFrom r P n (r.handle n s message).1 messages

def Always (r : Relay N α σ) (P : N → σ → α → Prop) (n : N) (messages : List α) : Prop :=
  r.AlwaysFrom P n (r.initial n) messages

lemma alwaysFrom_append {P : N → σ → α → Prop} {s : σ} {xs ys : List α} :
    r.AlwaysFrom P n s (xs ++ ys) ↔ r.AlwaysFrom P n s xs ∧ r.AlwaysFrom P n (r.run n s xs) ys := by
  induction xs generalizing s with
  | nil => exact (and_iff_right trivial).symm
  | cons x xs ih =>
      show P n s x ∧ r.AlwaysFrom P n _ (xs ++ ys) ↔ (P n s x ∧ r.AlwaysFrom P n _ xs) ∧ _
      rw [ih, and_assoc, run_cons]

lemma always_append {P : N → σ → α → Prop} {xs ys : List α} :
    r.Always P n (xs ++ ys) ↔ r.Always P n xs ∧ r.AlwaysFrom P n (r.state n xs) ys :=
  alwaysFrom_append

namespace Feeds

lemma exists_feed (r : Relay N α σ) (messages : List α) (n : N) :
    ∃ given, r.Feeds messages n given := by
  refine r.tree.down_induction (P := fun n => ∃ given, r.Feeds messages n given) ⟨_, .root⟩
    (fun c p hc h => ?_) n
  obtain ⟨given, hgiven⟩ := h
  exact ⟨_, .child hc hgiven⟩

lemma unique {given' : List α} (h : r.Feeds messages n given) (h' : r.Feeds messages n given') :
    given = given' := by
  induction h generalizing given' with
  | root =>
      cases h' with
      | root => rfl
      | child hc _ => exact absurd rfl (ParentTree.ne_root_of_parent hc)
  | @child c p given hc _ ih =>
      cases h' with
      | root => exact absurd rfl (ParentTree.ne_root_of_parent hc)
      | child hc' hp' =>
          obtain rfl : p = _ := Option.some.inj (hc.symm.trans hc')
          rw [ih hp']

/-- A condition that goes over from a node to its children holds for all that is given. -/
theorem always {P : N → σ → α → Prop} (hroot : r.Always P r.tree.root messages)
    (hchild : ∀ {c p xs}, r.tree.parent c = some p → r.Always P p xs →
      r.Always P c (r.outputs p c xs)) (h : r.Feeds messages n given) : r.Always P n given := by
  induction h with
  | root => exact hroot
  | child hc _ ih => exact hchild hc ih

end Feeds

/-- Every node has taken some messages, and what it has sent for them was taken by the children
or is in their queues. -/
structure Accounted (r : Relay N α σ) (messages : List α) (s : State N α σ) (taken : N → List α) :
    Prop where
  node : ∀ n, s.node n = r.state n (taken n)
  root : taken r.tree.root ++ s.queue r.tree.root = messages
  child : ∀ {c p}, r.tree.parent c = some p → taken c ++ s.queue c = r.outputs p c (taken p)

lemma Accounted.prefix_feed {s : State N α σ} {taken : N → List α}
    (h : Accounted r messages s taken) (hgiven : r.Feeds messages n given) :
    taken n ++ s.queue n <+: given := by
  induction hgiven with
  | root => rw [h.root]
  | @child c p given hc _ ih =>
      rw [h.child hc]
      exact collect_prefix ((List.prefix_append _ _).trans ih)

/-- When all queues are empty, every node was given everything. -/
lemma Accounted.eq_feed {s : State N α σ} {taken : N → List α} (h : Accounted r messages s taken)
    (hempty : ∀ n, s.queue n = []) (hgiven : r.Feeds messages n given) : taken n = given := by
  have hall : ∀ n, taken n ++ s.queue n = taken n := fun n => by rw [hempty n, List.append_nil]
  induction hgiven with
  | root => rw [← h.root, hall]
  | @child c p given hc _ ih => rw [← hall c, h.child hc, ih]

section Steps
variable [DecidableEq N] {s s' : State N α σ}

lemma exists_step {x : α} {xs : List α} (h : s.queue n = x :: xs) :
    ∃ s', r.step s n = some s' := by
  rw [Relay.step, h]
  exact ⟨_, rfl⟩

lemma runSchedule_append {start : State N α σ} {nodes : List N}
    (h : runSchedule r.step start nodes = some s) (hstep : r.step s n = some s') :
    runSchedule r.step start (nodes ++ [n]) = some s' := by
  rw [runSchedule, List.foldlM_append]
  refine Option.bind_eq_some_iff.mpr ⟨s, h, ?_⟩
  rw [List.foldlM_cons, hstep]
  rfl

lemma step_eq_some (h : r.step s n = some s') : ∃ message rest, s.queue n = message :: rest ∧
    s'.node = Function.update s.node n (r.handle n (s.node n) message).1 ∧
    s'.queue n = rest ∧
    (∀ m, r.tree.parent m = some n →
      s'.queue m = s.queue m ++ (r.handle n (s.node n) message).2 m) ∧
    ∀ m, m ≠ n → r.tree.parent m ≠ some n → s'.queue m = s.queue m := by
  rw [step] at h
  cases hqueue : s.queue n with
  | nil =>
      rw [hqueue] at h
      cases h
  | cons message rest =>
      rw [hqueue] at h
      cases h
      refine ⟨message, rest, rfl, rfl, if_pos rfl, fun m hm => ?_, fun m hne hm => ?_⟩
      · exact (if_neg (ParentTree.parent_ne_self hm).symm).trans (if_pos hm)
      · exact (if_neg hne).trans (if_neg hm)

lemma accounted_start : Accounted r messages (r.start messages) fun _ => [] where
  node := fun _ => rfl
  root := if_pos rfl
  child := fun hc => if_neg (ParentTree.ne_root_of_parent hc)

lemma Accounted.step {taken : N → List α} (h : Accounted r messages s taken)
    (hstep : r.step s n = some s') : ∃ message, s.queue n = message :: s'.queue n ∧
      Accounted r messages s' (Function.update taken n (taken n ++ [message])) := by
  obtain ⟨message, rest, hqueue, hnode, hself, hchild, hother⟩ := step_eq_some hstep
  refine ⟨message, by rw [hqueue, hself], ⟨fun m => ?_, ?_, fun {c p} hc => ?_⟩⟩
  · by_cases hm : m = n
    · subst hm
      rw [hnode, Function.update_self, Function.update_self, state_append, ← h.node]
      rfl
    · rw [hnode, Function.update_of_ne hm, Function.update_of_ne hm, h.node]
  · by_cases hroot : r.tree.root = n
    · rw [hroot, Function.update_self, hself, List.append_assoc, List.singleton_append, ← hqueue,
        ← hroot, h.root]
    · have hparent : r.tree.parent r.tree.root ≠ some n := by
        rw [(r.tree.parent_root _).mpr rfl]
        exact (Option.some_ne_none n).symm
      rw [Function.update_of_ne hroot, hother _ hroot hparent, h.root]
  · by_cases hp : p = n
    · subst hp
      have hne : c ≠ p := (ParentTree.parent_ne_self hc).symm
      rw [Function.update_of_ne hne, Function.update_self, hchild c hc, outputs_append,
        ← List.append_assoc, h.child hc, h.node]
    · rw [Function.update_of_ne hp, ← h.child hc]
      by_cases hc' : c = n
      · subst hc'
        rw [Function.update_self, hself, List.append_assoc, List.singleton_append, ← hqueue]
      · have hparent : r.tree.parent c ≠ some n := by
          rw [hc]
          exact fun he => hp (Option.some.inj he)
        rw [Function.update_of_ne hc', hother c hc' hparent]

theorem exists_accounted (hrun : Reaches r.step Any (r.start messages) s) :
    ∃ taken, Accounted r messages s taken := by
  refine hrun.keeps (I := fun s => ∃ taken, Accounted r messages s taken) ⟨_, accounted_start⟩
    fun h _ hstep => ?_
  obtain ⟨taken, htaken⟩ := h
  obtain ⟨message, -, hnext⟩ := htaken.step hstep
  exact ⟨_, hnext⟩

/-- The message that a node takes next satisfies such a condition. -/
theorem next_satisfies {P : N → σ → α → Prop} (hroot : r.Always P r.tree.root messages)
    (hchild : ∀ {c p xs}, r.tree.parent c = some p → r.Always P p xs →
      r.Always P c (r.outputs p c xs)) (hrun : Reaches r.step Any (r.start messages) s)
    {message : α} {rest : List α} (hqueue : s.queue n = message :: rest) :
    P n (s.node n) message := by
  obtain ⟨taken, htaken⟩ := exists_accounted hrun
  obtain ⟨given, hgiven⟩ := Feeds.exists_feed r messages n
  have hall := hgiven.always hroot hchild
  obtain ⟨more, rfl⟩ := htaken.prefix_feed hgiven
  rw [List.append_assoc, always_append, hqueue] at hall
  rw [htaken.node]
  exact hall.2.1

variable [Fintype N]

lemma Accounted.run {taken : N → List α} {nodes : List N} (h : Accounted r messages s taken)
    (hrun : runSchedule r.step s nodes = some s') : ∃ taken', Accounted r messages s' taken' ∧
      ∑ n, (taken' n).length = ∑ n, (taken n).length + nodes.length := by
  induction nodes generalizing s taken with
  | nil =>
      cases hrun
      exact ⟨taken, h, rfl⟩
  | cons n nodes ih =>
      rw [runSchedule, List.foldlM_cons] at hrun
      obtain ⟨s₁, hstep, hrest⟩ := Option.bind_eq_some_iff.mp hrun
      obtain ⟨message, -, hnext⟩ := h.step hstep
      obtain ⟨taken', htaken', hlength⟩ := ih hnext hrest
      refine ⟨taken', htaken', ?_⟩
      have hone : ∑ m, (Function.update taken n (taken n ++ [message]) m).length =
          ∑ m, (taken m).length + 1 := by
        rw [← Finset.add_sum_erase _ _ (Finset.mem_univ n),
          ← Finset.add_sum_erase _ (fun m => (taken m).length) (Finset.mem_univ n),
          Function.update_self, List.length_append, List.length_singleton, Nat.add_right_comm]
        congr 1
        congr 1
        apply Finset.sum_congr rfl
        intro m hm
        rw [Function.update_of_ne (Finset.ne_of_mem_erase hm)]
      rw [hlength, hone, List.length_cons]
      omega

/-- There are only finitely many steps in a run. -/
theorem runs_end (r : Relay N α σ) (messages : List α) : ∃ bound, ∀ nodes s,
    runSchedule r.step (r.start messages) nodes = some s → nodes.length ≤ bound := by
  choose given hgiven using Feeds.exists_feed r messages
  refine ⟨∑ n, (given n).length, fun nodes s hrun => ?_⟩
  obtain ⟨taken, htaken, hlength⟩ := accounted_start.run hrun
  have hle : ∑ n, (taken n).length ≤ ∑ n, (given n).length := by
    apply Finset.sum_le_sum
    intro n _
    exact ((List.prefix_append _ _).trans (htaken.prefix_feed (hgiven n))).length_le
  rw [hlength] at hle
  exact (Nat.le_add_left _ _).trans hle

lemma exists_rest_of_schedule {bound : ℕ} (hbound : ∀ nodes s,
    runSchedule r.step (r.start messages) nodes = some s → nodes.length ≤ bound) (more : ℕ)
    {nodes : List N} (hrun : runSchedule r.step (r.start messages) nodes = some s)
    (hlength : bound ≤ nodes.length + more) :
    ∃ s', Reaches r.step Any (r.start messages) s' ∧ ∀ n, s'.queue n = [] := by
  induction more generalizing nodes s with
  | zero =>
      refine ⟨s, reaches_any hrun, fun n => ?_⟩
      cases hqueue : s.queue n with
      | nil => rfl
      | cons x xs =>
          obtain ⟨s', hstep⟩ := exists_step hqueue
          have hle := hbound (nodes ++ [n]) s' (runSchedule_append hrun hstep)
          rw [List.length_append, List.length_singleton] at hle
          omega
  | succ more ih =>
      by_cases hrest : ∀ n, s.queue n = []
      · exact ⟨s, reaches_any hrun, hrest⟩
      · obtain ⟨n, hn⟩ := not_forall.mp hrest
        obtain ⟨x, xs, hqueue⟩ := List.exists_cons_of_ne_nil hn
        obtain ⟨s', hstep⟩ := exists_step hqueue
        refine ih (runSchedule_append hrun hstep) ?_
        rw [List.length_append, List.length_singleton]
        omega

/-- All messages can be taken. -/
theorem exists_rest (r : Relay N α σ) (messages : List α) :
    ∃ s, Reaches r.step Any (r.start messages) s ∧ ∀ n, s.queue n = [] := by
  obtain ⟨bound, hbound⟩ := r.runs_end messages
  exact exists_rest_of_schedule hbound bound (show runSchedule r.step _ [] = some _ from rfl)
    (Nat.le_add_left _ _)

end Steps

end Relay

end MRNet.FifoTree
