import MRNet.FilterLoad

/-!
# The reports of the loading of filters

Every node reports once, with the errors of its subtree, and the front-end is signalled once,
with the errors of all nodes.
-/
namespace MRNet.FilterLoad
open Forest Interleavings

variable {N : Type} [Fintype N] [DecidableEq N] {l : Load N} {s s' : State N}

/-- The errors of the nodes of a subtree. -/
noncomputable def below (l : Load N) (n : N) : Multiset FilterError :=
  ∑ m ∈ l.tree.subtree n, (l.ownErrors m : Multiset FilterError)

/-- The children whose report a node has taken. -/
def heard (l : Load N) (s : State N) (n : N) : Finset N :=
  (l.tree.children n).filter fun c => 0 < (s.node c).taken

/-- What an internal node has counted that took the reports of some children. -/
structure Counted (l : Load N) (n : N) (x : NodeState) (heard : Finset N) : Prop where
  waiting : x.filterChildrenWaiting = (l.tree.children n).card
  reported : x.filterChildrenReported = heard.card + if x.phase = .done then 1 else 0
  errors : (x.filterErrors : Multiset FilterError) =
    ∑ c ∈ heard, below l c + if x.phase = .done then (l.ownErrors n : Multiset FilterError) else 0
  sent : x.sent = if x.phase = .done ∧ heard = l.tree.children n then [x.filterErrors] else []

/-- The phases of a back-end. -/
def Phase.ofBackEnd : Phase → Bool
  | idle | requested | loaded | done => true
  | _ => false

structure NodeInv (l : Load N) (n : N) (x : NodeState) (heard : Finset N) : Prop where
  phases : l.backEnd n → x.phase.ofBackEnd
  taken_le : x.taken ≤ x.sent.length
  silent : x.phase ≠ .done → x.sent = []
  backEnd : l.backEnd n → x.phase = .done → x.sent = [l.ownErrors n]
  reset : l.backEnd n = false → x.phase = .reset ∨ x.phase = .cleared →
    x.filterChildrenReported = 0
  cleared : l.backEnd n = false → x.phase = .cleared → x.filterErrors = []
  counted : l.backEnd n = false → x.phase.counts → Counted l n x heard

lemma heard_subset (n : N) : heard l s n ⊆ l.tree.children n := Finset.filter_subset _ _

lemma children_of_backEnd {n : N} (h : l.backEnd n) : l.tree.children n = ∅ := by
  refine Finset.eq_empty_of_forall_notMem fun c hc => ?_
  exact l.backEnd_leaf n c h (ParentTree.mem_children.mp hc)

lemma below_eq (n : N) :
    below l n = ∑ c ∈ l.tree.children n, below l c + (l.ownErrors n : Multiset FilterError) :=
  ParentTree.sum_subtree _ n

section Node

variable {n : N} {x : NodeState} {heard : Finset N}

/-- A node that has reported has loaded and has heard from all its children. -/
theorem NodeInv.sent_cases (h : NodeInv l n x heard) (hheard : heard ⊆ l.tree.children n) :
    x.sent = [] ∨ ∃ errors, x.sent = [errors] ∧ (errors : Multiset FilterError) = below l n ∧
      x.phase = .done ∧ heard = l.tree.children n := by
  by_cases hdone : x.phase = .done
  · cases hback : l.backEnd n with
    | true =>
        have hnone := children_of_backEnd hback
        refine .inr ⟨_, h.backEnd hback hdone, ?_, hdone, ?_⟩
        · rw [below_eq, hnone, Finset.sum_empty, zero_add]
        · rw [hnone] at hheard ⊢
          exact Finset.subset_empty.mp hheard
    | false =>
        have hcounted := h.counted hback (by rw [hdone]; rfl)
        by_cases hall : heard = l.tree.children n
        · refine .inr ⟨x.filterErrors, ?_, ?_, hdone, hall⟩
          · rw [hcounted.sent, if_pos ⟨hdone, hall⟩]
          · rw [hcounted.errors, if_pos hdone, hall, below_eq]
        · rw [hcounted.sent, if_neg fun hboth => hall hboth.2]
          exact .inl rfl
  · exact .inl (h.silent hdone)

lemma NodeInv.sent_length (h : NodeInv l n x heard) (hheard : heard ⊆ l.tree.children n) :
    x.sent.length ≤ 1 := by
  rcases h.sent_cases hheard with hnil | ⟨errors, hone, -⟩
  · simp [hnil]
  · simp [hone]

lemma NodeInv.ask (h : NodeInv l n x heard) (hidle : x.phase = .idle) :
    NodeInv l n { x with phase := .requested } heard where
  phases _ := rfl
  taken_le := h.taken_le
  silent _ := h.silent (by rw [hidle]; decide)
  backEnd _ hdone := by cases hdone
  reset _ hreset := by cases hreset <;> contradiction
  cleared _ hcleared := by cases hcleared
  counted _ hcounts := by cases hcounts

/-- The first steps of a node leave its reports alone. -/
lemma NodeInv.prepare (h : NodeInv l n x heard) (hphase : x.phase ≠ .done) {phase : Phase}
    (hphase' : phase ≠ .done) (hback : l.backEnd n → phase.ofBackEnd)
    {reported waiting : ℕ} {errors : List FilterError}
    (hreset : phase = .reset ∨ phase = .cleared → reported = 0)
    (hcleared : phase = .cleared → errors = [])
    (hcounted : phase.counts → l.backEnd n = false → waiting = (l.tree.children n).card ∧
      reported = heard.card ∧ (errors : Multiset FilterError) = ∑ c ∈ heard, below l c) :
    NodeInv l n { x with
      phase := phase
      filterChildrenReported := reported
      filterChildrenWaiting := waiting
      filterErrors := errors } heard where
  phases := hback
  taken_le := h.taken_le
  silent _ := h.silent hphase
  backEnd _ hdone := absurd hdone hphase'
  reset _ := hreset
  cleared _ := hcleared
  counted hback hcounts := by
    obtain ⟨hwaiting, hreported, herrors⟩ := hcounted hcounts hback
    refine ⟨hwaiting, ?_, ?_, ?_⟩
    · rw [if_neg hphase', hreported, add_zero]
    · rw [if_neg hphase', herrors, add_zero]
    · rw [if_neg fun hboth => hphase' hboth.1]
      exact h.silent hphase

/-- A node that counts is prepared for its next phase. -/
lemma NodeInv.advance (h : NodeInv l n x heard) (hphase : x.phase ≠ .done)
    (hcounts : l.backEnd n = false → x.phase.counts) {phase : Phase} (hphase' : phase ≠ .done)
    (hback : l.backEnd n → phase.ofBackEnd) (hnext : phase ≠ .reset ∧ phase ≠ .cleared) :
    NodeInv l n { x with phase := phase } heard := by
  refine h.prepare hphase hphase' hback (fun hreset => ?_) (fun hcleared => ?_) fun _ hback => ?_
  · exact absurd hreset (not_or.mpr hnext)
  · exact absurd hcleared hnext.2
  · have hcounted := h.counted hback (hcounts hback)
    refine ⟨hcounted.waiting, ?_, ?_⟩
    · rw [hcounted.reported, if_neg hphase, add_zero]
    · rw [hcounted.errors, if_neg hphase, add_zero]

/-- The node after another report. -/
def NodeState.count (x : NodeState) (errors : List FilterError) : NodeState :=
  { x with
    filterChildrenReported := x.filterChildrenReported + 1
    filterErrors := x.filterErrors ++ errors
    sent := if x.filterChildrenWaiting = x.filterChildrenReported
      then x.sent ++ [x.filterErrors ++ errors] else x.sent }

/-- The report of a child is counted. -/
lemma NodeInv.hear (h : NodeInv l n x heard) (hheard : heard ⊆ l.tree.children n)
    (hback : l.backEnd n = false) (hcounts : x.phase.counts) {c : N} (hc : c ∈ l.tree.children n)
    (hnew : c ∉ heard) {errors : List FilterError}
    (herrors : (errors : Multiset FilterError) = below l c) :
    NodeInv l n (x.count errors) (insert c heard) := by
  have hcounted := h.counted hback hcounts
  have hmissing : heard ≠ l.tree.children n := fun heq => hnew (heq ▸ hc)
  have hnil : x.sent = [] := by rw [hcounted.sent, if_neg fun hboth => hmissing hboth.2]
  have hinsert : insert c heard ⊆ l.tree.children n := Finset.insert_subset hc hheard
  have hcard : heard.card < (l.tree.children n).card :=
    Finset.card_lt_card (hheard.ssubset_of_ne hmissing)
  have hlast : x.filterChildrenWaiting = x.filterChildrenReported ↔
      x.phase = .done ∧ insert c heard = l.tree.children n := by
    rw [hcounted.waiting, hcounted.reported, ← Finset.eq_iff_card_le_of_subset hinsert,
      Finset.card_insert_of_notMem hnew]
    split_ifs with hdone
    · simp only [hdone, true_and]
      omega
    · simp only [hdone, false_and, iff_false]
      omega
  have hphase : x.phase ≠ .reset ∧ x.phase ≠ .cleared := by
    constructor <;> intro heq <;> rw [heq] at hcounts <;> cases hcounts
  refine ⟨h.phases, ?_, fun hdone => ?_, fun hback' => ?_, fun _ hreset => ?_, fun _ hcleared => ?_,
    fun _ _ => ⟨hcounted.waiting, ?_, ?_, ?_⟩⟩
  · have := h.taken_le
    rw [hnil] at this
    exact this.trans (Nat.zero_le _)
  · change (if x.filterChildrenWaiting = x.filterChildrenReported then _ else _) = []
    rw [if_neg fun heq => hdone (hlast.mp heq).1]
    exact hnil
  · rw [hback] at hback'
    cases hback'
  · exact absurd hreset (not_or.mpr hphase)
  · exact absurd hcleared hphase.2
  · change x.filterChildrenReported + 1 = _
    rw [hcounted.reported, Finset.card_insert_of_notMem hnew, Nat.add_right_comm]
    rfl
  · change ((x.filterErrors ++ errors : List FilterError) : Multiset FilterError) = _
    rw [← Multiset.coe_add, hcounted.errors, herrors, Finset.sum_insert hnew, add_comm,
      ← add_assoc]
    rfl
  · change (if x.filterChildrenWaiting = x.filterChildrenReported then _ else _) = _
    rw [hnil, List.nil_append]
    exact if_congr hlast rfl rfl

/-- The node counts its own report. -/
lemma NodeInv.finish (h : NodeInv l n x heard) (hheard : heard ⊆ l.tree.children n)
    (hback : l.backEnd n = false) (hloaded : x.phase = .loaded) :
    NodeInv l n (({ x with phase := .done } : NodeState).count (l.ownErrors n)) heard := by
  have hcounted := h.counted hback (by rw [hloaded]; rfl)
  have hnot : x.phase ≠ .done := by rw [hloaded]; decide
  have hlast : x.filterChildrenWaiting = x.filterChildrenReported ↔
      heard = l.tree.children n := by
    rw [hcounted.waiting, hcounted.reported, if_neg hnot, add_zero,
      ← Finset.eq_iff_card_le_of_subset hheard]
    have := Finset.card_le_card hheard
    omega
  have hnil := h.silent hnot
  refine ⟨fun _ => rfl, ?_, fun hdone => absurd rfl hdone, fun hback' => ?_, fun _ hreset => ?_,
    fun _ hcleared => ?_, fun _ _ => ⟨hcounted.waiting, ?_, ?_, ?_⟩⟩
  · have := h.taken_le
    rw [hnil] at this
    exact this.trans (Nat.zero_le _)
  · rw [hback] at hback'
    cases hback'
  · cases hreset <;> contradiction
  · cases hcleared
  · change x.filterChildrenReported + 1 = _
    rw [hcounted.reported, if_neg hnot]
    rfl
  · change ((x.filterErrors ++ l.ownErrors n : List FilterError) : Multiset FilterError) = _
    rw [← Multiset.coe_add, hcounted.errors, if_neg hnot, add_zero]
    rfl
  · change (if x.filterChildrenWaiting = x.filterChildrenReported then _ else _) = _
    rw [hnil, List.nil_append]
    exact if_congr ⟨fun heq => ⟨rfl, hlast.mp heq⟩, fun hboth => hlast.mpr hboth.2⟩ rfl rfl

end Node

/-- A node has sent the request to its children. -/
def Forwarded (l : Load N) (s : State N) (n : N) : Prop :=
  if n = l.tree.root then s.frontEnd ≠ .start ∧ l.requested ≠ [] else (s.node n).phase.forwards

/-- What the front-end has counted. Once it has been signalled, it does not wait. -/
structure FrontInv (l : Load N) (s : State N) : Prop where
  asks : s.frontEnd = .sent ∨ s.frontEnd = .waiting → l.requested ≠ []
  waits : s.frontEnd = .waiting → l.tree.children l.tree.root ≠ ∅
  quiet : s.signals = [] →
    (s.node l.tree.root).filterChildrenReported = (heard l s l.tree.root).card ∧
    ((s.node l.tree.root).filterErrors : Multiset FilterError) =
      ∑ c ∈ heard l s l.tree.root, below l c ∧
    (heard l s l.tree.root = l.tree.children l.tree.root → l.tree.children l.tree.root = ∅)
  signalled : s.signals ≠ [] → ∃ errors, s.signals = [errors] ∧
    (errors : Multiset FilterError) = ∑ c ∈ l.tree.children l.tree.root, below l c ∧
    heard l s l.tree.root = l.tree.children l.tree.root ∧
    s.frontEnd ≠ .start ∧ s.frontEnd ≠ .sent ∧ s.frontEnd ≠ .waiting

structure Inv (l : Load N) (s : State N) : Prop where
  asked : ∀ c p, l.tree.parent c = some p → ((s.node c).phase ≠ .idle ↔ Forwarded l s p)
  nodes : ∀ n, n ≠ l.tree.root → NodeInv l n (s.node n) (heard l s n)
  front : FrontInv l s

/-- The front-end does not take the last report between sending the request and waiting. -/
def Timely (l : Load N) (s : State N) : Action N → Prop
  | .report c => l.tree.parent c = some l.tree.root →
      (s.node l.tree.root).filterChildrenReported + 1 = (l.tree.children l.tree.root).card →
      s.frontEnd ≠ .sent
  | _ => True

lemma heard_congr (h : ∀ n, (s'.node n).taken = (s.node n).taken) (n : N) :
    heard l s' n = heard l s n := by
  unfold heard
  simp only [h]

lemma Inv.taken_eq_zero (h : Inv l s) {c p : N} (hp : l.tree.parent c = some p)
    (hnot : ¬Forwarded l s p) : (s.node c).phase = .idle ∧ (s.node c).taken = 0 := by
  have hidle : (s.node c).phase = .idle := by
    by_contra hne
    exact hnot ((h.asked c p hp).mp hne)
  have hnode := h.nodes c (ParentTree.ne_root_of_parent hp)
  refine ⟨hidle, ?_⟩
  have hle := hnode.taken_le
  rw [hnode.silent (by rw [hidle]; decide)] at hle
  exact Nat.le_zero.mp hle

lemma Inv.heard_eq_empty (h : Inv l s) {n : N} (hnot : ¬Forwarded l s n) :
    heard l s n = ∅ := by
  refine Finset.filter_eq_empty_iff.mpr fun c hc => ?_
  rw [(h.taken_eq_zero (ParentTree.mem_children.mp hc) hnot).2]
  exact Nat.lt_irrefl 0

omit [Fintype N] in
lemma setNode_self (n : N) (x : NodeState) : (s.setNode n x).node n = x :=
  Function.update_self ..

omit [Fintype N] in
lemma setNode_of_ne {n m : N} (h : m ≠ n) (x : NodeState) : (s.setNode n x).node m = s.node m :=
  Function.update_of_ne h ..

omit [Fintype N] in
/-- What a node has reported to is kept by a step of another thread. -/
lemma setNode_taken {n : N} {x : NodeState} (h : x.taken = (s.node n).taken) (m : N) :
    ((s.setNode n x).node m).taken = (s.node m).taken := by
  by_cases hm : m = n
  · rw [hm, setNode_self, h]
  · rw [setNode_of_ne hm]

/-- A node moves on. -/
lemma Inv.setNode (h : Inv l s) {n : N} (hn : n ≠ l.tree.root) {x : NodeState}
    (hx : NodeInv l n x (heard l s n)) (htaken : x.taken = (s.node n).taken)
    (hidle : (s.node n).phase ≠ .idle) (hidle' : x.phase ≠ .idle)
    (hforwards : l.backEnd n = false → x.phase.forwards = (s.node n).phase.forwards) :
    Inv l (s.setNode n x) := by
  have hheard := heard_congr (l := l) (setNode_taken htaken)
  have hroot : (s.setNode n x).node l.tree.root = s.node l.tree.root := setNode_of_ne hn.symm x
  refine ⟨fun c p hp => ?_, fun m hm => ?_, ?_⟩
  · have hphase : ((s.setNode n x).node c).phase ≠ .idle ↔ (s.node c).phase ≠ .idle := by
      by_cases hc : c = n
      · rw [hc, setNode_self]
        exact iff_of_true hidle' hidle
      · rw [setNode_of_ne hc]
    have hforward : ((s.setNode n x).node p).phase.forwards = (s.node p).phase.forwards := by
      by_cases hpn : p = n
      · subst hpn
        rw [setNode_self]
        exact hforwards (Bool.eq_false_iff.mpr fun hback => l.backEnd_leaf p c hback hp)
      · rw [setNode_of_ne hpn]
    rw [hphase, h.asked c p hp]
    unfold Forwarded
    rw [hforward]
    rfl
  · rw [hheard]
    by_cases hmn : m = n
    · rw [hmn, setNode_self]
      exact hx
    · rw [setNode_of_ne hmn]
      exact h.nodes m hm
  · refine ⟨h.front.asks, h.front.waits, fun hsignals => ?_, fun hsignals => ?_⟩
    · rw [hroot, hheard]
      exact h.front.quiet hsignals
    · obtain ⟨errors, hone, hsum, hall, hfront⟩ := h.front.signalled hsignals
      refine ⟨errors, hone, hsum, ?_, hfront⟩
      rw [hheard]
      exact hall

/-- The children of a node that had not forwarded the request are asked. -/
lemma Inv.send (h : Inv l s) {n : N} (hnot : ¬Forwarded l s n) {m : N} (hm : m ≠ l.tree.root) :
    NodeInv l m ((s.sendPacketToChildren l n).node m) (heard l s m) := by
  unfold State.sendPacketToChildren
  dsimp only
  split_ifs with hparent
  · exact (h.nodes m hm).ask (h.taken_eq_zero hparent hnot).1
  · exact h.nodes m hm

omit [Fintype N] in
lemma sendPacketToChildren_taken (n m : N) :
    ((s.sendPacketToChildren l n).node m).taken = (s.node m).taken := by
  unfold State.sendPacketToChildren
  dsimp only
  split_ifs <;> rfl

omit [Fintype N] in
lemma sendPacketToChildren_self {n m : N} (h : l.tree.parent m ≠ some n) :
    (s.sendPacketToChildren l n).node m = s.node m := if_neg h

omit [Fintype N] in
lemma sendPacketToChildren_child {n c : N} (h : l.tree.parent c = some n) :
    (s.sendPacketToChildren l n).node c = { s.node c with phase := .requested } := if_pos h

/-- An internal node forwards the request. -/
lemma Inv.forward (h : Inv l s) {n : N} (hn : n ≠ l.tree.root)
    (hready : (s.node n).phase = .ready) :
    Inv l ((s.sendPacketToChildren l n).setPhase n .forwarded) := by
  have hnot : ¬Forwarded l s n := by
    rw [Forwarded, if_neg hn, hready]
    decide
  have hself : (s.sendPacketToChildren l n).node n = s.node n :=
    sendPacketToChildren_self fun hp => ParentTree.parent_ne_self hp rfl
  have hroot : ((s.sendPacketToChildren l n).setPhase n .forwarded).node l.tree.root =
      s.node l.tree.root := by
    rw [State.setPhase, setNode_of_ne hn.symm, sendPacketToChildren_self]
    rw [(l.tree.parent_root _).mpr rfl]
    exact fun hp => by cases hp
  have hheard : ∀ m, heard l ((s.sendPacketToChildren l n).setPhase n .forwarded) m =
      heard l s m := by
    refine heard_congr fun m => ?_
    rw [State.setPhase, setNode_taken (by rfl), sendPacketToChildren_taken]
  refine ⟨fun c p hp => ?_, fun m hm => ?_, ?_⟩
  · by_cases hpn : p = n
    · subst hpn
      have hc : c ≠ p := (ParentTree.parent_ne_self hp).symm
      rw [State.setPhase, setNode_of_ne hc, sendPacketToChildren_child hp, Forwarded, if_neg hn,
        setNode_self]
      exact iff_of_true (fun heq => by cases heq) rfl
    · have hphase : (((s.sendPacketToChildren l n).setPhase n .forwarded).node c).phase ≠ .idle ↔
          (s.node c).phase ≠ .idle := by
        by_cases hc : c = n
        · rw [hc, State.setPhase, setNode_self, hready]
          exact iff_of_true (fun heq => by cases heq) fun heq => by cases heq
        · rw [State.setPhase, setNode_of_ne hc, sendPacketToChildren_self]
          rw [hp]
          exact fun heq => hpn (Option.some.inj heq)
      rw [hphase, h.asked c p hp, Forwarded, Forwarded]
      by_cases hproot : p = l.tree.root
      · rw [if_pos hproot, if_pos hproot]
        rfl
      · rw [if_neg hproot, if_neg hproot, State.setPhase, setNode_of_ne hpn]
        by_cases hpp : l.tree.parent p = some n
        · rw [sendPacketToChildren_child hpp, (h.taken_eq_zero hpp hnot).1]
          rfl
        · rw [sendPacketToChildren_self hpp]
  · rw [hheard]
    by_cases hmn : m = n
    · subst hmn
      rw [State.setPhase, setNode_self, hself]
      have hnode := h.nodes m hm
      refine hnode.advance (by rw [hready]; decide) (fun _ => by rw [hready]; rfl) (by decide)
        (fun hback => ?_) (by decide)
      have hphase := hnode.phases hback
      rw [hready] at hphase
      cases hphase
    · rw [State.setPhase, setNode_of_ne hmn]
      exact h.send hnot hm
  · refine ⟨h.front.asks, h.front.waits, fun hsignals => ?_, fun hsignals => ?_⟩
    · rw [hroot, hheard]
      exact h.front.quiet hsignals
    · rw [hheard]
      exact h.front.signalled hsignals

lemma procFilterLoadEvent_of_ne_root {n : N} (hn : n ≠ l.tree.root) (errors : List FilterError) :
    procFilterLoadEvent l s n errors = s.setNode n ((s.node n).count errors) := by
  unfold procFilterLoadEvent NodeState.count
  dsimp only
  by_cases hlast : (s.node n).filterChildrenWaiting = (s.node n).filterChildrenReported
  · rw [if_pos ⟨congrArg (· + 1) hlast, hn⟩, if_pos hlast]
  · rw [if_neg fun hboth => hlast (Nat.succ.inj hboth.1), if_neg fun hboth => hn hboth.1,
      if_neg hlast]

lemma Inv.backEndRequest (h : Inv l s) {n : N} (hn : n ≠ l.tree.root) (hback : l.backEnd n)
    (hs : backEndRequest l s n = some s') : Inv l s' := by
  have hnode := h.nodes n hn
  have hno : ∀ {P : Prop}, l.backEnd n = false → P := by
    intro P hno
    rw [hback] at hno
    cases hno
  unfold FilterLoad.backEndRequest at hs
  split at hs
  · rename_i hphase
    cases hs
    refine h.setNode hn ?_ rfl (by rw [hphase]; decide) nofun hno
    exact hnode.advance (by rw [hphase]; decide) hno (by decide) (fun _ => rfl) (by decide)
  · rename_i hphase
    cases hs
    have hnil := hnode.silent (by rw [hphase]; decide)
    rw [hnil]
    refine h.setNode hn ?_ rfl (by rw [hphase]; decide) nofun hno
    refine ⟨fun _ => rfl, ?_, fun hdone => absurd rfl hdone, fun _ _ => rfl, hno, hno, hno⟩
    have hle := hnode.taken_le
    rw [hnil] at hle
    exact hle.trans (Nat.zero_le _)
  · cases hs

lemma Inv.parentRequest (h : Inv l s) {n : N} (hn : n ≠ l.tree.root) (hback : l.backEnd n = false)
    (hs : parentRequest l s n = some s') : Inv l s' := by
  have hnode := h.nodes n hn
  have hsilent : ∀ {phase}, (s.node n).phase = phase → phase.forwards = false →
      heard l s n = ∅ := by
    intro phase hphase hfalse
    apply h.heard_eq_empty
    rw [Forwarded, if_neg hn, hphase, hfalse]
    exact Bool.false_ne_true
  have hno : ∀ {P : Prop}, l.backEnd n → P := by
    intro P hno
    rw [hback] at hno
    cases hno
  unfold FilterLoad.parentRequest at hs
  dsimp only at hs
  split at hs
  · rename_i hphase
    cases hs
    refine h.setNode hn ?_ rfl (by rw [hphase]; decide) nofun fun _ => by rw [hphase]; rfl
    refine hnode.prepare (by rw [hphase]; decide) (by decide) hno (fun _ => rfl) (fun heq => ?_)
      fun hcounts => by cases hcounts
    cases heq
  · rename_i hphase
    cases hs
    refine h.setNode hn ?_ rfl (by rw [hphase]; decide) nofun fun _ => by rw [hphase]; rfl
    exact hnode.prepare (by rw [hphase]; decide) (by decide) hno
      (fun _ => hnode.reset hback (.inl hphase)) (fun _ => rfl) fun hcounts => by cases hcounts
  · rename_i hphase
    cases hs
    refine h.setNode hn ?_ rfl (by rw [hphase]; decide) nofun fun _ => by rw [hphase]; rfl
    refine hnode.prepare (by rw [hphase]; decide) (by decide) hno (fun heq => ?_) (fun heq => ?_)
      fun _ _ => ⟨rfl, ?_, ?_⟩
    · cases heq <;> contradiction
    · cases heq
    · rw [hsilent hphase rfl, hnode.reset hback (.inr hphase)]
      rfl
    · rw [hsilent hphase rfl, hnode.cleared hback hphase]
      rfl
  · rename_i hphase
    cases hs
    exact h.forward hn hphase
  · rename_i hphase
    cases hs
    refine h.setNode hn ?_ rfl (by rw [hphase]; decide) nofun fun _ => by rw [hphase]; rfl
    exact hnode.advance (by rw [hphase]; decide) (fun _ => by rw [hphase]; rfl) (by decide)
      (fun _ => rfl) (by decide)
  · rename_i hphase
    cases hs
    have hset : procFilterLoadEvent l (s.setPhase n .done) n (l.ownErrors n) =
        s.setNode n (({ s.node n with phase := .done } : NodeState).count (l.ownErrors n)) := by
      rw [procFilterLoadEvent_of_ne_root hn, State.setPhase, setNode_self, State.setNode,
        State.setNode]
      simp only [Function.update_idem]
      rfl
    rw [hset]
    exact h.setNode hn (hnode.finish (heard_subset n) hback hphase) rfl (by rw [hphase]; decide)
      nofun fun _ => by rw [hphase]; rfl
  · cases hs

lemma Inv.request (h : Inv l s) {n : N} (hs : request l s n = some s') : Inv l s' := by
  unfold FilterLoad.request at hs
  split_ifs at hs with hroot hback
  · exact h.backEndRequest hroot hback hs
  · exact h.parentRequest hroot (Bool.not_eq_true _ ▸ hback) hs

/-- A report that can be taken is the only one of its node. -/
lemma Inv.taken_of_report (h : Inv l s) {c p : N} (hp : l.tree.parent c = some p)
    {errors : List FilterError} (hsent : (s.node c).sent[(s.node c).taken]? = some errors) :
    (s.node c).taken = 0 ∧ (s.node c).sent = [errors] ∧
      (errors : Multiset FilterError) = below l c ∧ Forwarded l s p := by
  have hnode := h.nodes c (ParentTree.ne_root_of_parent hp)
  rcases hnode.sent_cases (heard_subset c) with hnil | ⟨errors', hone, hbelow, hdone, -⟩
  · rw [hnil] at hsent
    cases hsent
  · rw [hone] at hsent
    obtain ⟨hlt, heq⟩ := List.getElem?_eq_some_iff.mp hsent
    have hzero : (s.node c).taken = 0 := Nat.lt_one_iff.mp hlt
    have hsame : errors' = errors := by
      simp only [hzero, List.getElem_cons_zero] at heq
      exact heq
    refine ⟨hzero, hsame ▸ hone, hsame ▸ hbelow, (h.asked c p hp).mp ?_⟩
    rw [hdone]
    decide

lemma heard_take {c p : N} (hp : l.tree.parent c = some p) {x : NodeState}
    (hx : 0 < x.taken) (m : N) :
    heard l (s.setNode c x) m = if m = p then insert c (heard l s p) else heard l s m := by
  have hof : ∀ d, d ≠ c → (0 < ((s.setNode c x).node d).taken ↔ 0 < (s.node d).taken) := by
    intro d hd
    rw [setNode_of_ne hd]
  ext d
  by_cases hd : d = c
  · subst hd
    simp only [heard, Finset.mem_filter, ParentTree.mem_children, hp, setNode_self, hx, and_true]
    split_ifs with hm
    · simp [hm]
    · rw [Finset.mem_filter, ParentTree.mem_children, hp]
      exact iff_of_false (fun heq => hm (Option.some.inj heq).symm)
        fun hboth => hm (Option.some.inj hboth.1).symm
  · have hold : d ∈ heard l (s.setNode c x) m ↔ d ∈ heard l s m := by
      simp only [heard, Finset.mem_filter, hof d hd]
    rw [hold]
    split_ifs with hm
    · rw [hm, Finset.mem_insert, or_iff_right hd]
    · rfl

/-- A node with one more report taken. -/
def NodeState.take (x : NodeState) : NodeState := { x with taken := x.taken + 1 }

section Take

variable {c p : N} {y : NodeState}
  (hs' : s'.node = ((s.setNode c (s.node c).take).setNode p y).node)
include hs'

lemma heard_report (hp : l.tree.parent c = some p) (hy : y.taken = (s.node p).taken) (m : N) :
    heard l s' m = if m = p then insert c (heard l s p) else heard l s m := by
  rw [← heard_take hp (x := (s.node c).take) (Nat.succ_pos _)]
  refine heard_congr (fun m => ?_) m
  rw [hs']
  refine setNode_taken ?_ m
  rw [setNode_of_ne (ParentTree.parent_ne_self hp)]
  exact hy

/-- A node takes the report of a child. -/
lemma Inv.take (h : Inv l s) (hp : l.tree.parent c = some p) {errors : List FilterError}
    (hsent : (s.node c).sent[(s.node c).taken]? = some errors)
    (hy : y.taken = (s.node p).taken) (hphase : y.phase = (s.node p).phase)
    (hnode : p ≠ l.tree.root → NodeInv l p y (insert c (heard l s p)))
    (hstart : s'.frontEnd = .start ↔ s.frontEnd = .start) (hfront : FrontInv l s') :
    Inv l s' := by
  obtain ⟨hzero, hone, -, -⟩ := h.taken_of_report hp hsent
  have hphases : ∀ m, (s'.node m).phase = (s.node m).phase := by
    intro m
    rw [hs']
    by_cases hmp : m = p
    · rw [hmp, setNode_self, hphase]
    · rw [setNode_of_ne hmp]
      by_cases hmc : m = c
      · rw [hmc, setNode_self]
        rfl
      · rw [setNode_of_ne hmc]
  have hstarted : s'.frontEnd ≠ .start ↔ s.frontEnd ≠ .start := not_congr hstart
  refine ⟨fun d q hq => ?_, fun m hm => ?_, hfront⟩
  · rw [hphases, h.asked d q hq, Forwarded, Forwarded, hphases, hstarted]
  · rw [heard_report hs' hp hy, hs']
    by_cases hmp : m = p
    · subst hmp
      rw [setNode_self, if_pos rfl]
      exact hnode hm
    · rw [setNode_of_ne hmp, if_neg hmp]
      by_cases hmc : m = c
      · subst hmc
        rw [setNode_self]
        have hold := h.nodes m hm
        refine ⟨hold.phases, ?_, hold.silent, hold.backEnd, hold.reset, hold.cleared,
          fun hb hcounts => ?_⟩
        · change (s.node m).taken + 1 ≤ (s.node m).sent.length
          rw [hzero, hone]
          rfl
        · have hcounted := hold.counted hb hcounts
          exact ⟨hcounted.waiting, hcounted.reported, hcounted.errors, hcounted.sent⟩
      · rw [setNode_of_ne hmc]
        exact h.nodes m hm

end Take

lemma Inv.notMem_heard (h : Inv l s) {c p : N} (hp : l.tree.parent c = some p)
    {errors : List FilterError} (hsent : (s.node c).sent[(s.node c).taken]? = some errors) :
    c ∉ heard l s p := by
  intro hmem
  have hpos := (Finset.mem_filter.mp hmem).2
  rw [(h.taken_of_report hp hsent).1] at hpos
  exact Nat.lt_irrefl 0 hpos

/-- An internal node takes a report. -/
lemma Inv.reportInternal (h : Inv l s) {c p : N} (hp : l.tree.parent c = some p)
    (hroot : p ≠ l.tree.root) {errors : List FilterError}
    (hsent : (s.node c).sent[(s.node c).taken]? = some errors) :
    Inv l (procFilterLoadEvent l (s.setNode c (s.node c).take) p errors) := by
  obtain ⟨-, -, hbelow, hforwarded⟩ := h.taken_of_report hp hsent
  rw [Forwarded, if_neg hroot] at hforwarded
  have hcounts : (s.node p).phase.counts := by
    cases hphase : (s.node p).phase <;> rw [hphase] at hforwarded <;> first | rfl | cases hforwarded
  have hback : l.backEnd p = false :=
    Bool.eq_false_iff.mpr fun hback => l.backEnd_leaf p c hback hp
  rw [procFilterLoadEvent_of_ne_root hroot, setNode_of_ne (ParentTree.parent_ne_self hp)]
  have hnode : NodeInv l p ((s.node p).count errors) (insert c (heard l s p)) :=
    (h.nodes p hroot).hear (heard_subset p) hback hcounts (ParentTree.mem_children.mpr hp)
      (h.notMem_heard hp hsent) hbelow
  have hheard := heard_report (l := l) (s := s) (c := c) (y := (s.node p).count errors) rfl hp rfl
  refine h.take rfl hp hsent rfl rfl (fun _ => hnode) Iff.rfl
    ⟨h.front.asks, h.front.waits, fun hsignals => ?_, fun hsignals => ?_⟩
  · rw [hheard, if_neg hroot.symm, setNode_of_ne hroot.symm,
      setNode_of_ne (ParentTree.ne_root_of_parent hp).symm]
    exact h.front.quiet hsignals
  · rw [hheard, if_neg hroot.symm]
    exact h.front.signalled hsignals

/-- The front-end takes a report. -/
lemma Inv.reportRoot (h : Inv l s) {c : N} (hp : l.tree.parent c = some l.tree.root)
    {errors : List FilterError}
    (hsent : (s.node c).sent[(s.node c).taken]? = some errors) (htimely : Timely l s (.report c)) :
    Inv l (procFilterLoadEvent l (s.setNode c (s.node c).take) l.tree.root errors) := by
  obtain ⟨-, -, hbelow, hforwarded⟩ := h.taken_of_report hp hsent
  rw [Forwarded, if_pos rfl] at hforwarded
  have hnew := h.notMem_heard hp hsent
  have hchild : c ∈ l.tree.children l.tree.root := ParentTree.mem_children.mpr hp
  have hsignals : s.signals = [] := by
    by_contra hne
    obtain ⟨_, -, -, hall, -⟩ := h.front.signalled hne
    exact hnew (hall ▸ hchild)
  obtain ⟨hreported, herrors, -⟩ := h.front.quiet hsignals
  have hcard := Finset.card_insert_of_notMem hnew
  have hsum : ((s.node l.tree.root).filterErrors ++ errors : List FilterError) =
      ∑ d ∈ insert c (heard l s l.tree.root), below l d := by
    rw [← Multiset.coe_add, herrors, hbelow, Finset.sum_insert hnew, add_comm]
  have hall : insert c (heard l s l.tree.root) = l.tree.children l.tree.root ↔
      (l.tree.children l.tree.root).card = (s.node l.tree.root).filterChildrenReported + 1 := by
    rw [hreported, ← hcard,
      ← Finset.eq_iff_card_le_of_subset (Finset.insert_subset hchild (heard_subset _))]
    have := Finset.card_le_card (Finset.insert_subset hchild (heard_subset (l := l) (s := s) _))
    omega
  unfold procFilterLoadEvent
  dsimp only
  rw [setNode_of_ne (ParentTree.parent_ne_self hp), if_neg fun hboth => hboth.2 rfl]
  split_ifs with hlast
  · rw [← hall] at hlast
    have hsignalled : ∀ next, next = (if s.frontEnd = .waiting then .awake else s.frontEnd) →
        next ≠ .start ∧ next ≠ .sent ∧ next ≠ .waiting := by
      rintro next rfl
      split_ifs with hwaiting
      · decide
      · exact ⟨hforwarded.1, htimely hp (hall.mp hlast.2).symm, hwaiting⟩
    set y : NodeState := { s.node l.tree.root with
      filterChildrenReported := 0
      filterErrors := [] } with hy
    have hheard := fun m => heard_report (l := l) (s := s) (c := c) (y := y)
      (show (((s.setNode c (s.node c).take).signalProtEvent
        ((s.node l.tree.root).filterErrors ++ errors)).setNode l.tree.root y).node = _ from rfl)
      hp rfl m
    refine h.take (y := y) rfl hp hsent rfl rfl (fun hne => absurd rfl hne) ?_
      ⟨fun _ => hforwarded.2, fun hwaiting => ?_, fun hnil => ?_,
        fun _ => ⟨(s.node l.tree.root).filterErrors ++ errors, ?_, ?_, ?_, ?_⟩⟩
    · change (if s.frontEnd = .waiting then _ else s.frontEnd) = _ ↔ _
      split_ifs with hwaiting
      · rw [hwaiting]
        exact iff_of_false nofun nofun
      · rfl
    · exact absurd hwaiting (hsignalled _ rfl).2.2
    · change s.signals ++ _ = [] at hnil
      rw [hsignals] at hnil
      cases hnil
    · change s.signals ++ _ = _
      rw [hsignals]
      rfl
    · rw [hsum, hlast.2]
    · rw [hheard, if_pos rfl, hlast.2]
    · exact hsignalled _ rfl
  · rw [not_and, ← hall] at hlast
    set y : NodeState := { s.node l.tree.root with
      filterChildrenReported := (s.node l.tree.root).filterChildrenReported + 1
      filterErrors := (s.node l.tree.root).filterErrors ++ errors } with hy
    have hheard := heard_report (l := l) (s := s) (c := c) (y := y) rfl hp rfl l.tree.root
    refine h.take rfl hp hsent rfl rfl (fun hne => absurd rfl hne) Iff.rfl
      ⟨h.front.asks, h.front.waits, fun _ => ?_, fun hne => absurd hsignals hne⟩
    rw [hheard, if_pos rfl, setNode_self, hcard]
    exact ⟨congrArg (· + 1) hreported, hsum, fun heq => absurd heq (hlast rfl)⟩

lemma report_cases {c : N} (hs : report l s c = some s') :
    ∃ p errors, l.tree.parent c = some p ∧ (s.node c).sent[(s.node c).taken]? = some errors ∧
      s' = procFilterLoadEvent l (s.setNode c (s.node c).take) p errors := by
  unfold report at hs
  split at hs
  · cases hs
    exact ⟨_, _, ‹_›, ‹_›, rfl⟩
  · cases hs

lemma Inv.report (h : Inv l s) {c : N} (htimely : Timely l s (.report c))
    (hs : report l s c = some s') : Inv l s' := by
  obtain ⟨p, errors, hp, hsent, rfl⟩ := report_cases hs
  by_cases hroot : p = l.tree.root
  · subst hroot
    exact h.reportRoot hp hsent htimely
  · exact h.reportInternal hp hroot hsent

/-- The front-end moves on. -/
lemma Inv.setFrontEnd (h : Inv l s) {next : FrontEnd} (hold : s.frontEnd ≠ .start)
    (hnext : next ≠ .start ∧ next ≠ .sent ∧ (next = .waiting → s.frontEnd = .sent ∧
      l.tree.children l.tree.root ≠ ∅)) : Inv l { s with frontEnd := next } := by
  refine ⟨fun c p hp => ?_, h.nodes, fun hasks => ?_, fun hwaits => ?_, h.front.quiet,
    fun hsignals => ?_⟩
  · rw [h.asked c p hp]
    unfold Forwarded
    simp only [hold, hnext.1, ne_eq, not_false_eq_true, true_and]
  · exact h.front.asks (.inl (hnext.2.2 (hasks.resolve_left hnext.2.1)).1)
  · exact (hnext.2.2 hwaits).2
  · obtain ⟨errors, hone, hsum, hall, hfront⟩ := h.front.signalled hsignals
    exact ⟨errors, hone, hsum, hall, hnext.1, hnext.2.1,
      fun hwaiting => hfront.2.1 (hnext.2.2 hwaiting).1⟩

/-- The front-end asks its children, or nothing is left to ask for. -/
lemma Inv.start (h : Inv l s) (hstart : s.frontEnd = .start) :
    (l.requested = [] → Inv l { s with frontEnd := .returned 0 }) ∧
      (l.requested ≠ [] →
        Inv l { s.sendPacketToChildren l l.tree.root with frontEnd := .sent }) := by
  have hnot : ¬Forwarded l s l.tree.root := by
    rw [Forwarded, if_pos rfl]
    exact fun hboth => hboth.1 hstart
  have hsignals : s.signals = [] := by
    by_contra hne
    obtain ⟨_, -, -, -, hne, -⟩ := h.front.signalled hne
    exact hne hstart
  refine ⟨fun hnil => ⟨fun c p hp => ?_, h.nodes, fun hasks => ?_, nofun, h.front.quiet,
    fun hne => absurd hsignals hne⟩, fun hrequested => ?_⟩
  · rw [h.asked c p hp]
    unfold Forwarded
    simp only [hnil, ne_eq, not_true_eq_false, and_false]
  · cases hasks <;> contradiction
  · have hheard : ∀ m, heard l { s.sendPacketToChildren l l.tree.root with frontEnd := .sent } m =
        heard l s m := heard_congr (sendPacketToChildren_taken l.tree.root)
    have hroot : (s.sendPacketToChildren l l.tree.root).node l.tree.root = s.node l.tree.root :=
      sendPacketToChildren_self fun hp => ParentTree.parent_ne_self hp rfl
    refine ⟨fun c p hp => ?_, fun m hm => ?_, fun _ => hrequested, nofun, fun _ => ?_,
      fun hne => absurd hsignals hne⟩
    · change ((s.sendPacketToChildren l l.tree.root).node c).phase ≠ _ ↔ _
      rw [Forwarded]
      by_cases hproot : p = l.tree.root
      · subst hproot
        rw [if_pos rfl, sendPacketToChildren_child hp]
        exact iff_of_true nofun ⟨nofun, hrequested⟩
      · have hc : l.tree.parent c ≠ some l.tree.root := by
          rw [hp]
          exact fun heq => hproot (Option.some.inj heq)
        rw [if_neg hproot, sendPacketToChildren_self hc, h.asked c p hp, Forwarded, if_neg hproot]
        change _ ↔ ((s.sendPacketToChildren l l.tree.root).node p).phase.forwards = true
        by_cases hpp : l.tree.parent p = some l.tree.root
        · rw [sendPacketToChildren_child hpp, (h.taken_eq_zero hpp hnot).1]
          rfl
        · rw [sendPacketToChildren_self hpp]
    · rw [hheard]
      exact h.send hnot hm
    · rw [hheard]
      change ((s.sendPacketToChildren l l.tree.root).node l.tree.root).filterChildrenReported = _ ∧ _
      rw [hroot]
      exact h.front.quiet hsignals

lemma Inv.loadFilterFuncs (h : Inv l s) (hs : loadFilterFuncs l s = some s') : Inv l s' := by
  unfold FilterLoad.loadFilterFuncs at hs
  split at hs
  · rename_i hfront
    split_ifs at hs with hnil
    · cases hs
      exact (h.start hfront).1 hnil
    · cases hs
      exact (h.start hfront).2 hnil
  · rename_i hfront
    cases hs
    refine h.setFrontEnd (by rw [hfront]; decide) ?_
    split_ifs with hcard
    · exact ⟨nofun, nofun, nofun⟩
    · exact ⟨nofun, nofun, fun _ => ⟨hfront, fun hempty => hcard (by rw [hempty]; rfl)⟩⟩
  · rename_i hfront
    cases hs
    exact h.setFrontEnd (by rw [hfront]; decide) ⟨nofun, nofun, nofun⟩
  · cases hs

lemma Inv.wake (h : Inv l s) (hs : wake s = some s') : Inv l s' := by
  unfold FilterLoad.wake at hs
  split_ifs at hs with hfront
  cases hs
  exact h.setFrontEnd (by rw [hfront]; decide) ⟨nofun, nofun, nofun⟩

theorem Inv.step (h : Inv l s) {act : Action N} (htimely : Timely l s act)
    (hs : step l s act = some s') : Inv l s' := by
  cases act with
  | request n => exact h.request hs
  | report n => exact h.report htimely hs
  | loadFilterFuncs => exact h.loadFilterFuncs hs
  | wake => exact h.wake hs

theorem inv_of_between (h : Between l s) : Inv l s := by
  have hheard : ∀ n, heard l s n = ∅ := by
    intro n
    refine Finset.filter_eq_empty_iff.mpr fun c _ => ?_
    rw [h.taken]
    exact Nat.lt_irrefl 0
  have hphase : ∀ {n phase}, phase ≠ .idle → (s.node n).phase ≠ phase := by
    intro n phase hne heq
    exact hne (heq.symm.trans (h.phase n))
  refine ⟨fun c p _ => iff_of_false (fun hne => hne (h.phase c)) ?_, fun n _ => ?_, ?_⟩
  · unfold Forwarded
    split_ifs
    · exact fun hboth => hboth.1 h.frontEnd
    · rw [h.phase]
      exact Bool.false_ne_true
  · refine ⟨fun _ => ?_, ?_, fun _ => h.sent n, fun _ hdone => absurd hdone (hphase (by decide)),
      fun _ hreset => ?_, fun _ hcleared => absurd hcleared (hphase (by decide)),
      fun _ hcounts => ?_⟩
    · rw [h.phase]
      rfl
    · rw [h.taken]
      exact Nat.zero_le _
    · exact absurd hreset (not_or.mpr ⟨hphase (by decide), hphase (by decide)⟩)
    · rw [h.phase] at hcounts
      cases hcounts
  · refine ⟨fun hasks => ?_, fun hwaits => ?_, fun _ => ?_, fun hne => absurd h.signals hne⟩
    · rw [h.frontEnd] at hasks
      cases hasks <;> contradiction
    · rw [h.frontEnd] at hwaits
      cases hwaits
    · rw [hheard, h.reported, h.errors]
      exact ⟨rfl, rfl, fun heq => heq.symm⟩

theorem inv_of_reaches {start : State N} (hstart : Between l start)
    (h : Reaches (FilterLoad.step l) (Timely l) start s) : Inv l s :=
  h.keeps (inv_of_between hstart) fun hI htimely hs => hI.step htimely hs

def Phase.left : Phase → ℕ
  | idle => 7
  | requested => 6
  | reset => 5
  | cleared => 4
  | ready => 3
  | forwarded => 2
  | loaded => 1
  | done => 0

def FrontEnd.left : FrontEnd → ℕ
  | start => 4
  | sent => 3
  | waiting => 2
  | awake => 1
  | returned _ => 0

def NodeState.left (x : NodeState) : ℕ := x.phase.left + (1 - x.taken)

def State.left (s : State N) : ℕ := ∑ n, (s.node n).left + s.frontEnd.left

omit [DecidableEq N] in
lemma left_lt (hnodes : ∀ n, (s'.node n).left ≤ (s.node n).left)
    (hfront : s'.frontEnd.left ≤ s.frontEnd.left)
    (hless : (∃ n, (s'.node n).left < (s.node n).left) ∨ s'.frontEnd.left < s.frontEnd.left) :
    s'.left < s.left := by
  have hsum : ∑ n, (s'.node n).left ≤ ∑ n, (s.node n).left :=
    Finset.sum_le_sum fun n _ => hnodes n
  unfold State.left
  rcases hless with ⟨n, hn⟩ | hlt
  · have := Finset.sum_lt_sum (fun n _ => hnodes n) ⟨n, Finset.mem_univ n, hn⟩
    omega
  · omega

lemma left_setNode {n : N} {x : NodeState} (h : x.left < (s.node n).left) :
    (s.setNode n x).left < s.left := by
  refine left_lt (fun m => ?_) le_rfl (.inl ⟨n, ?_⟩)
  · by_cases hm : m = n
    · rw [hm, setNode_self]
      exact h.le
    · rw [setNode_of_ne hm]
  · rw [setNode_self]
    exact h

/-- A report that is counted leaves no more to do. -/
lemma left_procFilterLoadEvent (s : State N) (p : N) (errors : List FilterError) :
    (∀ m, ((procFilterLoadEvent l s p errors).node m).left = (s.node m).left) ∧
      (procFilterLoadEvent l s p errors).frontEnd.left ≤ s.frontEnd.left := by
  have hnode : ∀ {x : NodeState}, x.phase = (s.node p).phase → x.taken = (s.node p).taken →
      ∀ m, ((s.setNode p x).node m).left = (s.node m).left := by
    intro x hphase htaken m
    by_cases hm : m = p
    · rw [hm, setNode_self, NodeState.left, hphase, htaken]
      rfl
    · rw [setNode_of_ne hm]
  unfold procFilterLoadEvent
  dsimp only
  split_ifs
  · exact ⟨hnode rfl rfl, le_rfl⟩
  · refine ⟨hnode rfl rfl, ?_⟩
    change FrontEnd.left (if s.frontEnd = .waiting then .awake else s.frontEnd) ≤ _
    split_ifs with hwaiting
    · rw [hwaiting]
      decide
    · exact le_rfl
  · exact ⟨hnode rfl rfl, le_rfl⟩

lemma left_procFilterLoadEvent_lt {s₁ : State N} {n : N} {x : NodeState} {p : N}
    {errors : List FilterError} (h : x.left < (s.node n).left) (hs₁ : s₁ = s.setNode n x) :
    (procFilterLoadEvent l s₁ p errors).left < s.left := by
  subst hs₁
  obtain ⟨hnodes, hfront⟩ := left_procFilterLoadEvent (l := l) (s.setNode n x) p errors
  calc (procFilterLoadEvent l (s.setNode n x) p errors).left
      ≤ (s.setNode n x).left := Nat.add_le_add (Finset.sum_le_sum fun m _ => (hnodes m).le) hfront
    _ < s.left := left_setNode h

/-- Asking the children of a node leaves less to do for each. -/
lemma Inv.left_send (h : Inv l s) {n : N} (hnot : ¬Forwarded l s n) (m : N) :
    ((s.sendPacketToChildren l n).node m).left ≤ (s.node m).left := by
  by_cases hm : l.tree.parent m = some n
  · rw [sendPacketToChildren_child hm, NodeState.left, NodeState.left,
      (h.taken_eq_zero hm hnot).1]
    exact Nat.add_le_add_right (show 6 ≤ 7 by decide) _
  · rw [sendPacketToChildren_self hm]

omit [Fintype N] [DecidableEq N] in
lemma left_phase {n : N} {x : NodeState} {phase phase' : Phase} (hphase : (s.node n).phase = phase)
    (hphase' : x.phase = phase') (hless : phase'.left < phase.left)
    (htaken : x.taken = (s.node n).taken) : x.left < (s.node n).left := by
  rw [NodeState.left, NodeState.left, hphase, hphase', htaken]
  exact Nat.add_lt_add_right hless _

lemma Inv.left_request (h : Inv l s) {n : N} (hs : FilterLoad.request l s n = some s') :
    s'.left < s.left := by
  unfold FilterLoad.request at hs
  split_ifs at hs with hroot hback
  · unfold FilterLoad.backEndRequest at hs
    split at hs
    · cases hs
      exact left_setNode (left_phase ‹_› rfl (by simp [Phase.left]) rfl)
    · cases hs
      exact left_setNode (left_phase ‹_› rfl (by simp [Phase.left]) rfl)
    · cases hs
  · unfold FilterLoad.parentRequest at hs
    dsimp only at hs
    split at hs
    · cases hs
      exact left_setNode (left_phase ‹_› rfl (by simp [Phase.left]) rfl)
    · cases hs
      exact left_setNode (left_phase ‹_› rfl (by simp [Phase.left]) rfl)
    · cases hs
      exact left_setNode (left_phase ‹_› rfl (by simp [Phase.left]) rfl)
    · rename_i hphase
      cases hs
      have hnot : ¬Forwarded l s n := by
        rw [Forwarded, if_neg hroot, hphase]
        decide
      have hself : (s.sendPacketToChildren l n).node n = s.node n :=
        sendPacketToChildren_self fun hp => ParentTree.parent_ne_self hp rfl
      have hless : (((s.sendPacketToChildren l n).setPhase n .forwarded).node n).left <
          (s.node n).left := by
        rw [State.setPhase, setNode_self, hself]
        exact left_phase hphase rfl (by simp [Phase.left]) rfl
      refine left_lt (fun m => ?_) le_rfl (.inl ⟨n, hless⟩)
      by_cases hm : m = n
      · rw [hm]
        exact hless.le
      · rw [State.setPhase, setNode_of_ne hm]
        exact h.left_send hnot m
    · cases hs
      exact left_setNode (left_phase ‹_› rfl (by simp [Phase.left]) rfl)
    · cases hs
      exact left_procFilterLoadEvent_lt (x := { s.node n with phase := .done })
        (left_phase ‹_› rfl (by simp [Phase.left]) rfl) rfl
    · cases hs

lemma Inv.left_loadFilterFuncs (h : Inv l s) (hs : FilterLoad.loadFilterFuncs l s = some s') :
    s'.left < s.left := by
  unfold FilterLoad.loadFilterFuncs at hs
  split at hs
  · rename_i hfront
    split_ifs at hs with hnil
    · cases hs
      refine left_lt (fun _ => le_rfl) ?_ (.inr ?_) <;> simp [hfront, FrontEnd.left]
    · cases hs
      have hnot : ¬Forwarded l s l.tree.root := by
        rw [Forwarded, if_pos rfl]
        exact fun hboth => hboth.1 hfront
      refine left_lt (h.left_send hnot) ?_ (.inr ?_) <;> simp [hfront, FrontEnd.left]
  · rename_i hfront
    cases hs
    have hless : FrontEnd.left
        (if (l.tree.children l.tree.root).card = 0 then .awake else .waiting) <
        s.frontEnd.left := by
      rw [hfront]
      split_ifs <;> decide
    exact left_lt (fun _ => le_rfl) hless.le (.inr hless)
  · rename_i hfront
    cases hs
    have hless : 0 < s.frontEnd.left := by
      rw [hfront]
      decide
    exact left_lt (fun _ => le_rfl) hless.le (.inr hless)
  · cases hs

/-- Every step leaves less to do. -/
theorem Inv.left_step (h : Inv l s) {act : Action N} (hs : FilterLoad.step l s act = some s') :
    s'.left < s.left := by
  cases act with
  | request n => exact h.left_request hs
  | report n =>
      obtain ⟨p, errors, hp, hsent, rfl⟩ := report_cases hs
      refine left_procFilterLoadEvent_lt ?_ rfl
      rw [NodeState.left, NodeState.left, NodeState.take, (h.taken_of_report hp hsent).1]
      exact Nat.lt_succ_self _
  | loadFilterFuncs => exact h.left_loadFilterFuncs hs
  | wake =>
      change FilterLoad.wake s = some s' at hs
      unfold FilterLoad.wake at hs
      split_ifs at hs with hfront
      cases hs
      refine left_lt (fun _ => le_rfl) ?_ (.inr ?_) <;> simp [hfront, FrontEnd.left]

/-- A node that is asked and not done can move. -/
lemma Inv.request_ne_none (h : Inv l s) {n : N} (hn : n ≠ l.tree.root)
    (hidle : (s.node n).phase ≠ .idle) (hdone : (s.node n).phase ≠ .done) :
    FilterLoad.request l s n ≠ none := by
  have hphases := (h.nodes n hn).phases
  unfold FilterLoad.request
  rw [if_neg hn]
  split_ifs with hback
  · have hphase := hphases hback
    unfold FilterLoad.backEndRequest
    cases heq : (s.node n).phase <;> rw [heq] at hidle hdone hphase <;>
      first | contradiction | exact Option.some_ne_none _
  · unfold FilterLoad.parentRequest
    dsimp only
    cases heq : (s.node n).phase <;> rw [heq] at hidle hdone <;>
      first | contradiction | exact Option.some_ne_none _

section End

variable (hquiet : ∀ act, act ≠ .wake → FilterLoad.step l s act = none)
include hquiet

/-- Where nothing can move, the request has come to all nodes. -/
lemma Inv.all_done (h : Inv l s) (hforwarded : Forwarded l s l.tree.root) (n : N) :
    Forwarded l s n ∧ (n ≠ l.tree.root → (s.node n).phase = .done) := by
  induction n using l.tree.down_induction with
  | hroot => exact ⟨hforwarded, fun hne => absurd rfl hne⟩
  | hchild c p hp ih =>
      have hc := ParentTree.ne_root_of_parent hp
      have hdone : (s.node c).phase = .done := by
        by_contra hdone
        exact h.request_ne_none hc ((h.asked c p hp).mpr ih.1) hdone (hquiet (.request c) nofun)
      refine ⟨?_, fun _ => hdone⟩
      rw [Forwarded, if_neg hc, hdone]
      rfl

/-- Then all nodes have reported, and their parents know. -/
lemma Inv.all_reported (h : Inv l s) (hforwarded : Forwarded l s l.tree.root) (n : N)
    (hn : n ≠ l.tree.root) : (s.node n).sent.length = 1 ∧ (s.node n).taken = 1 := by
  induction n using l.tree.up_induction with
  | hnode n ih =>
      have hnode := h.nodes n hn
      have hdone := (h.all_done hquiet hforwarded n).2 hn
      have hall : heard l s n = l.tree.children n := by
        refine Finset.filter_true_of_mem fun c hc => ?_
        rw [ParentTree.mem_children] at hc
        rw [(ih c hc (ParentTree.ne_root_of_parent hc)).2]
        exact Nat.one_pos
      have hlength : (s.node n).sent.length = 1 := by
        cases hback : l.backEnd n with
        | true =>
            rw [hnode.backEnd hback hdone]
            rfl
        | false =>
            rw [(hnode.counted hback (by rw [hdone]; rfl)).sent, if_pos ⟨hdone, hall⟩]
            rfl
      refine ⟨hlength, ?_⟩
      obtain ⟨p, hp⟩ := ParentTree.exists_parent hn
      have hnone := hquiet (.report n) nofun
      have hle := hnode.taken_le
      by_contra hne
      have hlt : (s.node n).taken < (s.node n).sent.length := by omega
      change FilterLoad.report l s n = none at hnone
      rw [FilterLoad.report, hp, List.getElem?_eq_getElem hlt] at hnone
      cases hnone

/-- Then the front-end was signalled if it has children. -/
lemma Inv.signals_ne_nil (h : Inv l s) (hforwarded : Forwarded l s l.tree.root)
    (hchildren : l.tree.children l.tree.root ≠ ∅) : s.signals ≠ [] := by
  intro hnil
  obtain ⟨-, -, hall⟩ := h.front.quiet hnil
  refine hchildren (hall (Finset.filter_true_of_mem fun c hc => ?_))
  rw [ParentTree.mem_children] at hc
  rw [(h.all_reported hquiet hforwarded c (ParentTree.ne_root_of_parent hc)).2]
  exact Nat.one_pos

/-- Then the front-end has returned. -/
lemma Inv.returned (h : Inv l s) : ∃ count, s.frontEnd = .returned count := by
  have hnone := hquiet .loadFilterFuncs nofun
  change FilterLoad.loadFilterFuncs l s = none at hnone
  unfold FilterLoad.loadFilterFuncs at hnone
  cases hfront : s.frontEnd with
  | start =>
      rw [hfront] at hnone
      dsimp only at hnone
      split_ifs at hnone
  | sent =>
      rw [hfront] at hnone
      cases hnone
  | awake =>
      rw [hfront] at hnone
      cases hnone
  | returned count => exact ⟨count, rfl⟩
  | waiting =>
      have hforwarded : Forwarded l s l.tree.root := by
        rw [Forwarded, if_pos rfl, hfront]
        exact ⟨nofun, h.front.asks (.inr hfront)⟩
      obtain ⟨_, -, -, -, -, -, hne⟩ := h.front.signalled
        (h.signals_ne_nil hquiet hforwarded (h.front.waits hfront))
      exact absurd hfront hne

end End

/-- The loading of filters in a state: what was reported, and what happens in the end. -/
structure Complete (l : Load N) (s : State N) : Prop where
  /-- A node reports at most once, after its own load and a report of each child. -/
  once : ∀ n, n ≠ l.tree.root → (s.node n).sent.length ≤ 1 ∧ ((s.node n).sent ≠ [] →
    (s.node n).phase = .done ∧ ∀ c ∈ l.tree.children n, (s.node c).taken = 1)
  /-- The front-end is signalled at most once, with the errors of all nodes. -/
  signal : s.signals = [] ∨ ∃ errors, s.signals = [errors] ∧
    (errors : Multiset FilterError) =
      ∑ n ∈ Finset.univ.erase l.tree.root, (l.ownErrors n : Multiset FilterError)
  awake : s.signals ≠ [] → s.frontEnd ≠ .waiting
  /-- No run goes on for ever. -/
  left : ∀ act s', FilterLoad.step l s act = some s' → s'.left < s.left
  /-- When nothing can move without a wake-up for no reason, all nodes have reported and the
  front-end has returned. -/
  ends : (∀ act, act ≠ .wake → FilterLoad.step l s act = none) →
    (∃ count, s.frontEnd = .returned count) ∧ (Forwarded l s l.tree.root →
      (∀ n, n ≠ l.tree.root → (s.node n).sent.length = 1) ∧
      (l.tree.children l.tree.root ≠ ∅ → s.signals ≠ []))

theorem Inv.complete (h : Inv l s) : Complete l s := by
  refine ⟨fun n hn => ⟨(h.nodes n hn).sent_length (heard_subset n), fun hsent => ?_⟩, ?_,
    fun hsignals => ?_, fun act s' hs => h.left_step hs, fun hquiet => ⟨h.returned hquiet,
      fun hforwarded => ⟨fun n hn => (h.all_reported hquiet hforwarded n hn).1,
        h.signals_ne_nil hquiet hforwarded⟩⟩⟩
  · obtain hnil | ⟨_, -, -, hdone, hall⟩ := (h.nodes n hn).sent_cases (heard_subset n)
    · exact absurd hnil hsent
    · refine ⟨hdone, fun c hc => ?_⟩
      rw [← hall] at hc
      have hpos := (Finset.mem_filter.mp hc).2
      have hnode := h.nodes c (ParentTree.ne_root_of_parent
        (ParentTree.mem_children.mp (Finset.mem_filter.mp hc).1))
      have hle := hnode.taken_le.trans (hnode.sent_length (heard_subset c))
      omega
  · by_cases hsignals : s.signals = []
    · exact .inl hsignals
    · obtain ⟨errors, hone, hsum, -⟩ := h.front.signalled hsignals
      refine .inr ⟨errors, hone, ?_⟩
      rw [hsum, ← ParentTree.subtree_root (t := l.tree)]
      exact ParentTree.sum_children_subtree _ _
  · obtain ⟨_, -, -, -, -, -, hne⟩ := h.front.signalled hsignals
    exact hne

/-- If the front-end waits before its last report comes, then the loading completes with all
errors. -/
theorem filter_load_completes {start : State N} (hstart : Between l start)
    (h : Reaches (FilterLoad.step l) (Timely l) start s) : Complete l s :=
  (inv_of_reaches hstart h).complete

def oneBackEnd (loads : Bool) : Load Bool where
  tree := {
    parent := fun n => if n then some false else none
    root := false
    parent_root := by decide
    rooted := fun n => by
      cases n with
      | false => exact .root rfl
      | true => exact .link (b := false) rfl (.root rfl) }
  backEnd := fun n => n
  backEnd_leaf := by decide
  hostName := fun n => if n then "node" else "front"
  soFile := "filter.so"
  functions := ["sum"]
  loads := fun n _ _ => !n || loads

def quietNode : NodeState := ⟨.idle, 0, 0, [], [], 0⟩

def quiet : State Bool := ⟨fun _ => quietNode, .start, [], []⟩

lemma between_quiet (loads : Bool) : Between (oneBackEnd loads) quiet :=
  ⟨fun _ => rfl, fun _ => rfl, fun _ => rfl, rfl, rfl, rfl, rfl⟩

/-- The back-end fails, and the front-end hears of it. -/
theorem filter_load_completes_failure : ∃ s : State Bool,
    s.signals = [[⟨"node", "filter.so", 0⟩]] ∧ Complete (oneBackEnd false) s := by
  let acts : List (Action Bool) :=
    [.loadFilterFuncs, .loadFilterFuncs, .request true, .request true, .report true]
  obtain ⟨s, hrun, hsignals⟩ : ∃ s, runSchedule (step (oneBackEnd false)) quiet acts = some s ∧
    s.signals = [[⟨"node", "filter.so", 0⟩]] := ⟨_, rfl, rfl⟩
  have htimely : AllowedAll (step (oneBackEnd false)) (Timely (oneBackEnd false)) quiet acts :=
    ⟨trivial, trivial, trivial, trivial, fun _ _ => nofun, trivial⟩
  exact ⟨s, hsignals,
    filter_load_completes (between_quiet false) (reaches_of_schedule htimely hrun)⟩

/-- The report of the back-end comes before the front-end waits, and the front-end then waits
for a signal that it has been given. -/
theorem signal_lost : ¬∀ (N : Type) [Fintype N] [DecidableEq N] (l : Load N) (start s : State N),
    Between l start → Reaches (step l) Any start s → s.signals ≠ [] → s.frontEnd ≠ .waiting := by
  intro hall
  let acts : List (Action Bool) :=
    [.loadFilterFuncs, .request true, .request true, .report true, .loadFilterFuncs]
  obtain ⟨s, hrun, hsignals, hfront⟩ : ∃ s, runSchedule (step (oneBackEnd true)) quiet acts = some s ∧
    s.signals = [[]] ∧ s.frontEnd = .waiting := ⟨_, rfl, rfl, rfl⟩
  refine hall Bool (oneBackEnd true) quiet s (between_quiet true) (reaches_any hrun) ?_ hfront
  rw [hsignals]
  exact List.cons_ne_nil _ _

end MRNet.FilterLoad
