import MRNet.DecreasingRuns
import MRNet.UpstreamRuns

/-!
# The nodes come to rest

When the end-points stop sending, the threads have only finitely many steps left.
-/
namespace MRNet.Upstream
open Codec Wire WaitForAll Waves Interleavings WorkInHand
open Forest (Link Below Up)

variable {tree : Tree} {streamId : BitVec 32} {filter : List Packet → Outcome (List Packet)}
  {kind : PacketKind streamId} {s s' : State} {inTurn : Prop}

/-- A step of a node for packets that were sent to it. -/
def IsWork : Action → Prop
  | .send _ _ => False
  | _ => True

lemma IsWork.sends {act : Action} (hwork : IsWork act) : Sends kind s act := by
  cases act with
  | send r packet => exact hwork.elim
  | receive c => trivial
  | transform c => trivial
  | handOver c => trivial

lemma Tree.exists_depth (tree : Tree) : ∃ depth : Rank → ℕ, ∀ c v, Link tree.parent c v →
    depth c = depth v + 1 := by
  have hup : ∀ v, ∃ n, v ∈ tree.nodes → Up tree.parent v tree.root n := by
    intro v
    by_cases hv : v ∈ tree.nodes
    · obtain ⟨n, hn⟩ := Forest.exists_up (tree.connected v hv)
      exact ⟨n, fun _ => hn⟩
    · exact ⟨0, fun h => absurd h hv⟩
  choose depth hdepth using hup
  refine ⟨depth, fun c v hc => ?_⟩
  obtain ⟨hcmem, hvmem⟩ := tree.link_mem hc
  exact (hdepth c hcmem).unique (.link hc (hdepth v hvmem)) (tree.rooted c)

/-- How many steps a thread may still take for what it has in hand, at a depth, up to the root. -/
def Stage.cost (depth : ℕ) : Stage → ℕ
  | .idle => 0
  | .synced _ => 4 * depth - 1
  | .made packets => packets.length * (4 * depth - 3) + 1

@[simp] lemma Stage.cost_idle (depth : ℕ) : Stage.cost depth .idle = 0 := rfl

@[simp] lemma Stage.cost_synced (depth : ℕ) (wave : List Packet) :
    Stage.cost depth (.synced wave) = 4 * depth - 1 := rfl

@[simp] lemma Stage.cost_made (depth : ℕ) (packets : List Packet) :
    Stage.cost depth (.made packets) = packets.length * (4 * depth - 3) + 1 := rfl

def cost (depth : Rank → ℕ) (s : State) (c : Rank) : ℕ :=
  ((s.sent c).length - s.taken c) * (4 * depth c) + (s.hand c).cost (depth c)

def remaining (tree : Tree) (depth : Rank → ℕ) (s : State) : ℕ := ∑ c ∈ tree.nodes, cost depth s c

/-- A step changes what is left at one node. -/
lemma remaining_lt {depth : Rank → ℕ} {c : Rank} (hc : c ∈ tree.nodes)
    (hother : ∀ c' ≠ c, cost depth s' c' = cost depth s c') (hlt : cost depth s' c < cost depth s c) :
    remaining tree depth s' < remaining tree depth s := by
  refine Finset.sum_lt_sum (fun c' _ => ?_) ⟨c, hc, hlt⟩
  by_cases hne : c' = c
  · rw [hne]
    exact hlt.le
  · exact (hother c' hne).le

/-- A step changes what is left at two nodes. -/
lemma remaining_lt_of_pair {depth : Rank → ℕ} {c v : Rank} (hc : c ∈ tree.nodes) (hv : v ∈ tree.nodes)
    (hne : v ≠ c) (hother : ∀ c', c' ≠ c → c' ≠ v → cost depth s' c' = cost depth s c')
    (hlt : cost depth s' c + cost depth s' v < cost depth s c + cost depth s v) :
    remaining tree depth s' < remaining tree depth s := by
  have hv' : v ∈ tree.nodes.erase c := Finset.mem_erase.mpr ⟨hne, hv⟩
  have hsplit : ∀ s, remaining tree depth s =
      cost depth s c + cost depth s v + ∑ c' ∈ (tree.nodes.erase c).erase v, cost depth s c' := by
    intro s
    rw [remaining, ← Finset.add_sum_erase _ _ hc, ← Finset.add_sum_erase _ _ hv', Nat.add_assoc]
  have hrest : ∑ c' ∈ (tree.nodes.erase c).erase v, cost depth s' c' =
      ∑ c' ∈ (tree.nodes.erase c).erase v, cost depth s c' := by
    apply Finset.sum_congr rfl
    intro c' hc'
    obtain ⟨hne', hc'⟩ := Finset.mem_erase.mp hc'
    exact hother c' (Finset.ne_of_mem_erase hc') hne'
  rw [hsplit s', hsplit s, hrest]
  exact Nat.add_lt_add_right hlt _

/-- A thread that has something in hand has a node to hand it over to. -/
lemma Invariant.exists_parent (h : Invariant tree kind filter inTurn s) {c : Rank}
    (hbusy : s.hand c ≠ .idle) : ∃ v, Link tree.parent c v := by
  cases hparent : tree.parent c with
  | none => exact absurd (h.top c hparent) hbusy
  | some v => exact ⟨v, hparent⟩

section Drop
variable {depth : Rank → ℕ} (hdepth : ∀ c v, Link tree.parent c v → depth c = depth v + 1)
include hdepth

lemma receive_drops {c : Rank} (hstep : step tree streamId filter s (.receive c) = some s') :
    remaining tree depth s' < remaining tree depth s := by
  obtain ⟨hidle, v, packet, storage, wave, hv, hpacket, -, rfl⟩ := step_receive hstep
  have hlt := (List.getElem?_eq_some_iff.mp hpacket).1
  have hd := hdepth c v hv
  refine remaining_lt (tree.link_mem hv).1 (fun c' hne => ?_) ?_
  · simp only [cost, Function.update_of_ne hne]
  · have hhand : Stage.cost (depth c) (if wave = [] then Stage.idle else .synced wave) <
        4 * depth c := by
      by_cases hnil : wave = []
      · rw [if_pos hnil, Stage.cost_idle]
        omega
      · rw [if_neg hnil, Stage.cost_synced]
        omega
    simp only [cost, Function.update_self, hidle]
    rw [show (s.sent c).length - s.taken c = (s.sent c).length - (s.taken c + 1) + 1 by omega,
      Nat.add_mul, Nat.one_mul]
    exact Nat.lt_of_lt_of_le (Nat.add_lt_add_left hhand _) (Nat.le_add_right _ _)

lemma transform_drops (hmakes : MakesOne filter kind)
    (hinv : Invariant tree kind filter inTurn s) {c : Rank}
    (hstep : step tree streamId filter s (.transform c) = some s') :
    remaining tree depth s' < remaining tree depth s := by
  obtain ⟨wave, packets, hhand, htransform, rfl⟩ := step_transform hstep
  obtain ⟨v, hv⟩ := hinv.exists_parent (c := c) (by rw [hhand]; rintro ⟨⟩)
  have hd := hdepth c v hv
  obtain ⟨history, waves, order, number, hacc⟩ := hinv.balances v ⟨c, tree.mem_children.mpr hv⟩
  have hone : packets.length = 1 := by
    have hheld := hacc.inHand c (tree.mem_children.mpr hv)
    rw [hhand] at hheld
    generalize number c = n at hheld
    cases hheld with
    | @synced w k hw =>
        obtain ⟨hne, hkind⟩ := hacc.wave_spec hw
        rw [Upstream.transform, if_neg hne, toOption_eq_some] at htransform
        obtain ⟨p, rfl, -⟩ := hmakes wave packets hne hkind htransform
        rfl
  refine remaining_lt (tree.link_mem hv).1 (fun c' hne => ?_) ?_
  · simp only [cost, Function.update_of_ne hne]
  · simp only [cost, Function.update_self, hhand, Stage.cost_synced, Stage.cost_made, hone]
    omega

lemma handOver_drops (hinv : Invariant tree kind filter inTurn s) {c : Rank}
    (hstep : step tree streamId filter s (.handOver c) = some s') :
    remaining tree depth s' < remaining tree depth s := by
  rcases step_handOver hstep with ⟨hhand, rfl⟩ | ⟨packet, packets, v, hhand, hv, rfl⟩
  · obtain ⟨v, hv⟩ := hinv.exists_parent (c := c) (by rw [hhand]; rintro ⟨⟩)
    refine remaining_lt (tree.link_mem hv).1 (fun c' hne => ?_) ?_
    · simp only [cost, Function.update_of_ne hne]
    · simp only [cost, Function.update_self, hhand, Stage.cost_idle, Stage.cost_made]
      omega
  · have hd := hdepth c v hv
    have hne : v ≠ c := by
      rintro rfl
      omega
    obtain ⟨hc, hvmem⟩ := tree.link_mem hv
    have htaken := hinv.taken v
    refine remaining_lt_of_pair hc hvmem hne (fun c' hne₁ hne₂ => ?_) ?_
    · simp only [cost, Function.update_of_ne hne₁, Function.update_of_ne hne₂]
    · simp only [cost, Function.update_self, Function.update_of_ne hne, Function.update_of_ne hne.symm,
        hhand, Stage.cost_made, List.length_append, List.length_cons, List.length_nil]
      rw [show (s.sent v).length + (0 + 1) - s.taken v = (s.sent v).length - s.taken v + 1 by omega,
        Nat.add_mul _ 1 (4 * depth v), Nat.add_mul packets.length 1]
      omega

lemma step_drops (hmakes : MakesOne filter kind)
    (hinv : Invariant tree kind filter inTurn s) {act : Action} (hwork : IsWork act)
    (hstep : step tree streamId filter s act = some s') :
    remaining tree depth s' < remaining tree depth s := by
  cases act with
  | send r packet => exact hwork.elim
  | receive c => exact receive_drops hdepth hstep
  | transform c => exact transform_drops hdepth hmakes hinv hstep
  | handOver c => exact handOver_drops hdepth hinv hstep

/-- This goes for all steps of the nodes, and for those of threads that take turns. -/
lemma decreases (hmakes : MakesOne filter kind) {work : State → Action → Prop}
    (hwork : ∀ {s act}, work s act → IsWork act) : Decreases (step tree streamId filter) work
      (Invariant tree kind filter False) (remaining tree depth) where
  keeps := fun hinv hact hstep =>
    hinv.step hmakes (hwork hact).sends (fun hfalse => hfalse.elim) hstep
  drops := fun hinv hact hstep => step_drops hdepth hmakes hinv (hwork hact) hstep

end Drop

/-- The packets of an end-point are its own. -/
lemma sent_of_work {act : Action} (hwork : IsWork act)
    (hstep : step tree streamId filter s act = some s') {r : Rank} (hr : r ∈ tree.endPoints) :
    s'.sent r = s.sent r := by
  cases act with
  | send r packet => exact hwork.elim
  | receive c =>
      obtain ⟨-, v, packet, storage, wave, -, -, -, rfl⟩ := step_receive hstep
      rfl
  | transform c =>
      obtain ⟨wave, packets, -, -, rfl⟩ := step_transform hstep
      rfl
  | handOver c =>
      rcases step_handOver hstep with ⟨-, rfl⟩ | ⟨packet, packets, v, -, hv, rfl⟩
      · rfl
      · have hne : r ≠ v := by
          rintro rfl
          rw [← Tree.mem_children, Tree.children_endPoint hr] at hv
          exact Finset.notMem_empty c hv
        exact Function.update_of_ne hne ..

/-- From every state that is reached the nodes come to rest. -/
theorem exists_rest (hmakes : MakesOne filter kind) {allowed work : State → Action → Prop}
    (hsends : ∀ {s act}, allowed s act → Sends kind s act)
    (hwork : ∀ {s act}, work s act → IsWork act ∧ allowed s act)
    (hrun : Reaches (step tree streamId filter) allowed .start s) :
    ∃ s', Reaches (step tree streamId filter) allowed .start s' ∧
      Rests (step tree streamId filter) work s' ∧ ∀ r ∈ tree.endPoints, s'.sent r = s.sent r := by
  obtain ⟨depth, hdepth⟩ := tree.exists_depth
  have hinv : Invariant tree kind filter False s :=
    invariant_of_run hmakes hsends (fun _ hfalse => hfalse.elim) hrun
  have hdecreases : Decreases (step tree streamId filter) work (Invariant tree kind filter False)
      (remaining tree depth) := decreases hdepth hmakes fun hact => (hwork hact).1
  obtain ⟨s', hreaches, -, hrest⟩ := hdecreases.exists_rest hinv
  refine ⟨s', ?_, hrest, ?_⟩
  · exact hreaches.keeps hrun fun h hact hstep => h.tail (hwork hact).2 hstep
  · exact hreaches.keeps (I := fun s' => ∀ r ∈ tree.endPoints, s'.sent r = s.sent r)
      (fun _ _ => rfl) fun h hact hstep r hr => (sent_of_work (hwork hact).1 hstep hr).trans (h r hr)

end MRNet.Upstream
