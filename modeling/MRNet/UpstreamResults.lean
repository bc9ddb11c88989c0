import MRNet.IntegerSums

/-!
# Where the results of a stream come from

The result of a number draws on a packet of every child of the root by number, and so on down to
the end-points. When none of the nodes has a step left, then the root has sent as many packets as
the slowest end-point.
-/
namespace MRNet.Upstream
open Codec Filters Wire WaitForAll Waves Interleavings WorkInHand
open Forest (Link Below Rooted)

variable {tree : Tree} {streamId : BitVec 32} {filter : List Packet → Outcome (List Packet)}
  {kind : PacketKind streamId} {s s' : State} {inTurn : Prop}

/-- The packets that a node sends are made of packets of its children, of one number each. -/
def Draws (tree : Tree) (filter : List Packet → Outcome (List Packet)) (s : State) (v : Rank)
    (index : ℕ → ℕ) : Prop :=
  ∀ i p, (s.sent v)[i]? = some p → ∃ packets : Rank → Packet,
    (∀ c ∈ tree.children v, (s.sent c)[index i]? = some (packets c)) ∧
    filter ((tree.children v).sort.map fun c => comesFrom c (packets c)) = .ok [p]

/-- The number of the wave that was sent at a position. -/
def waveAt (order : List ℕ) (i : ℕ) : ℕ := order[i]?.getD 0

lemma waveAt_eq {order : List ℕ} {i : ℕ} (hi : i < order.length) : waveAt order i = order[i] := by
  rw [waveAt, List.getElem?_eq_getElem hi, Option.getD_some]

section Node
variable {v : Rank} {hv : (tree.children v).Nonempty} {history : List Packet}
  {waves : List (List Packet)} {order : List ℕ} {number : Rank → Option ℕ}

/-- Different packets of a node are made of different waves. -/
lemma Accounts.injOn (h : Accounts tree kind filter inTurn s hv history waves order number) :
    Set.InjOn (waveAt order) {i | i < (s.sent v).length} := by
  intro i hi j hj hij
  have hlength := h.sent.length_eq
  have hi' : i < order.length := by
    rw [hlength]
    exact hi
  have hj' : j < order.length := by
    rw [hlength]
    exact hj
  rw [waveAt_eq hi', waveAt_eq hj'] at hij
  exact (h.numbering.nodup.getElem_inj_iff).mp hij

end Node

/-- The number of the packet of a node that goes into the result of a number. -/
inductive Position (tree : Tree) (index : Rank → ℕ → ℕ) (i : ℕ) : Rank → ℕ → Prop
  | root : Position tree index i tree.root i
  | child {c v : Rank} {k : ℕ} (h : Link tree.parent c v) (hv : Position tree index i v k) :
      Position tree index i c (index v k)

namespace Position
variable {index : Rank → ℕ → ℕ} {i : ℕ}

lemma unique {v : Rank} {k k' : ℕ} (h : Position tree index i v k)
    (h' : Position tree index i v k') : k = k' := by
  induction h generalizing k' with
  | root =>
      cases h' with
      | root => rfl
      | child hc _ =>
          rw [Link, tree.root_top] at hc
          cases hc
  | @child c v k hc _ ih =>
      cases h' with
      | root =>
          rw [Link, tree.root_top] at hc
          cases hc
      | child hc' hv' =>
          obtain rfl := Forest.link_rightUnique _ hc hc'
          rw [ih hv']

/-- A packet whose number goes into a result is made of packets of the end-points. -/
lemma madeOf (hdraws : ∀ v, (tree.children v).Nonempty → Draws tree filter s v (index v))
    (hsilent : ∀ v, v ∉ tree.endPoints → tree.children v = ∅ → s.sent v = []) {pick : Rank → ℕ}
    (hpick : ∀ r ∈ tree.endPoints, Position tree index i r (pick r)) (v : Rank) :
    ∀ k p, Position tree index i v k → (s.sent v)[k]? = some p → MadeOf tree filter s pick v p := by
  induction v using tree.up_induction with
  | hnode v ih =>
      intro k p hk hp
      rcases (tree.children v).eq_empty_or_nonempty with hnone | hv
      · by_cases hr : v ∈ tree.endPoints
        · rw [hk.unique (hpick v hr)] at hp
          exact .endPoint hr hp
        · rw [hsilent v hr hnone] at hp
          cases hp
      · obtain ⟨packets, hpackets, hfilter⟩ := hdraws v hv k p hp
        refine .node packets hv (fun c hc => ?_) hfilter
        exact ih c hc (index v k) (packets c) (.child (tree.mem_children.mp hc) hk) (hpackets c hc)

end Position

end MRNet.Upstream
