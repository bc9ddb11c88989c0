import MRNet.UpstreamNetwork
import MRNet.WorkInHand

/-!
# What becomes of the packets

Every packet that a node sends is what its filter makes of one wave, and different packets are
made of different waves. The threads may send the waves in another order than they were completed
in.
-/
namespace MRNet.Upstream
open Codec Wire WaitForAll Waves Interleavings WorkInHand
open Forest (Link Below Rooted)

variable {tree : Tree} {streamId : BitVec 32} {filter : List Packet → Outcome (List Packet)}
  {kind : PacketKind streamId} {s s' : State}

namespace Tree

lemma mem_children {c v : Rank} : c ∈ tree.children v ↔ Link tree.parent c v := by
  rw [children, Finset.mem_filter]
  exact ⟨fun h => h.2, fun h => ⟨(tree.link_mem h).1, h⟩⟩

lemma children_endPoint {r : Rank} (hr : r ∈ tree.endPoints) : tree.children r = ∅ :=
  (Finset.mem_filter.mp hr).2.1

lemma getChildRanks_eq (tree : Tree) (v : Rank) :
    Stream.getChildRanks ⟨(tree.children v).sort⟩ = tree.children v := Finset.sort_toFinset _ _

lemma ne_unknown {c v : Rank} (h : Link tree.parent c v) : c ≠ unknownRank := by
  rintro rfl
  exact tree.known (tree.link_mem h).1

lemma rooted (tree : Tree) (v : Rank) : Rooted tree.parent v := by
  by_cases hv : v ∈ tree.nodes
  · have hbelow := tree.connected v hv
    induction hbelow using Relation.ReflTransGen.head_induction_on with
    | refl => exact .root tree.root_top
    | head hlink _ ih => exact .link hlink (ih (tree.link_mem hlink).2)
  · cases hparent : tree.parent v with
    | none => exact .root hparent
    | some b => exact absurd (tree.link_mem hparent).1 hv

/-- What holds of a node when it holds of its children holds of all nodes. -/
theorem up_induction (tree : Tree) {P : Rank → Prop}
    (hnode : ∀ v, (∀ c ∈ tree.children v, P c) → P v) (v : Rank) : P v := by
  have hfinite : {c | (tree.parent c).isSome}.Finite := by
    apply tree.nodes.finite_toSet.subset
    intro c hc
    obtain ⟨v, hv⟩ := Option.isSome_iff_exists.mp hc
    exact (tree.link_mem hv).1
  refine (Forest.wellFounded_link hfinite tree.rooted).induction v fun v ih => ?_
  exact hnode v fun c hc => ih c (mem_children.mp hc)

/-- What holds of the root and goes from a node to its children holds of all nodes. -/
theorem down_induction (tree : Tree) {P : Rank → Prop} (hroot : P tree.root)
    (hlink : ∀ c v, Link tree.parent c v → P v → P c) {v : Rank} (hv : v ∈ tree.nodes) : P v := by
  have hbelow := tree.connected v hv
  clear hv
  induction hbelow using Relation.ReflTransGen.head_induction_on with
  | refl => exact hroot
  | head h _ ih => exact hlink _ _ h ih

end Tree

lemma bind_eq_some {α β : Type} {x : Option α} {f : α → Option β} {b : β} :
    (x >>= f) = some b ↔ ∃ a, x = some a ∧ f a = some b := Option.bind_eq_some_iff

lemma toOption_eq_some {α : Type} {r : Outcome α} {a : α} : r.toOption = some a ↔ r = .ok a := by
  cases r with
  | error e => exact iff_of_false (by rintro ⟨⟩) (by rintro ⟨⟩)
  | ok b => exact ⟨fun h => by cases h; rfl, fun h => by cases h; rfl⟩

/-- A packet without inlet passes the synchronization filter. -/
lemma sync_unknown {r : Rank} {packet : Packet} (hid : packet.streamId = streamId) :
    sync tree streamId s r (comesFrom unknownRank packet) =
      some (some (recoverState (tree.network streamId r) (s.storage r)),
        [comesFrom unknownRank packet]) := by
  have hstream : (tree.network streamId r).getStream (comesFrom unknownRank packet).streamId =
      some ⟨(tree.children r).sort⟩ := if_pos hid
  rw [sync, toOption_eq_some]
  simp only [sfilterWaitForAll, hstream]
  simp only [List.length_singleton, decide_true, placeAll]
  rw [if_pos ⟨rfl, trivial⟩]
  rfl

lemma transform_cons {p : Packet} {wave packets : List Packet}
    (h : transform filter (p :: wave) = some packets) : filter (p :: wave) = .ok packets := by
  rw [transform, if_neg (List.cons_ne_nil p wave)] at h
  exact toOption_eq_some.mp h

lemma step_send {r : Rank} {packet : Packet}
    (h : step tree streamId filter s (.send r packet) = some s') :
    r ∈ tree.endPoints ∧ packet.streamId = streamId ∧ ∃ storage packets,
      filter [comesFrom unknownRank packet] = .ok packets ∧
      s' = { s with
        storage := Function.update s.storage r storage
        sent := Function.update s.sent r (s.sent r ++ packets) } := by
  rw [step] at h
  obtain ⟨u, hguard, h⟩ := bind_eq_some.mp h
  obtain ⟨hr, hid⟩ := (Option.guard_eq_some' u).mp hguard
  obtain ⟨⟨storage, wave⟩, hsync, h⟩ := bind_eq_some.mp h
  rw [sync_unknown hid] at hsync
  cases hsync
  obtain ⟨packets, htransform, h⟩ := bind_eq_some.mp h
  cases h
  exact ⟨hr, hid, _, packets, transform_cons htransform, rfl⟩

lemma step_receive {c : Rank} (h : step tree streamId filter s (.receive c) = some s') :
    s.hand c = .idle ∧ ∃ v packet storage wave, Link tree.parent c v ∧
      (s.sent c)[s.taken c]? = some packet ∧
      sfilterWaitForAll (tree.network streamId v) (s.storage v) [comesFrom c packet] =
        .ok (storage, wave) ∧
      s' = { s with
        storage := Function.update s.storage v storage
        hand := Function.update s.hand c (if wave = [] then .idle else .synced wave)
        taken := Function.update s.taken c (s.taken c + 1) } := by
  rw [step] at h
  cases hhand : s.hand c with
  | idle =>
      rw [hhand] at h
      obtain ⟨v, hv, h⟩ := bind_eq_some.mp h
      obtain ⟨packet, hpacket, h⟩ := bind_eq_some.mp h
      obtain ⟨⟨storage, wave⟩, hsync, h⟩ := bind_eq_some.mp h
      cases h
      exact ⟨rfl, v, packet, storage, wave, hv, hpacket, toOption_eq_some.mp hsync, rfl⟩
  | synced wave =>
      rw [hhand] at h
      cases h
  | made packets =>
      rw [hhand] at h
      cases h

lemma step_transform {c : Rank} (h : step tree streamId filter s (.transform c) = some s') :
    ∃ wave packets, s.hand c = .synced wave ∧ transform filter wave = some packets ∧
      s' = { s with hand := Function.update s.hand c (.made packets) } := by
  rw [step] at h
  cases hhand : s.hand c with
  | idle =>
      rw [hhand] at h
      cases h
  | synced wave =>
      rw [hhand] at h
      obtain ⟨packets, htransform, h⟩ := bind_eq_some.mp h
      cases h
      exact ⟨wave, packets, rfl, htransform, rfl⟩
  | made packets =>
      rw [hhand] at h
      cases h

lemma step_handOver {c : Rank} (h : step tree streamId filter s (.handOver c) = some s') :
    (s.hand c = .made [] ∧ s' = { s with hand := Function.update s.hand c .idle }) ∨
      ∃ packet packets v, s.hand c = .made (packet :: packets) ∧ Link tree.parent c v ∧
        s' = { s with
          hand := Function.update s.hand c (.made packets)
          sent := Function.update s.sent v (s.sent v ++ [packet]) } := by
  rw [step] at h
  cases hhand : s.hand c with
  | idle =>
      rw [hhand] at h
      cases h
  | synced wave =>
      rw [hhand] at h
      cases h
  | made packets =>
      cases packets with
      | nil =>
          rw [hhand] at h
          cases h
          exact .inl ⟨rfl, rfl⟩
      | cons packet packets =>
          rw [hhand] at h
          obtain ⟨v, hv, h⟩ := bind_eq_some.mp h
          cases h
          exact .inr ⟨packet, packets, v, rfl, hv, rfl⟩

/-- The packets of a child that a node has taken. -/
def State.arrived (s : State) (c : Rank) : List Packet :=
  ((s.sent c).take (s.taken c)).map (comesFrom c)

/-- The filter makes the packet of the wave of a number. -/
def Makes (filter : List Packet → Outcome (List Packet)) (waves : List (List Packet)) (k : ℕ)
    (p : Packet) : Prop := ∃ w, waves[k]? = some w ∧ filter w = .ok [p]

/-- A thread has the wave of a number in hand, or what was made of it. -/
inductive Holds (filter : List Packet → Outcome (List Packet)) (waves : List (List Packet)) :
    Stage → Option ℕ → Prop
  | idle : Holds filter waves .idle none
  | synced {w : List Packet} {k : ℕ} (h : waves[k]? = some w) : Holds filter waves (.synced w) (some k)
  | made {p : Packet} {k : ℕ} (h : Makes filter waves k p) : Holds filter waves (.made [p]) (some k)
  | handedOver : Holds filter waves (.made []) none

/-- The waves of a node are numbered. Those of the numbers `order` were sent, and the others are
in the hands of the threads. -/
structure Accounts (tree : Tree) (kind : PacketKind streamId)
    (filter : List Packet → Outcome (List Packet)) (inTurn : Prop) (s : State) {v : Rank}
    (hv : (tree.children v).Nonempty) (history : List Packet) (waves : List (List Packet))
    (order : List ℕ) (number : Rank → Option ℕ) : Prop where
  arrived : ∀ c ∈ tree.children v, received Packet.inletRank history c = s.arrived c
  accepted : ∀ p ∈ history, kind.Accepts p
  synchronized : Synchronized (tree.children v) hv history (stateOf (s.storage v)) waves
  sent : List.Forall₂ (Makes filter waves) order (s.sent v)
  inHand : ∀ c ∈ tree.children v, Holds filter waves (s.hand c) (number c)
  numbering : Numbering (tree.children v) waves.length order number
  inOrder : inTurn → order = List.range order.length

/-- The accounts of a node balance. -/
def Balances (tree : Tree) (kind : PacketKind streamId)
    (filter : List Packet → Outcome (List Packet)) (inTurn : Prop) (s : State) (v : Rank) : Prop :=
  ∀ hv : (tree.children v).Nonempty, ∃ history waves order number,
    Accounts tree kind filter inTurn s hv history waves order number

/-- If the threads of a node take turns, then only one of them has anything in hand. -/
structure Invariant (tree : Tree) (kind : PacketKind streamId)
    (filter : List Packet → Outcome (List Packet)) (inTurn : Prop) (s : State) : Prop where
  balances : ∀ v, Balances tree kind filter inTurn s v
  accepted : ∀ v, ∀ p ∈ s.sent v, kind.Accepts p
  taken : ∀ c, s.taken c ≤ (s.sent c).length
  top : ∀ c, tree.parent c = none → s.hand c = .idle
  silent : ∀ v, v ∉ tree.endPoints → tree.children v = ∅ → s.sent v = []
  single : inTurn → ∀ {v c c'}, Link tree.parent c v → Link tree.parent c' v →
    s.hand c ≠ .idle → s.hand c' ≠ .idle → c = c'

variable {inTurn : Prop}

lemma invariant_start : Invariant tree kind filter inTurn State.start where
  balances := fun v hv => ⟨[], [], [], fun _ => none,
    { arrived := fun _ _ => rfl
      accepted := fun p hp => by cases hp
      synchronized :=
        { count := by rw [complete_nil]; rfl
          content := by simp
          buffered := fun _ _ => rfl
          nothingElse := fun _ _ => Finmap.notMem_empty
          ready := fun r => by simp [stateOf, State.start, WfaState.empty, WfaState.queue] }
      sent := .nil
      inHand := fun _ _ => .idle
      numbering := .none _
      inOrder := fun _ => rfl }⟩
  accepted := fun v p hp => by cases hp
  taken := fun _ => le_rfl
  top := fun _ _ => rfl
  silent := fun _ _ _ => rfl
  single := fun _ _ _ _ _ _ hc => absurd rfl hc

/-- Nothing changes for a node if nothing changes at it. -/
lemma Balances.congr (s' : State) {v : Rank} (h : Balances tree kind filter inTurn s v)
    (harrived : ∀ c ∈ tree.children v, s'.arrived c = s.arrived c)
    (hstorage : s'.storage v = s.storage v) (hsent : s'.sent v = s.sent v)
    (hhand : ∀ c ∈ tree.children v, s'.hand c = s.hand c) :
    Balances tree kind filter inTurn s' v := by
  intro hv
  obtain ⟨history, waves, order, number, hacc⟩ := h hv
  exact ⟨history, waves, order, number,
    { hacc with
      arrived := fun c hc => (hacc.arrived c hc).trans (harrived c hc).symm
      synchronized := by rw [hstorage]; exact hacc.synchronized
      sent := by rw [hsent]; exact hacc.sent
      inHand := fun c hc => by rw [hhand c hc]; exact hacc.inHand c hc }⟩

lemma Makes.append {waves more : List (List Packet)} {k : ℕ} {p : Packet}
    (h : Makes filter waves k p) : Makes filter (waves ++ more) k p := by
  obtain ⟨w, hw, hfilter⟩ := h
  have hlt := (List.getElem?_eq_some_iff.mp hw).1
  exact ⟨w, by rw [List.getElem?_append_left hlt, hw], hfilter⟩

lemma Holds.append {waves more : List (List Packet)} {stage : Stage} {n : Option ℕ}
    (h : Holds filter waves stage n) : Holds filter (waves ++ more) stage n := by
  cases h with
  | idle => exact .idle
  | synced hw =>
      have hlt := (List.getElem?_eq_some_iff.mp hw).1
      exact .synced (by rw [List.getElem?_append_left hlt, hw])
  | made hmakes => exact .made hmakes.append
  | handedOver => exact .handedOver

lemma Holds.of_idle {waves : List (List Packet)} {n : Option ℕ}
    (h : Holds filter waves .idle n) : n = none := by
  cases h
  rfl

section Accounts
variable {v c : Rank} {hv : (tree.children v).Nonempty} {history : List Packet}
  {waves : List (List Packet)} {order : List ℕ} {number : Rank → Option ℕ}

/-- A wave has packets, and they are of the kind. -/
lemma Accounts.wave_spec (h : Accounts tree kind filter inTurn s hv history waves order number)
    {k : ℕ} {w : List Packet} (hw : waves[k]? = some w) :
    w ≠ [] ∧ ∀ p ∈ w, kind.Accepts p := by
  have hcontent := h.synchronized.content k w hw
  constructor
  · rintro rfl
    have hlength := congrArg List.length hcontent
    simp only [wave, List.map_nil, List.length_nil, List.length_map, Finset.length_sort] at hlength
    exact hv.card_pos.ne hlength
  · intro p hp
    have hmem : some p ∈ wave Packet.inletRank (tree.children v) history k :=
      hcontent ▸ List.mem_map_of_mem hp
    obtain ⟨r, -, hr⟩ := List.mem_map.mp hmem
    exact h.accepted p (List.mem_of_mem_filter (List.mem_of_getElem? hr))

/-- A call of the synchronization filter of a node for a packet of a child. -/
lemma synchronized_step {storage : Option WfaState} {packet : Packet}
    (hsync : Synchronized (tree.children v) hv history (stateOf storage) waves)
    (hc : Link tree.parent c v) (hid : packet.streamId = streamId) :
    ∃ state out, sfilterWaitForAll (tree.network streamId v) storage [comesFrom c packet] =
        .ok (some state, out) ∧
      Synchronized (tree.children v) hv (history ++ [comesFrom c packet]) state
        (waves ++ emitted [out]) := by
  have hstream : (tree.network streamId v).getStream (comesFrom c packet).streamId =
      some ⟨(tree.children v).sort⟩ := if_pos hid
  have hpeers := tree.getChildRanks_eq v
  have hne : (Stream.getChildRanks ⟨(tree.children v).sort⟩).Nonempty := hpeers.symm ▸ hv
  have hfrom : FromPeer (tree.network streamId v) ⟨(tree.children v).sort⟩ (comesFrom c packet) := by
    refine ⟨hstream, ?_, tree.ne_unknown hc, rfl⟩
    rw [hpeers]
    exact tree.mem_children.mpr hc
  have hsame : ∀ {peers : Finset Rank} (hne : peers.Nonempty) {history state waves},
      peers = tree.children v → (Synchronized peers hne history state waves ↔
        Synchronized (tree.children v) hv history state waves) := by
    rintro peers hne history state waves rfl
    exact Iff.rfl
  obtain ⟨state, out, hcall, hnext⟩ := ((hsame hne hpeers).mpr hsync).step (fun _ _ => rfl) hfrom
  exact ⟨state, out, hcall, (hsame hne hpeers).mp hnext⟩

/-- A call without output leaves the waves as they are, and one with output adds a wave. -/
lemma emitted_singleton (wave : List Packet) : emitted [wave] = if wave = [] then [] else [wave] := by
  by_cases hnil : wave = []
  · simp [emitted, hnil]
  · simp [emitted, hnil]

/-- A thread that is idle takes the next packet of its child. -/
lemma Accounts.receive (h : Accounts tree kind filter inTurn s hv history waves order number)
    (s' : State) {packet : Packet} {storage : Option WfaState} {wave : List Packet}
    (hc : Link tree.parent c v) (hidle : s.hand c = .idle) (hkind : kind.Accepts packet)
    (hcall : sfilterWaitForAll (tree.network streamId v) (s.storage v) [comesFrom c packet] =
      .ok (storage, wave))
    (hstorage : s'.storage v = storage) (hsent : s'.sent v = s.sent v)
    (hself : s'.arrived c = s.arrived c ++ [comesFrom c packet] ∧
      s'.hand c = if wave = [] then .idle else .synced wave)
    (hother : ∀ c' ≠ c, s'.arrived c' = s.arrived c' ∧ s'.hand c' = s.hand c') :
    Balances tree kind filter inTurn s' v := by
  intro hv
  have hmem := tree.mem_children.mpr hc
  have hheld := h.inHand c hmem
  rw [hidle] at hheld
  have hnone : number c = none := hheld.of_idle
  obtain ⟨state, out, hcall', hsync⟩ := synchronized_step h.synchronized hc (kind.onStream packet hkind)
  cases hcall.symm.trans hcall'
  have harrived : ∀ c' ∈ tree.children v,
      received Packet.inletRank (history ++ [comesFrom c packet]) c' = s'.arrived c' := by
    intro c' hc'
    rw [received_append, h.arrived c' hc']
    by_cases hne : c' = c
    · rw [hne, hself.1]
      exact if_pos rfl
    · rw [(hother c' hne).1]
      exact if_neg (Ne.symm hne)
  have haccepted : ∀ p ∈ history ++ [comesFrom c packet], kind.Accepts p := by
    intro p hp
    rcases List.mem_append.mp hp with hp | hp
    · exact h.accepted p hp
    · rw [List.mem_singleton.mp hp]
      exact kind.marked c packet hkind
  rw [emitted_singleton] at hsync
  by_cases hnil : wave = []
  · rw [if_pos hnil, List.append_nil] at hsync
    refine ⟨_, waves, order, number, harrived, haccepted, by rw [hstorage]; exact hsync,
      by rw [hsent]; exact h.sent, fun c' hc' => ?_, h.numbering, h.inOrder⟩
    by_cases hne : c' = c
    · rw [hne, hself.2, if_pos hnil, hnone]
      exact .idle
    · rw [(hother c' hne).2]
      exact h.inHand c' hc'
  · rw [if_neg hnil] at hsync
    refine ⟨_, waves ++ [wave], order, Function.update number c (some waves.length), harrived,
      haccepted, by rw [hstorage]; exact hsync, ?_, fun c' hc' => ?_, ?_, h.inOrder⟩
    · rw [hsent]
      exact h.sent.imp fun k p hk => hk.append
    · by_cases hne : c' = c
      · rw [hne, hself.2, if_neg hnil, Function.update_self]
        exact .synced List.getElem?_concat_length
      · rw [(hother c' hne).2, Function.update_of_ne hne]
        exact (h.inHand c' hc').append
    · rw [List.length_append, List.length_singleton]
      exact h.numbering.start hmem hnone

/-- A thread runs the transformation filter on its wave. -/
lemma Accounts.transform (h : Accounts tree kind filter inTurn s hv history waves order number)
    (hmakes : MakesOne filter kind) {wave packets : List Packet} (hc : Link tree.parent c v)
    (hhand : s.hand c = .synced wave) (htransform : Upstream.transform filter wave = some packets) :
    Accounts tree kind filter inTurn
      { s with hand := Function.update s.hand c (.made packets) } hv history waves order number := by
  refine { h with inHand := fun c' hc' => ?_ }
  by_cases hne : c' = c
  · have hheld := h.inHand c (tree.mem_children.mpr hc)
    rw [hhand] at hheld
    subst hne
    show Holds filter waves (Function.update s.hand c' (.made packets) c') (number c')
    rw [Function.update_self]
    generalize number c' = n at hheld ⊢
    cases hheld with
    | @synced w k hw =>
        obtain ⟨hne, hkind⟩ := h.wave_spec hw
        rw [Upstream.transform, if_neg hne, toOption_eq_some] at htransform
        obtain ⟨p, rfl, -⟩ := hmakes wave packets hne hkind htransform
        exact .made ⟨wave, hw, htransform⟩
  · show Holds filter waves (Function.update s.hand c (.made packets) c') (number c')
    rw [Function.update_of_ne hne]
    exact h.inHand c' hc'

/-- What a thread has made is of the kind. -/
lemma Accounts.made_accepted (h : Accounts tree kind filter inTurn s hv history waves order number)
    (hmakes : MakesOne filter kind) {packet : Packet} {packets : List Packet}
    (hc : c ∈ tree.children v) (hhand : s.hand c = .made (packet :: packets)) :
    kind.Accepts packet := by
  have hheld := h.inHand c hc
  rw [hhand] at hheld
  generalize number c = n at hheld
  cases hheld with
  | made hmade =>
      obtain ⟨w, hw, hfilter⟩ := hmade
      obtain ⟨hne, hkind⟩ := h.wave_spec hw
      obtain ⟨p, hp, haccepted⟩ := hmakes w _ hne hkind hfilter
      cases hp
      exact haccepted

/-- A thread hands the packet over that was made of its wave. -/
lemma Accounts.handOver (h : Accounts tree kind filter inTurn s hv history waves order number)
    (s' : State) {packet : Packet} {packets : List Packet} (hc : Link tree.parent c v)
    (hhand : s.hand c = .made (packet :: packets))
    (hsingle : inTurn → ∀ c' ∈ tree.children v, s.hand c' ≠ .idle → c' = c)
    (hstorage : s'.storage v = s.storage v) (hsent : s'.sent v = s.sent v ++ [packet])
    (harrived : ∀ c' ∈ tree.children v, s'.arrived c' = s.arrived c')
    (hself : s'.hand c = .made packets) (hother : ∀ c' ≠ c, s'.hand c' = s.hand c') :
    Balances tree kind filter inTurn s' v := by
  intro hv
  have hmem := tree.mem_children.mpr hc
  have hheld := h.inHand c hmem
  rw [hhand] at hheld
  obtain ⟨k, hk, hpacket, rfl⟩ :
      ∃ k, number c = some k ∧ Makes filter waves k packet ∧ packets = [] := by
    generalize number c = n at hheld ⊢
    cases hheld with
    | made hmade => exact ⟨_, rfl, hmade, rfl⟩
  refine ⟨history, waves, order ++ [k], Function.update number c none,
    fun c' hc' => (h.arrived c' hc').trans (harrived c' hc').symm, h.accepted,
    by rw [hstorage]; exact h.synchronized, ?_, fun c' hc' => ?_, h.numbering.finish hmem hk,
    fun hturn => ?_⟩
  · rw [hsent]
    exact List.rel_append h.sent (.cons hpacket .nil)
  · by_cases hne : c' = c
    · rw [hne, hself, Function.update_self]
      exact .handedOver
    · rw [hother c' hne, Function.update_of_ne hne]
      exact h.inHand c' hc'
  · have hnumbered : ∀ c' ∈ tree.children v, number c' ≠ none → c' = c := by
      intro c' hc' hsome
      apply hsingle hturn c' hc'
      intro hidle
      have hheld' := h.inHand c' hc'
      rw [hidle] at hheld'
      exact hsome hheld'.of_idle
    obtain ⟨rfl, -⟩ := h.numbering.eq_of_single (h.inOrder hturn) hnumbered hmem hk
    rw [List.length_append, List.length_singleton, List.range_succ, ← h.inOrder hturn]

end Accounts

lemma arrived_of_append {c : Rank} {more : List Packet} (htaken : s.taken c ≤ (s.sent c).length)
    (hsent : s'.sent c = s.sent c ++ more) (hsame : s'.taken c = s.taken c) :
    s'.arrived c = s.arrived c := by
  rw [State.arrived, State.arrived, hsent, hsame, List.take_append_of_le_length htaken]

lemma update_append (f : Rank → List Packet) (r : Rank) (more : List Packet) (c : Rank) :
    Function.update f r (f r ++ more) c = f c ++ if c = r then more else [] := by
  by_cases hc : c = r
  · rw [hc, Function.update_self, if_pos rfl]
  · rw [Function.update_of_ne hc, if_neg hc, List.append_nil]

namespace Invariant

lemma send (h : Invariant tree kind filter inTurn s) (hmakes : MakesOne filter kind)
    {r : Rank} {packet : Packet} (hkind : kind.Accepts packet)
    (hstep : step tree streamId filter s (.send r packet) = some s') :
    Invariant tree kind filter inTurn s' := by
  obtain ⟨hr, -, storage, packets, hfilter, rfl⟩ := step_send hstep
  have haccepted : ∀ p ∈ packets, kind.Accepts p := by
    intro p hp
    obtain ⟨p', rfl, hp'⟩ := hmakes _ packets (List.cons_ne_nil _ _)
      (fun q hq => by rw [List.mem_singleton.mp hq]; exact kind.marked unknownRank packet hkind)
      hfilter
    rw [List.mem_singleton.mp hp]
    exact hp'
  have hsent := update_append s.sent r packets
  refine ⟨fun v => ?_, fun v p (hp : p ∈ Function.update s.sent r _ v) => ?_, fun c => ?_,
    h.top, fun v hv hnone => ?_, fun hturn => h.single hturn⟩
  · by_cases hne : v = r
    · intro hv
      rw [hne, Tree.children_endPoint hr] at hv
      exact absurd hv Finset.not_nonempty_empty
    · refine (h.balances v).congr _ (fun c _ => ?_) (Function.update_of_ne hne ..)
        (Function.update_of_ne hne ..) (fun _ _ => rfl)
      exact arrived_of_append (h.taken c) (hsent c) rfl
  · rw [hsent v] at hp
    rcases List.mem_append.mp hp with hp | hp
    · exact h.accepted v p hp
    · apply haccepted p
      by_cases hv : v = r
      · rwa [if_pos hv] at hp
      · rw [if_neg hv] at hp
        cases hp
  · show s.taken c ≤ (Function.update s.sent r (s.sent r ++ packets) c).length
    rw [hsent c, List.length_append]
    exact Nat.le_add_right_of_le (h.taken c)
  · have hne : v ≠ r := fun he => hv (he ▸ hr)
    exact (Function.update_of_ne hne ..).trans (h.silent v hv hnone)

lemma receive (h : Invariant tree kind filter inTurn s) {c : Rank}
    (hturn : inTurn → Alone tree s (.receive c))
    (hstep : step tree streamId filter s (.receive c) = some s') :
    Invariant tree kind filter inTurn s' := by
  obtain ⟨hidle, v, packet, storage, wave, hv, hpacket, hcall, rfl⟩ := step_receive hstep
  obtain ⟨hlt, hget⟩ := List.getElem?_eq_some_iff.mp hpacket
  have hkind : kind.Accepts packet := h.accepted c packet (List.mem_of_getElem? hpacket)
  refine ⟨fun v' => ?_, h.accepted, fun c' => ?_, fun c' htop => ?_, h.silent, fun inturn => ?_⟩
  · by_cases hne : v' = v
    · subst hne
      obtain ⟨history, waves, order, number, hacc⟩ := h.balances v' ⟨c, Tree.mem_children.mpr hv⟩
      refine hacc.receive _ hv hidle hkind hcall (Function.update_self ..) rfl ⟨?_, ?_⟩
        (fun c' hne => ⟨?_, Function.update_of_ne hne ..⟩)
      · show ((s.sent c).take (Function.update s.taken c (s.taken c + 1) c)).map (comesFrom c) = _
        rw [Function.update_self, List.take_add_one, hpacket, List.map_append]
        rfl
      · exact Function.update_self ..
      · exact arrived_of_append (h.taken c') (List.append_nil _).symm (Function.update_of_ne hne ..)
    · -- The child of another node is another child.
      have hother : ∀ c' ∈ tree.children v', c' ≠ c := by
        rintro c' hc' rfl
        exact hne (Forest.link_rightUnique _ (Tree.mem_children.mp hc') hv)
      refine (h.balances v').congr _ (fun c' hc' => ?_) (Function.update_of_ne hne ..) rfl
        (fun c' hc' => Function.update_of_ne (hother c' hc') ..)
      exact arrived_of_append (h.taken c') (List.append_nil _).symm
        (Function.update_of_ne (hother c' hc') ..)
  · by_cases hne : c' = c
    · subst hne
      show Function.update s.taken c' (s.taken c' + 1) c' ≤ _
      rw [Function.update_self]
      exact hlt
    · show Function.update s.taken c (s.taken c + 1) c' ≤ _
      rw [Function.update_of_ne hne]
      exact h.taken c'
  · have hne : c' ≠ c := by
      rintro rfl
      rw [Link, htop] at hv
      cases hv
    exact (Function.update_of_ne hne ..).trans (h.top c' htop)
  · intro v' c₁ c₂ h₁ h₂ hbusy₁ hbusy₂
    -- The other threads of the node are idle, so only that of `c` can be busy there.
    have hbusy : ∀ c', Link tree.parent c' v' → v' = v →
        Function.update s.hand c (if wave = [] then Stage.idle else .synced wave) c' ≠ .idle →
        c' = c := by
      intro c' hc' hv' hbusy
      by_contra hne
      rw [Function.update_of_ne hne] at hbusy
      exact hbusy (hturn inturn c' (hc'.trans (hv' ▸ hv.symm)))
    by_cases hv' : v' = v
    · exact (hbusy c₁ h₁ hv' hbusy₁).trans (hbusy c₂ h₂ hv' hbusy₂).symm
    · have hother : ∀ c', Link tree.parent c' v' → c' ≠ c := by
        rintro c' hc' rfl
        exact hv' (Forest.link_rightUnique _ hc' hv)
      apply h.single inturn h₁ h₂
      · exact fun hidle₁ => hbusy₁ ((Function.update_of_ne (hother c₁ h₁) ..).trans hidle₁)
      · exact fun hidle₂ => hbusy₂ ((Function.update_of_ne (hother c₂ h₂) ..).trans hidle₂)

/-- A step after which a thread is busy that was busy before. -/
lemma single_of_busy (h : Invariant tree kind filter inTurn s)
    (hhand : ∀ c, s'.hand c ≠ .idle → s.hand c ≠ .idle) (hturn : inTurn) {v c c' : Rank}
    (hc : Link tree.parent c v) (hc' : Link tree.parent c' v) (hbusy : s'.hand c ≠ .idle)
    (hbusy' : s'.hand c' ≠ .idle) : c = c' :=
  h.single hturn hc hc' (hhand c hbusy) (hhand c' hbusy')

lemma busy_of_update {hand : Rank → Stage} {c : Rank} {stage : Stage} (hc : hand c ≠ .idle) :
    ∀ c', Function.update hand c stage c' ≠ .idle → hand c' ≠ .idle := by
  intro c' hbusy
  by_cases hne : c' = c
  · rw [hne]
    exact hc
  · rwa [Function.update_of_ne hne] at hbusy

/-- A thread that has something in hand reads from a child. -/
lemma top_of_busy (h : Invariant tree kind filter inTurn s) {c : Rank} {stage : Stage}
    (hc : s.hand c ≠ .idle) : ∀ c', tree.parent c' = none →
      Function.update s.hand c stage c' = .idle := by
  intro c' htop
  have hne : c' ≠ c := by
    rintro rfl
    exact hc (h.top c' htop)
  exact (Function.update_of_ne hne ..).trans (h.top c' htop)

lemma transform (h : Invariant tree kind filter inTurn s) (hmakes : MakesOne filter kind)
    {c : Rank} (hstep : step tree streamId filter s (.transform c) = some s') :
    Invariant tree kind filter inTurn s' := by
  obtain ⟨wave, packets, hhand, htransform, rfl⟩ := step_transform hstep
  have hbusy : s.hand c ≠ .idle := by
    rw [hhand]
    rintro ⟨⟩
  refine ⟨fun v => ?_, h.accepted, h.taken, h.top_of_busy hbusy,
    h.silent, fun inturn => h.single_of_busy (busy_of_update hbusy) inturn⟩
  by_cases hc : Link tree.parent c v
  · intro hv
    obtain ⟨history, waves, order, number, hacc⟩ := h.balances v hv
    exact ⟨history, waves, order, number, hacc.transform hmakes hc hhand htransform⟩
  · refine (h.balances v).congr _ (fun _ _ => rfl) rfl rfl (fun c' hc' => ?_)
    refine Function.update_of_ne ?_ ..
    rintro rfl
    exact hc (Tree.mem_children.mp hc')

lemma handOver (h : Invariant tree kind filter inTurn s) (hmakes : MakesOne filter kind)
    {c : Rank}
    (hstep : step tree streamId filter s (.handOver c) = some s') :
    Invariant tree kind filter inTurn s' := by
  rcases step_handOver hstep with ⟨hhand, rfl⟩ | ⟨packet, packets, v, hhand, hv, rfl⟩
  · have hbusy : s.hand c ≠ .idle := by
      rw [hhand]
      rintro ⟨⟩
    refine ⟨fun v hv => ?_, h.accepted, h.taken, h.top_of_busy hbusy,
      h.silent, fun inturn => h.single_of_busy (busy_of_update hbusy) inturn⟩
    obtain ⟨history, waves, order, number, hacc⟩ := h.balances v hv
    refine ⟨history, waves, order, number, { hacc with inHand := fun c' hc' => ?_ }⟩
    have hheld := hacc.inHand c' hc'
    by_cases hne : c' = c
    · subst hne
      rw [hhand] at hheld
      show Holds filter waves (Function.update s.hand c' .idle c') (number c')
      rw [Function.update_self]
      generalize number c' = n at hheld ⊢
      cases hheld with
      | handedOver => exact .idle
    · show Holds filter waves (Function.update s.hand c .idle c') (number c')
      rw [Function.update_of_ne hne]
      exact hheld
  · have hbusy : s.hand c ≠ .idle := by
      rw [hhand]
      rintro ⟨⟩
    have hsent := update_append s.sent v [packet]
    have harrived : ∀ c', State.arrived { s with
        hand := Function.update s.hand c (.made packets)
        sent := Function.update s.sent v (s.sent v ++ [packet]) } c' = s.arrived c' :=
      fun c' => arrived_of_append (h.taken c') (hsent c') rfl
    refine ⟨fun v' => ?_, fun v' p (hp : p ∈ Function.update s.sent v _ v') => ?_, fun c' => ?_,
      h.top_of_busy hbusy, fun v' hv' hnone => ?_,
      fun inturn => h.single_of_busy (busy_of_update hbusy) inturn⟩
    · by_cases hne : v' = v
      · subst hne
        obtain ⟨history, waves, order, number, hacc⟩ :=
          h.balances v' ⟨c, Tree.mem_children.mpr hv⟩
        exact hacc.handOver _ hv hhand
          (fun inturn c' hc' hc'busy => h.single inturn (Tree.mem_children.mp hc') hv hc'busy hbusy)
          rfl (Function.update_self ..) (fun c' _ => harrived c') (Function.update_self ..)
          (fun c' hne => Function.update_of_ne hne ..)
      · refine (h.balances v').congr _ (fun c' _ => harrived c') rfl (Function.update_of_ne hne ..)
          (fun c' hc' => Function.update_of_ne ?_ ..)
        rintro rfl
        exact hne (Forest.link_rightUnique _ (Tree.mem_children.mp hc') hv)
    · rw [hsent v'] at hp
      rcases List.mem_append.mp hp with hp | hp
      · exact h.accepted v' p hp
      · by_cases hne : v' = v
        · rw [if_pos hne, List.mem_singleton] at hp
          obtain ⟨history, waves, order, number, hacc⟩ := h.balances v ⟨c, Tree.mem_children.mpr hv⟩
          rw [hp]
          exact hacc.made_accepted hmakes (Tree.mem_children.mpr hv) hhand
        · rw [if_neg hne] at hp
          cases hp
    · show s.taken c' ≤ (Function.update s.sent v (s.sent v ++ [packet]) c').length
      rw [hsent c', List.length_append]
      exact Nat.le_add_right_of_le (h.taken c')
    · have hne : v' ≠ v := by
        rintro rfl
        rw [← Tree.mem_children, hnone] at hv
        exact Finset.notMem_empty c hv
      exact (Function.update_of_ne hne ..).trans (h.silent v' hv' hnone)

lemma step (h : Invariant tree kind filter inTurn s) (hmakes : MakesOne filter kind)
    {act : Action} (hsends : Sends kind s act) (hturn : inTurn → Alone tree s act)
    (hstep : Upstream.step tree streamId filter s act = some s') :
    Invariant tree kind filter inTurn s' := by
  cases act with
  | send r packet => exact h.send hmakes hsends hstep
  | receive c => exact h.receive hturn hstep
  | transform c => exact h.transform hmakes hstep
  | handOver c => exact h.handOver hmakes hstep

end Invariant

/-- In a run the end-points send packets of the kind, and the threads may have to take turns. -/
theorem invariant_of_run (hmakes : MakesOne filter kind) {allowed : State → Action → Prop}
    (hsends : ∀ {s act}, allowed s act → Sends kind s act)
    (hturn : ∀ {s act}, allowed s act → inTurn → Alone tree s act)
    (hrun : Reaches (step tree streamId filter) allowed .start s) :
    Invariant tree kind filter inTurn s :=
  hrun.keeps invariant_start fun h hallowed hstep =>
    h.step hmakes (hsends hallowed) (hturn hallowed) hstep

end MRNet.Upstream
