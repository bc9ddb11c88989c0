import MRNet.SpecifiedTrees

/-!
# The capacity of hosts

A host of a balanced tree from one list is used until its processes reach its count or the
limit, but at least once. The front-end host has the process of the root before it is used.
-/
namespace MRNet.TopologyFile
open Wire (Returns)
open SerialGraph (Text)

/-- The smaller of the listed count and the limit. -/
def capacity (limit : BitVec 32) (entry : Text × BitVec 32) : ℕ := (min limit entry.2).toNat

namespace BalancedTree

/-- How many processes run on a host. -/
def processes (b : BalancedTree) (host : Text) : ℕ := b.nodesByLevel.flatten.countP (·.1 = host)

/-- No listed host has more processes than it has room for. -/
def Respects (limit : BitVec 32) (hosts : HostList) (b : BalancedTree) : Prop :=
  ∀ entry ∈ hosts, b.processes entry.1 ≤ capacity limit entry

/-- The front-end host has room for one more process, or it is not used: the hosts listed
before it are enough. No process fits a limit of zero. -/
def Spacious (feHost : Text) (limit : BitVec 32) (hosts : HostList) (nodes : ℕ) : Prop :=
  (limit = 0 → nodes = 0 ∧ feHost ∉ hosts.map Prod.fst) ∧
  (limit ≠ 0 → ∀ entry ∈ hosts, entry.1 = feHost → 2 ≤ capacity limit entry ∨
    nodes ≤ ((hosts.takeWhile (·.1 ≠ feHost)).map (capacity limit)).sum)

variable {address : Name → ℕ} {hostNameMax : ℕ} {fe : FrontEnd hostNameMax} {spec feHost : Text}
  {fanouts : List (BitVec 32)} {limit : BitVec 32} {hosts : HostList} {counts : HostProcCounts}

/-- The slots that one host offers. -/
def ownSlots (limit : BitVec 32) (counts : HostProcCounts) (entry : Text × BitVec 32) : List Host :=
  hostSlots entry.1 (counts entry.1) (takes (min limit entry.2) (counts entry.1))

lemma offered_distinct (h : (hosts.map Prod.fst).Nodup) :
    offered limit hosts counts = hosts.flatMap (ownSlots limit counts) := by
  induction hosts generalizing counts with
  | nil => rfl
  | cons entry rest ih =>
      obtain ⟨host, count⟩ := entry
      rw [List.map_cons, List.nodup_cons] at h
      rw [offered, ih h.2, List.flatMap_cons]
      congr 1
      refine List.flatMap_congr fun e he => ?_
      have hne : e.1 ≠ host := fun heq => h.1 (List.mem_map.mpr ⟨e, he, heq⟩)
      simp only [ownSlots, Function.update_of_ne hne]

lemma length_ownSlots (entry : Text × BitVec 32) : (ownSlots limit counts entry).length =
    takes (min limit entry.2) (counts entry.1) := by
  simp [ownSlots, hostSlots]

lemma fst_ownSlots {entry : Text × BitVec 32} {h : Host} (hh : h ∈ ownSlots limit counts entry) :
    h.1 = entry.1 := by
  obtain ⟨i, -, rfl⟩ := List.mem_map.mp hh
  rfl

/-- How much of a block is taken behind the blocks before it. -/
lemma countP_take {α : Type} {p : α → Bool} {before own behind : List α} (n : ℕ)
    (hbefore : ∀ a ∈ before, p a = false) (hown : ∀ a ∈ own, p a = true)
    (hbehind : ∀ a ∈ behind, p a = false) :
    ((before ++ (own ++ behind)).take n).countP p = min (n - before.length) own.length := by
  have hnone : ∀ {l : List α}, (∀ a ∈ l, p a = false) → ∀ k, (l.take k).countP p = 0 :=
    fun hl k => List.countP_eq_zero.mpr fun a ha => by simp [hl a (List.mem_of_mem_take ha)]
  have hall : ∀ k, (own.take k).countP p = min k own.length := fun k => by
    rw [List.countP_eq_length.mpr fun a ha => hown a (List.mem_of_mem_take ha), List.length_take]
  rw [List.take_append, List.take_append, List.countP_append, List.countP_append, hnone hbefore,
    hnone hbehind, hall, Nat.zero_add, Nat.add_zero]

lemma flatten_deal (sizes : List (BitVec 32)) (slots : List Host) :
    (deal sizes slots).flatten = slots.take (total sizes) := by
  induction sizes generalizing slots with
  | nil => simp [deal, total]
  | cons nodes sizes ih =>
      have htotal : total (nodes :: sizes) = nodes.toNat + total sizes := by simp [total]
      rw [deal, List.flatten_cons, ih, htotal, List.take_add]

lemma total_levelSizes (hne : fanouts ≠ []) : total (levelSizes 1 fanouts) =
    HostLists.innerCount fanouts + HostLists.leafCount fanouts := by
  have hsizes : levelSizes 1 fanouts ≠ [] := by
    cases fanouts with
    | nil => exact absurd rfl hne
    | cons fanout fanouts => exact List.cons_ne_nil _ _
  rw [HostLists.leafCount, HostLists.innerCount, List.getLast?_eq_some_getLast hsizes]
  conv_lhs => rw [← List.dropLast_append_getLast hsizes]
  simp [total]

/-- From one list the places are the first slots. -/
lemma flatten_places {maxProcs : BitVec 32} (hne : fanouts ≠ [])
    (henough : ¬(HostLists.single hosts maxProcs).Shortage feHost fanouts) :
    ((HostLists.single hosts maxProcs).places feHost fanouts).flatten =
      (offered maxProcs hosts (.start feHost)).take (total (levelSizes 1 fanouts)) := by
  simp only [HostLists.Shortage, not_and, not_or, not_lt] at henough
  obtain ⟨-, hinner, -⟩ := henough hne
  have hleaf : (HostLists.single hosts maxProcs).leafSlots feHost fanouts =
      (offered maxProcs hosts (.start feHost)).drop (HostLists.innerCount fanouts) :=
    offered_skip hinner
  rw [HostLists.places, List.flatten_append, flatten_deal, hleaf, total_levelSizes hne,
    List.take_add, List.flatten_singleton]
  rfl

/-- The slots of the hosts before a host are taken first. -/
lemma processes_eq {b : BalancedTree} {before behind : HostList} {entry : Text × BitVec 32}
    {nodes : ℕ} (hdistinct : ((before ++ entry :: behind).map Prod.fst).Nodup)
    (hplaces : b.nodesByLevel.flatten = (feHost, 0) ::
      (offered limit (before ++ entry :: behind) (.start feHost)).take nodes) :
    b.processes entry.1 = (if feHost = entry.1 then 1 else 0) +
      min (nodes - (offered limit before (.start feHost)).length)
        (takes (min limit entry.2) (HostProcCounts.start feHost entry.1)) := by
  have hbefore : (before.map Prod.fst).Nodup := by
    rw [List.map_append] at hdistinct
    exact hdistinct.of_append_left
  have hsplit : offered limit (before ++ entry :: behind) (.start feHost) =
      offered limit before (.start feHost) ++ (ownSlots limit (.start feHost) entry ++
        behind.flatMap (ownSlots limit (.start feHost))) := by
    rw [offered_distinct hdistinct, offered_distinct hbefore, List.flatMap_append,
      List.flatMap_cons]
  have hother : ∀ {l : HostList}, (∀ e ∈ l, e.1 ≠ entry.1) →
      ∀ h ∈ l.flatMap (ownSlots limit (.start feHost)), decide (h.1 = entry.1) = false := by
    intro l hl h hh
    obtain ⟨e, he, hslot⟩ := List.mem_flatMap.mp hh
    rw [decide_eq_false_iff_not, fst_ownSlots hslot]
    exact hl e he
  rw [List.map_append, List.map_cons, List.nodup_middle, List.nodup_cons, List.mem_append,
    not_or] at hdistinct
  obtain ⟨⟨hout₁, hout₂⟩, -⟩ := hdistinct
  have hfirst := hother fun e he heq => hout₁ (List.mem_map.mpr ⟨e, he, heq⟩)
  have hlast := hother fun e he heq => hout₂ (List.mem_map.mpr ⟨e, he, heq⟩)
  have hown : ∀ h ∈ ownSlots limit (.start feHost) entry, decide (h.1 = entry.1) = true :=
    fun h hh => decide_eq_true (fst_ownSlots hh)
  rw [← offered_distinct hbefore] at hfirst
  rw [processes, hplaces, List.countP_cons, hsplit, countP_take nodes hfirst hown hlast,
    length_ownSlots, Nat.add_comm]
  simp

lemma takes_start {entry : Text × BitVec 32} (hne : entry.1 ≠ feHost) :
    takes (min limit entry.2) (HostProcCounts.start feHost entry.1) =
      (capacity limit entry - 1) + 1 := by
  simp [takes, capacity, HostProcCounts.start, hne]

lemma takes_root {entry : Text × BitVec 32} (heq : entry.1 = feHost) :
    takes (min limit entry.2) (HostProcCounts.start feHost entry.1) =
      (capacity limit entry - 2) + 1 := by
  simp [takes, capacity, HostProcCounts.start, heq]

lemma capacity_pos {entry : Text × BitVec 32} (hlimit : limit ≠ 0) (hcount : entry.2 ≠ 0) :
    0 < capacity limit entry := by
  have hne : min limit entry.2 ≠ 0 := by
    rcases min_choice limit entry.2 with h | h <;> rw [h] <;> assumption
  exact Nat.pos_of_ne_zero fun hzero => hne (BitVec.eq_of_toNat_eq hzero)

lemma length_offered (hdistinct : (hosts.map Prod.fst).Nodup) (hlimit : limit ≠ 0)
    (hcounts : ∀ entry ∈ hosts, entry.2 ≠ 0) (hfe : ∀ entry ∈ hosts, entry.1 ≠ feHost) :
    (offered limit hosts (.start feHost)).length = (hosts.map (capacity limit)).sum := by
  rw [offered_distinct hdistinct, List.length_flatMap]
  congr 1
  refine List.map_congr_left fun entry he => ?_
  have hpos := capacity_pos hlimit (hcounts entry he)
  rw [length_ownSlots, takes_start (hfe entry he)]
  omega

/-- A limit of zero is reached by the first process. -/
lemma respects_zero {b : BalancedTree} {nodes : ℕ} (hnonempty : hosts ≠ [])
    (hdistinct : (hosts.map Prod.fst).Nodup) (hplaces : b.nodesByLevel.flatten = (feHost, 0) ::
      (offered 0 hosts (.start feHost)).take nodes) :
    Respects 0 hosts b ↔ nodes = 0 ∧ feHost ∉ hosts.map Prod.fst := by
  have hzero (entry : Text × BitVec 32) : capacity 0 entry = 0 := by
    have hle : min 0 entry.2 ≤ 0 := min_le_left 0 entry.2
    exact Nat.le_zero.mp (BitVec.le_def.mp hle)
  constructor
  · intro hrespects
    have hfe : feHost ∉ hosts.map Prod.fst := by
      intro hmem
      obtain ⟨entry, hentry, heq⟩ := List.mem_map.mp hmem
      have hle := hrespects entry hentry
      rw [hzero, processes, hplaces, List.countP_cons_of_pos (by simp [heq])] at hle
      omega
    refine ⟨?_, hfe⟩
    obtain ⟨entry, rest, rfl⟩ := List.exists_cons_of_ne_nil hnonempty
    have hle := hrespects entry (by simp)
    rw [← List.nil_append (entry :: rest)] at hdistinct hplaces
    rw [hzero, processes_eq hdistinct hplaces] at hle
    simp [takes, offered] at hle
    omega
  · rintro ⟨rfl, hfe⟩ entry hentry
    have hne : entry.1 ≠ feHost := fun heq => hfe (List.mem_map.mpr ⟨entry, hentry, heq⟩)
    simp [processes, hplaces, hne.symm]

/-- The front-end host is crowded if it has room for the root only and is used all the same. -/
theorem respects_iff (hspec : parseSpec spec = some fanouts) {b : BalancedTree}
    (h : Returns (create address fe spec (.single hosts limit)) (some b))
    (hdistinct : (hosts.map Prod.fst).Nodup) (hcounts : ∀ entry ∈ hosts, entry.2 ≠ 0) :
    Respects limit hosts b ↔ Spacious fe.host limit hosts (total (levelSizes 1 fanouts)) := by
  obtain ⟨hne, henough, -, hlevels⟩ := of_returns hspec h
  have hplaces : b.nodesByLevel.flatten = (fe.host, 0) ::
      (offered limit hosts (.start fe.host)).take (total (levelSizes 1 fanouts)) := by
    rw [hlevels, List.flatten_cons, flatten_places hne henough, List.singleton_append]
  have hnonempty : hosts ≠ [] := fun hnil => henough ⟨hne, .inl hnil⟩
  generalize total (levelSizes 1 fanouts) = nodes at hplaces ⊢
  by_cases hlimit : limit = 0
  · subst hlimit
    rw [respects_zero hnonempty hdistinct hplaces]
    simp [Spacious]
  · rw [Spacious, and_iff_right fun h => absurd h hlimit]
    simp only [ne_eq, hlimit, not_false_eq_true, forall_const, Respects]
    refine forall₂_congr fun entry hentry => ?_
    obtain ⟨before, behind, rfl⟩ := List.append_of_mem hentry
    have hcount := processes_eq hdistinct hplaces
    have hpos := capacity_pos hlimit (hcounts entry hentry)
    by_cases heq : entry.1 = fe.host
    · have hout : entry.1 ∉ before.map Prod.fst := by
        rw [List.map_append, List.map_cons, List.nodup_middle, List.nodup_cons] at hdistinct
        exact fun hmem => hdistinct.1 (List.mem_append_left _ hmem)
      have hbefore : ∀ e ∈ before, e.1 ≠ fe.host :=
        fun e he hfe => hout (List.mem_map.mpr ⟨e, he, hfe.trans heq.symm⟩)
      have hroom : (before ++ entry :: behind).takeWhile (·.1 ≠ fe.host) = before := by
        rw [List.takeWhile_append_of_pos fun e he => decide_eq_true (hbefore e he)]
        simp [heq]
      have hlength : (offered limit before (.start fe.host)).length =
          (before.map (capacity limit)).sum := by
        rw [List.map_append] at hdistinct
        exact length_offered hdistinct.of_append_left hlimit
          (fun e he => hcounts e (List.mem_append_left _ he)) hbefore
      rw [hcount, if_pos heq.symm, takes_root heq, hroom, hlength]
      simp only [heq, forall_const]
      omega
    · rw [hcount, if_neg (Ne.symm heq), takes_start heq]
      simp only [heq, false_implies, iff_true]
      omega

theorem respects_iff_two : ∃ b, Returns (create (fun _ => 0) (⟨['f', 'e'], by decide⟩ : FrontEnd 64)
      ['2'] (.single [(['a'], 2)] 2)) (some b) ∧
    (Respects 2 [(['a'], 2)] b ↔
      Spacious ['f', 'e'] 2 [(['a'], 2)] (total (levelSizes 1 [2]))) := by
  have hspec : parseSpec ['2'] = some [2] := by decide
  have henough : ¬(HostLists.single [(['a'], 2)] 2).Shortage ['f', 'e'] [2] := by
    simp only [HostLists.Shortage, HostLists.Lacking, not_and, not_or, not_lt]
    exact fun _ => ⟨by decide, by decide, by decide⟩
  obtain ⟨-, b, hb, -⟩ := create_returns hspec (⟨['f', 'e'], by decide⟩ : FrontEnd 64)
    (fun _ => 0) (by decide) henough (by simp [Small, products])
  exact ⟨b, hb, respects_iff hspec hb (by decide) (by decide)⟩

/-- The front-end host is listed for one process and has two. -/
theorem create_not_respects : ∃ b, Returns (create (fun _ => 0)
      (⟨['f', 'e'], by decide⟩ : FrontEnd 64) ['2'] (.single [(['f', 'e'], 1), (['a'], 1)] 1))
        (some b) ∧ b.valid = true ∧ ¬Respects 1 [(['f', 'e'], 1), (['a'], 1)] b := by
  have hspec : parseSpec ['2'] = some [2] := by decide
  have henough : ¬(HostLists.single [(['f', 'e'], 1), (['a'], 1)] 1).Shortage ['f', 'e'] [2] := by
    simp only [HostLists.Shortage, HostLists.Lacking, not_and, not_or, not_lt]
    exact fun _ => ⟨by decide, by decide, by decide⟩
  have hsmall : Small 1 [2] := by simp [Small, products]
  obtain ⟨-, b, hb, hlevels, -, -, hvalid⟩ :=
    create_returns hspec (⟨['f', 'e'], by decide⟩ : FrontEnd 64) (fun _ => 0) (by decide) henough
      hsmall
  refine ⟨b, hb, hvalid.mpr ?_, fun hrespects => ?_⟩
  · exact not_noticed (levels_fanned (by decide) henough hsmall) levels_head (by decide) (by decide)
  · have hle := hrespects (['f', 'e'], 1) (by decide)
    rw [processes, hlevels] at hle
    revert hle
    decide

end BalancedTree

end MRNet.TopologyFile
