import MRNet.TreeBuild

/-!
# Process slots of hosts

The host lists of the tree generators, and the loop that takes the hosts one after the other
for the processes of a balanced tree. What the hosts offer is known before any process is
placed: a listed host is used at least once, and until its processes reach its count or the
limit.
-/
namespace MRNet.TopologyFile
open SerialGraph (Text)

/-- Hosts with the numbers of processes they are listed for. -/
abbrev HostList := List (Text × BitVec 32)

/-- `host_proc_counts`, zero for a host that was not entered. -/
abbrev HostProcCounts := Text → BitVec 32

/-- The root process runs on the front-end host. -/
def HostProcCounts.start (feHost : Text) : HostProcCounts :=
  fun host => if host = feHost then 1 else 0

/-- The hosts from `list_iter` on, and the processes placed so far. -/
structure Slots where
  hosts : HostList
  counts : HostProcCounts

/-- The place of one process. The limits are tested after it was placed. -/
def Slots.place (limit : BitVec 32) (s : Slots) : Option (Host × Slots) :=
  match s.hosts with
  | [] => none
  | (host, count) :: rest =>
      let cnt := s.counts host + 1
      some ((host, s.counts host),
        { hosts := if cnt ≥ limit ∨ cnt ≥ count then rest else s.hosts
          counts := Function.update s.counts host cnt })

/-- A number of places, and the slots behind them. -/
def Slots.placeAll (limit : BitVec 32) : ℕ → Slots → Option (List Host × Slots)
  | 0, s => some ([], s)
  | n + 1, s => do
      let (h, s) ← s.place limit
      let (hs, s) ← s.placeAll limit n
      return (h :: hs, s)

/-- The number of processes that a host is used for, after `first` were placed there. -/
def takes (bound first : BitVec 32) : ℕ :=
  bound.toNat - (first + 1).toNat + 1

/-- The slots that a host offers. -/
def hostSlots (host : Text) (first : BitVec 32) (n : ℕ) : List Host :=
  (List.range n).map fun i => (host, first + BitVec.ofNat 32 i)

def offered (limit : BitVec 32) : HostList → HostProcCounts → List Host
  | [], _ => []
  | (host, count) :: rest, counts =>
      let n := takes (min limit count) (counts host)
      hostSlots host (counts host) n ++
        offered limit rest (Function.update counts host (counts host + BitVec.ofNat 32 n))

def Slots.offered (limit : BitVec 32) (s : Slots) : List Host :=
  TopologyFile.offered limit s.hosts s.counts

variable {limit bound first : BitVec 32} {s s' : Slots}

/-- One process less is left for the host. -/
lemma takes_succ (h : ¬first + 1 ≥ bound) : takes bound first = takes bound (first + 1) + 1 := by
  have hlt : (first + 1).toNat < bound.toNat := BitVec.lt_def.mp (not_le.mp h)
  have hnext : (first + 1 + 1).toNat = (first + 1).toNat + 1 := by
    have hbound := bound.isLt
    have hone : (1 : BitVec 32).toNat = 1 := rfl
    rw [BitVec.toNat_add, hone]
    exact Nat.mod_eq_of_lt (by omega)
  unfold takes
  omega

lemma takes_eq_one (h : first + 1 ≥ bound) : takes bound first = 1 := by
  have hle : bound.toNat ≤ (first + 1).toNat := BitVec.le_def.mp h
  unfold takes
  omega

lemma hostSlots_succ (host : Text) (first : BitVec 32) (n : ℕ) :
    hostSlots host first (n + 1) = (host, first) :: hostSlots host (first + 1) n := by
  simp only [hostSlots, List.range_succ_eq_map, List.map_cons, List.map_map]
  congr 1
  · simp
  · refine List.map_congr_left fun i _ => ?_
    simp only [Function.comp_apply, Prod.mk.injEq, true_and]
    rw [Nat.succ_eq_add_one, Nat.add_comm, BitVec.ofNat_add, BitVec.add_assoc]
    rfl

/-- A place is the first slot that is offered. -/
lemma offered_place {h : Host} (hplace : s.place limit = some (h, s')) :
    s.offered limit = h :: s'.offered limit := by
  obtain ⟨hosts, counts⟩ := s
  cases hosts with
  | nil => cases hplace
  | cons entry rest =>
      obtain ⟨host, count⟩ := entry
      cases hplace
      simp only [Slots.offered, offered]
      have hstop : counts host + 1 ≥ limit ∨ counts host + 1 ≥ count ↔
          counts host + 1 ≥ min limit count := min_le_iff.symm
      by_cases hend : counts host + 1 ≥ min limit count
      · rw [if_pos (hstop.mpr hend)]
        rw [takes_eq_one hend]
        simp [hostSlots]
      · rw [if_neg (hstop.not.mpr hend), takes_succ hend, hostSlots_succ, offered]
        simp [Function.update_idem, BitVec.add_assoc, ← BitVec.ofNat_add, Nat.add_comm]

lemma place_eq_none (h : s.place limit = none) : s.offered limit = [] := by
  obtain ⟨hosts, counts⟩ := s
  cases hosts with
  | nil => rfl
  | cons entry rest => cases h

/-- The slots behind a number of places. -/
def Slots.skip (limit : BitVec 32) : ℕ → Slots → Slots
  | 0, s => s
  | n + 1, s =>
      match s.place limit with
      | none => s
      | some (_, s) => s.skip limit n

lemma offered_skip {n : ℕ} (hn : n ≤ (s.offered limit).length) :
    (s.skip limit n).offered limit = (s.offered limit).drop n := by
  induction n generalizing s with
  | zero => rfl
  | succ n ih =>
      cases hplace : s.place limit with
      | none =>
          rw [place_eq_none hplace] at hn
          cases hn
      | some next =>
          obtain ⟨h, s₁⟩ := next
          rw [offered_place hplace, List.length_cons] at hn
          rw [Slots.skip, hplace, offered_place hplace, List.drop_succ_cons]
          exact ih (by omega)

lemma skip_add {n k : ℕ} : s.skip limit (n + k) = (s.skip limit n).skip limit k := by
  induction n generalizing s with
  | zero => rw [Nat.zero_add, Slots.skip]
  | succ n ih =>
      rw [Nat.succ_add, Slots.skip, Slots.skip]
      cases hplace : s.place limit with
      | none => cases k <;> simp [Slots.skip, hplace]
      | some next => exact ih

/-- The places are the first slots that are offered, if there are enough of them. -/
theorem placeAll_eq (limit : BitVec 32) (n : ℕ) (s : Slots) : s.placeAll limit n =
    if n ≤ (s.offered limit).length then some ((s.offered limit).take n, s.skip limit n)
    else none := by
  induction n generalizing s with
  | zero => simp [Slots.placeAll, Slots.skip]
  | succ n ih =>
      cases hplace : s.place limit with
      | none => simp [Slots.placeAll, hplace, place_eq_none hplace]
      | some next =>
          obtain ⟨h, s₁⟩ := next
          simp only [Slots.placeAll, hplace, Option.bind_eq_bind, Option.bind_some, ih s₁,
            offered_place hplace, Slots.skip, List.length_cons, List.take_succ_cons,
            Nat.add_le_add_iff_right]
          split_ifs <;> rfl

end MRNet.TopologyFile
