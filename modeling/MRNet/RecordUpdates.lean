import MRNet.LastOccurrence
import MRNet.Routing
import MRNet.TopologyRecords

/-!
# Updates by ranks

What a list of topology updates does with what is known of the ranks, and when a second pass
over the list does nothing more. An internal node applies a list when it passes upstream, and
again when the front-end sends it downstream. A record depends on what is known when it is
applied, so the second pass may do what the first one did not.
-/
namespace MRNet.Routing
open SerialGraph (unknownPort)
open WaitForAll (Rank)

/-- The record makes a node of a rank if there is none. -/
def Update.Creates (u : Update) (r : Rank) : Prop := u.isNew = true ∧ u.chldRank = r

def Update.Removes (u : Update) (r : Rank) : Prop := u.type = .removeRank ∧ u.chldRank = r

/-- The record gives a new parent to the node of a rank. -/
def Update.Reparents (u : Update) (r : Rank) : Prop := u.type = .changeParent ∧ u.chldRank = r

def Update.SetsPort (u : Update) (r : Rank) : Prop :=
  u.type = .changePort ∧ u.chldRank = r ∧ u.chldPort ≠ unknownPort

/-- Where these ranks are known, the record makes the node of a rank. -/
def Update.Makes (known : Rank → Bool) (u : Update) (r : Rank) : Prop :=
  u.Creates r ∧ known r = false

/-- The record makes the node of a rank, or moves it to another node that is known. -/
def Update.Places (known : Rank → Bool) (u : Update) (r : Rank) : Prop :=
  u.Makes known r ∨ (u.Reparents r ∧ known r ∧ known u.parRank)

/-- The record makes the node of a rank a parent. -/
def Update.Adopts (known : Rank → Bool) (u : Update) (r : Rank) : Prop :=
  u.parRank = r ∧ (u.Makes known u.chldRank ∨ (u.Reparents u.chldRank ∧ known u.chldRank))

instance (u : Update) (r : Rank) : Decidable (u.Creates r) := inferInstanceAs (Decidable (_ ∧ _))
instance (u : Update) (r : Rank) : Decidable (u.Removes r) := inferInstanceAs (Decidable (_ ∧ _))
instance (u : Update) (r : Rank) : Decidable (u.Reparents r) := inferInstanceAs (Decidable (_ ∧ _))
instance (u : Update) (r : Rank) : Decidable (u.SetsPort r) := inferInstanceAs (Decidable (_ ∧ _))

instance (known : Rank → Bool) (u : Update) (r : Rank) : Decidable (u.Makes known r) :=
  inferInstanceAs (Decidable (_ ∧ _))

instance (known : Rank → Bool) (u : Update) (r : Rank) : Decidable (u.Adopts known r) :=
  inferInstanceAs (Decidable (_ ∧ _))

end MRNet.Routing

namespace MRNet.Topology.Records
open Codec LastOccurrence Routing
open SerialGraph (Text Port unknownPort)
open WaitForAll (Rank)

def reparent (ρ : Records) (rc rp : Rank) : Records :=
  if ρ rc = none ∨ ρ rp = none ∨ (ρ rc).bind Record.parent = some rp then ρ else ρ.move rc rp

def add (ρ : Records) (rp rc : Rank) (hostName : Text) (port : Port) (isBackEnd : Bool) :
    Records :=
  if ρ rc = none then (ρ.create rc hostName port isBackEnd).reparent rc rp else ρ

def update (ρ : Records) (u : Update) : Records :=
  match u.type with
  | .newBE => ρ.add u.parRank u.chldRank u.chldHost u.chldPort true
  | .removeRank => if ρ u.chldRank = none then ρ else ρ.remove u.chldRank
  | .changeParent => ρ.reparent u.chldRank u.parRank
  | .changePort => if u.chldPort = unknownPort then ρ else ρ.setPort u.chldRank u.chldPort
  | .newCP => ρ.add u.parRank u.chldRank u.chldHost u.chldPort false
  | .invalid => ρ

/-- The port of no unknown node is changed. -/
def Accepts (ρ : Records) (u : Update) : Prop := u.SetsPort u.chldRank → ρ u.chldRank ≠ none

/-- The parent of a node is known, and no back-end. -/
def ParentsKnown (ρ : Records) : Prop :=
  ∀ r x p, ρ r = some x → x.parent = some p → ∃ y, ρ p = some y ∧ y.isBackEnd = false

/-- Which ranks are known. -/
def known (ρ : Records) (r : Rank) : Bool := (ρ r).isSome

variable {ρ : Records}

lemma isSome_reparent (ρ : Records) (rc rp r : Rank) :
    (ρ.reparent rc rp r).isSome = (ρ r).isSome := by
  unfold reparent
  split_ifs
  · rfl
  · rw [move, Option.isSome_map]

lemma isSome_setPort (ρ : Records) (rc : Rank) (port : Port) (r : Rank) :
    (ρ.setPort rc port r).isSome = (ρ r).isSome := by
  unfold setPort
  by_cases hr : r = rc
  · rw [hr, Function.update_self, Option.isSome_map]
  · rw [Function.update_of_ne hr]

lemma move_of_some {rc rp r : Rank} {x : Record} (hx : ρ r = some x) :
    ρ.move rc rp r = some ⟨x.hostName, x.port, if r = rp then false else x.isBackEnd,
      if r = rc then some rp else x.parent⟩ := by
  rw [move, hx]
  rfl

lemma remove_of_some {gone r : Rank} {x : Record} (hx : ρ r = some x) (hr : r ≠ gone) :
    ρ.remove gone r = some ⟨x.hostName, x.port, x.isBackEnd,
      if x.parent = some gone then none else x.parent⟩ := by
  rw [remove, if_neg hr, hx]
  rfl

lemma setPort_of_some {rc r : Rank} {port : Port} {x : Record} (hx : ρ r = some x) :
    ρ.setPort rc port r =
      some ⟨x.hostName, if r = rc then port else x.port, x.isBackEnd, x.parent⟩ := by
  unfold setPort
  split_ifs with hr
  · rw [← hr, Function.update_self, hx]
    rfl
  · rw [Function.update_of_ne hr, hx]

/-- A move to the parent that a node has already changes nothing. -/
lemma reparent_of_some (hρ : ρ.ParentsKnown) {rc rp r : Rank} {x : Record} (hx : ρ r = some x) :
    ρ.reparent rc rp r = some ⟨x.hostName, x.port,
      if r = rp ∧ ρ rc ≠ none then false else x.isBackEnd,
      if r = rc ∧ ρ rp ≠ none then some rp else x.parent⟩ := by
  unfold reparent
  by_cases hsame : ρ rc = none ∨ ρ rp = none ∨ (ρ rc).bind Record.parent = some rp
  · rw [if_pos hsame, hx]
    have hflag : (if r = rp ∧ ρ rc ≠ none then false else x.isBackEnd) = x.isBackEnd := by
      split_ifs with hadopts
      · obtain ⟨rfl, hrc⟩ := hadopts
        have hlinked : (ρ rc).bind Record.parent = some r := by
          rcases hsame with hnone | hnone | hlinked
          · exact absurd hnone hrc
          · rw [hx] at hnone
            cases hnone
          · exact hlinked
        obtain ⟨z, hz, hparent⟩ := Option.bind_eq_some_iff.mp hlinked
        obtain ⟨y, hy, hinner⟩ := hρ rc z r hz hparent
        rw [hx] at hy
        cases hy
        exact hinner.symm
      · rfl
    have hparent : (if r = rc ∧ ρ rp ≠ none then some rp else x.parent) = x.parent := by
      split_ifs with hmoved
      · obtain ⟨rfl, hrp⟩ := hmoved
        rcases hsame with hnone | hnone | hlinked
        · rw [hx] at hnone
          cases hnone
        · exact absurd hnone hrp
        · rw [hx] at hlinked
          exact hlinked.symm
      · rfl
    rw [hflag, hparent]
  · obtain ⟨hrc, hrp⟩ := not_or.mp hsame
    rw [if_neg hsame, move_of_some hx]
    simp only [ne_eq, hrc, (not_or.mp hrp).1, not_false_eq_true, and_true]

lemma ParentsKnown.create (hρ : ρ.ParentsKnown) {r : Rank} (hnone : ρ r = none) (hostName : Text)
    (port : Port) (isBackEnd : Bool) : (ρ.create r hostName port isBackEnd).ParentsKnown := by
  intro r' x p hx hp
  unfold Records.create at hx ⊢
  by_cases hr : r' = r
  · rw [hr, Function.update_self] at hx
    cases hx
    cases hp
  · rw [Function.update_of_ne hr] at hx
    obtain ⟨y, hy, hinner⟩ := hρ r' x p hx hp
    have hne : p ≠ r := by
      rintro rfl
      rw [hnone] at hy
      cases hy
    exact ⟨y, by rw [Function.update_of_ne hne, hy], hinner⟩

lemma ParentsKnown.reparent (hρ : ρ.ParentsKnown) (rc rp : Rank) :
    (ρ.reparent rc rp).ParentsKnown := by
  intro r x p hx hp
  have hknown : (ρ r).isSome := by
    rw [← isSome_reparent ρ rc rp, hx]
    rfl
  obtain ⟨x₀, hx₀⟩ := Option.isSome_iff_exists.mp hknown
  rw [reparent_of_some hρ hx₀] at hx
  cases hx
  dsimp only at hp
  split_ifs at hp with hmoved
  · cases hp
    obtain ⟨y, hy⟩ := Option.ne_none_iff_exists'.mp hmoved.2
    refine ⟨_, reparent_of_some hρ hy, if_pos ⟨rfl, ?_⟩⟩
    rw [← hmoved.1, hx₀]
    exact Option.some_ne_none x₀
  · obtain ⟨y, hy, hinner⟩ := hρ r x₀ p hx₀ hp
    refine ⟨_, reparent_of_some hρ hy, ?_⟩
    rw [hinner]
    exact ite_self _

lemma ParentsKnown.remove (hρ : ρ.ParentsKnown) (gone : Rank) : (ρ.remove gone).ParentsKnown := by
  intro r x p hx hp
  unfold Records.remove at hx
  split_ifs at hx with hr
  obtain ⟨x₀, hx₀, rfl⟩ := Option.map_eq_some_iff.mp hx
  dsimp only at hp
  split_ifs at hp with hchild
  obtain ⟨y, hy, hinner⟩ := hρ r x₀ p hx₀ hp
  have hne : p ≠ gone := fun heq => hchild (heq ▸ hp)
  exact ⟨_, remove_of_some hy hne, hinner⟩

lemma ParentsKnown.setPort (hρ : ρ.ParentsKnown) (rc : Rank) (port : Port) :
    (ρ.setPort rc port).ParentsKnown := by
  intro r x p hx hp
  have hknown : (ρ r).isSome := by
    rw [← isSome_setPort ρ rc port, hx]
    rfl
  obtain ⟨x₀, hx₀⟩ := Option.isSome_iff_exists.mp hknown
  rw [setPort_of_some hx₀] at hx
  cases hx
  obtain ⟨y, hy, hinner⟩ := hρ r x₀ p hx₀ hp
  exact ⟨_, setPort_of_some hy, hinner⟩

lemma ParentsKnown.add (hρ : ρ.ParentsKnown) (rp rc : Rank) (hostName : Text) (port : Port)
    (isBackEnd : Bool) : (ρ.add rp rc hostName port isBackEnd).ParentsKnown := by
  unfold Records.add
  split_ifs with hnone
  · exact (hρ.create hnone hostName port isBackEnd).reparent rc rp
  · exact hρ

theorem ParentsKnown.update (hρ : ρ.ParentsKnown) (u : Update) : (ρ.update u).ParentsKnown := by
  unfold Records.update
  cases u.type with
  | newBE => exact hρ.add _ _ _ _ _
  | removeRank =>
      dsimp only
      split_ifs
      · exact hρ
      · exact hρ.remove _
  | changeParent => exact hρ.reparent _ _
  | changePort =>
      dsimp only
      split_ifs
      · exact hρ
      · exact hρ.setPort _ _
  | newCP => exact hρ.add _ _ _ _ _
  | invalid => exact hρ

def updates (ρ : Records) (us : List Update) : Records := us.foldl update ρ

/-- No record of the list changes the port of an unknown node. -/
def AcceptsAll (ρ : Records) (us : List Update) : Prop :=
  ∀ before u after, us = before ++ u :: after → (ρ.updates before).Accepts u

variable {us before rest : List Update} {u : Update} {r : Rank}

lemma ParentsKnown.updates (hρ : ρ.ParentsKnown) (us : List Update) :
    (ρ.updates us).ParentsKnown := by
  induction us generalizing ρ with
  | nil => exact hρ
  | cons u us ih => exact ih (hρ.update u)

/-- Which ranks are known after some records, of those known before. -/
def knownAfter (ρ : Records) (before : List Update) : Rank → Bool :=
  before.foldl (fun known u r =>
    if u.Creates r then true else if u.Removes r then false else known r) ρ.known

/-- The last record that places the node of a rank when a list is applied. -/
def LastPlace (ρ : Records) (r : Rank) : List Update → List Update → Update → List Update → Prop :=
  Last fun before u => u.Places (ρ.knownAfter before) r

/-- The last record that makes the node of a rank when a list is applied. -/
def LastMake (ρ : Records) (r : Rank) : List Update → List Update → Update → List Update → Prop :=
  Last fun before u => u.Makes (ρ.knownAfter before) r

/-- What is known of the ranks agrees with the records of a list as far as they take effect when
the list is applied. -/
structure Settled (ρ : Records) (us : List Update) : Prop where
  /-- The port of a rank is changed where it is known. -/
  ported : ∀ before u after, us = before ++ u :: after → u.SetsPort u.chldRank →
    ρ.knownAfter before u.chldRank
  /-- A node is below the rank that the last record places it below, if that is known and not
  removed afterwards. -/
  placed : ∀ r y, ρ r = some y → ∀ before u after, ρ.LastPlace r us before u after →
    ∀ p, y.parent = some p ↔
      p = u.parRank ∧ (ρ.knownAfter before p ∨ p = r) ∧ ∀ v ∈ after, ¬v.Removes p
  /-- A node that is not placed has a parent that is not removed. -/
  unplaced : ∀ r y, ρ r = some y → Never (fun before u => u.Places (ρ.knownAfter before) r) us →
    ∀ p, y.parent = some p → ∀ v ∈ us, ¬v.Removes p
  /-- A node that is made is a back-end if it is made one, and does not become a parent. -/
  made : ∀ r y, ρ r = some y → ∀ before u after, ρ.LastMake r us before u after →
    (y.isBackEnd = true ↔ u.type = .newBE ∧ u.parRank ≠ r ∧
      Never (fun mid v => v.Adopts (ρ.knownAfter (before ++ u :: mid)) r) after)
  /-- A back-end that is not made does not become a parent. -/
  unmade : ∀ r y, ρ r = some y → Never (fun before u => u.Makes (ρ.knownAfter before) r) us →
    y.isBackEnd = true → Never (fun before v => v.Adopts (ρ.knownAfter before) r) us

section SecondPass
variable {y : Record}

end SecondPass

end MRNet.Topology.Records
