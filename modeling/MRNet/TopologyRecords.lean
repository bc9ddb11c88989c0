import MRNet.TopologyObjects

/-!
# A topology by ranks

What a topology says of every rank, without the objects that hold it: the place of the node,
whether it is a back-end, and the rank of its parent. The operations on the objects are
operations on these records.
-/
namespace MRNet.Topology
open Codec Relation
open SerialGraph (Text Port)
open WaitForAll (Rank)

/-- What is known of the node of a rank. -/
@[ext]
structure Record where
  hostName : Text
  port : Port
  isBackEnd : Bool
  parent : Option Rank
  deriving DecidableEq

abbrev Records := Rank → Option Record

namespace Records

/-- A node without a parent. -/
def create (ρ : Records) (r : Rank) (hostName : Text) (port : Port) (isBackEnd : Bool) : Records :=
  Function.update ρ r (some ⟨hostName, port, isBackEnd, none⟩)

/-- The node `rc` becomes a child of `rp`, which is no back-end from then on. -/
def move (ρ : Records) (rc rp : Rank) : Records := fun r =>
  (ρ r).map fun x =>
    { x with
      isBackEnd := if r = rp then false else x.isBackEnd
      parent := if r = rc then some rp else x.parent }

/-- The node is gone, and its children have no parent. -/
def remove (ρ : Records) (gone : Rank) : Records := fun r =>
  if r = gone then none
  else (ρ r).map fun x => { x with parent := if x.parent = some gone then none else x.parent }

def setPort (ρ : Records) (r : Rank) (port : Port) : Records :=
  Function.update ρ r ((ρ r).map fun x => { x with port := port })

end Records

namespace NetworkTopology

def recordOf (t : NetworkTopology) (p : Ptr) : Option Record :=
  (t.heap.lookup p).map fun node =>
    ⟨node.hostName, node.port, node.isBackEnd, node.parent.bind t.rankOf⟩

def record (t : NetworkTopology) : Records := fun r => (t.findNode r).bind t.recordOf

end NetworkTopology

open NetworkTopology

variable {t t' : NetworkTopology}

lemma recordOf_eq (t : NetworkTopology) (p : Ptr) :
    t.recordOf p = (t.placeOf p).bind fun place => (t.flagOf p).map fun isBackEnd =>
      ⟨place.1, place.2, isBackEnd, (t.parentOf p).bind t.rankOf⟩ := by
  unfold recordOf placeOf flagOf view NetworkTopology.parentOf
  cases t.heap.lookup p <;> rfl

lemma recordOf_of_views {p : Ptr} {hostName : Text} {port : Port} {isBackEnd : Bool}
    (hplace : t.placeOf p = some (hostName, port)) (hflag : t.flagOf p = some isBackEnd) :
    t.recordOf p = some ⟨hostName, port, isBackEnd, (t.parentOf p).bind t.rankOf⟩ := by
  rw [recordOf_eq, hplace, hflag]
  rfl

lemma record_of_found {r : Rank} {p : Ptr} (h : t.findNode r = some p) :
    t.record r = t.recordOf p := by
  rw [record, h]
  rfl

lemma record_eq_none_iff (hlinks : Links t) (r : Rank) :
    t.record r = none ↔ t.findNode r = none := by
  cases hfound : t.findNode r with
  | none => simp [record, hfound]
  | some p =>
      have hlive := (hlinks.live_of_findNode hfound).1
      obtain ⟨node, hnode⟩ := deref_of_live hlive
      simp [record_of_found hfound, recordOf, deref_ok_iff.mp hnode]

lemma record_congr (hheap : t'.heap = t.heap) (hnodes : t'.nodes = t.nodes) :
    t'.record = t.record := by
  ext1 r
  unfold record findNode recordOf
  rw [hheap, hnodes, rankOf_congr hheap]

/-- Ranks tell the nodes apart. -/
lemma Links.findNode_inj (h : Links t) {r r' : Rank} {p : Ptr} (hr : t.findNode r = some p)
    (hr' : t.findNode r' = some p) : r = r' := by
  have hrank := (h.live_of_findNode hr).2
  rw [(h.live_of_findNode hr').2] at hrank
  exact (Option.some_inj.mp hrank).symm

/-- The rank of the parent of a node. -/
lemma parent_rank (h : Links t) {p : Ptr} {r : Rank} (hr : t.rankOf p = some r) (q : Ptr) :
    (t.parentOf q).bind t.rankOf = some r ↔ t.parentOf q = some p := by
  constructor
  · intro hparent
    obtain ⟨p', hp', hrank⟩ := Option.bind_eq_some_iff.mp hparent
    have hp : p' = p := by
      have hsame := (h.keyed r p').mpr hrank
      rw [(h.keyed r p).mpr hr] at hsame
      exact (Option.some_inj.mp hsame).symm
    rw [hp', hp]
  · intro hparent
    rw [hparent]
    exact hr

lemma views_of_live {q : Ptr} (h : t.Live q) :
    ∃ hostName port isBackEnd, t.placeOf q = some (hostName, port) ∧
      t.flagOf q = some isBackEnd := by
  obtain ⟨node, hnode⟩ := deref_of_live h
  exact ⟨_, _, _, view_of_lookup _ (deref_ok_iff.mp hnode),
    view_of_lookup _ (deref_ok_iff.mp hnode)⟩

lemma Links.findNode_eq_iff (h : Links t) {r r' : Rank} {p p' : Ptr} (hr : t.findNode r = some p)
    (hr' : t.findNode r' = some p') : p = p' ↔ r = r' := by
  constructor
  · rintro rfl
    exact h.findNode_inj hr hr'
  · rintro rfl
    exact Option.some_inj.mp (hr.symm.trans hr')

theorem record_moved (hlinks : Links t) {c p : Ptr} {rc rp : Rank} (hc : t.findNode rc = some c)
    (hp : t.findNode rp = some p) (hmoved : Moved t t' c p) (hobjects : MovedObjects t t' c p) :
    t'.record = t.record.move rc rp := by
  ext1 r
  have hfind : t'.findNode r = t.findNode r := by
    rw [findNode, hmoved.nodes]
    rfl
  cases hr : t.findNode r with
  | none => simp [record, Records.move, hfind, hr]
  | some q =>
      have hqc := hlinks.findNode_eq_iff hr hc
      have hqp := hlinks.findNode_eq_iff hr hp
      obtain ⟨hostName, port, isBackEnd, hplace, hflag⟩ :=
        views_of_live (hlinks.live_of_findNode hr).1
      have hplace' : t'.placeOf q = some (hostName, port) := by
        rw [hobjects.placeOf, hplace]
      have hflag' : t'.flagOf q = some (if r = rp then false else isBackEnd) := by
        simp only [hobjects.flagOf, hflag, hqp]
        split_ifs <;> rfl
      have hparent : (t'.parentOf q).bind t'.rankOf =
          if r = rc then some rp else (t.parentOf q).bind t.rankOf := by
        rw [hmoved.parentOf, hmoved.rankOf]
        split_ifs with hrc
        · rw [hqc.mpr hrc, Function.update_self]
          exact (hlinks.live_of_findNode hp).2
        · rw [Function.update_of_ne (mt hqc.mp hrc)]
      rw [Records.move, record_of_found (hfind.trans hr), record_of_found hr,
        recordOf_of_views hplace' hflag', recordOf_of_views hplace hflag, hparent]
      rfl

/-- Nothing is said of an address that is not in use. -/
lemma Links.parent_ne_nextPtr (h : Links t) {q : Ptr} : t.parentOf q ≠ some t.nextPtr :=
  fun hq => h.not_live_nextPtr (h.parent_live hq)

theorem record_created (hlinks : Links t) {r : Rank} {hostName : Text} {port : Port}
    {isBackEnd : Bool} (hcreated : Created t t' r)
    (hheap : t'.heap = (t.newObject (Node.create hostName port r isBackEnd)).heap) :
    t'.record = t.record.create r hostName port isBackEnd := by
  have hview : ∀ {α : Type} (g : Node → α), t'.view g =
      Function.update (t.view g) t.nextPtr (some (g (Node.create hostName port r isBackEnd))) := by
    intro α g
    rw [← newObject_view]
    exact view_congr g hheap
  ext1 r'
  have hfind : t'.findNode r' = if r' = r then some t.nextPtr else t.findNode r' := by
    rw [findNode, hcreated.nodes]
    split_ifs with heq
    · rw [heq, Finmap.lookup_insert]
    · rw [Finmap.lookup_insert_of_ne _ heq]
      rfl
  by_cases heq : r' = r
  · have hnone : t.parentOf t.nextPtr = none := by
      by_contra hsome
      obtain ⟨p, hp⟩ := Option.ne_none_iff_exists'.mp hsome
      exact hlinks.not_live_nextPtr (live_of_parentOf hp)
    rw [if_pos heq] at hfind
    have hplace : t'.placeOf t.nextPtr = some (hostName, port) := by
      rw [placeOf, hview, Function.update_self]
      rfl
    have hflag : t'.flagOf t.nextPtr = some isBackEnd := by
      rw [flagOf, hview, Function.update_self]
      rfl
    rw [Records.create, heq, Function.update_self, ← heq, record_of_found hfind,
      recordOf_of_views hplace hflag, hcreated.parentOf, hnone]
    rfl
  · rw [if_neg heq] at hfind
    rw [Records.create, Function.update_of_ne heq]
    cases hr : t.findNode r' with
    | none => simp [record, hfind, hr]
    | some q =>
        have hlive := (hlinks.live_of_findNode hr).1
        have hne : q ≠ t.nextPtr := fun h => hlinks.not_live_nextPtr (h ▸ hlive)
        have hrank : (t'.parentOf q).bind t'.rankOf = (t.parentOf q).bind t.rankOf := by
          rw [hcreated.parentOf, hcreated.rankOf]
          cases hparent : t.parentOf q with
          | none => rfl
          | some p =>
              have hp : p ≠ t.nextPtr := fun h => hlinks.parent_ne_nextPtr (h ▸ hparent)
              exact Function.update_of_ne hp _ _
        rw [record_of_found (hfind.trans hr), record_of_found hr, recordOf_eq, recordOf_eq, hrank,
          placeOf, flagOf, hview, hview, Function.update_of_ne hne, Function.update_of_ne hne]

theorem record_removed (hlinks : Links t) {p : Ptr} {r : Rank} (hp : t.findNode r = some p)
    (hremoved : Removed t t' p) (hobjects : RemovedObjects t t' p) :
    t'.record = t.record.remove r := by
  have hrank := (hlinks.live_of_findNode hp).2
  ext1 r'
  have hfind : t'.findNode r' = if r' = r then none else t.findNode r' := by
    rw [findNode, hremoved.nodes, hrank]
    simp only [Option.some_inj, eq_comm]
    rfl
  rw [Records.remove]
  by_cases heq : r' = r
  · rw [if_pos heq] at hfind
    rw [if_pos heq, record, hfind]
    rfl
  · rw [if_neg heq] at hfind
    rw [if_neg heq]
    cases hr : t.findNode r' with
    | none => simp [record, hfind, hr]
    | some q =>
        have hne : q ≠ p := mt (hlinks.findNode_eq_iff hr hp).mp heq
        obtain ⟨hostName, port, isBackEnd, hplace, hflag⟩ :=
          views_of_live (hlinks.live_of_findNode hr).1
        have hplace' : t'.placeOf q = some (hostName, port) := by
          rw [hobjects.placeOf, Function.update_of_ne hne, hplace]
        have hflag' : t'.flagOf q = some isBackEnd := by
          rw [hobjects.flagOf, Function.update_of_ne hne, hflag]
        have hparent : (t'.parentOf q).bind t'.rankOf =
            if (t.parentOf q).bind t.rankOf = some r then none
            else (t.parentOf q).bind t.rankOf := by
          have hiff := parent_rank hlinks hrank q
          rw [hremoved.parentOf, hremoved.rankOf]
          by_cases hchild : t.parentOf q = some p
          · rw [if_pos (.inr hchild), if_pos (hiff.mpr hchild)]
            rfl
          · rw [if_neg (not_or.mpr ⟨hne, hchild⟩), if_neg (mt hiff.mp hchild)]
            cases hq : t.parentOf q with
            | none => rfl
            | some o =>
                have ho : o ≠ p := fun h => hchild (h ▸ hq)
                exact Function.update_of_ne ho _ _
        rw [record_of_found (hfind.trans hr), record_of_found hr,
          recordOf_of_views hplace' hflag', recordOf_of_views hplace hflag, hparent]
        rfl

theorem newNode_record (hlinks : Links t) (hostName : Text) (port : Port) (r : Rank)
    (isBackEnd : Bool) :
    (t.newNode hostName port r isBackEnd).record = t.record.create r hostName port isBackEnd :=
  record_created hlinks (created_of_newObject hlinks hostName port r isBackEnd rfl rfl rfl rfl) rfl

/-- Nothing changes if a rank is unknown or the link is there already. -/
theorem setParent_record (hlinks : Links t) {rc rp : Rank} {res : Reparented}
    (h : t.setParent rc rp = .ok (t', res)) :
    (t' = t ∧ ∀ x, t.record rc = some x → t.record rp ≠ none → x.parent = some rp) ∨
      (t'.record = t.record.move rc rp ∧ ∃ x, t.record rc = some x ∧ t.record rp ≠ none ∧
        x.parent ≠ some rp) := by
  have hparent : ∀ {c p x}, t.findNode rc = some c → t.findNode rp = some p →
      t.record rc = some x → (x.parent = some rp ↔ t.parentOf c = some p) := by
    intro c p x hc hp hx
    rw [record_of_found hc, recordOf_eq] at hx
    obtain ⟨place, -, hx⟩ := Option.bind_eq_some_iff.mp hx
    obtain ⟨isBackEnd, -, rfl⟩ := Option.map_eq_some_iff.mp hx
    exact parent_rank hlinks (hlinks.live_of_findNode hp).2 c
  have hfound : ∀ {r}, t.record r ≠ none → ∃ p, t.findNode r = some p := by
    intro r hr
    rw [ne_eq, record_eq_none_iff hlinks] at hr
    exact Option.ne_none_iff_exists'.mp hr
  rcases setParent_cases hlinks h with ⟨rfl, hsame⟩ | ⟨c, p, hc, hp, hne, hmoved, hobjects⟩
  · refine .inl ⟨rfl, fun x hx hrp => ?_⟩
    obtain ⟨c, hc⟩ := hfound (Option.ne_none_iff_exists'.mpr ⟨x, hx⟩)
    obtain ⟨p, hp⟩ := hfound hrp
    exact (hparent hc hp hx).mpr (hsame c p hc hp)
  · obtain ⟨x, hx⟩ : ∃ x, t.record rc = some x := by
      apply Option.ne_none_iff_exists'.mp
      rw [ne_eq, record_eq_none_iff hlinks, hc]
      exact Option.some_ne_none c
    refine .inr ⟨record_moved hlinks hc hp hmoved hobjects, x, hx, ?_, ?_⟩
    · rw [ne_eq, record_eq_none_iff hlinks, hp]
      exact Option.some_ne_none p
    · rw [ne_eq, hparent hc hp hx]
      exact hne

end MRNet.Topology
