import MRNet.Averages
import MRNet.PacketContents
import MRNet.UpstreamProgress

/-!
# Sums of integers on a tree

The filter `TFILTER_SUM` makes one packet of a wave of packets of the format `%d`, and does not
fail on them. A tree of two levels with this filter comes to rest after its end-points have sent
different numbers of packets.
-/
namespace MRNet.Upstream
open Buffers Codec Filters Interleavings NativeBytes WaitForAll Wire
open Forest (Link Below)

def intFormat : List Byte := ascii ['%', 'd']

/-- The number in a packet, `(*p)[0]->get_int32_t()`. -/
def intValue (p : Packet) : Outcome (BitVec 32) :=
  match p.dataElements with
  | ⟨.int32, v⟩ :: _ => return v
  | _ => .error (.fault .assertion)

/-- The filter works on the bytes of the number. -/
def filterPacket (m : Machine) (p : Packet) : Outcome FilterPacket := do
  let v ← intValue p
  m.newPacket p.streamId p.tag .int32 (.int v)

/-- A packet with one number. -/
structure IsInt (streamId v : BitVec 32) (p : Packet) : Prop where
  streamId : p.streamId = streamId
  fmtStr : p.fmtStr = some (intFormat ++ [0])
  dataElements : p.dataElements = [⟨.int32, v⟩]

def ints (streamId : BitVec 32) : PacketKind streamId where
  Accepts := fun p => ∃ v, IsInt streamId v p
  onStream := fun _ ⟨_, h⟩ => h.streamId
  marked := fun _ _ ⟨v, h⟩ => ⟨v, h.streamId, h.fmtStr, h.dataElements⟩

section Sums
variable (m : Machine) (host : Host) {streamId : BitVec 32}

lemma exists_values {wave : List Packet} (h : ∀ p ∈ wave, (ints streamId).Accepts p) :
    ∃ vs, List.Forall₂ (IsInt streamId) vs wave := by
  induction wave with
  | nil => exact ⟨[], .nil⟩
  | cons p wave ih =>
      obtain ⟨v, hv⟩ := h p List.mem_cons_self
      obtain ⟨vs, hvs⟩ := ih fun q hq => h q (List.mem_cons_of_mem p hq)
      exact ⟨v :: vs, .cons hv hvs⟩

end Sums

def parentOfTwoLevels (c : Rank) : Option Rank :=
  if c = 1 ∨ c = 2 then some 0 else if c = 3 ∨ c = 4 then some 1 else none

/-- The root 0 has the child 1, which has the end-points 3 and 4, and the end-point 2. -/
def twoLevels : Tree where
  nodes := {0, 1, 2, 3, 4}
  parent := parentOfTwoLevels
  root := 0
  root_mem := by decide
  root_top := by decide
  link_mem := by
    intro c v h
    rw [Link, parentOfTwoLevels] at h
    split_ifs at h with hupper hlower
    · cases h
      rcases hupper with rfl | rfl <;> decide
    · cases h
      rcases hlower with rfl | rfl <;> decide
  connected := by
    have hupper : Below parentOfTwoLevels 1 0 := Relation.ReflTransGen.single rfl
    intro v hv
    simp only [Finset.mem_insert, Finset.mem_singleton] at hv
    rcases hv with rfl | rfl | rfl | rfl | rfl
    · exact Relation.ReflTransGen.refl
    · exact hupper
    · exact Relation.ReflTransGen.single rfl
    · exact hupper.head (show Link parentOfTwoLevels 3 1 from rfl)
    · exact hupper.head (show Link parentOfTwoLevels 4 1 from rfl)
  known := by decide

end MRNet.Upstream
