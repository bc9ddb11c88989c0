import Mathlib.Data.List.Sort
import MRNet.Routing
import MRNet.Runs

/-!
# Receiving from any stream

Translation of the parts of `Network` that keep `_stream_iter`: streams are entered and
deleted, and `recv` looks for a packet from the stream where the last search ended. An entry
of the map is told apart by its place in memory. No place is used twice, so an iterator to an
erased entry designates nothing.
-/
namespace MRNet.AnonymousReceive
open Codec Wire
open Routing.Network (isUserStreamId)

/-- An entry of a `std::map` with what the buffer of its stream holds. -/
structure Entry (α : Type) where
  place : ℕ
  id : BitVec 32
  packets : List α
  deriving DecidableEq

/-- The maps are in the order of the ids. Without a value the iterator is at the end. -/
structure Network (α : Type) where
  streams : List (Entry α)
  internalStreams : List (Entry α)
  streamIter : Option ℕ
  nextPlace : ℕ

section Model
variable {α : Type}

/-- `map[iid] = stream` with an empty buffer; a place is taken if there is no entry. -/
def assign (place : ℕ) (iid : BitVec 32) (streams : List (Entry α)) : List (Entry α) :=
  if streams.any (·.id = iid) then
    streams.map fun e => if e.id = iid then { e with packets := [] } else e
  else streams.orderedInsert (fun a b => a.id ≤ b.id) ⟨place, iid, []⟩

namespace Network

def start : Network α := ⟨[], [], none, 0⟩

def begin (net : Network α) : Option ℕ := net.streams.head?.map Entry.place

def newStream (net : Network α) (iid : BitVec 32) : Network α :=
  let net := { net with nextPlace := net.nextPlace + 1 }
  if isUserStreamId iid then
    let net := { net with streams := assign (net.nextPlace - 1) iid net.streams }
    if net.streams.length = 1 then { net with streamIter := net.begin } else net
  else { net with internalStreams := assign (net.nextPlace - 1) iid net.internalStreams }

/-- The entries from `_stream_iter` to the end. -/
def fromIter (net : Network α) : List (Entry α) :=
  net.streams.dropWhile fun e => decide (net.streamIter ≠ some e.place)

/-- `_stream_iter++`, with a wrap at the end. -/
def advance (net : Network α) : Outcome (Network α) :=
  match net.fromIter with
  | [] => .error (.fault .readPast)
  | [_] => return { net with streamIter := net.begin }
  | _ :: next :: _ => return { net with streamIter := some next.place }

def deleteStream (net : Network α) (iid : BitVec 32) : Outcome (Network α) :=
  if isUserStreamId iid then
    match net.streams.find? (·.id = iid) with
    | none => return net
    | some iter => do
        let net ← if net.streamIter = some iter.place then net.advance else pure net
        return { net with streams := net.streams.filter (·.place ≠ iter.place) }
  else return { net with internalStreams := net.internalStreams.filter (·.id ≠ iid) }

/-- `add_IncomingPacket` of a stream. -/
def addIncomingPacket (net : Network α) (iid : BitVec 32) (ipacket : α) : Network α :=
  { net with streams := net.streams.map fun e =>
      if e.id = iid then { e with packets := e.packets ++ [ipacket] } else e }

/-- `get_IncomingPacket` of the stream of an entry. -/
def getIncomingPacket (net : Network α) (curStream : Entry α) : Option α × Network α :=
  (curStream.packets.head?, { net with streams := net.streams.map fun e =>
      if e.place = curStream.place then { e with packets := e.packets.tail } else e })

end Network

/-- What a search comes to, with the streams where it looked for a packet. -/
structure Scan (α : Type) where
  packet : Option α
  inspected : List (BitVec 32)
  net : Network α

/-- The loop of `recv` over the streams. -/
def scanLoop (startIter : Option ℕ) : ℕ → Network α → Run (Scan α)
  | 0, _ => ExceptT.mk none
  | fuel + 1, net =>
      match net.fromIter with
      | [] => throw (.fault .readPast)
      | curStream :: _ => do
          let (curPacket, net) := net.getIncomingPacket curStream
          let net ← (net.advance : Run (Network α))
          if net.streamIter ≠ startIter ∧ curPacket = none then do
            let s ← scanLoop startIter fuel net
            return { s with inspected := curStream.id :: s.inspected }
          else return ⟨curPacket, [curStream.id], net⟩

/-- Nothing is done if there are no streams. -/
def scan (fuel : ℕ) (net : Network α) : Run (Scan α) :=
  if net.streams = [] then return ⟨none, [], net⟩
  else scanLoop net.streamIter fuel net

end Model

variable {α : Type} {net net' : Network α}

namespace Network

/-- All entries once, from `_stream_iter` on and around. -/
def turn (net : Network α) : List (Entry α) :=
  net.fromIter ++ net.streams.takeWhile fun e => decide (net.streamIter ≠ some e.place)

/-- The iterator designates an entry, with these before it and those behind it. -/
structure At (net : Network α) (before : List (Entry α)) (e : Entry α)
    (behind : List (Entry α)) : Prop where
  streams_eq : net.streams = before ++ e :: behind
  iter_eq : net.streamIter = some e.place
  nodup : (net.streams.map Entry.place).Nodup

variable {before behind : List (Entry α)} {e : Entry α}

lemma At.ne (h : net.At before e behind) {x : Entry α} (hx : x ∈ before ∨ x ∈ behind) :
    x.place ≠ e.place := by
  have hnodup := h.nodup
  simp only [h.streams_eq, List.map_append, List.map_cons, List.nodup_append, List.nodup_cons,
    List.mem_cons, List.mem_map] at hnodup
  rcases hx with hx | hx
  · exact hnodup.2.2 x.place ⟨x, hx, rfl⟩ e.place (.inl rfl)
  · exact fun heq => hnodup.2.1.1 ⟨x, hx, heq⟩

lemma At.skips (h : net.At before e behind) :
    ∀ x ∈ before, decide (net.streamIter ≠ some x.place) = true := by
  intro x hx
  simpa [h.iter_eq] using (h.ne (.inl hx)).symm

lemma At.fromIter_eq (h : net.At before e behind) : net.fromIter = e :: behind := by
  rw [fromIter, h.streams_eq, List.dropWhile_append_of_pos h.skips]
  simp [h.iter_eq]

lemma At.turn_eq (h : net.At before e behind) : net.turn = e :: behind ++ before := by
  rw [turn, h.fromIter_eq, h.streams_eq, List.takeWhile_append_of_pos h.skips]
  simp [h.iter_eq]

/-- The next entry, in the order of the turn. -/
lemma At.advance (h : net.At before e behind) :
    ∃ before' e' behind', net.advance = .ok { net with streamIter := some e'.place } ∧
      At { net with streamIter := some e'.place } before' e' behind' ∧
      e' :: behind' ++ before' = behind ++ before ++ [e] := by
  rw [Network.advance, h.fromIter_eq]
  cases behind with
  | nil =>
      cases before with
      | nil => exact ⟨[], e, [], by simp [begin, h.streams_eq]; rfl, ⟨h.streams_eq, rfl, h.nodup⟩, rfl⟩
      | cons x before =>
          refine ⟨[], x, before ++ [e], by simp [begin, h.streams_eq]; rfl,
            ⟨by simp [h.streams_eq], rfl, h.nodup⟩, by simp⟩
  | cons x behind =>
      exact ⟨before ++ [e], x, behind, rfl, ⟨by simp [h.streams_eq], rfl, h.nodup⟩, by simp⟩

/-- The streams after a packet was taken from an entry. -/
def taken (net : Network α) (place : ℕ) : List (Entry α) :=
  net.streams.map fun x => if x.place = place then { x with packets := x.packets.tail } else x

lemma At.taken_eq (h : net.At before e behind) :
    net.taken e.place = before ++ { e with packets := e.packets.tail } :: behind := by
  have hother : ∀ x, x ∈ before ∨ x ∈ behind →
      (if x.place = e.place then { x with packets := x.packets.tail } else x) = x :=
    fun x hx => if_neg (h.ne hx)
  rw [taken, h.streams_eq, List.map_append, List.map_cons, if_pos rfl,
    List.map_congr_left fun x hx => hother x (.inl hx),
    List.map_congr_left fun x hx => hother x (.inr hx), List.map_id', List.map_id']

lemma At.taken_of_empty (h : net.At before e behind) (hempty : e.packets = []) :
    net.taken e.place = net.streams := by
  rw [h.taken_eq, h.streams_eq, hempty, List.tail_nil, ← hempty]

lemma At.taken (h : net.At before e behind) :
    At { net with streams := net.taken e.place } before { e with packets := e.packets.tail }
      behind := by
  refine ⟨h.taken_eq, h.iter_eq, ?_⟩
  have hnodup := h.nodup
  rw [h.streams_eq] at hnodup
  rw [h.taken_eq]
  simpa using hnodup

end Network

/-- What a search over some entries comes to: it ends at the first that holds a packet. -/
structure Searched (net : Network α) (entries : List (Entry α)) (s : Scan α) : Prop where
  found : ∀ p, s.packet = some p → ∃ empty e others,
    entries = empty ++ e :: others ∧ (∀ x ∈ empty, x.packets = []) ∧ e.packets.head? = some p ∧
      s.inspected = (empty ++ [e]).map Entry.id ∧ s.net.streams = net.taken e.place
  nothing : s.packet = none → (∀ x ∈ entries, x.packets = []) ∧
    s.inspected = entries.map Entry.id ∧ s.net.streams = net.streams
  designates : ∃ before e behind, s.net.At before e behind
  rest : s.net.internalStreams = net.internalStreams ∧ s.net.nextPlace = net.nextPlace

/-- One more entry without a packet was inspected before. -/
lemma Searched.cons {entries : List (Entry α)} {s : Scan α} {e : Entry α}
    (h : Searched net' entries s) (hsame : net' = { net with streamIter := net'.streamIter })
    (hempty : e.packets = []) :
    Searched net (e :: entries) { s with inspected := e.id :: s.inspected } := by
  rw [hsame] at h
  refine ⟨fun p hp => ?_, fun hp => ?_, h.designates, h.rest⟩
  · obtain ⟨empty, x, others, hsplit, hall, hhead, hinspected, hstreams⟩ := h.found p hp
    exact ⟨e :: empty, x, others, by rw [hsplit, List.cons_append],
      List.forall_mem_cons.mpr ⟨hempty, hall⟩, hhead,
      by rw [hinspected, List.cons_append, List.map_cons], hstreams⟩
  · obtain ⟨hall, hinspected, hstreams⟩ := h.nothing hp
    exact ⟨List.forall_mem_cons.mpr ⟨hempty, hall⟩, by rw [hinspected, List.map_cons], hstreams⟩

/-- One pass of the loop: the iterator is at the next entry of the turn. -/
lemma scanLoop_pass {before behind : List (Entry α)} {e : Entry α} (h : net.At before e behind) :
    ∃ before' e' behind',
      Network.At { net with streams := net.taken e.place, streamIter := some e'.place }
        before' e' behind' ∧
      e' :: behind' ++ before' = behind ++ before ++ [{ e with packets := e.packets.tail }] ∧
      ∀ fuel startIter, scanLoop startIter (fuel + 1) net =
        if some e'.place ≠ startIter ∧ e.packets.head? = none then do
          let s ← scanLoop startIter fuel
            { net with streams := net.taken e.place, streamIter := some e'.place }
          return { s with inspected := e.id :: s.inspected }
        else return ⟨e.packets.head?, [e.id],
          { net with streams := net.taken e.place, streamIter := some e'.place }⟩ := by
  obtain ⟨before', e', behind', hadvance, hat, hturn⟩ := h.taken.advance
  refine ⟨before', e', behind', hat, hturn, fun fuel startIter => ?_⟩
  rw [scanLoop, h.fromIter_eq]
  change (liftM (Network.advance { net with streams := net.taken e.place }) >>= _ : Run _) = _
  rw [hadvance]
  rfl

lemma Network.At.turn_nodup {before behind : List (Entry α)} {e : Entry α}
    (h : net.At before e behind) :
    ((e :: (behind ++ before)).map Entry.place).Nodup := by
  have hnodup := h.nodup
  rw [h.streams_eq] at hnodup
  refine (List.Perm.nodup_iff (List.Perm.map _ ?_)).mp hnodup
  exact List.perm_append_comm

/-- The search goes on over the rest of a turn: by induction on the entries to come, with the
entries that were inspected before in front of the start. -/
theorem scanLoop_searched {before behind todo past : List (Entry α)} {e : Entry α}
    (h : net.At before e behind) (hturn : behind ++ before = todo ++ past) :
    ∃ s, (∀ fuel > todo.length,
        scanLoop ((past ++ [e]).head?.map Entry.place) fuel net = pure s) ∧
      Searched net (e :: todo) s := by
  induction todo generalizing net before e behind past with
  | nil =>
      obtain ⟨before', e', behind', hat, hnext, hpass⟩ := scanLoop_pass h
      have hstart : (past ++ [e]).head?.map Entry.place = some e'.place := by
        rw [hturn] at hnext
        cases past <;> simp_all
      refine ⟨⟨e.packets.head?, [e.id], _⟩, fun fuel hfuel => ?_, fun p hp => ?_, fun hp => ?_,
        ⟨_, _, _, hat⟩, rfl, rfl⟩
      · obtain ⟨fuel, rfl⟩ : ∃ n, fuel = n + 1 := ⟨fuel - 1, by omega⟩
        rw [hpass, hstart, if_neg (by simp)]
      · exact ⟨[], e, [], rfl, by simp, hp, rfl, rfl⟩
      · have hempty : e.packets = [] := List.head?_eq_none_iff.mp hp
        exact ⟨by simpa using hempty, rfl, h.taken_of_empty hempty⟩
  | cons next todo ih =>
      obtain ⟨before', e', behind', hat, hnext, hpass⟩ := scanLoop_pass h
      cases hpackets : e.packets with
      | cons p ps =>
          refine ⟨⟨e.packets.head?, [e.id], _⟩, fun fuel hfuel => ?_, fun q hq => ?_,
            fun hq => ?_, ⟨_, _, _, hat⟩, rfl, rfl⟩
          · obtain ⟨fuel, rfl⟩ : ∃ n, fuel = n + 1 := ⟨fuel - 1, by omega⟩
            rw [hpass, if_neg (by simp [hpackets])]
          · exact ⟨[], e, _, rfl, by simp, hq, rfl, rfl⟩
          · simp [hpackets] at hq
      | nil =>
          have hnodup := h.turn_nodup
          rw [hturn] at hnodup hnext
          simp only [List.cons_append, List.cons.injEq] at hnext
          obtain ⟨rfl, hrest⟩ := hnext
          have hself : { e with packets := e.packets.tail } = e := by
            rw [hpackets, List.tail_nil, ← hpackets]
          have hstart : some e'.place ≠ (past ++ [e]).head?.map Entry.place := by
            intro heq
            rw [← List.head?_map] at heq
            have hmem := List.mem_of_head? heq.symm
            simp only [List.map_cons, List.map_append, List.cons_append, List.nodup_cons,
              List.mem_cons, List.mem_append, not_or] at hnodup
            simp only [List.map_append, List.map_cons, List.map_nil, List.mem_append,
              List.mem_singleton] at hmem
            rcases hmem with hpast | hfirst
            · exact hnodup.2.1.2 hpast
            · exact hnodup.1.1 hfirst.symm
          rw [h.taken_of_empty hpackets] at hat hpass
          rw [hself, List.append_assoc] at hrest
          obtain ⟨s, hrun, hs⟩ := ih hat hrest
          have hhead : ((past ++ [e]) ++ [e']).head? = (past ++ [e]).head? := by
            cases past <;> rfl
          rw [hhead] at hrun
          refine ⟨_, fun fuel hfuel => ?_, hs.cons rfl hpackets⟩
          obtain ⟨fuel, rfl⟩ : ∃ n, fuel = n + 1 := ⟨fuel - 1, by omega⟩
          rw [hpass, if_pos ⟨hstart, by rw [hpackets]; rfl⟩,
            hrun fuel (by simp only [List.length_cons] at hfuel; omega)]
          rfl

/-- Whatever is entered, deleted, received and searched for, one after the other. -/
inductive Reached : Network α → Prop
  | start : Reached .start
  | newStream {n : Network α} (h : Reached n) (iid : BitVec 32) : Reached (n.newStream iid)
  | deleteStream {n n' : Network α} (h : Reached n) {iid : BitVec 32}
      (hdelete : n.deleteStream iid = .ok n') : Reached n'
  | addIncomingPacket {n : Network α} (h : Reached n) (iid : BitVec 32) (ipacket : α) :
      Reached (n.addIncomingPacket iid ipacket)
  | scan {n : Network α} (h : Reached n) {s : Scan α}
      (hscan : Returns (fun fuel => scan fuel n) s) : Reached s.net

/-- The entries are in the order of their ids, at different places. -/
structure Ordered (streams : List (Entry α)) (nextPlace : ℕ) : Prop where
  nodup : (streams.map Entry.place).Nodup
  fresh : ∀ e ∈ streams, e.place < nextPlace
  sorted : (streams.map Entry.id).Pairwise (· < ·)

/-- The iterator designates an entry if there is one. -/
structure Valid (net : Network α) : Prop extends Ordered net.streams net.nextPlace where
  designates : net.streams ≠ [] → ∃ e ∈ net.streams, net.streamIter = some e.place

variable {streams : List (Entry α)} {nextPlace : ℕ}

/-- Only the contents of streams change. -/
lemma Ordered.map (h : Ordered streams nextPlace) {f : Entry α → Entry α}
    (hplace : ∀ e, (f e).place = e.place) (hid : ∀ e, (f e).id = e.id) :
    Ordered (streams.map f) nextPlace := by
  have hplaces : (streams.map f).map Entry.place = streams.map Entry.place := by simp [hplace]
  have hids : (streams.map f).map Entry.id = streams.map Entry.id := by simp [hid]
  exact ⟨by rw [hplaces]; exact h.nodup, by simpa [hplace] using h.fresh,
    by rw [hids]; exact h.sorted⟩

lemma Ordered.sublist {streams' : List (Entry α)} (h : Ordered streams nextPlace)
    (hsub : streams'.Sublist streams) : Ordered streams' nextPlace :=
  ⟨h.nodup.sublist (hsub.map _), fun e he => h.fresh e (hsub.subset he),
    h.sorted.sublist (hsub.map _)⟩

lemma Ordered.insert (h : Ordered streams nextPlace) {iid : BitVec 32}
    (hnew : ∀ e ∈ streams, e.id ≠ iid) :
    Ordered (streams.orderedInsert (fun a b => a.id ≤ b.id) ⟨nextPlace, iid, []⟩)
      (nextPlace + 1) := by
  have hperm := List.perm_orderedInsert (fun a b : Entry α => a.id ≤ b.id)
    ⟨nextPlace, iid, []⟩ streams
  refine ⟨?_, fun e he => ?_, ?_⟩
  · rw [(hperm.map Entry.place).nodup_iff, List.map_cons, List.nodup_cons]
    refine ⟨fun hmem => ?_, h.nodup⟩
    obtain ⟨e, he, heq⟩ := List.mem_map.mp hmem
    exact absurd heq (h.fresh e he).ne
  · rcases List.mem_cons.mp (hperm.mem_iff.mp he) with rfl | he
    · exact Nat.lt_succ_self _
    · exact (h.fresh e he).trans (Nat.lt_succ_self _)
  · have hmap := List.map_orderedInsert (fun a b : Entry α => a.id ≤ b.id)
      (fun a b : BitVec 32 => a ≤ b) Entry.id streams ⟨nextPlace, iid, []⟩
      (fun _ _ => Iff.rfl) (fun _ _ => Iff.rfl)
    have hle : (streams.map Entry.id).Pairwise (· ≤ ·) := h.sorted.imp fun hlt => hlt.le
    have hnodup : ((streams.map Entry.id).orderedInsert (· ≤ ·) iid).Nodup := by
      rw [(List.perm_orderedInsert _ _ _).nodup_iff, List.nodup_cons]
      refine ⟨fun hmem => ?_, h.sorted.imp fun hlt => hlt.ne⟩
      obtain ⟨e, he, heq⟩ := List.mem_map.mp hmem
      exact hnew e he heq
    rw [hmap]
    exact (hle.orderedInsert iid _).imp₂ (fun _ _ hab hne => lt_of_le_of_ne hab hne) hnodup

lemma Ordered.assign (h : Ordered streams nextPlace) (iid : BitVec 32) :
    Ordered (assign nextPlace iid streams) (nextPlace + 1) := by
  unfold AnonymousReceive.assign
  split_ifs with hany
  · have hkept := h.map (f := fun e => if e.id = iid then { e with packets := [] } else e)
      (fun e => by split_ifs <;> rfl) (fun e => by split_ifs <;> rfl)
    exact ⟨hkept.nodup, fun e he => (hkept.fresh e he).trans (Nat.lt_succ_self _), hkept.sorted⟩
  · exact h.insert (by simpa using hany)

/-- Entries stay where they are. -/
lemma mem_assign (nextPlace : ℕ) (iid : BitVec 32) {e : Entry α} (he : e ∈ streams) :
    ∃ e' ∈ assign nextPlace iid streams, e'.place = e.place := by
  unfold assign
  split_ifs with hany
  · refine ⟨_, List.mem_map_of_mem he, ?_⟩
    split_ifs <;> rfl
  · exact ⟨e, by simp [he], rfl⟩

lemma Valid.exists_at (h : Valid net) {e : Entry α} (he : e ∈ net.streams)
    (hiter : net.streamIter = some e.place) : ∃ before behind, net.At before e behind := by
  obtain ⟨before, behind, hsplit⟩ := List.append_of_mem he
  exact ⟨before, behind, hsplit, hiter, h.nodup⟩

/-- Entering a stream: the iterator is set to the first entry if it is the only one. -/
lemma Valid.newStream (h : Valid net) (iid : BitVec 32) : Valid (net.newStream iid) := by
  unfold Network.newStream
  dsimp only
  rw [Nat.add_sub_cancel]
  split_ifs with huser hone
  · refine ⟨h.toOrdered.assign iid, fun _ => ?_⟩
    obtain ⟨e, he⟩ := List.length_eq_one_iff.mp hone
    exact ⟨e, by simp [he], by simp [Network.begin, he]⟩
  · refine ⟨h.toOrdered.assign iid, fun _ => ?_⟩
    have hne : net.streams ≠ [] := by
      rintro hnil
      simp [hnil, AnonymousReceive.assign] at hone
    obtain ⟨e, he, hiter⟩ := h.designates hne
    obtain ⟨e', he', hplace⟩ := mem_assign net.nextPlace iid he
    exact ⟨e', he', by rw [hplace]; exact hiter⟩
  · exact ⟨⟨h.nodup, fun e he => (h.fresh e he).trans (Nat.lt_succ_self _), h.sorted⟩,
      h.designates⟩

/-- An entry can be deleted: where the iterator designates it, there is a next one. -/
lemma Valid.deleteStream (h : Valid net) (iid : BitVec 32) :
    ∃ net', net.deleteStream iid = .ok net' ∧ Valid net' := by
  unfold Network.deleteStream
  split_ifs with huser
  · cases hfind : net.streams.find? (·.id = iid) with
    | none => exact ⟨net, rfl, h⟩
    | some iter =>
        have hmem := List.mem_of_find?_eq_some hfind
        have hvalid : ∀ place, (∀ x ∈ net.streams, x.place ≠ iter.place →
              ∃ e ∈ net.streams, e.place ≠ iter.place ∧ place = some e.place) →
            Valid { net with
              streams := net.streams.filter (·.place ≠ iter.place)
              streamIter := place } := by
          intro place hplace
          refine ⟨h.toOrdered.sublist List.filter_sublist, fun hne => ?_⟩
          obtain ⟨x, hx⟩ := List.exists_mem_of_ne_nil _ hne
          obtain ⟨hx, hxne⟩ := List.mem_filter.mp hx
          obtain ⟨e, he, hene, heq⟩ := hplace x hx (by simpa using hxne)
          exact ⟨e, List.mem_filter.mpr ⟨he, by simpa using hene⟩, heq⟩
        by_cases hiter : net.streamIter = some iter.place
        · obtain ⟨before, behind, hat⟩ := h.exists_at hmem hiter
          obtain ⟨before', e', behind', hadvance, hat', hturn⟩ := hat.advance
          refine ⟨_, by simp only [if_pos hiter, hadvance]; rfl, hvalid _ fun x hx hne => ?_⟩
          have hothers : behind ++ before ≠ [] := by
            rintro hnil
            obtain ⟨rfl, rfl⟩ := List.append_eq_nil_iff.mp hnil
            rw [hat.streams_eq] at hx
            exact hne (congrArg Entry.place (List.mem_singleton.mp hx))
          obtain ⟨y, ys, hys⟩ := List.exists_cons_of_ne_nil hothers
          rw [hys] at hturn
          obtain ⟨rfl, -⟩ := List.cons.inj hturn
          have hin : e' ∈ behind ++ before := by rw [hys]; exact List.mem_cons_self
          refine ⟨e', ?_, hat.ne (List.mem_append.mp hin).symm, rfl⟩
          rw [hat.streams_eq]
          simp only [List.mem_append, List.mem_cons] at hin ⊢
          exact hin.symm.imp id .inr
        · obtain ⟨e, he, heq⟩ := h.designates (List.ne_nil_of_mem hmem)
          refine ⟨_, by simp only [if_neg hiter]; rfl, hvalid _ fun _ _ _ => ⟨e, he, ?_, heq⟩⟩
          rintro hsame
          exact hiter (by rw [heq, hsame])
  · exact ⟨_, rfl, h.toOrdered, h.designates⟩

lemma Valid.addIncomingPacket (h : Valid net) (iid : BitVec 32) (ipacket : α) :
    Valid (net.addIncomingPacket iid ipacket) := by
  refine ⟨h.toOrdered.map (fun e => ?_) (fun e => ?_), fun hne => ?_⟩
  · split_ifs <;> rfl
  · split_ifs <;> rfl
  · obtain ⟨e, he, hiter⟩ := h.designates fun hnil => hne (by
      rw [Network.addIncomingPacket, hnil, List.map_nil])
    refine ⟨_, List.mem_map_of_mem he, hiter.trans ?_⟩
    split_ifs <;> rfl

lemma Searched.valid {entries : List (Entry α)} {s : Scan α} (h : Valid net)
    (hs : Searched net entries s) : Valid s.net := by
  have hordered : Ordered s.net.streams s.net.nextPlace := by
    rw [hs.rest.2]
    cases hpacket : s.packet with
    | none =>
        rw [(hs.nothing hpacket).2.2]
        exact h.toOrdered
    | some p =>
        obtain ⟨empty, e, others, -, -, -, -, hstreams⟩ := hs.found p hpacket
        rw [hstreams]
        refine h.toOrdered.map (fun x => ?_) (fun x => ?_) <;> split_ifs <;> rfl
  obtain ⟨before, e, behind, hat⟩ := hs.designates
  exact ⟨hordered, fun _ => ⟨e, by rw [hat.streams_eq]; simp, hat.iter_eq⟩⟩

/-- The search comes to an end after at most one turn. -/
lemma Valid.exists_scan (h : Valid net) (hne : net.streams ≠ []) :
    ∃ s, Returns (fun fuel => scan fuel net) s ∧ Searched net net.turn s := by
  obtain ⟨e, he, hiter⟩ := h.designates hne
  obtain ⟨before, behind, hat⟩ := h.exists_at he hiter
  obtain ⟨s, hrun, hs⟩ := scanLoop_searched hat (List.append_nil _).symm
  refine ⟨s, ⟨(behind ++ before).length + 1, fun fuel hfuel => ?_⟩, hat.turn_eq ▸ hs⟩
  dsimp only
  rw [scan, if_neg hne, hiter]
  exact hrun fuel (by omega)

lemma Valid.scanned (h : Valid net) {s : Scan α} (hscan : Returns (fun fuel => scan fuel net) s) :
    Valid s.net := by
  by_cases hempty : net.streams = []
  · obtain ⟨n, hn⟩ := hscan
    have hrun := hn n le_rfl
    dsimp only at hrun
    rw [scan, if_pos hempty] at hrun
    cases hrun
    exact h
  · obtain ⟨s', hscan', hs⟩ := h.exists_scan hempty
    rw [hscan.unique hscan']
    exact hs.valid h

/-- Whatever happens, the iterator stays in the map. -/
theorem Reached.valid (h : Reached net) : Valid net := by
  induction h with
  | start => exact ⟨⟨List.nodup_nil, nofun, .nil⟩, fun h => absurd rfl h⟩
  | newStream _ iid ih => exact ih.newStream iid
  | @deleteStream n n' _ iid hdelete ih =>
      obtain ⟨n'', hdelete', hvalid⟩ := ih.deleteStream iid
      rw [hdelete] at hdelete'
      cases hdelete'
      exact hvalid
  | addIncomingPacket _ iid ipacket ih => exact ih.addIncomingPacket iid ipacket
  | scan _ hscan ih => exact ih.scanned hscan

/-- The iterator designates a stream while there is one, every deletion succeeds, and a search
inspects the streams in their order from there on and around, each at most once. It returns
the first packet of the first of them that holds one, and none only if no stream does. -/
theorem receive_fair (h : Reached net) :
    (net.streams ≠ [] → ∃ before e behind, net.streams = before ++ e :: behind ∧
      net.streamIter = some e.place ∧ net.turn = e :: behind ++ before) ∧
    (∀ iid, ∃ net', net.deleteStream iid = .ok net') ∧
    ∃ s, Returns (fun fuel => scan fuel net) s ∧
      s.inspected.Nodup ∧ s.inspected <+: net.turn.map Entry.id ∧
      (∀ p, s.packet = some p → ∃ empty e others, net.turn = empty ++ e :: others ∧
        (∀ x ∈ empty, x.packets = []) ∧ e.packets.head? = some p ∧
        s.inspected = (empty ++ [e]).map Entry.id ∧ s.net.streams = net.taken e.place) ∧
      (s.packet = none → ∀ e ∈ net.streams, e.packets = []) := by
  have hvalid := h.valid
  refine ⟨fun hne => ?_, fun iid => ?_, ?_⟩
  · obtain ⟨e, he, hiter⟩ := hvalid.designates hne
    obtain ⟨before, behind, hat⟩ := hvalid.exists_at he hiter
    exact ⟨before, e, behind, hat.streams_eq, hiter, hat.turn_eq⟩
  · obtain ⟨net', hdelete, -⟩ := hvalid.deleteStream iid
    exact ⟨net', hdelete⟩
  by_cases hempty : net.streams = []
  · refine ⟨⟨none, [], net⟩, ⟨0, fun _ _ => ?_⟩, List.nodup_nil, List.nil_prefix, nofun,
      by simp [hempty]⟩
    dsimp only
    rw [scan, if_pos hempty]
  · obtain ⟨s, hscan, hs⟩ := hvalid.exists_scan hempty
    have hperm : net.turn.Perm net.streams := by
      obtain ⟨e, he, hiter⟩ := hvalid.designates hempty
      obtain ⟨before, behind, hat⟩ := hvalid.exists_at he hiter
      rw [hat.turn_eq, hat.streams_eq]
      exact List.perm_append_comm
    have hprefix : s.inspected <+: net.turn.map Entry.id := by
      cases hpacket : s.packet with
      | none => rw [(hs.nothing hpacket).2.1]
      | some p =>
          obtain ⟨empty, e, others, hturn, -, -, hinspected, -⟩ := hs.found p hpacket
          exact ⟨others.map Entry.id, by rw [hinspected, hturn]; simp⟩
    have hnodup : (net.turn.map Entry.id).Nodup :=
      (hperm.map _).nodup_iff.mpr (hvalid.sorted.imp fun hlt => hlt.ne)
    exact ⟨s, hscan, hnodup.sublist hprefix.sublist, hprefix, hs.found,
      fun hpacket e he => (hs.nothing hpacket).1 e (hperm.mem_iff.mpr he)⟩

/-- The second of two streams holds a packet. -/
theorem receive_fair_second : ∃ s, Returns (fun fuel => scan fuel
    (((Network.start.newStream 1).newStream 2).addIncomingPacket 2 7)) s ∧ s.packet ≠ none := by
  have hreached : Reached (((Network.start.newStream 1).newStream 2).addIncomingPacket 2 7) :=
    ((Reached.start.newStream 1).newStream 2).addIncomingPacket 2 7
  obtain ⟨s, hscan, -, -, -, hnone⟩ := (receive_fair hreached).2.2
  refine ⟨s, hscan, fun hpacket => ?_⟩
  exact absurd (hnone hpacket ⟨1, 2, [7]⟩ (by decide)) (List.cons_ne_nil _ _)

end MRNet.AnonymousReceive
