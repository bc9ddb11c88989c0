import MRNet.SubTreeSearch

/-!
# Searches for hosts

Translation of `FindClosestHostToRoot`, `ClosestToRoot`, `FindPositionInTopology` and
`FindColocatedProcesses` of `XTNetwork.C`, on the graph that a serialized graph is read as. The
first search looks at all children of a node before it goes into one of them, the others go into a
child before they look at the next one.
-/
namespace MRNet.XTNetwork
open SerialGraph (Graph Text Port)
open WaitForAll (Rank)

structure TopologyPosition where
  myHostname : Text
  myRank : Rank
  subtree : Graph
  parentHostname : Text
  parentRank : Rank
  parentPort : Port
  parSubtree : Graph

/-- The position of a child of a node. -/
def positionIn (topology child : Graph) : TopologyPosition where
  myHostname := child.hostName
  myRank := child.rank
  subtree := child
  parentHostname := topology.hostName
  parentRank := topology.rank
  parentPort := topology.port
  parSubtree := topology

mutual

def findClosestHostToRoot (host : Text) : Graph → Option Graph
  | ⟨_, _, _, _, children⟩ =>
      (children.find? (·.hostName = host)).or (findClosestBelow host children)

/-- The second loop, which goes into the children. -/
def findClosestBelow (host : Text) : List Graph → Option Graph
  | [] => none
  | c :: cs =>
      (if c.isBackEnd then none else findClosestHostToRoot host c).or (findClosestBelow host cs)

end

def closestToRoot (topology : Graph) (childhost : Text) (childrank : Rank) : Bool :=
  match findClosestHostToRoot childhost topology with
  | none => false
  | some firsthost => firsthost.rank = childrank

mutual

/-- What is found last is kept. -/
def findPositionInTopology (myHost : Text) (myRank : Rank) (myPos : Option TopologyPosition) :
    Graph → Option TopologyPosition
  | ⟨hostName, port, rank, isBackEnd, children⟩ =>
      findPositionAmong myHost myRank ⟨hostName, port, rank, isBackEnd, children⟩ myPos children

def findPositionAmong (myHost : Text) (myRank : Rank) (topology : Graph)
    (myPos : Option TopologyPosition) : List Graph → Option TopologyPosition
  | [] => myPos
  | c :: cs =>
      if c.hostName = myHost ∧ c.rank = myRank then some (positionIn topology c)
      else findPositionAmong myHost myRank topology
        (if c.isBackEnd then myPos else findPositionInTopology myHost myRank myPos c) cs

end

mutual

def findColocatedProcesses (myHost : Text) (myRank : Rank) : Graph → List TopologyPosition
  | ⟨hostName, port, rank, isBackEnd, children⟩ =>
      findColocatedAmong myHost myRank ⟨hostName, port, rank, isBackEnd, children⟩ children

def findColocatedAmong (myHost : Text) (myRank : Rank) (topology : Graph) :
    List Graph → List TopologyPosition
  | [] => []
  | c :: cs =>
      (if c.hostName = myHost ∧ c.rank ≠ myRank then [positionIn topology c] else []) ++
        (if c.isBackEnd then [] else findColocatedProcesses myHost myRank c) ++
        findColocatedAmong myHost myRank topology cs

end

mutual

/-- The nodes below a graph in the order of the first search. -/
def visits : Graph → List Graph
  | ⟨_, _, _, _, children⟩ => children ++ visitsBelow children

def visitsBelow : List Graph → List Graph
  | [] => []
  | c :: cs => (if c.isBackEnd then [] else visits c) ++ visitsBelow cs

end

mutual

/-- The positions below a graph in the order of the other searches. -/
def positions : Graph → List TopologyPosition
  | ⟨hostName, port, rank, isBackEnd, children⟩ =>
      positionsAmong ⟨hostName, port, rank, isBackEnd, children⟩ children

def positionsAmong (topology : Graph) : List Graph → List TopologyPosition
  | [] => []
  | c :: cs =>
      [positionIn topology c] ++ (if c.isBackEnd then [] else positions c) ++
        positionsAmong topology cs

end

/-- Only leaves are marked as back-ends. -/
def LeafBackEnds (g : Graph) : Prop := ∀ s ∈ g.subgraphs, s.isBackEnd → s.children = []

variable {g : Graph} {host : Text} {rank : Rank}

lemma LeafBackEnds.child (h : LeafBackEnds g) {c : Graph} (hc : c ∈ g.children) : LeafBackEnds c :=
  fun s hs => h s (Graph.subgraphs_child hc hs)

lemma visits_eq (g : Graph) : visits g = g.children ++ visitsBelow g.children := by
  cases g
  rw [visits]

lemma positions_eq (g : Graph) : positions g = positionsAmong g g.children := by
  cases g
  rw [positions]

lemma visits_backEnd (h : LeafBackEnds g) (hback : g.isBackEnd = true) : visits g = [] := by
  have hroot : g ∈ g.subgraphs := by
    rw [Graph.subgraphs_eq]
    exact List.mem_cons_self
  rw [visits_eq, h g hroot hback]
  rfl

lemma positions_backEnd (h : LeafBackEnds g) (hback : g.isBackEnd = true) : positions g = [] := by
  have hroot : g ∈ g.subgraphs := by
    rw [Graph.subgraphs_eq]
    exact List.mem_cons_self
  rw [positions_eq, h g hroot hback]
  rfl

lemma visitsBelow_eq {cs : List Graph} (h : ∀ c ∈ cs, LeafBackEnds c) :
    visitsBelow cs = cs.flatMap visits := by
  induction cs with
  | nil => rfl
  | cons c cs ih =>
      have hc : (if c.isBackEnd then [] else visits c) = visits c := by
        split_ifs with hback
        · exact (visits_backEnd (h c List.mem_cons_self) hback).symm
        · rfl
      rw [visitsBelow, hc, ih fun d hd => h d (List.mem_cons_of_mem _ hd), List.flatMap_cons]

lemma positionsAmong_eq (g : Graph) {cs : List Graph} (h : ∀ c ∈ cs, LeafBackEnds c) :
    positionsAmong g cs = cs.flatMap fun c => positionIn g c :: positions c := by
  induction cs with
  | nil => rfl
  | cons c cs ih =>
      have hc : (if c.isBackEnd then [] else positions c) = positions c := by
        split_ifs with hback
        · exact (positions_backEnd (h c List.mem_cons_self) hback).symm
        · rfl
      rw [positionsAmong, hc, ih fun d hd => h d (List.mem_cons_of_mem _ hd), List.flatMap_cons]
      rfl

/-- Every node below is visited once. -/
theorem visits_perm (h : LeafBackEnds g) : (g :: visits g).Perm g.subgraphs := by
  induction g with
  | node g ih =>
      have hbelow : (g.children ++ g.children.flatMap visits).Perm
          (g.children.flatMap fun c => c :: visits c) := by
        have hsplit := List.flatMap_append_perm g.children (fun c => [c]) visits
        rwa [List.flatMap_singleton'] at hsplit
      have hkids : (g.children.flatMap fun c => c :: visits c).Perm
          (g.children.flatMap Graph.subgraphs) :=
        List.Perm.flatMap_left _ fun c hc => ih c hc (h.child hc)
      rw [visits_eq, visitsBelow_eq fun c hc => h.child hc, Graph.subgraphs_eq,
        ← List.flatMap_def]
      exact (hbelow.trans hkids).cons g

theorem positions_subtree (h : LeafBackEnds g) :
    g :: (positions g).map TopologyPosition.subtree = g.subgraphs := by
  induction g with
  | node g ih =>
      have hkids : (g.children.flatMap fun c => positionIn g c :: positions c).map
          TopologyPosition.subtree = g.children.flatMap Graph.subgraphs := by
        rw [List.map_flatMap]
        exact List.flatMap_congr fun c hc => ih c hc (h.child hc)
      rw [positions_eq, positionsAmong_eq g fun c hc => h.child hc, hkids, Graph.subgraphs_eq,
        ← List.flatMap_def]

theorem findClosestHostToRoot_eq (host : Text) (g : Graph) :
    findClosestHostToRoot host g = (visits g).find? (·.hostName = host) := by
  induction g with
  | node g ih =>
      have hbelow : ∀ cs : List Graph, (∀ c ∈ cs, c ∈ g.children) →
          findClosestBelow host cs = (visitsBelow cs).find? (·.hostName = host) := by
        intro cs hcs
        induction cs with
        | nil => rfl
        | cons c cs ihcs =>
            rw [findClosestBelow, visitsBelow, List.find?_append,
              ihcs fun d hd => hcs d (List.mem_cons_of_mem _ hd)]
            split_ifs
            · rfl
            · rw [ih c (hcs c List.mem_cons_self)]
      rw [visits_eq, List.find?_append, ← hbelow g.children fun c hc => hc]
      cases g
      rw [findClosestHostToRoot]

theorem findColocatedProcesses_eq (host : Text) (rank : Rank) (g : Graph) :
    findColocatedProcesses host rank g =
      (positions g).filter fun p => p.myHostname = host ∧ p.myRank ≠ rank := by
  induction g with
  | node g ih =>
      have hbelow : ∀ cs : List Graph, (∀ c ∈ cs, c ∈ g.children) →
          findColocatedAmong host rank g cs =
            (positionsAmong g cs).filter fun p => p.myHostname = host ∧ p.myRank ≠ rank := by
        intro cs hcs
        induction cs with
        | nil => rfl
        | cons c cs ihcs =>
            have hc : (if c.isBackEnd then [] else findColocatedProcesses host rank c) =
                (if c.isBackEnd then [] else positions c).filter
                  fun p => p.myHostname = host ∧ p.myRank ≠ rank := by
              split_ifs
              · rfl
              · exact ih c (hcs c List.mem_cons_self)
            have hself : (if c.hostName = host ∧ c.rank ≠ rank then [positionIn g c] else []) =
                [positionIn g c].filter fun p => p.myHostname = host ∧ p.myRank ≠ rank := by
              simp [List.filter_cons, positionIn]
            rw [findColocatedAmong, positionsAmong, List.filter_append, List.filter_append,
              ihcs fun d hd => hcs d (List.mem_cons_of_mem _ hd), hc, hself]
      rw [positions_eq, ← hbelow g.children fun c hc => hc]
      cases g
      rw [findColocatedProcesses]

/-- A position that the search for a host and a rank answers with. -/
def TopologyPosition.isAt (host : Text) (rank : Rank) (p : TopologyPosition) : Prop :=
  p.myHostname = host ∧ p.myRank = rank

lemma findPositionInTopology_eq (host : Text) (rank : Rank) (pos : Option TopologyPosition)
    (g : Graph) :
    findPositionInTopology host rank pos g = findPositionAmong host rank g pos g.children := by
  cases g
  rw [findPositionInTopology]

lemma findPositionAmong_missing {cs : List Graph} {pos : Option TopologyPosition}
    (hcs : ∀ c ∈ cs, (∀ p ∈ positions c, ¬ p.isAt host rank) →
      findPositionInTopology host rank pos c = pos)
    (h : ∀ p ∈ positionsAmong g cs, ¬ p.isAt host rank) :
    findPositionAmong host rank g pos cs = pos := by
  induction cs with
  | nil => rfl
  | cons c cs ih =>
      simp only [positionsAmong, List.mem_append, List.mem_singleton] at h
      have hself : ¬ (c.hostName = host ∧ c.rank = rank) := h (positionIn g c) (.inl (.inl rfl))
      have hbelow : (if c.isBackEnd then pos else findPositionInTopology host rank pos c) = pos := by
        split_ifs with hback
        · rfl
        · refine hcs c List.mem_cons_self fun p hmem => h p (.inl (.inr ?_))
          rwa [if_neg hback]
      rw [findPositionAmong, if_neg hself, hbelow]
      exact ih (fun d hd => hcs d (List.mem_cons_of_mem _ hd)) fun p hmem => h p (.inr hmem)

theorem findPositionInTopology_missing {pos : Option TopologyPosition}
    (h : ∀ p ∈ positions g, ¬ p.isAt host rank) :
    findPositionInTopology host rank pos g = pos := by
  induction g generalizing pos with
  | node g ih =>
      rw [positions_eq] at h
      rw [findPositionInTopology_eq]
      exact findPositionAmong_missing (fun c hc => ih c hc) h

/-- With distinct ranks the search finds the position that it is for. -/
theorem findPositionInTopology_found {pos : Option TopologyPosition} {p : TopologyPosition}
    (hdistinct : ((positions g).map TopologyPosition.myRank).Nodup) (hp : p ∈ positions g) :
    findPositionInTopology p.myHostname p.myRank pos g = some p := by
  induction g generalizing pos with
  | node g ih =>
      have hamong : ∀ (cs : List Graph) (pos : Option TopologyPosition),
          (∀ c ∈ cs, c ∈ g.children) →
          ((positionsAmong g cs).map TopologyPosition.myRank).Nodup → p ∈ positionsAmong g cs →
          findPositionAmong p.myHostname p.myRank g pos cs = some p := by
        intro cs pos hcs hnodup hmem
        induction cs generalizing pos with
        | nil => cases hmem
        | cons c cs ihcs =>
            have hinj := List.inj_on_of_nodup_map hnodup
            rw [findPositionAmong]
            by_cases hself : c.hostName = p.myHostname ∧ c.rank = p.myRank
            · rw [if_pos hself]
              refine congrArg some (hinj ?_ hmem hself.2)
              simp [positionsAmong]
            · rw [if_neg hself]
              rw [positionsAmong, List.map_append, List.map_append] at hnodup
              rw [positionsAmong, List.mem_append, List.mem_append, List.mem_singleton] at hmem
              obtain ⟨hfront, hrest, hdisjoint⟩ := List.nodup_append.mp hnodup
              rcases hmem with (rfl | hbelow) | hmem
              · exact absurd ⟨rfl, rfl⟩ hself
              · have hback : ¬ c.isBackEnd = true := by
                  intro hback
                  rw [if_pos hback] at hbelow
                  cases hbelow
                rw [if_neg hback] at hbelow hfront hdisjoint ⊢
                rw [ih c (hcs c List.mem_cons_self) (List.nodup_append.mp hfront).2.1 hbelow]
                refine findPositionAmong_missing (fun d _ hd => findPositionInTopology_missing hd) ?_
                intro p' hp' hat
                exact hdisjoint p.myRank
                  (List.mem_append_right _ (List.mem_map_of_mem hbelow)) p'.myRank
                  (List.mem_map_of_mem hp') hat.2.symm
              · exact ihcs _ (fun d hd => hcs d (List.mem_cons_of_mem _ hd)) hrest hmem
      rw [findPositionInTopology_eq]
      rw [positions_eq] at hdistinct hp
      exact hamong g.children pos (fun c hc => hc) hdistinct hp

lemma root_mem (g : Graph) : g ∈ g.subgraphs := by
  rw [Graph.subgraphs_eq]
  exact List.mem_cons_self

lemma mem_visits (h : LeafBackEnds g) {x : Graph} : x ∈ g :: visits g ↔ x ∈ g.subgraphs :=
  (visits_perm h).mem_iff

/-- The children of a node are visited next to each other. -/
lemma children_within (h : LeafBackEnds g) {q : Graph} (hq : q ∈ g.subgraphs) :
    q.children <:+: visits g := by
  induction g with
  | node g ih =>
      rw [visits_eq, visitsBelow_eq fun c hc => h.child hc]
      rw [Graph.subgraphs_eq] at hq
      rcases List.mem_cons.mp hq with rfl | hq
      · exact (List.prefix_append _ _).isInfix
      · obtain ⟨part, hpart, hq⟩ := List.mem_flatten.mp hq
        obtain ⟨c, hc, rfl⟩ := List.mem_map.mp hpart
        have hvisits : visits c <:+: g.children.flatMap visits :=
          List.infix_of_mem_flatten (List.mem_map_of_mem hc)
        exact (ih c hc (h.child hc) hq).trans
          (hvisits.trans (List.suffix_append _ _).isInfix)

/-- Every node has its parent before it. -/
def ParentsFirst : List Graph → List Graph → Prop
  | _, [] => True
  | seen, x :: xs => (∃ p ∈ seen, x ∈ p.children) ∧ ParentsFirst (x :: seen) xs

namespace ParentsFirst
variable {seen seen' l l' : List Graph}

lemma mono (h : ParentsFirst seen l) (hsub : seen ⊆ seen') : ParentsFirst seen' l := by
  induction l generalizing seen seen' with
  | nil => trivial
  | cons x xs ih =>
      obtain ⟨⟨p, hp, hx⟩, hxs⟩ := h
      exact ⟨⟨p, hsub hp, hx⟩, ih hxs (List.cons_subset_cons x hsub)⟩

lemma append (h : ParentsFirst seen l) (h' : ParentsFirst (l ++ seen) l') :
    ParentsFirst seen (l ++ l') := by
  induction l generalizing seen with
  | nil => exact h'
  | cons x xs ih =>
      refine ⟨h.1, ih h.2 (h'.mono fun y hy => ?_)⟩
      simp only [List.mem_append, List.mem_cons] at hy ⊢
      tauto

lemma parent (h : ParentsFirst seen l) {pre post : List Graph} {x : Graph}
    (hl : l = pre ++ x :: post) : ∃ p, (p ∈ seen ∨ p ∈ pre) ∧ x ∈ p.children := by
  induction pre generalizing seen l with
  | nil =>
      subst hl
      obtain ⟨⟨p, hp, hx⟩, -⟩ := h
      exact ⟨p, .inl hp, hx⟩
  | cons y pre ih =>
      subst hl
      obtain ⟨p, hp, hx⟩ := ih h.2 rfl
      refine ⟨p, ?_, hx⟩
      simp only [List.mem_cons] at hp ⊢
      tauto

lemma of_children (hl : ∀ x ∈ l, ∃ p ∈ seen, x ∈ p.children) : ParentsFirst seen l := by
  induction l generalizing seen with
  | nil => trivial
  | cons x xs ih =>
      refine ⟨hl x List.mem_cons_self, ih fun y hy => ?_⟩
      obtain ⟨p, hp, hy⟩ := hl y (List.mem_cons_of_mem _ hy)
      exact ⟨p, List.mem_cons_of_mem _ hp, hy⟩

end ParentsFirst

lemma visits_parentsFirst (h : LeafBackEnds g) : ParentsFirst [g] (visits g) := by
  induction g with
  | node g ih =>
      have hbelow : ∀ (cs seen : List Graph), (∀ c ∈ cs, c ∈ g.children) → cs ⊆ seen →
          ParentsFirst seen (cs.flatMap visits) := by
        intro cs
        induction cs with
        | nil => exact fun _ _ _ => trivial
        | cons c cs ihcs =>
            intro seen hcs hseen
            have hc := hcs c List.mem_cons_self
            rw [List.flatMap_cons]
            refine ((ih c hc (h.child hc)).mono ?_).append
              (ihcs _ (fun d hd => hcs d (List.mem_cons_of_mem _ hd)) fun d hd => ?_)
            · exact List.cons_subset.mpr ⟨hseen List.mem_cons_self, List.nil_subset _⟩
            · exact List.mem_append_right _ (hseen (List.mem_cons_of_mem _ hd))
      rw [visits_eq, visitsBelow_eq fun c hc => h.child hc]
      refine (ParentsFirst.of_children fun x hx => ⟨g, List.mem_singleton_self g, hx⟩).append ?_
      exact hbelow _ _ (fun c hc => hc) (List.subset_append_left _ _)

/-- What holds of a node when it holds of all nodes that are visited before it. -/
theorem visits_induction {P : Graph → Prop}
    (hstep : ∀ pre x post, visits g = pre ++ x :: post → (∀ y ∈ pre, P y) → P x) :
    ∀ x ∈ visits g, P x := by
  have hall : ∀ pre post, visits g = pre ++ post → ∀ y ∈ pre, P y := by
    intro pre
    induction pre using List.reverseRecOn with
    | nil => exact fun _ _ y hy => by cases hy
    | append_singleton pre x ih =>
        intro post hsplit y hy
        rw [List.append_assoc, List.singleton_append] at hsplit
        rcases List.mem_append.mp hy with hy | hy
        · exact ih _ hsplit y hy
        · rw [List.mem_singleton.mp hy]
          exact hstep pre x post hsplit (ih _ hsplit)
  exact hall _ [] (List.append_nil _).symm

lemma mem_positions (h : LeafBackEnds g) {p : TopologyPosition} :
    p ∈ positions g ↔ ∃ q ∈ g.subgraphs, ∃ c ∈ q.children, positionIn q c = p := by
  induction g with
  | node g ih =>
      rw [positions_eq, positionsAmong_eq g fun c hc => h.child hc, List.mem_flatMap]
      constructor
      · rintro ⟨c, hc, hp⟩
        rcases List.mem_cons.mp hp with rfl | hp
        · exact ⟨g, root_mem g, c, hc, rfl⟩
        · obtain ⟨q, hq, d, hd, rfl⟩ := (ih c hc (h.child hc)).mp hp
          exact ⟨q, Graph.subgraphs_child hc hq, d, hd, rfl⟩
      · rintro ⟨q, hq, d, hd, rfl⟩
        rw [Graph.subgraphs_eq] at hq
        rcases List.mem_cons.mp hq with rfl | hq
        · exact ⟨d, hd, List.mem_cons_self⟩
        · obtain ⟨part, hpart, hq⟩ := List.mem_flatten.mp hq
          obtain ⟨c, hc, rfl⟩ := List.mem_map.mp hpart
          exact ⟨c, hc, List.mem_cons_of_mem _ ((ih c hc (h.child hc)).mpr ⟨q, hq, d, hd, rfl⟩)⟩

lemma positions_fields (h : LeafBackEnds g) {p : TopologyPosition} (hp : p ∈ positions g) :
    p.myHostname = p.subtree.hostName ∧ p.myRank = p.subtree.rank := by
  obtain ⟨q, -, c, -, rfl⟩ := (mem_positions h).mp hp
  exact ⟨rfl, rfl⟩

lemma map_myRank (h : LeafBackEnds g) :
    (positions g).map TopologyPosition.myRank =
      ((positions g).map TopologyPosition.subtree).map Graph.rank := by
  rw [List.map_map]
  exact List.map_congr_left fun p hp => (positions_fields h hp).2

lemma nodup_positions (h : LeafBackEnds g) (hdistinct : g.DistinctRanks) :
    ((positions g).map TopologyPosition.myRank).Nodup := by
  rw [map_myRank h]
  rw [Graph.DistinctRanks, ← positions_subtree h, List.map_cons] at hdistinct
  exact hdistinct.of_cons

lemma nodup_visits (h : LeafBackEnds g) (hdistinct : g.DistinctRanks) : (g :: visits g).Nodup :=
  (visits_perm h).nodup_iff.mpr hdistinct.of_map

lemma child_mem_visits (h : LeafBackEnds g) {q c : Graph} (hq : q ∈ g.subgraphs)
    (hc : c ∈ q.children) : c ∈ visits g :=
  (children_within h hq).subset hc

lemma visits_subset (h : LeafBackEnds g) {x : Graph} (hx : x ∈ visits g) : x ∈ g.subgraphs :=
  (mem_visits h).mp (List.mem_cons_of_mem _ hx)

/-- A node has one parent. -/
lemma parent_unique (h : LeafBackEnds g) (hdistinct : g.DistinctRanks) {q q' c : Graph}
    (hq : q ∈ g.subgraphs) (hq' : q' ∈ g.subgraphs) (hc : c ∈ q.children) (hc' : c ∈ q'.children) :
    q = q' := by
  have hpos : positionIn q c = positionIn q' c :=
    List.inj_on_of_nodup_map (nodup_positions h hdistinct)
      ((mem_positions h).mpr ⟨q, hq, c, hc, rfl⟩) ((mem_positions h).mpr ⟨q', hq', c, hc', rfl⟩) rfl
  exact congrArg TopologyPosition.parSubtree hpos

/-- The node is the one that the search for its host finds. -/
def IsClosest (g x : Graph) : Prop := findClosestHostToRoot x.hostName g = some x

lemma closestToRoot_iff (h : LeafBackEnds g) (hdistinct : g.DistinctRanks) {x : Graph}
    (hx : x ∈ g.subgraphs) : closestToRoot g x.hostName x.rank = true ↔ IsClosest g x := by
  rw [closestToRoot, IsClosest]
  cases hfound : findClosestHostToRoot x.hostName g with
  | none => exact iff_of_false Bool.false_ne_true (Option.some_ne_none x).symm
  | some f =>
      rw [findClosestHostToRoot_eq] at hfound
      have hf := visits_subset h (List.mem_of_find?_eq_some hfound)
      rw [decide_eq_true_iff, Option.some_inj]
      exact ⟨fun hrank => hdistinct.unique hf hx hrank, congrArg Graph.rank⟩

lemma exists_closest {x : Graph} (hx : x ∈ visits g) :
    ∃ f, f ∈ visits g ∧ f.hostName = x.hostName ∧ IsClosest g f := by
  have hsome : ((visits g).find? (·.hostName = x.hostName)).isSome = true := by
    rw [List.find?_isSome]
    exact ⟨x, hx, decide_eq_true rfl⟩
  obtain ⟨f, hf⟩ := Option.isSome_iff_exists.mp hsome
  have hhost : f.hostName = x.hostName := by
    simpa using List.find?_some hf
  refine ⟨f, List.mem_of_find?_eq_some hf, hhost, ?_⟩
  rw [IsClosest, hhost, findClosestHostToRoot_eq, hf]

lemma IsClosest.unique {f f' : Graph} (hf : IsClosest g f) (hf' : IsClosest g f')
    (hhost : f.hostName = f'.hostName) : f = f' := by
  rw [IsClosest, hhost] at hf
  exact Option.some_inj.mp (hf.symm.trans hf')

/-- No node before it is on its host, and its parent is before it. -/
lemma IsClosest.split (h : LeafBackEnds g) {f : Graph} (hf : IsClosest g f) :
    ∃ pre post q, visits g = pre ++ f :: post ∧ (∀ y ∈ pre, y.hostName ≠ f.hostName) ∧
      (q = g ∨ q ∈ pre) ∧ f ∈ q.children := by
  rw [IsClosest, findClosestHostToRoot_eq, List.find?_eq_some_iff_append] at hf
  obtain ⟨-, pre, post, hsplit, hpre⟩ := hf
  obtain ⟨q, hq, hfq⟩ := (visits_parentsFirst h).parent hsplit
  refine ⟨pre, post, q, hsplit, fun y hy => ?_, hq.imp_left List.mem_singleton.mp, hfq⟩
  simpa using hpre y hy

/-- None of its siblings before it is on its host. -/
lemma IsClosest.sibling (h : LeafBackEnds g) (hdistinct : g.DistinctRanks) {f q : Graph}
    (hf : IsClosest g f) (hq : q ∈ g.subgraphs) {front rest : List Graph}
    (hsplit : q.children = front ++ f :: rest) : ∀ d ∈ front, d.hostName ≠ f.hostName := by
  obtain ⟨pre, post, -, hvisits, hpre, -⟩ := hf.split h
  obtain ⟨before, after, hwithin⟩ := children_within h hq
  have hvisits' : visits g = (before ++ front) ++ f :: (rest ++ after) := by
    rw [← hwithin, hsplit]
    simp
  have hnodup := (nodup_visits h hdistinct).of_cons
  rw [hvisits, List.nodup_append, List.nodup_cons] at hnodup
  have heq := (List.append_cons_inj_of_notMem (fun hf => hnodup.2.2 f hf f List.mem_cons_self rfl)
    hnodup.2.1.1).mp (hvisits.symm.trans hvisits')
  intro d hd
  exact hpre d (heq.1 ▸ List.mem_append_right _ hd)

end MRNet.XTNetwork
