import MRNet.GenericRuns

/-!
# Trees of generic specifications

The constructors check a specification as they read it and as they connect the levels. They
conform if no index leaves its array, and a tree that is valid has the listed numbers of children.
-/
namespace MRNet.TopologyFile
open Codec DepthFirst
open Wire (Run Returns)
open SerialGraph (Text)
open BalancedTree (total)

namespace GenericTree

variable {address : Name → ℕ} {hostNameMax : ℕ} {fe : FrontEnd hostNameMax} {spec : Text}
  {levels : ChildrenByLevel} {nodes names avail : List Name} {edges : List (Name × Name)}
  {t : Tree} {lists : HostLists}

/-- The numbers of each level, with the nodes that are available to it. -/
abbrev Supplies := List (List (BitVec 32) × List Name)

/-- Levels that take their nodes from one list. -/
def offered : ChildrenByLevel → List Name → Supplies
  | [], _ => []
  | counts :: levels, avail => (counts, avail) :: offered levels (avail.drop (total counts))

def planOf (supplies : Supplies) : Plan :=
  supplies.map fun (counts, avail) => (counts, avail.take (total counts))

/-- A level lists more numbers than there are nodes above it, and the hosts suffice so far. -/
def Overruns : ℕ → Supplies → Prop
  | _, [] => False
  | nodes, (counts, avail) :: rest => total (counts.take nodes) ≤ avail.length ∧
      if nodes < counts.length then nodes < 2 ^ 32
      else counts.length < 2 ^ 32 ∧ Overruns (total counts) rest

/-- The hosts suffice for all levels, and none lists more numbers than there are nodes. -/
def Fits : ℕ → Supplies → Prop
  | _, [] => True
  | nodes, (counts, avail) :: rest => counts.length ≤ nodes ∧ counts.length < 2 ^ 32 ∧
      total counts ≤ avail.length ∧ Fits (total counts) rest

instance decidableFits : ∀ (nodes : ℕ) (supplies : Supplies), Decidable (Fits nodes supplies)
  | _, [] => isTrue trivial
  | _, (counts, _) :: rest =>
      have := decidableFits (total counts) rest
      inferInstanceAs (Decidable (_ ∧ _ ∧ _ ∧ _))

instance decidableOverruns : ∀ (nodes : ℕ) (supplies : Supplies), Decidable (Overruns nodes supplies)
  | _, [] => isFalse id
  | nodes, (counts, avail) :: rest =>
      have := decidableOverruns (total counts) rest
      inferInstanceAs (Decidable (total (counts.take nodes) ≤ avail.length ∧
        if nodes < counts.length then nodes < 2 ^ 32
        else counts.length < 2 ^ 32 ∧ Overruns (total counts) rest))

/-- How many nodes there are above what follows. -/
def lastSize : ℕ → Supplies → ℕ
  | nodes, [] => nodes
  | _, (counts, _) :: rest => lastSize (total counts) rest

variable {supplies more : Supplies} {n : ℕ}

lemma fits_append : Fits n (supplies ++ more) ↔
    Fits n supplies ∧ Fits (lastSize n supplies) more := by
  induction supplies generalizing n with
  | nil => simp [Fits, lastSize]
  | cons supply supplies ih => simp only [List.cons_append, Fits, lastSize, ih, and_assoc]

lemma not_overruns_of_fits (h : Fits n supplies) : ¬Overruns n supplies := by
  induction supplies generalizing n with
  | nil => exact id
  | cons supply supplies ih =>
      rw [Overruns, if_neg (not_lt.mpr h.1)]
      exact fun hover => ih h.2.2.2 hover.2.2

lemma overruns_append : Overruns n (supplies ++ more) ↔
    Overruns n supplies ∨ Fits n supplies ∧ Overruns (lastSize n supplies) more := by
  induction supplies generalizing n with
  | nil => simp [Overruns, Fits, lastSize]
  | cons supply supplies ih =>
      simp only [List.cons_append, Overruns, Fits, lastSize, ih]
      by_cases hmore : n < supply.1.length
      · simp only [if_pos hmore, not_le.mpr hmore, false_and, or_false]
      · simp only [if_neg hmore, not_lt.mp hmore, true_and, List.take_of_length_le (not_lt.mp hmore)]
        tauto

lemma planOf_append : planOf (supplies ++ more) = planOf supplies ++ planOf more :=
  List.map_append

lemma fst_planOf_offered (levels : ChildrenByLevel) (avail : List Name) :
    (planOf (offered levels avail)).map Prod.fst = levels := by
  induction levels generalizing avail with
  | nil => rfl
  | cons counts levels ih => exact congrArg (counts :: ·) (ih _)

lemma fitted_planOf (h : Fits nodes.length supplies) : Plan.Fitted nodes (planOf supplies) := by
  induction supplies generalizing nodes with
  | nil => trivial
  | cons supply supplies ih =>
      have hlength : (supply.2.take (total supply.1)).length = total supply.1 := by
        rw [List.length_take, Nat.min_eq_left h.2.2.1]
      exact ⟨h.1, hlength, ih (hlength.symm ▸ h.2.2.2)⟩

/-- What some levels come to. -/
structure Connected (address : Name → ℕ) (levels : ChildrenByLevel) (nodes names : List Name)
    (edges : List (Name × Name)) (t : Tree) (avail : List Name) : Prop where
  fault : Overruns nodes.length (offered levels avail) →
    Ends (fun fuel => connectLevels address fuel levels nodes t avail) fun _ =>
      throw (.fault .readPast)
  refused : ¬Overruns nodes.length (offered levels avail) → ¬Fits nodes.length (offered levels avail) →
    EndsIn (fun fuel => connectLevels address fuel levels nodes t avail) fun _ => pure none
  made : Fits nodes.length (offered levels avail) → ∃ t' left,
    Ends (fun fuel => connectLevels address fuel levels nodes t avail)
      (fun _ => pure (some (t', (planOf (offered levels avail)).map Prod.snd, left))) ∧
    t'.Built (names ++ ((planOf (offered levels avail)).map Prod.snd).flatten)
      (edges ++ Plan.edges nodes (planOf (offered levels avail))) ∧ t'.root = t.root

theorem connectLevels_spec (levels : ChildrenByLevel) (h : t.Built names edges)
    (hnodes : ∀ p ∈ nodes, p ∈ names) : Connected address levels nodes names edges t avail := by
  induction levels generalizing nodes names edges t avail with
  | nil =>
      refine ⟨False.elim, fun _ hno => absurd trivial hno, fun _ => ⟨t, avail,
        .refl _, ?_, rfl⟩⟩
      simpa [planOf, offered, Plan.edges] using h
  | cons counts levels ih =>
      by_cases hendless : 2 ^ 32 ≤ counts.length ∧ 2 ^ 32 ≤ nodes.length
      · refine ⟨fun hover => ?_, fun _ _ => ?_, fun hfits => absurd hfits.2.1 (by omega)⟩
        · have hlast := hover.2
          split_ifs at hlast
          · omega
          · exact absurd hlast.1 (by omega)
        · exact EndsIn.bind (fun fuel => connectLevel_endless hendless.1 hendless.2 fuel 0 t [] avail)
            fun _ => .inr rfl
      have hlevel := @connectLevel_ends address counts nodes (by omega) t avail
      have hspec := @followLevel_spec address counts nodes names avail edges t h hnodes []
      by_cases hfew : avail.length < total (counts.take nodes.length)
      · rw [if_pos hfew] at hspec
        rw [hspec] at hlevel
        refine ⟨fun hover => absurd hover.1 (by omega), fun _ _ =>
          EndsIn.bind hlevel.within fun _ => .inr rfl, fun hfits => ?_⟩
        have hall := hfits.2.2.1
        rw [List.take_of_length_le hfits.1] at hfew
        omega
      rw [if_neg hfew] at hspec
      by_cases hmore : nodes.length < counts.length
      · rw [if_pos hmore] at hspec
        rw [hspec] at hlevel
        have hover : Overruns nodes.length (offered (counts :: levels) avail) := by
          rw [offered, Overruns, if_pos hmore]
          omega
        exact ⟨fun _ => hlevel.bind_throw, fun hno => absurd hover hno, fun hfits =>
          absurd hfits.1 (by omega)⟩
      rw [if_neg hmore] at hspec
      obtain ⟨t', hfollow, hbuilt, hroot⟩ := hspec
      rw [hfollow] at hlevel
      rw [List.take_of_length_le (by omega)] at hfew
      have hlength : (avail.take (total counts)).length = total counts := by
        rw [List.length_take]
        omega
      have hrest := @ih (avail.take (total counts)) _ (avail.drop (total counts)) _ t' hbuilt
        fun p hp => List.mem_append_right _ hp
      have hover : Overruns nodes.length (offered (counts :: levels) avail) ↔
          Overruns (avail.take (total counts)).length (offered levels (avail.drop (total counts))) := by
        rw [offered, Overruns, if_neg hmore, hlength, List.take_of_length_le (by omega)]
        exact ⟨fun hand => hand.2.2, fun hlast => ⟨by omega, by omega, hlast⟩⟩
      have hfits : Fits nodes.length (offered (counts :: levels) avail) ↔
          Fits (avail.take (total counts)).length (offered levels (avail.drop (total counts))) := by
        rw [offered, Fits, hlength]
        exact ⟨fun hand => hand.2.2.2, fun hlast => ⟨by omega, by omega, by omega, hlast⟩⟩
      refine ⟨fun h' => hlevel.bind ?_, fun h₁ h₂ => hlevel.within.bind ?_, fun h' => ?_⟩
      · exact (hrest.fault (hover.mp h')).bind_throw
      · exact (hrest.refused (mt hover.mpr h₁) (mt hfits.mpr h₂)).bind fun _ => .inr rfl
      · obtain ⟨t'', left, hends, hbuilt', hroot'⟩ := hrest.made (hfits.mp h')
        refine ⟨t'', left, hlevel.bind (hends.bind (.refl _)), ?_, hroot'.trans hroot⟩
        simpa [planOf, offered, Plan.edges, List.append_assoc, levelEdges_take] using hbuilt'

/-- The nodes at the end of some levels. -/
def lastNames (nodes : List Name) (plan : Plan) : List Name :=
  (plan.map Prod.snd).getLast?.getD nodes

lemma lastNames_cons (nodes : List Name) (level : List (BitVec 32) × List Name) (plan : Plan) :
    lastNames nodes (level :: plan) = lastNames level.2 plan := by
  rw [lastNames, List.map_cons, List.getLast?_cons]
  rfl

lemma edges_append (nodes : List Name) (plan more : Plan) : Plan.edges nodes (plan ++ more) =
    Plan.edges nodes plan ++ Plan.edges (lastNames nodes plan) more := by
  induction plan generalizing nodes with
  | nil => rfl
  | cons level plan ih =>
      rw [List.cons_append, Plan.edges, Plan.edges, ih, lastNames_cons, List.append_assoc]

lemma length_lastNames (h : Fits nodes.length supplies) :
    (lastNames nodes (planOf supplies)).length = lastSize nodes.length supplies := by
  induction supplies generalizing nodes with
  | nil => rfl
  | cons supply supplies ih =>
      have hlength : (supply.2.take (total supply.1)).length = total supply.1 := by
        rw [List.length_take, Nat.min_eq_left h.2.2.1]
      rw [planOf, List.map_cons, lastNames_cons, lastSize, ← hlength]
      exact ih (hlength.symm ▸ h.2.2.2)

lemma mem_lastNames {p : Name} (hp : p ∈ lastNames nodes (planOf supplies)) :
    p ∈ nodes ∨ p ∈ ((planOf supplies).map Prod.snd).flatten := by
  rw [lastNames] at hp
  cases hlast : ((planOf supplies).map Prod.snd).getLast? with
  | none =>
      rw [hlast] at hp
      exact .inl hp
  | some level =>
      rw [hlast] at hp
      exact .inr (List.mem_flatten.mpr ⟨level, List.mem_of_getLast? hlast, hp⟩)

/-- What is available to the levels. With two lists the last level takes the back-ends. -/
def levelSupplies (hostNameMax : ℕ) (feHost : Text) (levels : ChildrenByLevel) : HostLists → Supplies
  | .single hosts maxProcs =>
      offered levels ((KnomialTree.slots feHost maxProcs hosts).tail.map (nodeName hostNameMax))
  | .separate backend internal beProcs intProcs =>
      let (inner, counts) := KnomialTree.listSlots intProcs internal (.start feHost)
      let (outer, _) := KnomialTree.listSlots beProcs backend counts
      offered levels.dropLast (inner.map (nodeName hostNameMax)) ++
        offered levels.getLast?.toList (outer.map (nodeName hostNameMax))

/-- Internal nodes are listed, and no hosts for them. -/
def NoInternal (levels : ChildrenByLevel) : HostLists → Prop
  | .single _ _ => False
  | .separate _ internal _ _ => internal = [] ∧ 1 < levels.length

instance decidableNoInternal : DecidablePred (NoInternal levels)
  | .single _ _ => isFalse id
  | .separate _ internal _ _ => inferInstanceAs (Decidable (internal = [] ∧ 1 < levels.length))

lemma fst_levelSupplies (lists : HostLists) (feHost : Text) :
    (planOf (levelSupplies hostNameMax feHost levels lists)).map Prod.fst = levels := by
  cases lists with
  | single hosts maxProcs => exact fst_planOf_offered _ _
  | separate backend internal beProcs intProcs =>
      rw [levelSupplies, planOf_append, List.map_append, fst_planOf_offered, fst_planOf_offered]
      cases levels using List.reverseRecOn with
      | nil => rfl
      | append_singleton levels last => simp

/-- The nodes and edges of a tree before it is validated. -/
structure Laid (fe : FrontEnd hostNameMax) (plan : Plan) (t : Tree) : Prop where
  root : t.root = written (fe.host, 0)
  built : ∃ names, (∀ k, k ∈ names ↔ k ∈ (Plan.levels (written (fe.host, 0)) plan).flatten) ∧
    t.Built names (Plan.edges [written (fe.host, 0)] plan)

section Initialize
variable (address fe levels lists)

/-- `initialize_Tree`, for one list or two. -/
def initializeLists (fuel : ℕ) : Run (Option GenericTree) :=
  match lists with
  | .single hosts maxProcs => initializeTree address fe levels maxProcs hosts fuel
  | .separate backend internal beProcs intProcs =>
      initializeTree₂ address fe levels ⟨intProcs, beProcs⟩ backend internal fuel

end Initialize

/-- What a constructor comes to when the specification is accepted. -/
structure Initialized (address : Name → ℕ) (fe : FrontEnd hostNameMax) (levels : ChildrenByLevel)
    (lists : HostLists) (supplies : Supplies) : Prop where
  fault : Overruns 1 supplies → Ends (initializeLists address fe levels lists) fun _ =>
    throw (.fault .readPast)
  refused : ¬Overruns 1 supplies → ¬Fits 1 supplies →
    EndsIn (initializeLists address fe levels lists) fun _ => pure none
  made : Fits 1 supplies → ∃ t, Laid fe (planOf supplies) t ∧
    Ends (initializeLists address fe levels lists)
      (finish t (Plan.levels (written (fe.host, 0)) (planOf supplies)))

section Start
variable (address fe)

lemma start_spec (levels : ChildrenByLevel) (avail : List Name) :
    Connected address levels [nodeName hostNameMax (fe.host, 0)]
      ([written (fe.host, 0)] ++ [nodeName hostNameMax (fe.host, 0)]) []
      ((Tree.create fe).getNode (nodeName hostNameMax (fe.host, 0))) avail :=
  connectLevels_spec levels ((Tree.built_create fe).getNode _) fun _ hp => List.mem_append_right _ hp

lemma start_root : ((Tree.create fe).getNode (nodeName hostNameMax (fe.host, 0))).root =
    written (fe.host, 0) := by
  rw [Tree.getNode_root, Tree.create, Tree.getNode_root]

end Start

lemma laid_of_built {plan : Plan} (hroot : t.root = written (fe.host, 0))
    (hbuilt : t.Built ([written (fe.host, 0)] ++ [nodeName hostNameMax (fe.host, 0)] ++
      (plan.map Prod.snd).flatten) (Plan.edges [nodeName hostNameMax (fe.host, 0)] plan)) :
    Laid fe plan t := by
  rw [nodeName_root] at hbuilt
  refine ⟨hroot, _, fun k => ?_, hbuilt⟩
  simp [Plan.levels]

theorem initialize_single (hosts : HostList) (maxProcs : BitVec 32) :
    Initialized address fe levels (.single hosts maxProcs)
      (levelSupplies hostNameMax fe.host levels (.single hosts maxProcs)) := by
  have hstart := start_spec address fe levels
    ((KnomialTree.slots fe.host maxProcs hosts).tail.map (nodeName hostNameMax))
  refine ⟨fun h => (hstart.fault h).bind_throw, fun h₁ h₂ =>
    (hstart.refused h₁ h₂).bind fun _ => .inr rfl, fun h => ?_⟩
  obtain ⟨t, left, hends, hbuilt, hroot⟩ := hstart.made h
  refine ⟨t, laid_of_built (hroot.trans (start_root fe)) hbuilt, ?_⟩
  rw [Plan.levels, ← nodeName_root fe]
  exact hends.bind (.refl _)

theorem initialize_separate (backend internal : HostList) (beProcs intProcs : BitVec 32)
    (hinternal : ¬NoInternal levels (.separate backend internal beProcs intProcs)) :
    Initialized address fe levels (.separate backend internal beProcs intProcs)
      (levelSupplies hostNameMax fe.host levels (.separate backend internal beProcs intProcs)) := by
  rw [levelSupplies]
  dsimp only
  generalize hinner : KnomialTree.listSlots intProcs internal (.start fe.host) = inner
  generalize houter : KnomialTree.listSlots beProcs backend inner.2 = outer
  have hstart := start_spec address fe levels.dropLast (inner.1.map (nodeName hostNameMax))
  have hrun : initializeLists address fe levels (.separate backend internal beProcs intProcs) =
      fun fuel => connectLevels address fuel levels.dropLast [nodeName hostNameMax (fe.host, 0)]
          ((Tree.create fe).getNode (nodeName hostNameMax (fe.host, 0)))
          (inner.1.map (nodeName hostNameMax)) >>= fun result =>
        result.elim (pure none) fun r =>
          connectLevels address fuel levels.getLast?.toList
              (r.2.1.getLast?.getD [nodeName hostNameMax (fe.host, 0)]) r.1
              (outer.1.map (nodeName hostNameMax)) >>= fun result =>
            result.elim (pure none) fun s =>
              finish s.1 ([nodeName hostNameMax (fe.host, 0)] :: r.2.1 ++ s.2.1) fuel := by
    funext fuel
    subst hinner houter
    refine (if_neg hinternal).trans (bind_congr fun result => ?_)
    cases result with
    | none => rfl
    | some r =>
        refine bind_congr fun result => ?_
        cases result <;> rfl
  by_cases hfirst : Fits 1 (offered levels.dropLast (inner.1.map (nodeName hostNameMax)))
  · obtain ⟨t, left, hends, hbuilt, hroot⟩ := hstart.made hfirst
    have hnext := @connectLevels_spec address
      (lastNames [nodeName hostNameMax (fe.host, 0)]
        (planOf (offered levels.dropLast (inner.1.map (nodeName hostNameMax))))) _
      (outer.1.map (nodeName hostNameMax)) _ t levels.getLast?.toList hbuilt (fun p hp => by
        rcases mem_lastNames hp with hp | hp
        · exact List.mem_append_left _ (List.mem_append_right _ hp)
        · exact List.mem_append_right _ hp)
    have hsize : (lastNames _ _).length = lastSize 1 _ :=
      @length_lastNames [nodeName hostNameMax (fe.host, 0)] _ hfirst
    refine ⟨fun h => ?_, fun h₁ h₂ => ?_, fun h => ?_⟩
    · rw [hrun]
      rcases overruns_append.mp h with h | ⟨-, h⟩
      · exact absurd h (not_overruns_of_fits hfirst)
      · exact hends.bind (hnext.fault (hsize ▸ h)).bind_throw
    · rw [hrun]
      rw [overruns_append, not_or, ← hsize] at h₁
      rw [fits_append, ← hsize] at h₂
      exact hends.within.bind ((hnext.refused (fun h => h₁.2 ⟨hfirst, h⟩)
        fun h => h₂ ⟨hfirst, h⟩).bind fun _ => .inr rfl)
    · rw [fits_append, ← hsize] at h
      obtain ⟨t', left', hends', hbuilt', hroot'⟩ := hnext.made h.2
      refine ⟨t', laid_of_built (hroot'.trans (hroot.trans (start_root fe))) ?_, ?_⟩
      · rw [planOf_append, List.map_append, List.flatten_append, edges_append, ← List.append_assoc]
        exact hbuilt'
      · rw [hrun, Plan.levels, planOf_append, List.map_append, ← nodeName_root fe]
        exact hends.bind (hends'.bind (.refl _))
  · refine ⟨fun h => ?_, fun h₁ _ => ?_, fun h => absurd (fits_append.mp h).1 hfirst⟩
    · rw [hrun]
      rcases overruns_append.mp h with h | ⟨h, -⟩
      · exact (hstart.fault h).bind_throw
      · exact absurd h hfirst
    · rw [hrun]
      exact (hstart.refused (fun h => h₁ (overruns_append.mpr (.inl h))) hfirst).bind
        fun _ => .inr rfl

theorem initialize_spec (hinternal : ¬NoInternal levels lists) : Initialized address fe levels lists
    (levelSupplies hostNameMax fe.host levels lists) := by
  cases lists with
  | single hosts maxProcs => exact initialize_single hosts maxProcs
  | separate backend internal beProcs intProcs =>
      exact initialize_separate backend internal beProcs intProcs hinternal

/-- No array is left, and a valid tree has the listed numbers of children. -/
def Conforms (spec : Text) (m : ℕ → Run (Option GenericTree)) : Prop :=
  (∀ fuel f, m fuel ≠ throw (.fault f)) ∧
  ∀ b, Returns m (some b) → b.valid = true →
    Plan.ChildCounts (listed spec) b.nodesByLevel b.tree

/-- Names clash so that `validate` notices it, or the nodes are too many to be counted. -/
def Noticed (root : Name) (plan : Plan) : Prop :=
  ¬Tree.Tidy root (Plan.edges [root] plan) ∨ 2 ^ 32 ≤ (Plan.levels root plan).flatten.toFinset.card

/-- The names of the nodes are their own, or it is noticed that they are not. -/
def NamesFit (root : Name) (plan : Plan) : Prop :=
  (Plan.levels root plan).flatten.Nodup ∨ Noticed root plan

lemma conforms_of_refused {m : ℕ → Run (Option GenericTree)} (h : EndsIn m fun _ => pure none) :
    Conforms spec m := by
  refine ⟨fun fuel f hf => ?_, fun b ⟨n, hn⟩ => ?_⟩
  · rcases h fuel with hm | hm <;> rw [hm] at hf <;> cases hf
  · have hb := hn n le_rfl
    rcases h n with hm | hm <;> rw [hm] at hb <;> cases hb

lemma not_conforms_of_fault {m : ℕ → Run (Option GenericTree)} {f : Fault}
    (h : Ends m fun _ => throw (.fault f)) : ¬Conforms spec m := fun hconforms => by
  obtain ⟨n, hn⟩ := h.enough
  exact hconforms.1 n f (hn n le_rfl)

lemma finish_no_fault (t : Tree) (made : List (List Name)) (fuel : ℕ) (f : Fault) :
    finish t made fuel ≠ throw (.fault f) := by
  intro hf
  unfold finish at hf
  cases hv : t.validate fuel <;> rw [hv] at hf <;> cases hf

/-- What is said of a tree that was laid out. -/
theorem conforms_of_laid {plan : Plan} {m : ℕ → Run (Option GenericTree)}
    (hplan : plan.map Prod.fst = listed spec) (hfitted : Plan.Fitted [written (fe.host, 0)] plan)
    (hlaid : Laid fe plan t) (h : Ends m (finish t (Plan.levels (written (fe.host, 0)) plan))) :
    Conforms spec m ↔ NamesFit (written (fe.host, 0)) plan := by
  obtain ⟨hroot, names, hnames, hbuilt⟩ := hlaid
  have hgrown : Grown t.root (Plan.edges [written (fe.host, 0)] plan) := by
    rw [hroot]
    exact Plan.grown_edges .nil (fun p hp => .inl (List.mem_singleton.mp hp)) hfitted
  have hmem : ∀ k, k ∈ names ↔
      k = t.root ∨ k ∈ (Plan.edges [written (fe.host, 0)] plan).map Prod.snd := by
    intro k
    rw [hnames, Plan.snd_edges hfitted, hroot, Plan.levels, List.flatten_cons, List.mem_append,
      List.mem_singleton]
  have hends : ∀ e ∈ Plan.edges [written (fe.host, 0)] plan, e.1 ∈ names := fun e he =>
    (hmem e.1).mpr (hgrown.source he)
  obtain ⟨valid, t', hvalidate, hroot', hshape, hvalid⟩ := hbuilt.validated hgrown hmem hends
  have hcard : names.toFinset = (Plan.levels (written (fe.host, 0)) plan).flatten.toFinset := by
    ext k
    rw [List.mem_toFinset, List.mem_toFinset, hnames]
  rw [hroot, hcard] at hvalid
  have hreturns : Returns m (some ⟨valid, t', Plan.levels (written (fe.host, 0)) plan⟩) := by
    obtain ⟨n, hn⟩ := h.enough
    refine ⟨max n (t.nodesByName.size + 1), fun fuel hfuel => ?_⟩
    rw [hn fuel (le_trans (le_max_left _ _) hfuel), finish,
      hvalidate fuel (lt_of_lt_of_le (Nat.lt_succ_self _) (le_trans (le_max_right _ _) hfuel))]
    rfl
  have hconforms : Conforms spec m ↔ (valid = true →
      Plan.ChildCounts (listed spec) (Plan.levels (written (fe.host, 0)) plan) t') := by
    refine ⟨fun hconforms => hconforms.2 _ hreturns, fun hcounts => ⟨fun fuel f hf => ?_,
      fun b hb => ?_⟩⟩
    · rcases h.within fuel with hm | hm <;> rw [hm] at hf
      · cases hf
      · exact finish_no_fault _ _ _ _ hf
    · obtain rfl := Option.some.inj (hreturns.unique hb)
      exact hcounts
  rw [hconforms, hvalid, NamesFit, Noticed]
  constructor
  · intro hcounts
    by_cases hnoticed : Tree.Tidy (written (fe.host, 0)) (Plan.edges [written (fe.host, 0)] plan) ∧
        (Plan.levels (written (fe.host, 0)) plan).flatten.toFinset.card < 2 ^ 32
    · exact .inl ((Plan.childCounts_iff hfitted hshape hnoticed.1).mp (hplan ▸ hcounts hnoticed))
    · rw [not_and_or, not_lt] at hnoticed
      exact .inr hnoticed
  · rintro (hnodup | hnoticed) hvalid
    · rw [← hplan]
      exact (Plan.childCounts_iff hfitted hshape hvalid.1).mpr hnodup
    · exact absurd hvalid (by rw [not_and_or, not_lt]; exact hnoticed)

lemma create_accepted (hlong : ¬ItemTooLong spec) (haccepted : Accepted spec) :
    create address fe spec lists = initializeLists address fe (listed spec) lists := by
  funext fuel
  rw [create, parseSpec_eq, if_neg hlong, if_pos haccepted]
  cases lists <;> rfl

lemma not_conforms_of_overrun (hlong : ¬ItemTooLong spec) (haccepted : Accepted spec)
    (hinternal : ¬NoInternal (listed spec) lists)
    (hover : Overruns 1 (levelSupplies hostNameMax fe.host (listed spec) lists)) :
    ¬Conforms spec (create address fe spec lists) := by
  rw [create_accepted hlong haccepted]
  exact not_conforms_of_fault ((initialize_spec hinternal).fault hover)

/-- A specification is checked before use if and only if no item is too long, and no level that is
reached lists more numbers than there are nodes above it, and the names of the nodes are their own
or clash so that it is noticed. -/
theorem create_asListed_iff (spec : Text) (lists : HostLists) (fe : FrontEnd hostNameMax)
    (address : Name → ℕ) : Conforms spec (create address fe spec lists) ↔
      ¬ItemTooLong spec ∧ (Accepted spec → ¬NoInternal (listed spec) lists →
        ¬Overruns 1 (levelSupplies hostNameMax fe.host (listed spec) lists) ∧
        (Fits 1 (levelSupplies hostNameMax fe.host (listed spec) lists) →
          NamesFit (written (fe.host, 0))
            (planOf (levelSupplies hostNameMax fe.host (listed spec) lists)))) := by
  by_cases hlong : ItemTooLong spec
  · have hrun : create address fe spec lists = fun _ => throw (.fault .storePast) := by
      funext fuel
      rw [create, parseSpec_eq, if_pos hlong]
      rfl
    rw [hrun]
    exact iff_of_false (not_conforms_of_fault (.refl _)) fun h => h.1 hlong
  rw [and_iff_right hlong]
  by_cases haccepted : Accepted spec
  · by_cases hinternal : NoInternal (listed spec) lists
    · refine iff_of_true (conforms_of_refused fun fuel => ?_) fun _ h => absurd hinternal h
      rw [create_accepted hlong haccepted]
      cases lists with
      | single hosts maxProcs => exact absurd hinternal id
      | separate backend internal beProcs intProcs => exact .inr (if_pos hinternal)
    have hspec := @initialize_spec address hostNameMax fe _ _ hinternal
    by_cases hover : Overruns 1 (levelSupplies hostNameMax fe.host (listed spec) lists)
    · exact iff_of_false (not_conforms_of_overrun hlong haccepted hinternal hover) fun h =>
        (h haccepted hinternal).1 hover
    rw [create_accepted hlong haccepted]
    by_cases hfits : Fits 1 (levelSupplies hostNameMax fe.host (listed spec) lists)
    · obtain ⟨t, hlaid, hends⟩ := hspec.made hfits
      have hfitted := @fitted_planOf [written (fe.host, 0)] _ hfits
      rw [conforms_of_laid (fst_levelSupplies lists fe.host) hfitted hlaid hends]
      exact ⟨fun h _ _ => ⟨hover, fun _ => h⟩, fun h => (h haccepted hinternal).2 hfits⟩
    · exact iff_of_true (conforms_of_refused (hspec.refused hover hfits)) fun _ _ =>
        ⟨hover, fun h => absurd h hfits⟩
  · have hrun : create address fe spec lists = fun _ => pure none := by
      funext fuel
      rw [create, parseSpec_eq, if_neg hlong, if_neg haccepted]
      rfl
    rw [hrun]
    exact iff_of_true (conforms_of_refused fun _ => .inr rfl) fun h => absurd h haccepted

/-- The second level lists two numbers for one node. -/
theorem create_not_asListed : ¬Conforms "1:1,1".toList
    (create (fun _ => 0) (⟨['f', 'e'], by decide⟩ : FrontEnd 64) "1:1,1".toList
      (.single [(['a'], 4)] 4)) := by
  have hlisted : listed "1:1,1".toList = [[1], [1, 1]] := by decide +kernel
  have hslots : (KnomialTree.slots ['f', 'e'] 4#32 [(['a'], 4#32)]).length = 5 := by
    decide +kernel
  refine not_conforms_of_overrun (by decide +kernel) (by decide +kernel) id ?_
  rw [hlisted]
  simp [levelSupplies, offered, Overruns, total, hslots]

end GenericTree

end MRNet.TopologyFile
