import MRNet.EquivalenceClasses

/-!
# Ids of loaded filters

Translation of `Network::load_FilterFuncs`, with `load_FilterFunc` and `register_Filter` of
`Filter.C`. Which symbols a shared object has and what the tree signals for the functions that
are sent to it are parameters.
-/
namespace MRNet.FilterIds
open Std (TreeMap)

abbrev FilterId := BitVec 16

/-- The shared objects that can be loaded, their symbols, and the texts that these point to. -/
structure Objects (α : Type) where
  load : String → Option (String → Option α)
  format : α → String

structure FilterInfo (α : Type) where
  filterFunc : α
  stateFunc : Option α
  filterFmt : String

abbrev FilterInfoMap (α : Type) := TreeMap FilterId (FilterInfo α)

variable {α : Type}

/-- What `load_FilterFunc` finds of a function. The state function need not be there. -/
def Objects.find (o : Objects α) (isoFile ifuncName : String) : Option (FilterInfo α) := do
  let getSymbol ← o.load isoFile
  let filterFunc ← getSymbol ifuncName
  let stateFunc := getSymbol (ifuncName ++ "_get_state")
  let fmtStr ← getSymbol (ifuncName ++ "_format_string")
  return ⟨filterFunc, stateFunc, o.format fmtStr⟩

/-- An id that is registered already is refused. -/
def registerFilter (filterInfo : FilterInfoMap α) (iid : FilterId) (finfo : FilterInfo α) :
    Option (FilterInfoMap α) :=
  if iid ∈ filterInfo then none else some (filterInfo.insert iid finfo)

/-- The filters afterwards, nothing for -1. -/
def loadFilterFunc (o : Objects α) (filterInfo : FilterInfoMap α) (iid : FilterId)
    (isoFile ifuncName : String) : Option (FilterInfoMap α) := do
  let finfo ← o.find isoFile ifuncName
  registerFilter filterInfo iid finfo

/-- The loop over the functions: `sent` are `funcs` and `fids`. -/
structure Loading (α : Type) where
  filterInfo : FilterInfoMap α
  nextFilterId : FilterId
  filterIds : List ℤ
  sent : List (String × FilterId)

def Loading.next (o : Objects α) (soFile : String) (s : Loading α) (funcName : String) :
    Loading α :=
  match loadFilterFunc o s.filterInfo s.nextFilterId soFile funcName with
  | none => { s with filterIds := s.filterIds ++ [-1] }
  | some filterInfo =>
      { filterInfo
        nextFilterId := s.nextFilterId + 1
        filterIds := s.filterIds ++ [(s.nextFilterId.toNat : ℤ)]
        sent := s.sent ++ [(funcName, s.nextFilterId)] }

/-- What a network keeps from one call to the next. The ids are counted by the process. -/
structure Network (α : Type) where
  filterInfo : FilterInfoMap α
  nextFilterId : FilterId
  filterErrorFuncids : List (BitVec 32)

/-- A call, the children at the time, and the functions for which errors are signalled: the
indices are those in the lists that are sent. -/
structure Call (α : Type) where
  objects : Objects α
  soFile : String
  functions : List String
  numChildren : ℕ
  signalled : (sent : List (String × FilterId)) → List (Fin sent.length)

/-- What a call returns, the ids, and what was sent to the children. -/
structure Result where
  returned : BitVec 32
  filterIds : List ℤ
  sent : List (String × FilterId)

namespace Network

def loaded (n : Network α) (c : Call α) : Loading α :=
  c.functions.foldl (Loading.next c.objects c.soFile) ⟨n.filterInfo, n.nextFilterId, [], []⟩

/-- The errors after the tree was asked. Without children nobody waits for it, and the errors
of the last signal are still there. -/
def errors (n : Network α) (c : Call α) : List (BitVec 32) :=
  let sent := (n.loaded c).sent
  if c.numChildren = 0 then n.filterErrorFuncids
  else (c.signalled sent).map fun u => BitVec.ofNat 32 u.val

def loadFilterFuncs (n : Network α) (c : Call α) : Network α × Result :=
  let s := n.loaded c
  let successCount := BitVec.ofNat 32 s.sent.length
  if s.sent.isEmpty then
    (⟨s.filterInfo, s.nextFilterId, n.filterErrorFuncids⟩, ⟨0, s.filterIds, s.sent⟩)
  else
    let errors := n.errors c
    (⟨s.filterInfo, s.nextFilterId, errors⟩,
      ⟨successCount - BitVec.ofNat 32 errors.toFinset.card, s.filterIds, s.sent⟩)

/-- The networks between calls. Ids are taken for other networks too. -/
inductive Reachable : Network α → Prop
  | start (filterInfo : FilterInfoMap α) (nextFilterId : FilterId) :
      Reachable ⟨filterInfo, nextFilterId, []⟩
  | load {n : Network α} (c : Call α) (h : Reachable n) : Reachable (n.loadFilterFuncs c).1
  | others {n : Network α} (nextFilterId : FilterId) (h : Reachable n) :
      Reachable { n with nextFilterId := nextFilterId }

end Network

/-- What holds after some functions. -/
structure Loaded (o : Objects α) (soFile : String) (before : FilterInfoMap α)
    (done : List String) (s : Loading α) : Prop where
  length : s.filterIds.length = done.length
  count : s.filterIds.countP (· ≠ -1) = s.sent.length
  entry : ∀ (u : ℕ) (f : String), done[u]? = some f → s.filterIds[u]? ≠ some (-1) → ∃ id : FilterId,
    s.filterIds[u]? = some (id.toNat : ℤ) ∧ id ∉ before ∧ s.filterInfo[id]? = o.find soFile f ∧
      (f, id) ∈ s.sent
  keeps : ∀ id ∈ before, s.filterInfo[id]? = before[id]?
  known : ∀ p ∈ s.sent, p.2 ∈ s.filterInfo
  nodup : (s.sent.map Prod.snd).Nodup

variable {o : Objects α} {soFile funcName : String} {before : FilterInfoMap α}
  {done : List String} {s : Loading α}

lemma loadFilterFunc_eq_some {filterInfo filterInfo' : FilterInfoMap α} {iid : FilterId} :
    loadFilterFunc o filterInfo iid soFile funcName = some filterInfo' ↔
      iid ∉ filterInfo ∧ ∃ finfo, o.find soFile funcName = some finfo ∧
        filterInfo.insert iid finfo = filterInfo' := by
  rw [loadFilterFunc, Option.bind_eq_bind, Option.bind_eq_some_iff]
  constructor
  · rintro ⟨finfo, hfind, hregister⟩
    rw [registerFilter] at hregister
    split_ifs at hregister with hmem
    exact ⟨hmem, finfo, hfind, Option.some.inj hregister⟩
  · rintro ⟨hmem, finfo, hfind, heq⟩
    exact ⟨finfo, hfind, by rw [registerFilter, if_neg hmem, heq]⟩

lemma Loaded.next (h : Loaded o soFile before done s) :
    Loaded o soFile before (done ++ [funcName]) (s.next o soFile funcName) := by
  have hold : ∀ {filterIds : List ℤ} {i : ℤ}, filterIds = s.filterIds ++ [i] → ∀ (u : ℕ) (f : String),
      (done ++ [funcName])[u]? = some f →
        (done[u]? = some f ∧ filterIds[u]? = s.filterIds[u]?) ∨
          (f = funcName ∧ filterIds[u]? = some i) := by
    rintro filterIds i rfl u f hf
    rw [List.getElem?_append] at hf ⊢
    rw [h.length]
    split_ifs at hf ⊢ with hlt
    · exact .inl ⟨hf, rfl⟩
    · obtain ⟨hu, rfl⟩ := List.getElem?_eq_some_iff.mp hf
      rw [List.length_singleton] at hu
      have hzero : u - done.length = 0 := by omega
      refine .inr ⟨?_, ?_⟩ <;> simp [hzero]
  rw [Loading.next]
  split
  · next hnone =>
      refine ⟨by simp [h.length], ?_, ?_, h.keeps, h.known, h.nodup⟩
      · rw [List.countP_append, h.count]
        rfl
      · intro u f hf hne
        rcases hold rfl u f hf with ⟨hf', heq⟩ | ⟨-, heq⟩
        · rw [heq] at hne ⊢
          exact h.entry u f hf' hne
        · exact absurd heq hne
  · next filterInfo hsome =>
      obtain ⟨hmem, finfo, hfind, rfl⟩ := loadFilterFunc_eq_some.mp hsome
      have hother : ∀ id ∈ s.filterInfo, (s.filterInfo.insert s.nextFilterId finfo)[id]? =
          s.filterInfo[id]? := by
        intro id hid
        rw [TreeMap.getElem?_insert, if_neg]
        intro heq
        rw [Std.LawfulEqCmp.compare_eq_iff_eq] at heq
        exact hmem (heq ▸ hid)
      refine ⟨by simp [h.length], ?_, ?_, ?_, ?_, ?_⟩
      · have hne : ((s.nextFilterId.toNat : ℤ) ≠ -1) := by omega
        rw [List.countP_append, h.count, List.length_append, List.countP_singleton,
          decide_eq_true hne]
        rfl
      · intro u f hf hne
        rcases hold rfl u f hf with ⟨hf', heq⟩ | ⟨hf, heq⟩
        · rw [heq] at hne ⊢
          obtain ⟨id, hid, hbefore, hinfo, hsent⟩ := h.entry u f hf' hne
          have hknown := h.known _ hsent
          exact ⟨id, hid, hbefore, (hother id hknown).trans hinfo,
            List.mem_append_left _ hsent⟩
        · refine ⟨s.nextFilterId, heq, fun hbefore => hmem ?_, ?_,
            List.mem_append_right _ (hf ▸ List.mem_cons_self)⟩
          · rw [TreeMap.mem_iff_isSome_getElem?, h.keeps _ hbefore]
            exact TreeMap.mem_iff_isSome_getElem?.mp hbefore
          · rw [TreeMap.getElem?_insert_self, hf, hfind]
      · intro id hid
        rw [hother id, h.keeps id hid]
        rw [TreeMap.mem_iff_isSome_getElem?, h.keeps _ hid]
        exact TreeMap.mem_iff_isSome_getElem?.mp hid
      · intro p hp
        rw [TreeMap.mem_insert]
        rcases List.mem_append.mp hp with hp | hp
        · exact .inr (h.known p hp)
        · rw [List.mem_singleton.mp hp]
          exact .inl Std.ReflCmp.compare_self
      · rw [List.map_append, List.nodup_append]
        refine ⟨h.nodup, List.nodup_singleton _, ?_⟩
        rintro id hid id' hid' rfl
        obtain ⟨p, hp, rfl⟩ := List.mem_map.mp hid
        rw [List.map_singleton, List.mem_singleton] at hid'
        exact hmem ((show p.2 = s.nextFilterId from hid') ▸ h.known p hp)

lemma Network.loaded_loaded (n : Network α) (c : Call α) :
    Loaded c.objects c.soFile n.filterInfo c.functions (n.loaded c) := by
  rw [Network.loaded]
  induction c.functions using List.reverseRecOn with
  | nil =>
      exact ⟨rfl, rfl, by simp, fun _ _ => rfl, by simp, by simp⟩
  | append_singleton fs f ih =>
      rw [List.foldl_append]
      exact ih.next

lemma Loading.next_sent (s : Loading α) : s.sent <+: (s.next o soFile funcName).sent := by
  rw [Loading.next]
  split
  · exact List.prefix_rfl
  · exact List.prefix_append _ _

lemma Loading.foldl_sent (fs : List String) (s : Loading α) :
    s.sent <+: (fs.foldl (Loading.next o soFile) s).sent := by
  induction fs generalizing s with
  | nil => exact List.prefix_rfl
  | cons f fs ih => exact s.next_sent.trans (ih _)

/-- Nothing is sent if no function is loaded; the id then stays the same. -/
lemma foldl_sent_eq_nil_iff {fs : List String} (hs : s.sent = []) :
    (fs.foldl (Loading.next o soFile) s).sent = [] ↔
      ∀ f ∈ fs, loadFilterFunc o s.filterInfo s.nextFilterId soFile f = none := by
  induction fs generalizing s with
  | nil => simpa using hs
  | cons f fs ih =>
      rw [List.foldl_cons, List.forall_mem_cons]
      cases hload : loadFilterFunc o s.filterInfo s.nextFilterId soFile f with
      | none =>
          have hnext : s.next o soFile f = { s with filterIds := s.filterIds ++ [-1] } := by
            rw [Loading.next, hload]
          rw [hnext, eq_self, true_and]
          exact @ih { s with filterIds := s.filterIds ++ [-1] } hs
      | some filterInfo =>
          refine iff_of_false (fun hnil => ?_) fun hnone => Option.some_ne_none _ hnone.1
          have hprefix := @Loading.foldl_sent _ o soFile fs (s.next o soFile f)
          rw [hnil, List.prefix_nil, Loading.next, hload, List.append_eq_nil_iff] at hprefix
          exact absurd hprefix.2 (List.cons_ne_nil _ _)

/-- There are no more ids than their type has. -/
lemma Loaded.length_sent (h : Loaded o soFile before done s) : s.sent.length ≤ 2 ^ 16 := by
  have hnodup : (s.sent.map fun p => p.2.toFin).Nodup := by
    have hinj : Function.Injective (BitVec.toFin : FilterId → Fin (2 ^ 16)) :=
      fun _ _ heq => BitVec.eq_of_toFin_eq heq
    have hmap := h.nodup.map hinj
    rwa [List.map_map] at hmap
  have hcard := hnodup.length_le_card
  rwa [List.length_map, Fintype.card_fin] at hcard

namespace Network

variable {n : Network α} (c : Call α)

/-- The recorded errors are about functions that were sent once. -/
lemma errors_lt (h : ∀ u ∈ n.filterErrorFuncids, u.toNat < 2 ^ 16) :
    ∀ u ∈ n.errors c, u.toNat < 2 ^ 16 := by
  have hlength := (n.loaded_loaded c).length_sent
  rw [errors]
  split_ifs with hnone
  · exact h
  · intro u hu
    obtain ⟨i, -, rfl⟩ := List.mem_map.mp hu
    have hi := i.isLt
    rw [BitVec.toNat_ofNat]
    omega

lemma Reachable.errors_lt (h : Reachable n) : ∀ u ∈ n.filterErrorFuncids, u.toNat < 2 ^ 16 := by
  induction h with
  | start => simp
  | load c h ih =>
      rw [loadFilterFuncs]
      split_ifs
      · exact ih
      · exact Network.errors_lt c ih
  | others _ _ ih => exact ih

end Network

/-- What the caller is told: how many functions have ids, and each of these is the id of its
function here and below. -/
structure Reports (n : Network α) (c : Call α) (n' : Network α) (r : Result) : Prop where
  length : r.filterIds.length = c.functions.length
  count : r.returned.toInt = r.filterIds.countP (· ≠ -1)
  entry : ∀ (u : ℕ) (f : String), c.functions[u]? = some f → r.filterIds[u]? ≠ some (-1) →
    ∃ (id : FilterId) (finfo : FilterInfo α), r.filterIds[u]? = some (id.toNat : ℤ) ∧
      id ∉ n.filterInfo ∧ c.objects.find c.soFile f = some finfo ∧
        n'.filterInfo[id]? = some finfo ∧ ∀ g, (g, id) ∈ r.sent ↔ g = f

section Reports
variable {n : Network α} (c : Call α)

lemma entries (u : ℕ) (f : String) (hf : c.functions[u]? = some f)
    (hne : (n.loaded c).filterIds[u]? ≠ some (-1)) : ∃ (id : FilterId) (finfo : FilterInfo α),
      (n.loaded c).filterIds[u]? = some (id.toNat : ℤ) ∧ id ∉ n.filterInfo ∧
        c.objects.find c.soFile f = some finfo ∧ (n.loaded c).filterInfo[id]? = some finfo ∧
          ∀ g, (g, id) ∈ (n.loaded c).sent ↔ g = f := by
  have hloaded := n.loaded_loaded c
  obtain ⟨id, hid, hbefore, hinfo, hsent⟩ := hloaded.entry u f hf hne
  obtain ⟨finfo, hfinfo⟩ := Option.isSome_iff_exists.mp
    (TreeMap.mem_iff_isSome_getElem?.mp (hloaded.known _ hsent))
  refine ⟨id, finfo, hid, hbefore, hinfo.symm.trans hfinfo, hfinfo, fun g => ⟨fun hg => ?_, ?_⟩⟩
  · exact congrArg Prod.fst (List.inj_on_of_nodup_map hloaded.nodup hg hsent rfl)
  · rintro rfl
    exact hsent

lemma card_errors_le (h : n.Reachable) : (n.errors c).toFinset.card ≤ 2 ^ 16 := by
  have hsubset : (n.errors c).toFinset.image BitVec.toNat ⊆ Finset.range (2 ^ 16) := by
    intro i hi
    obtain ⟨u, hu, rfl⟩ := Finset.mem_image.mp hi
    exact Finset.mem_range.mpr (Network.errors_lt c h.errors_lt u (List.mem_toFinset.mp hu))
  have hle := Finset.card_le_card hsubset
  rwa [Finset.card_image_of_injective _ fun _ _ heq => BitVec.eq_of_toNat_eq heq,
    Finset.card_range] at hle

lemma reports_of_none (hsent : (n.loaded c).sent = []) :
    Reports n c (n.loadFilterFuncs c).1 (n.loadFilterFuncs c).2 := by
  have hloaded := n.loaded_loaded c
  have hreturn : n.loadFilterFuncs c = (⟨(n.loaded c).filterInfo, (n.loaded c).nextFilterId,
      n.filterErrorFuncids⟩, ⟨0, (n.loaded c).filterIds, (n.loaded c).sent⟩) := by
    rw [Network.loadFilterFuncs, if_pos (List.isEmpty_iff.mpr hsent)]
  rw [hreturn]
  refine ⟨hloaded.length, ?_, entries c⟩
  rw [hloaded.count, hsent]
  rfl

/-- Errors are taken off the number only. -/
lemma reports_of_some_iff (h : n.Reachable) (hsent : (n.loaded c).sent ≠ []) :
    Reports n c (n.loadFilterFuncs c).1 (n.loadFilterFuncs c).2 ↔ n.errors c = [] := by
  have hloaded := n.loaded_loaded c
  have hlength := hloaded.length_sent
  have hcard := card_errors_le c h
  have hreturn : n.loadFilterFuncs c = (⟨(n.loaded c).filterInfo, (n.loaded c).nextFilterId,
      n.errors c⟩, ⟨BitVec.ofNat 32 (n.loaded c).sent.length -
        BitVec.ofNat 32 (n.errors c).toFinset.card, (n.loaded c).filterIds,
          (n.loaded c).sent⟩) := by
    rw [Network.loadFilterFuncs, if_neg (mt List.isEmpty_iff.mp hsent)]
  have hint : (BitVec.ofNat 32 (n.loaded c).sent.length -
      BitVec.ofNat 32 (n.errors c).toFinset.card).toInt =
        ((n.loaded c).sent.length : ℤ) - (n.errors c).toFinset.card := by
    rw [BitVec.toInt_sub, BitVec.toInt_ofNat', BitVec.toInt_ofNat']
    simp only [Int.bmod_def]
    omega
  rw [hreturn, ← List.toFinset_eq_empty_iff, ← Finset.card_eq_zero]
  constructor
  · intro hreports
    have hcount := hreports.count
    dsimp only at hcount
    rw [hloaded.count, hint] at hcount
    omega
  · intro hzero
    refine ⟨hloaded.length, ?_, entries c⟩
    dsimp only
    rw [hloaded.count, hint, hzero]
    omega

end Reports

lemma loaded_sent_eq_nil_iff {n : Network α} (c : Call α) : (n.loaded c).sent = [] ↔
    ∀ f ∈ c.functions,
      loadFilterFunc c.objects n.filterInfo n.nextFilterId c.soFile f = none :=
  foldl_sent_eq_nil_iff rfl

/-- When the caller is told right: nothing is loaded, or no error is recorded. -/
theorem loadFilterFuncs_reports_iff {n : Network α} (h : n.Reachable) (c : Call α) :
    Reports n c (n.loadFilterFuncs c).1 (n.loadFilterFuncs c).2 ↔
      (∀ f ∈ c.functions,
        loadFilterFunc c.objects n.filterInfo n.nextFilterId c.soFile f = none) ∨
          n.errors c = [] := by
  rw [← loaded_sent_eq_nil_iff]
  by_cases hsent : (n.loaded c).sent = []
  · exact iff_of_true (reports_of_none c hsent) (Or.inl hsent)
  · rw [reports_of_some_iff c h hsent, or_iff_right hsent]

/-- A shared object with any symbol. -/
def sampleObjects : Objects String := ⟨fun _ => some some, fun _ => "%d"⟩

def sampleNetwork : Network String := ⟨∅, 100, []⟩

/-- A function is loaded on a network with one child that has some errors. -/
def sampleCall (errors : ℕ) : Call String :=
  ⟨sampleObjects, "filters.so", ["first"], 1, fun sent => (List.finRange sent.length).take errors⟩

/-- A shared object that lacks a symbol. -/
def lackingObjects : Objects String :=
  ⟨fun _ => some fun symbol => if symbol = "second" then none else some symbol, fun _ => "%d"⟩

/-- Three functions, one of which is not in the shared object, for two children. -/
def mixedCall : Call String :=
  ⟨lackingObjects, "filters.so", ["first", "second", "third"], 2, fun _ => []⟩

/-- After a call with an error the functions that are there are counted, and have ids. -/
theorem loadFilterFuncs_reports_mixed :
    ((sampleNetwork.loadFilterFuncs (sampleCall 1)).1.loadFilterFuncs mixedCall).2.filterIds =
        [101, -1, 102] ∧
      Reports (sampleNetwork.loadFilterFuncs (sampleCall 1)).1 mixedCall
        ((sampleNetwork.loadFilterFuncs (sampleCall 1)).1.loadFilterFuncs mixedCall).1
        ((sampleNetwork.loadFilterFuncs (sampleCall 1)).1.loadFilterFuncs mixedCall).2 :=
  ⟨by decide, (loadFilterFuncs_reports_iff (.load (sampleCall 1) (.start ∅ 100)) mixedCall).mpr
    (.inr rfl)⟩

/-- With an error the function is not counted, but it has an id. -/
theorem loadFilterFuncs_not_reports : sampleNetwork.Reachable ∧
    ¬Reports sampleNetwork (sampleCall 1) (sampleNetwork.loadFilterFuncs (sampleCall 1)).1
      (sampleNetwork.loadFilterFuncs (sampleCall 1)).2 := by
  have hreachable : sampleNetwork.Reachable := .start ∅ 100
  refine ⟨hreachable, fun hreports => ?_⟩
  have hsent : (sampleNetwork.loaded (sampleCall 1)).sent ≠ [] := by
    rw [ne_eq, loaded_sent_eq_nil_iff]
    intro hnone
    have hfirst := hnone "first" (by simp [sampleCall])
    have hsome : loadFilterFunc (sampleCall 1).objects sampleNetwork.filterInfo 100
        (sampleCall 1).soFile "first" =
        some ((∅ : FilterInfoMap String).insert 100
          ⟨"first", some ("first" ++ "_get_state"), "%d"⟩) :=
      loadFilterFunc_eq_some.mpr ⟨TreeMap.not_mem_emptyc, _, rfl, rfl⟩
    cases hsome.symm.trans hfirst
  have herrors := (reports_of_some_iff (sampleCall 1) hreachable hsent).mp hreports
  rw [Network.errors, if_neg (by decide), List.map_eq_nil_iff, sampleCall,
    List.take_eq_nil_iff] at herrors
  rcases herrors with hone | hnil
  · cases hone
  · have hlength := congrArg List.length hnil
    rw [List.length_finRange, List.length_nil, List.length_eq_zero_iff] at hlength
    exact hsent hlength

end MRNet.FilterIds
