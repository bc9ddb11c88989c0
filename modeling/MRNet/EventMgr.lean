import MRNet.Codec

/-!
# The event manager

Translation of the callback management of `Event.C`. The lists of callbacks are kept by class and
type of events. A null function is `none`, and callbacks do not call back into the manager.
-/
namespace MRNet.Events
open Codec (Outcome Stop Fault)
open Std (TreeMap)

def eventClassAll : ℤ := 0
def dataEvent : ℤ := 1
def topologyEvent : ℤ := 2
def errorEvent : ℤ := 3

def eventTypeAll : ℤ := -1

/-- The first and the last type of events of a class. -/
structure TypeRange where
  minType : ℤ
  maxType : ℤ

-- DATA_AVAILABLE
def dataTypes : TypeRange := ⟨0, 0⟩

-- ERROR_INTERNAL, ERROR_SYSTEM, ERROR_USAGE
def errorTypes : TypeRange := ⟨0, 2⟩

-- TOPOL_ADD_BE, TOPOL_ADD_CP, TOPOL_REMOVE_NODE, TOPOL_CHANGE_PARENT
def topologyTypes : TypeRange := ⟨0, 3⟩

variable {F D E : Type}

structure Event (E : Type) where
  eventClass : ℤ
  typ : ℤ
  data : E
  deriving DecidableEq

/-- A registered function with its data. -/
structure CbInfo (F D : Type) where
  func : F
  data : D
  onetime : Bool
  deriving DecidableEq

/-- A function is called with an event and its data. -/
structure Call (F D E : Type) where
  func : F
  ievt : Event E
  data : D
  deriving DecidableEq

abbrev TypCbMap (F D : Type) := TreeMap ℤ (List (CbInfo F D))

structure EventMgr (F D E : Type) where
  evts : List (Event E)
  cbs : TreeMap ℤ (TypCbMap F D)

def emptyLists (typeMap : TypCbMap F D) (types : TypeRange) : TypCbMap F D :=
  (List.range (types.maxType + 1 - types.minType).toNat).foldl
    (fun typeMap (u : ℕ) => typeMap.insert (types.minType + u) []) typeMap

/-- The maps of the known classes are made if they are not there. -/
def resetClass (cbs : TreeMap ℤ (TypCbMap F D)) (eventClass : ℤ) (types : TypeRange) :
    TreeMap ℤ (TypCbMap F D) :=
  cbs.insert eventClass (emptyLists (cbs.getD eventClass ∅) types)

def resetCallbacks (mgr : EventMgr F D E) : EventMgr F D E :=
  let cbs := resetClass mgr.cbs dataEvent dataTypes
  let cbs := resetClass cbs errorEvent errorTypes
  { mgr with cbs := resetClass cbs topologyEvent topologyTypes }

def newEventMgr : EventMgr F D E := resetCallbacks ⟨[], ∅⟩

def registerCallback (mgr : EventMgr F D E) (iclass ityp : ℤ) (ifunc : Option F)
    (idata : D) (once : Bool) : EventMgr F D E × Bool :=
  match ifunc with
  | none => (mgr, false)
  | some ifunc =>
      if once ∧ ityp = eventTypeAll then (mgr, false)
      else
        let cbInfo : CbInfo F D := ⟨ifunc, idata, once⟩
        match mgr.cbs[iclass]? with
        | none => (mgr, false)
        | some insMap =>
            if ityp = eventTypeAll then
              let insMap := insMap.map fun _ elist => elist ++ [cbInfo]
              ({ mgr with cbs := mgr.cbs.insert iclass insMap }, true)
            else
              match insMap[ityp]? with
              | none => (mgr, false)
              | some insList =>
                  let insMap := insMap.insert ityp (insList ++ [cbInfo])
                  ({ mgr with cbs := mgr.cbs.insert iclass insMap }, true)

/-- The first entry with the function is erased, and the walk ends there. -/
def removeCallbackFunc [DecidableEq F] (ifunc : F) : List (CbInfo F D) → List (CbInfo F D) × Bool
  | [] => ([], false)
  | info :: ifuncs =>
      if info.func = ifunc then (ifuncs, true)
      else
        let (ifuncs, rc) := removeCallbackFunc ifunc ifuncs
        (info :: ifuncs, rc)

def removeCallback [DecidableEq F] (mgr : EventMgr F D E) (ifunc : Option F)
    (iclass ityp : ℤ) : EventMgr F D E × Bool :=
  match mgr.cbs[iclass]? with
  | none => (mgr, false)
  | some rmMap =>
      if ityp = eventTypeAll then
        match ifunc with
        | none => ({ mgr with cbs := mgr.cbs.insert iclass (rmMap.map fun _ _ => []) }, true)
        | some ifunc =>
            let rmFlag := rmMap.toList.any fun entry => (removeCallbackFunc ifunc entry.2).2
            let rmMap := rmMap.map fun _ elist => (removeCallbackFunc ifunc elist).1
            ({ mgr with cbs := mgr.cbs.insert iclass rmMap }, rmFlag)
      else
        match rmMap[ityp]? with
        | none => (mgr, false)
        | some elist =>
            match ifunc with
            | none => ({ mgr with cbs := mgr.cbs.insert iclass (rmMap.insert ityp []) }, true)
            | some ifunc =>
                let (elist, rc) := removeCallbackFunc ifunc elist
                ({ mgr with cbs := mgr.cbs.insert iclass (rmMap.insert ityp elist) }, rc)

def removeCallbacks [DecidableEq F] (mgr : EventMgr F D E) (iclass ityp : ℤ) :
    EventMgr F D E × Bool :=
  if iclass = eventClassAll then
    if ityp = eventTypeAll then (resetCallbacks mgr, true) else (mgr, false)
  else removeCallback mgr none iclass ityp

/-- The walk along a list in as many steps as it had entries. A one-time entry is erased when the
iterator has left it: the list with what is before and behind the iterator. -/
def executeList (ievt : Event E) : ℕ → List (CbInfo F D) → List (CbInfo F D) →
    Outcome (List (CbInfo F D) × List (Call F D E))
  | 0, passed, elist => return (passed ++ elist, [])
  | _ + 1, _, [] => throw (.fault .readPast)
  | count + 1, passed, li :: elist => do
      let (elist, calls) ← executeList ievt count
        (if li.onetime then passed else passed ++ [li]) elist
      return (elist, ⟨li.func, ievt, li.data⟩ :: calls)

def executeCallbacks (mgr : EventMgr F D E) (ievt : Event E) :
    Outcome (EventMgr F D E × List (Call F D E)) :=
  match mgr.cbs[ievt.eventClass]? with
  | none => return (mgr, [])
  | some etypMap =>
      match etypMap[ievt.typ]? with
      | none => return (mgr, [])
      | some elist => do
          let (elist, calls) ← executeList ievt elist.length [] elist
          let etypMap := etypMap.insert ievt.typ elist
          return ({ mgr with cbs := mgr.cbs.insert ievt.eventClass etypMap }, calls)

def addEvent (mgr : EventMgr F D E) (ievt : Option (Event E)) :
    Outcome (EventMgr F D E × Bool × List (Call F D E)) :=
  match ievt with
  | some ievt => do
      let (mgr, calls) ← executeCallbacks { mgr with evts := mgr.evts ++ [ievt] } ievt
      return (mgr, true, calls)
  | none => return (mgr, false, [])

inductive Op (F D E : Type) where
  | registerCallback (iclass ityp : ℤ) (ifunc : Option F) (idata : D) (once : Bool)
  | removeCallback (ifunc : Option F) (iclass ityp : ℤ)
  | removeCallbacks (iclass ityp : ℤ)
  | addEvent (ievt : Option (Event E))

/-- What an operation returned, and the functions that it called. -/
structure Result (F D E : Type) where
  returned : Bool
  calls : List (Call F D E)

def perform [DecidableEq F] (mgr : EventMgr F D E) : Op F D E →
    Outcome (EventMgr F D E × Result F D E)
  | .registerCallback iclass ityp ifunc idata once =>
      let (mgr, returned) := registerCallback mgr iclass ityp ifunc idata once
      return (mgr, ⟨returned, []⟩)
  | .removeCallback ifunc iclass ityp =>
      let (mgr, returned) := removeCallback mgr ifunc iclass ityp
      return (mgr, ⟨returned, []⟩)
  | .removeCallbacks iclass ityp =>
      let (mgr, returned) := removeCallbacks mgr iclass ityp
      return (mgr, ⟨returned, []⟩)
  | .addEvent ievt => do
      let (mgr, returned, calls) ← addEvent mgr ievt
      return (mgr, ⟨returned, calls⟩)

def run [DecidableEq F] (mgr : EventMgr F D E) :
    List (Op F D E) → Outcome (EventMgr F D E × List (Result F D E))
  | [] => return (mgr, [])
  | op :: ops => do
      let (mgr, result) ← perform mgr op
      let (mgr, results) ← run mgr ops
      return (mgr, result :: results)

end MRNet.Events
