import MRNet.Interleavings
import MRNet.RootedTrees

/-!
# Loading of filters

Translation of `load_FilterFuncs`, `waitOn_ProtEvent` and `signal_ProtEvent` of `Network.C`, of
`proc_newFilter` of `ParentNode.C` and `BackEndNode.C`, and of `proc_FilterLoadEvent`. A node
has one thread that reads from its parent and one for each of its children; a step of the latter
is made under `event_lock`. The front-end also has the thread that loads.
-/
namespace MRNet.FilterLoad
open Forest Interleavings

structure FilterError where
  hostname : String
  soFilename : String
  funcId : ℕ
  deriving DecidableEq

/-- Where the thread is that reads from the parent. -/
inductive Phase where
  | idle
  | requested
  | reset
  | cleared
  | ready
  | forwarded
  | loaded
  | done
  deriving DecidableEq

/-- The counters are set for this request. -/
def Phase.counts : Phase → Bool
  | ready | forwarded | loaded | done => true
  | _ => false

/-- The request has gone to the children. -/
def Phase.forwards : Phase → Bool
  | forwarded | loaded | done => true
  | _ => false

structure NodeState where
  phase : Phase
  filterChildrenReported : ℕ
  filterChildrenWaiting : ℕ
  filterErrors : List FilterError
  /-- The reports for the parent, of which it has taken some. -/
  sent : List (List FilterError)
  taken : ℕ

/-- Where `load_FilterFuncs` is. -/
inductive FrontEnd where
  | start
  | sent
  | waiting
  | awake
  | returned (count : BitVec 32)
  deriving DecidableEq

structure State (N : Type) where
  node : N → NodeState
  frontEnd : FrontEnd
  /-- The errors of the last signal. -/
  filterErrors : List FilterError
  /-- The errors of each signal of this request. -/
  signals : List (List FilterError)

inductive Action (N : Type) where
  | request (n : N)
  | report (n : N)
  | loadFilterFuncs
  | wake
  deriving DecidableEq

/-- A tree of nodes, the functions to load, and how each node fares with the functions. -/
structure Load (N : Type) where
  tree : ParentTree N
  backEnd : N → Bool
  backEnd_leaf : ∀ n c, backEnd n → tree.parent c ≠ some n
  hostName : N → String
  soFile : String
  functions : List String
  loads : N → ℕ → String → Bool

variable {N : Type}

namespace Load

variable (l : Load N)

/-- The front-end asks for the functions that it has loaded itself. -/
def requested : List String :=
  (l.functions.zipIdx.filter fun f => l.loads l.tree.root f.2 f.1).map (·.1)

def errorFuncs (n : N) : List ℕ :=
  (l.requested.zipIdx.filter fun f => !l.loads n f.2 f.1).map (·.2)

def ownErrors (n : N) : List FilterError :=
  (l.errorFuncs n).map fun u => ⟨l.hostName n, l.soFile, u⟩

end Load

section Steps

variable [DecidableEq N]

namespace State

def setNode (s : State N) (n : N) (x : NodeState) : State N :=
  { s with node := Function.update s.node n x }

def setPhase (s : State N) (n : N) (phase : Phase) : State N :=
  s.setNode n { s.node n with phase := phase }

def sendPacketToChildren (l : Load N) (s : State N) (n : N) : State N :=
  { s with node := fun c =>
      if l.tree.parent c = some n then { s.node c with phase := .requested } else s.node c }

/-- `SignalCondition( EVENT_NOTIFICATION )` wakes the front-end if it waits. -/
def signalProtEvent (s : State N) (errors : List FilterError) : State N :=
  { s with
    filterErrors := errors
    signals := s.signals ++ [errors]
    frontEnd := if s.frontEnd = .waiting then .awake else s.frontEnd }

end State

variable [Fintype N] (l : Load N)

/-- A report without errors has three empty arrays. -/
def procFilterLoadEvent (s : State N) (n : N) (errors : List FilterError) : State N :=
  let x := s.node n
  let x := { x with
    filterChildrenReported := x.filterChildrenReported + 1
    filterErrors := x.filterErrors ++ errors }
  if x.filterChildrenWaiting + 1 = x.filterChildrenReported ∧ n ≠ l.tree.root then
    s.setNode n { x with sent := x.sent ++ [x.filterErrors] }
  else if n = l.tree.root ∧ (l.tree.children n).card = x.filterChildrenReported then
    (s.signalProtEvent x.filterErrors).setNode n
      { x with filterChildrenReported := 0, filterErrors := [] }
  else s.setNode n x

/-- `proc_newFilter` of a back-end. -/
def backEndRequest (s : State N) (n : N) : Option (State N) :=
  match (s.node n).phase with
  | .requested => some (s.setPhase n .loaded)
  | .loaded => some (s.setNode n
      { s.node n with phase := .done, sent := (s.node n).sent ++ [l.ownErrors n] })
  | _ => none

/-- `proc_newFilter` of an internal node. The counters are reset without a lock. -/
def parentRequest (s : State N) (n : N) : Option (State N) :=
  let x := s.node n
  match x.phase with
  | .requested => some (s.setNode n { x with phase := .reset, filterChildrenReported := 0 })
  | .reset => some (s.setNode n { x with phase := .cleared, filterErrors := [] })
  | .cleared => some (s.setNode n
      { x with phase := .ready, filterChildrenWaiting := (l.tree.children n).card })
  | .ready => some ((s.sendPacketToChildren l n).setPhase n .forwarded)
  | .forwarded => some (s.setPhase n .loaded)
  | .loaded => some (procFilterLoadEvent l (s.setPhase n .done) n (l.ownErrors n))
  | _ => none

def request (s : State N) (n : N) : Option (State N) :=
  if n = l.tree.root then none
  else if l.backEnd n then backEndRequest l s n
  else parentRequest l s n

/-- The parent of a node takes the next report of the node. -/
def report (s : State N) (n : N) : Option (State N) :=
  match l.tree.parent n, (s.node n).sent[(s.node n).taken]? with
  | some p, some errors => some (procFilterLoadEvent l
      (s.setNode n { s.node n with taken := (s.node n).taken + 1 }) p errors)
  | _, _ => none

/-- Functions that failed somewhere are not counted. -/
def loadFilterFuncs (s : State N) : Option (State N) :=
  match s.frontEnd with
  | .start =>
      if l.requested = [] then some { s with frontEnd := .returned 0 }
      else some { s.sendPacketToChildren l l.tree.root with frontEnd := .sent }
  | .sent =>
      some { s with frontEnd :=
        if (l.tree.children l.tree.root).card = 0 then .awake else .waiting }
  | .awake =>
      some { s with frontEnd := .returned (BitVec.ofNat 32 l.requested.length -
        BitVec.ofNat 32 (s.filterErrors.map (·.funcId)).toFinset.card) }
  | _ => none

/-- `WaitOnCondition` may return without a signal. -/
def wake (s : State N) : Option (State N) :=
  if s.frontEnd = .waiting then some { s with frontEnd := .awake } else none

def step (s : State N) : Action N → Option (State N)
  | .request n => request l s n
  | .report n => report l s n
  | .loadFilterFuncs => loadFilterFuncs l s
  | .wake => wake s

/-- No request is under way. The internal nodes keep the counters of the last one. -/
structure Between (s : State N) : Prop where
  phase : ∀ n, (s.node n).phase = .idle
  sent : ∀ n, (s.node n).sent = []
  taken : ∀ n, (s.node n).taken = 0
  reported : (s.node l.tree.root).filterChildrenReported = 0
  errors : (s.node l.tree.root).filterErrors = []
  frontEnd : s.frontEnd = .start
  signals : s.signals = []

end Steps

end MRNet.FilterLoad
