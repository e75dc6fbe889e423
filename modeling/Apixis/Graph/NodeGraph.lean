import Apixis.Graph.Target
import Apixis.Library.Dict
import Apixis.Library.Machine
import Apixis.Library.Slots
import Mathlib.Algebra.Order.Ring.Unbundled.Rat

/-! Graphs and their contexts: `GraphContext` with its completion future, and the
operations of `NodeGraph` that create, restore, admit and end contexts. A copy of
a value is that value, if it can be copied at all; objects shared on purpose
(`KeepRef`) are only told apart by not being copied. -/
namespace Apixis.NodeGraph
open PyError (raiseIf leaving)

variable {V : Type}

abbrev StateDict (V : Type) := Dict String V

/- `copy.deepcopy` of a state mapping, or `copy_state` when some keys keep their reference. -/
def copyState (copyable : V → Bool) (keepRefKeys : List String) (state : StateDict V) :
    Except PyError (StateDict V) := do
  raiseIf (state.entries.any (fun e => !keepRefKeys.contains e.1 && !copyable e.2))
    ⟨.copyError,"cannot copy state"⟩
  return state

inductive Status where
  | pending
  | running
  | failed
  | aborted
  | finished
  deriving DecidableEq, Repr

def Status.terminal : Status → Bool
  | .failed => true
  | .aborted => true
  | .finished => true
  | _ => false

def Status.shown : Status → String
  | .pending => "pending"
  | .running => "running"
  | .failed => "failed"
  | .aborted => "aborted"
  | .finished => "finished"

def allowed : Status → Status → Bool
  | .pending, .running => true
  | .pending, .failed => true
  | .pending, .aborted => true
  | .running, .failed => true
  | .running, .aborted => true
  | .running, .finished => true
  | _, _ => false

structure Snapshot (V : Type) where
  timestamp : ℚ
  state : StateDict V
  targetNodeName : Target
  steps : Int
  graphId : Nat
  deriving DecidableEq

inductive Future (V : Type) where
  | pending
  | result (state : StateDict V)
  | exception (error : PyError)
  | cancelled
  deriving DecidableEq

def Future.done : Future V → Bool
  | .pending => false
  | _ => true

def Future.set (f : Future V) (value : Future V) : Except PyError (Future V) :=
  if f.done then .error ⟨.invalidStateError,"invalid state"⟩ else .ok value

def Future.cancel (f : Future V) : Future V := if f.done then f else .cancelled

/- `onTerminal` is the graph whose running set the bound callback discards from. -/
structure GraphContext (V : Type) where
  graphId : Nat
  runId : Option Nat
  state : StateDict V
  targetNodeName : Target
  steps : Int
  contextSnapshot : List (Snapshot V)
  completion : Option (Future V)
  status : Status
  onTerminal : Option Nat
  deriving DecidableEq

/- What a graph is compiled to, once for all. -/
structure Compiled where
  nodes : List String
  entryPoint : Target
  noSnapshot : Bool
  autoMergeKeys : List String
  keepRefKeys : List String
  deriving DecidableEq, Repr

/- `contexts` are the positions of the running attempts. -/
structure Graph extends Compiled where
  maxSteps : Int
  contexts : List Nat
  decomposed : Bool
  deriving DecidableEq, Repr

/- A graph is known by its position, which is its id; `runs` counts the run ids given. -/
structure World (V : Type) where
  graphs : List Graph
  contexts : List (GraphContext V)
  runs : Nat
  deriving DecidableEq

def initial : World V := ⟨[],[],0⟩

/- What a call gives back, and the world it leaves when it raises. -/
abbrev Call (V : Type) := Except (PyError × World V)

def GraphContext.isActive (context : GraphContext V) : Bool := context.status == .running

def World.setContext (w : World V) (c : Nat) (context : GraphContext V) : World V :=
  {w with contexts := w.contexts.set c context}

def World.setGraph (w : World V) (g : Nat) (graph : Graph) : World V :=
  {w with graphs := w.graphs.set g graph}

def discardFrom (graphs : List Graph) (g c : Nat) : List Graph :=
  match graphs[g]? with
  | some graph => graphs.set g {graph with contexts := graph.contexts.filter (fun d => d != c)}
  | none => graphs

def World.discard (w : World V) (g c : Nat) : World V := {w with graphs := discardFrom w.graphs g c}

def World.enter (w : World V) (c : Nat) (context : GraphContext V) (status : Status) : World V :=
  if status = .running then w.setContext c {context with status := status}
  else match context.onTerminal with
    | some g => (w.setContext c {context with status := status, onTerminal := none}).discard g c
    | none => w.setContext c {context with status := status}

def transitionTo (w : World V) (c : Nat) (context : GraphContext V) (status : Status) : Call V (World V) :=
  if status = context.status ∧ status.terminal then .ok w
  else if allowed context.status status then .ok (w.enter c context status)
  else .error (⟨.runtimeError,"Invalid GraphContext status transition: " ++ context.status.shown ++
    " -> " ++ status.shown ++ "."⟩,w)

/- Settle the completion of `c` unless it is done, or there is none. -/
def settle (w : World V) (c : Nat) (value : GraphContext V → Future V) : Call V (World V) :=
  match w.contexts[c]? with
  | none => .ok w
  | some context => match context.completion with
      | none => .ok w
      | some completion =>
          if completion.done then .ok w
          else do
            let completion ← leaving w (completion.set (value context))
            return w.setContext c {context with completion := some completion}

/- What `_finish`, `_fail`, `abort` and `_cancel` have in common. -/
def conclude (w : World V) (c : Nat) (context : GraphContext V) (status : Status)
    (value : GraphContext V → Future V) : Call V (World V) := do
  let w ← transitionTo w c context status
  settle w c value

def finish (w : World V) (c : Nat) (context : GraphContext V) : Call V (World V) := do
  leaving w (raiseIf context.completion.isNone ⟨.runtimeError,
    "Cannot finish a running context because the completion is None."⟩)
  conclude w c context .finished (fun context => .result context.state)

def fail (w : World V) (c : Nat) (context : GraphContext V) (error : PyError) : Call V (World V) :=
  conclude w c context .failed (fun _ => .exception error)

def latestSnapshotState (context : GraphContext V) : StateDict V :=
  match context.contextSnapshot.getLast? with
  | some snapshot => snapshot.state
  | none => context.state

def abortResult (context : GraphContext V) : Future V := .result (latestSnapshotState context)

/- `GraphContext.abort`. -/
def abort (w : World V) (c : Nat) (context : GraphContext V) : Call V (World V) :=
  conclude w c context .aborted abortResult

def cancel (w : World V) (c : Nat) (context : GraphContext V) : Call V (World V) :=
  conclude w c context .aborted (fun _ => .cancelled)

def World.isActiveContext (w : World V) (g c : Nat) : Bool :=
  match w.graphs[g]?, w.contexts[c]? with
  | some graph, some context =>
      !graph.decomposed && context.graphId == g && graph.contexts.contains c && context.isActive
  | _, _ => false

/- `NodeGraph._finish` and `NodeGraph._fail`. -/
def graphFinish (w : World V) (g c : Nat) : Call V (World V) :=
  match w.contexts[c]? with
  | some context => if w.isActiveContext g c then finish w c context else .ok w
  | none => .ok w

def graphFail (w : World V) (g c : Nat) (error : PyError) : Call V (World V) :=
  match w.contexts[c]? with
  | some context => if w.isActiveContext g c then fail w c context error else .ok w
  | none => .ok w

def decomposedError : PyError := ⟨.runtimeError,"NodeGraph has been decomposed."⟩

def ensureNotDecomposed (graph : Graph) : Except PyError Unit := raiseIf graph.decomposed decomposedError

def newContext (g : Nat) (graph : Graph) (state : StateDict V) : GraphContext V :=
  ⟨g,none,state,graph.entryPoint,0,[],none,.pending,none⟩

/- The arguments of `invoke` and `stream`. -/
inductive StateArg (V : Type) where
  | none
  | dict (state : StateDict V)
  | other
  deriving DecidableEq

section Copying
variable (copyable : V → Bool)

def prepareState (keepRefKeys : List String) : StateArg V → Except PyError (StateDict V)
  | .dict state => copyState copyable keepRefKeys state
  | _ => .error ⟨.typeError,"Graph state must be a dict."⟩

def createContext (w : World V) (g : Nat) (graph : Graph) (state : StateArg V) : Call V (World V) := do
  leaving w (ensureNotDecomposed graph)
  let prepared ← leaving w (prepareState copyable graph.keepRefKeys state)
  return {w with contexts := w.contexts ++ [newContext g graph prepared]}

/- A value found in a checkpoint mapping that the caller supplies. -/
inductive Raw (V : Type) where
  | text (s : String)
  /- The hexadecimal id of a graph. -/
  | graphId (g : Nat)
  | texts (l : List String)
  | dict (d : StateDict V)
  | int (i : Int)
  | bool (b : Bool)
  | float (q : ℚ)
  | other
  deriving DecidableEq

structure RawSnapshot (V : Type) where
  timestamp : Option (Raw V)
  state : Option (Raw V)
  targetNodeName : Option (Raw V)
  steps : Option (Raw V)
  graphId : Option (Raw V)
  deriving DecidableEq

def Target.raw : Target → Raw V
  | .node name => .text name
  | .batch names => .texts names

def Snapshot.raw (snapshot : Snapshot V) : RawSnapshot V :=
  ⟨some (.float snapshot.timestamp),some (.dict snapshot.state),
    some (Target.raw snapshot.targetNodeName),some (.int snapshot.steps),
    some (.graphId snapshot.graphId)⟩

def RawSnapshot.missing (raw : RawSnapshot V) : List String :=
  (if raw.graphId.isNone then ["graph_id"] else []) ++ (if raw.state.isNone then ["state"] else []) ++
  (if raw.steps.isNone then ["steps"] else []) ++
  (if raw.targetNodeName.isNone then ["target_node_name"] else []) ++
  (if raw.timestamp.isNone then ["timestamp"] else [])

def rawGraphId (g : Nat) : Raw V → Except PyError Nat
  | .graphId h => do
      raiseIf (h != g) ⟨.valueError,"GraphContext snapshot belongs to a different graph."⟩
      return h
  | .text _ => .error ⟨.valueError,"GraphContext snapshot belongs to a different graph."⟩
  | _ => .error ⟨.typeError,"GraphContext snapshot graph_id must be a string."⟩

def rawState : Raw V → Except PyError (StateDict V)
  | .dict d => .ok d
  | _ => .error ⟨.typeError,"GraphContext snapshot state must be a dict."⟩

def rawTarget : Raw V → Except PyError Target
  | .text s => .ok (.node s)
  | .texts l => .ok (.batch l)
  | _ => .error ⟨.typeError,
      "GraphContext snapshot target_node_name must be a string or list of strings."⟩

def rawSteps : Raw V → Except PyError Int
  | .int i => do
      raiseIf (decide (i < 0)) ⟨.valueError,"GraphContext snapshot steps cannot be negative."⟩
      return i
  | _ => .error ⟨.typeError,"GraphContext snapshot steps must be an int."⟩

def rawTimestamp : Raw V → Except PyError ℚ
  | .float q => .ok q
  | .int i => .ok i
  | _ => .error ⟨.typeError,"GraphContext snapshot timestamp must be a number."⟩

/- `_validate_snapshot`; `none` stands for a value that is no dict. -/
def validateSnapshot (g : Nat) : Option (RawSnapshot V) → Except PyError (Snapshot V)
  | none => .error ⟨.typeError,"GraphContext snapshot must be a dict."⟩
  | some raw => match raw with
      | ⟨some timestamp,some state,some target,some steps,some graphId⟩ => do
          let graphId ← rawGraphId g graphId
          let state ← rawState state
          let target ← rawTarget target
          let steps ← rawSteps steps
          let timestamp ← rawTimestamp timestamp
          return ⟨timestamp,state,target,steps,graphId⟩
      | raw => .error ⟨.valueError,"GraphContext snapshot is missing required fields: " ++
          String.intercalate ", " raw.missing ++ "."⟩

def validateAll (g : Nat) : List (Option (RawSnapshot V)) → Except PyError (List (Snapshot V))
  | [] => .ok []
  | raw :: rest => do return (← validateSnapshot g raw) :: (← validateAll g rest)

/- A sequence index, and the end of a slice from the start, as Python counts them. -/
def indexAt (length : Nat) (version : Int) : Option Nat :=
  let place := if version < 0 then version + length else version
  if 0 ≤ place ∧ place < length then some place.toNat else none

def sliceEnd (length : Nat) (version : Int) : Nat :=
  let place := if version < 0 then version + length else version
  min place.toNat length

/- What `restore_context` is given. -/
inductive Source (V : Type) where
  | context (c : Nat)
  | snapshots (l : List (Option (RawSnapshot V)))
  /- A dict that is not empty. -/
  | snapshot (raw : RawSnapshot V)
  /- Something empty, such as None or an empty dict. -/
  | nothing
  | other
  deriving DecidableEq

def noSnapshotError : PyError := ⟨.runtimeError,"Cannot restore a GraphContext without a snapshot."⟩

def selectHistory (l : List (Option (RawSnapshot V))) (version : Int) :
    Except PyError (List (Option (RawSnapshot V))) := do
  raiseIf l.isEmpty noSnapshotError
  match (indexAt l.length version).bind (fun i => l[i]?) with
  | none => throw ⟨.indexError,"list index out of range"⟩
  | some selected => return l.take (sliceEnd l.length version) ++ [selected]

def sourceHistory (w : World V) (g : Nat) (version : Int) :
    Source V → Except PyError (List (Option (RawSnapshot V)))
  | .context c => match w.contexts[c]? with
      | none => .error noSnapshotError
      | some context => do
          raiseIf (context.graphId != g) ⟨.valueError,"GraphContext belongs to a different graph."⟩
          selectHistory (context.contextSnapshot.map (fun s => some s.raw)) version
  | .snapshots l => selectHistory l version
  | .snapshot raw => .ok [some raw]
  | .nothing => .error noSnapshotError
  | .other => .error ⟨.typeError,
      "GraphContext snapshot must be a dict, a list of dicts or a GraphContext itself."⟩

def copyAll : List (Snapshot V) → Except PyError Unit
  | [] => .ok ()
  | snapshot :: rest => do
      let _ ← copyState copyable [] snapshot.state
      copyAll rest

def restoredContext (g : Nat) (history : List (Snapshot V)) (restored : Snapshot V) : GraphContext V :=
  ⟨g,none,restored.state,restored.targetNodeName,restored.steps,history,none,.pending,none⟩

def restoreContext (w : World V) (g : Nat) (graph : Graph) (source : Source V) (version : Int) :
    Call V (World V) := do
  leaving w (ensureNotDecomposed graph)
  let raw ← leaving w (sourceHistory w g version source)
  let history ← leaving w (validateAll g raw)
  leaving w (copyAll copyable history)
  match history.getLast? with
  | none => throw (⟨.indexError,"list index out of range"⟩,w)
  | some restored =>
      return {w with contexts := w.contexts ++ [restoredContext g history restored]}

inductive ContextArg where
  | none
  | context (c : Nat)
  | other
  deriving DecidableEq, Repr

def budgetError (maxSteps : Int) : PyError :=
  ⟨.recursionError,"Graph exceeded its maximum of " ++ toString maxSteps ++ " steps."⟩

def validateTarget (graph : Graph) (target : Target) (steps : Int) : Except PyError Target := do
  raiseIf (decide (steps < 0)) ⟨.valueError,"Graph steps cannot be negative."⟩
  let target ← Target.normaliseTarget graph.nodes (.target target)
  raiseIf (decide (target ≠ .node END) && decide (graph.maxSteps ≤ steps)) (budgetError graph.maxSteps)
  return target

def foreignError : PyError := ⟨.invalidContextError,"GraphContext belongs to a different graph."⟩

/- `_bind`, and the entry into the running set. -/
def admitContext (w : World V) (g c : Nat) (graph : Graph) (context : GraphContext V) : Call V (World V) := do
  let w ← transitionTo w c context .running
  let bound := {context with
    status := .running
    runId := some w.runs
    completion := some .pending
    onTerminal := some g}
  return ({w with runs := w.runs + 1}.setContext c bound).setGraph g
    {graph with contexts := graph.contexts ++ [c]}

def beginWith (w : World V) (g c : Nat) (graph : Graph) : Call V (World V) :=
  match w.contexts[c]? with
  | none => .error (foreignError,w)
  | some context => do
      leaving w (raiseIf (context.graphId != g) foreignError)
      leaving w (raiseIf (context.status != .pending) ⟨.invalidContextError,
        "GraphContext must be pending before starting an invocation."⟩)
      let _ ← leaving w (validateTarget graph context.targetNodeName context.steps)
      admitContext w g c graph context

def beginInvocation (w : World V) (g : Nat) (graph : Graph) (state : StateArg V)
    (context : ContextArg) : Call V (World V) := do
  leaving w (ensureNotDecomposed graph)
  match context, state with
  | .none, .dict d => do
      let created ← createContext copyable w g graph (.dict d)
      -- nobody holds the context that was created for a rejected call
      (beginWith created g w.contexts.length graph).mapError (fun raised => (raised.1,w))
  | .none, _ => throw (⟨.typeError,"Graph state must be a dict."⟩,w)
  | .context c, .none => beginWith w g c graph
  | .other, .none => throw (⟨.typeError,"graph_context must be a GraphContext or None."⟩,w)
  | _, _ => throw (⟨.typeError,"Pass either state or graph_context, not both."⟩,w)

end Copying

/- `NodeGraph.abort`. -/
def graphAbort (w : World V) (g : Nat) (graph : Graph) (context : ContextArg) : Call V (World V) := do
  leaving w (ensureNotDecomposed graph)
  match context with
  | .context c => match w.contexts[c]? with
      | none => return w
      | some context =>
          if context.isActive || context.status == .pending then do
            leaving w (raiseIf (context.graphId != g)
              ⟨.valueError,"GraphContext belongs to a different graph."⟩)
            abort w c context
          else return w
  | _ => throw (⟨.typeError,"NodeGraph.abort requires a GraphContext instance."⟩,w)

def abortAll (w : World V) : List Nat → Call V (World V)
  | [] => .ok w
  | c :: rest => match w.contexts[c]? with
      | none => abortAll w rest
      | some context => do abortAll (← abort w c context) rest

def decompose (w : World V) (g : Nat) (graph : Graph) (force : Bool) : Call V (World V) :=
  if graph.decomposed then .ok w
  else do
    leaving w (raiseIf (!graph.contexts.isEmpty && !force) ⟨.runtimeError,
      "Cannot decompose a NodeGraph while contexts are running."⟩)
    abortAll (w.setGraph g {graph with decomposed := true}) graph.contexts

structure Definition where
  nodes : List String
  entryPoint : Goto
  maxSteps : Int
  noSnapshot : Bool
  autoMergeKeys : List String
  keepRefKeys : List String
  deriving DecidableEq, Repr

def construct (w : World V) (definition : Definition) : Call V (World V) := do
  let entryPoint ← leaving w (Target.normaliseTarget definition.nodes definition.entryPoint)
  return {w with graphs := w.graphs ++ [⟨⟨definition.nodes,entryPoint,
    definition.noSnapshot,definition.autoMergeKeys,definition.keepRefKeys⟩,definition.maxSteps,[],false⟩]}

def setMaxSteps (w : World V) (g : Nat) (graph : Graph) (steps : Int) : Call V (World V) := do
  leaving w (ensureNotDecomposed graph)
  return w.setGraph g {graph with maxSteps := steps}

/- `completion.cancel()` from outside, which the status does not follow. -/
def cancelCompletion (w : World V) (c : Nat) (context : GraphContext V) : World V :=
  match context.completion with
  | some completion => w.setContext c {context with completion := some completion.cancel}
  | none => w

inductive Action (V : Type) where
  | construct (definition : Definition)
  | createContext (g : Nat) (state : StateArg V)
  | restoreContext (g : Nat) (source : Source V) (version : Int)
  /- The admission of `invoke` or `stream`. -/
  | beginInvocation (g : Nat) (state : StateArg V) (context : ContextArg)
  | finish (c : Nat)
  | fail (c : Nat) (error : PyError)
  | abort (c : Nat)
  | cancel (c : Nat)
  | graphFinish (g c : Nat)
  | graphFail (g c : Nat) (error : PyError)
  | graphAbort (g : Nat) (context : ContextArg)
  /- The caller that waits for the completion is cancelled. -/
  | cancelCompletion (c : Nat)
  | decompose (g : Nat) (force : Bool)
  | setMaxSteps (g : Nat) (steps : Int)
  deriving DecidableEq

/- An operation on a graph or a context that does not exist cannot be called. -/
def perform (copyable : V → Bool) (w : World V) : Action V → Option (Call V (World V))
  | .construct definition => some (construct w definition)
  | .createContext g state => do
      let graph ← w.graphs[g]?
      some (createContext copyable w g graph state)
  | .restoreContext g source version => do
      let graph ← w.graphs[g]?
      some (restoreContext copyable w g graph source version)
  | .beginInvocation g state context => do
      let graph ← w.graphs[g]?
      some (beginInvocation copyable w g graph state context)
  | .finish c => do
      let context ← w.contexts[c]?
      some (finish w c context)
  | .fail c error => do
      let context ← w.contexts[c]?
      some (fail w c context error)
  | .abort c => do
      let context ← w.contexts[c]?
      some (abort w c context)
  | .cancel c => do
      let context ← w.contexts[c]?
      some (cancel w c context)
  | .graphFinish g c => some (graphFinish w g c)
  | .graphFail g c error => some (graphFail w g c error)
  | .graphAbort g context => do
      let graph ← w.graphs[g]?
      some (graphAbort w g graph context)
  | .cancelCompletion c => do
      let context ← w.contexts[c]?
      some (.ok (cancelCompletion w c context))
  | .decompose g force => do
      let graph ← w.graphs[g]?
      some (decompose w g graph force)
  | .setMaxSteps g steps => do
      let graph ← w.graphs[g]?
      some (setMaxSteps w g graph steps)

/- The caller goes on whether the call returns or raises. -/
def step (copyable : V → Bool) (w : World V) (a : Action V) : Option (World V) :=
  (perform copyable w a).map PyError.stateOf

end Apixis.NodeGraph
