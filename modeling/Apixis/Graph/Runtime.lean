import Apixis.Event.Consumer
import Apixis.Event.Dispatch
import Apixis.Graph.ApplyCommand

/-! Graphs on the event loop: the world of graphs and contexts, the consumer with
its queue, the dispatches of events with the nodes they run, and the calls of
`_invoke` that wait. An action is at most what one task runs between two awaits.
The chain of an event is what the registry gave when the event was taken. -/
namespace Apixis.Runtime
open NodeGraph ApplyCommand

variable {V : Type}

/- A dispatch event of graph `g` carrying context `c`, or anybody else's event. -/
inductive Event where
  | dispatch (g c : Nat)
  | other (k : Nat)
  deriving DecidableEq, Repr

def Event.context : Event → Option Nat
  | .dispatch _ c => some c
  | .other _ => none

/- A plugin, whose callbacks do what the actions say, or a graph's `dispatch_node`. -/
inductive Handler where
  | plugin (flags : Dispatch.Flags)
  | graph (g : Nat)
  deriving DecidableEq, Repr

def dispatchFlags : Dispatch.Flags := ⟨false,true,true,true,true,true⟩

def Handler.flags : Handler → Dispatch.Flags
  | .plugin flags => flags
  | .graph _ => dispatchFlags

inductive NodeOutcome (V : Type) where
  | returned (result : Result V)
  | raised (error : PyError)
  | cancelled
  deriving DecidableEq

def NodeOutcome.isCancelled : NodeOutcome V → Bool
  | .cancelled => true
  | _ => false

/- A task of `_execute_one_node`: the copy it has taken and how it has ended. -/
structure NodeTask (V : Type) where
  name : String
  input : Option (StateDict V)
  outcome : Option (NodeOutcome V)
  deriving DecidableEq

/- Where `dispatch_node` waits: for its nodes, for room in the queue, for its permit. -/
inductive Work where
  | idle
  | gathering
  | posting
  | resuming
  deriving DecidableEq, Repr

/- A dispatch task with the node tasks it has created. `posted`: it has put the
next event. `failure` is what its own core has raised. -/
structure DispatchTask (V : Type) where
  event : Event
  run : Dispatch.State Handler
  work : Work
  nodes : List (NodeTask V)
  posted : Bool
  failure : Option PyError
  deriving DecidableEq

def DispatchTask.new (event : Event) (chain : List Handler) : DispatchTask V :=
  ⟨event,Dispatch.initial chain,.idle,[],false,none⟩

/- Where a call of `_invoke` is. -/
inductive Stage where
  | admitted
  | posting
  | resuming
  | waiting
  | ended
  deriving DecidableEq, Repr

structure Invocation where
  graphId : Nat
  context : Nat
  stage : Stage
  deriving DecidableEq, Repr

structure State (V : Type) where
  world : World V
  consumer : Consumer.State Event Handler
  tasks : List (DispatchTask V)
  invocations : List Invocation
  deriving DecidableEq

def initial (maxsize : Nat) : State V := ⟨NodeGraph.initial,Consumer.initial maxsize,[],[]⟩

/- The graph whose callback is running in this task, and which callback. -/
def DispatchTask.calling (task : DispatchTask V) : Option (Nat × Dispatch.Phase) :=
  match task.run.pc with
  | .execute i (.calling phase _) => match task.run.chain[i]? with
      | some (.graph g) => some (g,phase)
      | _ => none
  | _ => none

def DispatchTask.notifying (task : DispatchTask V) : Option Nat :=
  match task.run.pc with
  | .notifying i => match task.run.chain[i]? with
      | some (.graph g) => some g
      | _ => none
  | _ => none

/- The environment decides how the callbacks of plugins end, not those of graphs. -/
def DispatchTask.allows (task : DispatchTask V) : Dispatch.Action → Bool
  | .callback _ => task.calling.isNone
  | .notified => task.notifying.isNone
  | _ => true

def DispatchTask.answer (task : DispatchTask V) (outcome : Dispatch.Outcome) : Option (DispatchTask V) := do
  let run ← Dispatch.step Handler.flags task.run (.callback outcome)
  some {task with run := run, work := .idle}

def outcomeOf : Call V (World V) → Dispatch.Outcome
  | .ok _ => .returned
  | .error _ => .raised

section Calls
variable (w : World V) (g c : Nat)

/- `if context.is_active: self._fail(context, exc)`. -/
def failIfActive (error : PyError) : Call V (World V) :=
  match w.contexts[c]? with
  | some x => if x.isActive then graphFail w g c error else .ok w
  | none => .ok w

/- `on_dispatch_accepted`. -/
def abortIfActive : Call V (World V) :=
  match w.contexts[c]? with
  | some x => if w.isActiveContext g c then abort w c x else .ok w
  | none => .ok w

/- `on_dispatch_cancelled`. -/
def cancelIfActive : Call V (World V) :=
  match w.contexts[c]? with
  | some x => if w.isActiveContext g c then cancel w c x else .ok w
  | none => .ok w

/- `if context.status == "running": context._cancel()`. -/
def cancelIfRunning : Call V (World V) :=
  match w.contexts[c]? with
  | some x => if x.status = .running then cancel w c x else .ok w
  | none => .ok w

end Calls

def precedingError : PyError := ⟨.graphNodeError,"Graph dispatch failed in a preceding event handler"⟩

/- The notifications of a graph's handler: upstream errors, acceptance, its own failure. -/
def notification (w : World V) (g : Nat) (failure : Option PyError) (phase : Dispatch.Phase) :
    Event → Call V (World V)
  | .other _ => .ok w
  | .dispatch _ c => match phase with
      | .onHasError => graphFail w g c precedingError
      | .onAccepted => abortIfActive w g c
      | .onError => graphFail w g c (failure.getD precedingError)
      | .coreFunc => .ok w

def cancellation (w : World V) (g : Nat) : Event → Call V (World V)
  | .other _ => .ok w
  | .dispatch _ c => cancelIfActive w g c

def NodeTask.new (name : String) : NodeTask V := ⟨name,none,none⟩
def NodeTask.isReturned (node : NodeTask V) : Option (Result V) :=
  match node.outcome with
  | some (.returned result) => some result
  | _ => none

def allReturned : List (NodeTask V) → Option (List (Result V))
  | [] => some []
  | node :: rest => do
      let result ← node.isReturned
      let results ← allReturned rest
      some (result :: results)

/- How `_gather_tasks_in_order` ends: with all results, with the error of the node
at position `i`, or with a CancelledError. -/
inductive Gathered where
  | returned
  | raised (i : Nat)
  | cancelled
  deriving DecidableEq, Repr

section Nodes
variable (values : Values V)

/- `take_a_snapshot`. -/
def takeSnapshot (x : GraphContext V) (now : ℚ) : Except PyError (GraphContext V) := do
  PyError.raiseIf (!x.isActive)
    ⟨.runtimeError,"A snapshot can only be taken from an active GraphContext."⟩
  let state ← copyState values.copyable [] x.state
  return {x with
    contextSnapshot := x.contextSnapshot ++ [⟨now,state,x.targetNodeName,x.steps,x.graphId⟩]}

/- The start of `_execute_node`, up to the node tasks. -/
def executeNode (graph : Graph) (x : GraphContext V) (now : ℚ) :
    Except PyError (List String × GraphContext V) := do
  let names ← Target.normaliseTargets x.targetNodeName
  if graph.noSnapshot then return (names,x)
  else
    let taken ← takeSnapshot values x now
    return (names,taken)

/- `dispatch_node` for a context that is active: the task goes on to wait for its
nodes, or the callback ends. -/
def dispatchNode (w : World V) (task : DispatchTask V) (g c : Nat) (graph : Graph) (x : GraphContext V)
    (now : ℚ) : Option (DispatchTask V × World V) :=
  if x.targetNodeName = .node END then do
    let call := graphFinish w g c
    let answered ← task.answer (outcomeOf call)
    some (answered,PyError.stateOf call)
  else match executeNode values graph x now with
    | .error error => do
        let answered ← ({task with failure := some error}).answer .raised
        some (answered,w)
    | .ok (names,y) =>
        some ({task with work := .gathering, nodes := names.map NodeTask.new},w.setContext c y)

def core (w : World V) (task : DispatchTask V) (g : Nat) (now : ℚ) : Option (DispatchTask V × World V) :=
  match task.event with
  | .other _ => do
      let answered ← task.answer .returned
      some (answered,w)
  | .dispatch _ c =>
      if w.isActiveContext g c then do
        let graph ← w.graphs[g]?
        let x ← w.contexts[c]?
        dispatchNode values w task g c graph x now
      else do
        let answered ← task.answer .returned
        some (answered,w)

def startNode (graph : Graph) (x : GraphContext V) (node : NodeTask V) : NodeTask V :=
  match copyState values.copyable graph.keepRefKeys x.state with
  | .ok state => {node with input := some state}
  | .error error => {node with outcome := some (.raised error)}

/- `_execute_node` from the results on: what it leaves, and whether it goes on to post. -/
def commit (w : World V) (g c : Nat) (graph : Graph) (x : GraphContext V) (names : List String)
    (results : List (Result V)) : Bool × Call V (World V) :=
  if x.isActive then
    match applyCommand values g graph results (.batch names) x with
    | .error (error,state) => (false,failIfActive (w.setContext c {x with state := state}) g c error)
    | .ok (next,state) =>
        let y := {x with state := state, steps := x.steps + 1}
        match validateTarget graph next y.steps with
        | .error error => (false,failIfActive (w.setContext c y) g c error)
        | .ok target => (true,.ok (w.setContext c {y with targetNodeName := target}))
  else (false,.ok w)

def gather (w : World V) (task : DispatchTask V) (g c : Nat) : Gathered → Option (DispatchTask V × World V)
  | .cancelled => do
      let answered ← task.answer .cancelled
      some (answered,w)
  | .raised i => do
      let node ← task.nodes[i]?
      match node.outcome with
      | some (.raised error) =>
          if task.nodes.all (fun other => other.outcome.isSome) then do
            let call := failIfActive w g c error
            let answered ← task.answer (outcomeOf call)
            some (answered,PyError.stateOf call)
          else none
      | _ => none
  | .returned => do
      let results ← allReturned task.nodes
      let graph ← w.graphs[g]?
      let x ← w.contexts[c]?
      match commit values w g c graph x (task.nodes.map NodeTask.name) results with
      | (true,call) => some ({task with work := .posting},PyError.stateOf call)
      | (false,call) => do
          let answered ← task.answer (outcomeOf call)
          some (answered,PyError.stateOf call)

/- What `_invoke` does with the value of the completion. -/
def outcomeCopy (graph : Graph) (x : GraphContext V) (state : StateDict V) :
    Except PyError (StateDict V) :=
  if x.status = .aborted && !x.contextSnapshot.isEmpty then copyState values.copyable [] state
  else copyState values.copyable graph.keepRefKeys state

def wake (w : World V) (g c : Nat) (graph : Graph) (x : GraphContext V) : Future V → Option (Call V (World V))
  | .pending => none
  | .result state => some (match outcomeCopy values graph x state with
      | .ok _ => .ok w
      | .error error => graphFail w g c error)
  | .exception error => some (graphFail w g c error)
  | .cancelled => some (cancelIfRunning w c)

end Nodes

/- The operations that are open to callers. -/
def isPublic : NodeGraph.Action V → Bool
  | .construct _ => true
  | .createContext _ _ => true
  | .restoreContext _ _ _ => true
  | .beginInvocation _ _ _ => true
  | .abort _ => true
  | .graphAbort _ _ => true
  | .decompose _ _ => true
  | .setMaxSteps _ _ => true
  | _ => false

inductive Action (V : Type) where
  | graph (a : NodeGraph.Action V)
  | consumer (a : Consumer.Action Event Handler)
  | dispatch (d : Nat) (a : Dispatch.Action)
  /- The callbacks of a graph's own handler. -/
  | notify (d : Nat)
  | notifyCancelled (d : Nat)
  | core (d : Nat) (now : ℚ)
  | startNode (d i : Nat)
  | endNode (d i : Nat) (outcome : NodeOutcome V)
  | gather (d : Nat) (how : Gathered)
  | put (d : Nat)
  | putFailed (d : Nat) (error : PyError)
  /- CancelledError while the task waits for room, or for its permit. -/
  | postCancelled (d : Nat)
  | resume (d : Nat)
  | invoke (k : Nat)
  | invokePut (k : Nat)
  | invokeFailed (k : Nat) (error : PyError)
  | invokeCancelled (k : Nat)
  | invokeResume (k : Nat)
  /- The caller that waits is cancelled, which cancels the completion first. -/
  | interrupt (k : Nat)
  | wake (k : Nat)
  deriving DecidableEq

/- The registry holds the handler of a live graph once. -/
def captures (w : World V) (chain : List Handler) : Event → Bool
  | .other _ => true
  | .dispatch g _ => match w.graphs[g]? with
      | some graph => chain.count (.graph g) == 1 ||
          (graph.decomposed && chain.count (.graph g) == 0)
      | none => false

def State.permits (s : State V) : Consumer.Action Event Handler → Bool
  | .publish _ event => event.context.isNone
  | .dequeue _ (.resolved chain) => match s.consumer.queue with
      | item :: _ => captures s.world chain item.event
      | [] => true
  | _ => true

def State.launched (s : State V) : Consumer.Action Event Handler → List (DispatchTask V)
  | .launch _ .launched => match s.consumer.pendingDispatch with
      | some (item,chain) => [DispatchTask.new item.event chain]
      | none => []
  | _ => []

/- The call of `_invoke` that follows an admission. -/
def State.started (s : State V) : NodeGraph.Action V → List Invocation
  | .beginInvocation g _ (.context c) => [⟨g,c,.admitted⟩]
  | .beginInvocation g _ _ => [⟨g,s.world.contexts.length,.admitted⟩]
  | _ => []

def State.setTask (s : State V) (d : Nat) (task : DispatchTask V) (w : World V) : State V :=
  {s with world := w, tasks := s.tasks.set d task}

def State.setInvocation (s : State V) (k : Nat) (invocation : Invocation) (stage : Stage)
    (w : World V) : State V :=
  {s with world := w, invocations := s.invocations.set k {invocation with stage := stage}}

def post (consumer : Consumer.State Event Handler) (g c : Nat) :
    Option (Consumer.State Event Handler) :=
  Consumer.step consumer (.publish .postEvent (.dispatch g c))

section Step
variable (values : Values V)

def step (s : State V) : Action V → Option (State V)
  | .graph a => if isPublic a then do
      match ← NodeGraph.perform values.copyable s.world a with
      | .ok w => some {s with world := w, invocations := s.invocations ++ s.started a}
      | .error (_,w) => some {s with world := w}
    else none
  | .consumer a => if s.permits a then do
      let consumer ← Consumer.step s.consumer a
      some {s with consumer := consumer, tasks := s.tasks ++ s.launched a}
    else none
  | .dispatch d a => do
      let task ← s.tasks[d]?
      if task.allows a then do
        let run ← Dispatch.step Handler.flags task.run a
        some (s.setTask d {task with run := run} s.world)
      else none
  | .notify d => do
      let task ← s.tasks[d]?
      let (g,phase) ← task.calling
      if phase = .coreFunc then none
      else do
        let call := notification s.world g task.failure phase task.event
        let answered ← task.answer (outcomeOf call)
        some (s.setTask d answered (PyError.stateOf call))
  | .notifyCancelled d => do
      let task ← s.tasks[d]?
      let g ← task.notifying
      let run ← Dispatch.step Handler.flags task.run .notified
      some (s.setTask d {task with run := run} (PyError.stateOf (cancellation s.world g task.event)))
  | .core d now => do
      let task ← s.tasks[d]?
      let (g,phase) ← task.calling
      if phase = .coreFunc ∧ task.work = .idle then do
        let (next,w) ← core values s.world task g now
        some (s.setTask d next w)
      else none
  | .startNode d i => do
      let task ← s.tasks[d]?
      let node ← task.nodes[i]?
      match task.event with
      | .other _ => none
      | .dispatch g c => do
          let graph ← s.world.graphs[g]?
          let x ← s.world.contexts[c]?
          if node.input.isNone && node.outcome.isNone then
            let nodes := task.nodes.set i (startNode values graph x node)
            some (s.setTask d {task with nodes := nodes} s.world)
          else none
  | .endNode d i outcome => do
      let task ← s.tasks[d]?
      let node ← task.nodes[i]?
      -- a node task that is cancelled before it starts never copies the state
      if node.outcome.isNone && (node.input.isSome || outcome.isCancelled) then
        let nodes := task.nodes.set i {node with outcome := some outcome}
        some (s.setTask d {task with nodes := nodes} s.world)
      else none
  | .gather d how => do
      let task ← s.tasks[d]?
      let (g,_) ← task.calling
      let c ← task.event.context
      if task.work = .gathering then do
        let (next,w) ← gather values s.world task g c how
        some (s.setTask d next w)
      else none
  | .put d => do
      let task ← s.tasks[d]?
      let (g,_) ← task.calling
      let c ← task.event.context
      if task.work = .posting then do
        let consumer ← post s.consumer g c
        some {s.setTask d {task with work := .resuming, posted := true} s.world with consumer := consumer}
      else none
  | .putFailed d error => do
      let task ← s.tasks[d]?
      let (g,_) ← task.calling
      let c ← task.event.context
      if task.work = .posting then do
        let call := failIfActive s.world g c error
        let answered ← task.answer (outcomeOf call)
        some (s.setTask d answered (PyError.stateOf call))
      else none
  | .postCancelled d => do
      let task ← s.tasks[d]?
      if task.work = .posting ∨ task.work = .resuming then do
        let answered ← task.answer .cancelled
        some (s.setTask d answered s.world)
      else none
  | .resume d => do
      let task ← s.tasks[d]?
      if task.work = .resuming then do
        let answered ← task.answer .returned
        some (s.setTask d answered s.world)
      else none
  | .invoke k => do
      let invocation ← s.invocations[k]?
      let graph ← s.world.graphs[invocation.graphId]?
      let x ← s.world.contexts[invocation.context]?
      if invocation.stage = .admitted then
        if s.world.isActiveContext invocation.graphId invocation.context then
          match validateTarget graph x.targetNodeName x.steps with
          | .error error =>
              some (s.setInvocation k invocation .ended
                (PyError.stateOf (graphFail s.world invocation.graphId invocation.context error)))
          | .ok target =>
              some (s.setInvocation k invocation .posting
                (s.world.setContext invocation.context {x with targetNodeName := target}))
        else some (s.setInvocation k invocation .waiting s.world)
      else none
  | .invokePut k => do
      let invocation ← s.invocations[k]?
      if invocation.stage = .posting then do
        let consumer ← post s.consumer invocation.graphId invocation.context
        some {s.setInvocation k invocation .resuming s.world with consumer := consumer}
      else none
  | .invokeFailed k error => do
      let invocation ← s.invocations[k]?
      if invocation.stage = .posting then
        some (s.setInvocation k invocation .ended
          (PyError.stateOf (graphFail s.world invocation.graphId invocation.context error)))
      else none
  | .invokeCancelled k => do
      let invocation ← s.invocations[k]?
      if invocation.stage = .posting ∨ invocation.stage = .resuming then
        some (s.setInvocation k invocation .ended
          (PyError.stateOf (cancelIfRunning s.world invocation.context)))
      else none
  | .invokeResume k => do
      let invocation ← s.invocations[k]?
      if invocation.stage = .resuming then some (s.setInvocation k invocation .waiting s.world)
      else none
  | .interrupt k => do
      let invocation ← s.invocations[k]?
      let x ← s.world.contexts[invocation.context]?
      if invocation.stage = .waiting then
        some {s with world := cancelCompletion s.world invocation.context x}
      else none
  | .wake k => do
      let invocation ← s.invocations[k]?
      let graph ← s.world.graphs[invocation.graphId]?
      let x ← s.world.contexts[invocation.context]?
      let completion ← x.completion
      if invocation.stage = .waiting then do
        let call ← wake values s.world invocation.graphId invocation.context graph x completion
        some (s.setInvocation k invocation .ended (PyError.stateOf call))
      else none

/- What one action of a task can do to it and to the world, with every guard. -/
inductive TaskStep (w : World V) (d : Nat) (task : DispatchTask V) : Action V → DispatchTask V → World V → Prop where
  | dispatch {a run} (allowed : task.allows a = true)
      (taken : Dispatch.step Handler.flags task.run a = some run) :
      TaskStep w d task (.dispatch d a) {task with run := run} w
  | notify {g phase next} (calling : task.calling = some (g,phase)) (notification_ : phase ≠ .coreFunc)
      (answered : task.answer (outcomeOf (notification w g task.failure phase task.event)) = some next) :
      TaskStep w d task (.notify d) next (PyError.stateOf (notification w g task.failure phase task.event))
  | notifyCancelled {g run} (notifying : task.notifying = some g)
      (taken : Dispatch.step Handler.flags task.run .notified = some run) :
      TaskStep w d task (.notifyCancelled d) {task with run := run}
        (PyError.stateOf (cancellation w g task.event))
  | coreIdle {now g next} (calling : task.calling = some (g,.coreFunc)) (idle : task.work = .idle)
      (inactive : ∀ h c, task.event = .dispatch h c → w.isActiveContext g c = false)
      (answered : task.answer .returned = some next) : TaskStep w d task (.core d now) next w
  | coreFinish {now g h c x next} (calling : task.calling = some (g,.coreFunc))
      (idle : task.work = .idle) (event : task.event = .dispatch h c)
      (active : w.isActiveContext g c = true) (found : w.contexts[c]? = some x)
      (end_ : x.targetNodeName = .node END)
      (answered : task.answer (outcomeOf (graphFinish w g c)) = some next) :
      TaskStep w d task (.core d now) next (PyError.stateOf (graphFinish w g c))
  | coreRaise {now g h c x graph error next} (calling : task.calling = some (g,.coreFunc))
      (idle : task.work = .idle) (event : task.event = .dispatch h c)
      (active : w.isActiveContext g c = true) (found : w.contexts[c]? = some x)
      (owner : w.graphs[g]? = some graph) (more : x.targetNodeName ≠ .node END)
      (raised : executeNode values graph x now = .error error)
      (answered : ({task with failure := some error}).answer .raised = some next) :
      TaskStep w d task (.core d now) next w
  | coreBegin {now g h c x y graph names} (calling : task.calling = some (g,.coreFunc))
      (idle : task.work = .idle) (event : task.event = .dispatch h c)
      (active : w.isActiveContext g c = true) (found : w.contexts[c]? = some x)
      (owner : w.graphs[g]? = some graph) (more : x.targetNodeName ≠ .node END)
      (begun : executeNode values graph x now = .ok (names,y)) :
      TaskStep w d task (.core d now) {task with work := .gathering, nodes := names.map NodeTask.new}
        (w.setContext c y)
  | startNode {i g c x graph node} (event : task.event = .dispatch g c)
      (there : task.nodes[i]? = some node) (owner : w.graphs[g]? = some graph)
      (found : w.contexts[c]? = some x) (unstarted : node.input = none) (open_ : node.outcome = none) :
      TaskStep w d task (.startNode d i) {task with nodes := task.nodes.set i (startNode values graph x node)} w
  | endNode {i node outcome} (there : task.nodes[i]? = some node) (open_ : node.outcome = none)
      (started : node.input.isSome = true ∨ outcome.isCancelled = true) :
      TaskStep w d task (.endNode d i outcome)
        {task with nodes := task.nodes.set i {node with outcome := some outcome}} w
  | gatherCancelled {g phase c next} (calling : task.calling = some (g,phase))
      (context : task.event.context = some c) (work : task.work = .gathering)
      (answered : task.answer .cancelled = some next) : TaskStep w d task (.gather d .cancelled) next w
  | gatherRaised {i g phase c node error next} (calling : task.calling = some (g,phase))
      (context : task.event.context = some c) (work : task.work = .gathering)
      (there : task.nodes[i]? = some node) (raised : node.outcome = some (.raised error))
      (past : ∀ other ∈ task.nodes, other.outcome.isSome = true)
      (answered : task.answer (outcomeOf (failIfActive w g c error)) = some next) :
      TaskStep w d task (.gather d (.raised i)) next (PyError.stateOf (failIfActive w g c error))
  | gathered {g phase c x graph results call next} (calling : task.calling = some (g,phase))
      (context : task.event.context = some c) (work : task.work = .gathering)
      (returned : allReturned task.nodes = some results) (owner : w.graphs[g]? = some graph)
      (found : w.contexts[c]? = some x)
      (stopped : commit values w g c graph x (task.nodes.map NodeTask.name) results = (false,call))
      (answered : task.answer (outcomeOf call) = some next) :
      TaskStep w d task (.gather d .returned) next (PyError.stateOf call)
  | committed {g phase c x graph results call} (calling : task.calling = some (g,phase))
      (context : task.event.context = some c) (work : task.work = .gathering)
      (returned : allReturned task.nodes = some results) (owner : w.graphs[g]? = some graph)
      (found : w.contexts[c]? = some x)
      (goes : commit values w g c graph x (task.nodes.map NodeTask.name) results = (true,call)) :
      TaskStep w d task (.gather d .returned) {task with work := .posting} (PyError.stateOf call)
  | putFailed {g phase c error next} (calling : task.calling = some (g,phase))
      (context : task.event.context = some c) (work : task.work = .posting)
      (answered : task.answer (outcomeOf (failIfActive w g c error)) = some next) :
      TaskStep w d task (.putFailed d error) next (PyError.stateOf (failIfActive w g c error))
  | postCancelled {next} (work : task.work = .posting ∨ task.work = .resuming)
      (answered : task.answer .cancelled = some next) : TaskStep w d task (.postCancelled d) next w
  | resume {next} (work : task.work = .resuming) (answered : task.answer .returned = some next) :
      TaskStep w d task (.resume d) next w

/- What one action of a call of `_invoke` can do. -/
inductive InvocationStep (w : World V) (k : Nat) (invocation : Invocation) : Action V → Stage → World V → Prop where
  | refused {graph x error} (stage : invocation.stage = .admitted)
      (owner : w.graphs[invocation.graphId]? = some graph)
      (found : w.contexts[invocation.context]? = some x)
      (active : w.isActiveContext invocation.graphId invocation.context = true)
      (invalid : validateTarget graph x.targetNodeName x.steps = .error error) :
      InvocationStep w k invocation (.invoke k) .ended
        (PyError.stateOf (graphFail w invocation.graphId invocation.context error))
  | targeted {graph x target} (stage : invocation.stage = .admitted)
      (owner : w.graphs[invocation.graphId]? = some graph)
      (found : w.contexts[invocation.context]? = some x)
      (active : w.isActiveContext invocation.graphId invocation.context = true)
      (valid : validateTarget graph x.targetNodeName x.steps = .ok target) :
      InvocationStep w k invocation (.invoke k) .posting
        (w.setContext invocation.context {x with targetNodeName := target})
  | late {x} (stage : invocation.stage = .admitted)
      (found : w.contexts[invocation.context]? = some x)
      (inactive : w.isActiveContext invocation.graphId invocation.context = false) :
      InvocationStep w k invocation (.invoke k) .waiting w
  | failed {error} (stage : invocation.stage = .posting) :
      InvocationStep w k invocation (.invokeFailed k error) .ended
        (PyError.stateOf (graphFail w invocation.graphId invocation.context error))
  | cancelled (stage : invocation.stage = .posting ∨ invocation.stage = .resuming) :
      InvocationStep w k invocation (.invokeCancelled k) .ended
        (PyError.stateOf (cancelIfRunning w invocation.context))
  | resume (stage : invocation.stage = .resuming) :
      InvocationStep w k invocation (.invokeResume k) .waiting w
  | wake {graph x completion call} (stage : invocation.stage = .waiting)
      (owner : w.graphs[invocation.graphId]? = some graph)
      (found : w.contexts[invocation.context]? = some x) (done : x.completion = some completion)
      (woken : wake values w invocation.graphId invocation.context graph x completion = some call) :
      InvocationStep w k invocation (.wake k) .ended (PyError.stateOf call)

inductive Step (s : State V) : Action V → State V → Prop where
  | accepted {a w} (open_ : isPublic a = true)
      (performed : NodeGraph.perform values.copyable s.world a = some (.ok w)) :
      Step s (.graph a) {s with world := w, invocations := s.invocations ++ s.started a}
  | rejected {a error w} (open_ : isPublic a = true)
      (performed : NodeGraph.perform values.copyable s.world a = some (.error (error,w))) :
      Step s (.graph a) {s with world := w}
  | consumer {a consumer} (permitted : s.permits a = true)
      (taken : Consumer.step s.consumer a = some consumer) :
      Step s (.consumer a) {s with consumer := consumer, tasks := s.tasks ++ s.launched a}
  | task {a d task next w} (found : s.tasks[d]? = some task)
      (moved : TaskStep values s.world d task a next w) : Step s a (s.setTask d next w)
  | put {d task g phase c consumer} (found : s.tasks[d]? = some task)
      (calling : task.calling = some (g,phase)) (context : task.event.context = some c)
      (work : task.work = .posting) (room : post s.consumer g c = some consumer) :
      Step s (.put d) {s.setTask d {task with work := .resuming, posted := true} s.world with
        consumer := consumer}
  | invocation {a k invocation stage w} (found : s.invocations[k]? = some invocation)
      (moved : InvocationStep values s.world k invocation a stage w) :
      Step s a (s.setInvocation k invocation stage w)
  | invokePut {k invocation consumer} (found : s.invocations[k]? = some invocation)
      (stage : invocation.stage = .posting)
      (room : post s.consumer invocation.graphId invocation.context = some consumer) :
      Step s (.invokePut k) {s.setInvocation k invocation .resuming s.world with consumer := consumer}
  | interrupt {k invocation x} (found : s.invocations[k]? = some invocation)
      (there : s.world.contexts[invocation.context]? = some x) (stage : invocation.stage = .waiting) :
      Step s (.interrupt k) {s with world := cancelCompletion s.world invocation.context x}

variable {values} {s t : State V} {w v : World V} {task next : DispatchTask V}

theorem coreCases {d g : Nat} {now : ℚ} (calling : task.calling = some (g,.coreFunc))
    (idle : task.work = .idle) (done : core values w task g now = some (next,v)) :
    TaskStep values w d task (.core d now) next v := by
  unfold core at done
  split at done
  · rename_i k event
    simp only [bind,Option.bind_eq_some_iff] at done
    obtain ⟨answered,ran,last⟩ := done
    cases last
    refine .coreIdle calling idle ?_ ran
    intro h c same
    rw [event] at same
    contradiction
  · rename_i h c event
    split at done
    · rename_i active
      simp only [bind,Option.bind_eq_some_iff] at done
      obtain ⟨graph,owner,x,found,rest⟩ := done
      unfold dispatchNode at rest
      split at rest
      · rename_i end_
        simp only [bind,Option.bind_eq_some_iff] at rest
        obtain ⟨answered,ran,last⟩ := rest
        cases last
        exact .coreFinish calling idle event active found end_ ran
      · rename_i more
        split at rest
        · rename_i error raised
          simp only [bind,Option.bind_eq_some_iff] at rest
          obtain ⟨answered,ran,last⟩ := rest
          cases last
          exact .coreRaise calling idle event active found owner more raised ran
        · rename_i names y begun
          cases rest
          exact .coreBegin calling idle event active found owner more begun
    · rename_i inactive
      simp only [bind,Option.bind_eq_some_iff] at done
      obtain ⟨answered,ran,last⟩ := done
      cases last
      refine .coreIdle calling idle ?_ ran
      intro h' c' same
      rw [event] at same
      cases same
      simpa using inactive

theorem gatherCases {d g c : Nat} {phase : Dispatch.Phase} {how : Gathered}
    (calling : task.calling = some (g,phase)) (context : task.event.context = some c)
    (work : task.work = .gathering) (done : gather values w task g c how = some (next,v)) :
    TaskStep values w d task (.gather d how) next v := by
  cases how with
  | cancelled =>
    simp only [gather,bind,Option.bind_eq_some_iff] at done
    obtain ⟨answered,ran,last⟩ := done
    cases last
    exact .gatherCancelled calling context work ran
  | raised i =>
    simp only [gather,bind,Option.bind_eq_some_iff] at done
    obtain ⟨node,there,rest⟩ := done
    split at rest <;> try contradiction
    rename_i error raised
    split at rest <;> try contradiction
    rename_i past
    simp only [Option.bind_eq_some_iff] at rest
    obtain ⟨answered,ran,last⟩ := rest
    cases last
    exact .gatherRaised calling context work there raised (List.all_eq_true.mp past) ran
  | returned =>
    simp only [gather,bind,Option.bind_eq_some_iff] at done
    obtain ⟨results,returned,graph,owner,x,found,rest⟩ := done
    split at rest
    · rename_i call goes
      cases rest
      exact .committed calling context work returned owner found goes
    · rename_i call stopped
      simp only [Option.bind_eq_some_iff] at rest
      obtain ⟨answered,ran,last⟩ := rest
      cases last
      exact .gathered calling context work returned owner found stopped ran

theorem stepCases {a : Action V} (taken : step values s a = some t) : Step values s a t := by
  cases a with
  | graph a =>
    simp only [step] at taken
    split at taken <;> try contradiction
    rename_i open_
    simp only [bind,Option.bind_eq_some_iff] at taken
    obtain ⟨call,performed,last⟩ := taken
    split at last
    · cases last
      exact .accepted open_ performed
    · cases last
      exact .rejected open_ performed
  | consumer a =>
    simp only [step] at taken
    split at taken <;> try contradiction
    rename_i permitted
    simp only [bind,Option.bind_eq_some_iff] at taken
    obtain ⟨consumer,went,last⟩ := taken
    cases last
    exact .consumer permitted went
  | dispatch d a =>
    simp only [step,bind,Option.bind_eq_some_iff] at taken
    obtain ⟨task,found,rest⟩ := taken
    split at rest <;> try contradiction
    rename_i allowed
    simp only [Option.bind_eq_some_iff] at rest
    obtain ⟨run,went,last⟩ := rest
    cases last
    exact .task found (.dispatch allowed went)
  | notify d =>
    simp only [step,bind,Option.bind_eq_some_iff] at taken
    obtain ⟨task,found,⟨g,phase⟩,calling,rest⟩ := taken
    split at rest <;> try contradiction
    rename_i notification_
    simp only [Option.bind_eq_some_iff] at rest
    obtain ⟨next,answered,last⟩ := rest
    cases last
    exact .task found (.notify calling notification_ answered)
  | notifyCancelled d =>
    simp only [step,bind,Option.bind_eq_some_iff] at taken
    obtain ⟨task,found,g,notifying,run,went,last⟩ := taken
    cases last
    exact .task found (.notifyCancelled notifying went)
  | core d now =>
    simp only [step,bind,Option.bind_eq_some_iff] at taken
    obtain ⟨task,found,⟨g,phase⟩,calling,rest⟩ := taken
    split at rest <;> try contradiction
    rename_i guards
    simp only [Option.bind_eq_some_iff] at rest
    obtain ⟨⟨next,w⟩,done,last⟩ := rest
    cases last
    obtain ⟨same,idle⟩ := guards
    cases same
    exact .task found (coreCases calling idle done)
  | startNode d i =>
    simp only [step,bind,Option.bind_eq_some_iff] at taken
    obtain ⟨task,found,node,there,rest⟩ := taken
    split at rest <;> try contradiction
    rename_i g c event
    simp only [Option.bind_eq_some_iff] at rest
    obtain ⟨graph,owner,x,known,last⟩ := rest
    split at last <;> try contradiction
    rename_i guards
    simp only [Bool.and_eq_true,Option.isNone_iff_eq_none] at guards
    cases last
    exact .task found (.startNode event there owner known guards.1 guards.2)
  | endNode d i outcome =>
    simp only [step,bind,Option.bind_eq_some_iff] at taken
    obtain ⟨task,found,node,there,last⟩ := taken
    split at last <;> try contradiction
    rename_i guards
    simp only [Bool.and_eq_true,Bool.or_eq_true,Option.isNone_iff_eq_none] at guards
    cases last
    exact .task found (.endNode there guards.1 guards.2)
  | gather d how =>
    simp only [step,bind,Option.bind_eq_some_iff] at taken
    obtain ⟨task,found,⟨g,phase⟩,calling,c,context,rest⟩ := taken
    split at rest <;> try contradiction
    rename_i work
    simp only [Option.bind_eq_some_iff] at rest
    obtain ⟨⟨next,w⟩,done,last⟩ := rest
    cases last
    exact .task found (gatherCases calling context work done)
  | put d =>
    simp only [step,bind,Option.bind_eq_some_iff] at taken
    obtain ⟨task,found,⟨g,phase⟩,calling,c,context,rest⟩ := taken
    split at rest <;> try contradiction
    rename_i work
    simp only [Option.bind_eq_some_iff] at rest
    obtain ⟨consumer,room,last⟩ := rest
    cases last
    exact .put found calling context work room
  | putFailed d error =>
    simp only [step,bind,Option.bind_eq_some_iff] at taken
    obtain ⟨task,found,⟨g,phase⟩,calling,c,context,rest⟩ := taken
    split at rest <;> try contradiction
    rename_i work
    simp only [Option.bind_eq_some_iff] at rest
    obtain ⟨next,answered,last⟩ := rest
    cases last
    exact .task found (.putFailed calling context work answered)
  | postCancelled d =>
    simp only [step,bind,Option.bind_eq_some_iff] at taken
    obtain ⟨task,found,rest⟩ := taken
    split at rest <;> try contradiction
    rename_i work
    simp only [Option.bind_eq_some_iff] at rest
    obtain ⟨next,answered,last⟩ := rest
    cases last
    exact .task found (.postCancelled work answered)
  | resume d =>
    simp only [step,bind,Option.bind_eq_some_iff] at taken
    obtain ⟨task,found,rest⟩ := taken
    split at rest <;> try contradiction
    rename_i work
    simp only [Option.bind_eq_some_iff] at rest
    obtain ⟨next,answered,last⟩ := rest
    cases last
    exact .task found (.resume work answered)
  | invoke k =>
    simp only [step,bind,Option.bind_eq_some_iff] at taken
    obtain ⟨invocation,found,graph,owner,x,known,rest⟩ := taken
    split at rest <;> try contradiction
    rename_i stage
    split at rest
    · rename_i active
      split at rest
      · rename_i error invalid
        cases rest
        exact .invocation found (.refused stage owner known active invalid)
      · rename_i target valid
        cases rest
        exact .invocation found (.targeted stage owner known active valid)
    · rename_i inactive
      cases rest
      exact .invocation found (.late stage known (by simpa using inactive))
  | invokePut k =>
    simp only [step,bind,Option.bind_eq_some_iff] at taken
    obtain ⟨invocation,found,rest⟩ := taken
    split at rest <;> try contradiction
    rename_i stage
    simp only [Option.bind_eq_some_iff] at rest
    obtain ⟨consumer,room,last⟩ := rest
    cases last
    exact .invokePut found stage room
  | invokeFailed k error =>
    simp only [step,bind,Option.bind_eq_some_iff] at taken
    obtain ⟨invocation,found,last⟩ := taken
    split at last <;> try contradiction
    rename_i stage
    cases last
    exact .invocation found (.failed stage)
  | invokeCancelled k =>
    simp only [step,bind,Option.bind_eq_some_iff] at taken
    obtain ⟨invocation,found,last⟩ := taken
    split at last <;> try contradiction
    rename_i stage
    cases last
    exact .invocation found (.cancelled stage)
  | invokeResume k =>
    simp only [step,bind,Option.bind_eq_some_iff] at taken
    obtain ⟨invocation,found,last⟩ := taken
    split at last <;> try contradiction
    rename_i stage
    cases last
    exact .invocation found (.resume stage)
  | interrupt k =>
    simp only [step,bind,Option.bind_eq_some_iff] at taken
    obtain ⟨invocation,found,x,known,last⟩ := taken
    split at last <;> try contradiction
    rename_i stage
    cases last
    exact .interrupt found known stage
  | wake k =>
    simp only [step,bind,Option.bind_eq_some_iff] at taken
    obtain ⟨invocation,found,graph,owner,x,known,completion,done,rest⟩ := taken
    split at rest <;> try contradiction
    rename_i stage
    simp only [Option.bind_eq_some_iff] at rest
    obtain ⟨call,woken,last⟩ := rest
    cases last
    exact .invocation found (.wake stage owner known done woken)

end Step
end Apixis.Runtime
