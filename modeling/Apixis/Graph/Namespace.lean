import Apixis.Event.Confinement

/-! Who owns a namespace: the constructor of `NodeGraph`, `decompose`,
`add_interrupted_hook` and the namespace map, over the one handler registry that
graphs share with everybody else. A graph is known by its position, so that two
graphs of one namespace are two graphs. -/
namespace Apixis.Namespace
open HandlerRegistry PyError

structure NodeGraph where
  nameSpace : String
  handlers : Dict String Nat
  contexts : Nat
  decomposed : Bool
  deriving DecidableEq, Repr

structure World where
  registry : Registry
  graphs : List NodeGraph
  namespaceGraphs : Dict String Nat
  deriving DecidableEq, Repr

def initial : World := ⟨HandlerRegistry.initial,[],.empty⟩

abbrev Outcome := Except (PyError × World) World

def graphDispatch : String := "__graph_dispatch__"
def graphInterrupted : String := "__graph_interrupted__"
def globalNs : String := "<global>"

def orGlobal (nameSpace : String) : String := if nameSpace = "" then globalNs else nameSpace
def getGraphDispatchName (nameSpace : String) : String := graphDispatch ++ "_" ++ orGlobal nameSpace
def getGraphInterruptedName (nameSpace : String) : String := graphInterrupted ++ "_" ++ orGlobal nameSpace
def fallbackName (nameSpace : String) : String := "__graph_interrupted_fallback__" ++ nameSpace

def validateNamespace (nameSpace : String) : Except PyError Unit :=
  raiseIf (nameSpace.toList.any (fun character => "*?[]".toList.contains character))
    ⟨.valueError,"Graph namespace `" ++ nameSpace ++ "` must not contain glob characters (*?[])."⟩

def unregistered : PyError := ⟨.runtimeError,"The context's graph is no longer registered."⟩

def getGraphNamespace (w : World) (g : Nat) : Except PyError String :=
  match w.namespaceGraphs.entries.find? (fun e => e.2 = g) with
  | some (nameSpace,_) => .ok nameSpace
  | none => .error unregistered

def World.update (w : World) (g : Nat) (graph : NodeGraph) : World :=
  {w with graphs := w.graphs.set g graph}

def World.creating (w : World) (nameSpace : String) : World :=
  {w with graphs := w.graphs ++ [⟨nameSpace,.empty,0,true⟩]}

def World.claim (w : World) (nameSpace : String) (g : Nat) : World :=
  {w with namespaceGraphs := w.namespaceGraphs.set nameSpace g}

/- A call into the registry that raises leaves the registry it had come to. -/
def World.calling (w : World) : HandlerRegistry.Outcome → Except (PyError × World) Registry
  | .ok r => .ok r
  | .error (error,r) => .error (error,{w with registry := r})

def World.keep (w : World) (g : Nat) (graph : NodeGraph) (r : Registry) (name : String) (ref : Nat) :
    World :=
  {w with registry := r, graphs := w.graphs.set g {graph with handlers := graph.handlers.set name ref}}

/- The instances a graph creates: its dispatch handler and its Block adapters. -/
def adapter (name : String) : Handler :=
  {newHandler name (.function 0) with
    callbacks := ⟨.function 0,.function 1,.function 2,.function 3,.function 4⟩}

/- `subscribe(event_name, exist_ok=False)`. -/
def once (eventName : String) : Options :=
  ⟨[.text eventName],false,.none,.none,.none,none,none,none⟩

def trailing : Priority := .number (.finite (-10000)) "-10000"

section Calls
variable (fnmatchcase : String → String → Bool)

def unregisterAll (r : Registry) : List (String × Nat) → HandlerRegistry.Outcome
  | [] => .ok r
  | (name,handler) :: rest => do
      let s ← leaving r (if r.registry.get name = some handler
        then unregisterHandler fnmatchcase r name true else .ok r)
      unregisterAll s rest

def unregisterHandlers (w : World) (g : Nat) : Outcome := match w.graphs[g]? with
  | none => .ok w
  | some graph => do
      let r ← w.calling (unregisterAll fnmatchcase w.registry graph.handlers.entries)
      return {w with registry := r, graphs := w.graphs.set g {graph with handlers := .empty}}

/- The end of `release_namespace`: only the own entry is removed. -/
def releaseEntry (w : World) (g : Nat) : World := match w.graphs[g]? with
  | none => w
  | some graph =>
      if w.namespaceGraphs.get graph.nameSpace = some g then
        {w with namespaceGraphs := w.namespaceGraphs.erase graph.nameSpace}
      else w

def decompose (w : World) (g : Nat) (force : Bool) : Outcome := match w.graphs[g]? with
  | none => .ok w
  | some graph =>
      if graph.decomposed then .ok w
      else do
        leaving w (raiseIf (graph.contexts != 0 && !force)
          ⟨.runtimeError,"Cannot decompose a NodeGraph while contexts are running."⟩)
        -- the running contexts are aborted, and leave the set at once
        let retired := w.update g {graph with decomposed := true, contexts := 0}
        let bare ← unregisterHandlers fnmatchcase retired g
        return releaseEntry bare g

def releaseNamespace (w : World) (g : Nat) (decomposeImmediately : Bool) : Outcome := do
  let left ← if decomposeImmediately then decompose fnmatchcase w g true else .ok w
  return releaseEntry left g

def acquireNamespace (w : World) (g : Nat) (replaceExisted : Bool) : Outcome := match w.graphs[g]? with
  | none => .ok w
  | some graph => do
      leaving w (validateNamespace graph.nameSpace)
      let vacant ← match w.namespaceGraphs.get graph.nameSpace with
        | none => .ok w
        | some owner =>
            if owner = g then .ok w
            else do
              leaving w (raiseIf (!replaceExisted)
                ⟨.valueError,"Graph namespace `" ++ graph.nameSpace ++ "` is already in use."⟩)
              releaseNamespace fnmatchcase w owner true
      return vacant.claim graph.nameSpace g

def registerDispatchHandler (w : World) (g : Nat) : Outcome := match w.graphs[g]? with
  | none => .ok w
  | some graph => do
      let name := getGraphDispatchName graph.nameSpace
      let created := {w.registry with heap := w.registry.heap ++ [adapter name]}
      let handler := w.registry.heap.length
      let r ← w.calling (subscribe fnmatchcase created (once name) (.instance handler))
      return w.keep g graph r name handler

def registerInterruptedHandler (w : World) (g : Nat) : Outcome := match w.graphs[g]? with
  | none => .ok w
  | some graph => do
      let name := fallbackName graph.nameSpace
      let entry := {adapter name with
        subscribe := .items [.text (getGraphInterruptedName graph.nameSpace)]
        priority := trailing}
      let created := {w.registry with heap := w.registry.heap ++ [entry]}
      let handler := w.registry.heap.length
      let r ← w.calling (registerHandler fnmatchcase created handler false)
      return w.keep g graph r name handler

def World.finish (w : World) (g : Nat) : World := match w.graphs[g]? with
  | none => w
  | some graph => w.update g {graph with decomposed := false}

/- `__init__`. `definition` is how the checks of nodes, entry point and schema end;
they touch nothing shared. -/
def construct (w : World) (definition : Except PyError Unit) (nameSpace : String) (existOk : Bool) :
    Outcome := do
  leaving w definition
  let g := w.graphs.length
  let acquired ← acquireNamespace fnmatchcase (w.creating nameSpace) g existOk
  match registerDispatchHandler fnmatchcase acquired g >>=
      fun registered => registerInterruptedHandler fnmatchcase registered g with
  | .ok registered => return registered.finish g
  | .error (error,left) =>
      let bare ← unregisterHandlers fnmatchcase left g
      throw (error,releaseEntry bare g)

def addInterruptedHook (w : World) (g : Nat) (name : Option String) : Outcome := match w.graphs[g]? with
  | none => .ok w
  | some graph => do
      leaving w (raiseIf graph.decomposed ⟨.runtimeError,"NodeGraph has been decomposed."⟩)
      let eventName := getGraphInterruptedName graph.nameSpace
      let handlerName := if name.getD "" = "" then eventName else name.getD ""
      let created := {w.registry with heap := w.registry.heap ++ [adapter handlerName]}
      let r ← w.calling (subscribe fnmatchcase created (once eventName)
        (.instance w.registry.heap.length))
      match r.registry.get handlerName with
      | none => throw (⟨.runtimeError,"Interrupted hook registration failed; handler not found."⟩,
          {w with registry := r})
      | some handler => return w.keep g graph r handlerName handler

/- `using_namespace or str(idgen.next_id())`. -/
def chosen (usingNamespace : Option String) (nextId : Nat) : String :=
  if usingNamespace.getD "" = "" then toString nextId else usingNamespace.getD ""

def World.owns (w : World) (name : String) : Bool :=
  w.graphs.any (fun graph => (graph.handlers.get name).isSome)

inductive Action where
  | construct (definition : Except PyError Unit) (usingNamespace : Option String) (nextId : Nat)
      (existOk : Bool)
  | addInterruptedHook (g : Nat) (name : Option String)
  | exit (g : Nat)
  | decompose (g : Nat) (force : Bool)
  /- Whatever anybody does with the registry under a name no graph owns. -/
  | user (a : HandlerRegistry.Action)
  | invoke (g : Nat) (contexts : Nat)

def perform (w : World) : Action → Outcome
  | .construct definition usingNamespace nextId existOk =>
      construct fnmatchcase w definition (chosen usingNamespace nextId) existOk
  | .addInterruptedHook g name => addInterruptedHook fnmatchcase w g name
  | .exit g => decompose fnmatchcase w g true
  | .decompose g force => decompose fnmatchcase w g force
  | .user a => .ok {w with registry := stateOf (HandlerRegistry.perform fnmatchcase w.registry a)}
  | .invoke g contexts => match w.graphs[g]? with
      | none => .ok w
      | some graph =>
          if graph.decomposed then .ok w else .ok (w.update g {graph with contexts := contexts})

def allowed (w : World) : Action → Bool
  | .user a => match Placement.named w.registry a with
      | some name => !w.owns name
      | none => true
  | _ => true

/- Callers go on whether a call returns or raises. -/
def step (w : World) (a : Action) : Option World :=
  if allowed w a then some (stateOf (perform fnmatchcase w a)) else none

end Calls
end Apixis.Namespace
