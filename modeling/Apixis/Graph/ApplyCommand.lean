import Apixis.Graph.NodeGraph

/-! `apply_command`: the results of a batch are committed in order to the live state, key
by key. When it raises, what was already stored stays. -/
namespace Apixis.ApplyCommand
open NodeGraph
open PyError (raiseIf leaving)

variable {V : Type}

/- A value of an update, or one wrapped in `Reset`. -/
inductive Update (V : Type) where
  | value (v : V)
  | reset (v : V)
  deriving DecidableEq, Repr

/- A command; `none` stands for an update that is no dict. -/
structure Command (V : Type) where
  update : Option (Dict String (Update V))
  goto : Goto
  deriving DecidableEq

/- What `Node.execute` may return; `none` in a list stands for an item that is no command. -/
inductive Result (V : Type) where
  | command (c : Command V)
  | commands (l : List (Option (Command V)))
  | other
  deriving DecidableEq

/- `add v` is the method `__add__` of `v`, if it is callable, and `none` its answer
NotImplemented. -/
structure Values (V : Type) where
  copyable : V → Bool
  add : V → Option (V → Except PyError (Option V))
  typeName : V → String

def Update.copyable (values : Values V) : Update V → Bool
  | .value v => values.copyable v
  | .reset v => values.copyable v

def allCommands : List (Option (Command V)) → Option (List (Command V))
  | [] => some []
  | some c :: rest => (allCommands rest).map (fun l => c :: l)
  | none :: _ => none

def resultError : PyError := ⟨.typeError,"Node.execute must return a Command or list[Command]."⟩

def commandGroup : Result V → Except PyError (List (Command V))
  | .command c => .ok [c]
  | .commands l => match allCommands l with
      | some group => .ok group
      | none => .error resultError
  | .other => .error resultError

def commandGroups : List (Result V) → Except PyError (List (List (Command V)))
  | [] => .ok []
  | result :: rest => do
      let group ← commandGroup result
      let groups ← commandGroups rest
      return group :: groups

def normaliseCommandGroups (results : List (Result V)) (names : List String) :
    Except PyError (List (List (Command V))) := do
  raiseIf (results.length != names.length)
    ⟨.typeError,"A concurrent batch must return one result per node."⟩
  commandGroups results

structure Batch (V : Type) where
  state : StateDict V
  updatedNormalKeys : List String
  currentNodeNormalKeys : List String
  nextTargets : Dict String Unit
  concurrent : Bool
  deriving DecidableEq

def Batch.start (state : StateDict V) : Batch V := ⟨state,[],[],.empty,false⟩

abbrev Loop (V : Type) := Except (PyError × Batch V)

section Loops
variable (values : Values V) (graph : Compiled)

def conflictError (node key : String) : PyError :=
  ⟨.valueError,"Concurrent node `" ++ node ++ "` updates non-AutoMerge state field `" ++ key ++
    "` more than once."⟩

def noteKey (node key : String) (batch : Batch V) : Except PyError (Batch V) :=
  if graph.autoMergeKeys.contains key then .ok batch
  else if batch.updatedNormalKeys.contains key && !batch.currentNodeNormalKeys.contains key then
    .error (conflictError node key)
  else .ok {batch with
    updatedNormalKeys := key :: batch.updatedNormalKeys
    currentNodeNormalKeys := key :: batch.currentNodeNormalKeys}

def merged (key : String) (current update : V) : Except PyError V :=
  match values.add current with
  | none => .error ⟨.typeError,"State field `" ++ key ++ "` is marked AutoMerge, but " ++
      values.typeName current ++ " does not provide a callable __add__ method."⟩
  | some addMethod => do
      match ← addMethod update with
      | some v => return v
      | none => throw ⟨.typeError,"State field `" ++ key ++ "` could not add an update of type " ++
          values.typeName update ++ "."⟩

def stored (state : StateDict V) (key : String) : Update V → Except PyError V
  | .reset v => .ok v
  | .value v =>
      if graph.autoMergeKeys.contains key then
        match state.get key with
        | some current => merged values key current v
        | none => .ok v
      else .ok v

def applyEntry (node : String) (batch : Batch V) (entry : String × Update V) :
    Loop V (Batch V) := do
  let noted ← leaving batch (noteKey graph node entry.1 batch)
  let v ← leaving noted (stored values graph noted.state entry.1 entry.2)
  return {noted with state := noted.state.set entry.1 v}

def applyEntries (node : String) : Batch V → List (String × Update V) → Loop V (Batch V)
  | batch, [] => .ok batch
  | batch, entry :: rest => do
      let next ← applyEntry values graph node batch entry
      applyEntries node next rest

def collect (batch : Batch V) (name : String) : Batch V :=
  if name = END then batch
  else {batch with concurrent := true, nextTargets := batch.nextTargets.set name ()}

def collectGoto (batch : Batch V) : Goto → Except PyError (Batch V)
  | .other => .error ⟨.typeError,"Command.goto must be a string or None, or a list of strings."⟩
  | .none => .ok batch
  | .target (.batch names) => .ok (names.foldl collect batch)
  | .target (.node name) =>
      if name = END then .ok batch
      else .ok {batch with nextTargets := batch.nextTargets.set name ()}

def copyUpdate (update : Dict String (Update V)) : Except PyError (Dict String (Update V)) :=
  copyState (Update.copyable values) graph.keepRefKeys update

def applyOne (node : String) (batch : Batch V) (command : Command V) : Loop V (Batch V) :=
  match command.update with
  | none => .error (⟨.typeError,"Command.update must be a dict."⟩,batch)
  | some given => do
      let update ← leaving batch (copyUpdate values graph given)
      let written ← applyEntries values graph node batch update.entries
      leaving written (collectGoto written command.goto)

def applyGroup (node : String) : Batch V → List (Command V) → Loop V (Batch V)
  | batch, [] => .ok batch
  | batch, command :: rest => do
      let next ← applyOne values graph node batch command
      applyGroup node next rest

def applyGroups : Batch V → List (String × List (Command V)) → Loop V (Batch V)
  | batch, [] => .ok batch
  | batch, (node,commands) :: rest => do
      let next ← applyGroup values graph node {batch with currentNodeNormalKeys := []} commands
      applyGroups next rest

def nextNode (batch : Batch V) : Target :=
  match batch.nextTargets.keys with
  | [] => .node END
  | name :: rest => if batch.concurrent || !rest.isEmpty then .batch (name :: rest) else .node name

/- `apply_command` after its checks. A single node's result is passed as a list of one. -/
def commitBatch (results : List (Result V)) (nodeName : Target) (state : StateDict V) :
    Except (PyError × StateDict V) (Target × StateDict V) := do
  let names ← leaving state (Target.normaliseTargets nodeName)
  let groups ← leaving state (normaliseCommandGroups results names)
  match applyGroups values graph (.start state) (names.zip groups) with
  | .ok batch => return (nextNode batch,batch.state)
  | .error (error,batch) => throw (error,batch.state)

end Loops

def applyCommand (values : Values V) (g : Nat) (graph : Graph) (results : List (Result V))
    (nodeName : Target) (x : GraphContext V) :
    Except (PyError × StateDict V) (Target × StateDict V) := do
  leaving x.state (ensureNotDecomposed graph)
  leaving x.state (raiseIf (x.graphId != g || x.status.terminal) ⟨.invalidContextError,
    "GraphContext must belong to this graph and be pending or running."⟩)
  commitBatch values graph.toCompiled results nodeName x.state

end Apixis.ApplyCommand
