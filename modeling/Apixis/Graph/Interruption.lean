import Apixis.Event.Dispatch
import Apixis.Graph.Lifecycle
import Apixis.Graph.Namespace

/-! An interruption: the `Block` a node waits for, the event that carries it, and the
handler that every graph registers for such events. No callback of that handler
awaits anything, so one step runs it to its end. What the other handlers, the node
and whoever else holds the event, the block or the graph do is up to them. -/
namespace Apixis.Interruption
open Dispatch (Flags Phase Outcome)

inductive Handler (η : Type) where
  | fallback
  | other (handler : η)
  deriving DecidableEq, Repr

inductive Failure (η : Type) where
  | blockHookNotRegisteredError (message : String)
  | blockNotResolvedError (message : String)
  | graphNodeError (message : String) (errors : List (Handler η × Phase))
  | cancelledError
  | other (error : PyError)
  deriving DecidableEq, Repr

inductive Future (V η : Type) where
  | pending
  | result (value : V)
  | exception (error : Failure η)
  | cancelled
  deriving DecidableEq, Repr

structure Block (V η : Type) where
  runId : Nat
  graphId : Nat
  accepted : Bool
  future : Future V η
  deriving DecidableEq, Repr

variable {V η : Type}
namespace Block

def done (block : Block V η) : Bool := match block.future with
  | .pending => false
  | _ => true

/- Whatever would settle the future, once it is settled, does nothing. -/
def settle (block : Block V η) (value : Future V η) : Block V η :=
  if block.done then block else {block with future := value}

def accept (block : Block V η) : Block V η := {block with accepted := true}
def resolve (block : Block V η) (result : V) : Block V η := block.settle (.result result)
def fail (block : Block V η) (error : Failure η) : Block V η := block.settle (.exception error)
def cancel (block : Block V η) : Block V η := block.settle .cancelled

end Block

/- `interrupt()` up to the event it posts; none where it raises. -/
def interrupt (w : NodeGraph.World V) (c : Nat) : Option (Block V η) := do
  let context ← w.contexts[c]?
  if context.isActive then
    let runId ← context.runId
    let _ ← context.completion
    some ⟨runId,context.graphId,false,.pending⟩
  else none

def isActiveBlock (w : NodeGraph.World V) (g : Nat) (block : Block V η) : Bool :=
  block.graphId == g && match w.graphs[g]? with
    | some graph => graph.contexts.any (fun c => match w.contexts[c]? with
        | some context => context.runId == some block.runId && w.isActiveContext g c
        | none => false)
    | none => false

/- `BlockEventHandler`: the callbacks that tell a block how its event fares. -/
def onFailure (block : Block V η) (error : Failure η) : Block V η := block.fail error

def onHasError (block : Block V η) (errors : List (Handler η × Phase)) : Block V η :=
  block.fail (.graphNodeError "Graph interruption failed in a preceding event handler" errors)

def onAccepted (block : Block V η) : Block V η := if !block.done then block.cancel else block
def onCancelled (block : Block V η) : Block V η := block.fail .cancelledError

def hookNotRegistered (nameSpace : String) : String :=
  "Graph namespace `" ++ nameSpace ++ "` emitted a Block without a " ++
  "registered interruption hook. Register graph.add_interrupted_hook() " ++
  "or interrupted_hook(namespace=...) before calling interrupt()."

def notResolved (nameSpace : String) : String :=
  "Graph namespace `" ++ nameSpace ++ "` emitted a Block and not be resolved by any " ++
  "registered interruption hook."

def requireInterruptedHook (nameSpace : String) (active : Bool) (seen : List String)
    (block : Block V η) : Except (Failure η) Unit :=
  if !active then .ok ()
  else if seen = [] ∨ seen = [Namespace.fallbackName nameSpace] then
    .error (.blockHookNotRegisteredError (hookNotRegistered nameSpace))
  else if !block.accepted && !block.done then .error (.blockNotResolvedError (notResolved nameSpace))
  else .ok ()

/- The fallback handler is registered with all callbacks and the default options. -/
def Handler.flags (flags : η → Flags) : Handler η → Flags
  | .fallback => ⟨false,true,true,true,true,true⟩
  | .other handler => flags handler

def Handler.name (nameSpace : String) (name : η → String) : Handler η → String
  | .fallback => Namespace.fallbackName nameSpace
  | .other handler => name handler

/- The dispatch of the event, and all that its handlers can reach. -/
structure World (V η : Type) where
  graphs : NodeGraph.World V
  dispatch : Dispatch.State (Handler η)
  block : Block V η

def emitted (graphs : NodeGraph.World V) (block : Block V η) (chain : List (Handler η)) : World V η :=
  ⟨graphs,Dispatch.initial chain,block⟩

def atFallback (s : Dispatch.State (Handler η)) : Bool :=
  let here := fun (i : Nat) => match s.chain[i]? with
    | some .fallback => true
    | _ => false
  match s.pc with
  | .execute i (.calling _ _) => here i
  | .notifying i => here i
  | _ => false

inductive Operation (V η : Type) where
  | accept
  | resolve (result : V)
  | fail (error : Failure η)
  | cancel
  deriving DecidableEq, Repr

def Block.perform (block : Block V η) : Operation V η → Block V η
  | .accept => block.accept
  | .resolve result => block.resolve result
  | .fail error => block.fail error
  | .cancel => block.cancel

inductive Action (V η : Type) where
  | dispatch (a : Dispatch.Action)
  | fallback
  | block (operation : Operation V η)
  | graph (a : NodeGraph.Action V)

def isEnd : Dispatch.Action → Bool
  | .callback _ => true
  | .notified => true
  | _ => false

section Step
variable (copyable : V → Bool) (flags : η → Flags) (name : η → String) (nameSpace : String) (g : Nat)

/- A callback of the fallback handler: how it ends, and the block it leaves. When its
core raises, its `on_error` follows without an await. -/
def called (w : World V η) : Phase → Option (List Outcome × Block V η)
  | .onHasError => some ([.returned],onHasError w.block w.dispatch.event.errorStack)
  | .onAccepted => some ([.returned],onAccepted w.block)
  | .coreFunc =>
      match requireInterruptedHook nameSpace (isActiveBlock w.graphs g w.block)
          (w.dispatch.event.seen.map (Handler.name nameSpace name)) w.block with
      | .ok () => some ([.returned],w.block)
      | .error error => some ([.raised,.returned],onFailure w.block error)
  | .onError => none

def step (w : World V η) : Action V η → Option (World V η)
  | .dispatch a =>
      if isEnd a && atFallback w.dispatch then none
      else do
        let dispatch ← Dispatch.step (Handler.flags flags) w.dispatch a
        some {w with dispatch := dispatch}
  | .fallback =>
      if !atFallback w.dispatch then none
      else match w.dispatch.pc with
        | .execute _ (.calling phase _) => do
            let (outcomes,block) ← called name nameSpace g w phase
            let dispatch ← Machine.run (Dispatch.step (Handler.flags flags)) w.dispatch
              (outcomes.map Dispatch.Action.callback)
            some {w with dispatch := dispatch, block := block}
        | _ => do
            let dispatch ← Dispatch.step (Handler.flags flags) w.dispatch .notified
            some {w with dispatch := dispatch, block := onCancelled w.block}
  | .block operation => some {w with block := w.block.perform operation}
  | .graph a => do
      let graphs ← NodeGraph.step copyable w.graphs a
      some {w with graphs := graphs}

end Step
end Apixis.Interruption
