import Apixis.Graph.Moves
import Apixis.Library.Channel
import Apixis.Library.Promise

/-! `NodeGraph.stream`: the generator between its consumer and its channel, the task
of `_invoke` behind it, and the callback that closes the channel when that task is
done. Everything else on the event loop goes on around them. -/
namespace Apixis.Stream
open NodeGraph hiding Action step initial
open ApplyCommand Apixis.Runtime

variable {V C : Type}

/- `execution_task`: the call of `_invoke` it runs, whether somebody has cancelled it
since, and whether its done callback has run. -/
structure Execution (V : Type) where
  invocation : Nat
  context : Nat
  cancelling : Bool
  task : Promise PyError (StateDict V)
  called : Bool
  deriving DecidableEq

/- How the body of the generator is left: its loop and the await after it have come
to their end, or somebody has raised into it, or it has never been entered. -/
inductive Left where
  | exhausted
  | raised (error : PyError)
  | cancelled
  | interrupted
  | closed
  | thrown (error : PyError)
  | rejected (error : PyError)
  deriving DecidableEq, Repr

def Left.drained : Left → Bool
  | .exhausted | .raised _ | .cancelled => true
  | _ => false

inductive Pc where
  | created
  | reading
  | yielded
  | joining
  | cleaning (left : Left)
  | ended (left : Left)
  deriving DecidableEq, Repr

/- `put` and `got` are all that has gone into the channel and come out of it. -/
structure State (V C : Type) where
  runtime : Runtime.State V
  channel : Channel C
  execution : Option (Execution V)
  pc : Pc
  put : List (Channel.Item C)
  got : List (Channel.Item C)
  deriving DecidableEq

def start (runtime : Runtime.State V) : State V C := ⟨runtime,.new,none,.created,[],[]⟩

def send (channel : Channel C) (chunk : C) : Except PyError (Channel C) :=
  match channel.send chunk with
  | some channel => .ok channel
  | none => .error ⟨.runtimeError,"Cannot write to a closed graph stream."⟩

inductive Action (V C : Type) where
  /- Anybody else, or the execution task when nobody has cancelled it. -/
  | runtime (a : Runtime.Action V)
  | write (chunk : C)
  | cancelExecution
  | struck
  | callback
  /- The consumer asks for a chunk; one arrives; the consumer is cancelled while it
  waits; it closes the generator, or throws into it. -/
  | next
  | deliver
  | cancelConsumer
  | close
  | throw (error : PyError)
  | joined
  | cleaned
  deriving DecidableEq

def own (k : Nat) : Runtime.Action V → Bool
  | .invoke j | .invokePut j | .invokeFailed j _ | .invokeCancelled j | .invokeResume j
  | .interrupt j | .wake j => j == k
  | _ => false

def leftOf : Promise PyError (StateDict V) → Option Left
  | .pending => none
  | .result _ => some .exhausted
  | .exception error => some (.raised error)
  | .cancelled => some .cancelled

def stageOf (runtime : Runtime.State V) (k : Nat) : Option Stage :=
  (runtime.invocations[k]?).map Invocation.stage

def setStage (runtime : Runtime.State V) (k : Nat) (stage : Stage) (w : World V) : Runtime.State V :=
  match runtime.invocations[k]? with
  | some invocation => runtime.setInvocation k invocation stage w
  | none => {runtime with world := w}

section Ending
variable (values : Values V)

/- What the await of the completion gives `_invoke`. -/
def completed (w : World V) (g c : Nat) : Promise PyError (StateDict V) :=
  match w.graphs[g]?, w.contexts[c]? with
  | some graph, some x => match x.completion with
      | some (.result state) => match outcomeCopy values graph x state with
          | .ok copy => .result copy
          | .error error => .exception error
      | some (.exception error) => .exception error
      | some .cancelled => .cancelled
      | _ => .pending
  | _, _ => .pending

/- `_validate_target` of the first dispatch. -/
def refused (w : World V) (g c : Nat) : Promise PyError (StateDict V) :=
  match w.graphs[g]?, w.contexts[c]? with
  | some graph, some x => match validateTarget graph x.targetNodeName x.steps with
      | .error error => .exception error
      | .ok _ => .pending
  | _, _ => .pending

/- What `_invoke` returns or raises when this step ends it. -/
def ending (w : World V) (g c : Nat) : Runtime.Action V → Promise PyError (StateDict V)
  | .invoke _ => refused w g c
  | .invokeFailed _ error => .exception error
  | .invokeCancelled _ => .cancelled
  | .wake _ => completed values w g c
  | _ => .pending

end Ending

namespace Execution

def settle (e : Execution V) (value : Promise PyError (StateDict V)) : Execution V :=
  {e with task := (e.task.settle value).getD e.task}

end Execution

namespace State

def setWorld (s : State V C) (w : World V) : State V C := {s with runtime := {s.runtime with world := w}}

def cancelled (s : State V C) (e : Execution V) : State V C :=
  {s with execution := some {e with cancelling := true}}

/- `execution_task.cancel()`: what the task awaits takes it, or it is thrown into the
task when that goes on. -/
def request (s : State V C) (e : Execution V) : State V C :=
  if e.task.done then s
  else match s.runtime.world.contexts[e.context]? with
    | some x =>
        if stageOf s.runtime e.invocation = some .waiting then
          (s.cancelled e).setWorld (cancelCompletion s.runtime.world e.context x)
        else s.cancelled e
    | none => s.cancelled e

def abortIfRunning (w : World V) (c : Nat) : Call V (World V) :=
  match w.contexts[c]? with
  | some x => if x.status = .running then abort w c x else .ok w
  | none => .ok w

def cleanup (s : State V C) (e : Execution V) (left : Left) : State V C :=
  match abortIfRunning s.runtime.world e.context with
  | .ok w => {s.setWorld w with
      channel := s.channel.close
      put := s.put ++ s.channel.closing
      pc := .ended left}
  | .error (error,w) => {s.setWorld w with pc := .ended (.raised error)}

/- The body is left; a task that is done is not waited for. -/
def leave (s : State V C) (e : Execution V) (left : Left) : State V C :=
  if e.task.done then s.cleanup e left else {s.request e with pc := .cleaning left}

/- The generator takes what is first in the queue: a chunk to be yielded, or the
marker behind which it awaits the execution task. -/
def take (s : State V C) : Option (State V C) := do
  let (item,channel) ← s.channel.take
  let e ← s.execution
  let s := {s with channel := channel, got := s.got ++ [item]}
  match item with
  | .chunk _ => some {s with pc := .yielded}
  | .stop => match leftOf e.task with
      | some left => some (s.leave e left)
      | none => some {s with pc := .joining}

end State

section Step
variable (values : Values V) (g : Nat) (state : StateArg V) (context : ContextArg)

def admission : Runtime.Action V := .graph (.beginInvocation g state context)

def launch (s : State V C) : Option (State V C) := do
  let runtime ← Runtime.step values s.runtime (admission g state context)
  let call ← NodeGraph.perform values.copyable s.runtime.world (.beginInvocation g state context)
  match call with
  | .ok _ => some {s with
      runtime := runtime
      execution := some ⟨s.runtime.invocations.length,Lifecycle.chosen s.runtime.world context,false,.pending,false⟩
      pc := .reading}
  | .error (error,_) => some {s with runtime := runtime, pc := .ended (.rejected error)}

def step (s : State V C) : Action V C → Option (State V C)
  | .runtime a => do
      let runtime ← Runtime.step values s.runtime a
      match s.execution with
      | none => some {s with runtime := runtime}
      | some e =>
          if own e.invocation a then
            if e.cancelling then none
            else if stageOf runtime e.invocation = some .ended then
              let value := ending values s.runtime.world g e.context a
              some {s with runtime := runtime, execution := some (e.settle value)}
            else some {s with runtime := runtime}
          else some {s with runtime := runtime}
  | .write chunk => do
      let _ ← s.execution
      match send s.channel chunk with
      | .ok channel => some {s with channel := channel, put := s.put ++ [.chunk chunk]}
      | .error _ => some s
  | .cancelExecution => do
      let e ← s.execution
      some (s.request e)
  | .struck => do
      let e ← s.execution
      if e.cancelling && !e.task.done then
        match stageOf s.runtime e.invocation with
        | none | some .ended => none
        -- cancelled before it has begun, it does nothing at all
        | some .admitted => some {s with
            runtime := setStage s.runtime e.invocation .ended s.runtime.world
            execution := some (e.settle .cancelled)}
        | some _ =>
            let w := PyError.stateOf (cancelIfRunning s.runtime.world e.context)
            some {s with
              runtime := setStage s.runtime e.invocation .ended w
              execution := some (e.settle .cancelled)}
      else none
  | .callback => do
      let e ← s.execution
      if e.task.done && !e.called then
        some {s with
          channel := s.channel.close
          put := s.put ++ s.channel.closing
          execution := some {e with called := true}}
      else none
  | .next => match s.pc with
      | .created => launch values g state context s
      | .yielded => if s.channel.queue.isEmpty then some {s with pc := .reading} else s.take
      | _ => none
  | .deliver => match s.pc with
      | .reading => s.take
      | _ => none
  | .cancelConsumer => do
      let e ← s.execution
      match s.pc with
      | .reading => some (s.leave e .interrupted)
      -- what it awaits is done: only its own task can take the cancellation
      | .joining => if e.task.done then some (s.leave e .interrupted) else some (s.request e)
      | .cleaning _ => some (s.request e)
      | _ => none
  | .close => match s.pc with
      | .created => some {s with pc := .ended .closed}
      | .yielded => s.execution.map (fun e => s.leave e .closed)
      | _ => none
  | .throw error => match s.pc with
      | .created => some {s with pc := .ended (.thrown error)}
      | .yielded => s.execution.map (fun e => s.leave e (.thrown error))
      | _ => none
  | .joined => do
      let e ← s.execution
      let left ← leftOf e.task
      match s.pc with
      | .joining => some (s.leave e left)
      | _ => none
  | .cleaned => do
      let e ← s.execution
      match s.pc with
      | .cleaning left => if e.task.done then some (s.cleanup e left) else none
      | _ => none

/- Who makes the generator leave its body before the end, and how. -/
inductive Asks : Pc → Action V C → Left → Prop where
  | interrupted : Asks .reading .cancelConsumer .interrupted
  | joining : Asks .joining .cancelConsumer .interrupted
  | closed : Asks .yielded .close .closed
  | thrown {error} : Asks .yielded (.throw error) (.thrown error)
  | closedFirst : Asks .created .close .closed
  | thrownFirst {error} : Asks .created (.throw error) (.thrown error)

inductive Step (s : State V C) : Action V C → State V C → Prop where
  | goes {a runtime} (stepped : Runtime.step values s.runtime a = some runtime) :
      Step s (.runtime a) {s with runtime := runtime}
  | ends {a runtime e} (has : s.execution = some e) (mine : own e.invocation a = true)
      (free : e.cancelling = false) (stepped : Runtime.step values s.runtime a = some runtime)
      (ended : stageOf runtime e.invocation = some .ended) :
      Step s (.runtime a) {s with
        runtime := runtime
        execution := some (e.settle (ending values s.runtime.world g e.context a))}
  | sent {chunk channel e} (has : s.execution = some e) (sent : s.channel.send chunk = some channel) :
      Step s (.write chunk) {s with channel := channel, put := s.put ++ [.chunk chunk]}
  | unsent {chunk e} (has : s.execution = some e) (unsent : s.channel.send chunk = none) :
      Step s (.write chunk) s
  | requests {e} (has : s.execution = some e) : Step s .cancelExecution (s.request e)
  | struck {e w} (has : s.execution = some e) (cancelling : e.cancelling = true) (open_ : e.task.done = false)
      (went : stageOf s.runtime e.invocation = some .admitted ∧ w = s.runtime.world ∨
        w = PyError.stateOf (cancelIfRunning s.runtime.world e.context)) :
      Step s .struck {s with
        runtime := setStage s.runtime e.invocation .ended w
        execution := some (e.settle .cancelled)}
  | callback {e} (has : s.execution = some e) (done : e.task.done = true) (fresh : e.called = false) :
      Step s .callback {s with
        channel := s.channel.close
        put := s.put ++ s.channel.closing
        execution := some {e with called := true}}
  | launches {t} (created : s.pc = .created) (launched : launch values g state context s = some t) :
      Step s .next t
  | waits (yielded : s.pc = .yielded) (empty : s.channel.queue = []) : Step s .next {s with pc := .reading}
  | takes {a t} (asked : a = .next ∧ s.pc = .yielded ∨ a = .deliver ∧ s.pc = .reading)
      (took : s.take = some t) : Step s a t
  | refuses {a left} (created : s.pc = .created) (asks : Asks s.pc a left) :
      Step s a {s with pc := .ended left}
  | leaves {a e left} (has : s.execution = some e) (asks : Asks s.pc a left) : Step s a (s.leave e left)
  | again {e} (has : s.execution = some e) : Step s .cancelConsumer (s.request e)
  | joined {e left} (has : s.execution = some e) (joining : s.pc = .joining)
      (out : leftOf e.task = some left) : Step s .joined (s.leave e left)
  | cleaned {e left} (has : s.execution = some e) (cleaning : s.pc = .cleaning left)
      (done : e.task.done = true) : Step s .cleaned (s.cleanup e left)

variable {values g state context} {s t : State V C} {a : Action V C}

theorem stepCases (taken : step values g state context s a = some t) : Step values g state context s a t := by
  cases a with
  | runtime a =>
    obtain ⟨runtime,stepped,rest⟩ := Option.bind_eq_some_iff.mp taken
    split at rest
    · cases Option.some.inj rest
      exact .goes stepped
    · rename_i e has
      split at rest
      · rename_i mine
        split at rest <;> try contradiction
        rename_i free
        split at rest <;> cases Option.some.inj rest
        · rename_i ended
          exact .ends has mine (Bool.eq_false_of_not_eq_true free) stepped ended
        · exact .goes stepped
      · cases Option.some.inj rest
        exact .goes stepped
  | write chunk =>
    obtain ⟨e,has,rest⟩ := Option.bind_eq_some_iff.mp taken
    unfold send at rest
    cases sent : s.channel.send chunk with
    | some channel =>
      simp only [sent] at rest
      cases Option.some.inj rest
      exact .sent has sent
    | none =>
      simp only [sent] at rest
      cases Option.some.inj rest
      exact .unsent has sent
  | cancelExecution =>
    obtain ⟨e,has,last⟩ := Option.bind_eq_some_iff.mp taken
    cases Option.some.inj last
    exact .requests has
  | struck =>
    obtain ⟨e,has,rest⟩ := Option.bind_eq_some_iff.mp taken
    split at rest <;> try contradiction
    rename_i guard
    simp only [Bool.and_eq_true,Bool.not_eq_true'] at guard
    split at rest <;> try contradiction
    · rename_i first
      cases Option.some.inj rest
      exact .struck has guard.1 guard.2 (.inl ⟨first,rfl⟩)
    · cases Option.some.inj rest
      exact .struck has guard.1 guard.2 (.inr rfl)
  | callback =>
    obtain ⟨e,has,rest⟩ := Option.bind_eq_some_iff.mp taken
    split at rest <;> try contradiction
    rename_i guard
    simp only [Bool.and_eq_true,Bool.not_eq_true'] at guard
    cases Option.some.inj rest
    exact .callback has guard.1 guard.2
  | next =>
    simp only [step] at taken
    split at taken <;> try contradiction
    · rename_i created
      exact .launches created taken
    · rename_i yielded
      split at taken
      · rename_i empty
        cases Option.some.inj taken
        exact .waits yielded (List.isEmpty_iff.mp empty)
      · exact .takes (.inl ⟨rfl,yielded⟩) taken
  | deliver =>
    simp only [step] at taken
    split at taken <;> try contradiction
    rename_i reading
    exact .takes (.inr ⟨rfl,reading⟩) taken
  | cancelConsumer =>
    obtain ⟨e,has,rest⟩ := Option.bind_eq_some_iff.mp taken
    split at rest <;> try contradiction
    · rename_i reading
      cases Option.some.inj rest
      exact .leaves has (by rw [reading]; exact .interrupted)
    · rename_i joining
      split at rest <;> cases Option.some.inj rest
      · exact .leaves has (by rw [joining]; exact .joining)
      · exact .again has
    · cases Option.some.inj rest
      exact .again has
  | close =>
    simp only [step] at taken
    split at taken <;> try contradiction
    · rename_i created
      cases Option.some.inj taken
      exact .refuses created (by rw [created]; exact .closedFirst)
    · rename_i yielded
      obtain ⟨e,has,rfl⟩ := Option.map_eq_some_iff.mp taken
      exact .leaves has (by rw [yielded]; exact .closed)
  | throw error =>
    simp only [step] at taken
    split at taken <;> try contradiction
    · rename_i created
      cases Option.some.inj taken
      exact .refuses created (by rw [created]; exact .thrownFirst)
    · rename_i yielded
      obtain ⟨e,has,rfl⟩ := Option.map_eq_some_iff.mp taken
      exact .leaves has (by rw [yielded]; exact .thrown)
  | joined =>
    obtain ⟨e,has,rest⟩ := Option.bind_eq_some_iff.mp taken
    obtain ⟨left,out,last⟩ := Option.bind_eq_some_iff.mp rest
    split at last <;> try contradiction
    rename_i joining
    cases Option.some.inj last
    exact .joined has joining out
  | cleaned =>
    obtain ⟨e,has,rest⟩ := Option.bind_eq_some_iff.mp taken
    split at rest <;> try contradiction
    rename_i left cleaning
    split at rest <;> try contradiction
    rename_i done
    cases Option.some.inj rest
    exact .cleaned has cleaning done

theorem asksOther {pc : Pc} {left : Left} (asks : Asks pc a left) : left.drained = false := by
  cases asks <;> rfl

end Step

end Apixis.Stream
