import Apixis.Graph.Trail

/-! A batch is committed as a whole or not at all, wherever the run is looked at,
and the checkpoints are the states between two batches. -/
namespace Apixis.Atomicity
open NodeGraph hiding Action step initial
open ApplyCommand Lifecycle Moves Obligation Baton Interpreter Trail Apixis.Runtime

variable {V : Type} {values : Values V} {compiled : Compiled} {s t : State V} {c : Nat}
  {a : Action V} {r : List (Action V)} {x y b : GraphContext V} {graph : Graph}
  {log : List (List (Result V))} {l : List (Snapshot V)}

/- What one step may do to the attempt: write a batch all of whose nodes have
returned to a context that is active, or take a checkpoint of it. -/
structure Whole (s : State V) (c : Nat) (a : Action V) (x y : GraphContext V) : Prop where
  config : configOf y = configOf x ∨ x.isActive = true ∧ ∃ (d : Nat) (task : DispatchTask V),
    a = .gather d .returned ∧ s.tasks[d]? = some task ∧ task.event.context = some c ∧
    ∀ node ∈ task.nodes, ∃ result, node.outcome = some (.returned result)
  history : y.contextSnapshot = x.contextSnapshot ∨ x.isActive = true ∧
    ∃ (d : Nat) (now : ℚ) (snapshot : Snapshot V), a = .core d now ∧
    y.contextSnapshot = x.contextSnapshot ++ [snapshot] ∧ checkpointOf snapshot = configOf x

def writing (n : Nat) (next : String) : Result Nat :=
  .command ⟨some (.set .empty "k" (.value n)),.target (.node next)⟩

/- The second batch is running when its attempt is aborted; its node returns late. -/
def abortedBatch : List (Action Nat) :=
  [.graph (.construct flow),.graph (.beginInvocation 0 (.dict .empty) .none),.invoke 0,.invokePut 0,
    .invokeResume 0,.consumer .start,.consumer (.begin 0),.consumer (.dequeue 0 (.resolved [.graph 0])),
    .consumer (.launch 0 .launched),.dispatch 0 .begin,.dispatch 0 .visit,.dispatch 0 .gate,.core 0 0,
    .startNode 0 0,.endNode 0 0 (.returned (writing 1 "a")),.gather 0 .returned,.put 0,
    .consumer (.dequeue 0 (.resolved [.graph 0])),.resume 0,.consumer (.launch 0 .launched),
    .dispatch 1 .begin,.dispatch 1 .visit,.dispatch 1 .gate,.core 1 1,.startNode 1 0,
    .graph (.graphAbort 0 (.context 0)),.endNode 1 0 (.returned (writing 2 END)),.gather 1 .returned,
    .dispatch 1 .visit,.wake 0]

def abortedRun : State Nat :=
  (Machine.run (Runtime.step numbers) (Runtime.initial 1) abortedBatch).getD (Runtime.initial 1)

def flowGraph : Graph := ⟨⟨["a"],.node "a",false,[],[]⟩,2,[],false⟩
def abortedBirth : GraphContext Nat := bound (newContext 0 flowGraph .empty) 0 0

end Apixis.Atomicity
