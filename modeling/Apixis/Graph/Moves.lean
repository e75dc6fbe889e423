import Apixis.Graph.Runtime
import Apixis.Graph.Lifecycle

/-! What one step of the runtime does to one context. Every later invariant of a
single invocation is proved from this and not from the actions. -/
namespace Apixis.Moves
open NodeGraph hiding Action step initial
open ApplyCommand Lifecycle Apixis.Runtime

variable {V : Type}

/- Why a step ends the attempt of a context, and how. -/
inductive Cause (s : State V) (c : Nat) (x : GraphContext V) :
    Action V → Status → (GraphContext V → Future V) → Prop where
  | abort : Cause s c x (.graph (.abort c)) .aborted abortResult
  | graphAbort {g} : Cause s c x (.graph (.graphAbort g (.context c))) .aborted abortResult
  | decompose {force} : Cause s c x (.graph (.decompose x.graphId force)) .aborted abortResult
  | notified {d task g phase status value} (found : s.tasks[d]? = some task)
      (context : task.event.context = some c) (calling : task.calling = some (g,phase))
      (mine : x.graphId = g) (how : phase = .onAccepted ∧ status = .aborted ∧ value = abortResult ∨
        phase ≠ .onAccepted ∧ status = .failed ∧ ∃ error, value = fun _ => .exception error)
      (told : phase ≠ .coreFunc) : Cause s c x (.notify d) status value
  | cancelled {d task} (found : s.tasks[d]? = some task) (context : task.event.context = some c)
      (notifying : task.notifying = some x.graphId) :
      Cause s c x (.notifyCancelled d) .aborted (fun _ => .cancelled)
  | finished {d now task} (found : s.tasks[d]? = some task) (context : task.event.context = some c)
      (calling : task.calling = some (x.graphId,.coreFunc)) (idle : task.work = .idle)
      (end_ : x.targetNodeName = .node END) :
      Cause s c x (.core d now) .finished (fun x => .result x.state)
  | node {d i task node error} (found : s.tasks[d]? = some task)
      (context : task.event.context = some c) (work : task.work = .gathering)
      (there : task.nodes[i]? = some node) (raised : node.outcome = some (.raised error))
      (past : ∀ other ∈ task.nodes, other.outcome.isSome = true) :
      Cause s c x (.gather d (.raised i)) .failed (fun _ => .exception error)
  | post {d task error} (found : s.tasks[d]? = some task) (context : task.event.context = some c) :
      Cause s c x (.putFailed d error) .failed (fun _ => .exception error)
  | refused {k invocation graph error} (found : s.invocations[k]? = some invocation)
      (about : invocation.context = c) (owner : s.world.graphs[x.graphId]? = some graph)
      (invalid : validateTarget graph x.targetNodeName x.steps = .error error) :
      Cause s c x (.invoke k) .failed (fun _ => .exception error)
  | invokeFailed {k invocation error} (found : s.invocations[k]? = some invocation)
      (about : invocation.context = c) :
      Cause s c x (.invokeFailed k error) .failed (fun _ => .exception error)
  | invokeCancelled {k invocation} (found : s.invocations[k]? = some invocation)
      (about : invocation.context = c) :
      Cause s c x (.invokeCancelled k) .aborted (fun _ => .cancelled)
  | woken {k invocation completion status value} (found : s.invocations[k]? = some invocation)
      (about : invocation.context = c) (completion_ : x.completion = some completion)
      (done : completion.done = true)
      (how : completion = .cancelled ∧ status = .aborted ∧ value = (fun _ => .cancelled) ∨
        completion ≠ .cancelled ∧ status = .failed ∧ ∃ error, value = fun _ => .exception error) :
      Cause s c x (.wake k) status value

inductive Move (values : Values V) (s : State V) (c : Nat) (x : GraphContext V) :
    Action V → GraphContext V → Prop where
  | same {a} : Move values s c x a x
  | bound {g state graph} (owner : s.world.graphs[g]? = some graph) (live : graph.decomposed = false)
      (mine : x.graphId = g) (pending : x.status = .pending)
      (valid : ∃ target, validateTarget graph x.targetNodeName x.steps = .ok target) :
      Move values s c x (.graph (.beginInvocation g state (.context c))) (bound x g s.world.runs)
  | ended {a status value} (permitted : allowed x.status status = true)
      (cause : Cause s c x a status value) : Move values s c x a (ended x status value)
  | interrupted {k f invocation} (found : s.invocations[k]? = some invocation)
      (about : invocation.context = c) (completion : x.completion = some f) :
      Move values s c x (.interrupt k) {x with completion := some f.cancel}
  | targeted {k invocation graph target} (found : s.invocations[k]? = some invocation)
      (about : invocation.context = c) (stage : invocation.stage = .admitted)
      (owner : s.world.graphs[x.graphId]? = some graph) (running : x.status = .running)
      (valid : validateTarget graph x.targetNodeName x.steps = .ok target) :
      Move values s c x (.invoke k) {x with targetNodeName := target}
  | began {d now task graph names y} (found : s.tasks[d]? = some task)
      (context : task.event.context = some c) (calling : task.calling = some (x.graphId,.coreFunc))
      (idle : task.work = .idle) (owner : s.world.graphs[x.graphId]? = some graph)
      (running : x.status = .running) (more : x.targetNodeName ≠ .node END)
      (begun : executeNode values graph x now = .ok (names,y)) : Move values s c x (.core d now) y
  | committed {d task graph results next state target} (found : s.tasks[d]? = some task)
      (context : task.event.context = some c) (work : task.work = .gathering)
      (owner : s.world.graphs[x.graphId]? = some graph) (running : x.status = .running)
      (returned : allReturned task.nodes = some results)
      (applied : applyCommand values x.graphId graph results (.batch (task.nodes.map NodeTask.name)) x =
        .ok (next,state))
      (valid : validateTarget graph next (x.steps + 1) = .ok target) :
      Move values s c x (.gather d .returned)
        {x with state := state, steps := x.steps + 1, targetNodeName := target}
  | refused {d task graph results state error} (found : s.tasks[d]? = some task)
      (context : task.event.context = some c) (work : task.work = .gathering)
      (owner : s.world.graphs[x.graphId]? = some graph) (running : x.status = .running)
      (returned : allReturned task.nodes = some results)
      (applied : applyCommand values x.graphId graph results (.batch (task.nodes.map NodeTask.name)) x =
        .error (error,state)) :
      Move values s c x (.gather d .returned)
        (ended {x with state := state} .failed (fun _ => .exception error))
  | overrun {d task graph results next state error} (found : s.tasks[d]? = some task)
      (context : task.event.context = some c) (work : task.work = .gathering)
      (owner : s.world.graphs[x.graphId]? = some graph) (running : x.status = .running)
      (returned : allReturned task.nodes = some results)
      (applied : applyCommand values x.graphId graph results (.batch (task.nodes.map NodeTask.name)) x =
        .ok (next,state))
      (invalid : validateTarget graph next (x.steps + 1) = .error error) :
      Move values s c x (.gather d .returned)
        (ended {x with state := state, steps := x.steps + 1} .failed (fun _ => .exception error))

inductive Born (values : Values V) (s : State V) : Action V → GraphContext V → Prop where
  | created {g graph state prepared} (owner : s.world.graphs[g]? = some graph)
      (copied : copyState values.copyable graph.keepRefKeys state = .ok prepared) :
      Born values s (.graph (.createContext g (.dict state))) (newContext g graph prepared)
  | invoked {g graph state prepared} (owner : s.world.graphs[g]? = some graph)
      (live : graph.decomposed = false)
      (copied : copyState values.copyable graph.keepRefKeys state = .ok prepared)
      (valid : ∃ target, validateTarget graph graph.entryPoint 0 = .ok target) :
      Born values s (.graph (.beginInvocation g (.dict state) .none))
        (bound (newContext g graph prepared) g s.world.runs)
  | restored {g source version graph raw history restored} (owner : s.world.graphs[g]? = some graph)
      (sourced : sourceHistory s.world g version source = .ok raw)
      (valid : validateAll g raw = .ok history) (latest : history.getLast? = some restored) :
      Born values s (.graph (.restoreContext g source version)) (restoredContext g history restored)

def view (graph : Graph) : Compiled × Int := (graph.toCompiled,graph.maxSteps)

/- What a step does to the graphs, but for who runs on them. -/
inductive Compiles (l : List Graph) : Action V → List Graph → Prop where
  | kept {a l'} (same : l'.map view = l.map view) : Compiles l a l'
  | constructed {definition graph} (normal : Target.Normal graph.nodes graph.entryPoint) :
      Compiles l (.graph (.construct definition)) (l ++ [graph])
  | budget {g n graph} (owner : l[g]? = some graph) :
      Compiles l (.graph (.setMaxSteps g n)) (l.set g {graph with maxSteps := n})

/- The world after a step, seen from the contexts before it. -/
structure Moved (values : Values V) (s : State V) (a : Action V) (w : World V) : Prop where
  managed : Managed w
  moves : ∀ (c : Nat) x, s.world.contexts[c]? = some x →
    ∃ y, w.contexts[c]? = some y ∧ Move values s c x a y
  born : ∀ (c : Nat) y, w.contexts[c]? = some y → s.world.contexts[c]? = none → Born values s a y
  graphs : Compiles s.world.graphs a w.graphs

variable {values : Values V} {w v : World V} {s t : State V} {g c d k : Nat}
  {x y : GraphContext V} {graph : Graph} {a : Action V} {status : Status}
  {value : GraphContext V → Future V} {call : Call V (World V)} {task next : DispatchTask V}

theorem viewSet {l : List Graph} {graph' : Graph} (owner : l[g]? = some graph)
    (same : view graph' = view graph) : (l.set g graph').map view = l.map view := by
  rw [List.map_set,same]
  exact Slots.setEqual (by rw [List.getElem?_map,owner]; rfl)

theorem discardView (l : List Graph) (g c : Nat) : (discardFrom l g c).map view = l.map view := by
  unfold discardFrom
  split
  · rename_i graph owner
    exact viewSet owner rfl
  · rfl

theorem endedView (w : World V) (c : Nat) (x : GraphContext V) (status : Status)
    (value : GraphContext V → Future V) :
    (endedWorld w c x status value).graphs.map view = w.graphs.map view := by
  simp only [endedWorld]
  split
  · exact discardView _ _ _
  · rfl

theorem causeAborted (cause : Cause s c x a .aborted value) :
    value = abortResult ∨ value = fun _ => .cancelled := by
  cases cause with
  | abort => exact .inl rfl
  | graphAbort => exact .inl rfl
  | decompose => exact .inl rfl
  | notified found context calling mine how =>
    rcases how with ⟨_,_,same⟩ | ⟨_,no,_⟩
    · exact .inl same
    · contradiction
  | cancelled found context notifying => exact .inr rfl
  | invokeCancelled found about => exact .inr rfl
  | woken found about completion done how =>
    rcases how with ⟨_,_,same⟩ | ⟨_,no,_⟩
    · exact .inr same
    · contradiction

theorem causeFinal (cause : Cause s c x a status value) : status.terminal = true := by
  cases cause with
  | notified found context calling mine how => rcases how with ⟨_,rfl,_⟩ | ⟨_,rfl,_⟩ <;> rfl
  | woken found about completion done how => rcases how with ⟨_,rfl,_⟩ | ⟨_,rfl,_⟩ <;> rfl
  | _ => rfl

theorem compilesKept {l l' : List Graph} (compiles : Compiles l a l') (owner : l[g]? = some graph) :
    ∃ graph', l'[g]? = some graph' ∧ graph'.toCompiled = graph.toCompiled ∧
      ((∀ n, a ≠ .graph (.setMaxSteps g n)) → graph'.maxSteps = graph.maxSteps) := by
  cases compiles with
  | kept same =>
    have seen : (l'.map view)[g]? = some (view graph) := by rw [same,List.getElem?_map,owner]; rfl
    rw [List.getElem?_map] at seen
    obtain ⟨graph',there,equal⟩ := Option.map_eq_some_iff.mp seen
    exact ⟨graph',there,congrArg Prod.fst equal,fun _ => congrArg Prod.snd equal⟩
  | constructed normal => exact ⟨graph,Slots.appendOld owner,rfl,fun _ => rfl⟩
  | budget known =>
    rename_i h n other
    by_cases same : h = g
    · subst same
      cases Option.some.inj (owner.symm.trans known)
      exact ⟨_,Slots.setSame owner,rfl,fun away => absurd rfl (away n)⟩
    · exact ⟨graph,(Slots.setOther same).trans owner,rfl,fun _ => rfl⟩

/- The entry point of every graph is a target as it was normalised. -/
def Formed (l : List Graph) : Prop :=
  ∀ (g : Nat) graph, l[g]? = some graph → Target.Normal graph.nodes graph.entryPoint

theorem compilesFormed {l l' : List Graph} (compiles : Compiles l a l') (formed : Formed l) :
    Formed l' := by
  intro g graph' there
  cases compiles with
  | kept same =>
    have seen : (l.map view)[g]? = some (view graph') := by rw [← same,List.getElem?_map,there]; rfl
    rw [List.getElem?_map] at seen
    obtain ⟨graph,owner,equal⟩ := Option.map_eq_some_iff.mp seen
    have compiled : graph.toCompiled = graph'.toCompiled := congrArg Prod.fst equal
    have normal := formed g graph owner
    rw [compiled] at normal
    exact normal
  | constructed normal =>
    rcases Slots.appendCases there with ⟨_,rfl⟩ | old
    · exact normal
    · exact formed g graph' old
  | budget known =>
    rcases Slots.setCases there with ⟨_,rfl⟩ | ⟨_,old⟩
    · have normal := formed _ _ known
      exact normal
    · exact formed g graph' old

/- A call that ends the attempt of `c` if it is active in `g`, and else does nothing. -/
def Closes (w : World V) (g c : Nat) (status : Status) (value : GraphContext V → Future V)
    (call : Call V (World V)) : Prop :=
  (w.isActiveContext g c = false ∧ call = .ok w) ∨
  ∃ x, w.contexts[c]? = some x ∧ x.graphId = g ∧ x.status = .running ∧
    w.isActiveContext g c = true ∧ call = .ok (endedWorld w c x status value)

theorem activeFound (exact_ : Exact w) (active : w.isActiveContext g c = true) :
    ∃ x graph, w.contexts[c]? = some x ∧ w.graphs[g]? = some graph ∧ x.graphId = g ∧
      x.status = .running ∧ graph.decomposed = false := by
  have parts := active
  unfold World.isActiveContext at parts
  split at parts
  · rename_i graph x owner found
    obtain ⟨mine,running,live⟩ := (activeIff exact_ found owner).mp active
    exact ⟨x,graph,found,owner,mine,running,live⟩
  · contradiction

theorem activeRunning (exact_ : Exact w) (found : w.contexts[c]? = some x)
    (active : w.isActiveContext g c = true) : x.graphId = g ∧ x.status = .running := by
  obtain ⟨z,graph,same,owner,mine,running,_⟩ := activeFound exact_ active
  cases Option.some.inj (found.symm.trans same)
  exact ⟨mine,running⟩

theorem concludeRunning (exact_ : Exact w) (found : w.contexts[c]? = some x)
    (running : x.status = .running) (final : status.terminal = true) :
    conclude w c x status value = .ok (endedWorld w c x status value) := by
  have permitted : allowed x.status status = true := by
    rw [running]
    cases status <;> first | contradiction | rfl
  rcases concludeCases exact_ found final value with ⟨_,same⟩ | ⟨done,_⟩ | ⟨refused,_⟩
  · rw [running] at same
    rw [← same] at final
    contradiction
  · exact done
  · rw [permitted] at refused
    contradiction

section Calls
variable (managed : Managed w) (g c : Nat) (error : PyError)
include managed

theorem graphFailCloses : Closes w g c .failed (fun _ => .exception error) (graphFail w g c error) := by
  cases active : w.isActiveContext g c with
  | false =>
    refine .inl ⟨active,?_⟩
    unfold graphFail
    rw [active]
    split <;> rfl
  | true =>
    obtain ⟨x,graph,found,owner,mine,running,_⟩ := activeFound managed.toExact active
    refine .inr ⟨x,found,mine,running,active,?_⟩
    simp only [graphFail,found,active,if_true,fail]
    exact concludeRunning managed.toExact found running rfl

theorem failIfActiveCloses :
    Closes w g c .failed (fun _ => .exception error) (failIfActive w g c error) := by
  have same : failIfActive w g c error = graphFail w g c error := by
    unfold failIfActive
    split
    · rename_i x found
      split
      · rfl
      · rename_i idle
        have inactive : w.isActiveContext g c = false := by
          cases active : w.isActiveContext g c with
          | false => rfl
          | true =>
            obtain ⟨_,running⟩ := activeRunning managed.toExact found active
            simp [GraphContext.isActive,running] at idle
        simp [graphFail,found,inactive]
    · rename_i missing
      simp [graphFail,missing]
  rw [same]
  exact graphFailCloses managed g c error

theorem graphFinishCloses :
    Closes w g c .finished (fun x => .result x.state) (graphFinish w g c) := by
  cases active : w.isActiveContext g c with
  | false =>
    refine .inl ⟨active,?_⟩
    unfold graphFinish
    rw [active]
    split <;> rfl
  | true =>
    obtain ⟨x,graph,found,owner,mine,running,_⟩ := activeFound managed.toExact active
    refine .inr ⟨x,found,mine,running,active,?_⟩
    have shaped := managed.shaped c x found
    unfold Shaped at shaped
    rw [running] at shaped
    have held : x.completion.isNone = false := by
      rw [← Option.not_isSome,shaped.2.1]
      rfl
    simp only [graphFinish,found,active,if_true,finish,held]
    exact concludeRunning managed.toExact found running rfl

theorem abortIfActiveCloses : Closes w g c .aborted abortResult (abortIfActive w g c) := by
  cases active : w.isActiveContext g c with
  | false =>
    refine .inl ⟨active,?_⟩
    unfold abortIfActive
    rw [active]
    split <;> rfl
  | true =>
    obtain ⟨x,graph,found,owner,mine,running,_⟩ := activeFound managed.toExact active
    refine .inr ⟨x,found,mine,running,active,?_⟩
    simp only [abortIfActive,found,active,if_true,abort]
    exact concludeRunning managed.toExact found running rfl

theorem cancelIfActiveCloses : Closes w g c .aborted (fun _ => .cancelled) (cancelIfActive w g c) := by
  cases active : w.isActiveContext g c with
  | false =>
    refine .inl ⟨active,?_⟩
    unfold cancelIfActive
    rw [active]
    split <;> rfl
  | true =>
    obtain ⟨x,graph,found,owner,mine,running,_⟩ := activeFound managed.toExact active
    refine .inr ⟨x,found,mine,running,active,?_⟩
    simp only [cancelIfActive,found,active,if_true,cancel]
    exact concludeRunning managed.toExact found running rfl

theorem cancelIfRunningCloses (found : w.contexts[c]? = some x) :
    Closes w x.graphId c .aborted (fun _ => .cancelled) (cancelIfRunning w c) := by
  by_cases running : x.status = .running
  · refine .inr ⟨x,found,rfl,running,runningActive managed found running,?_⟩
    simp only [cancelIfRunning,found,running,if_true,cancel]
    exact concludeRunning managed.toExact found running rfl
  · refine .inl ⟨?_,by simp [cancelIfRunning,found,running]⟩
    cases active : w.isActiveContext x.graphId c with
    | false => rfl
    | true => exact absurd (activeRunning managed.toExact found active).2 running

end Calls

theorem closesManaged (managed : Managed w) (final : status.terminal = true)
    (settles : ∀ z, (value z).done = true) (closes : Closes w g c status value call) :
    Managed (PyError.stateOf call) := by
  rcases closes with ⟨_,rfl⟩ | ⟨x,found,_,running,_,rfl⟩
  · exact managed
  · have permitted : allowed x.status status = true := by
      rw [running]
      cases status <;> first | contradiction | rfl
    exact endedManaged managed found permitted final settles

theorem closesMoves {e : Nat} (closes : Closes w g e status value call)
    (found : w.contexts[c]? = some x) : ∃ y, (PyError.stateOf call).contexts[c]? = some y ∧
      (y = x ∨ c = e ∧ x.graphId = g ∧ x.status = .running ∧ y = ended x status value) := by
  rcases closes with ⟨_,rfl⟩ | ⟨z,there,mine,running,_,rfl⟩
  · exact ⟨x,found,.inl rfl⟩
  · by_cases same : e = c
    · subst same
      cases Option.some.inj (found.symm.trans there)
      exact ⟨ended x status value,Slots.setSame found,.inr ⟨rfl,mine,running,rfl⟩⟩
    · refine ⟨x,?_,.inl rfl⟩
      simp only [PyError.stateOf,endedWorld]
      exact (Slots.setOther same).trans found

theorem closesInactive (managed : Managed w) (final : status.terminal = true)
    (settles : ∀ z, (value z).done = true) (closes : Closes w g c status value call) :
    (PyError.stateOf call).isActiveContext g c = false := by
  have after := closesManaged managed final settles closes
  rcases closes with ⟨inactive,rfl⟩ | ⟨x,found,_,_,_,rfl⟩
  · exact inactive
  · cases active : (endedWorld w c x status value).isActiveContext g c with
    | false => exact active
    | true =>
      have stored : (endedWorld w c x status value).contexts[c]? = some (ended x status value) :=
        Slots.setSame found
      have running := (activeRunning after.toExact stored active).2
      have same : status = .running := running
      rw [same] at final
      contradiction

theorem closesView (closes : Closes w g c status value call) :
    (PyError.stateOf call).graphs.map view = w.graphs.map view := by
  rcases closes with ⟨_,rfl⟩ | ⟨x,_,_,_,_,rfl⟩
  · rfl
  · exact endedView _ _ _ _ _

theorem closesReturns (closes : Closes w g c status value call) : outcomeOf call = .returned := by
  rcases closes with ⟨_,rfl⟩ | ⟨x,_,_,_,_,rfl⟩ <;> rfl

theorem commitCases {names : List String} {results : List (Result V)} {goes : Bool}
    (done : commit values w g c graph x names results = (goes,call)) :
    (x.isActive = false ∧ goes = false ∧ call = .ok w) ∨
    x.isActive = true ∧
      ((∃ error state, applyCommand values g graph results (.batch names) x = .error (error,state) ∧
        goes = false ∧ call = failIfActive (w.setContext c {x with state := state}) g c error) ∨
      ∃ next state, applyCommand values g graph results (.batch names) x = .ok (next,state) ∧
        ((∃ error, validateTarget graph next (x.steps + 1) = .error error ∧ goes = false ∧
          call = failIfActive (w.setContext c {x with state := state, steps := x.steps + 1}) g c error) ∨
        ∃ target, validateTarget graph next (x.steps + 1) = .ok target ∧ goes = true ∧
          call = .ok (w.setContext c
            {x with state := state, steps := x.steps + 1, targetNodeName := target}))) := by
  unfold commit at done
  split at done
  · rename_i active
    refine .inr ⟨active,?_⟩
    split at done
    · rename_i error state applied
      cases done
      exact .inl ⟨error,state,applied,rfl,rfl⟩
    · rename_i next state applied
      refine .inr ⟨next,state,applied,?_⟩
      simp only at done
      split at done
      · rename_i error invalid
        cases done
        exact .inl ⟨error,invalid,rfl,rfl⟩
      · rename_i target valid
        cases done
        exact .inr ⟨target,valid,rfl,rfl⟩
  · rename_i idle
    cases done
    exact .inl ⟨by simpa using idle,rfl,rfl⟩

theorem callingKept {p : Nat × Dispatch.Phase} {b : Dispatch.Action} {run : Dispatch.State Handler}
    (calling : task.calling = some p) (allowed_ : task.allows b = true)
    (taken : Dispatch.step Handler.flags task.run b = some run) :
    run.pc = task.run.pc ∧ run.chain = task.run.chain := by
  have at_ : ∃ i phase parent, task.run.pc = .execute i (.calling phase parent) := by
    unfold DispatchTask.calling at calling
    split at calling
    · rename_i i phase parent pc
      exact ⟨i,phase,parent,pc⟩
    · contradiction
  obtain ⟨i,phase,parent,pc⟩ := at_
  have refused : b = .callback .returned ∨ b = .callback .raised ∨ b = .callback .cancelled → False := by
    intro callback
    have mine : task.allows b = task.calling.isNone := by
      rcases callback with rfl | rfl | rfl <;> rfl
    rw [mine,calling] at allowed_
    contradiction
  cases Dispatch.stepCases taken with
  | begin created => rw [pc] at created; contradiction
  | kill created => rw [pc] at created; contradiction
  | finish visit past => rw [pc] at visit; contradiction
  | hand visit found background => rw [pc] at visit; contradiction
  | enter visit found foreground => rw [pc] at visit; contradiction
  | gate gate found passed =>
    rw [pc] at gate
    cases gate
  | callback at_ found settled =>
    rename_i outcome _ _
    cases outcome <;> exact (refused (by simp)).elim
  | cleaned cleanup past => rw [pc] at cleanup; contradiction
  | notify cleanup found foreground hook => rw [pc] at cleanup; contradiction
  | skip cleanup found silent => rw [pc] at cleanup; contradiction
  | notified notifying => rw [pc] at notifying; contradiction
  | accept => exact ⟨rfl,rfl⟩
  | backgroundBegin found pc' => exact ⟨rfl,rfl⟩
  | backgroundGate found pc' passed =>
    obtain ⟨place,chain,_⟩ := Dispatch.backgroundFixed _ _ _ _ _
    exact ⟨place,chain⟩
  | backgroundCallback found pc' settled =>
    obtain ⟨place,chain,_⟩ := Dispatch.backgroundFixed _ _ _ _ _
    exact ⟨place,chain⟩
  | backgroundEnd found => exact ⟨rfl,rfl⟩

theorem answerCases {outcome : Dispatch.Outcome} (answered : task.answer outcome = some next) :
    ∃ run, Dispatch.step Handler.flags task.run (.callback outcome) = some run ∧
      next = {task with run := run, work := .idle} := by
  obtain ⟨run,taken,last⟩ := Option.bind_eq_some_iff.mp answered
  exact ⟨run,taken,(Option.some.inj last).symm⟩

theorem callingSame {run : Dispatch.State Handler} (pc : run.pc = task.run.pc)
    (chain : run.chain = task.run.chain) :
    ({task with run := run} : DispatchTask V).calling = task.calling := by
  unfold DispatchTask.calling
  rw [pc,chain]

/- A graph that waits for its nodes or its post is the owner of the context. -/
def Works (w : World V) (task : DispatchTask V) : Prop :=
  task.work ≠ .idle → ∃ g c x, task.calling = some (g,.coreFunc) ∧
    task.event.context = some c ∧ w.contexts[c]? = some x ∧ x.graphId = g

theorem worksIdle (idle : task.work = .idle) : Works w task := fun busy => absurd idle busy

theorem worksPersists (works : Works w task) (persists : Persists w v) : Works v task := by
  intro busy
  obtain ⟨g,c,x,calling,context,found,mine⟩ := works busy
  obtain ⟨y,there,goes⟩ := persists c x found
  exact ⟨g,c,y,calling,context,there,goes.graphId.trans mine⟩

theorem worksAnswer {outcome : Dispatch.Outcome} (answered : task.answer outcome = some next) :
    Works w next := by
  obtain ⟨run,_,rfl⟩ := answerCases answered
  exact worksIdle rfl

/- What every later invariant of the runtime starts from. -/
structure Ready (s : State V) : Prop where
  managed : Managed s.world
  works : ∀ (d : Nat) task, s.tasks[d]? = some task → Works s.world task

theorem noneBorn (lengths : w.contexts.length = s.world.contexts.length) :
    ∀ (c : Nat) y, w.contexts[c]? = some y → s.world.contexts[c]? = none → Born values s a y := by
  intro c y found missing
  have inside := Slots.inside found
  have outside := List.getElem?_eq_none_iff.mp missing
  omega

theorem movesSame (ready : Ready s) : Moved values s a s.world :=
  ⟨ready.managed,fun _ x found => ⟨x,found,.same⟩,noneBorn rfl,.kept rfl⟩

theorem closesLength (closes : Closes w g c status value call) :
    (PyError.stateOf call).contexts.length = w.contexts.length := by
  rcases closes with ⟨_,rfl⟩ | ⟨x,_,_,_,_,rfl⟩
  · rfl
  · exact List.length_set

theorem movesCloses {e : Nat} (ready : Ready s) (final : status.terminal = true)
    (settles : ∀ z, (value z).done = true) (closes : Closes s.world g e status value call)
    (cause : ∀ x, s.world.contexts[e]? = some x → x.graphId = g → x.status = .running →
      Cause s e x a status value) : Moved values s a (PyError.stateOf call) := by
  refine ⟨closesManaged ready.managed final settles closes,?_,noneBorn (closesLength closes),
    .kept (closesView closes)⟩
  intro c x found
  obtain ⟨y,there,rfl | ⟨rfl,mine,running,rfl⟩⟩ := closesMoves closes found
  · exact ⟨y,there,.same⟩
  · have permitted : allowed x.status status = true := by
      rw [running]
      cases status <;> first | contradiction | rfl
    exact ⟨_,there,.ended permitted (cause x found mine running)⟩

theorem movesConclude {e : Nat} {z : GraphContext V} (ready : Ready s)
    (there : s.world.contexts[e]? = some z) (final : status.terminal = true)
    (settles : ∀ z, (value z).done = true) (cause : Cause s e z a status value) :
    Moved values s a (PyError.stateOf (conclude s.world e z status value)) := by
  rcases concludeCases ready.managed.toExact there final value with
    ⟨done,_⟩ | ⟨done,permitted⟩ | ⟨_,message,raised⟩
  · rw [done]
    exact movesSame ready
  · rw [done]
    refine ⟨endedManaged ready.managed there permitted final settles,?_,noneBorn List.length_set,
      .kept (endedView _ _ _ _ _)⟩
    intro c x found
    by_cases same : e = c
    · subst same
      cases Option.some.inj (found.symm.trans there)
      exact ⟨_,Slots.setSame found,.ended permitted cause⟩
    · refine ⟨x,?_,.same⟩
      simp only [PyError.stateOf,endedWorld]
      exact (Slots.setOther same).trans found
  · rw [raised]
    exact movesSame ready

theorem movesSet {e : Nat} {z y : GraphContext V} (ready : Ready s)
    (there : s.world.contexts[e]? = some z) (alike : Alike z y) (move : Move values s e z a y) :
    Moved values s a (s.world.setContext e y) := by
  have shaped := alikeShaped alike (ready.managed.shaped e z there)
  refine ⟨setManaged ready.managed there shaped alike.graphId alike.status,?_,
    noneBorn List.length_set,.kept rfl⟩
  intro c x found
  by_cases same : e = c
  · subst same
    cases Option.some.inj (found.symm.trans there)
    exact ⟨y,Slots.setSame found,move⟩
  · exact ⟨x,(Slots.setOther same).trans found,.same⟩

theorem executeNodeOk {now : ℚ} {names : List String} (begun : executeNode values graph x now = .ok (names,y)) :
    Target.normaliseTargets x.targetNodeName = .ok names ∧
    (graph.noSnapshot = true ∧ y = x ∨
      graph.noSnapshot = false ∧ x.isActive = true ∧ ∃ state, copyState values.copyable [] x.state = .ok state ∧
        y = {x with contextSnapshot :=
          x.contextSnapshot ++ [⟨now,state,x.targetNodeName,x.steps,x.graphId⟩]}) := by
  obtain ⟨l,targets,rest⟩ := PyError.bindOk.mp begun
  split at rest
  · rename_i off
    cases rest
    exact ⟨targets,.inl ⟨off,rfl⟩⟩
  · rename_i on
    obtain ⟨taken,snapshot,last⟩ := PyError.bindOk.mp rest
    cases last
    simp only [takeSnapshot,PyError.bindOk,PyError.raiseIfOk,exists_const] at snapshot
    obtain ⟨active,state,copied,last⟩ := snapshot
    cases last
    exact ⟨targets,.inr ⟨by simpa using on,by simpa using active,state,copied,rfl⟩⟩

theorem copyStateOk {copyable : V → Bool} {keep : List String} {state copy : StateDict V}
    (copied : copyState copyable keep state = .ok copy) : copy = state := by
  simp only [copyState,PyError.bindOk,PyError.raiseIfOk,exists_const] at copied
  exact (Except.ok.inj copied.2).symm

theorem executeNodeAlike {now : ℚ} {names : List String}
    (begun : executeNode values graph x now = .ok (names,y)) : Alike x y := by
  rcases (executeNodeOk begun).2 with ⟨_,rfl⟩ | ⟨_,_,state,_,rfl⟩
  · exact ⟨rfl,rfl,rfl,rfl,rfl⟩
  · exact ⟨rfl,rfl,rfl,rfl,rfl⟩

theorem worksOwner {phase : Dispatch.Phase} (works : Works w task) (busy : task.work ≠ .idle)
    (calling : task.calling = some (g,phase)) (context : task.event.context = some c)
    (found : w.contexts[c]? = some x) : x.graphId = g := by
  obtain ⟨h,e,z,called,carried,there,mine⟩ := works busy
  rw [calling] at called
  rw [context] at carried
  cases called
  cases carried
  cases Option.some.inj (found.symm.trans there)
  exact mine

theorem movesBroken {e : Nat} {z y : GraphContext V} {error : PyError} (ready : Ready s)
    (there : s.world.contexts[e]? = some z) (alike : Alike z y) (mine : z.graphId = g)
    (active : z.isActive = true)
    (move : Move values s e z a (ended y .failed (fun _ => .exception error))) :
    Moved values s a (PyError.stateOf (failIfActive (s.world.setContext e y) g e error)) := by
  have shaped := alikeShaped alike (ready.managed.shaped e z there)
  have written := setManaged ready.managed there shaped alike.graphId alike.status
  have closes := failIfActiveCloses written g e error
  have stored : (s.world.setContext e y).contexts[e]? = some y := Slots.setSame there
  have running : y.status = .running := by
    rw [alike.status]
    exact eq_of_beq active
  have graphs := closesView closes
  refine ⟨closesManaged written rfl (fun _ => rfl) closes,?_,
    noneBorn ((closesLength closes).trans List.length_set),.kept graphs⟩
  intro c x found
  by_cases same : e = c
  · subst same
    cases Option.some.inj (found.symm.trans there)
    have live := runningActive written stored running
    rw [alike.graphId,mine] at live
    rcases closes with ⟨inactive,_⟩ | ⟨y',known,_,_,_,done⟩
    · rw [live] at inactive
      contradiction
    · cases Option.some.inj (stored.symm.trans known)
      rw [done]
      exact ⟨_,Slots.setSame stored,move⟩
  · have kept : (s.world.setContext e y).contexts[c]? = some x := (Slots.setOther same).trans found
    obtain ⟨y',known,rfl | ⟨equal,_⟩⟩ := closesMoves closes kept
    · exact ⟨y',known,.same⟩
    · exact absurd equal.symm same

theorem movesCommit {names : List String} {results : List (Result V)} {goes : Bool} (ready : Ready s)
    (found : s.tasks[d]? = some task) (context : task.event.context = some c)
    (work : task.work = .gathering) (owner : s.world.graphs[g]? = some graph)
    (there : s.world.contexts[c]? = some x) (mine : x.graphId = g)
    (returned : allReturned task.nodes = some results) (named : names = task.nodes.map NodeTask.name)
    (done : commit values s.world g c graph x names results = (goes,call)) :
    Moved values s (.gather d .returned) (PyError.stateOf call) := by
  subst named
  subst mine
  rcases commitCases done with ⟨_,_,rfl⟩ | ⟨active,rest⟩
  · exact movesSame ready
  · have running : x.status = .running := eq_of_beq active
    rcases rest with ⟨error,state,applied,_,rfl⟩ | ⟨next,state,applied,⟨error,invalid,_,rfl⟩ | ⟨target,valid,_,rfl⟩⟩
    · exact movesBroken ready there ⟨rfl,rfl,rfl,rfl,rfl⟩ rfl active
        (.refused found context work owner running returned applied)
    · exact movesBroken ready there ⟨rfl,rfl,rfl,rfl,rfl⟩ rfl active
        (.overrun found context work owner running returned applied invalid)
    · exact movesSet ready there ⟨rfl,rfl,rfl,rfl,rfl⟩
        (.committed found context work owner running returned applied valid)

theorem movesNotification {phase : Dispatch.Phase} (ready : Ready s) (found : s.tasks[d]? = some task)
    (calling : task.calling = some (g,phase)) (notified : phase ≠ .coreFunc) :
    Moved values s (.notify d)
      (PyError.stateOf (notification s.world g task.failure phase task.event)) := by
  cases event : task.event with
  | other k => exact movesSame ready
  | dispatch h c =>
    have context : task.event.context = some c := by rw [event]; rfl
    cases phase with
    | coreFunc => contradiction
    | onHasError =>
      exact movesCloses ready rfl (fun _ => rfl) (graphFailCloses ready.managed g c _)
        (fun x _ mine _ => .notified found context calling mine (.inr ⟨nofun,rfl,_,rfl⟩) notified)
    | onAccepted =>
      exact movesCloses ready rfl (fun _ => rfl) (abortIfActiveCloses ready.managed g c)
        (fun x _ mine _ => .notified found context calling mine (.inl ⟨rfl,rfl,rfl⟩) notified)
    | onError =>
      exact movesCloses ready rfl (fun _ => rfl) (graphFailCloses ready.managed g c _)
        (fun x _ mine _ => .notified found context calling mine (.inr ⟨nofun,rfl,_,rfl⟩) notified)

theorem movesTask (ready : Ready s) (found : s.tasks[d]? = some task)
    (moved : TaskStep values s.world d task a next v) : Moved values s a v := by
  have works := ready.works d task found
  cases moved with
  | dispatch allowed_ taken => exact movesSame ready
  | notify calling notified answered => exact movesNotification ready found calling notified
  | notifyCancelled notifying taken =>
    cases event : task.event with
    | other k => exact movesSame ready
    | dispatch h c =>
      have context : task.event.context = some c := by rw [event]; rfl
      exact movesCloses ready rfl (fun _ => rfl) (cancelIfActiveCloses ready.managed _ c)
        (fun x _ mine _ => .cancelled found context (by rw [mine]; exact notifying))
  | coreIdle calling idle inactive answered => exact movesSame ready
  | coreFinish calling idle event active there end_ answered =>
    rename_i now g h c x
    have context : task.event.context = some c := by rw [event]; rfl
    refine movesCloses ready rfl (fun _ => rfl) (graphFinishCloses ready.managed g c) ?_
    intro z known mine _
    cases Option.some.inj (there.symm.trans known)
    exact .finished found context (by rw [mine]; exact calling) idle end_
  | coreRaise calling idle event active there owner more raised answered => exact movesSame ready
  | coreBegin calling idle event active there owner more begun =>
    rename_i now g h c x y graph names
    have context : task.event.context = some c := by rw [event]; rfl
    obtain ⟨mine,running⟩ := activeRunning ready.managed.toExact there active
    rw [← mine] at calling owner
    exact movesSet ready there (executeNodeAlike begun)
      (.began found context calling idle owner running more begun)
  | startNode event there owner known unstarted open_ => exact movesSame ready
  | endNode there open_ started => exact movesSame ready
  | gatherCancelled calling context work answered => exact movesSame ready
  | gatherRaised calling context work there raised past answered =>
    exact movesCloses ready rfl (fun _ => rfl) (failIfActiveCloses ready.managed _ _ _)
      (fun x _ _ _ => .node found context work there raised past)
  | gathered calling context work returned owner there stopped answered =>
    have mine := worksOwner works (by rw [work]; nofun) calling context there
    exact movesCommit ready found context work owner there mine returned rfl stopped
  | committed calling context work returned owner there goes =>
    have mine := worksOwner works (by rw [work]; nofun) calling context there
    exact movesCommit ready found context work owner there mine returned rfl goes
  | putFailed calling context work answered =>
    exact movesCloses ready rfl (fun _ => rfl) (failIfActiveCloses ready.managed _ _ _)
      (fun x _ _ _ => .post found context)
  | postCancelled work answered => exact movesSame ready
  | resume work answered => exact movesSame ready

theorem movesInvocation {invocation : Invocation} {stage : Stage} (ready : Ready s)
    (found : s.invocations[k]? = some invocation)
    (moved : InvocationStep values s.world k invocation a stage v) : Moved values s a v := by
  cases moved with
  | refused stage owner there active invalid =>
    refine movesCloses ready rfl (fun _ => rfl) (graphFailCloses ready.managed _ _ _) ?_
    intro z known mine _
    cases Option.some.inj (there.symm.trans known)
    exact .refused found rfl (by rw [mine]; exact owner) invalid
  | targeted stage owner there active valid =>
    obtain ⟨mine,running⟩ := activeRunning ready.managed.toExact there active
    exact movesSet ready there ⟨rfl,rfl,rfl,rfl,rfl⟩
      (.targeted found rfl stage (by rw [mine]; exact owner) running valid)
  | late stage there inactive => exact movesSame ready
  | failed stage =>
    exact movesCloses ready rfl (fun _ => rfl) (graphFailCloses ready.managed _ _ _)
      (fun x _ _ _ => .invokeFailed found rfl)
  | cancelled stage =>
    cases there : s.world.contexts[invocation.context]? with
    | none =>
      simp only [cancelIfRunning,there]
      exact movesSame ready
    | some x =>
      exact movesCloses ready rfl (fun _ => rfl) (cancelIfRunningCloses ready.managed _ there)
        (fun z _ _ _ => .invokeCancelled found rfl)
  | resume stage => exact movesSame ready
  | wake stage owner there completion woken =>
    rename_i graph x f call
    cases f with
    | pending => contradiction
    | result state =>
      simp only [wake] at woken
      split at woken
      · cases Option.some.inj woken
        exact movesSame ready
      · cases Option.some.inj woken
        refine movesCloses ready rfl (fun _ => rfl) (graphFailCloses ready.managed _ _ _) ?_
        intro z known _ _
        cases Option.some.inj (there.symm.trans known)
        exact .woken found rfl completion rfl (.inr ⟨nofun,rfl,_,rfl⟩)
    | exception error =>
      cases Option.some.inj woken
      refine movesCloses ready rfl (fun _ => rfl) (graphFailCloses ready.managed _ _ _) ?_
      intro z known _ _
      cases Option.some.inj (there.symm.trans known)
      exact .woken found rfl completion rfl (.inr ⟨nofun,rfl,_,rfl⟩)
    | cancelled =>
      cases Option.some.inj woken
      refine movesCloses ready rfl (fun _ => rfl) (cancelIfRunningCloses ready.managed _ there) ?_
      intro z known _ _
      cases Option.some.inj (there.symm.trans known)
      exact .woken found rfl completion rfl (.inl ⟨rfl,rfl,rfl⟩)

theorem movesInterrupt {invocation : Invocation} (ready : Ready s)
    (found : s.invocations[k]? = some invocation)
    (there : s.world.contexts[invocation.context]? = some x) :
    Moved values s (.interrupt k) (cancelCompletion s.world invocation.context x) := by
  obtain ⟨managed,persists,_⟩ := @soundCancelCompletion V _ _ _ none ready.managed there
  have lengths : (cancelCompletion s.world invocation.context x).contexts.length =
      s.world.contexts.length := by
    unfold cancelCompletion
    split
    · exact List.length_set
    · rfl
  have graphs : (cancelCompletion s.world invocation.context x).graphs = s.world.graphs := by
    unfold cancelCompletion
    split <;> rfl
  refine ⟨managed,?_,noneBorn lengths,.kept (by rw [graphs])⟩
  intro c z known
  unfold cancelCompletion
  split
  · rename_i f completion
    by_cases same : invocation.context = c
    · subst same
      cases Option.some.inj (known.symm.trans there)
      exact ⟨_,Slots.setSame known,.interrupted found rfl completion⟩
    · exact ⟨z,(Slots.setOther same).trans known,.same⟩
  · exact ⟨z,known,.same⟩

theorem movesInvocationBegins {h : Nat} {state : StateArg V} {context : ContextArg} (ready : Ready s)
    (owner : s.world.graphs[h]? = some graph)
    (call : beginInvocation values.copyable s.world h graph state context = .ok v) :
    Moved values s (.graph (.beginInvocation h state context)) v := by
  have managed : Managed v := by
    have sound := @soundInvocation V _ _ _ values.copyable ready.managed owner state context
    rw [call] at sound
    exact sound.managed
  obtain ⟨live,u,z,grown,there,mine,pending,valid,rfl⟩ := invocationOk call
  have graphs : (admittedWorld u h (chosen s.world context) graph z).graphs.map view =
      s.world.graphs.map view := by
    have base : u.graphs = s.world.graphs := by rcases grown with rfl | ⟨_,_,_,_,_,rfl⟩ <;> rfl
    simp only [admittedWorld,base]
    exact viewSet owner rfl
  refine ⟨managed,?_,?_,.kept graphs⟩
  · intro c x found
    rcases grown with rfl | ⟨rfl,d,prepared,rfl,copied,rfl⟩
    · by_cases same : chosen s.world context = c
      · subst same
        cases Option.some.inj (found.symm.trans there)
        have given : context = .context (chosen s.world context) := by
          cases context with
          | context e => rfl
          | none =>
            have inside := Slots.inside found
            simp [chosen] at inside
          | other =>
            have inside := Slots.inside found
            simp [chosen] at inside
        refine ⟨_,Slots.setSame found,?_⟩
        rw [given]
        exact .bound owner live mine pending valid
      · exact ⟨x,(Slots.setOther same).trans found,.same⟩
    · refine ⟨x,?_,.same⟩
      have other : chosen s.world .none ≠ c := Ne.symm (Nat.ne_of_lt (Slots.inside found))
      simp only [admittedWorld]
      exact (Slots.setOther other).trans (Slots.appendOld found)
  · rcases grown with rfl | ⟨rfl,d,prepared,rfl,copied,rfl⟩
    · exact noneBorn List.length_set
    · have newest : z = newContext h graph prepared := by
        have last : (s.world.contexts ++ [newContext h graph prepared])[s.world.contexts.length]? =
            some (newContext h graph prepared) := Slots.appendNew
        exact Option.some.inj (there.symm.trans last)
      subst newest
      intro c y found missing
      rcases Slots.setCases found with ⟨_,rfl⟩ | ⟨other,old⟩
      · exact .invoked owner live copied valid
      · rcases Slots.appendCases old with ⟨place,_⟩ | before
        · exact absurd place.symm other
        · rw [missing] at before
          contradiction

theorem movesPublic {b : NodeGraph.Action V} (ready : Ready s) (open_ : isPublic b = true)
    (performed : NodeGraph.perform values.copyable s.world b = some (.ok v)) :
    Moved values s (.graph b) v := by
  have sound := soundPerform ready.managed performed
  cases b with
  | construct definition =>
    simp only [NodeGraph.perform,construct,Option.some.injEq,PyError.bindOk] at performed
    obtain ⟨entryPoint,entry,last⟩ := performed
    simp only [PyError.leavingOk] at entry
    cases last
    exact ⟨sound.managed,fun c x found => ⟨x,found,.same⟩,noneBorn rfl,
      .constructed (Target.normaliseNormal entry)⟩
  | createContext h state =>
    obtain ⟨graph,owner,last⟩ := Option.bind_eq_some_iff.mp performed
    obtain ⟨prepared,copied,_,rfl⟩ := createOk (Option.some.inj last)
    refine ⟨sound.managed,fun c x found => ⟨x,Slots.appendOld found,.same⟩,?_,.kept rfl⟩
    intro c y found missing
    rcases Slots.appendCases found with ⟨_,rfl⟩ | old
    · cases state with
      | dict d => exact .created owner copied
      | none => contradiction
      | other => contradiction
    · rw [missing] at old
      contradiction
  | restoreContext h source version =>
    obtain ⟨graph,owner,last⟩ := Option.bind_eq_some_iff.mp performed
    obtain ⟨_,history,restored,_,sourced,valid,_,latest,rfl⟩ := restoreOk (Option.some.inj last)
    refine ⟨sound.managed,fun c x found => ⟨x,Slots.appendOld found,.same⟩,?_,.kept rfl⟩
    intro c y found missing
    rcases Slots.appendCases found with ⟨_,rfl⟩ | old
    · exact .restored owner sourced valid latest
    · rw [missing] at old
      contradiction
  | beginInvocation h state context =>
    obtain ⟨graph,owner,last⟩ := Option.bind_eq_some_iff.mp performed
    exact movesInvocationBegins ready owner (Option.some.inj last)
  | abort c =>
    obtain ⟨x,there,last⟩ := Option.bind_eq_some_iff.mp performed
    have moved := @movesConclude V values _ _ _ _ _ _ ready there rfl (fun _ => rfl)
      (Cause.abort (s := s) (c := c) (x := x))
    have done : conclude s.world c x .aborted abortResult = .ok v := Option.some.inj last
    rw [done] at moved
    exact moved
  | graphAbort h context =>
    obtain ⟨graph,owner,last⟩ := Option.bind_eq_some_iff.mp performed
    have call := Option.some.inj last
    simp only [graphAbort,PyError.bindOk,PyError.leavingOk] at call
    obtain ⟨_,_,rest⟩ := call
    cases context with
    | none => contradiction
    | other => contradiction
    | context c =>
      simp only at rest
      split at rest
      · cases rest
        exact movesSame ready
      · rename_i x there
        split at rest
        · simp only [PyError.bindOk,PyError.leavingOk] at rest
          obtain ⟨_,_,done⟩ := rest
          have moved := @movesConclude V values _ _ _ _ _ _ ready there rfl (fun _ => rfl)
            (Cause.graphAbort (s := s) (c := c) (x := x) (g := h))
          have done : conclude s.world c x .aborted abortResult = .ok v := done
          rw [done] at moved
          exact moved
        · cases rest
          exact movesSame ready
  | decompose h force =>
    obtain ⟨graph,owner,last⟩ := Option.bind_eq_some_iff.mp performed
    have call := Option.some.inj last
    unfold decompose at call
    split at call
    · cases call
      exact movesSame ready
    · simp only [PyError.bindOk,PyError.leavingOk] at call
      obtain ⟨_,_,rest⟩ := call
      obtain ⟨u,done,_,_,gone⟩ := decomposeRuns ready.managed owner
      rw [done] at rest
      cases rest
      have graphs : v.graphs.map view = s.world.graphs.map view := by
        refine List.ext_getElem? ?_
        intro h
        rw [List.getElem?_map,List.getElem?_map,gone.graphs h,Option.map_map]
        congr 1
        funext old
        simp only [Function.comp]
        split <;> rfl
      refine ⟨sound.managed,?_,?_,.kept graphs⟩
      · intro c x found
        have after := gone.contexts c
        rw [found,Option.map_some] at after
        refine ⟨_,after,?_⟩
        split
        · rename_i running
          obtain ⟨rfl,running⟩ := running
          exact .ended (by rw [running]; rfl) .decompose
        · exact .same
      · intro c y found missing
        rw [gone.contexts c,missing] at found
        contradiction
  | setMaxSteps h steps =>
    obtain ⟨graph,owner,last⟩ := Option.bind_eq_some_iff.mp performed
    have call := Option.some.inj last
    simp only [setMaxSteps,PyError.bindOk,PyError.leavingOk] at call
    obtain ⟨_,_,rest⟩ := call
    cases rest
    exact ⟨sound.managed,fun c x found => ⟨x,found,.same⟩,noneBorn rfl,.budget owner⟩
  | finish c => contradiction
  | fail c error => contradiction
  | cancel c => contradiction
  | graphFinish h c => contradiction
  | graphFail h c error => contradiction
  | cancelCompletion c => contradiction

theorem stepMoves (ready : Ready s) (taken : Runtime.Step values s a t) : Moved values s a t.world := by
  cases taken with
  | accepted open_ performed => exact movesPublic ready open_ performed
  | rejected open_ performed =>
    obtain ⟨_,rfl⟩ := soundPerform ready.managed performed
    exact movesSame ready
  | consumer permitted went => exact movesSame ready
  | task found moved => exact movesTask ready found moved
  | put found calling context work room => exact movesSame ready
  | invocation found moved => exact movesInvocation ready found moved
  | invokePut found stage room => exact movesSame ready
  | interrupt found there stage => exact movesInterrupt ready found there

theorem moveContinues (ready : Ready s) (found : s.world.contexts[c]? = some x)
    (move : Move values s c x a y) : Continues x y := by
  have live : ∀ z : GraphContext V, Alike x z → x.status = .running → ∀ value,
      Continues x (ended z .failed value) := by
    intro z alike running value
    have permitted : allowed z.status .failed = true := by
      rw [alike.status,running]
      rfl
    exact continuesTrans (alikeContinues alike) (endedContinues permitted)
  cases move with
  | same => exact continuesRefl x
  | bound owner live mine pending valid =>
    have shaped := ready.managed.shaped c x found
    unfold Shaped at shaped
    rw [pending] at shaped
    refine ⟨rfl,?_,?_,?_⟩
    · intro terminal
      rw [pending] at terminal
      contradiction
    · intro f known
      rw [shaped.2.1] at known
      contradiction
    · intro r known
      rw [shaped.1] at known
      contradiction
  | ended permitted cause => exact endedContinues permitted
  | interrupted known about completion =>
    refine ⟨rfl,fun _ => rfl,?_,fun _ given => given⟩
    intro other there done
    cases Option.some.inj (completion.symm.trans there)
    simp only [cancelDone done]
  | targeted known about stage owner running valid => exact alikeContinues ⟨rfl,rfl,rfl,rfl,rfl⟩
  | began known context calling idle owner running more begun =>
    exact alikeContinues (executeNodeAlike begun)
  | committed known context work owner running returned applied valid =>
    exact alikeContinues ⟨rfl,rfl,rfl,rfl,rfl⟩
  | refused known context work owner running returned applied =>
    rename_i d task graph results state error
    have alike : Alike x {x with state := state} := ⟨rfl,rfl,rfl,rfl,rfl⟩
    exact live _ alike running _
  | overrun known context work owner running returned applied invalid =>
    rename_i d task graph results next state error
    have alike : Alike x {x with state := state, steps := x.steps + 1} := ⟨rfl,rfl,rfl,rfl,rfl⟩
    exact live _ alike running _

theorem stepPersists (ready : Ready s) (taken : Runtime.Step values s a t) :
    Persists s.world t.world := by
  intro c x found
  obtain ⟨y,there,move⟩ := (stepMoves ready taken).moves c x found
  exact ⟨y,there,moveContinues ready found move⟩

theorem worksTask (ready : Ready s) (found : s.tasks[d]? = some task) (persists : Persists s.world v)
    (moved : TaskStep values s.world d task a next v) : Works v next := by
  have works := ready.works d task found
  have kept : ∀ nodes : List (NodeTask V), Works v {task with nodes := nodes} :=
    fun nodes => worksPersists works persists
  cases moved with
  | dispatch allowed_ taken =>
    intro busy
    obtain ⟨g,c,x,calling,context,there,mine⟩ := works busy
    obtain ⟨pc,chain⟩ := callingKept calling allowed_ taken
    exact ⟨g,c,x,(callingSame pc chain).trans calling,context,there,mine⟩
  | notify calling notified answered => exact worksAnswer answered
  | notifyCancelled notifying taken =>
    refine worksPersists (w := s.world) ?_ persists
    intro busy
    obtain ⟨g,c,x,calling,context,there,mine⟩ := works busy
    exfalso
    unfold DispatchTask.notifying at notifying
    unfold DispatchTask.calling at calling
    split at notifying <;> try contradiction
    rename_i i pc
    rw [pc] at calling
    contradiction
  | coreIdle calling idle inactive answered => exact worksAnswer answered
  | coreFinish calling idle event active there end_ answered => exact worksAnswer answered
  | coreRaise calling idle event active there owner more raised answered => exact worksAnswer answered
  | coreBegin calling idle event active there owner more begun =>
    refine worksPersists (w := s.world) ?_ persists
    intro _
    exact ⟨_,_,_,calling,by rw [event]; rfl,there,(activeRunning ready.managed.toExact there active).1⟩
  | startNode event there owner known unstarted open_ => exact kept _
  | endNode there open_ started => exact kept _
  | gatherCancelled calling context work answered => exact worksAnswer answered
  | gatherRaised calling context work there raised past answered => exact worksAnswer answered
  | gathered calling context work returned owner there stopped answered => exact worksAnswer answered
  | committed calling context work returned owner there goes =>
    refine worksPersists (w := s.world) ?_ persists
    intro _
    exact works (by rw [work]; nofun)
  | putFailed calling context work answered => exact worksAnswer answered
  | postCancelled work answered => exact worksAnswer answered
  | resume work answered => exact worksAnswer answered

theorem launchedNew {b : Consumer.Action Event Handler} (member : task ∈ s.launched b) :
    ∃ l item chain, b = .launch l .launched ∧ s.consumer.pendingDispatch = some (item,chain) ∧
      task = DispatchTask.new item.event chain := by
  unfold State.launched at member
  split at member
  · split at member
    · rename_i item chain pending
      exact ⟨_,item,chain,rfl,pending,List.mem_singleton.mp member⟩
    · contradiction
  · contradiction

theorem readyStep (ready : Ready s) (taken : Runtime.Step values s a t) : Ready t := by
  have persists := stepPersists ready taken
  refine ⟨(stepMoves ready taken).managed,?_⟩
  have kept : ∀ (d : Nat) task, s.tasks[d]? = some task → Works t.world task :=
    fun d task found => worksPersists (ready.works d task found) persists
  cases taken with
  | accepted open_ performed => exact kept
  | rejected open_ performed => exact kept
  | consumer permitted went =>
    rename_i b consumer
    intro d task found
    rw [List.getElem?_append] at found
    split at found
    · exact kept d task found
    · obtain ⟨_,item,chain,_,_,rfl⟩ := launchedNew (List.mem_of_getElem? found)
      exact worksIdle rfl
  | task known moved =>
    intro d task found
    rcases Slots.setCases found with ⟨_,rfl⟩ | ⟨_,old⟩
    · exact worksTask ready known persists moved
    · exact kept d task old
  | put known calling context work room =>
    intro d task found
    rcases Slots.setCases found with ⟨_,rfl⟩ | ⟨_,old⟩
    · intro _
      have works := kept _ _ known
      exact works (by rw [work]; nofun)
    · exact kept d task old
  | invocation known moved => exact kept
  | invokePut known stage room => exact kept
  | interrupt known there stage => exact kept

theorem initialReady (m : Nat) : Ready (Runtime.initial m : State V) :=
  ⟨initialManaged,by simp [Runtime.initial]⟩

theorem runReady {m : Nat} {r : List (Action V)}
    (ran : Machine.run (Runtime.step values) (Runtime.initial m) r = some t) : Ready t :=
  Machine.invariant (fun _ _ _ ready taken => readyStep ready (Runtime.stepCases taken))
    (initialReady m) ran

end Apixis.Moves
