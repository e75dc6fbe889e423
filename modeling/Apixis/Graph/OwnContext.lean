import Apixis.Graph.ContextScope
import Apixis.Graph.NamespaceOwnership

/-! What code finds in the two context variables. For the handler chain this is what the
permits count on, so a run of tasks with their variables is a run of the permits. For the
graph context it is the attempt whose batch is the innermost one around the code. -/
namespace Apixis.OwnContext
open ContextScope

variable {s s' : State} {t n : Nat} {task back : Task} {a : Action}

/- The permits, where each task has the chain it was created in. -/
def permits (s : State) : ChainToken.State := s.within (s.tasks.map (fun task => ⟨seen task.outer .handlerChain⟩))

def permitsOf : Action → List ChainToken.Action
  | .outside => [.detached]
  | .spawn t => [.spawn t]
  | .start t => [.spawn t]
  | .request _ => [.request]
  | .launch i ok => [.launch i ok]
  | .background _ => [.detached]
  | .suspend t => [.enter t]
  | .executeNode t _ n => List.replicate n (.spawn t)
  | .leaveNode _ => []
  | .permit a => [a]

section Simulation

theorem permitsTask (there : s.tasks[t]? = some task) :
    (permits s).tasks[t]? = some ⟨seen task.outer .handlerChain⟩ := by
  simp [permits,State.within,there]

/- The chain a task finds is the one the permits expect it to find. -/
theorem chainFound (tied : Tied s) (there : s.tasks[t]? = some task) :
    (permits s).handlerChainContext t = task.vars.values .handlerChain := by
  have placed := tied.placed t task there
  have own := @seenOwn task.outer task.blocks (fun b member => by
    rcases placed.kinds b member with node | ⟨f,frame,same,_⟩
    · exact .inl node
    · exact .inr ⟨f,frame.chain,same⟩)
  have open_ : (permits s).frames.any (fun f => f.task == t && f.live) = task.blocks.any Block.suspends := by
    refine Bool.eq_iff_iff.mpr ⟨?_,?_⟩
    · intro some_
      obtain ⟨frame,member,holds⟩ := List.any_eq_true.mp some_
      obtain ⟨f,place⟩ := List.mem_iff_getElem?.mp member
      simp only [Bool.and_eq_true,beq_iff_eq] at holds
      obtain ⟨rfl,live⟩ := holds
      obtain ⟨other,found,inside⟩ := tied.inside f frame place live
      cases Option.some.inj (there.symm.trans found)
      exact List.any_eq_true.mpr ⟨_,inside,rfl⟩
    · intro some_
      obtain ⟨b,member,suspends⟩ := List.any_eq_true.mp some_
      rcases placed.kinds b member with ⟨g,rfl⟩ | ⟨f,frame,rfl,place,rfl,live⟩
      · cases suspends
      · exact List.any_eq_true.mpr ⟨frame,List.mem_of_getElem? place,by simp [live]⟩
  rw [linedSeen placed.toLined,own]
  unfold ChainToken.State.handlerChainContext
  rw [open_,permitsTask there]
  rfl

theorem permitsSet (there : s.tasks[t]? = some task) (back : Task) (same : back.outer = task.outer) :
    permits {s with tasks := s.tasks.set t back} = permits s := by
  have outer := Slots.mapSet (y := back) (fun task : Task => (⟨seen task.outer .handlerChain⟩ : ChainToken.Task)) there
    (by rw [same])
  simp only [permits,State.within,outer]

theorem spawnTaken (tied : Tied s) (there : s.tasks[t]? = some task) :
    ChainToken.step (permits s) (.spawn t) = some {permits s with
      tasks := (permits s).tasks ++ [⟨task.vars.values .handlerChain⟩]} := by
  have known : t < (permits s).tasks.length := Slots.inside (permitsTask there)
  simp only [ChainToken.step,if_pos known,chainFound tied there]

theorem spawnsTaken {p : ChainToken.State} (known : t < p.tasks.length) (n : Nat) :
    Machine.run ChainToken.step p (List.replicate n (.spawn t)) =
      some {p with tasks := p.tasks ++ List.replicate n ⟨p.handlerChainContext t⟩} := by
  induction n generalizing p with
  | zero => simp
  | succ n ih =>
    have later : t < (p.tasks ++ [(⟨p.handlerChainContext t⟩ : ChainToken.Task)]).length := by
      rw [List.length_append]
      omega
    have same : ChainToken.State.handlerChainContext
        {p with tasks := p.tasks ++ [⟨p.handlerChainContext t⟩]} t = p.handlerChainContext t := by
      simp only [ChainToken.State.handlerChainContext,List.getElem?_append_left known]
    rw [List.replicate_succ,Machine.run,ChainToken.step,if_pos known,Option.bind_some,ih later,same]
    simp [List.replicate_succ]

theorem childChain (tied : Tied s) (there : s.tasks[t]? = some task) (consumer : Bool) :
    permits {s with tasks := s.tasks ++ [task.child consumer]} = {permits s with
      tasks := (permits s).tasks ++ [⟨task.vars.values .handlerChain⟩]} := by
  rw [linedSeen (tied.placed t task there).toLined]
  simp [permits,State.within,Task.child]

theorem stepSimulated (tied : Tied s) (taken : step s a = some s') :
    Machine.run ChainToken.step (permits s) (permitsOf a) = some (permits s') := by
  have one : ∀ {b : ChainToken.Action} {q : ChainToken.State}, ChainToken.step (permits s) b = some q →
      Machine.run ChainToken.step (permits s) [b] = some q := by
    intro b q moved
    rw [Machine.run,moved]
    rfl
  cases stepCases taken with
  | outside => exact one (by simp [ChainToken.step,permits,State.within,root])
  | spawn there => exact one ((spawnTaken tied there).trans (by rw [childChain tied there]))
  | start there => exact one ((spawnTaken tied there).trans (by rw [childChain tied there]))
  | request there => exact one rfl
  | launch there granted =>
    refine one ?_
    rw [ChainToken.step,if_pos (show (permits s).consumers[_]? = _ from granted)]
    simp [permits,State.within,State.after,State.bare,ChainToken.State.launch,Task.child,Task.enter]
  | launchFailed granted =>
    refine one ?_
    rw [ChainToken.step,if_pos (show (permits s).consumers[_]? = _ from granted)]
    by_cases full : s.semaphore.boundValue ≤ s.semaphore.value <;>
      simp [full,permits,State.within,State.after,State.bare,ChainToken.State.launchFailed,
        ChainToken.State.close,ChainToken.State.release,ChainToken.newToken]
  | background there =>
    exact one (by simp [ChainToken.step,permits,State.within,Task.child,Task.enter])
  | free there nothing =>
    exact one (by simp [ChainToken.step,chainFound tied there,nothing])
  | late there own found closed =>
    refine one ?_
    have there' : (permits s).chains[_]? = _ := found
    simp [ChainToken.step,chainFound tied there,own,there',closed]
  | suspend there own found opened =>
    rename_i t c task chain
    have there' : (permits s).chains[c]? = some chain := found
    have entered := permitsSet (s := s.after (s.bare.enter t c chain)) there
      (task.enter (.suspension s.frames.length c)) rfl
    have same : permits (s.after (s.bare.enter t c chain)) = (permits s).enter t c chain := by
      by_cases full : s.semaphore.boundValue ≤ s.semaphore.value <;> cases held : chain.token.held <;>
        simp [full,held,permits,State.within,State.after,State.bare,ChainToken.State.enter,
          ChainToken.State.release]
    refine one (Eq.trans ?_ (congrArg some (entered.trans same).symm))
    simp [ChainToken.step,chainFound tied there,own,there',opened]
  | executeNode there =>
    rename_i t context n task
    have lined := (tied.placed t task there).toLined
    have entered := permitsSet there (task.enter (.node context)) rfl
    rw [permitsOf,spawnsTaken (Slots.inside (permitsTask there)),chainFound tied there,linedSeen lined,← entered]
    simp [permits,State.within,Task.child,Task.enter]
  | leaveNode there blocks left =>
    rw [permitsSet there _ (leaveOuter left)]
    rfl
  | aside moves moved => exact one (stepWithin (.inr moves) moved)
  | exit moves place there innermost moved frames stays =>
    exact one (stepWithin (.inl (by rw [moves]; rfl)) moved)
  | through moves place there innermost moved frames gone left =>
    rename_i f a p pc frame task back
    have after := permitsSet (s := s.after p) there back (leaveOuter left)
    exact one ((stepWithin (.inl (by rw [moves]; rfl)) moved).trans (congrArg some after.symm))

theorem runSimulated {capacity : Nat} {acts : List Action} (ran : Machine.run step (initial capacity) acts = some s) :
    Machine.run ChainToken.step (ChainToken.initial capacity) (acts.flatMap permitsOf) = some (permits s) := by
  refine Machine.history (P := fun acts s => Machine.run ChainToken.step (ChainToken.initial capacity)
    (acts.flatMap permitsOf) = some (permits s)) rfl ?_ ran
  intro acts m a s first sofar taken
  rw [List.flatMap_append,List.flatMap_singleton]
  exact Machine.runAppend.mpr ⟨permits m,sofar,stepSimulated (runTied first) taken⟩

/- However tasks are nested and created, the chain they find in the variable is the one
the permits go by; along a line of creation a chain is lent at most once, and what runs
where it is lent does not find it. -/
theorem lentByVariable {capacity : Nat} {acts : List Action}
    (ran : Machine.run step (initial capacity) acts = some s) :
    Machine.run ChainToken.step (ChainToken.initial capacity) (acts.flatMap permitsOf) = some (permits s) ∧
    PermitLedger.Ledger capacity (permits s) ∧
    ∀ t task, s.tasks[t]? = some task →
      (permits s).handlerChainContext t = task.vars.values .handlerChain ∧
      ∀ c, (task.blocks ++ task.outer).countP (Block.lends c) ≤ 1 ∧
        (0 < (task.blocks ++ task.outer).countP (Block.lends c) → task.vars.values .handlerChain ≠ some c) := by
  have tied := runTied ran
  have simulated := runSimulated ran
  refine ⟨simulated,PermitLedger.runLedger simulated,?_⟩
  intro t task there
  have placed := tied.placed t task there
  refine ⟨chainFound tied there,?_⟩
  intro c
  obtain ⟨inside,few,_⟩ := lendsOnce placed.proper c
  refine ⟨few,?_⟩
  intro lent visible
  rw [linedSeen placed.toLined] at visible
  have := (inside visible).1
  omega

/- With one permit: the handler of a dispatch suspends, and a task it creates there
suspends as well while another dispatch has the permit. -/
def lending : List Action :=
  [.outside,.start 0,.request 1,.permit (.grantConsumer 0),.launch 0 true,.suspend 2,.spawn 2,.suspend 3,
    .request 1,.permit (.grantConsumer 1),.launch 1 true,.permit (.finish 1),.permit (.onDispatchDone 1),
    .permit (.leaveBody 0),.permit (.lock 0),.permit (.grantFrame 0),.permit (.resume 0),.spawn 2]

theorem lentByVariableOnce : ∃ s, Machine.run step (initial 1) lending = some s ∧
    (permits s).tasks = [⟨none⟩,⟨none⟩,⟨some 0⟩,⟨none⟩,⟨some 1⟩,⟨some 0⟩] ∧
    PermitLedger.Ledger 1 (permits s) ∧
    Machine.run ChainToken.step (ChainToken.initial 1) (lending.flatMap permitsOf) = some (permits s) := by
  have ran : ∃ s, Machine.run step (initial 1) lending = some s ∧
      (permits s).tasks = [⟨none⟩,⟨none⟩,⟨some 0⟩,⟨none⟩,⟨some 1⟩,⟨some 0⟩] := ⟨_,rfl,rfl⟩
  obtain ⟨s,ran,tasks⟩ := ran
  have found := lentByVariable ran
  exact ⟨s,ran,tasks,found.2.1,found.1⟩

end Simulation

section Getters
variable {W : Type}

def getGraphContext (bound : Option Nat) : Except PyError Nat :=
  match bound with
  | none => .error ⟨.runtimeError,"get_graph_context() is only available while a graph is invoked."⟩
  | some context => .ok context

def getCurrentRunId (runId : Nat → Option Nat) (bound : Option Nat) : Except PyError Nat :=
  match bound.bind runId with
  | none => .error ⟨.runtimeError,"get_current_run_id() is only available while a graph is invoked."⟩
  | some id => .ok id

/- `graphId` is the graph of a context; a namespace that is found is never None. -/
def getCurrentNamespace (graphId : Nat → Nat) (w : Namespace.World) (bound : Option Nat) : Except PyError String :=
  match bound with
  | none => .error ⟨.runtimeError,"get_current_namespace() is only available while a graph is invoked."⟩
  | some context => Namespace.getGraphNamespace w (graphId context)

def getStreamWriter (streamWriter : Nat → Option W) (isActive : Nat → Bool) (noop : W) (bound : Option Nat) :
    Except PyError W :=
  match bound with
  | none => .error ⟨.runtimeError,"get_stream_writer() is only available while a graph is invoked."⟩
  | some context => match streamWriter context with
    | none => .error ⟨.runtimeError,"get_stream_writer() is only available while a graph node is executed."⟩
    | some writer => .ok (if isActive context then writer else noop)

end Getters

def attempt : Block → Option Nat
  | .node context => some context
  | _ => none

theorem seenAttempt (line : List Block) : seen line .graphContext = line.findSome? attempt := by
  induction line with
  | nil => rfl
  | cons b around ih =>
    cases b with
    | node context => rfl
    | dispatch c => exact ih
    | background => exact ih
    | suspension f c => exact ih

/- Out of every block, the innermost one first. -/
def leaveAll : List Block → Task → Option Task
  | [], task => some task
  | _ :: rest, task => task.leave.bind (leaveAll rest)

theorem leaveAllSeen (lined : Lined s task) :
    ∃ back, leaveAll task.blocks task = some back ∧ ∀ key, back.vars.values key = seen task.outer key := by
  generalize own : task.blocks = blocks
  induction blocks generalizing task with
  | nil =>
    refine ⟨task,rfl,fun key => ?_⟩
    rw [linedSeen lined,own,List.nil_append]
  | cons b rest ih =>
    obtain ⟨inner,left,after,blocks⟩ := leaveLined lined own
    obtain ⟨back,through,values⟩ := ih after blocks
    exact ⟨back,by rw [leaveAll,left]; exact through,by rw [← leaveOuter left]; exact values⟩

theorem stepOuter {u : Nat} (taken : step s a = some s') (there : s.tasks[u]? = some task) :
    ∃ after, s'.tasks[u]? = some after ∧ after.outer = task.outer := by
  have appended : ∀ new : List Task, ∃ after, (s.tasks ++ new)[u]? = some after ∧ after.outer = task.outer :=
    fun new => ⟨task,(List.getElem?_append_left (Slots.inside there)).trans there,rfl⟩
  have changed : ∀ {t : Nat} {old : Task} (back : Task), s.tasks[t]? = some old → back.outer = old.outer →
      ∃ after, (s.tasks.set t back)[u]? = some after ∧ after.outer = task.outer := by
    intro t old back found same
    by_cases mine : t = u
    · subst mine
      cases Option.some.inj (found.symm.trans there)
      exact ⟨back,Slots.setSame there,same⟩
    · exact ⟨task,(Slots.setOther mine).trans there,rfl⟩
  cases stepCases taken with
  | outside => exact appended _
  | spawn there => exact appended _
  | start there => exact appended _
  | request there => exact ⟨task,by assumption,rfl⟩
  | launch there granted => exact appended _
  | launchFailed granted => exact ⟨task,by assumption,rfl⟩
  | background there => exact appended _
  | free there nothing => exact ⟨task,by assumption,rfl⟩
  | late there own found closed => exact ⟨task,by assumption,rfl⟩
  | suspend there own found opened => exact changed _ there rfl
  | executeNode found =>
    rename_i t context n old
    obtain ⟨after,now,same⟩ := changed (old.enter (.node context)) found rfl
    exact ⟨after,(List.getElem?_append_left (Slots.inside now)).trans now,same⟩
  | leaveNode found blocks gone => exact changed _ found (leaveOuter gone)
  | aside moves moved => exact ⟨task,by assumption,rfl⟩
  | exit moves place found innermost moved frames stays => exact ⟨task,by assumption,rfl⟩
  | through moves place found innermost moved frames gone left => exact changed _ found (leaveOuter left)

theorem runOuter {u : Nat} {acts : List Action} (ran : Machine.run step s acts = some s')
    (there : s.tasks[u]? = some task) : ∃ after, s'.tasks[u]? = some after ∧ after.outer = task.outer := by
  refine Machine.invariant (P := fun r : State => ∃ after, r.tasks[u]? = some after ∧ after.outer = task.outer) ?_
    ⟨task,there,rfl⟩ ran
  rintro r a r' ⟨after,found,same⟩ taken
  obtain ⟨last,found',same'⟩ := stepOuter taken found
  exact ⟨last,found',same'.trans same⟩

/- Every block can be left and gives back what was seen around it. Code finds the attempt
of the innermost batch around it, whatever else runs meanwhile; the nodes of a batch so
find their own attempt, its namespace while its graph is registered, and its writer until the attempt
has ended. -/
theorem ownContext {capacity context : Nat} {before later : List Action} {m : State}
    (first : Machine.run step (initial capacity) before = some m)
    (ran : Machine.run step m (.executeNode t context n :: later) = some s) :
    (∀ (u : Nat) (task : Task), s.tasks[u]? = some task →
      task.vars.values .graphContext = (task.blocks ++ task.outer).findSome? attempt ∧
      ∃ back, leaveAll task.blocks task = some back ∧ ∀ key, back.vars.values key = seen task.outer key) ∧
    ∀ k < n, ∃ task, s.tasks[m.tasks.length+k]? = some task ∧ task.outer.head? = some (.node context) ∧
      (task.blocks.findSome? attempt = none →
        getGraphContext (task.vars.values .graphContext) = .ok context ∧
        (∀ (runId : Nat → Option Nat) (id : Nat), runId context = some id →
          getCurrentRunId runId (task.vars.values .graphContext) = .ok id) ∧
        (∀ (fnmatchcase : String → String → Bool) (calls : List Namespace.Action) (w : Namespace.World)
          (graphId : Nat → Nat) (graph : Namespace.NodeGraph),
          Machine.run (Namespace.step fnmatchcase) Namespace.initial calls = some w →
          w.graphs[graphId context]? = some graph →
          getCurrentNamespace graphId w (task.vars.values .graphContext) =
            if graph.decomposed then .error Namespace.unregistered else .ok graph.nameSpace) ∧
        ∀ {W : Type} (streamWriter : Nat → Option W) (isActive : Nat → Bool) (noop writer : W),
          streamWriter context = some writer →
          getStreamWriter streamWriter isActive noop (task.vars.values .graphContext) =
            .ok (if isActive context then writer else noop)) := by
  have all := Machine.runAppend.mpr ⟨m,first,ran⟩
  have tied := runTied all
  have found : ∀ (u : Nat) (task : Task), s.tasks[u]? = some task →
      task.vars.values .graphContext = (task.blocks ++ task.outer).findSome? attempt := by
    intro u task there
    rw [linedSeen (tied.placed u task there).toLined,seenAttempt]
  refine ⟨fun u task there => ⟨found u task there,leaveAllSeen (tied.placed u task there).toLined⟩,?_⟩
  intro k inside
  obtain ⟨m',taken,rest⟩ := Machine.runCons.mp ran
  cases stepCases taken with
  | executeNode there =>
    rename_i runner
    have born : (m.tasks.set t (runner.enter (.node context)) ++
        List.replicate n ((runner.enter (.node context)).child false))[m.tasks.length+k]? =
          some ((runner.enter (.node context)).child false) := by
      rw [List.getElem?_append_right (by simp)]
      simp [inside]
    obtain ⟨task,now,outer⟩ := runOuter rest born
    refine ⟨task,now,by rw [outer]; rfl,?_⟩
    intro apart
    have own : task.vars.values .graphContext = some context := by
      rw [found _ task now,List.findSome?_append,apart,outer]
      rfl
    refine ⟨by rw [own]; rfl,?_,?_,?_⟩
    · intro runId id bound
      rw [own,getCurrentRunId,Option.bind_some,bound]
    · intro fnmatchcase calls w graphId graph reached there
      rw [own]
      exact NamespaceOwnership.graphNamespace reached there
    · intro W streamWriter isActive noop writer bound
      rw [own,getStreamWriter,bound]

/- Two batches at a time: a node of the first one suspends, runs a batch of another
graph in the task of its node and creates a task there. -/
def dispatched : List Action :=
  [.outside,.start 0,.request 1,.permit (.grantConsumer 0),.launch 0 true]

def beside : List Action :=
  [.request 1,.permit (.grantConsumer 1),.launch 1 true,.executeNode 5 8 1,.suspend 3,.executeNode 4 9 1,
    .spawn 4,.leaveNode 4,.spawn 4]

def both : State := (Machine.run step (initial 2) (dispatched ++ .executeNode 2 7 2 :: beside)).getD (initial 2)

theorem ownContextNested :
    both.tasks.map (fun task => task.vars.values .graphContext) =
      [none,none,some 7,some 7,some 7,some 8,some 8,some 9,some 9,some 7] ∧
    ∃ task, both.tasks[4]? = some task ∧ getGraphContext (task.vars.values .graphContext) = .ok 7 ∧
      getCurrentNamespace (fun _ => 2) NamespaceOwnership.takenWorld (task.vars.values .graphContext) = .ok "a" ∧
      getCurrentNamespace (fun _ => 0) NamespaceOwnership.takenWorld (task.vars.values .graphContext) =
        .error Namespace.unregistered := by
  refine ⟨by decide,?_⟩
  have first : Machine.run step (initial 2) dispatched =
      some ((Machine.run step (initial 2) dispatched).getD (initial 2)) := rfl
  have ran : Machine.run step ((Machine.run step (initial 2) dispatched).getD (initial 2))
      (.executeNode 2 7 2 :: beside) = some both := rfl
  obtain ⟨task,there,_,own⟩ := (ownContext first ran).2 1 (by decide)
  have now : both.tasks[4]? = some ((both.tasks[4]?).getD root) := rfl
  cases Option.some.inj (there.symm.trans now)
  have shown : ∀ (g : Nat) (nameSpace : String) (gone : Bool),
      NamespaceOwnership.takenWorld.graphs[g]?.map (fun graph => (graph.nameSpace,graph.decomposed)) =
        some (nameSpace,gone) →
      getCurrentNamespace (fun _ => g) NamespaceOwnership.takenWorld
        (((both.tasks[4]?).getD root).vars.values .graphContext) =
          if gone then .error Namespace.unregistered else .ok nameSpace := by
    intro g nameSpace gone found
    obtain ⟨graph,there,same⟩ := Option.map_eq_some_iff.mp found
    cases same
    exact (own rfl).2.2.1 ChainCache.exactly NamespaceOwnership.takeover NamespaceOwnership.takenWorld (fun _ => g) graph
      NamespaceOwnership.takeoverRan there
  exact ⟨_,now,(own rfl).1,shown 2 "a" false (by decide),shown 0 "a" true (by decide)⟩

end Apixis.OwnContext
