import Apixis.Graph.Atomicity
import Apixis.Graph.Plugins

/-! The runtime refines the sequential interpreter: an attempt that nobody disturbs
ends as the interpreter does, whatever else runs beside it. -/
namespace Apixis.Refinement
open NodeGraph hiding Action step initial
open ApplyCommand Lifecycle Moves Obligation Baton Plugins Interpreter Trail Apixis.Runtime

variable {V : Type}

def answerOf : Except PyError (Result V) → NodeOutcome V
  | .ok result => .returned result
  | .error error => .raised error

/- What an action may not do to context `c`: let a plugin touch its events, let a
node do what its behaviour does not, refuse to put its events or change the budget. -/
def Undisturbed (behave : Behaviour V) (c : Nat) (s : State V) : Action V → Prop
  | .dispatch d b => ∀ task ∈ s.tasks[d]?, carries c task.event = true → touches b = false
  | .endNode d i outcome => ∀ task ∈ s.tasks[d]?, carries c task.event = true →
      ∀ node ∈ task.nodes[i]?, ∀ own ∈ node.input,
        outcome = .cancelled ∨ outcome = answerOf (behave node.name own)
  | .putFailed d _ => ∀ task ∈ s.tasks[d]?, carries c task.event = false
  | .invokeFailed k _ => ∀ invocation ∈ s.invocations[k]?, invocation.context ≠ c
  | .graph (.setMaxSteps g _) => ∀ x ∈ s.world.contexts[c]?, x.graphId ≠ g
  | _ => True

instance [DecidableEq V] (behave : Behaviour V) (c : Nat) (s : State V) (a : Action V) :
    Decidable (Undisturbed behave c s a) := by
  cases a with
  | graph b =>
    cases b with
    | setMaxSteps g n => exact inferInstanceAs (Decidable (∀ x ∈ s.world.contexts[c]?, x.graphId ≠ g))
    | _ => exact .isTrue trivial
  | dispatch d b =>
    exact inferInstanceAs (Decidable (∀ task ∈ s.tasks[d]?, carries c task.event = true →
      touches b = false))
  | endNode d i outcome =>
    exact inferInstanceAs (Decidable (∀ task ∈ s.tasks[d]?, carries c task.event = true →
      ∀ node ∈ task.nodes[i]?, ∀ own ∈ node.input,
        outcome = .cancelled ∨ outcome = answerOf (behave node.name own)))
  | putFailed d error =>
    exact inferInstanceAs (Decidable (∀ task ∈ s.tasks[d]?, carries c task.event = false))
  | invokeFailed k error =>
    exact inferInstanceAs (Decidable (∀ invocation ∈ s.invocations[k]?, invocation.context ≠ c))
  | _ => exact .isTrue trivial

variable {values : Values V} {behave : Behaviour V} {compiled : Compiled} {w v : World V} {s t : State V}
  {g c d : Nat} {a : Action V} {r : List (Action V)} {x y b : GraphContext V}
  {task next : DispatchTask V} {nodes : List (NodeTask V)} {node : NodeTask V} {names : List String}
  {results : List (Result V)} {state : StateDict V} {graph graph' : Graph}

/- What a node task has done is what its node does to the state of the batch. -/
structure Faithful (values : Values V) (behave : Behaviour V) (compiled : Compiled) (state : StateDict V)
    (node : NodeTask V) : Prop where
  input : ∀ own, node.input = some own →
    copyState values.copyable compiled.keepRefKeys state = .ok own
  returned : ∀ result, node.outcome = some (.returned result) →
    executeOne values behave compiled state node.name = .ok result
  raised : ∀ error, node.outcome = some (.raised error) →
    executeOne values behave compiled state node.name = .error error

theorem freshFaithful (name : String) : Faithful values behave compiled state (NodeTask.new name) :=
  ⟨nofun,nofun,nofun⟩

theorem startFaithful (faithful : Faithful values behave graph.toCompiled x.state node)
    (open_ : node.outcome = none) :
    Faithful values behave graph.toCompiled x.state (startNode values graph x node) := by
  unfold startNode
  split
  · rename_i own copied
    refine ⟨?_,?_,?_⟩
    · intro given same
      cases same
      exact copied
    · intro result ended
      rw [show node.outcome = some _ from ended] at open_
      contradiction
    · intro error ended
      rw [show node.outcome = some _ from ended] at open_
      contradiction
  · rename_i error refused
    refine ⟨faithful.input,nofun,?_⟩
    intro error' ended
    cases ended
    simp only [executeOne,refused]
    rfl

theorem endFaithful {outcome : NodeOutcome V} (faithful : Faithful values behave compiled state node)
    (started : node.input.isSome = true ∨ outcome.isCancelled = true)
    (known : ∀ own ∈ node.input, outcome = .cancelled ∨ outcome = answerOf (behave node.name own)) :
    Faithful values behave compiled state {node with outcome := some outcome} := by
  have executed : outcome ≠ .cancelled → ∃ own, node.input = some own ∧
      outcome = answerOf (executeOne values behave compiled state node.name) := by
    intro alive
    have given : node.input.isSome = true := by
      refine started.resolve_right (fun cancelled => alive ?_)
      cases outcome <;> first | rfl | contradiction
    obtain ⟨own,input⟩ := Option.isSome_iff_exists.mp given
    refine ⟨own,input,?_⟩
    rw [(known own input).resolve_left alive,executeOne,faithful.input own input]
    rfl
  refine ⟨faithful.input,?_,?_⟩
  · intro result ended
    cases ended
    obtain ⟨_,_,answer⟩ := executed nofun
    cases does : executeOne values behave compiled state node.name with
    | ok given => rw [does] at answer; cases answer; rfl
    | error error => rw [does] at answer; contradiction
  · intro error ended
    cases ended
    obtain ⟨_,_,answer⟩ := executed nofun
    cases does : executeOne values behave compiled state node.name with
    | ok given => rw [does] at answer; contradiction
    | error error => rw [does] at answer; cases answer; rfl

theorem executeReturned (faithful : ∀ node ∈ nodes, Faithful values behave compiled state node)
    (returned : allReturned nodes = some results) :
    executeAll values behave compiled state (nodes.map NodeTask.name) = .ok results := by
  induction nodes generalizing results with
  | nil => cases returned; rfl
  | cons head tail ih =>
    simp only [allReturned,bind,Option.bind_eq_some_iff] at returned
    obtain ⟨result,first,rest,all,last⟩ := returned
    cases last
    have ended : head.outcome = some (.returned result) := by
      unfold NodeTask.isReturned at first
      split at first
      · rename_i outcome
        cases first
        exact outcome
      · contradiction
    have done := (faithful head List.mem_cons_self).returned result ended
    have later := ih (fun node member => faithful node (List.mem_cons_of_mem head member)) all
    simp only [List.map_cons,executeAll,done,later]
    rfl

theorem validateNormal {target : Target} {steps : Int} (normal : Target.Normal graph.nodes target)
    (counted : 0 ≤ steps) (budget : target = .node END ∨ steps < graph.maxSteps) :
    validateTarget graph target steps = .ok target := by
  have within : (decide (target ≠ .node END) && decide (graph.maxSteps ≤ steps)) = false := by
    rcases budget with past | less
    · simp [past]
    · simp [less]
  simp only [validateTarget,PyError.bindOk,PyError.raiseIfOk,exists_const]
  exact ⟨decide_eq_false (not_lt.mpr counted),target,Target.normaliseStable normal,within,rfl⟩

/- A batch that starts here can take its checkpoint, as far as the fields go that keep
their reference: the copies of its nodes do not copy these, the checkpoint does. -/
def Checkpointable (values : Values V) (compiled : Compiled) (config : Config V) : Prop :=
  config.target = .node END ∨ compiled.noSnapshot = true ∨
    ∀ entry ∈ config.state.entries, compiled.keepRefKeys.contains entry.1 = true → values.copyable entry.2 = true

theorem copyRefused {copyable : V → Bool} {keepRefKeys : List String} {error : PyError}
    (apart : ∀ entry ∈ state.entries, keepRefKeys.contains entry.1 = true → copyable entry.2 = true)
    (refused : copyState copyable [] state = .error error) : copyState copyable keepRefKeys state = .error error := by
  have same : state.entries.any (fun e => !keepRefKeys.contains e.1 && !copyable e.2) =
      state.entries.any (fun e => !([] : List String).contains e.1 && !copyable e.2) := by
    rw [Bool.eq_iff_iff,List.any_eq_true,List.any_eq_true]
    refine exists_congr (fun entry => and_congr_right (fun member => ?_))
    have copied := apart entry member
    cases shared : keepRefKeys.contains entry.1 with
    | false => rfl
    | true => simp [copied shared]
  rw [← refused,copyState,copyState,same]

/- A batch whose checkpoint cannot be copied has no node that can copy the state. -/
theorem executeNodeFalters {now : ℚ} {error : PyError}
    (normal : Target.Normal graph.nodes x.targetNodeName) (running : x.status = .running)
    (more : x.targetNodeName ≠ .node END) (apart : Checkpointable values graph.toCompiled (configOf x))
    (raised : executeNode values graph x now = .error error) :
    Falters values behave graph.toCompiled (configOf x) := by
  obtain ⟨names,named,some_,_⟩ := Target.normaliseTargetsNormal normal more
  have taken : graph.noSnapshot = false ∧ ∃ error, copyState values.copyable [] x.state = .error error := by
    cases off : graph.noSnapshot with
    | true => simp [executeNode,named,off,bind,Except.bind,pure,Except.pure] at raised
    | false =>
      cases copied : copyState values.copyable [] x.state with
      | error error => exact ⟨rfl,error,rfl⟩
      | ok state =>
        simp [executeNode,named,off,takeSnapshot,GraphContext.isActive,running,PyError.raiseIf,copied,bind,
          Except.bind,pure,Except.pure] at raised
  obtain ⟨on,error,refused⟩ := taken
  have apart : ∀ entry ∈ x.state.entries, graph.keepRefKeys.contains entry.1 = true →
      values.copyable entry.2 = true := (apart.resolve_left more).resolve_left (by simp [on])
  obtain ⟨name,member⟩ := List.exists_mem_of_ne_nil names some_
  have fails : executeOne values behave graph.toCompiled x.state name = .error error := by
    rw [executeOne,copyRefused apart refused]
    rfl
  obtain ⟨first,batch⟩ := executeRaised member fails
  exact ⟨names,first,named,batch⟩

/- An attempt that appeared as `b`, has committed `log` and is `x` now, beside the
interpreter on what it started from. -/
structure Follows (values : Values V) (behave : Behaviour V) (compiled : Compiled) (maxSteps : Int)
    (s : State V) (c : Nat) (b x : GraphContext V) (log : List (List (Result V))) : Prop where
  path : ∀ k ≤ log.length, Loop.ahead (follow values behave compiled maxSteps) k (configOf b) =
    reached values compiled b (log.take k)
  budget : x.status = .running →
    0 ≤ x.steps ∧ (x.targetNodeName = .node END ∨ x.steps < maxSteps)
  failed : x.status = .failed → interpret values behave compiled maxSteps (configOf b) = .failed
  delivered : x.status = .finished →
    x.completion = some (.result x.state) ∨ x.completion = some .cancelled
  nodes : x.status = .running → ∀ (d : Nat) task, s.tasks[d]? = some task → gathers c task = true →
    x.targetNodeName ≠ .node END ∧ ∀ node ∈ task.nodes, Faithful values behave compiled x.state node
  calm : x.status = .running → ∀ (d : Nat) task, s.tasks[d]? = some task →
    carries c task.event = true →
    Calm (interpret values behave compiled maxSteps (configOf b) = .failed) (place task) task.run

section Step
variable {log : List (List (Result V))} {l : List (Snapshot V)} {maxSteps : Int}

theorem followsReached (tracked : Tracked values compiled s c b x log l)
    (follows : Follows values behave compiled maxSteps s c b x log) (alive : x.status ≠ .failed) :
    Loop.ahead (follow values behave compiled maxSteps) log.length (configOf b) = some (configOf x) := by
  have path := follows.path log.length (Nat.le_refl _)
  rw [List.take_length] at path
  exact path.trans (tracked.live alive)

theorem followsHere (tracked : Tracked values compiled s c b x log l)
    (follows : Follows values behave compiled maxSteps s c b x log) (alive : x.status ≠ .failed) :
    interpret values behave compiled maxSteps (configOf b) =
      interpret values behave compiled maxSteps (configOf x) :=
  interpretAhead (followsReached tracked follows alive)

theorem taskFaithful (moved : TaskStep values s.world d task a next v) (busy : next.work = .gathering)
    (known : s.tasks[d]? = some task) (event : task.event = .dispatch g c)
    (found : s.world.contexts[c]? = some x) (mine : x.graphId = g)
    (owner : s.world.graphs[x.graphId]? = some graph) (undisturbed : Undisturbed behave c s a)
    (old : task.work = .gathering → x.targetNodeName ≠ .node END ∧
      ∀ node ∈ task.nodes, Faithful values behave graph.toCompiled x.state node) :
    x.targetNodeName ≠ .node END ∧ ∀ node ∈ next.nodes, Faithful values behave graph.toCompiled x.state node := by
  have answered : ∀ (other : DispatchTask V) outcome, other.answer outcome = some next → False := by
    intro other outcome answered
    obtain ⟨run,_,rfl⟩ := answerCases answered
    contradiction
  have set : ∀ {i : Nat} {node' : NodeTask V}, task.work = .gathering →
      Faithful values behave graph.toCompiled x.state node' → x.targetNodeName ≠ .node END ∧
      ∀ node ∈ task.nodes.set i node', Faithful values behave graph.toCompiled x.state node := by
    intro i node' gathering faithful
    obtain ⟨more,all⟩ := old gathering
    refine ⟨more,?_⟩
    intro node member
    rcases List.mem_or_eq_of_mem_set member with was | rfl
    · exact all node was
    · exact faithful
  cases moved with
  | dispatch allowed_ taken => exact old busy
  | notify calling notified done => exact (answered _ _ done).elim
  | notifyCancelled notifying taken => exact old busy
  | coreIdle calling idle inactive done => exact (answered _ _ done).elim
  | coreFinish calling idle event active there end_ done => exact (answered _ _ done).elim
  | coreRaise calling idle event active there owner more raised done => exact (answered _ _ done).elim
  | coreBegin calling idle event' active there owner' more begun =>
    rw [event] at event'
    cases event'
    cases Option.some.inj (found.symm.trans there)
    refine ⟨more,?_⟩
    intro node member
    obtain ⟨name,_,rfl⟩ := List.mem_map.mp member
    exact freshFaithful name
  | startNode event' there owner' known' unstarted open_ =>
    rename_i i h e z graph' node
    rw [event] at event'
    cases event'
    cases Option.some.inj (found.symm.trans known')
    subst mine
    cases Option.some.inj (owner.symm.trans owner')
    obtain ⟨_,all⟩ := old busy
    exact set busy (startFaithful (all node (List.mem_of_getElem? there)) open_)
  | endNode there open_ started =>
    rename_i i node outcome
    obtain ⟨_,all⟩ := old busy
    have does := undisturbed task known (carriesOf event) node there
    exact set busy (endFaithful (all node (List.mem_of_getElem? there)) started does)
  | gatherCancelled calling context work done => exact (answered _ _ done).elim
  | gatherRaised calling context work there raised past done => exact (answered _ _ done).elim
  | gathered calling context work returned owner there stopped done => exact (answered _ _ done).elim
  | committed calling context work returned owner there goes => contradiction
  | putFailed calling context work done => exact (answered _ _ done).elim
  | postCancelled work done => exact (answered _ _ done).elim
  | resume work done => exact (answered _ _ done).elim

theorem moveConfig (ready : Ready s) (found : s.world.contexts[c]? = some x)
    (owner : s.world.graphs[x.graphId]? = some graph) (normal : Target.Normal graph.nodes x.targetNodeName)
    (move : Move values s c x a y) (running : y.status = .running) (quiet : committed values s c a = none) :
    configOf y = configOf x := by
  cases move with
  | same => rfl
  | bound owner' live mine pending valid => rfl
  | ended permitted cause => rfl
  | interrupted known about completion => rfl
  | targeted known about stage owner' ran valid =>
    cases Option.some.inj (owner.symm.trans owner')
    obtain ⟨rfl,_⟩ := validateSame normal valid
    rfl
  | began known context calling idle owner' ran more begun =>
    rcases (executeNodeOk begun).2 with ⟨_,rfl⟩ | ⟨_,_,_,_,rfl⟩ <;> rfl
  | committed known context work owner' ran returned applied valid =>
    rw [moveCommitted ready found (.mk known context work owner' ran returned applied valid)] at quiet
    contradiction
  | refused known context work owner' ran returned applied => contradiction
  | overrun known context work owner' ran returned applied invalid => contradiction

theorem ranBefore (conserved : Conserved nowhere s) (taken : Runtime.Step values s a t)
    (found : s.world.contexts[c]? = some x) (there : t.world.contexts[c]? = some y)
    (running : y.status = .running) (known : t.tasks[d]? = some next)
    (carried : carries c next.event = true) : x.status = .running := by
  by_contra idle
  obtain ⟨g,event⟩ := carriesCases carried
  have still : ∀ z, s.world.contexts[c]? = some z → z.status ≠ .running := by
    intro z same
    cases Option.some.inj (found.symm.trans same)
    exact idle
  obtain ⟨_,_,tasks,_⟩ := newlyRunning conserved.ready taken there running still
  rw [tasks] at known
  have mention := (conserved.tasks d next known).mention g c event
  obtain ⟨z,same,_,ran,_⟩ := mentionRan conserved.ready (stepPersists conserved.ready taken) mention there
    running
  exact still z same ran

theorem followsNodes (conserved : Conserved nowhere s) (after : Conserved nowhere t)
    (taken : Runtime.step values s a = some t) (found : s.world.contexts[c]? = some x)
    (there : t.world.contexts[c]? = some y) (owner : s.world.graphs[x.graphId]? = some graph)
    (tracked : Tracked values graph.toCompiled s c b x log l) (undisturbed : Undisturbed behave c s a)
    (follows : Follows values behave graph.toCompiled maxSteps s c b x log) (running : y.status = .running)
    (known : t.tasks[d]? = some next) (busy : gathers c next = true) :
    y.targetNodeName ≠ .node END ∧
      ∀ node ∈ next.nodes, Faithful values behave graph.toCompiled y.state node := by
  have steps := Runtime.stepCases taken
  obtain ⟨⟨g,about⟩,work⟩ := gathersCases busy
  have ran := ranBefore conserved steps found there running known (carriesOf about)
  -- a batch of the context is running, so none has just been committed
  have quiet : committed values s c a = none := by
    cases went : committed values s c a with
    | none => rfl
    | some results =>
      obtain ⟨_,e,task,place,context,gathering,put⟩ := committedSome conserved.ready taken went
      have unposted := (conserved.tasks e task place).waits.unposted (.inl gathering)
      have between : Between t c :=
        .inr (.inr ⟨e,_,put,by simp [resting,carriesContext context,unposted]⟩)
      rw [betweenExcludes after between known] at busy
      contradiction
  obtain ⟨z,same,move⟩ := (stepMoves conserved.ready steps).moves c x found
  cases Option.some.inj (there.symm.trans same)
  have config := moveConfig conserved.ready found owner tracked.normal move running quiet
  rw [show y.state = x.state from congrArg Config.state config,
    show y.targetNodeName = x.targetNodeName from congrArg Config.target config]
  have old : s.tasks[d]? = some next → x.targetNodeName ≠ .node END ∧
      ∀ node ∈ next.nodes, Faithful values behave graph.toCompiled x.state node :=
    fun before => follows.nodes ran d next before busy
  cases steps with
  | consumer permitted went =>
    rw [List.getElem?_append] at known
    split at known
    · exact old known
    · obtain ⟨_,item,chain,_,_,rfl⟩ := launchedNew (List.mem_of_getElem? known)
      contradiction
  | task here moved =>
    rename_i e task other w
    rcases Slots.setCases known with ⟨rfl,rfl⟩ | ⟨_,before⟩
    · have event : task.event = .dispatch g c := (taskKept moved).1.symm.trans about
      have mine := (mentionFound ((conserved.tasks e task here).mention g c event) found).1
      refine taskFaithful moved work here event found mine owner undisturbed ?_
      intro gathering
      exact follows.nodes ran e task here (by simp [gathers,carriesOf event,gathering])
    · exact old before
  | put here calling context work' room =>
    rcases Slots.setCases known with ⟨_,rfl⟩ | ⟨_,before⟩
    · contradiction
    · exact old before
  | _ => exact old known

theorem carriedCalm (doomed : Bool → Prop) (conserved : Conserved nowhere s) (after : Conserved nowhere t)
    (steps : Runtime.Step values s a t) (found : s.world.contexts[c]? = some x)
    (there : t.world.contexts[c]? = some y) (owner : s.world.graphs[x.graphId]? = some graph)
    (undisturbed : Undisturbed behave c s a)
    (fails : ∀ now error, x.status = .running → x.targetNodeName ≠ .node END →
      executeNode values graph x now = .error error → doomed false)
    (calm : x.status = .running → ∀ (d : Nat) task, s.tasks[d]? = some task →
      carries c task.event = true → Calm (doomed task.posted) (place task) task.run)
    (running : y.status = .running) (known : t.tasks[d]? = some next)
    (carried : carries c next.event = true) : Calm (doomed next.posted) (place next) next.run := by
  have ran := ranBefore conserved steps found there running known carried
  have old : s.tasks[d]? = some next → Calm (doomed next.posted) (place next) next.run :=
    fun before => calm ran d next before carried
  cases steps with
  | consumer permitted went =>
    rw [List.getElem?_append] at known
    split at known
    · exact old known
    · obtain ⟨_,item,chain,_,_,rfl⟩ := launchedNew (List.mem_of_getElem? known)
      exact launchedCalm chain
  | task here moved =>
    rename_i e task other w
    rcases Slots.setCases known with ⟨rfl,rfl⟩ | ⟨_,before⟩
    · obtain ⟨kept,posted⟩ := taskKept moved
      obtain ⟨g,about⟩ := carriesCases carried
      have event : task.event = .dispatch g c := kept.symm.trans about
      have mine := (mentionFound ((conserved.tasks e task here).mention g c event) found).1
      have ok := conserved.tasks e task here
      have owned := (mentionFound ((after.tasks e next (Slots.setSame here)).mention g c about) there).1
      rw [posted]
      refine calmTask conserved.ready here ok (calm ran e task here (carriesOf event)) event found
        ran ?_ ?_ moved (ownerActive after.ready.managed there owned running)
      · rintro action rfl
        exact undisturbed task here (carriesOf event)
      · intro now graph' error calling idle owner' more raised
        cases Option.some.inj (owner.symm.trans owner')
        rw [(callingEarly (ok.running g c x event found ran) event calling idle).1]
        exact fails now error ran more raised
    · exact old before
  | put here calling context work' room =>
    rename_i e task g phase c' consumer
    rcases Slots.setCases known with ⟨_,rfl⟩ | ⟨_,before⟩
    · have still := calm ran e task here carried
      refine ⟨still.accepted,still.errors,?_⟩
      intro phase' parent pc
      rcases still.phases phase' parent pc with core | ⟨failed,_,_⟩
      · exact .inl core
      · -- a dispatch that posts is in the core of its graph
        obtain ⟨h,event⟩ := carriesCases carried
        obtain ⟨g',_,_,called,_⟩ := conserved.ready.works e task here (by rw [work']; decide)
        have holds := (conserved.tasks e task here).running h c x event found ran
        rw [placeCalling holds event pc] at called
        cases called
        cases failed
    · exact old before
  | _ => exact old known

theorem followsCalm (conserved : Conserved nowhere s) (after : Conserved nowhere t)
    (steps : Runtime.Step values s a t) (found : s.world.contexts[c]? = some x)
    (there : t.world.contexts[c]? = some y) (owner : s.world.graphs[x.graphId]? = some graph)
    (tracked : Tracked values graph.toCompiled s c b x log l) (undisturbed : Undisturbed behave c s a)
    (apart : x.status = .running → Checkpointable values graph.toCompiled (configOf x))
    (follows : Follows values behave graph.toCompiled maxSteps s c b x log) (running : y.status = .running)
    (known : t.tasks[d]? = some next) (carried : carries c next.event = true) :
    Calm (interpret values behave graph.toCompiled maxSteps (configOf b) = .failed) (place next)
      next.run := by
  refine carriedCalm (fun _ => interpret values behave graph.toCompiled maxSteps
    (configOf b) = .failed) conserved after steps found there owner undisturbed ?_ follows.calm running known
    carried
  intro now error ran more raised
  rw [followsHere tracked follows (by rw [ran]; nofun)]
  exact interpretFailed more
    (faltersLeft (executeNodeFalters tracked.normal ran more (apart ran) raised)).1

theorem applyRefused {error : PyError} (live : graph.decomposed = false) (running : x.status = .running)
    (applied : applyCommand values x.graphId graph results (.batch names) x = .error (error,state)) :
    commitBatch values graph.toCompiled results (.batch names) x.state = .error (error,state) := by
  simp only [applyCommand,ensureNotDecomposed,live,running,Status.terminal,bne_self_eq_false,
    Bool.or_false,PyError.raiseIf,bind,Except.bind] at applied
  exact applied

theorem applyCommitted {next : Target} (applied : applyCommand values x.graphId graph results
    (.batch names) x = .ok (next,state)) :
    commitBatch values graph.toCompiled results (.batch names) x.state = .ok (next,state) := by
  simp only [applyCommand,PyError.bindOk,PyError.leavingOk] at applied
  obtain ⟨_,_,_,_,batch⟩ := applied
  exact batch

theorem runningLive (managed : Managed w) (found : w.contexts[c]? = some x) (running : x.status = .running)
    (owner : w.graphs[x.graphId]? = some graph) : graph.decomposed = false := by
  obtain ⟨_,graph',_,owner',_,_,live⟩ := activeFound managed.toExact (runningActive managed found running)
  cases Option.some.inj (owner.symm.trans owner')
  exact live

theorem followsGathered (ran : x.status = .running)
    (tracked : Tracked values compiled s c b x log l)
    (follows : Follows values behave compiled maxSteps s c b x log) (known : s.tasks[d]? = some task)
    (context : task.event.context = some c) (work : task.work = .gathering)
    (returned : allReturned task.nodes = some results) :
    Target.normaliseTargets x.targetNodeName = .ok (task.nodes.map NodeTask.name) ∧
    x.targetNodeName ≠ .node END ∧
    follow values behave compiled maxSteps (configOf x) = advance values compiled (configOf x) results := by
  have busy : gathers c task = true := by simp [gathers,carriesContext context,work]
  have named := tracked.named ran d task known busy
  obtain ⟨more,faithful⟩ := follows.nodes ran d task known busy
  obtain ⟨_,budget⟩ := follows.budget ran
  exact ⟨named,more,followReturned more (budget.resolve_left more) named (executeReturned faithful returned)⟩

theorem failedCause (doomed : Nat → DispatchTask V → Prop) {value : GraphContext V → Future V}
    (conserved : Conserved nowhere s)
    (found : s.world.contexts[c]? = some x) (owner : s.world.graphs[x.graphId]? = some graph)
    (budgeted : graph.maxSteps = maxSteps) (permitted : allowed x.status .failed = true)
    (tracked : Tracked values graph.toCompiled s c b x log l) (undisturbed : Undisturbed behave c s a)
    (follows : Follows values behave graph.toCompiled maxSteps s c b x log)
    (calm : x.status = .running → ∀ (d : Nat) task, s.tasks[d]? = some task →
      carries c task.event = true → Calm (doomed d task) (place task) task.run)
    (cause : Cause s c x a .failed value) : x.status = .running ∧
      ((∃ (d : Nat) (task : DispatchTask V), s.tasks[d]? = some task ∧ doomed d task) ∨
        x.targetNodeName ≠ .node END ∧ Falters values behave graph.toCompiled (configOf x)) := by
  have begun : ∀ g, Mention s.world g c → x.status = .running := by
    intro g mention
    have started := (mentionFound mention found).2
    have shaped := conserved.ready.managed.shaped c x found
    unfold Shaped at shaped
    cases at_ : x.status with
    | running => rfl
    | pending =>
      rw [at_] at shaped
      exact absurd shaped.1 started
    | _ => rw [at_] at permitted; contradiction
  have carriedBy : ∀ (d : Nat) task, s.tasks[d]? = some task → task.event.context = some c →
      ∃ g, task.event = .dispatch g c ∧ Mention s.world g c := by
    intro d task known context
    obtain ⟨g,event⟩ := carriesCases (carriesContext context)
    exact ⟨g,event,(conserved.tasks d task known).mention g c event⟩
  cases cause with
  | notified known context calling mine how told =>
    rename_i d task g phase
    obtain ⟨h,event,mention⟩ := carriedBy d task known context
    have ran := begun h mention
    cases (mentionFound mention found).1.symm.trans mine
    have holds := (conserved.tasks d task known).running _ c x event found ran
    obtain ⟨parent,pc⟩ := callingPlace holds event calling
    rcases (calm ran d task known (carriesContext context)).phases phase parent pc with
      ⟨core,_⟩ | ⟨_,_,doomed⟩
    · exact absurd core told
    · exact ⟨ran,.inl ⟨d,task,known,doomed⟩⟩
  | node known context work there raised past =>
    rename_i d i task node error
    obtain ⟨h,_,mention⟩ := carriedBy d task known context
    have ran := begun h mention
    have busy : gathers c task = true := by simp [gathers,carriesContext context,work]
    obtain ⟨more,faithful⟩ := follows.nodes ran d task known busy
    have member := List.mem_of_getElem? there
    obtain ⟨first,batch⟩ := executeRaised (List.mem_map_of_mem member) ((faithful node member).raised error raised)
    exact ⟨ran,.inr ⟨more,_,first,tracked.named ran d task known busy,batch⟩⟩
  | post known context =>
    rename_i d task error
    have away := undisturbed task known
    rw [carriesContext context] at away
    contradiction
  | refused known about owner' invalid =>
    rename_i k invocation graph' error
    have ran := begun _ (about ▸ conserved.invocations k invocation known)
    cases Option.some.inj (owner.symm.trans owner')
    obtain ⟨counted,within⟩ := follows.budget ran
    rw [validateNormal tracked.normal counted (budgeted ▸ within)] at invalid
    contradiction
  | invokeFailed known about => exact absurd about (undisturbed _ known)
  | woken known about completion done how =>
    rename_i k invocation f
    have ran := begun _ (about ▸ conserved.invocations k invocation known)
    rcases how with ⟨_,no,_⟩ | ⟨alive,_⟩
    · contradiction
    · rcases tracked.pending ran with open_ | cancelled
      · cases Option.some.inj (completion.symm.trans open_)
        contradiction
      · exact absurd (Option.some.inj (completion.symm.trans cancelled)) alive

theorem followsFailed {value : GraphContext V → Future V} (conserved : Conserved nowhere s)
    (found : s.world.contexts[c]? = some x) (owner : s.world.graphs[x.graphId]? = some graph)
    (budgeted : graph.maxSteps = maxSteps) (permitted : allowed x.status .failed = true)
    (tracked : Tracked values graph.toCompiled s c b x log l) (undisturbed : Undisturbed behave c s a)
    (follows : Follows values behave graph.toCompiled maxSteps s c b x log)
    (cause : Cause s c x a .failed value) :
    interpret values behave graph.toCompiled maxSteps (configOf b) = .failed := by
  obtain ⟨ran,⟨_,_,_,doomed⟩ | ⟨more,falters⟩⟩ :=
    failedCause (fun _ _ => interpret values behave graph.toCompiled maxSteps (configOf b) = .failed)
      conserved found owner budgeted permitted tracked undisturbed follows follows.calm cause
  · exact doomed
  · rw [followsHere tracked follows (by rw [ran]; decide)]
    exact interpretFailed more (faltersLeft falters).1

theorem finishedDelivered {value : GraphContext V → Future V} (tracked : Tracked values compiled s c b x log l)
    (permitted : allowed x.status .finished = true) (cause : Cause s c x a .finished value) :
    (ended x .finished value).completion = some (.result x.state) ∨
      (ended x .finished value).completion = some .cancelled := by
  have running : x.status = .running := by
    cases at_ : x.status <;> rw [at_] at permitted <;> first | rfl | contradiction
  have value_ : value = fun x => .result x.state := by
    cases cause with
    | notified known context calling mine how => rcases how with ⟨_,no,_⟩ | ⟨_,no,_⟩ <;> contradiction
    | woken known about completion done how => rcases how with ⟨_,no,_⟩ | ⟨_,no,_⟩ <;> contradiction
    | finished known context calling idle end_ => rfl
  subst value_
  rcases tracked.pending running with open_ | cancelled
  · left
    simp [ended,settled,open_,Future.done]
  · right
    simp [ended,settled,cancelled,Future.done]

theorem refusedLeft {error : PyError} (ran : x.status = .running) (live : graph.decomposed = false)
    (tracked : Tracked values graph.toCompiled s c b x log l)
    (follows : Follows values behave graph.toCompiled maxSteps s c b x log)
    (known : s.tasks[d]? = some task) (context : task.event.context = some c)
    (work : task.work = .gathering) (returned : allReturned task.nodes = some results)
    (applied : applyCommand values x.graphId graph results (.batch (task.nodes.map NodeTask.name)) x =
      .error (error,state)) :
    x.targetNodeName ≠ .node END ∧
    follow values behave graph.toCompiled maxSteps (configOf x) = none ∧
    leftover values behave graph.toCompiled maxSteps (configOf x) = (state,x.steps) := by
  obtain ⟨named,more,went⟩ := followsGathered ran tracked follows known context work returned
  have refused := applyRefused live ran applied
  obtain ⟨_,within⟩ := follows.budget ran
  have budget : ¬ maxSteps ≤ x.steps := not_le.mpr (within.resolve_left more)
  obtain ⟨_,faithful⟩ := follows.nodes ran d task known (by simp [gathers,carriesContext context,work])
  refine ⟨more,?_,?_⟩
  · rw [went]
    simp only [advance,configOf,named,refused]
  · simp only [leftover,configOf,budget,if_false,named,executeReturned faithful returned,refused]

/- A batch that is applied and whose next target is refused: the target is unknown,
or the budget is used up. -/
theorem overrunLeft {error : PyError} {target : Target} (ran : x.status = .running)
    (budgeted : graph.maxSteps = maxSteps) (tracked : Tracked values graph.toCompiled s c b x log l)
    (follows : Follows values behave graph.toCompiled maxSteps s c b x log)
    (known : s.tasks[d]? = some task) (context : task.event.context = some c)
    (work : task.work = .gathering) (returned : allReturned task.nodes = some results)
    (applied : applyCommand values x.graphId graph results (.batch (task.nodes.map NodeTask.name)) x =
      .ok (target,state))
    (invalid : validateTarget graph target (x.steps + 1) = .error error) :
    ∃ n config, Loop.ahead (follow values behave graph.toCompiled maxSteps) n (configOf x) = some config ∧
      config.target ≠ .node END ∧ follow values behave graph.toCompiled maxSteps config = none ∧
      leftover values behave graph.toCompiled maxSteps config = (state,x.steps + 1) := by
  obtain ⟨named,more,went⟩ := followsGathered ran tracked follows known context work returned
  obtain ⟨counted,within⟩ := follows.budget ran
  cases normalised : Target.normaliseTarget graph.nodes (.target target) with
  | error raised =>
    have budget : ¬ maxSteps ≤ x.steps := not_le.mpr (within.resolve_left more)
    obtain ⟨_,faithful⟩ := follows.nodes ran d task known (by simp [gathers,carriesContext context,work])
    refine ⟨0,configOf x,rfl,more,?_,?_⟩
    · rw [went]
      simp only [advance,configOf,named,applyCommitted applied,normalised]
    · simp only [leftover,configOf,budget,if_false,named,executeReturned faithful returned,
        applyCommitted applied]
  | ok target' =>
    have next : follow values behave graph.toCompiled maxSteps (configOf x) =
        some ⟨state,target',x.steps + 1⟩ := by
      rw [went]
      simp only [advance,configOf,named,applyCommitted applied,normalised]
    -- the target is known, so what is used up is the budget
    have exhausted : target' ≠ .node END ∧ maxSteps ≤ x.steps + 1 := by
      by_contra within
      have budget : target' = .node END ∨ x.steps + 1 < graph.maxSteps := by
        rw [budgeted]
        by_cases past : target' = .node END
        · exact .inl past
        · exact .inr (not_le.mp (fun less => within ⟨past,less⟩))
      have valid := validateNormal (Target.normaliseNormal normalised) (by omega) budget
      simp only [validateTarget,Target.normaliseStable (Target.normaliseNormal normalised)] at valid
      simp only [validateTarget,normalised] at invalid
      rw [invalid] at valid
      contradiction
    refine ⟨1,⟨state,target',x.steps + 1⟩,?_,exhausted.1,?_,?_⟩
    · simp only [Loop.ahead,next,Option.bind_some]
    · simp only [follow,exhausted.2,or_true,if_true]
    · simp only [leftover,exhausted.2,if_true]

/- One step of the runtime beside the interpreter. -/
theorem followsStep (conserved : Conserved nowhere s) (taken : Runtime.step values s a = some t)
    (found : s.world.contexts[c]? = some x) (there : t.world.contexts[c]? = some y)
    (owner : s.world.graphs[x.graphId]? = some graph) (budgeted : graph.maxSteps = maxSteps)
    (tracked : Tracked values graph.toCompiled s c b x log l) (undisturbed : Undisturbed behave c s a)
    (apart : x.status = .running → Checkpointable values graph.toCompiled (configOf x))
    (follows : Follows values behave graph.toCompiled maxSteps s c b x log) :
    Follows values behave graph.toCompiled maxSteps t c b y (log ++ (committed values s c a).toList) := by
  have steps := Runtime.stepCases taken
  have after := conservedStep conserved (fun _ => nofun) steps
  have nodes : y.status = .running → ∀ (d : Nat) task, t.tasks[d]? = some task → gathers c task = true →
      y.targetNodeName ≠ .node END ∧
        ∀ node ∈ task.nodes, Faithful values behave graph.toCompiled y.state node :=
    fun running d task known busy =>
      followsNodes conserved after taken found there owner tracked undisturbed follows running known busy
  have calm : y.status = .running → ∀ (d : Nat) task, t.tasks[d]? = some task →
      carries c task.event = true → Calm (interpret values behave graph.toCompiled maxSteps
        (configOf b) = .failed) (place task) task.run :=
    fun running d task known carried => followsCalm conserved after steps found there owner tracked
      undisturbed apart follows running known carried
  cases went : committed values s c a with
  | some results =>
    obtain ⟨⟨z,z',here,known,commits_⟩,_⟩ := committedSome conserved.ready taken went
    cases Option.some.inj (found.symm.trans here)
    cases Option.some.inj (there.symm.trans known)
    cases commits_ with
    | mk place context work owner' running returned applied valid =>
      rename_i d task graph' next state target
      cases Option.some.inj (owner.symm.trans owner')
      have alive : x.status ≠ .failed := by rw [running]; nofun
      obtain ⟨named,_,turn⟩ := followsGathered running tracked follows place context work returned
      refine ⟨?_,?_,?_,?_,nodes,calm⟩
      · intro k few
        rw [Option.toList_some] at few ⊢
        by_cases last : k ≤ log.length
        · rw [List.take_append_of_le_length last]
          exact follows.path k last
        · have whole : k = log.length + 1 := by
            rw [List.length_append] at few
            simp only [List.length_singleton] at few
            omega
          subst whole
          rw [Loop.aheadSnoc,followsReached tracked follows alive,Option.bind_some,turn,
            List.take_of_length_le (by rw [List.length_append]; exact Nat.le_refl _)]
          refine (applyAdvance named applied valid).trans (Eq.symm ?_)
          exact Machine.runSnoc.mpr ⟨configOf x,tracked.live alive,applyAdvance named applied valid⟩
      · intro _
        obtain ⟨counted,_,budget⟩ := validateBudget valid
        exact ⟨counted,budgeted ▸ budget⟩
      · exact fun failed => absurd failed alive
      · intro past
        rw [show x.status = .finished from past] at running
        contradiction
  | none =>
    rw [Option.toList_none,List.append_nil]
    obtain ⟨z,same,move⟩ := (stepMoves conserved.ready steps).moves c x found
    cases Option.some.inj (there.symm.trans same)
    cases move with
    | same => exact ⟨follows.path,follows.budget,follows.failed,follows.delivered,nodes,calm⟩
    | bound owner' live mine pending valid =>
      subst mine
      cases Option.some.inj (owner.symm.trans owner')
      refine ⟨follows.path,?_,nofun,nofun,nodes,calm⟩
      intro _
      obtain ⟨target,valid⟩ := valid
      obtain ⟨rfl,_⟩ := validateSame tracked.normal valid
      obtain ⟨counted,_,budget⟩ := validateBudget valid
      exact ⟨counted,budgeted ▸ budget⟩
    | ended permitted cause =>
      rename_i status value
      have final := causeFinal cause
      refine ⟨follows.path,?_,?_,?_,nodes,calm⟩
      · intro running
        rw [show status = .running from running] at final
        contradiction
      · intro failed
        cases failed
        exact followsFailed conserved found owner budgeted permitted tracked undisturbed follows cause
      · intro past
        cases past
        exact finishedDelivered tracked permitted cause
    | interrupted known about completion =>
      refine ⟨follows.path,follows.budget,follows.failed,?_,nodes,calm⟩
      intro past
      rcases follows.delivered past with held | held <;> cases Option.some.inj (completion.symm.trans held)
      · exact .inl rfl
      · exact .inr rfl
    | targeted known about stage owner' running valid =>
      cases Option.some.inj (owner.symm.trans owner')
      obtain ⟨rfl,_⟩ := validateSame tracked.normal valid
      exact ⟨follows.path,follows.budget,follows.failed,follows.delivered,nodes,calm⟩
    | began known context calling idle owner' running more begun =>
      rcases (executeNodeOk begun).2 with ⟨_,rfl⟩ | ⟨_,_,_,_,rfl⟩
      · exact ⟨follows.path,follows.budget,follows.failed,follows.delivered,nodes,calm⟩
      · exact ⟨follows.path,follows.budget,follows.failed,follows.delivered,nodes,calm⟩
    | committed known context work owner' running returned applied valid =>
      rw [moveCommitted conserved.ready found
        (.mk known context work owner' running returned applied valid)] at went
      contradiction
    | refused known context work owner' running returned applied =>
      cases Option.some.inj (owner.symm.trans owner')
      have live := runningLive conserved.ready.managed found running owner
      obtain ⟨more,stuck,_⟩ := refusedLeft running live tracked follows known context work returned applied
      refine ⟨follows.path,nofun,?_,nofun,nodes,calm⟩
      intro _
      rw [followsHere tracked follows (by rw [running]; nofun)]
      exact interpretFailed more stuck
    | overrun known context work owner' running returned applied invalid =>
      cases Option.some.inj (owner.symm.trans owner')
      obtain ⟨n,config,reached,more,stuck,_⟩ := overrunLeft running budgeted tracked follows known context
        work returned applied invalid
      refine ⟨follows.path,nofun,?_,nofun,nodes,calm⟩
      intro _
      rw [followsHere tracked follows (by rw [running]; nofun),interpretAhead reached]
      exact interpretFailed more stuck

theorem bornAlone (conserved : Conserved nowhere s) (steps : Runtime.Step values s a t)
    (missing : s.world.contexts[c]? = none) (there : t.world.contexts[c]? = some y)
    (known : t.tasks[d]? = some task) : carries c task.event = false := by
  have born := (stepMoves conserved.ready steps).born c y there missing
  have tasks : t.tasks = s.tasks := by
    cases born <;> cases steps with
    | accepted open_ performed => rfl
    | rejected open_ performed => rfl
    | task known moved => cases moved
    | invocation known moved => cases moved
  rw [tasks] at known
  cases carried : carries c task.event with
  | false => rfl
  | true =>
    obtain ⟨g,event⟩ := carriesCases carried
    obtain ⟨x,found,_⟩ := (conserved.tasks d task known).mention g c event
    rw [missing] at found
    contradiction

theorem followsBorn (conserved : Conserved nowhere s) (steps : Runtime.Step values s a t)
    (missing : s.world.contexts[c]? = none) (there : t.world.contexts[c]? = some y)
    (owner : s.world.graphs[y.graphId]? = some graph) (formed : Formed s.world.graphs) :
    Follows values behave graph.toCompiled graph.maxSteps t c y y [] := by
  have born := (stepMoves conserved.ready steps).born c y there missing
  have none_ : ∀ (d : Nat) task, t.tasks[d]? = some task → carries c task.event = true → False := by
    intro d task known carried
    rw [bornAlone conserved steps missing there known] at carried
    contradiction
  have shape : (y.status = .running → 0 ≤ y.steps ∧ (y.targetNodeName = .node END ∨ y.steps < graph.maxSteps)) ∧
      y.status ≠ .failed ∧ y.status ≠ .finished := by
    cases born with
    | created known copied => exact ⟨nofun,nofun,nofun⟩
    | restored known sourced valid latest => exact ⟨nofun,nofun,nofun⟩
    | invoked known live copied valid =>
      refine ⟨?_,nofun,nofun⟩
      intro _
      obtain ⟨target,valid⟩ := valid
      cases Option.some.inj (owner.symm.trans known)
      obtain ⟨counted,_,budget⟩ := validateBudget valid
      have normal := formed _ graph known
      simp only [validateTarget,PyError.bindOk,PyError.raiseIfOk,exists_const] at valid
      obtain ⟨_,given,normalised,_,last⟩ := valid
      rw [Target.normaliseStable normal] at normalised
      cases normalised
      cases last
      exact ⟨counted,budget⟩
  refine ⟨?_,shape.1,fun past => absurd past shape.2.1,fun past => absurd past shape.2.2,?_,?_⟩
  · intro k few
    have zero : k = 0 := by simpa using few
    subst zero
    rfl
  · intro _ d task known busy
    obtain ⟨⟨g,about⟩,_⟩ := gathersCases busy
    exact (none_ d task known (carriesOf about)).elim
  · intro _ d task known carried
    exact (none_ d task known carried).elim

/- The graph of context `c` keeps its budget. -/
def BudgetKept (c : Nat) (s : State V) (a : Action V) : Prop :=
  ∀ x, s.world.contexts[c]? = some x → ∀ n, a ≠ .graph (.setMaxSteps x.graphId n)

theorem undisturbedBudget (undisturbed : Undisturbed behave c s a) : BudgetKept c s a := by
  rintro x found n rfl
  exact undisturbed x found rfl

theorem budgetKept (moved : Moved values s a t.world) (found : s.world.contexts[c]? = some x)
    (owner : s.world.graphs[x.graphId]? = some graph) (kept : BudgetKept c s a) :
    ∃ graph', t.world.graphs[x.graphId]? = some graph' ∧ graph'.toCompiled = graph.toCompiled ∧
      graph'.maxSteps = graph.maxSteps := by
  obtain ⟨graph',there,compiled,budget⟩ := compilesKept moved.graphs owner
  exact ⟨graph',there,compiled,budget (kept x found)⟩

end Step

/- `P` holds of the context `c` over its birth and the batches it has committed. -/
def Attempts (values : Values V) (m c : Nat)
    (P : Compiled → Int → State V → GraphContext V → GraphContext V → List (List (Result V)) → Prop)
    (r : List (Action V)) (s : State V) : Prop :=
  ∀ b x graph, (births values (Runtime.initial m) r)[c]? = some b → s.world.contexts[c]? = some x →
    s.world.graphs[x.graphId]? = some graph → Target.Normal graph.nodes b.targetNodeName →
    P graph.toCompiled graph.maxSteps s b x (commits values c (Runtime.initial m) r)

theorem attemptsStep {m : Nat}
    {P : Compiled → Int → State V → GraphContext V → GraphContext V → List (List (Result V)) → Prop}
    (ran : Machine.run (Runtime.step values) (Runtime.initial m) r = some s)
    (here : BudgetKept c s a) (taken : Runtime.step values s a = some t)
    (appears : ∀ y graph, s.world.contexts[c]? = none → t.world.contexts[c]? = some y →
      s.world.graphs[y.graphId]? = some graph → P graph.toCompiled graph.maxSteps t y y [])
    (keeps : ∀ b x y graph l, (births values (Runtime.initial m) r)[c]? = some b →
      s.world.contexts[c]? = some x → t.world.contexts[c]? = some y →
      s.world.graphs[x.graphId]? = some graph → Target.Normal graph.nodes b.targetNodeName →
      Tracked values graph.toCompiled s c b x (commits values c (Runtime.initial m) r) l →
      P graph.toCompiled graph.maxSteps s b x (commits values c (Runtime.initial m) r) →
      P graph.toCompiled graph.maxSteps t b y
        (commits values c (Runtime.initial m) r ++ (committed values s c a).toList))
    (before : Attempts values m c P r s) : Attempts values m c P (r ++ [a]) t := by
  intro b y graph' born there owner normal
  have steps := Runtime.stepCases taken
  have conserved := runConserved ran
  have trailed := runTrailed ran
  have moved := stepMoves conserved.ready steps
  rw [commitsSnoc ran]
  rcases bornCases trailed ran taken there born with ⟨missing,rfl⟩ | ⟨x,found,born⟩
  · obtain ⟨graph,known,_⟩ := bornEntry (moved.born c b there missing)
    obtain ⟨graph'',kept,compiled,budget⟩ := compilesKept moved.graphs known
    cases Option.some.inj (owner.symm.trans kept)
    have quiet : committed values s c a = none := by
      cases went : committed values s c a with
      | none => rfl
      | some results =>
        obtain ⟨x,found⟩ := committedKnown went
        rw [missing] at found
        contradiction
    have within : graph'.maxSteps = graph.maxSteps := by
      refine budget ?_
      rintro n rfl
      cases moved.born c b there missing
    rw [trailed.unborn c missing,quiet,compiled,within]
    exact appears b graph missing there known
  · obtain ⟨z,same,goes⟩ := stepPersists conserved.ready steps c x found
    cases Option.some.inj (there.symm.trans same)
    have owned := conserved.ready.managed.owned c x found
    have known : s.world.graphs[x.graphId]? = some s.world.graphs[x.graphId] :=
      List.getElem?_eq_getElem owned
    obtain ⟨graph'',kept,compiled,within⟩ := budgetKept moved found known here
    rw [goes.graphId] at owner
    cases Option.some.inj (owner.symm.trans kept)
    rw [compiled] at normal
    rw [compiled,within]
    obtain ⟨l,tracked⟩ := trailed.tracked c x b _ found born known normal
    exact keeps b x y _ l born found there known normal tracked (before b x _ born found known normal)

/- As long as nobody disturbs it, an attempt follows the interpreter. -/
def Following (values : Values V) (behave : Behaviour V) (m c : Nat) (r : List (Action V)) (s : State V) :
    Prop :=
  ∀ b x graph, (births values (Runtime.initial m) r)[c]? = some b → s.world.contexts[c]? = some x →
    s.world.graphs[x.graphId]? = some graph → Target.Normal graph.nodes b.targetNodeName →
    (∀ n config, Loop.ahead (follow values behave graph.toCompiled graph.maxSteps) n (configOf b) =
      some config → Checkpointable values graph.toCompiled config) →
    Follows values behave graph.toCompiled graph.maxSteps s c b x (commits values c (Runtime.initial m) r)

theorem followingStep {m : Nat} (ran : Machine.run (Runtime.step values) (Runtime.initial m) r = some s)
    (here : Undisturbed behave c s a) (following : Following values behave m c r s)
    (taken : Runtime.step values s a = some t) : Following values behave m c (r ++ [a]) t := by
  have steps := Runtime.stepCases taken
  have conserved := runConserved ran
  refine attemptsStep (P := fun compiled maxSteps s b x log =>
    (∀ n config, Loop.ahead (follow values behave compiled maxSteps) n (configOf b) = some config →
      Checkpointable values compiled config) → Follows values behave compiled maxSteps s c b x log)
    ran (undisturbedBudget here) taken ?_ ?_ following
  · intro y graph missing there known _
    exact followsBorn conserved steps missing there known (runTrailed ran).formed
  · intro b x y graph l born found there known normal tracked before apart
    have follows := before apart
    refine followsStep conserved taken found there known rfl tracked here ?_ follows
    intro running
    exact apart _ _ (followsReached tracked follows (by rw [running]; nofun))

theorem runFollowing {m : Nat}
    (undisturbed : Machine.Steps (Runtime.step values) (Undisturbed behave c) (Runtime.initial m) r)
    (ran : Machine.run (Runtime.step values) (Runtime.initial m) r = some s) :
    Following values behave m c r s :=
  Machine.historySteps
    (fun b x graph _ found => by simp [Runtime.initial,NodeGraph.initial] at found)
    (fun _ _ _ _ _ before here following taken => followingStep before here following taken)
    undisturbed ran

/- An attempt that has ended, and that was neither aborted nor cancelled, has ended
as the interpreter does from where it started. -/
theorem followsEnded {maxSteps : Int} {log : List (List (Result V))} {l : List (Snapshot V)}
    (tracked : Tracked values compiled s c b x log l)
    (follows : Follows values behave compiled maxSteps s c b x log)
    (past : x.status.terminal = true) (kept : x.status ≠ .aborted) :
    x.status = .finished ∧
        interpret values behave compiled maxSteps (configOf b) = .finished (configOf x) ∨
      x.status = .failed ∧ interpret values behave compiled maxSteps (configOf b) = .failed := by
  cases at_ : x.status with
  | pending => rw [at_] at past; contradiction
  | running => rw [at_] at past; contradiction
  | aborted => exact absurd at_ kept
  | failed => exact .inr ⟨rfl,follows.failed at_⟩
  | finished =>
    refine .inl ⟨rfl,?_⟩
    rw [followsHere tracked follows (by rw [at_]; nofun)]
    exact interpretFinished (tracked.past at_).1

/- A fresh attempt in which nobody interferes ends, if it ends, with the state and
the step count of the interpreter, or fails where the interpreter fails. -/
theorem runtimeRefines {m : Nat}
    (undisturbed : Machine.Steps (Runtime.step values) (Undisturbed behave c) (Runtime.initial m) r)
    (ran : Machine.run (Runtime.step values) (Runtime.initial m) r = some s)
    (born : (births values (Runtime.initial m) r)[c]? = some b) (fresh : b.contextSnapshot = [])
    (found : s.world.contexts[c]? = some x) (owner : s.world.graphs[x.graphId]? = some graph)
    (apart : ∀ n config, Loop.ahead (follow values behave graph.toCompiled graph.maxSteps) n
      ⟨b.state,graph.entryPoint,0⟩ = some config → Checkpointable values graph.toCompiled config)
    (past : x.status.terminal = true) (kept : x.status ≠ .aborted) :
    (∀ config, interpret values behave graph.toCompiled graph.maxSteps ⟨b.state,graph.entryPoint,0⟩ =
      .finished config → x.status = .finished ∧ x.state = config.state ∧ x.steps = config.steps ∧
        (x.completion = some (.result config.state) ∨ x.completion = some .cancelled)) ∧
    (interpret values behave graph.toCompiled graph.maxSteps ⟨b.state,graph.entryPoint,0⟩ = .failed →
      x.status = .failed) := by
  have trailed := runTrailed ran
  obtain ⟨target,steps,l,tracked⟩ := freshTracked trailed born fresh found owner
  have start : configOf b = ⟨b.state,graph.entryPoint,0⟩ := by
    rw [configOf,target,steps]
  have normal : Target.Normal graph.nodes b.targetNodeName := by
    rw [target]
    exact trailed.formed _ graph owner
  rw [← start] at apart ⊢
  have follows := runFollowing undisturbed ran b x graph born found owner normal apart
  rcases followsEnded tracked follows past kept with ⟨finished,ends⟩ | ⟨failed,ends⟩
  · refine ⟨?_,fun fails => by rw [ends] at fails; contradiction⟩
    intro config same
    cases ends.symm.trans same
    exact ⟨finished,rfl,rfl,follows.delivered finished⟩
  · refine ⟨?_,fun _ => failed⟩
    intro config same
    rw [ends] at same
    contradiction

def twice : Behaviour Nat := fun _ state => match state.get "k" with
  | none => .ok (Atomicity.writing 1 "a")
  | some _ => .ok (Atomicity.writing 2 END)

def finishedBatches : List (Action Nat) :=
  [.graph (.construct flow),.graph (.beginInvocation 0 (.dict .empty) .none),.invoke 0,.invokePut 0,
    .invokeResume 0,.consumer .start,.consumer (.begin 0),.consumer (.dequeue 0 (.resolved [.graph 0])),
    .consumer (.launch 0 .launched),.dispatch 0 .begin,.dispatch 0 .visit,.dispatch 0 .gate,.core 0 0,
    .startNode 0 0,.endNode 0 0 (.returned (Atomicity.writing 1 "a")),.gather 0 .returned,.put 0,
    .consumer (.dequeue 0 (.resolved [.graph 0])),.resume 0,.consumer (.launch 0 .launched),
    .dispatch 1 .begin,.dispatch 1 .visit,.dispatch 1 .gate,.core 1 1,.startNode 1 0,
    .endNode 1 0 (.returned (Atomicity.writing 2 END)),.gather 1 .returned,.put 1,.consumer .stop,
    .consumer .start,.consumer (.begin 1),.consumer (.dequeue 1 (.resolved [.graph 0])),.resume 1,
    .consumer (.launch 1 .launched),.dispatch 2 .begin,.dispatch 2 .visit,.dispatch 2 .gate,.core 2 2,
    .wake 0]

def finishedRun : State Nat :=
  (Machine.run (Runtime.step Baton.numbers) (Runtime.initial 1) finishedBatches).getD (Runtime.initial 1)

def finishedContext : GraphContext Nat :=
  ⟨0,some 0,.set .empty "k" 2,.node END,2,
    [⟨0,.empty,.node "a",0,0⟩,⟨1,.set .empty "k" 1,.node "a",1,0⟩],
    some (.result (.set .empty "k" 2)),.finished,none⟩

theorem runtimeRefinesTwice :
    (∀ config, interpret Baton.numbers twice Atomicity.flowGraph.toCompiled Atomicity.flowGraph.maxSteps
      ⟨Atomicity.abortedBirth.state,Atomicity.flowGraph.entryPoint,0⟩ = .finished config →
        finishedContext.status = .finished ∧ finishedContext.state = config.state ∧
        finishedContext.steps = config.steps ∧
        (finishedContext.completion = some (.result config.state) ∨
          finishedContext.completion = some .cancelled)) ∧
    (interpret Baton.numbers twice Atomicity.flowGraph.toCompiled Atomicity.flowGraph.maxSteps
      ⟨Atomicity.abortedBirth.state,Atomicity.flowGraph.entryPoint,0⟩ = .failed →
        finishedContext.status = .failed) :=
  @runtimeRefines Nat Baton.numbers twice finishedRun 0 finishedBatches finishedContext
    Atomicity.abortedBirth Atomicity.flowGraph 1 (Machine.stepsOfDecide rfl) rfl rfl rfl rfl rfl
    (fun _ _ _ => .inr (.inr (fun _ _ => nofun))) rfl nofun

/- A node adds a field that keeps its reference, with a value that cannot be copied; the
checkpoint before the second batch then fails. -/
def uncopyable : Values Nat := ⟨fun n => n != 13,fun _ => none,fun _ => "int"⟩

def keeping : Definition := ⟨["a"],.target (.node "a"),2,false,[],["k"]⟩

def addsKept : Behaviour Nat := fun _ state => match state.get "k" with
  | none => .ok (Atomicity.writing 13 "a")
  | some _ => .ok (Atomicity.writing 13 END)

def unkeptBatches : List (Action Nat) :=
  [.graph (.construct keeping),.graph (.beginInvocation 0 (.dict .empty) .none),.invoke 0,.invokePut 0,
    .invokeResume 0,.consumer .start,.consumer (.begin 0),.consumer (.dequeue 0 (.resolved [.graph 0])),
    .consumer (.launch 0 .launched),.dispatch 0 .begin,.dispatch 0 .visit,.dispatch 0 .gate,.core 0 0,
    .startNode 0 0,.endNode 0 0 (.returned (Atomicity.writing 13 "a")),.gather 0 .returned,.put 0,
    .consumer (.dequeue 0 (.resolved [.graph 0])),.resume 0,.consumer (.launch 0 .launched),
    .dispatch 1 .begin,.dispatch 1 .visit,.dispatch 1 .gate,.core 1 1,.notify 1]

def unkeptRun : State Nat :=
  (Machine.run (Runtime.step uncopyable) (Runtime.initial 1) unkeptBatches).getD (Runtime.initial 1)

def unkeptGraph : Graph := ⟨⟨["a"],.node "a",false,[],["k"]⟩,2,[],false⟩

/- Nobody disturbs the attempt, its first state has no field that keeps its reference, the
interpreter finishes, and the attempt fails. -/
theorem failsWhereFinished :
    Machine.run (Runtime.step uncopyable) (Runtime.initial 1) unkeptBatches = some unkeptRun ∧
    Machine.Steps (Runtime.step uncopyable) (Undisturbed addsKept 0) (Runtime.initial 1) unkeptBatches ∧
    unkeptRun.world.graphs = [unkeptGraph] ∧
    (births uncopyable (Runtime.initial 1) unkeptBatches).map GraphContext.state = [.empty] ∧
    unkeptRun.world.contexts.map (fun x => (x.graphId,x.status)) = [(0,.failed)] ∧
    interpret uncopyable addsKept unkeptGraph.toCompiled unkeptGraph.maxSteps ⟨.empty,unkeptGraph.entryPoint,0⟩ =
      .finished ⟨.set .empty "k" 13,.node END,2⟩ :=
  ⟨rfl,Machine.stepsOfDecide rfl,rfl,rfl,rfl,rfl⟩

end Apixis.Refinement
