import Apixis.Graph.Budget

/-! What a running attempt waits for. As long as none of its events is lost, it can take
a step of its own, or it waits for the code of a node, for the callback of a plugin, for
room in the queue or for the consumer. -/
namespace Apixis.Progress
open NodeGraph hiding Action step initial
open ApplyCommand Lifecycle Moves Obligation Baton Apixis.Runtime

variable {V : Type} {values : Values V} {s t : State V} {w : World V} {g c d k : Nat}
  {x : GraphContext V} {task next : DispatchTask V} {node : NodeTask V} {invocation : Invocation}
  {whole : Nat → Prop} {sure : Prop}

/- The dispatch whose task an action runs; that its event is accepted is nobody's step. -/
def dispatchOf : Action V → Option Nat
  | .dispatch _ .accept => none
  | .dispatch d _ => some d
  | .notify d => some d
  | .notifyCancelled d => some d
  | .core d _ => some d
  | .startNode d _ => some d
  | .endNode d _ _ => some d
  | .gather d _ => some d
  | .put d => some d
  | .putFailed d _ => some d
  | .postCancelled d => some d
  | .resume d => some d
  | _ => none

/- The call of `_invoke` that an action runs; its cancellation comes from the caller. -/
def invocationOf : Action V → Option Nat
  | .invoke k => some k
  | .invokePut k => some k
  | .invokeFailed k _ => some k
  | .invokeCancelled k => some k
  | .invokeResume k => some k
  | .wake k => some k
  | _ => none

/- A step of context `c`: of one of its dispatches with its nodes, or of its call. -/
def Concerns (s : State V) (c : Nat) (a : Action V) : Prop :=
  (∃ d task, dispatchOf a = some d ∧ s.tasks[d]? = some task ∧ carries c task.event = true) ∨
  ∃ k invocation, invocationOf a = some k ∧ s.invocations[k]? = some invocation ∧ invocation.context = c

def collectsCancelled (task : DispatchTask V) : Bool :=
  task.nodes.all (fun node => node.outcome.isSome) && task.nodes.any (fun node => node.outcome.any NodeOutcome.isCancelled)

/- What the event loop does by itself. How code ends, that somebody cancels and that a put
raises is up to others. -/
def own (s : State V) : Action V → Bool
  | .dispatch _ .begin => true
  | .dispatch _ .visit => true
  | .dispatch _ .gate => true
  | .dispatch _ .cleanup => true
  | .notify _ => true
  | .notifyCancelled _ => true
  | .core _ _ => true
  | .startNode _ _ => true
  | .gather d .cancelled => s.tasks[d]?.any collectsCancelled
  | .gather _ _ => true
  | .put _ => true
  | .resume _ => true
  | .invoke _ => true
  | .invokePut _ => true
  | .invokeResume _ => true
  | .wake _ => true
  | _ => false

/- The attempt can go on by itself. -/
def Able (values : Values V) (s : State V) (c : Nat) : Prop :=
  ∃ a t, own s a = true ∧ Concerns s c a ∧ Runtime.step values s a = some t

section Awaits
variable (s : State V) (c : Nat)

def awaitsNode (task : DispatchTask V) : Bool :=
  task.nodes.any (fun node => node.input.isSome && node.outcome.isNone)

def isPlugin : Handler → Bool
  | .plugin _ => true
  | .graph _ => false

def awaitsPlugin (task : DispatchTask V) : Bool := match task.run.pc with
  | .execute i (.calling _ _) => task.run.chain[i]?.any isPlugin
  | .notifying i => task.run.chain[i]?.any isPlugin
  | _ => false

def isFull : Bool := decide (s.consumer.maxsize ≤ s.consumer.queue.length)

def awaitsRoom : Bool :=
  isFull s && (s.tasks.any (fun task => carries c task.event && task.work == .posting) ||
    s.invocations.any (fun invocation => invocation.context == c && invocation.stage == .posting))

/- An event of the attempt is in the queue or in the pending slot. -/
def awaitsConsumer : Bool :=
  s.consumer.queue.any (fun item => carries c item.event) ||
    s.consumer.pendingDispatch.any (fun pending => carries c pending.1.event)

/- The attempt waits for somebody else. -/
def awaits : Bool :=
  s.tasks.any (fun task => carries c task.event && (awaitsNode task || awaitsPlugin task)) ||
    awaitsRoom s c || awaitsConsumer s c

end Awaits

theorem awaitsTask (found : s.tasks[d]? = some task) (carried : carries c task.event = true)
    (waits : awaitsNode task = true ∨ awaitsPlugin task = true) : awaits s c = true := by
  have there : s.tasks.any (fun task => carries c task.event && (awaitsNode task || awaitsPlugin task)) = true :=
    List.any_eq_true.mpr ⟨task,List.mem_of_getElem? found,by simpa [carried] using waits⟩
  simp [awaits,there]

theorem ableTask (found : s.tasks[d]? = some task) (carried : carries c task.event = true) {a : Action V}
    (mine : dispatchOf a = some d) (alone : own s a = true) (taken : (Runtime.step values s a).isSome = true) :
    Able values s c := by
  obtain ⟨t,taken⟩ := Option.isSome_iff_exists.mp taken
  exact ⟨a,t,alone,.inl ⟨d,task,mine,found,carried⟩,taken⟩

theorem answerSome {phase : Dispatch.Phase} (calling : task.calling = some (g,phase)) (outcome : Dispatch.Outcome) :
    ∃ next, task.answer outcome = some next := by
  unfold DispatchTask.calling at calling
  split at calling <;> try contradiction
  rename_i i phase' parent pc
  split at calling <;> try contradiction
  rename_i h found
  simp [DispatchTask.answer,Dispatch.step,pc,found]

section Task
variable (found : s.tasks[d]? = some task)
include found

theorem notifySome {phase : Dispatch.Phase} (calling : task.calling = some (g,phase)) (notified : phase ≠ .coreFunc) :
    (Runtime.step values s (.notify d)).isSome = true := by
  obtain ⟨next,answered⟩ := answerSome calling (outcomeOf (notification s.world g task.failure phase task.event))
  simp [Runtime.step,found,calling,notified,answered]

theorem coreSome {h : Nat} (event : task.event = .dispatch h c) (calling : task.calling = some (g,.coreFunc))
    (idle : task.work = .idle) : (Runtime.step values s (.core d 0)).isSome = true := by
  have answers : ∀ (failure : Option PyError) outcome, ∃ next,
      ({task with failure := failure} : DispatchTask V).answer outcome = some next :=
    fun failure outcome =>
      answerSome (show ({task with failure := failure} : DispatchTask V).calling = some (g,.coreFunc) from calling) outcome
  have some_ : (core values s.world task g 0).isSome = true := by
    unfold core
    rw [event]
    simp only
    split
    · rename_i active
      have parts := active
      unfold World.isActiveContext at parts
      split at parts <;> try contradiction
      rename_i graph x owner there
      simp only [owner,there,bind,Option.bind_some,dispatchNode]
      split
      · obtain ⟨next,answered⟩ := answers task.failure (outcomeOf (graphFinish s.world g c))
        simp [answered]
      · split
        · rename_i error _
          obtain ⟨next,answered⟩ := answers (some error) .raised
          simp [answered]
        · rfl
    · obtain ⟨next,answered⟩ := answers task.failure .returned
      simp [answered]
  obtain ⟨pair,done⟩ := Option.isSome_iff_exists.mp some_
  simp [Runtime.step,found,calling,idle,done]

theorem gatherSome {h : Nat} {phase : Dispatch.Phase} (event : task.event = .dispatch h c)
    (calling : task.calling = some (g,phase)) (work : task.work = .gathering) {how : Gathered}
    (some_ : (gather values s.world task g c how).isSome = true) :
    (Runtime.step values s (.gather d how)).isSome = true := by
  obtain ⟨pair,done⟩ := Option.isSome_iff_exists.mp some_
  simp [Runtime.step,found,calling,event,Event.context,work,done]

theorem startSome {i h : Nat} {graph : Graph} (event : task.event = .dispatch h c)
    (owner : s.world.graphs[h]? = some graph) (there : s.world.contexts[c]? = some x)
    (member : task.nodes[i]? = some node) (unstarted : node.input = none) (open_ : node.outcome = none) :
    (Runtime.step values s (.startNode d i)).isSome = true := by
  simp [Runtime.step,found,event,owner,there,member,unstarted,open_]

end Task

theorem allReturnedSome {nodes : List (NodeTask V)} (all : ∀ node ∈ nodes, node.isReturned.isSome = true) :
    ∃ results, allReturned nodes = some results := by
  induction nodes with
  | nil => exact ⟨[],rfl⟩
  | cons head tail ih =>
    obtain ⟨result,first⟩ := Option.isSome_iff_exists.mp (all head List.mem_cons_self)
    obtain ⟨results,rest⟩ := ih (fun node member => all node (List.mem_cons_of_mem head member))
    exact ⟨result :: results,by simp [allReturned,first,rest]⟩

theorem gatherEnds {phase : Dispatch.Phase} {graph : Graph} (calling : task.calling = some (g,phase))
    (owner : w.graphs[g]? = some graph) (there : w.contexts[c]? = some x)
    (past : ∀ node ∈ task.nodes, node.outcome.isSome = true) :
    ∃ how, (gather values w task g c how).isSome = true ∧ (how = .cancelled → collectsCancelled task = true) := by
  have ended : task.nodes.all (fun node => node.outcome.isSome) = true := List.all_eq_true.mpr past
  by_cases raised : ∃ (i : Nat) (node : NodeTask V) (error : PyError), task.nodes[i]? = some node ∧ node.outcome = some (.raised error)
  · obtain ⟨i,node,error,member,outcome⟩ := raised
    obtain ⟨next,answered⟩ := answerSome calling (outcomeOf (failIfActive w g c error))
    exact ⟨.raised i,by simp [gather,member,outcome,ended,answered],fun same => by cases same⟩
  by_cases cancelled : ∃ node ∈ task.nodes, node.outcome = some .cancelled
  · obtain ⟨node,member,outcome⟩ := cancelled
    obtain ⟨next,answered⟩ := answerSome calling .cancelled
    refine ⟨.cancelled,by simp [gather,answered],fun _ => ?_⟩
    have one : task.nodes.any (fun node => node.outcome.any NodeOutcome.isCancelled) = true :=
      List.any_eq_true.mpr ⟨node,member,by rw [outcome]; rfl⟩
    simp [collectsCancelled,ended,one]
  · have all : ∀ node ∈ task.nodes, node.isReturned.isSome = true := by
      intro node member
      obtain ⟨outcome,at_⟩ := Option.isSome_iff_exists.mp (past node member)
      obtain ⟨i,place⟩ := List.getElem?_of_mem member
      cases outcome with
      | returned result => simp [NodeTask.isReturned,at_]
      | raised error => exact absurd ⟨i,node,error,place,at_⟩ raised
      | cancelled => exact absurd ⟨node,member,at_⟩ cancelled
    obtain ⟨results,returned⟩ := allReturnedSome all
    refine ⟨.returned,?_,fun same => by cases same⟩
    simp only [gather,returned,owner,there,bind,Option.bind_some]
    split
    · rfl
    · rename_i call _
      obtain ⟨next,answered⟩ := answerSome calling (outcomeOf call)
      simp [answered]

theorem gatheringGoes {phase : Dispatch.Phase} {graph : Graph} (found : s.tasks[d]? = some task)
    (event : task.event = .dispatch g c) (calling : task.calling = some (g,phase)) (work : task.work = .gathering)
    (owner : s.world.graphs[g]? = some graph) (there : s.world.contexts[c]? = some x) :
    Able values s c ∨ awaits s c = true := by
  have carried : carries c task.event = true := by simp [event,carries,Event.context]
  by_cases open_ : ∃ (i : Nat) (node : NodeTask V), task.nodes[i]? = some node ∧ node.outcome = none
  · obtain ⟨i,node,member,open_⟩ := open_
    cases input : node.input with
    | none => exact .inl (ableTask found carried (a := .startNode d i) rfl rfl
        (startSome found event owner there member input open_))
    | some copy =>
      refine .inr (awaitsTask found carried (.inl ?_))
      exact List.any_eq_true.mpr ⟨node,List.mem_of_getElem? member,by simp [input,open_]⟩
  · have past : ∀ node ∈ task.nodes, node.outcome.isSome = true := by
      intro node member
      obtain ⟨i,place⟩ := List.getElem?_of_mem member
      by_contra none_
      exact open_ ⟨i,node,place,by simpa using none_⟩
    obtain ⟨how,some_,collects⟩ := @gatherEnds V values s.world g c x task phase graph calling owner there past
    refine .inl (ableTask found carried (a := .gather d how) rfl ?_ (gatherSome found event calling work some_))
    cases how with
    | cancelled => simp [own,found,collects rfl]
    | returned => rfl
    | raised i => rfl

theorem coreGoes {graph : Graph} (found : s.tasks[d]? = some task) (event : task.event = .dispatch g c)
    (calling : task.calling = some (g,.coreFunc)) (unposted : task.posted = false) (waits : Waits task)
    (owner : s.world.graphs[g]? = some graph) (there : s.world.contexts[c]? = some x) :
    Able values s c ∨ awaits s c = true := by
  have carried : carries c task.event = true := by simp [event,carries,Event.context]
  cases work : task.work with
  | idle => exact .inl (ableTask found carried (a := .core d 0) rfl rfl (coreSome found event calling work))
  | gathering => exact gatheringGoes found event calling work owner there
  | posting =>
    by_cases room : s.consumer.queue.length < s.consumer.maxsize
    · refine .inl (ableTask found carried (a := .put d) rfl rfl ?_)
      simp [Runtime.step,found,calling,event,Event.context,work,post,Consumer.step,Consumer.State.putNowait,room]
    · have posts : s.tasks.any (fun task => carries c task.event && task.work == .posting) = true :=
        List.any_eq_true.mpr ⟨task,List.mem_of_getElem? found,by simp [carried,work]⟩
      exact .inr (by simp [awaits,awaitsRoom,isFull,not_lt.mp room,posts])
  | resuming =>
    rw [waits.resumed work] at unposted
    contradiction

/- A dispatch that owes its context something goes on, or waits. -/
theorem taskGoes {graph : Graph} (found : s.tasks[d]? = some task) (event : task.event = .dispatch g c)
    (works : Works s.world task) (ok : TaskOk sure s.world task) (holds : Holds sure g task)
    (mine : x.graphId = g) (unposted : task.posted = false)
    (open_ : unfinished (place task) task.run.pc = true)
    (owner : s.world.graphs[g]? = some graph) (there : s.world.contexts[c]? = some x) :
    Able values s c ∨ awaits s c = true := by
  have carried : carries c task.event = true := by simp [event,carries,Event.context]
  have last := placeFound holds.held
  rw [← placeOf event] at last
  -- up to the graph's own place every handler is in the chain
  have before : ∀ j ≤ place task, ∃ h, task.run.chain[j]? = some h := by
    intro j below
    have inside := Slots.inside last
    exact ⟨_,List.getElem?_eq_getElem (by omega)⟩
  have moves : ∀ b : Dispatch.Action, task.allows b = true → own s (.dispatch d b) = true →
      dispatchOf (.dispatch d b : Action V) = some d → (Dispatch.step Handler.flags task.run b).isSome = true →
      Able values s c ∨ awaits s c = true := by
    intro b allowed alone mine some_
    obtain ⟨run,taken⟩ := Option.isSome_iff_exists.mp some_
    exact .inl (ableTask found carried (a := .dispatch d b) mine alone (by simp [Runtime.step,found,allowed,taken]))
  cases pc : task.run.pc with
  | created => exact moves .begin rfl rfl rfl (by simp [Dispatch.step,pc])
  | visit j =>
    refine moves .visit rfl rfl rfl ?_
    simp only [Dispatch.step,pc]
    split
    · rfl
    · split <;> rfl
  | cleanup j =>
    refine moves .cleanup rfl rfl rfl ?_
    simp only [Dispatch.step,pc]
    split
    · rfl
    · split <;> rfl
  | execute j at_ =>
    rw [pc] at open_
    obtain ⟨h,member⟩ := before j (by simpa [unfinished] using open_)
    cases at_ with
    | gate => exact moves .gate rfl rfl rfl (by simp [Dispatch.step,pc,member])
    | calling phase parent =>
      cases h with
      | plugin flags =>
        exact .inr (awaitsTask found carried (.inr (by simp [awaitsPlugin,pc,member,isPlugin])))
      | graph g' =>
        have calling : task.calling = some (g',phase) := by simp [DispatchTask.calling,pc,member]
        by_cases core : phase = .coreFunc
        · subst core
          by_cases idle : task.work = .idle
          · exact .inl (ableTask found carried (a := .core d 0) rfl rfl (coreSome found event calling idle))
          · have same := worksOwner works idle calling (show task.event.context = some c by rw [event]; rfl) there
            rw [mine] at same
            subst same
            exact coreGoes found event calling unposted ok.waits owner there
        · exact .inl (ableTask found carried (a := .notify d) rfl rfl (notifySome found calling core))
  | notifying j =>
    rw [pc] at open_
    obtain ⟨h,member⟩ := before j (by simpa [unfinished] using open_)
    cases h with
    | plugin flags =>
      exact .inr (awaitsTask found carried (.inr (by simp [awaitsPlugin,pc,member,isPlugin])))
    | graph g' =>
      have notifying : task.notifying = some g' := by simp [DispatchTask.notifying,pc,member]
      exact .inl (ableTask found carried (a := .notifyCancelled d) rfl rfl
        (by simp [Runtime.step,found,notifying,Dispatch.step,pc]))
  | returned => rw [pc] at open_; contradiction
  | cancelled => rw [pc] at open_; contradiction

theorem invocationAble {a : Action V} (found : s.invocations[k]? = some invocation) (about : invocation.context = c)
    (mine : invocationOf a = some k) (alone : own s a = true) (taken : (Runtime.step values s a).isSome = true) :
    Able values s c := by
  obtain ⟨t,taken⟩ := Option.isSome_iff_exists.mp taken
  exact ⟨a,t,alone,.inr ⟨k,invocation,mine,found,about⟩,taken⟩

theorem invocationGoes {graph : Graph} (found : s.invocations[k]? = some invocation)
    (owes : owesPost c invocation = true) (owner : s.world.graphs[invocation.graphId]? = some graph)
    (there : s.world.contexts[c]? = some x) : Able values s c ∨ awaits s c = true := by
  simp only [owesPost,Bool.and_eq_true,Bool.or_eq_true,beq_iff_eq] at owes
  obtain ⟨about,stage | stage⟩ := owes
  · refine .inl (invocationAble found about (a := .invoke k) rfl rfl ?_)
    subst about
    simp only [Runtime.step,found,owner,there,stage,bind,Option.bind_some,if_pos]
    split
    · split <;> rfl
    · rfl
  · by_cases room : s.consumer.queue.length < s.consumer.maxsize
    · refine .inl (invocationAble found about (a := .invokePut k) rfl rfl ?_)
      simp [Runtime.step,found,stage,post,Consumer.step,Consumer.State.putNowait,room]
    · have posts : s.invocations.any (fun invocation => invocation.context == c && invocation.stage == .posting) = true :=
        List.any_eq_true.mpr ⟨invocation,List.mem_of_getElem? found,by simp [about,stage]⟩
      exact .inr (by simp [awaits,awaitsRoom,isFull,not_lt.mp room,posts])

/- A running attempt of which no event is lost can go on, or waits for somebody else. -/
theorem progress (conserved : Conserved whole s) (sound : whole c) (there : s.world.contexts[c]? = some x)
    (running : x.status = .running) : Able values s c ∨ awaits s c = true := by
  have one := conserved.one c x sound there running
  have owned := conserved.ready.managed.owned c x there
  obtain ⟨graph,owner⟩ : ∃ graph, s.world.graphs[x.graphId]? = some graph := ⟨_,List.getElem?_eq_getElem owned⟩
  unfold obligations at one
  by_cases posts : s.invocations.countP (owesPost c) = 0
  · by_cases queued : s.consumer.queue.countP (fun item => carries c item.event) = 0
    · by_cases pending : s.consumer.pendingDispatch.toList.countP (fun pending => carries c pending.1.event) = 0
      · obtain ⟨task,member,owing⟩ := List.countP_pos_iff.mp (show 0 < s.tasks.countP (owes c) by omega)
        obtain ⟨d,found⟩ := List.getElem?_of_mem member
        simp only [owes,unposted,Bool.and_eq_true,Bool.not_eq_true'] at owing
        obtain ⟨⟨carried,unposted⟩,open_⟩ := owing
        obtain ⟨g,event⟩ := carriesCases carried
        have ok := conserved.tasks d task found
        have mine := (mentionFound (ok.mention g c event) there).1
        rw [mine] at owner
        exact taskGoes found event (conserved.ready.works d task found) ok (ok.running g c x event there running)
          mine unposted open_ owner there
      · obtain ⟨slot,member,carried⟩ := List.countP_pos_iff.mp (Nat.pos_of_ne_zero pending)
        exact .inr (by simp [awaits,awaitsConsumer,Option.mem_toList.mp member,carried])
    · obtain ⟨item,member,carried⟩ := List.countP_pos_iff.mp (Nat.pos_of_ne_zero queued)
      have waits : s.consumer.queue.any (fun item => carries c item.event) = true :=
        List.any_eq_true.mpr ⟨item,member,carried⟩
      exact .inr (by simp [awaits,awaitsConsumer,waits])
  · obtain ⟨invocation,member,owes⟩ := List.countP_pos_iff.mp (Nat.pos_of_ne_zero posts)
    obtain ⟨k,found⟩ := List.getElem?_of_mem member
    have about : invocation.context = c := by
      simp only [owesPost,Bool.and_eq_true,beq_iff_eq] at owes
      exact owes.1
    have mine := (mentionFound (about ▸ conserved.invocations k invocation found) there).1
    rw [mine] at owner
    exact invocationGoes found owes owner there

end Apixis.Progress
