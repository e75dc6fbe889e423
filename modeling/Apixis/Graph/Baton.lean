import Apixis.Graph.Obligation

/-! No dispatch is lost and none is duplicated. A context that is admitted starts
with the obligation of its own call of `_invoke`; every later step keeps it, moves
it to another place or ends the context. -/
namespace Apixis.Baton
open NodeGraph hiding Action step initial
open ApplyCommand Lifecycle Moves Obligation Apixis.Runtime

variable {V : Type} {values : Values V} {w v : World V} {s t : State V} {g c d k : Nat}
  {x y : GraphContext V} {a : Action V} {task next : DispatchTask V} {invocation : Invocation}
  {whole : Nat → Prop}

def foreign (event : Event) : Bool := event.context.isNone

/- The step loses no event of context `c`: it neither clears one from the queue, nor
fails to resolve or prepare one, nor cancels a dispatch before it has started. -/
def spares (c : Nat) (s : State V) : Action V → Bool
  | .consumer .clear => s.consumer.queue.all (fun item => !carries c item.event)
  | .consumer (.dequeue _ (.resolved _)) => true
  | .consumer (.dequeue _ _) => s.consumer.queue.head?.all (fun item => !carries c item.event)
  | .consumer (.launch _ .launched) => true
  | .consumer (.launch _ _) => s.consumer.pendingDispatch.all (fun pending => !carries c pending.1.event)
  | .dispatch d .kill => s.tasks[d]?.all (fun task => !carries c task.event)
  | _ => true

theorem carriesCases {event : Event} (carried : carries c event = true) :
    ∃ g, event = .dispatch g c := by
  have context : event.context = some c := by simpa [carries] using carried
  cases event with
  | other k => contradiction
  | dispatch g e =>
    cases context
    exact ⟨g,rfl⟩

/- The contexts that the event is about are all in `whole`. -/
def Within (whole : Nat → Prop) (event : Event) : Prop := ∀ c, carries c event = true → whole c

theorem within {event : Event} (sure : whole c) (carried : carries c event = true) : Within whole event := by
  intro e other
  obtain ⟨g,rfl⟩ := carriesCases carried
  obtain ⟨h,same⟩ := carriesCases other
  cases same
  exact sure

theorem foreignCarries {event : Event} (away : foreign event = true) : carries c event = false := by
  cases carried : carries c event with
  | false => rfl
  | true =>
    obtain ⟨g,rfl⟩ := carriesCases carried
    contradiction

/- An event that waits for its dispatch, with the chain that was captured. -/
def Carried (w : World V) (event : Event) (chain : List Handler) : Prop :=
  ∀ g c, event = .dispatch g c → Mention w g c ∧
    ∀ x, w.contexts[c]? = some x → x.status = .running → chain.count (.graph g) = 1

theorem carriedPersists {event : Event} {chain : List Handler} (managed : Managed w)
    (persists : Persists w v) (carried : Carried w event chain) : Carried v event chain := by
  intro g c about
  obtain ⟨mention,once⟩ := carried g c about
  refine ⟨mentionPersists mention persists,?_⟩
  intro y there running
  obtain ⟨x,found,_,started⟩ := mention
  exact once x found (wasRunning managed persists found started there running)

def waiting (consumer : Consumer.State Event Handler) (c : Nat) : Nat :=
  consumer.queue.countP (fun item => carries c item.event) +
  consumer.pendingDispatch.toList.countP (fun pending => carries c pending.1.event)

def pieces (s : State V) (c : Nat) : Nat :=
  s.invocations.countP (owesPost c) + waiting s.consumer c + s.tasks.countP (unposted c)

abbrev nowhere : Nat → Prop := fun _ => False

/- `whole` are contexts of which the run has lost no event. -/
structure Conserved (whole : Nat → Prop) (s : State V) : Prop where
  ready : Ready s
  accounted : Conservation.Accounted s.consumer
  tasks : ∀ (d : Nat) task, s.tasks[d]? = some task → TaskOk (Within whole task.event) s.world task
  invocations : ∀ (k : Nat) invocation, s.invocations[k]? = some invocation →
    Mention s.world invocation.graphId invocation.context
  queued : ∀ item ∈ s.consumer.queue, ∀ g c, item.event = .dispatch g c → Mention s.world g c
  pending : ∀ item chain, s.consumer.pendingDispatch = some (item,chain) →
    Carried s.world item.event chain
  few : ∀ c, pieces s c ≤ 1
  one : ∀ (c : Nat) x, whole c → s.world.contexts[c]? = some x → x.status = .running →
    obligations s c = 1
  single : ∀ c, batches s c ≤ 1

theorem initialConserved (m : Nat) : Conserved whole (Runtime.initial m : State V) := by
  refine ⟨initialReady m,Conservation.initialAccounted m,by simp [Runtime.initial],
    by simp [Runtime.initial],nofun,nofun,fun _ => by simp [pieces,waiting,Runtime.initial,Consumer.initial],
    ?_,?_⟩
  · simp [Runtime.initial,NodeGraph.initial]
  · simp [batches,Runtime.initial]

section Queue
variable {b : Consumer.Action Event Handler} {consumer : Consumer.State Event Handler}

theorem postPasses (known : Conservation.Accounted s.consumer)
    (room : post s.consumer g c = some consumer) :
    ∃ item : Consumer.Item Event, item.event = .dispatch g c ∧ Conservation.Accounted consumer ∧
      consumer.queue = s.consumer.queue ++ [item] ∧
      consumer.pendingDispatch = s.consumer.pendingDispatch := by
  have after := Conservation.stepAccounted known room
  simp only [post,Consumer.step,Consumer.State.putNowait] at room
  split at room <;> try contradiction
  cases Option.some.inj room
  exact ⟨_,rfl,after,rfl,rfl⟩

theorem postWaiting {e : Nat} (known : Conservation.Accounted s.consumer)
    (room : post s.consumer g e = some consumer) :
    waiting consumer c = waiting s.consumer c + if e = c then 1 else 0 := by
  obtain ⟨item,event,_,queue,slot⟩ := postPasses known room
  have carried : (carries c item.event = true) = (e = c) := by
    rw [event]
    simp [carries,Event.context]
  simp only [waiting,queue,slot,List.countP_append,List.countP_cons,List.countP_nil,carried]
  omega

theorem consumerWaiting (known : Conservation.Accounted s.consumer) (permitted : s.permits b = true)
    (taken : Consumer.step s.consumer b = some consumer) :
    waiting consumer c + (s.launched b).countP (unposted c) ≤ waiting s.consumer c ∧
    (spares c s (.consumer b) = true →
      waiting consumer c + (s.launched b).countP (unposted c) = waiting s.consumer c) := by
  have passes := Conservation.passes known taken
  unfold waiting
  generalize consumer.queue = queue at passes ⊢
  generalize consumer.pendingDispatch = slot at passes ⊢
  cases passes with
  | kept idle =>
    have none_ : s.launched b = [] := by
      unfold State.launched
      split
      · rename_i u
        exact absurd rfl (idle u)
      · rfl
    rw [none_]
    exact ⟨Nat.le_refl _,fun _ => rfl⟩
  | put =>
    rename_i via item
    have away := foreignCarries (c := c) (show foreign item.event = true from permitted)
    simp [State.launched,List.countP_append,away]
  | cleared =>
    refine ⟨by simp [State.launched],?_⟩
    intro spared
    have none_ : s.consumer.queue.countP (fun item => carries c item.event) = 0 :=
      List.countP_eq_zero.mpr (fun item member => by simpa using List.all_eq_true.mp spared item member)
    simp [State.launched,none_]
  | resolved queue_ free =>
    simp only [queue_,free,State.launched,Option.toList_some,Option.toList_none,List.countP_cons,
      List.countP_nil]
    omega
  | unresolved queue_ lost =>
    rename_i u item resolution
    refine ⟨?_,?_⟩
    · simp only [queue_,State.launched,List.countP_cons,List.countP_nil]
      omega
    · intro spared
      have away : carries c item.event = false := by
        cases resolution with
        | resolved handlers => exact absurd rfl (lost handlers)
        | failed => simpa [spares,queue_] using spared
        | fatal => simpa [spares,queue_] using spared
      simp [queue_,State.launched,away]
  | launched pending =>
    rename_i u item chain
    have owing : unposted (V := V) c (DispatchTask.new item.event chain) = carries c item.event := by
      simp [unposted,DispatchTask.new]
    simp only [pending,State.launched,Option.toList_some,Option.toList_none,List.countP_cons,
      List.countP_nil,owing]
    omega
  | unprepared pending lost =>
    rename_i u item chain preparation
    have none_ : s.launched (.launch u preparation) = [] := by
      cases preparation with
      | launched => exact absurd rfl lost
      | failed => rfl
      | fatal => rfl
    refine ⟨by simp [none_],?_⟩
    intro spared
    have away : carries c item.event = false := by
      cases preparation with
      | launched => exact absurd rfl lost
      | failed => simpa [spares,pending] using spared
      | fatal => simpa [spares,pending] using spared
    simp [pending,none_,away]

theorem launchedOwes : (s.launched b).countP (owes c) = (s.launched b).countP (unposted c) := by
  refine List.countP_congr ?_
  intro task member
  obtain ⟨_,item,chain,_,_,rfl⟩ := launchedNew member
  simp [owes,DispatchTask.new,Dispatch.initial,unfinished]

theorem consumerQueued (known : Conservation.Accounted s.consumer) (permitted : s.permits b = true)
    (taken : Consumer.step s.consumer b = some consumer) :
    (∀ item ∈ consumer.queue, foreign item.event = true ∨ item ∈ s.consumer.queue) ∧
    ∀ item chain, consumer.pendingDispatch = some (item,chain) →
      s.consumer.pendingDispatch = some (item,chain) ∨
      item ∈ s.consumer.queue ∧ captures s.world chain item.event = true := by
  have passes := Conservation.passes known taken
  generalize consumer.queue = queue at passes ⊢
  generalize consumer.pendingDispatch = slot at passes ⊢
  cases passes with
  | kept idle => exact ⟨fun _ member => .inr member,fun _ _ same => .inl same⟩
  | put =>
    refine ⟨?_,fun _ _ same => .inl same⟩
    intro item member
    rcases List.mem_append.mp member with old | last
    · exact .inr old
    · cases List.mem_singleton.mp last
      exact .inl permitted
  | cleared => exact ⟨nofun,fun _ _ same => .inl same⟩
  | resolved queue_ free =>
    refine ⟨fun _ member => .inr (by rw [queue_]; exact List.mem_cons_of_mem _ member),?_⟩
    intro item chain same
    cases same
    refine .inr ⟨by rw [queue_]; exact List.mem_cons_self,?_⟩
    simpa [State.permits,queue_] using permitted
  | unresolved queue_ lost =>
    exact ⟨fun _ member => .inr (by rw [queue_]; exact List.mem_cons_of_mem _ member),
      fun _ _ same => .inl same⟩
  | launched pending => exact ⟨fun _ member => .inr member,nofun⟩
  | unprepared pending lost => exact ⟨fun _ member => .inr member,nofun⟩

end Queue

theorem mentionFound (mention : Mention w g c) (found : w.contexts[c]? = some x) :
    x.graphId = g ∧ x.runId ≠ none := by
  obtain ⟨z,there,mine,started⟩ := mention
  cases Option.some.inj (found.symm.trans there)
  exact ⟨mine,started⟩

/- Whoever still runs after a step that mentions it has run before. -/
theorem mentionRan (ready : Ready s) (persists : Persists s.world v) (mention : Mention s.world g c)
    (there : v.contexts[c]? = some y) (running : y.status = .running) :
    ∃ x, s.world.contexts[c]? = some x ∧ x.graphId = g ∧ x.status = .running ∧ y.graphId = g := by
  obtain ⟨x,found,mine,started⟩ := mention
  obtain ⟨z,same,goes⟩ := persists c x found
  cases Option.some.inj (there.symm.trans same)
  exact ⟨x,found,mine,wasRunning ready.managed persists found started there running,
    goes.graphId.trans mine⟩

theorem taskOwes (sure : whole c) (ready : Ready s) (ok : TaskOk (Within whole task.event) s.world task)
    (after : TaskOk (Within whole next.event) v next) (persists : Persists s.world v) (moved : TaskStep values s.world d task a next v)
    (there : v.contexts[c]? = some y) (running : y.status = .running) :
    owes c next = owes c task := by
  obtain ⟨event,posted⟩ := taskKept moved
  cases open_ : unposted c task with
  | false =>
    have still : unposted c next = false := by
      unfold unposted at open_ ⊢
      rw [event,posted]
      exact open_
    simp only [owes,open_,still,Bool.false_and]
  | true =>
    have parts := open_
    simp only [unposted,Bool.and_eq_true,Bool.not_eq_true'] at parts
    obtain ⟨g,about⟩ := carriesCases parts.1
    obtain ⟨x,found,_,ran,_⟩ := mentionRan ready persists (ok.mention g c about) there running
    have still : unposted c next = true := by
      unfold unposted
      rw [event,posted]
      exact open_
    have within : Within whole task.event := within sure parts.1
    have before := (ok.running g c x about found ran).owing within parts.2
    have later := (after.running g c y (event.trans about) there running).owing (event ▸ within)
      (posted.trans parts.2)
    simp only [owes,open_,still,before,later]

theorem invocationOwes {stage : Stage} (ready : Ready s) (managed : Managed v)
    (persists : Persists s.world v) (mention : Mention s.world invocation.graphId invocation.context)
    (moved : InvocationStep values s.world k invocation a stage v)
    (there : v.contexts[c]? = some y) (running : y.status = .running) :
    owesPost c {invocation with stage := stage} = owesPost c invocation := by
  by_cases about : invocation.context = c
  · subst about
    obtain ⟨x,found,mine,ran,owner⟩ := mentionRan ready persists mention there running
    have live := ownerActive managed there owner running
    have lives := ownerActive ready.managed found mine ran
    have refuses : ∀ error, ¬ (PyError.stateOf (graphFail s.world invocation.graphId
        invocation.context error)).isActiveContext invocation.graphId invocation.context = true := by
      intro error active
      rw [closesInactive ready.managed rfl (fun _ => rfl)
        (graphFailCloses ready.managed invocation.graphId invocation.context error)] at active
      contradiction
    cases moved with
    | refused at_ owner known active invalid => exact absurd live (refuses _)
    | targeted at_ owner known active valid => simp only [owesPost,at_]; rfl
    | late at_ known inactive =>
      rw [lives] at inactive
      contradiction
    | failed at_ => exact absurd live (refuses _)
    | cancelled at_ =>
      have past := closesInactive ready.managed rfl (fun _ => rfl)
        (cancelIfRunningCloses ready.managed invocation.context found)
      rw [mine,live] at past
      contradiction
    | resume at_ => simp only [owesPost,at_]; rfl
    | wake at_ owner known done woken => simp only [owesPost,at_]; rfl
  · have away : (invocation.context == c) = false := by simpa using about
    simp only [owesPost,away,Bool.false_and]

/- No step of a call of `_invoke` makes it owe what it has not owed before. -/
theorem invocationFewer {stage : Stage} (moved : InvocationStep values w k invocation a stage v)
    (owing : owesPost c {invocation with stage := stage} = true) : owesPost c invocation = true := by
  simp only [owesPost,Bool.and_eq_true] at owing ⊢
  cases moved with
  | targeted at_ owner known active valid => exact ⟨owing.1,by rw [at_]; rfl⟩
  | _ => exact absurd owing.2 (by decide)

theorem taskBatching (moved : TaskStep values s.world d task a next v) :
    (batching c next = true → batching c task = true) ∨
    ∃ g h e x graph now names y, a = .core d now ∧ task.calling = some (g,.coreFunc) ∧
      task.work = .idle ∧ task.event = .dispatch h e ∧ s.world.isActiveContext g e = true ∧
      s.world.contexts[e]? = some x ∧ s.world.graphs[g]? = some graph ∧
      x.targetNodeName ≠ .node END ∧ executeNode values graph x now = .ok (names,y) := by
  have answered : ∀ (task : DispatchTask V) outcome, task.answer outcome = some next →
      batching c next = true → batching c task = true := by
    intro task outcome answered busy
    obtain ⟨run,_,rfl⟩ := answerCases answered
    unfold batching at busy ⊢
    simp only [Bool.and_eq_true,Bool.or_eq_true,beq_iff_eq] at busy ⊢
    obtain ⟨carried,gathering | open_⟩ := busy
    · contradiction
    · exact ⟨carried,.inr open_⟩
  -- nodes that have been set, one by one, from nodes that were open
  have nodes : ∀ (i : Nat) node node', task.nodes[i]? = some node → node.outcome = none →
      batching c {task with nodes := task.nodes.set i node'} = true → batching c task = true := by
    intro i node node' there open_ busy
    unfold batching at busy ⊢
    simp only [Bool.and_eq_true,Bool.or_eq_true] at busy ⊢
    refine ⟨busy.1,.inr ?_⟩
    refine List.any_eq_true.mpr ⟨node,List.mem_of_getElem? there,?_⟩
    rw [open_]
    rfl
  cases moved with
  | dispatch allowed_ taken => exact .inl id
  | notify calling notified done => exact .inl (answered _ _ done)
  | notifyCancelled notifying taken => exact .inl id
  | coreIdle calling idle inactive done => exact .inl (answered _ _ done)
  | coreFinish calling idle event active there end_ done => exact .inl (answered _ _ done)
  | coreRaise calling idle event active there owner more raised done =>
    rename_i now g h c' x graph error
    exact .inl (answered {task with failure := some error} _ done)
  | coreBegin calling idle event active there owner more begun =>
    exact .inr ⟨_,_,_,_,_,_,_,_,rfl,calling,idle,event,active,there,owner,more,begun⟩
  | startNode event there owner known unstarted open_ => exact .inl (nodes _ _ _ there open_)
  | endNode there open_ started => exact .inl (nodes _ _ _ there open_)
  | gatherCancelled calling context work done => exact .inl (answered _ _ done)
  | gatherRaised calling context work there raised past done => exact .inl (answered _ _ done)
  | gathered calling context work returned owner there stopped done => exact .inl (answered _ _ done)
  | committed calling context work returned owner there goes =>
    refine .inl ?_
    intro busy
    unfold batching at busy ⊢
    simp only [Bool.and_eq_true,Bool.or_eq_true,beq_iff_eq] at busy ⊢
    obtain ⟨carried,gathering | open_⟩ := busy
    · contradiction
    · exact ⟨carried,.inr open_⟩
  | putFailed calling context work done => exact .inl (answered _ _ done)
  | postCancelled work done => exact .inl (answered _ _ done)
  | resume work done => exact .inl (answered _ _ done)

/- A batch belongs to a task that has put no new event. -/
theorem batchUnposted {sure : Prop} (ok : TaskOk sure w task) (busy : batching c task = true) :
    unposted c task = true := by
  unfold batching at busy
  simp only [Bool.and_eq_true,Bool.or_eq_true,beq_iff_eq] at busy
  obtain ⟨carried,rest⟩ := busy
  have put : task.posted = false := by
    rcases rest with gathering | open_
    · exact ok.waits.unposted (.inl gathering)
    · cases posted : task.posted with
      | false => rfl
      | true =>
        obtain ⟨node,member,none_⟩ := List.any_eq_true.mp open_
        exact absurd (Option.isNone_iff_eq_none.mp none_)
          (ok.waits.past (.inr (.inr posted)) node member)
  simp [unposted,carried,put]

/- When a batch starts, no other batch of its context is running. -/
theorem batchAlone (conserved : Conserved whole s) (found : s.tasks[d]? = some task)
    (calling : task.calling = some (g,.coreFunc)) (idle : task.work = .idle) {h : Nat}
    (event : task.event = .dispatch h c) (active : s.world.isActiveContext g c = true)
    (there : s.world.contexts[c]? = some x) : s.tasks.countP (batching c) = 0 := by
  have ok := conserved.tasks d task found
  obtain ⟨rfl,running,holds⟩ := coreRunning conserved.ready ok event active there
  obtain ⟨put,empty⟩ := callingEarly holds event calling idle
  have mine : unposted c task = true := by simp [unposted,event,put,carries,Event.context]
  have few : s.tasks.countP (unposted c) ≤ 1 := by
    have all := conserved.few c
    unfold pieces at all
    omega
  refine List.countP_eq_zero.mpr ?_
  intro other member busy
  obtain ⟨e,known⟩ := List.getElem?_of_mem member
  have also := batchUnposted (conserved.tasks e other known) busy
  have same := Slots.countUnique (unposted c) few found known mine also
  subst same
  cases Option.some.inj (found.symm.trans known)
  unfold batching at busy
  rw [idle,empty] at busy
  simp at busy

theorem obligationsSplit : obligations s c =
    s.invocations.countP (owesPost c) + waiting s.consumer c + s.tasks.countP (owes c) := by
  unfold obligations waiting
  omega

theorem startedFresh {b : NodeGraph.Action V}
    (performed : NodeGraph.perform values.copyable s.world b = some (.ok w))
    (member : invocation ∈ s.started b) : Mention w invocation.graphId invocation.context ∧
      invocation.stage = .admitted ∧
      ∀ x, s.world.contexts[invocation.context]? = some x → x.status = .pending := by
  cases b with
  | beginInvocation h state context =>
    have new : invocation = ⟨h,chosen s.world context,.admitted⟩ := by
      cases context <;> exact List.mem_singleton.mp member
    subst new
    obtain ⟨graph,owner,last⟩ := Option.bind_eq_some_iff.mp performed
    obtain ⟨_,u,x,grown,found,mine,pending,_,rfl⟩ := invocationOk (Option.some.inj last)
    refine ⟨⟨bound x h u.runs,Slots.setSame found,mine,by simp [bound]⟩,rfl,?_⟩
    intro z known
    rcases grown with rfl | ⟨rfl,d,prepared,rfl,_,rfl⟩
    · cases Option.some.inj (found.symm.trans known)
      exact pending
    · have inside := Slots.inside known
      simp [chosen] at inside
  | _ => contradiction

theorem newlyRunning (ready : Ready s) (taken : Runtime.Step values s a t)
    (there : t.world.contexts[c]? = some y) (running : y.status = .running)
    (idle : ∀ x, s.world.contexts[c]? = some x → x.status ≠ .running) :
    ∃ g, t.consumer = s.consumer ∧ t.tasks = s.tasks ∧
      t.invocations = s.invocations ++ [⟨g,c,.admitted⟩] := by
  have moved := stepMoves ready taken
  have persists := stepPersists ready taken
  have admits : ∃ g state context, a = .graph (.beginInvocation g state context) := by
    cases found : s.world.contexts[c]? with
    | none =>
      cases moved.born c y there found with
      | created owner copied => contradiction
      | invoked owner live copied valid => exact ⟨_,_,_,rfl⟩
      | restored owner sourced valid latest => contradiction
    | some x =>
      obtain ⟨z,same,move⟩ := moved.moves c x found
      cases Option.some.inj (there.symm.trans same)
      have still := idle x found
      cases move with
      | same => exact absurd running still
      | bound owner live mine pending valid => exact ⟨_,_,_,rfl⟩
      | ended permitted cause =>
        rename_i status value
        have final := causeFinal cause
        rw [show status = .running from running] at final
        contradiction
      | interrupted known about completion => exact absurd running still
      | targeted known about stage owner ran valid => exact absurd ran still
      | began known context calling idle owner ran more begun => exact absurd ran still
      | committed known context work owner ran returned applied valid => exact absurd ran still
      | refused known context work owner ran returned applied => exact absurd ran still
      | overrun known context work owner ran returned applied invalid => exact absurd ran still
  obtain ⟨g,state,context,rfl⟩ := admits
  have away : ∀ x, s.world.contexts[c]? = some x → x.runId = none := by
    intro x found
    cases started : x.runId with
    | none => rfl
    | some r =>
      have ran := wasRunning ready.managed persists found (by rw [started]; simp) there running
      exact absurd ran (idle x found)
  cases taken with
  | accepted open_ performed =>
    have sound := soundPerform ready.managed performed
    have shaped := sound.managed.shaped c y there
    unfold Shaped at shaped
    rw [running] at shaped
    refine ⟨g,rfl,rfl,?_⟩
    rcases sound.starts c y there (Option.isSome_iff_ne_none.mp shaped.1) with new | ⟨x,found,started⟩
    · have new : chosen s.world context = c := Option.some.inj new
      subst new
      cases context <;> rfl
    · exact absurd (away x found) started
  | rejected open_ performed =>
    obtain ⟨_,rfl⟩ := soundPerform ready.managed performed
    exact absurd running (idle y there)
  | task found step => cases step
  | invocation found step => cases step

theorem piecesNone (conserved : Conserved whole s) (idle : ∀ g, ¬ Mention s.world g c) :
    pieces s c = 0 := by
  have posts : s.invocations.countP (owesPost c) = 0 := by
    refine List.countP_eq_zero.mpr ?_
    intro invocation member owing
    obtain ⟨k,known⟩ := List.getElem?_of_mem member
    have about : invocation.context = c := by
      simp only [owesPost,Bool.and_eq_true,beq_iff_eq] at owing
      exact owing.1
    exact idle _ (about ▸ conserved.invocations k invocation known)
  have queued : s.consumer.queue.countP (fun item => carries c item.event) = 0 := by
    refine List.countP_eq_zero.mpr ?_
    intro item member carried
    obtain ⟨g,about⟩ := carriesCases carried
    exact idle g (conserved.queued item member g c about)
  have pending : s.consumer.pendingDispatch.toList.countP
      (fun pending => carries c pending.1.event) = 0 := by
    refine List.countP_eq_zero.mpr ?_
    intro slot member carried
    obtain ⟨g,about⟩ := carriesCases carried
    exact idle g (conserved.pending slot.1 slot.2 (Option.mem_toList.mp member) g c about).1
  have tasks : s.tasks.countP (unposted c) = 0 := by
    refine List.countP_eq_zero.mpr ?_
    intro task member open_
    obtain ⟨d,known⟩ := List.getElem?_of_mem member
    simp only [unposted,Bool.and_eq_true] at open_
    obtain ⟨g,about⟩ := carriesCases open_.1
    exact idle g ((conserved.tasks d task known).mention g c about)
  unfold pieces waiting
  omega

theorem obligationsFew : obligations s c ≤ pieces s c := by
  have less : s.tasks.countP (owes c) ≤ s.tasks.countP (unposted c) := by
    refine List.countP_mono_left ?_
    intro task _ owing
    simp only [owes,Bool.and_eq_true] at owing
    exact owing.1
  rw [obligationsSplit]
  unfold pieces
  omega

theorem startedNone {b : NodeGraph.Action V} (conserved : Conserved whole s)
    (performed : NodeGraph.perform values.copyable s.world b = some (.ok w))
    (member : invocation ∈ s.started b) : ∀ g, ¬ Mention s.world g invocation.context := by
  rintro g ⟨x,found,_,started⟩
  obtain ⟨_,_,pending⟩ := startedFresh performed member
  have shaped := conserved.ready.managed.shaped _ x found
  unfold Shaped at shaped
  rw [pending x found] at shaped
  exact started shaped.1

theorem startedFew (b : NodeGraph.Action V) : (s.started b).length ≤ 1 := by
  unfold State.started
  split <;> simp

theorem fewStep (conserved : Conserved whole s) (taken : Runtime.Step values s a t) (c : Nat) :
    pieces t c ≤ 1 := by
  have before := conserved.few c
  unfold pieces at before ⊢
  cases taken with
  | accepted open_ performed =>
    rename_i b w
    simp only [List.countP_append]
    by_cases about : (s.started b).countP (owesPost c) = 0
    · omega
    · obtain ⟨invocation,member,owing⟩ := List.countP_pos_iff.mp (Nat.pos_of_ne_zero about)
      have same : invocation.context = c := by
        simp only [owesPost,Bool.and_eq_true,beq_iff_eq] at owing
        exact owing.1
      have none_ := piecesNone conserved (same ▸ startedNone conserved performed member)
      have short := List.countP_le_length (p := owesPost c) (l := s.started b)
      have single := startedFew (s := s) b
      unfold pieces at none_
      omega
  | rejected open_ performed => exact before
  | consumer permitted went =>
    rename_i b consumer
    have moved := (consumerWaiting (c := c) conserved.accounted permitted went).1
    simp only [List.countP_append]
    omega
  | task known moved =>
    rename_i d task next w
    obtain ⟨event,posted⟩ := taskKept moved
    have same : unposted c next = unposted c task := by
      unfold unposted
      rw [event,posted]
    simp only [State.setTask,Slots.countSetSame (unposted c) known same]
    exact before
  | put known calling context work room =>
    rename_i d task g phase e consumer
    have put := postWaiting (c := c) conserved.accounted room
    have moved := Slots.countSet (y := {task with work := .resuming, posted := true}) (unposted c) known
    have gone : unposted c {task with work := .resuming, posted := true} = false := Bool.and_false _
    have open_ : (unposted c task = true) = (e = c) := by
      have put := (conserved.tasks d task known).waits.unposted (.inr work)
      simp [unposted,carries,context,put]
    simp only [State.setTask,put]
    simp only [gone,open_,Bool.false_eq_true,if_false] at moved
    omega
  | invocation known moved =>
    rename_i k invocation stage w
    have fewer := invocationFewer (c := c) moved
    have counted := Slots.countSet (y := {invocation with stage := stage}) (owesPost c) known
    simp only [State.setInvocation]
    split at counted
    · rename_i owed
      split at counted <;> omega
    · rename_i free
      have still : ¬ owesPost c {invocation with stage := stage} = true := fun owing => free (fewer owing)
      rw [if_neg still] at counted
      omega
  | invokePut known stage room =>
    rename_i k invocation consumer
    have put := postWaiting (c := c) conserved.accounted room
    have moved := Slots.countSet (y := {invocation with stage := .resuming}) (owesPost c) known
    have gone : owesPost c {invocation with stage := .resuming} = false := Bool.and_false _
    have owed : (owesPost c invocation = true) = (invocation.context = c) := by
      simp [owesPost,stage]
    simp only [State.setInvocation,put]
    simp only [gone,owed,Bool.false_eq_true,if_false] at moved
    omega
  | interrupt known there stage => exact before

theorem oneBegun (conserved : Conserved whole s) (taken : Runtime.Step values s a t)
    (there : t.world.contexts[c]? = some y) (running : y.status = .running)
    (idle : ∀ x, s.world.contexts[c]? = some x → x.status ≠ .running) : obligations t c = 1 := by
  have persists := stepPersists conserved.ready taken
  have none_ : ∀ g, ¬ Mention s.world g c := by
    intro g mention
    obtain ⟨x,found,_,ran,_⟩ := mentionRan conserved.ready persists mention there running
    exact idle x found ran
  have before : obligations s c = 0 :=
    Nat.le_zero.mp (piecesNone conserved none_ ▸ obligationsFew)
  obtain ⟨g,consumer,tasks,invocations⟩ := newlyRunning conserved.ready taken there running idle
  unfold obligations at before ⊢
  rw [consumer,tasks,invocations,List.countP_append]
  simp only [owesPost,List.countP_cons,List.countP_nil,beq_self_eq_true,Bool.true_or,Bool.and_true,
    if_true]
  omega

/- While the context runs its obligation is kept, or moved to another place. -/
theorem oneKept (sure : whole c) (conserved : Conserved whole s) (spared : spares c s a = true)
    (taken : Runtime.Step values s a t) (after : ∀ (d : Nat) task, t.tasks[d]? = some task →
      TaskOk (Within whole task.event) t.world task) (found : s.world.contexts[c]? = some x) (ran : x.status = .running)
    (there : t.world.contexts[c]? = some y) (running : y.status = .running) :
    obligations t c = obligations s c := by
  have ready := conserved.ready
  have persists := stepPersists ready taken
  have managed := (readyStep ready taken).managed
  rw [obligationsSplit,obligationsSplit]
  cases taken with
  | accepted open_ performed =>
    rename_i b w
    have none_ : (s.started b).countP (owesPost c) = 0 := by
      refine List.countP_eq_zero.mpr ?_
      intro invocation member owing
      obtain ⟨_,_,pending⟩ := startedFresh performed member
      have about : invocation.context = c := by
        simp only [owesPost,Bool.and_eq_true,beq_iff_eq] at owing
        exact owing.1
      have fresh := pending x (about ▸ found)
      rw [ran] at fresh
      contradiction
    simp only [List.countP_append,none_,Nat.add_zero]
  | rejected open_ performed => rfl
  | consumer permitted went =>
    have moved := (consumerWaiting (c := c) conserved.accounted permitted went).2 spared
    simp only [List.countP_append,launchedOwes]
    omega
  | task known moved =>
    rename_i d task next w
    have same := taskOwes sure ready (conserved.tasks d task known) (after d next (Slots.setSame known))
      persists moved there running
    simp only [State.setTask,Slots.countSetSame (owes c) known same]
  | put known calling context work room =>
    rename_i d task g phase e consumer
    have put := postWaiting (c := c) conserved.accounted room
    have moved := Slots.countSet (y := {task with work := .resuming, posted := true}) (owes c) known
    have gone : owes c {task with work := .resuming, posted := true} = false := by
      simp [owes,unposted]
    have owed : (owes c task = true) = (e = c) := by
      have ok := conserved.tasks d task known
      by_cases about : e = c
      · subst about
        have carried : carries e task.event = true := by simp [carries,context]
        obtain ⟨h,same⟩ := carriesCases carried
        have put := ok.waits.unposted (.inr work)
        have holds := ok.running h e x same found ran
        simp [owes,unposted,carries,context,put,holds.owing (within sure carried) put]
      · simp [owes,unposted,carries,context,about]
    simp only [State.setTask,put]
    simp only [gone,owed,Bool.false_eq_true,if_false] at moved
    omega
  | invocation known moved =>
    rename_i k invocation stage w
    have same := invocationOwes ready managed persists (conserved.invocations k invocation known)
      moved there running
    simp only [State.setInvocation,Slots.countSetSame (owesPost c) known same]
  | invokePut known stage room =>
    rename_i k invocation consumer
    have put := postWaiting (c := c) conserved.accounted room
    have moved := Slots.countSet (y := {invocation with stage := .resuming}) (owesPost c) known
    have gone : owesPost c {invocation with stage := .resuming} = false := Bool.and_false _
    have owed : (owesPost c invocation = true) = (invocation.context = c) := by
      simp [owesPost,stage]
    simp only [State.setInvocation,put]
    simp only [gone,owed,Bool.false_eq_true,if_false] at moved
    omega
  | interrupt known there stage => rfl

theorem tasksStep (conserved : Conserved whole s) (spared : ∀ c, whole c → spares c s a = true)
    (taken : Runtime.Step values s a t) : ∀ (d : Nat) task, t.tasks[d]? = some task →
      TaskOk (Within whole task.event) t.world task := by
  have ready := conserved.ready
  have persists := stepPersists ready taken
  have managed := (readyStep ready taken).managed
  have kept : ∀ (d : Nat) task, s.tasks[d]? = some task → TaskOk (Within whole task.event) t.world task :=
    fun d task found => taskOkPersists ready.managed persists (conserved.tasks d task found)
  cases taken with
  | accepted open_ performed => exact kept
  | rejected open_ performed => exact kept
  | consumer permitted went =>
    rename_i b consumer
    intro d task found
    rw [List.getElem?_append] at found
    split at found
    · exact kept d task found
    · obtain ⟨_,item,chain,_,pending,rfl⟩ := launchedNew (List.mem_of_getElem? found)
      have carried := conserved.pending item chain pending
      refine ⟨nofun,fun g c event => (carried g c event).1,?_,waitsIdle rfl nofun⟩
      intro g c x event there running
      exact ⟨(carried g c event).2 x there running,fun _ _ => rfl,nofun,fun _ _ => ⟨rfl,rfl⟩⟩
  | task known moved =>
    rename_i e task next w
    intro d other found
    rcases Slots.setCases found with ⟨_,rfl⟩ | ⟨_,old⟩
    · rw [(taskKept moved).1]
      refine taskOkStep ready known (conserved.tasks e task known) ?_ moved managed persists
      rintro sure rfl
      cases context : task.event.context with
      | none => rfl
      | some c =>
        have carried : carries c task.event = true := by simp [carries,context]
        have away : carries c task.event = false := by simpa [spares,known] using spared c (sure c carried)
        rw [away] at carried
        contradiction
    · exact kept d other old
  | put known calling context work room =>
    rename_i e task g phase c consumer
    intro d other found
    rcases Slots.setCases found with ⟨_,rfl⟩ | ⟨_,old⟩
    · have ok := kept e task known
      refine ⟨ok.parents,ok.mention,?_,fun _ => ok.waits.past (.inl work),nofun,fun _ => rfl,nofun⟩
      intro h c x event there running
      have holds := ok.running h c x event there running
      exact ⟨holds.held,fun _ => nofun,holds.errors,nofun⟩
    · exact kept d other old
  | invocation known moved => exact kept
  | invokePut known stage room => exact kept
  | interrupt known there stage => exact kept

theorem singleStep (conserved : Conserved whole s) (taken : Runtime.Step values s a t) (c : Nat) :
    batches t c ≤ 1 := by
  have before := conserved.single c
  have fewer : ∀ (d : Nat) task next, s.tasks[d]? = some task →
      (batching c next = true → batching c task = true) →
      (s.tasks.set d next).countP (batching c) ≤ 1 := by
    intro d task next found less
    have moved := Slots.countSet (y := next) (batching c) found
    unfold batches at before
    cases busy : batching c next with
    | false =>
      rw [busy] at moved
      simp only [Bool.false_eq_true,if_false] at moved
      omega
    | true =>
      rw [busy,less busy] at moved
      omega
  cases taken with
  | accepted open_ performed => exact before
  | rejected open_ performed => exact before
  | consumer permitted went =>
    rename_i b consumer
    have none_ : (s.launched b).countP (batching c) = 0 := by
      refine List.countP_eq_zero.mpr ?_
      intro task member busy
      obtain ⟨_,item,chain,_,_,rfl⟩ := launchedNew member
      simp [batching,DispatchTask.new] at busy
    unfold batches at before ⊢
    rw [List.countP_append,none_]
    exact before
  | task known moved =>
    rename_i d task next w
    rcases taskBatching (c := c) moved with less | ⟨g,h,e,x,graph,now,names,y,rfl,calling,idle,event,
      active,there,owner,more,begun⟩
    · exact fewer d task next known less
    · have kept := (taskKept moved).1
      by_cases same : e = c
      · subst same
        have alone := batchAlone conserved known calling idle event active there
        have one := Slots.countSet (y := next) (batching e) known
        show (s.tasks.set d next).countP (batching e) ≤ 1
        rw [alone] at one
        split at one <;> split at one <;> omega
      · refine fewer d task next known ?_
        intro busy
        unfold batching at busy
        rw [kept,event] at busy
        simp only [Bool.and_eq_true] at busy
        obtain ⟨k,about⟩ := carriesCases busy.1
        cases about
        exact absurd rfl same
  | put known calling context work room =>
    rename_i d task g phase e consumer
    refine fewer d task _ known ?_
    intro busy
    unfold batching at busy ⊢
    simp only [Bool.and_eq_true,Bool.or_eq_true,beq_iff_eq] at busy ⊢
    obtain ⟨carried,gathering | open_⟩ := busy
    · contradiction
    · exact ⟨carried,.inr open_⟩
  | invocation known moved => exact before
  | invokePut known stage room => exact before
  | interrupt known there stage => exact before

theorem accountedStep (known : Conservation.Accounted s.consumer)
    (taken : Runtime.Step values s a t) : Conservation.Accounted t.consumer := by
  cases taken with
  | consumer permitted went => exact Conservation.stepAccounted known went
  | put found calling context work room => exact Conservation.stepAccounted known room
  | invokePut found stage room => exact Conservation.stepAccounted known room
  | _ => exact known

theorem invocationsStep (conserved : Conserved whole s) (taken : Runtime.Step values s a t) :
    ∀ (k : Nat) invocation, t.invocations[k]? = some invocation →
      Mention t.world invocation.graphId invocation.context := by
  have persists := stepPersists conserved.ready taken
  have kept : ∀ (k : Nat) invocation, s.invocations[k]? = some invocation →
      Mention t.world invocation.graphId invocation.context :=
    fun k invocation found => mentionPersists (conserved.invocations k invocation found) persists
  intro k invocation found
  cases taken with
  | accepted open_ performed =>
    rw [List.getElem?_append] at found
    split at found
    · exact kept k invocation found
    · exact (startedFresh performed (List.mem_of_getElem? found)).1
  | invocation known moved =>
    rcases Slots.setCases found with ⟨_,rfl⟩ | ⟨_,old⟩
    · have mention := kept _ _ known
      exact mention
    · exact kept k invocation old
  | invokePut known stage room =>
    rcases Slots.setCases found with ⟨_,rfl⟩ | ⟨_,old⟩
    · have mention := kept _ _ known
      exact mention
    · exact kept k invocation old
  | _ => exact kept k invocation found

theorem postMention (conserved : Conserved whole s) {phase : Dispatch.Phase}
    (found : s.tasks[d]? = some task) (calling : task.calling = some (g,phase))
    (context : task.event.context = some c) (work : task.work = .posting) : Mention s.world g c := by
  have carried : carries c task.event = true := by
    unfold carries
    rw [context]
    exact beq_self_eq_true _
  obtain ⟨h,event⟩ := carriesCases carried
  obtain ⟨x,there,_,started⟩ := (conserved.tasks d task found).mention h c event
  have busy : task.work ≠ .idle := by rw [work]; nofun
  exact ⟨x,there,worksOwner (conserved.ready.works d task found) busy calling context there,started⟩

theorem queuedStep (conserved : Conserved whole s) (taken : Runtime.Step values s a t) :
    ∀ item ∈ t.consumer.queue, ∀ g c, item.event = .dispatch g c → Mention t.world g c := by
  have persists := stepPersists conserved.ready taken
  have kept : ∀ item ∈ s.consumer.queue, ∀ g c, item.event = .dispatch g c → Mention t.world g c :=
    fun item member g c event => mentionPersists (conserved.queued item member g c event) persists
  intro item member g c event
  cases taken with
  | consumer permitted went =>
    rcases (consumerQueued conserved.accounted permitted went).1 item member with away | old
    · rw [event] at away
      contradiction
    · exact kept item old g c event
  | put found calling context work room =>
    obtain ⟨new,about,_,queue,_⟩ := postPasses conserved.accounted room
    have member : item ∈ s.consumer.queue ++ [new] := queue ▸ member
    rcases List.mem_append.mp member with old | last
    · exact kept item old g c event
    · cases List.mem_singleton.mp last
      cases event.symm.trans about
      exact mentionPersists (postMention conserved found calling context work) persists
  | invokePut found stage room =>
    obtain ⟨new,about,_,queue,_⟩ := postPasses conserved.accounted room
    have member : item ∈ s.consumer.queue ++ [new] := queue ▸ member
    rcases List.mem_append.mp member with old | last
    · exact kept item old g c event
    · cases List.mem_singleton.mp last
      cases event.symm.trans about
      exact mentionPersists (conserved.invocations _ _ found) persists
  | _ => exact kept item member g c event

theorem capturedCarried (conserved : Conserved whole s) {item : Consumer.Item Event} {chain : List Handler}
    (member : item ∈ s.consumer.queue) (captured : captures s.world chain item.event = true) :
    Carried s.world item.event chain := by
  intro g c event
  have mention := conserved.queued item member g c event
  refine ⟨mention,?_⟩
  intro x found running
  have active := ownerActive conserved.ready.managed found (mentionFound mention found).1 running
  obtain ⟨_,graph,_,owner,_,_,live⟩ := activeFound conserved.ready.managed.toExact active
  rw [event] at captured
  simp only [captures,owner,live,Bool.false_and,Bool.or_false,beq_iff_eq] at captured
  exact captured

theorem pendingStep (conserved : Conserved whole s) (taken : Runtime.Step values s a t) :
    ∀ item chain, t.consumer.pendingDispatch = some (item,chain) → Carried t.world item.event chain := by
  have managed := conserved.ready.managed
  have persists := stepPersists conserved.ready taken
  have kept : ∀ item chain, s.consumer.pendingDispatch = some (item,chain) →
      Carried t.world item.event chain :=
    fun item chain slot => carriedPersists managed persists (conserved.pending item chain slot)
  intro item chain slot
  cases taken with
  | consumer permitted went =>
    rcases (consumerQueued conserved.accounted permitted went).2 item chain slot with old | ⟨member,captured⟩
    · exact kept item chain old
    · exact capturedCarried conserved member captured
  | put found calling context work room =>
    obtain ⟨_,_,_,_,same⟩ := postPasses conserved.accounted room
    exact kept item chain (same ▸ slot)
  | invokePut found stage room =>
    obtain ⟨_,_,_,_,same⟩ := postPasses conserved.accounted room
    exact kept item chain (same ▸ slot)
  | _ => exact kept item chain slot

theorem conservedStep (conserved : Conserved whole s) (spared : ∀ c, whole c → spares c s a = true)
    (taken : Runtime.Step values s a t) : Conserved whole t := by
  have tasks := tasksStep conserved spared taken
  refine ⟨readyStep conserved.ready taken,accountedStep conserved.accounted taken,tasks,
    invocationsStep conserved taken,queuedStep conserved taken,pendingStep conserved taken,
    fewStep conserved taken,?_,singleStep conserved taken⟩
  intro c y sure there running
  by_cases ran : ∃ x, s.world.contexts[c]? = some x ∧ x.status = .running
  · obtain ⟨x,found,ran⟩ := ran
    rw [oneKept sure conserved (spared c sure) taken tasks found ran there running]
    exact conserved.one c x sure found ran
  · exact oneBegun conserved taken there running (fun x found still => ran ⟨x,found,still⟩)

theorem runConserved {m : Nat} {r : List (Action V)}
    (ran : Machine.run (Runtime.step values) (Runtime.initial m) r = some s) : Conserved nowhere s :=
  Machine.invariant
    (fun _ _ _ conserved taken => conservedStep conserved (fun _ => nofun) (Runtime.stepCases taken))
    (initialConserved m) ran

theorem runWhole {m : Nat} {r : List (Action V)}
    (spared : Machine.Steps (Runtime.step values) (fun s a => spares c s a = true) (Runtime.initial m) r)
    (ran : Machine.run (Runtime.step values) (Runtime.initial m) r = some s) : Conserved (· = c) s :=
  Machine.invariantSteps
    (fun _ _ _ met conserved taken =>
      conservedStep conserved (fun _ same => same ▸ met) (Runtime.stepCases taken))
    spared (initialConserved m) ran

theorem obligationsOne (conserved : Conserved whole s) : obligations s c ≤ 1 :=
  Nat.le_trans obligationsFew (conserved.few c)

/- A dispatch that has ended without a new event leaves its context terminal. -/
theorem endedTerminal (conserved : Conserved whole s) (sure : whole c) (found : s.tasks[d]? = some task)
    (event : task.event = .dispatch g c) (past : task.run.pc = .returned ∨ task.run.pc = .cancelled)
    (unposted : task.posted = false) : ∃ x f, s.world.contexts[c]? = some x ∧ x.status.terminal = true ∧
      x.completion = some f ∧ f.done = true := by
  have ok := conserved.tasks d task found
  obtain ⟨x,there,_,started⟩ := ok.mention g c event
  have shaped := conserved.ready.managed.shaped c x there
  have idle : x.status ≠ .running := by
    intro running
    have carried : carries c task.event = true := by simp [event,carries,Event.context]
    have open_ := (ok.running g c x event there running).owing (within sure carried) unposted
    rcases past with at_ | at_ <;> (rw [at_] at open_; contradiction)
  have settled : x.status.terminal = true ∧ x.runId.isSome = x.completion.isSome ∧
      ∀ f, x.completion = some f → f.done = true := by
    unfold Shaped at shaped
    cases at_ : x.status with
    | pending =>
      rw [at_] at shaped
      exact absurd shaped.1 started
    | running => exact absurd at_ idle
    | failed => rw [at_] at shaped; exact ⟨rfl,shaped.2⟩
    | aborted => rw [at_] at shaped; exact ⟨rfl,shaped.2⟩
    | finished => rw [at_] at shaped; exact ⟨rfl,shaped.2⟩
  obtain ⟨final,bound,done⟩ := settled
  rw [Option.isSome_iff_ne_none.mpr started] at bound
  obtain ⟨f,completion⟩ := Option.isSome_iff_exists.mp bound.symm
  exact ⟨x,f,there,final,completion,done f completion⟩

/- No two obligations of a context, and no two batches at a time, whatever is lost. A
context that has lost no event has one obligation while it is active, and a dispatch of it
that ends without a new event leaves it terminal. -/
theorem dispatchConserved {m : Nat} {r : List (Action V)}
    (ran : Machine.run (Runtime.step values) (Runtime.initial m) r = some s) :
    (∀ c, obligations s c ≤ 1 ∧ batches s c ≤ 1) ∧
    ∀ c, Machine.Steps (Runtime.step values) (fun s a => spares c s a = true) (Runtime.initial m) r →
      (∀ x, s.world.contexts[c]? = some x → x.isActive = true → obligations s c = 1) ∧
      ∀ (d : Nat) task g, s.tasks[d]? = some task → task.event = .dispatch g c →
        task.run.pc = .returned ∨ task.run.pc = .cancelled → task.posted = false →
        ∃ x f, s.world.contexts[c]? = some x ∧ x.status.terminal = true ∧
          x.completion = some f ∧ f.done = true := by
  have always := runConserved ran
  refine ⟨fun c => ⟨obligationsOne always,always.single c⟩,?_⟩
  intro c spared
  have conserved := runWhole spared ran
  refine ⟨fun x found active => conserved.one c x rfl found (eq_of_beq active),?_⟩
  intro d task g found event past unposted
  exact endedTerminal conserved rfl found event past unposted

def numbers : Values Nat := ⟨fun _ => true,fun n => some (fun k => .ok (some (n + k))),fun _ => "int"⟩
def quiet : Dispatch.Flags := ⟨false,true,false,false,false,false⟩
def toSelf : Result Nat := .command ⟨some .empty,.target (.node "a")⟩

/- The first dispatch of a context runs its node and posts the second, in which a
plugin before the graph raises. -/
def upstreamFailure : List (Action Nat) :=
  [.graph (.construct flow),.graph (.beginInvocation 0 (.dict .empty) .none),.invoke 0,.invokePut 0,
    .invokeResume 0,.consumer .start,.consumer (.begin 0),
    .consumer (.dequeue 0 (.resolved [.plugin quiet,.graph 0])),.consumer (.launch 0 .launched),
    .dispatch 0 .begin,.dispatch 0 .visit,.dispatch 0 .gate,.dispatch 0 (.callback .returned),
    .dispatch 0 .visit,.dispatch 0 .gate,.core 0 0,.startNode 0 0,.endNode 0 0 (.returned toSelf),
    .gather 0 .returned,.put 0,.consumer (.dequeue 0 (.resolved [.plugin quiet,.graph 0])),
    .consumer (.launch 0 .launched),.dispatch 1 .begin,.dispatch 1 .visit,.resume 0,
    .dispatch 1 .gate,.dispatch 1 (.callback .raised),.dispatch 1 .visit,.notify 1,.dispatch 1 .gate,
    .dispatch 1 .visit,.wake 0]

def failedUpstream : State Nat :=
  (Machine.run (Runtime.step numbers) (Runtime.initial 1) upstreamFailure).getD (Runtime.initial 1)

example : failedUpstream.world.contexts.map (fun x => (x.status,x.steps)) = [(.failed,1)] := by decide

theorem dispatchConservedUpstream :
    (∀ c, obligations failedUpstream c ≤ 1 ∧ batches failedUpstream c ≤ 1) ∧
    (∀ x, failedUpstream.world.contexts[0]? = some x → x.isActive = true → obligations failedUpstream 0 = 1) ∧
    ∀ (d : Nat) task g, failedUpstream.tasks[d]? = some task → task.event = .dispatch g 0 →
      task.run.pc = .returned ∨ task.run.pc = .cancelled → task.posted = false →
      ∃ x f, failedUpstream.world.contexts[0]? = some x ∧ x.status.terminal = true ∧
        x.completion = some f ∧ f.done = true := by
  have all := @dispatchConserved Nat numbers failedUpstream 1 upstreamFailure rfl
  exact ⟨all.1,all.2 0 (Machine.stepsOfCheck rfl)⟩

/- The handlers of the first event of an attempt cannot be resolved: the consumer logs
this and goes on. -/
def unresolvedDispatch : List (Action Nat) :=
  [.graph (.construct flow),.graph (.beginInvocation 0 (.dict .empty) .none),.invoke 0,.invokePut 0,
    .invokeResume 0,.consumer .start,.consumer (.begin 0),.consumer (.dequeue 0 .failed)]

def lostDispatch : State Nat :=
  (Machine.run (Runtime.step numbers) (Runtime.initial 1) unresolvedDispatch).getD (Runtime.initial 1)

theorem activeWithoutObligation :
    Machine.run (Runtime.step numbers) (Runtime.initial 1) unresolvedDispatch = some lostDispatch ∧
    (∃ x, lostDispatch.world.contexts[0]? = some x ∧ x.isActive = true ∧ x.completion = some .pending) ∧
    obligations lostDispatch 0 = 0 ∧ lostDispatch.invocations = [⟨0,0,.waiting⟩] :=
  ⟨rfl,⟨_,rfl,rfl,rfl⟩,rfl,rfl⟩

end Apixis.Baton
