import Apixis.Graph.Baton
import Apixis.Graph.Interpreter

/-! The batches that a context has committed, and the checkpoints between them. A
committed batch is one step of a sequential machine on states, targets and step
counts; every context follows a run of it from what it was when it appeared. -/
namespace Apixis.Trail
open NodeGraph hiding Action step initial
open ApplyCommand Lifecycle Moves Obligation Baton Interpreter Apixis.Runtime

variable {V : Type}

def configOf (x : GraphContext V) : Config V := ⟨x.state,x.targetNodeName,x.steps⟩
def checkpointOf (snapshot : Snapshot V) : Config V :=
  ⟨snapshot.state,snapshot.targetNodeName,snapshot.steps⟩

section Machine
variable (values : Values V)

/- The contexts that appear in a run, each as it appears. -/
def births : State V → List (Action V) → List (GraphContext V)
  | _, [] => []
  | s, a :: rest => match Runtime.step values s a with
      | some t => t.world.contexts.drop s.world.contexts.length ++ births t rest
      | none => []

/- The results of the batch of context `c` that an action commits. -/
def committed (s : State V) (c : Nat) : Action V → Option (List (Result V))
  | .gather d .returned => do
      let task ← s.tasks[d]?
      let (g,_) ← task.calling
      let results ← allReturned task.nodes
      let graph ← s.world.graphs[g]?
      let x ← s.world.contexts[c]?
      if task.event.context = some c ∧ task.work = .gathering ∧
          (commit values s.world g c graph x (task.nodes.map NodeTask.name) results).1 = true then
        some results
      else none
  | _ => none

def commits (c : Nat) : State V → List (Action V) → List (List (Result V))
  | _, [] => []
  | s, a :: rest => (committed values s c a).toList ++ match Runtime.step values s a with
      | some t => commits c t rest
      | none => []

end Machine

variable {values : Values V} {compiled : Compiled} {s t : State V} {v : World V} {c d : Nat}
  {a : Action V} {r : List (Action V)} {x y b : GraphContext V} {task next : DispatchTask V}
  {results : List (Result V)} {config : Config V} {graph : Graph}

theorem birthsSnoc (ran : Machine.run (Runtime.step values) s r = some t)
    (taken : Runtime.step values t a = some (u : State V)) :
    births values s (r ++ [a]) = births values s r ++ u.world.contexts.drop t.world.contexts.length := by
  induction r generalizing s with
  | nil =>
    cases Option.some.inj ran
    simp only [births,List.nil_append,taken,List.append_nil]
  | cons b rest ih =>
    obtain ⟨m,first,last⟩ := Machine.runCons.mp ran
    simp only [List.cons_append,births,first,ih last,List.append_assoc]

theorem birthsNil : (births values s [])[c]? = none := by
  rw [births,List.getElem?_nil]

theorem birthsKept {r' : List (Action V)} (ran : Machine.run (Runtime.step values) s r = some t)
    (further : Machine.run (Runtime.step values) t r' = some (u : State V))
    (born : (births values s r)[c]? = some b) : (births values s (r ++ r'))[c]? = some b := by
  induction r' using List.reverseRecOn generalizing u with
  | nil => rwa [List.append_nil]
  | append_singleton r' a ih =>
    obtain ⟨m,before,last⟩ := Machine.runSnoc.mp further
    rw [← List.append_assoc,birthsSnoc (Machine.runAppend.mpr ⟨t,ran,before⟩) last]
    have old := ih before
    rw [List.getElem?_append_left (Slots.inside old)]
    exact old

theorem commitsSnoc (ran : Machine.run (Runtime.step values) s r = some t) :
    commits values c s (r ++ [a]) = commits values c s r ++ (committed values t c a).toList := by
  induction r generalizing s with
  | nil =>
    cases Option.some.inj ran
    simp only [commits,List.nil_append]
    cases Runtime.step values t a <;> simp
  | cons b rest ih =>
    obtain ⟨m,first,last⟩ := Machine.runCons.mp ran
    simp only [List.cons_append,commits,first,ih last,List.append_assoc]

/- A batch of context `c` that is committed, and what it makes of the context. -/
inductive Commits (values : Values V) (s : State V) (c : Nat) (x : GraphContext V) :
    Action V → List (Result V) → GraphContext V → Prop where
  | mk {d task graph results next state target} (found : s.tasks[d]? = some task)
      (context : task.event.context = some c) (work : task.work = .gathering)
      (owner : s.world.graphs[x.graphId]? = some graph) (running : x.status = .running)
      (returned : allReturned task.nodes = some results)
      (applied : applyCommand values x.graphId graph results (.batch (task.nodes.map NodeTask.name)) x =
        .ok (next,state))
      (valid : validateTarget graph next (x.steps + 1) = .ok target) :
      Commits values s c x (.gather d .returned) results
        {x with state := state, steps := x.steps + 1, targetNodeName := target}

theorem committedSome (ready : Ready s) (taken : Runtime.step values s a = some t)
    (went : committed values s c a = some results) :
    (∃ x y, s.world.contexts[c]? = some x ∧ t.world.contexts[c]? = some y ∧
      Commits values s c x a results y) ∧
    ∃ (d : Nat) (task : DispatchTask V), s.tasks[d]? = some task ∧ task.event.context = some c ∧
      task.work = .gathering ∧ t.tasks[d]? = some {task with work := .posting} := by
  unfold committed at went
  split at went <;> try contradiction
  rename_i d
  simp only [bind,Option.bind_eq_some_iff] at went
  obtain ⟨task,found,⟨g,phase⟩,calling,results',returned,graph,owner,x,there,last⟩ := went
  split at last <;> try contradiction
  rename_i guards
  cases Option.some.inj last
  obtain ⟨context,work,goes⟩ := guards
  have mine := worksOwner (ready.works d task found) (by rw [work]; nofun) calling context there
  subst mine
  cases call : commit values s.world x.graphId c graph x (task.nodes.map NodeTask.name) results with
  | mk went call' =>
    rw [call] at goes
    have goes : went = true := goes
    subst goes
    have result : t = s.setTask d {task with work := .posting} (PyError.stateOf call') := by
      simp only [Runtime.step,bind,Option.bind,found,calling,context,work,if_true,gather,returned,
        owner,there,call] at taken
      exact (Option.some.inj taken).symm
    rcases commitCases call with ⟨_,no,_⟩ | ⟨active,⟨_,_,_,no,_⟩ | ⟨next,state,applied,⟨_,_,no,_⟩ |
      ⟨target,valid,_,rfl⟩⟩⟩
    · contradiction
    · contradiction
    · contradiction
    · rw [result]
      exact ⟨⟨x,_,there,Slots.setSame there,
        .mk found context work owner (eq_of_beq active) returned applied valid⟩,
        d,task,found,context,work,Slots.setSame found⟩

theorem moveCommitted (ready : Ready s) (there : s.world.contexts[c]? = some x)
    (commits_ : Commits values s c x a results y) : committed values s c a = some results := by
  cases commits_ with
  | mk found context work owner running returned applied valid =>
    rename_i d task graph next state target
    obtain ⟨g,e,z,calling,context',known,mine⟩ := ready.works d task found (by rw [work]; nofun)
    rw [context] at context'
    cases context'
    cases Option.some.inj (there.symm.trans known)
    have active : x.isActive = true := by rw [GraphContext.isActive,running]; rfl
    subst mine
    simp only [committed,bind,Option.bind,found,calling,returned,owner,there,context,work,commit,active,
      if_true,applied,valid,and_self]

/- A dispatch whose next batch has not begun, or whose last one is committed. -/
def resting (c : Nat) (task : DispatchTask V) : Bool :=
  carries c task.event && !task.posted && (task.work == .posting || task.nodes.isEmpty)

def gathers (c : Nat) (task : DispatchTask V) : Bool := carries c task.event && task.work == .gathering

def Between (s : State V) (c : Nat) : Prop :=
  0 < s.invocations.countP (owesPost c) ∨ 0 < waiting s.consumer c ∨
  ∃ (d : Nat) (task : DispatchTask V), s.tasks[d]? = some task ∧ resting c task = true

theorem restingCases (at_ : resting c task = true) : (∃ g, task.event = .dispatch g c) ∧
    task.posted = false ∧ (task.work = .posting ∨ task.nodes = []) := by
  simp only [resting,Bool.and_eq_true,Bool.not_eq_true',Bool.or_eq_true,beq_iff_eq,
    List.isEmpty_iff] at at_
  exact ⟨carriesCases at_.1.1,at_.1.2,at_.2⟩

theorem gathersCases (busy : gathers c task = true) : (∃ g, task.event = .dispatch g c) ∧
    task.work = .gathering := by
  simp only [gathers,Bool.and_eq_true,beq_iff_eq] at busy
  exact ⟨carriesCases busy.1,busy.2⟩

theorem carriesOf {g : Nat} {event : Event} (about : event = .dispatch g c) : carries c event = true := by
  subst about
  exact beq_self_eq_true _

theorem carriesContext {event : Event} (context : event.context = some c) : carries c event = true := by
  unfold carries
  rw [context]
  exact beq_self_eq_true _

/- While its batch is running a context is not between two batches. -/
theorem betweenExcludes (conserved : Conserved nowhere s) (between : Between s c)
    (known : s.tasks[d]? = some task) : gathers c task = false := by
  cases busy : gathers c task with
  | false => rfl
  | true =>
    obtain ⟨⟨g,about⟩,work⟩ := gathersCases busy
    have ok := conserved.tasks d task known
    have mine : unposted c task = true := by
      simp [unposted,carriesOf about,ok.waits.unposted (.inl work)]
    have here := Slots.countPositive (unposted c) known mine
    have few := conserved.few c
    unfold pieces at few
    rcases between with posts | waits | ⟨e,other,there,at_⟩
    · omega
    · omega
    · obtain ⟨⟨h,event⟩,put,place⟩ := restingCases at_
      have also : unposted c other = true := by simp [unposted,carriesOf event,put]
      have same := Slots.countUnique (unposted c) (by omega) known there mine also
      subst same
      cases Option.some.inj (known.symm.trans there)
      rcases place with posting | empty
      · rw [work] at posting
        contradiction
      · exact absurd empty (ok.waits.begun work)

theorem taskResting (found : s.tasks[d]? = some task) (moved : TaskStep values s.world d task a next v)
    (at_ : resting c next = true) : resting c task = true ∨ committed values s c a ≠ none := by
  obtain ⟨event,posted⟩ := taskKept moved
  have kept : (next.work = .posting → task.work = .posting) →
      (next.nodes = [] → task.nodes = []) → resting c task = true := by
    intro posting nodes
    obtain ⟨⟨g,about⟩,put,place⟩ := restingCases at_
    simp only [resting,Bool.and_eq_true,Bool.not_eq_true',Bool.or_eq_true,beq_iff_eq,
      List.isEmpty_iff]
    exact ⟨⟨carriesOf (event.symm.trans about),posted.symm.trans put⟩,place.imp posting nodes⟩
  have answered : ∀ (other : DispatchTask V) outcome, other.nodes = task.nodes →
      other.answer outcome = some next → resting c task = true := by
    intro other outcome nodes answered
    obtain ⟨run,_,rfl⟩ := answerCases answered
    exact kept nofun (fun none_ => nodes.symm.trans none_)
  cases moved with
  | dispatch allowed_ taken => exact .inl (kept id id)
  | notify calling notified done => exact .inl (answered _ _ rfl done)
  | notifyCancelled notifying taken => exact .inl (kept id id)
  | coreIdle calling idle inactive done => exact .inl (answered _ _ rfl done)
  | coreFinish calling idle event active there end_ done => exact .inl (answered _ _ rfl done)
  | coreRaise calling idle event active there owner more raised done =>
    rename_i now g h e x graph error
    exact .inl (answered {task with failure := some error} _ rfl done)
  | coreBegin calling idle event active there owner more begun =>
    refine .inl (kept nofun ?_)
    intro none_
    exact absurd (List.map_eq_nil_iff.mp none_) (targetsSome (executeNodeOk begun).1)
  | startNode event there owner known unstarted open_ =>
    exact .inl (kept id (fun none_ => (List.set_eq_nil_iff _ _).mp none_))
  | endNode there open_ started =>
    exact .inl (kept id (fun none_ => (List.set_eq_nil_iff _ _).mp none_))
  | gatherCancelled calling context work done => exact .inl (answered _ _ rfl done)
  | gatherRaised calling context work there raised past done => exact .inl (answered _ _ rfl done)
  | gathered calling context work returned owner there stopped done => exact .inl (answered _ _ rfl done)
  | committed calling context work returned owner there goes =>
    obtain ⟨⟨h,about⟩,_,_⟩ := restingCases at_
    have event : task.event = .dispatch h _ := about
    rw [event] at context
    cases context
    refine .inr ?_
    simp [committed,found,calling,returned,owner,there,event,Event.context,work,goes]
  | putFailed calling context work done => exact .inl (answered _ _ rfl done)
  | postCancelled work done => exact .inl (answered _ _ rfl done)
  | resume work done => exact .inl (answered _ _ rfl done)

theorem taskGathers (moved : TaskStep values s.world d task a next v) (busy : next.work = .gathering) :
    task.work = .gathering ∧ next.nodes.map NodeTask.name = task.nodes.map NodeTask.name ∨
    ∃ g h e x graph now y, a = .core d now ∧ task.calling = some (g,.coreFunc) ∧ task.work = .idle ∧
      task.event = .dispatch h e ∧ s.world.isActiveContext g e = true ∧
      s.world.contexts[e]? = some x ∧ s.world.graphs[g]? = some graph ∧
      executeNode values graph x now = .ok (next.nodes.map NodeTask.name,y) ∧
      v = s.world.setContext e y := by
  have answered : ∀ (other : DispatchTask V) outcome, other.answer outcome = some next → False := by
    intro other outcome answered
    obtain ⟨run,_,rfl⟩ := answerCases answered
    contradiction
  have renamed : ∀ (i : Nat) (node node' : NodeTask V), task.nodes[i]? = some node →
      node'.name = node.name →
      (task.nodes.set i node').map NodeTask.name = task.nodes.map NodeTask.name := by
    intro i node node' there same
    rw [List.map_set,same]
    exact Slots.setEqual (by rw [List.getElem?_map,there]; rfl)
  cases moved with
  | dispatch allowed_ taken => exact .inl ⟨busy,rfl⟩
  | notify calling notified done => exact (answered _ _ done).elim
  | notifyCancelled notifying taken => exact .inl ⟨busy,rfl⟩
  | coreIdle calling idle inactive done => exact (answered _ _ done).elim
  | coreFinish calling idle event active there end_ done => exact (answered _ _ done).elim
  | coreRaise calling idle event active there owner more raised done => exact (answered _ _ done).elim
  | coreBegin calling idle event active there owner more begun =>
    rename_i now g h e x y graph names
    have named : (names.map NodeTask.new : List (NodeTask V)).map NodeTask.name = names := by
      rw [List.map_map]
      exact List.map_id _
    exact .inr ⟨g,h,e,x,graph,now,y,rfl,calling,idle,event,active,there,owner,by rw [named]; exact begun,rfl⟩
  | startNode event there owner known unstarted open_ =>
    refine .inl ⟨busy,renamed _ _ _ there ?_⟩
    unfold startNode
    split <;> rfl
  | endNode there open_ started => exact .inl ⟨busy,renamed _ _ _ there rfl⟩
  | gatherCancelled calling context work done => exact (answered _ _ done).elim
  | gatherRaised calling context work there raised past done => exact (answered _ _ done).elim
  | gathered calling context work returned owner there stopped done => exact (answered _ _ done).elim
  | committed calling context work returned owner there goes => contradiction
  | putFailed calling context work done => exact (answered _ _ done).elim
  | postCancelled work done => exact (answered _ _ done).elim
  | resume work done => exact (answered _ _ done).elim

theorem betweenKept (conserved : Conserved nowhere s)
    (taken : Runtime.Step values s a t) (found : s.world.contexts[c]? = some x)
    (ran : x.status = .running) (between : Between t c) : Between s c ∨ committed values s c a ≠ none := by
  rcases between with posts | waits | ⟨e,other,known,at_⟩
  · refine .inl ?_
    cases taken with
    | accepted open_ performed =>
      rename_i b w
      have none_ : (s.started b).countP (owesPost c) = 0 := by
        refine List.countP_eq_zero.mpr ?_
        intro invocation member owing
        obtain ⟨_,_,pending⟩ := startedFresh performed member
        simp only [owesPost,Bool.and_eq_true,beq_iff_eq] at owing
        have fresh := pending x (owing.1 ▸ found)
        rw [ran] at fresh
        contradiction
      simp only [List.countP_append,none_,Nat.add_zero] at posts
      exact .inl posts
    | invocation known moved =>
      rename_i k invocation stage w
      have fewer := invocationFewer (c := c) moved
      have set_ := Slots.countSet (y := {invocation with stage := stage}) (owesPost c) known
      simp only [State.setInvocation] at posts
      refine .inl ?_
      cases owing : owesPost c {invocation with stage := stage} with
      | false =>
        rw [owing] at set_
        simp only [Bool.false_eq_true,if_false] at set_
        omega
      | true =>
        rw [owing,fewer owing] at set_
        omega
    | invokePut known stage room =>
      rename_i k invocation consumer
      have moved := Slots.countSet (y := {invocation with stage := .resuming}) (owesPost c) known
      have gone : owesPost c {invocation with stage := .resuming} = false := Bool.and_false _
      rw [gone] at moved
      simp only [Bool.false_eq_true,if_false] at moved
      simp only [State.setInvocation] at posts
      exact .inl (by omega)
    | _ => exact .inl posts
  · cases taken with
    | consumer permitted went =>
      rename_i b consumer
      have moved := (consumerWaiting (c := c) conserved.accounted permitted went).1
      have waits : 0 < waiting consumer c := waits
      exact .inl (.inr (.inl (by omega)))
    | put known calling context work room =>
      rename_i d task g phase e consumer
      have put := postWaiting (c := c) conserved.accounted room
      have waits : 0 < waiting consumer c := waits
      refine .inl ?_
      by_cases about : e = c
      · subst about
        have unposted := (conserved.tasks d task known).waits.unposted (.inr work)
        exact .inr (.inr ⟨d,task,known,by simp [resting,carriesContext context,unposted,work]⟩)
      · rw [put,if_neg about] at waits
        exact .inr (.inl waits)
    | invokePut known stage room =>
      rename_i k invocation consumer
      have put := postWaiting (c := c) conserved.accounted room
      have waits : 0 < waiting consumer c := waits
      refine .inl ?_
      by_cases about : invocation.context = c
      · exact .inl (Slots.countPositive (owesPost c) known (by simp [owesPost,about,stage]))
      · rw [put,if_neg about] at waits
        exact .inr (.inl waits)
    | _ => exact .inl (.inr (.inl waits))
  · have old : ∀ {e : Nat} {other : DispatchTask V}, s.tasks[e]? = some other →
        resting c other = true → Between s c :=
      fun known at_ => .inr (.inr ⟨_,_,known,at_⟩)
    cases taken with
    | consumer permitted went =>
      rw [List.getElem?_append] at known
      split at known
      · exact .inl (old known at_)
      · obtain ⟨_,item,chain,_,pending,rfl⟩ := launchedNew (List.mem_of_getElem? known)
        obtain ⟨⟨g,about⟩,_,_⟩ := restingCases at_
        refine .inl (.inr (.inl ?_))
        simp only [waiting,pending,Option.toList_some,List.countP_cons,List.countP_nil,
          carriesOf (show item.event = .dispatch g c from about),if_true]
        omega
    | task here moved =>
      rename_i d task next w
      rcases Slots.setCases known with ⟨_,rfl⟩ | ⟨_,before⟩
      · exact (taskResting here moved at_).imp (old here) id
      · exact .inl (old before at_)
    | put here calling context work room =>
      rcases Slots.setCases known with ⟨_,rfl⟩ | ⟨_,before⟩
      · obtain ⟨_,put,_⟩ := restingCases at_
        contradiction
      · exact .inl (old before at_)
    | _ => exact .inl (old known at_)

theorem gathersKept (conserved : Conserved nowhere s) (taken : Runtime.Step values s a t)
    (known : t.tasks[d]? = some next) (busy : gathers c next = true) :
    (∃ task, s.tasks[d]? = some task ∧ gathers c task = true ∧
      next.nodes.map NodeTask.name = task.nodes.map NodeTask.name) ∨
    ∃ now x y graph, a = .core d now ∧ Between s c ∧ s.world.contexts[c]? = some x ∧
      x.status = .running ∧ s.world.graphs[x.graphId]? = some graph ∧
      executeNode values graph x now = .ok (next.nodes.map NodeTask.name,y) ∧
      t.world.contexts[c]? = some y := by
  have old : s.tasks[d]? = some next → ∃ task, s.tasks[d]? = some task ∧ gathers c task = true ∧
      next.nodes.map NodeTask.name = task.nodes.map NodeTask.name :=
    fun known => ⟨next,known,busy,rfl⟩
  cases taken with
  | consumer permitted went =>
    rw [List.getElem?_append] at known
    split at known
    · exact .inl (old known)
    · obtain ⟨_,item,chain,_,_,rfl⟩ := launchedNew (List.mem_of_getElem? known)
      simp [gathers,DispatchTask.new] at busy
  | task here moved =>
    rename_i e task other w
    rcases Slots.setCases known with ⟨same,rfl⟩ | ⟨_,before⟩
    · subst same
      obtain ⟨⟨g,about⟩,work⟩ := gathersCases busy
      have event := (taskKept moved).1
      rcases taskGathers moved work with ⟨gathering,names⟩ | ⟨h,h',e',x,graph,now,y,rfl,calling,idle,
        event',active,there,owner,begun,rfl⟩
      · refine .inl ⟨task,here,?_,names⟩
        simp only [gathers,carriesOf (event.symm.trans about),gathering]
        rfl
      · have ok := conserved.tasks e task here
        cases event'.symm.trans (event.symm.trans about)
        obtain ⟨rfl,running,holds⟩ := coreRunning conserved.ready ok event' active there
        obtain ⟨unposted,empty⟩ := callingEarly holds event' calling idle
        have mine := (activeRunning conserved.ready.managed.toExact there active).1
        subst mine
        refine .inr ⟨now,x,y,graph,rfl,.inr (.inr ⟨e,task,here,?_⟩),there,running,owner,begun,
          Slots.setSame there⟩
        simp [resting,carriesOf event',unposted,empty]
    · exact .inl (old before)
  | put here calling context work room =>
    rcases Slots.setCases known with ⟨_,rfl⟩ | ⟨_,before⟩
    · obtain ⟨_,gathering⟩ := gathersCases busy
      contradiction
    · exact .inl (old before)
  | _ => exact .inl (old known)

def reached (values : Values V) (compiled : Compiled) (b : GraphContext V)
    (log : List (List (Result V))) : Option (Config V) :=
  Machine.run (advance values compiled) (configOf b) log

/- The checkpoints `l` taken since the context appeared, over the batches `log`. -/
structure Recorded (values : Values V) (compiled : Compiled) (b : GraphContext V)
    (log : List (List (Result V))) (l : List (Snapshot V)) : Prop where
  disabled : compiled.noSnapshot = true → l = []
  least : compiled.noSnapshot = false → log.length ≤ l.length
  most : l.length ≤ log.length + 1
  places : ∀ (j : Nat) snapshot, l[j]? = some snapshot →
    reached values compiled b (log.take j) = some (checkpointOf snapshot) ∧
    snapshot.graphId = b.graphId

/- A context that appeared as `b`, has committed `log` and is `x` now. -/
structure Tracked (values : Values V) (compiled : Compiled) (s : State V) (c : Nat)
    (b x : GraphContext V) (log : List (List (Result V))) (l : List (Snapshot V)) : Prop where
  owner : x.graphId = b.graphId
  normal : Target.Normal compiled.nodes x.targetNodeName
  history : x.contextSnapshot = b.contextSnapshot ++ l
  recorded : Recorded values compiled b log l
  fresh : x.status = .pending → log = [] ∧ l = []
  live : x.status ≠ .failed → reached values compiled b log = some (configOf x)
  steps : x.steps = b.steps + log.length ∨ x.status = .failed ∧ x.steps = b.steps + log.length + 1 ∧
    (compiled.noSnapshot = false → l.length = log.length + 1)
  between : compiled.noSnapshot = false → x.status = .running → Between s c → l.length = log.length
  within : compiled.noSnapshot = false → x.status = .running →
    ∀ (d : Nat) task, s.tasks[d]? = some task → gathers c task = true → l.length = log.length + 1
  named : x.status = .running → ∀ (d : Nat) task, s.tasks[d]? = some task → gathers c task = true →
    Target.normaliseTargets x.targetNodeName = .ok (task.nodes.map NodeTask.name)
  past : x.status = .finished → x.targetNodeName = .node END ∧
    (compiled.noSnapshot = false → l.length = log.length)
  pending : x.status = .running → x.completion = some .pending ∨ x.completion = some .cancelled
  aborted : x.status = .aborted → ∀ state, x.completion = some (.result state) →
    state = latestSnapshotState x

section Step
variable {log : List (List (Result V))} {l : List (Snapshot V)}

theorem recordedCommit (recorded : Recorded values compiled b log l)
    (taken : compiled.noSnapshot = false → l.length = log.length + 1) :
    Recorded values compiled b (log ++ [results]) l := by
  refine ⟨recorded.disabled,?_,?_,?_⟩
  · intro on
    rw [taken on,List.length_append]
    exact Nat.le_refl _
  · have most := recorded.most
    rw [List.length_append]
    omega
  · intro j snapshot found
    have inside := Slots.inside found
    have most := recorded.most
    rw [List.take_append_of_le_length (by omega)]
    exact recorded.places j snapshot found

theorem recordedCheckpoint {snapshot : Snapshot V} (recorded : Recorded values compiled b log l)
    (on : compiled.noSnapshot = false) (between : l.length = log.length)
    (here : reached values compiled b log = some (checkpointOf snapshot))
    (mine : snapshot.graphId = b.graphId) : Recorded values compiled b log (l ++ [snapshot]) := by
  refine ⟨?_,?_,?_,?_⟩
  · intro off
    rw [on] at off
    contradiction
  · intro _
    rw [List.length_append]
    omega
  · rw [List.length_append,between]
    exact Nat.le_refl _
  · intro j other found
    rcases Slots.appendCases found with ⟨rfl,rfl⟩ | old
    · rw [between,List.take_length]
      exact ⟨here,mine⟩
    · exact recorded.places j other old

theorem applyAdvance {g : Nat} {names : List String} {next target : Target} {state : StateDict V}
    (named : Target.normaliseTargets x.targetNodeName = .ok names)
    (applied : applyCommand values g graph results (.batch names) x = .ok (next,state))
    (valid : validateTarget graph next (x.steps + 1) = .ok target) :
    advance values graph.toCompiled (configOf x) results = some ⟨state,target,x.steps + 1⟩ := by
  simp only [applyCommand,PyError.bindOk,PyError.leavingOk] at applied
  obtain ⟨_,_,_,_,batch⟩ := applied
  simp only [validateTarget,PyError.bindOk,PyError.raiseIfOk] at valid
  obtain ⟨_,_,target',normalised,_,_,last⟩ := valid
  cases last
  simp only [advance,configOf,named,batch,normalised]

theorem validateBudget {target target' : Target} {steps : Int}
    (valid : validateTarget graph target steps = .ok target') :
    0 ≤ steps ∧ Target.Normal graph.nodes target' ∧ (target' = .node END ∨ steps < graph.maxSteps) := by
  simp only [validateTarget,PyError.bindOk,PyError.raiseIfOk,exists_const] at valid
  obtain ⟨counted,given,normalised,budget,last⟩ := valid
  cases last
  refine ⟨by simpa using counted,Target.normaliseNormal normalised,?_⟩
  by_cases past : target' = .node END
  · exact .inl past
  · exact .inr (by simpa [past] using budget)

theorem validateSame {target : Target} {steps : Int}
    (normal : Target.Normal graph.nodes x.targetNodeName)
    (valid : validateTarget graph x.targetNodeName steps = .ok target) :
    target = x.targetNodeName ∧ (x.targetNodeName ≠ .node END → steps < graph.maxSteps) := by
  simp only [validateTarget,PyError.bindOk,PyError.raiseIfOk,exists_const] at valid
  obtain ⟨_,target',normalised,budget,last⟩ := valid
  rw [Target.normaliseStable normal] at normalised
  cases normalised
  cases last
  refine ⟨rfl,?_⟩
  intro more
  simpa [more] using budget

theorem coreBetween (conserved : Conserved nowhere s) (found : s.tasks[d]? = some task)
    (context : task.event.context = some c) (calling : task.calling = some (x.graphId,.coreFunc))
    (idle : task.work = .idle) (there : s.world.contexts[c]? = some x) (running : x.status = .running) :
    Between s c := by
  obtain ⟨h,event⟩ := carriesCases (carriesContext context)
  have ok := conserved.tasks d task found
  obtain ⟨mine,_⟩ := mentionFound (ok.mention h c event) there
  have holds := ok.running h c x event there running
  rw [mine] at calling
  obtain ⟨unposted,empty⟩ := callingEarly holds event calling idle
  exact .inr (.inr ⟨d,task,found,by simp [resting,carriesContext context,unposted,empty]⟩)

theorem phaseKept (conserved : Conserved nowhere s)
    (taken : Runtime.Step values s a t) (found : s.world.contexts[c]? = some x)
    (ran : x.status = .running) (there : t.world.contexts[c]? = some y)
    (tracked : Tracked values graph.toCompiled s c b x log l)
    (owner : s.world.graphs[x.graphId]? = some graph) (quiet : committed values s c a = none)
    (history : y.contextSnapshot = x.contextSnapshot) (target : y.targetNodeName = x.targetNodeName) :
    (graph.noSnapshot = false → Between t c → l.length = log.length) ∧
    (∀ (d : Nat) task, t.tasks[d]? = some task → gathers c task = true →
      (graph.noSnapshot = false → l.length = log.length + 1) ∧
      Target.normaliseTargets y.targetNodeName = .ok (task.nodes.map NodeTask.name)) := by
  refine ⟨?_,?_⟩
  · intro on between
    rcases betweenKept conserved taken found ran between with was | went
    · exact tracked.between on ran was
    · exact absurd quiet went
  · intro d task known busy
    rcases gathersKept conserved taken known busy with ⟨old,before,gathering,names⟩ |
      ⟨now,z,z',graph',rfl,_,here,_,owner',begun,after⟩
    · rw [names,target]
      exact ⟨fun on => tracked.within on ran d old before gathering,tracked.named ran d old before gathering⟩
    · cases Option.some.inj (found.symm.trans here)
      cases Option.some.inj (there.symm.trans after)
      cases Option.some.inj (owner.symm.trans owner')
      obtain ⟨named,⟨off,_⟩ | ⟨_,_,state,_,rfl⟩⟩ := executeNodeOk begun
      · rw [target]
        refine ⟨?_,named⟩
        intro on
        rw [off] at on
        contradiction
      · simp at history

theorem beganGathers {now : ℚ} {names : List String} (ready : Ready s)
    (taken : Runtime.step values s (.core d now) = some t) (found : s.tasks[d]? = some task)
    (context : task.event.context = some c) (calling : task.calling = some (x.graphId,.coreFunc))
    (idle : task.work = .idle) (owner : s.world.graphs[x.graphId]? = some graph)
    (there : s.world.contexts[c]? = some x) (running : x.status = .running)
    (more : x.targetNodeName ≠ .node END) (begun : executeNode values graph x now = .ok (names,y)) :
    ∃ next : DispatchTask V, t.tasks[d]? = some next ∧ gathers c next = true := by
  obtain ⟨h,event⟩ := carriesCases (carriesContext context)
  have active := runningActive ready.managed there running
  have result : t = s.setTask d {task with work := .gathering, nodes := names.map NodeTask.new}
      (s.world.setContext c y) := by
    simp only [Runtime.step,bind,Option.bind,found,calling,idle,and_self,if_true,core,event,active,owner,
      there,dispatchNode,more,if_false,begun] at taken
    rw [event]
    exact (Option.some.inj taken).symm
  subst result
  exact ⟨_,Slots.setSame found,by simp [gathers,carriesContext context]⟩

theorem trackedCommit (conserved : Conserved nowhere s) (after : Conserved nowhere t)
    (taken : Runtime.step values s a = some t) (found : s.world.contexts[c]? = some x)
    (there : t.world.contexts[c]? = some y) (owner : s.world.graphs[x.graphId]? = some graph)
    (tracked : Tracked values graph.toCompiled s c b x log l)
    (went : committed values s c a = some results) :
    Tracked values graph.toCompiled t c b y (log ++ [results]) l := by
  obtain ⟨⟨z,z',here,known,commits_⟩,d,task,place,context,work,next⟩ :=
    committedSome conserved.ready taken went
  cases Option.some.inj (found.symm.trans here)
  cases Option.some.inj (there.symm.trans known)
  have gathering : gathers c task = true := by simp [gathers,carriesContext context,work]
  have unposted := (conserved.tasks d task place).waits.unposted (.inl work)
  have between : Between t c :=
    .inr (.inr ⟨d,_,next,by simp [resting,carriesContext context,unposted]⟩)
  cases commits_ with
  | mk found' context' work' owner' running returned applied valid =>
    rename_i d' task' graph' next' state target
    cases Option.some.inj (owner.symm.trans owner')
    have named := tracked.named running d' task' found' (by simp [gathers,carriesContext context',work'])
    have taken_ : graph.noSnapshot = false → l.length = log.length + 1 :=
      fun on => tracked.within on running d task place gathering
    have none_ : ∀ (e : Nat) other, t.tasks[e]? = some other → gathers c other = true → False := by
      intro e other at_ busy
      rw [betweenExcludes after between at_] at busy
      contradiction
    have length : (log ++ [results]).length = log.length + 1 := List.length_append
    have alive : x.status ≠ .failed := by rw [running]; nofun
    have steps : x.steps = b.steps + log.length := tracked.steps.resolve_right (fun off => alive off.1)
    have normal : Target.Normal graph.nodes target := by
      simp only [validateTarget,PyError.bindOk] at valid
      obtain ⟨_,_,target',normalised,_,_,last⟩ := valid
      cases last
      exact Target.normaliseNormal normalised
    refine ⟨tracked.owner,normal,tracked.history,recordedCommit tracked.recorded taken_,?_,?_,?_,?_,?_,?_,
      ?_,tracked.pending,?_⟩
    · intro pending
      rw [show x.status = .pending from pending] at running
      contradiction
    · intro _
      exact Machine.runSnoc.mpr ⟨configOf x,tracked.live alive,applyAdvance named applied valid⟩
    · left
      show x.steps + 1 = b.steps + (log ++ [results]).length
      rw [steps,length]
      push_cast
      ring
    · intro on _ _
      rw [length]
      exact taken_ on
    · intro _ _ e other at_ busy
      exact (none_ e other at_ busy).elim
    · intro _ e other at_ busy
      exact (none_ e other at_ busy).elim
    · intro past
      rw [show x.status = .finished from past] at running
      contradiction
    · intro past
      rw [show x.status = .aborted from past] at running
      contradiction

theorem trackedEnded {status : Status} {value : GraphContext V → Future V} (conserved : Conserved nowhere s)
    (found : s.world.contexts[c]? = some x) (permitted : allowed x.status status = true)
    (cause : Cause s c x a status value) (tracked : Tracked values compiled s c b x log l) :
    Tracked values compiled t c b (ended x status value) log l := by
  have final := causeFinal cause
  have alive : x.status ≠ .failed := by
    intro failed
    rw [failed] at permitted
    cases status <;> contradiction
  have stopped : ∀ other, other.terminal = false → (ended x status value).status = other → False := by
    intro other open_ same
    rw [show status = other from same] at final
    rw [final] at open_
    contradiction
  refine ⟨tracked.owner,tracked.normal,tracked.history,tracked.recorded,?_,?_,?_,?_,?_,?_,?_,?_,?_⟩
  · exact fun pending => (stopped .pending rfl pending).elim
  · exact fun _ => tracked.live alive
  · exact .inl (tracked.steps.resolve_right (fun off => alive off.1))
  · exact fun _ running => (stopped .running rfl running).elim
  · exact fun _ running => (stopped .running rfl running).elim
  · exact fun running => (stopped .running rfl running).elim
  · intro past
    have past : status = .finished := past
    subst past
    have running : x.status = .running := by
      cases at_ : x.status <;> rw [at_] at permitted <;> first | rfl | contradiction
    cases cause with
    | notified known context calling mine how => rcases how with ⟨_,no,_⟩ | ⟨_,no,_⟩ <;> contradiction
    | woken known about completion done how => rcases how with ⟨_,no,_⟩ | ⟨_,no,_⟩ <;> contradiction
    | finished known context calling idle end_ =>
      exact ⟨end_,fun on => tracked.between on running
        (coreBetween conserved known context calling idle found running)⟩
  · exact fun running => (stopped .running rfl running).elim
  · intro past state result
    have past : status = .aborted := past
    subst past
    obtain ⟨f,held,value_⟩ := Option.map_eq_some_iff.mp result
    have running : x.status = .running := by
      have shaped := conserved.ready.managed.shaped c x found
      unfold Shaped at shaped
      cases at_ : x.status with
      | running => rfl
      | pending =>
        rw [at_] at shaped
        have none_ : x.completion = none := shaped.2.1
        rw [show x.completion = some f from held] at none_
        contradiction
      | _ => rw [at_] at permitted; contradiction
    rcases tracked.pending running with open_ | cancelled
    · cases Option.some.inj (open_.symm.trans held)
      rcases causeAborted cause with rfl | rfl
      · cases value_
        rfl
      · contradiction
    · cases Option.some.inj (cancelled.symm.trans held)
      contradiction

theorem trackedSame (conserved : Conserved nowhere s)
    (taken : Runtime.Step values s a t) (found : s.world.contexts[c]? = some x)
    (there : t.world.contexts[c]? = some y) (owner : s.world.graphs[x.graphId]? = some graph)
    (tracked : Tracked values graph.toCompiled s c b x log l) (quiet : committed values s c a = none)
    (mine : y.graphId = x.graphId) (config : configOf y = configOf x)
    (history : y.contextSnapshot = x.contextSnapshot) (status : y.status = x.status)
    (pending : y.status = .running → y.completion = some .pending ∨ y.completion = some .cancelled)
    (aborted : y.status = .aborted → y.completion = x.completion) :
    Tracked values graph.toCompiled t c b y log l := by
  have state : y.state = x.state := congrArg Config.state config
  have target : y.targetNodeName = x.targetNodeName := congrArg Config.target config
  have steps : y.steps = x.steps := congrArg Config.steps config
  have phase : y.status = .running → _ := fun running =>
    phaseKept conserved taken found (status.symm.trans running) there tracked owner quiet
      history target
  have latest : latestSnapshotState y = latestSnapshotState x := by
    unfold latestSnapshotState
    rw [history,state]
  refine ⟨mine.trans tracked.owner,target ▸ tracked.normal,history.trans tracked.history,tracked.recorded,
    status ▸ tracked.fresh,?_,?_,?_,?_,?_,?_,pending,?_⟩
  · rw [status,config]
    exact tracked.live
  · rw [status,steps]
    exact tracked.steps
  · exact fun on running => (phase running).1 on
  · exact fun on running d task known busy => ((phase running).2 d task known busy).1 on
  · exact fun running d task known busy => ((phase running).2 d task known busy).2
  · rw [status,target]
    exact tracked.past
  · intro past state' result
    rw [latest]
    exact tracked.aborted (status.symm.trans past) state' ((aborted past).symm.trans result)

/- A batch that is refused leaves a failed attempt, whatever it has written. -/
theorem trackedFailed (tracked : Tracked values compiled s c b x log l) (mine : y.graphId = x.graphId)
    (target : y.targetNodeName = x.targetNodeName) (history : y.contextSnapshot = x.contextSnapshot)
    (running : x.status = .running) (failed : y.status = .failed)
    (steps : y.steps = x.steps ∨ y.steps = x.steps + 1 ∧
      (compiled.noSnapshot = false → l.length = log.length + 1)) :
    Tracked values compiled t c b y log l := by
  have not : ∀ other : Status, other ≠ .failed → y.status = other → False := by
    intro other different same
    exact different (same.symm.trans failed)
  have count : x.steps = b.steps + log.length := by
    refine tracked.steps.resolve_right (fun off => ?_)
    rw [running] at off
    exact nomatch off.1
  refine ⟨mine.trans tracked.owner,target ▸ tracked.normal,history.trans tracked.history,tracked.recorded,
    fun at_ => (not .pending nofun at_).elim,fun alive => absurd failed alive,?_,
    fun _ at_ => (not .running nofun at_).elim,fun _ at_ => (not .running nofun at_).elim,
    fun at_ => (not .running nofun at_).elim,fun at_ => (not .finished nofun at_).elim,
    fun at_ => (not .running nofun at_).elim,fun at_ => (not .aborted nofun at_).elim⟩
  rcases steps with same | ⟨more,taken⟩
  · exact .inl (same.trans count)
  · exact .inr ⟨failed,by rw [more,count],taken⟩

theorem trackedBound {g run : Nat} (conserved : Conserved nowhere s) (after : Conserved nowhere t)
    (taken : Runtime.Step values s a t) (found : s.world.contexts[c]? = some x)
    (there : t.world.contexts[c]? = some (bound x g run)) (pending : x.status = .pending)
    (tracked : Tracked values compiled s c b x log l) :
    Tracked values compiled t c b (bound x g run) log l := by
  obtain ⟨rfl,rfl⟩ := tracked.fresh pending
  have idle : ∀ z, s.world.contexts[c]? = some z → z.status ≠ .running := by
    intro z known
    cases Option.some.inj (found.symm.trans known)
    rw [pending]
    decide
  obtain ⟨h,_,_,invocations⟩ := newlyRunning conserved.ready taken there rfl idle
  have between : Between t c := by
    refine .inl ?_
    rw [invocations,List.countP_append]
    simp [owesPost]
  have none_ : ∀ (d : Nat) task, t.tasks[d]? = some task → gathers c task = true → False := by
    intro d task known busy
    rw [betweenExcludes after between known] at busy
    contradiction
  have alive : x.status ≠ .failed := by rw [pending]; decide
  exact ⟨tracked.owner,tracked.normal,tracked.history,tracked.recorded,(fun at_ => by cases at_),fun _ => tracked.live alive,
    .inl (tracked.steps.resolve_right (fun off => alive off.1)),fun _ _ _ => rfl,
    fun _ _ d task known busy => (none_ d task known busy).elim,
    fun _ d task known busy => (none_ d task known busy).elim,(fun at_ => by cases at_),fun _ => .inl rfl,(fun at_ => by cases at_)⟩

theorem trackedBegan {now : ℚ} {names : List String} (conserved : Conserved nowhere s) (after : Conserved nowhere t)
    (taken : Runtime.step values s (.core d now) = some t) (found : s.world.contexts[c]? = some x)
    (there : t.world.contexts[c]? = some y) (owner : s.world.graphs[x.graphId]? = some graph)
    (tracked : Tracked values graph.toCompiled s c b x log l) (known : s.tasks[d]? = some task)
    (context : task.event.context = some c) (calling : task.calling = some (x.graphId,.coreFunc))
    (idle : task.work = .idle) (running : x.status = .running) (more : x.targetNodeName ≠ .node END)
    (begun : executeNode values graph x now = .ok (names,y)) :
    ∃ l', Tracked values graph.toCompiled t c b y log l' := by
  have alike := executeNodeAlike begun
  have before := coreBetween conserved known context calling idle found running
  have ran : y.status = .running := alike.status.trans running
  obtain ⟨next,place,busy⟩ := beganGathers conserved.ready taken known context calling idle owner found
    running more begun
  have none_ : ¬ Between t c := by
    intro between
    rw [betweenExcludes after between place] at busy
    contradiction
  have alive : x.status ≠ .failed := by rw [running]; nofun
  have target : y.targetNodeName = x.targetNodeName := by
    rcases (executeNodeOk begun).2 with ⟨_,rfl⟩ | ⟨_,_,_,_,rfl⟩ <;> rfl
  have config : configOf y = configOf x := by
    rcases (executeNodeOk begun).2 with ⟨_,rfl⟩ | ⟨_,_,_,_,rfl⟩ <;> rfl
  have named : ∀ (e : Nat) other, t.tasks[e]? = some other → gathers c other = true →
      Target.normaliseTargets y.targetNodeName = .ok (other.nodes.map NodeTask.name) := by
    intro e other at_ gathering
    rcases gathersKept conserved (Runtime.stepCases taken) at_ gathering with ⟨old,was,gathered,_⟩ |
      ⟨now',z,z',graph',_,_,here,_,owner',again,_⟩
    · rw [betweenExcludes conserved before was] at gathered
      contradiction
    · cases Option.some.inj (found.symm.trans here)
      cases Option.some.inj (owner.symm.trans owner')
      rw [target]
      exact (executeNodeOk again).1
  have not : ∀ other : Status, other ≠ .running → y.status = other → False := by
    intro other different same
    exact different (same.symm.trans ran)
  have rest : ∀ l', y.contextSnapshot = b.contextSnapshot ++ l' →
      Recorded values graph.toCompiled b log l' →
      (graph.noSnapshot = false → l'.length = log.length + 1) →
      Tracked values graph.toCompiled t c b y log l' := by
    intro l' history recorded more
    refine ⟨alike.graphId.trans tracked.owner,target ▸ tracked.normal,history,recorded,
      fun at_ => (not .pending nofun at_).elim,?_,?_,fun _ _ between => absurd between none_,
      fun on _ _ _ _ _ => more on,fun _ => named,fun at_ => (not .finished nofun at_).elim,?_,
      fun at_ => (not .aborted nofun at_).elim⟩
    · intro _
      rw [config]
      exact tracked.live alive
    · left
      rw [show y.steps = x.steps from congrArg Config.steps config]
      exact tracked.steps.resolve_right (fun off => alive off.1)
    · rw [alike.completion]
      exact fun _ => tracked.pending running
  rcases (executeNodeOk begun).2 with ⟨off,rfl⟩ | ⟨on,_,state,copied,rfl⟩
  · refine ⟨l,rest l tracked.history tracked.recorded ?_⟩
    intro on
    rw [off] at on
    contradiction
  · have length := tracked.between on running before
    have same := copyStateOk copied
    subst same
    have recorded : Recorded values graph.toCompiled b log
        (l ++ [⟨now,x.state,x.targetNodeName,x.steps,x.graphId⟩]) :=
      recordedCheckpoint tracked.recorded on length (tracked.live alive) tracked.owner
    refine ⟨_,rest _ ?_ recorded (fun _ => ?_)⟩
    · simp only [tracked.history,List.append_assoc]
    · rw [List.length_append,length]
      rfl

theorem trackedStep (conserved : Conserved nowhere s)
    (taken : Runtime.step values s a = some t) (found : s.world.contexts[c]? = some x)
    (there : t.world.contexts[c]? = some y) (owner : s.world.graphs[x.graphId]? = some graph)
    (tracked : Tracked values graph.toCompiled s c b x log l) :
    ∃ l', Tracked values graph.toCompiled t c b y (log ++ (committed values s c a).toList) l' := by
  have steps := Runtime.stepCases taken
  have after := conservedStep conserved (fun _ => nofun) steps
  cases went : committed values s c a with
  | some results => exact ⟨l,trackedCommit conserved after taken found there owner tracked went⟩
  | none =>
    rw [Option.toList_none,List.append_nil]
    obtain ⟨z,same,move⟩ := (stepMoves conserved.ready steps).moves c x found
    cases Option.some.inj (there.symm.trans same)
    cases move with
    | same =>
      exact ⟨l,trackedSame conserved steps found there owner tracked went rfl rfl rfl rfl
        tracked.pending (fun _ => rfl)⟩
    | ended permitted cause => exact ⟨l,trackedEnded conserved found permitted cause tracked⟩
    | bound owner' live mine pending valid =>
      exact ⟨l,trackedBound conserved after steps found there pending tracked⟩
    | interrupted known about completion =>
      rename_i k f invocation
      refine ⟨l,trackedSame conserved steps found there owner tracked went rfl rfl rfl rfl ?_ ?_⟩
      · intro running
        rcases tracked.pending running with open_ | cancelled
        · cases Option.some.inj (completion.symm.trans open_)
          exact .inr rfl
        · cases Option.some.inj (completion.symm.trans cancelled)
          exact .inr rfl
      · intro past
        have shaped := conserved.ready.managed.shaped c x found
        unfold Shaped at shaped
        rw [show x.status = .aborted from past] at shaped
        simp only [cancelDone (shaped.2.2 f completion)]
        exact completion.symm
    | targeted known about stage owner' running valid =>
      cases Option.some.inj (owner.symm.trans owner')
      obtain ⟨rfl,_⟩ := validateSame tracked.normal valid
      exact ⟨l,trackedSame conserved steps found there owner tracked went rfl rfl rfl rfl
        tracked.pending (fun _ => rfl)⟩
    | began known context calling idle owner' running more begun =>
      cases Option.some.inj (owner.symm.trans owner')
      exact trackedBegan conserved after taken found there owner tracked known context calling idle running
        more begun
    | committed known context work owner' running returned applied valid =>
      have some_ := moveCommitted conserved.ready found
        (.mk known context work owner' running returned applied valid)
      rw [went] at some_
      contradiction
    | refused known context work owner' running returned applied =>
      exact ⟨l,trackedFailed tracked rfl rfl rfl running rfl (.inl rfl)⟩
    | overrun known context work owner' running returned applied invalid =>
      rename_i d task graph' results next state error
      have gathering : gathers c task = true := by simp [gathers,carriesContext context,work]
      exact ⟨l,trackedFailed tracked rfl rfl rfl running rfl
        (.inr ⟨rfl,fun on => tracked.within on running d task known gathering⟩)⟩

end Step

/- What the log and the births of a run say of the state it has reached. -/
structure Trailed (values : Values V) (m : Nat) (r : List (Action V)) (s : State V) : Prop where
  count : (births values (Runtime.initial m) r).length = s.world.contexts.length
  formed : Formed s.world.graphs
  unborn : ∀ c : Nat, s.world.contexts[c]? = none → commits values c (Runtime.initial m) r = []
  entry : ∀ (c : Nat) b, (births values (Runtime.initial m) r)[c]? = some b →
    (∃ x, s.world.contexts[c]? = some x ∧ x.graphId = b.graphId) ∧
    ∃ graph, s.world.graphs[b.graphId]? = some graph ∧
      (b.contextSnapshot = [] → b.targetNodeName = graph.entryPoint ∧ b.steps = 0)
  tracked : ∀ (c : Nat) x b graph, s.world.contexts[c]? = some x →
    (births values (Runtime.initial m) r)[c]? = some b → s.world.graphs[x.graphId]? = some graph →
    Target.Normal graph.nodes b.targetNodeName →
    ∃ l, Tracked values graph.toCompiled s c b x (commits values c (Runtime.initial m) r) l

theorem trackedBorn (conserved : Conserved nowhere s) (after : Conserved nowhere t) (taken : Runtime.Step values s a t)
    (missing : s.world.contexts[c]? = none) (there : t.world.contexts[c]? = some y)
    (normal : Target.Normal compiled.nodes y.targetNodeName) : Tracked values compiled t c y y [] [] := by
  have recorded : Recorded values compiled y [] [] :=
    ⟨fun _ => rfl,fun _ => Nat.le_refl _,by simp,by simp⟩
  have born := (stepMoves conserved.ready taken).born c y there missing
  have between : y.status = .running → Between t c := by
    intro running
    obtain ⟨g,_,_,invocations⟩ := newlyRunning conserved.ready taken there running
      (by intro x found; rw [missing] at found; contradiction)
    refine .inl ?_
    rw [invocations,List.countP_append]
    simp [owesPost]
  have none_ : y.status = .running → ∀ (d : Nat) task, t.tasks[d]? = some task →
      gathers c task = true → False := by
    intro running d task known busy
    rw [betweenExcludes after (between running) known] at busy
    contradiction
  have open_ : y.status = .pending ∨ y.status = .running ∧ y.completion = some .pending := by
    cases born with
    | created owner copied => exact .inl rfl
    | invoked owner live copied valid => exact .inr ⟨rfl,rfl⟩
    | restored owner sourced valid latest => exact .inl rfl
  refine ⟨rfl,normal,(List.append_nil _).symm,recorded,fun _ => ⟨rfl,rfl⟩,fun _ => rfl,.inl ?_,
    fun _ _ _ => rfl,fun _ running d task known busy => (none_ running d task known busy).elim,
    fun running d task known busy => (none_ running d task known busy).elim,?_,?_,?_⟩
  · simp
  · intro past
    rcases open_ with pending | ⟨running,_⟩
    · rw [past] at pending; contradiction
    · rw [past] at running; contradiction
  · intro running
    rcases open_ with pending | ⟨_,held⟩
    · rw [running] at pending; contradiction
    · exact .inl held
  · intro past
    rcases open_ with pending | ⟨running,_⟩
    · rw [past] at pending; contradiction
    · rw [past] at running; contradiction

theorem bornEntry (born : Born values s a y) : ∃ graph, s.world.graphs[y.graphId]? = some graph ∧
    (y.contextSnapshot = [] → y.targetNodeName = graph.entryPoint ∧ y.steps = 0) := by
  cases born with
  | created owner copied => exact ⟨_,owner,fun _ => ⟨rfl,rfl⟩⟩
  | invoked owner live copied valid => exact ⟨_,owner,fun _ => ⟨rfl,rfl⟩⟩
  | restored owner sourced valid latest =>
    rename_i g source version graph raw history snapshot
    refine ⟨graph,owner,?_⟩
    intro none_
    have none_ : history = [] := none_
    rw [none_] at latest
    contradiction

theorem committedKnown (went : committed values s c a = some results) :
    ∃ x, s.world.contexts[c]? = some x := by
  unfold committed at went
  split at went <;> try contradiction
  simp only [bind,Option.bind_eq_some_iff] at went
  obtain ⟨_,_,_,_,_,_,_,_,x,there,_⟩ := went
  exact ⟨x,there⟩

theorem initialTrailed (m : Nat) : Trailed values m [] (Runtime.initial m) := by
  refine ⟨rfl,?_,fun _ _ => rfl,?_,?_⟩
  · intro g graph owner
    simp [Runtime.initial,NodeGraph.initial] at owner
  · intro c b born
    rw [birthsNil] at born
    cases born
  · intro c x b graph found
    simp [Runtime.initial,NodeGraph.initial] at found

theorem bornCases {m : Nat} (trailed : Trailed values m r s)
    (ran : Machine.run (Runtime.step values) (Runtime.initial m) r = some s)
    (taken : Runtime.step values s a = some t) (there : t.world.contexts[c]? = some y)
    (born : (births values (Runtime.initial m) (r ++ [a]))[c]? = some b) :
    s.world.contexts[c]? = none ∧ b = y ∨
    ∃ x, s.world.contexts[c]? = some x ∧ (births values (Runtime.initial m) r)[c]? = some b := by
  rw [birthsSnoc ran taken] at born
  cases found : s.world.contexts[c]? with
  | none =>
    have outside := List.getElem?_eq_none_iff.mp found
    rw [List.getElem?_append_right (by rw [trailed.count]; exact outside),List.getElem?_drop,
      trailed.count,show s.world.contexts.length + (c - s.world.contexts.length) = c by omega] at born
    exact .inl ⟨rfl,Option.some.inj (born.symm.trans there)⟩
  | some x =>
    have inside := Slots.inside found
    rw [List.getElem?_append_left (by rw [trailed.count]; exact inside)] at born
    exact .inr ⟨x,rfl,born⟩

theorem trailedStep {m : Nat} (conserved : Conserved nowhere s)
    (ran : Machine.run (Runtime.step values) (Runtime.initial m) r = some s)
    (trailed : Trailed values m r s)
    (taken : Runtime.step values s a = some t) : Trailed values m (r ++ [a]) t := by
  have steps := Runtime.stepCases taken
  have moved := stepMoves conserved.ready steps
  have persists := stepPersists conserved.ready steps
  have after := conservedStep conserved (fun _ => nofun) steps
  have grown : s.world.contexts.length ≤ t.world.contexts.length := by
    by_contra less
    have short : t.world.contexts.length < s.world.contexts.length := by omega
    obtain ⟨y,there,_⟩ := persists _ _ (List.getElem?_eq_getElem short)
    have inside := Slots.inside there
    omega
  have births_ := birthsSnoc ran taken
  have commits_ : ∀ c, commits values c (Runtime.initial m) (r ++ [a]) =
      commits values c (Runtime.initial m) r ++ (committed values s c a).toList :=
    fun c => commitsSnoc ran
  have quiet : ∀ c : Nat, s.world.contexts[c]? = none → committed values s c a = none := by
    intro c missing
    cases went : committed values s c a with
    | none => rfl
    | some results =>
      obtain ⟨x,there⟩ := committedKnown went
      rw [missing] at there
      contradiction
  refine ⟨?_,compilesFormed moved.graphs trailed.formed,?_,?_,?_⟩
  · rw [births_,List.length_append,List.length_drop,trailed.count]
    omega
  · intro c missing
    have before : s.world.contexts[c]? = none := by
      refine List.getElem?_eq_none_iff.mpr ?_
      have outside := List.getElem?_eq_none_iff.mp missing
      omega
    rw [commits_,trailed.unborn c before,quiet c before]
    rfl
  · intro c b born
    have before : (∃ y, t.world.contexts[c]? = some y ∧ y.graphId = b.graphId) ∧
        ∃ graph, s.world.graphs[b.graphId]? = some graph ∧
          (b.contextSnapshot = [] → b.targetNodeName = graph.entryPoint ∧ b.steps = 0) := by
      rw [births_,List.getElem?_append] at born
      split at born
      · obtain ⟨⟨x,found,mine⟩,entry⟩ := trailed.entry c b born
        obtain ⟨y,there,goes⟩ := persists c x found
        exact ⟨⟨y,there,goes.graphId.trans mine⟩,entry⟩
      · rename_i outside
        rw [List.getElem?_drop,trailed.count,
          show s.world.contexts.length + (c - s.world.contexts.length) = c by
            rw [trailed.count] at outside; omega] at born
        refine ⟨⟨b,born,rfl⟩,bornEntry (moved.born c b born (List.getElem?_eq_none_iff.mpr ?_))⟩
        rw [trailed.count] at outside
        omega
    obtain ⟨there,graph,owner,entry⟩ := before
    obtain ⟨graph',kept,compiled,_⟩ := compilesKept moved.graphs owner
    refine ⟨there,graph',kept,?_⟩
    rw [show graph'.entryPoint = graph.entryPoint from congrArg Compiled.entryPoint compiled]
    exact entry
  · intro c y b graph' there born owner normal
    rw [commits_]
    rcases bornCases trailed ran taken there born with ⟨missing,rfl⟩ | ⟨x,found,born⟩
    · rw [trailed.unborn c missing,quiet c missing]
      exact ⟨[],trackedBorn conserved after steps missing there normal⟩
    · obtain ⟨z,same,goes⟩ := persists c x found
      cases Option.some.inj (there.symm.trans same)
      have owned := conserved.ready.managed.owned c x found
      have known : s.world.graphs[x.graphId]? = some s.world.graphs[x.graphId] :=
        List.getElem?_eq_getElem owned
      obtain ⟨graph,kept,compiled,_⟩ := compilesKept moved.graphs known
      rw [goes.graphId] at owner
      cases Option.some.inj (owner.symm.trans kept)
      rw [compiled] at normal ⊢
      obtain ⟨l,tracked⟩ := trailed.tracked c x b _ found born known normal
      exact trackedStep conserved taken found there known tracked

theorem runTrailed {m : Nat}
    (ran : Machine.run (Runtime.step values) (Runtime.initial m) r = some s) : Trailed values m r s :=
  Machine.history (initialTrailed m)
    (fun _ _ _ _ before trailed taken => trailedStep (runConserved before) before trailed taken) ran

theorem freshTracked {m : Nat} (trailed : Trailed values m r s)
    (born : (births values (Runtime.initial m) r)[c]? = some b) (fresh : b.contextSnapshot = [])
    (found : s.world.contexts[c]? = some x) (owner : s.world.graphs[x.graphId]? = some graph) :
    b.targetNodeName = graph.entryPoint ∧ b.steps = 0 ∧
      ∃ l, Tracked values graph.toCompiled s c b x (commits values c (Runtime.initial m) r) l := by
  obtain ⟨⟨z,there,mine⟩,graph',known,entry⟩ := trailed.entry c b born
  cases Option.some.inj (found.symm.trans there)
  rw [← mine] at known
  cases Option.some.inj (owner.symm.trans known)
  obtain ⟨target,steps⟩ := entry fresh
  refine ⟨target,steps,trailed.tracked c x b graph found born owner ?_⟩
  rw [target]
  exact trailed.formed _ graph owner

end Apixis.Trail
