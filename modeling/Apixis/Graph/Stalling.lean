import Apixis.Graph.Refinement

/-! What an attempt leaves that fails: the state and the step count of the one batch
that the interpreter cannot follow. -/
namespace Apixis.Stalling
open NodeGraph hiding Action step initial
open ApplyCommand Lifecycle Moves Obligation Baton Plugins Interpreter Trail Refinement Apixis.Runtime

variable {V : Type} {values : Values V} {behave : Behaviour V} {compiled : Compiled} {maxSteps : Int}
  {s t : State V} {c d : Nat} {a : Action V} {r : List (Action V)} {x y b : GraphContext V}
  {task next : DispatchTask V} {results : List (Result V)} {state : StateDict V} {graph : Graph}
  {log : List (List (Result V))} {l : List (Snapshot V)}

/- An attempt that has failed has left what its last batch leaves. -/
structure Stalls (values : Values V) (behave : Behaviour V) (compiled : Compiled) (maxSteps : Int)
    (s : State V) (c : Nat) (b x : GraphContext V) : Prop where
  left : x.status = .failed → ∃ n config,
    Loop.ahead (follow values behave compiled maxSteps) n (configOf b) = some config ∧
    follow values behave compiled maxSteps config = none ∧
    leftover values behave compiled maxSteps config = (x.state,x.steps)
  calm : x.status = .running → ∀ (d : Nat) task, s.tasks[d]? = some task →
    carries c task.event = true → Calm (task.posted = false ∧ Falters values behave compiled (configOf x))
      (place task) task.run

theorem committedAway (after : Conserved nowhere t) (there : t.world.contexts[c]? = some y)
    (running : y.status = .running) {e : Nat} {other : DispatchTask V} (put : t.tasks[e]? = some other)
    (carried' : carries c other.event = true) (posting : other.work = .posting)
    (known : t.tasks[d]? = some next) (carried : carries c next.event = true)
    (open_ : next.posted = false) {parent : Option Dispatch.Phase}
    (pc : next.run.pc = .execute (place next) (.calling .onError parent)) : False := by
  have unposted' := (after.tasks e other put).waits.unposted (.inr posting)
  have mine : unposted c other = true := by simp [unposted,carried',unposted']
  have also : unposted c next = true := by simp [unposted,carried,open_]
  have few := after.few c
  unfold pieces at few
  have same := Slots.countUnique (unposted c) (by omega) put known mine also
  subst same
  cases Option.some.inj (put.symm.trans known)
  obtain ⟨g,event⟩ := carriesCases carried
  obtain ⟨_,_,_,called,_⟩ := after.ready.works e next put (by rw [posting]; decide)
  have holds := (after.tasks e next put).running g c y event there running
  rw [placeCalling holds event pc] at called
  cases called

theorem stallsCalm (conserved : Conserved nowhere s) (after : Conserved nowhere t)
    (taken : Runtime.step values s a = some t) (found : s.world.contexts[c]? = some x)
    (there : t.world.contexts[c]? = some y) (owner : s.world.graphs[x.graphId]? = some graph)
    (tracked : Tracked values graph.toCompiled s c b x log l) (undisturbed : Undisturbed behave c s a)
    (apart : x.status = .running → Checkpointable values graph.toCompiled (configOf x))
    (stalls : Stalls values behave graph.toCompiled maxSteps s c b x) (running : y.status = .running)
    (known : t.tasks[d]? = some next) (carried : carries c next.event = true) :
    Calm (next.posted = false ∧ Falters values behave graph.toCompiled (configOf y)) (place next)
      next.run := by
  have steps := Runtime.stepCases taken
  have calm := carriedCalm (fun posted => posted = false ∧ Falters values behave graph.toCompiled
    (configOf x)) conserved after steps found there owner undisturbed
    (fun _ _ ran more raised => ⟨rfl,executeNodeFalters tracked.normal ran more (apart ran) raised⟩)
    stalls.calm running known carried
  cases went : committed values s c a with
  | none =>
    obtain ⟨z,same,move⟩ := (stepMoves conserved.ready steps).moves c x found
    cases Option.some.inj (there.symm.trans same)
    rw [moveConfig conserved.ready found owner tracked.normal move running went]
    exact calm
  | some results =>
    obtain ⟨_,e,task,_,context,_,put⟩ := committedSome conserved.ready taken went
    refine ⟨calm.accepted,calm.errors,?_⟩
    intro phase parent pc
    rcases calm.phases phase parent pc with core | ⟨rfl,_,open_,_⟩
    · exact .inl core
    · exact (committedAway after there running put (carriesContext context) rfl known carried open_ pc).elim

theorem stallsStep (conserved : Conserved nowhere s) (taken : Runtime.step values s a = some t)
    (found : s.world.contexts[c]? = some x) (there : t.world.contexts[c]? = some y)
    (owner : s.world.graphs[x.graphId]? = some graph) (budgeted : graph.maxSteps = maxSteps)
    (tracked : Tracked values graph.toCompiled s c b x log l) (undisturbed : Undisturbed behave c s a)
    (apart : x.status = .running → Checkpointable values graph.toCompiled (configOf x))
    (follows : Follows values behave graph.toCompiled maxSteps s c b x log)
    (stalls : Stalls values behave graph.toCompiled maxSteps s c b x) :
    Stalls values behave graph.toCompiled maxSteps t c b y := by
  have steps := Runtime.stepCases taken
  have after := conservedStep conserved (fun _ => nofun) steps
  refine ⟨?_,fun running d task known carried => stallsCalm conserved after taken found there owner tracked
    undisturbed apart stalls running known carried⟩
  have here : x.status = .running →
      Loop.ahead (follow values behave graph.toCompiled maxSteps) log.length (configOf b) =
        some (configOf x) :=
    fun running => followsReached tracked follows (by rw [running]; nofun)
  obtain ⟨z,same,move⟩ := (stepMoves conserved.ready steps).moves c x found
  cases Option.some.inj (there.symm.trans same)
  intro failed
  cases move with
  | same => exact stalls.left failed
  | bound owner' live mine pending valid => contradiction
  | ended permitted cause =>
    cases failed
    have falters : x.status = .running ∧ Falters values behave graph.toCompiled (configOf x) := by
      obtain ⟨ran,⟨_,_,_,_,known⟩ | ⟨_,known⟩⟩ := failedCause (fun _ task => task.posted = false ∧
        Falters values behave graph.toCompiled (configOf x)) conserved found owner budgeted permitted tracked
        undisturbed follows stalls.calm cause
      · exact ⟨ran,known⟩
      · exact ⟨ran,known⟩
    have stuck : follow values behave graph.toCompiled maxSteps (configOf x) = none ∧ _ :=
      faltersLeft falters.2
    exact ⟨log.length,configOf x,here falters.1,stuck⟩
  | interrupted known about completion => exact stalls.left failed
  | targeted known about stage owner' running valid => rw [show x.status = _ from failed] at running; contradiction
  | began known context calling idle owner' running more begun =>
    rcases (executeNodeOk begun).2 with ⟨_,rfl⟩ | ⟨_,_,_,_,rfl⟩
    · exact stalls.left failed
    · exact stalls.left failed
  | committed known context work owner' running returned applied valid =>
    rw [show x.status = _ from failed] at running
    contradiction
  | refused known context work owner' running returned applied =>
    cases Option.some.inj (owner.symm.trans owner')
    have live := runningLive conserved.ready.managed found running owner
    obtain ⟨_,stuck,left⟩ := refusedLeft running live tracked follows known context work returned applied
    exact ⟨log.length,configOf x,here running,stuck,left⟩
  | overrun known context work owner' running returned applied invalid =>
    cases Option.some.inj (owner.symm.trans owner')
    obtain ⟨n,config,reached,_,stuck,left⟩ := overrunLeft running budgeted tracked follows known context work
      returned applied invalid
    refine ⟨log.length + n,config,?_,stuck,left⟩
    rw [Loop.aheadAdd,here running,Option.bind_some,reached]

theorem stallsBorn (conserved : Conserved nowhere s) (steps : Runtime.Step values s a t)
    (missing : s.world.contexts[c]? = none) (there : t.world.contexts[c]? = some y) :
    Stalls values behave compiled maxSteps t c y y := by
  refine ⟨?_,?_⟩
  · intro failed
    cases (stepMoves conserved.ready steps).born c y there missing <;> contradiction
  · intro _ d task known carried
    rw [bornAlone conserved steps missing there known] at carried
    contradiction

/- As long as nobody disturbs it, an attempt that fails leaves what the interpreter leaves. -/
theorem runStalls {m : Nat}
    (undisturbed : Machine.Steps (Runtime.step values) (Undisturbed behave c) (Runtime.initial m) r)
    (ran : Machine.run (Runtime.step values) (Runtime.initial m) r = some s) :
    Attempts values m c (fun compiled maxSteps s b x _ =>
      (∀ n config, Loop.ahead (follow values behave compiled maxSteps) n (configOf b) = some config →
        Checkpointable values compiled config) → Stalls values behave compiled maxSteps s c b x) r s := by
  refine Machine.historySteps ?_ ?_ undisturbed ran
  · intro b x graph _ found
    simp [Runtime.initial,NodeGraph.initial] at found
  · intro r s a t before went here stalling taken
    have conserved := runConserved went
    have following := runFollowing before went
    refine attemptsStep (P := fun compiled maxSteps s b x _ =>
      (∀ n config, Loop.ahead (follow values behave compiled maxSteps) n (configOf b) = some config →
        Checkpointable values compiled config) → Stalls values behave compiled maxSteps s c b x)
      went (undisturbedBudget here) taken ?_ ?_ stalling
    · intro y graph missing there known _
      exact stallsBorn conserved (Runtime.stepCases taken) missing there
    · intro b x y graph l born found there known normal tracked stalls apart
      have follows := following b x graph born found known normal apart
      refine stallsStep conserved taken found there known rfl tracked here ?_ follows (stalls apart)
      intro running
      exact apart _ _ (followsReached tracked follows (by rw [running]; decide))

end Apixis.Stalling
