import Apixis.Graph.Restoring
import Apixis.Graph.Stalling

/-! Replaying an attempt from one of its checkpoints. Every checkpoint lies on the way
of the interpreter from where the attempt started, whatever ended the attempt; so a
context that is restored from one ends as an attempt that nobody has interrupted. -/
namespace Apixis.Replay
open NodeGraph hiding Action step initial
open ApplyCommand Lifecycle Moves Obligation Baton Plugins Interpreter Trail Refinement Stalling Restoring
open Apixis.Runtime

variable {V : Type}

def refuses : Action V → Bool
  | .putFailed _ _ => true
  | .invokeFailed _ _ => true
  | _ => false

/- What is asked of an action while the checkpoints of context `c` are taken. Its events
may be refused here, which ends the attempt. -/
def Determined (behave : Behaviour V) (c : Nat) (s : State V) (a : Action V) : Prop :=
  refuses a = true ∨ Undisturbed behave c s a

instance [DecidableEq V] (behave : Behaviour V) (c : Nat) (s : State V) (a : Action V) :
    Decidable (Determined behave c s a) := inferInstanceAs (Decidable (_ ∨ _))

variable {values : Values V} {behave : Behaviour V} {compiled : Compiled} {w : World V} {s t u : State V}
  {g c d k m : Nat} {a : Action V} {r : List (Action V)} {x y b : GraphContext V} {graph : Graph}
  {maxSteps : Int} {start config : Config V} {log : List (List (Result V))} {l l' : List (Snapshot V)}

theorem mentionPast (managed : Managed w) (mention : Mention w g c) (found : w.contexts[c]? = some x)
    (stopped : x.status ≠ .running) : x.status.terminal = true := by
  have shaped := managed.shaped c x found
  have started := (mentionFound mention found).2
  unfold Shaped at shaped
  cases at_ : x.status with
  | running => exact absurd at_ stopped
  | pending =>
    rw [at_] at shaped
    exact absurd shaped.1 started
  | _ => rfl

theorem refusalEnds (conserved : Conserved nowhere s) (taken : Runtime.Step values s a t)
    (refusal : refuses a = true) (disturbed : ¬ Undisturbed behave c s a)
    (found : s.world.contexts[c]? = some x) (there : t.world.contexts[c]? = some y) :
    y.status.terminal = true := by
  have managed := conserved.ready.managed
  have after := conservedStep conserved (fun _ => nofun) taken
  obtain ⟨z,same,goes⟩ := stepPersists conserved.ready taken c x found
  cases Option.some.inj (there.symm.trans same)
  cases a with
  | putFailed d error =>
    cases taken with
    | task known moved =>
      cases moved with
      | putFailed calling context work answered =>
        rename_i task next g phase e
        have carried : carries c task.event = true := by
          by_contra away
          refine disturbed ?_
          intro other member
          cases Option.some.inj (known.symm.trans member)
          exact Bool.eq_false_iff.mpr away
        obtain ⟨h,event⟩ := carriesCases carried
        rw [event] at context
        cases context
        have mine := worksOwner (conserved.ready.works _ task known) (by rw [work]; nofun) calling
          (by rw [event]; rfl) found
        have inactive := closesInactive managed rfl (fun _ => rfl) (failIfActiveCloses managed g c error)
        obtain ⟨run,_,rfl⟩ := answerCases answered
        have mention := (after.tasks _ _ (Slots.setSame known)).mention h c event
        refine mentionPast after.ready.managed mention there ?_
        intro running
        have active := ownerActive after.ready.managed there (goes.graphId.trans mine) running
        exact Bool.false_ne_true (inactive.symm.trans active)
    | invocation known moved => cases moved
  | invokeFailed k error =>
    cases taken with
    | task known moved => cases moved
    | invocation known moved =>
      cases moved with
      | failed stage =>
        rename_i invocation
        have about : invocation.context = c := by
          by_contra away
          refine disturbed ?_
          intro other member
          cases Option.some.inj (known.symm.trans member)
          exact away
        subst about
        have mention := conserved.invocations k invocation known
        have mine := (mentionFound mention found).1
        have inactive := closesInactive managed rfl (fun _ => rfl)
          (graphFailCloses managed invocation.graphId invocation.context error)
        have still := after.invocations k _ (Slots.setSame known)
        refine mentionPast after.ready.managed still there ?_
        intro running
        have active := ownerActive after.ready.managed there (goes.graphId.trans mine) running
        exact Bool.false_ne_true (inactive.symm.trans active)
  | _ => contradiction

theorem noneCheckpointable {config : Config V} (none_ : compiled.keepRefKeys = []) :
    Checkpointable values compiled config := by
  refine .inr (.inr ?_)
  intro entry _ shared
  simp [none_] at shared

/- A checkpoint on the way of the interpreter from `start`, from which a batch may begin. -/
structure Marked (values : Values V) (behave : Behaviour V) (compiled : Compiled) (maxSteps : Int)
    (start : Config V) (snapshot : Snapshot V) : Prop where
  ahead : ∃ n, Loop.ahead (follow values behave compiled maxSteps) n start = some (checkpointOf snapshot)
  normal : Target.Normal compiled.nodes snapshot.targetNodeName
  budget : snapshot.targetNodeName = .node END ∨ snapshot.steps < maxSteps

theorem markedAhead {n : Nat} {snapshot : Snapshot V}
    (reached : Loop.ahead (follow values behave compiled maxSteps) n start = some config)
    (marked : Marked values behave compiled maxSteps config snapshot) :
    Marked values behave compiled maxSteps start snapshot := by
  obtain ⟨j,ahead⟩ := marked.ahead
  refine ⟨⟨n + j,?_⟩,marked.normal,marked.budget⟩
  rw [Loop.aheadAdd,reached,Option.bind_some,ahead]

/- The checkpoints of an attempt, until it ends and ever after. -/
structure Keeps (values : Values V) (behave : Behaviour V) (compiled : Compiled) (maxSteps : Int)
    (s : State V) (c : Nat) (b x : GraphContext V) (log : List (List (Result V))) : Prop where
  path : ∀ k ≤ log.length, Loop.ahead (follow values behave compiled maxSteps) k (configOf b) =
    reached values compiled b (log.take k)
  follows : x.status.terminal = false → Follows values behave compiled maxSteps s c b x log
  marks : ∀ snapshot ∈ x.contextSnapshot,
    snapshot ∈ b.contextSnapshot ∨ Marked values behave compiled maxSteps (configOf b) snapshot

theorem moveHistory (move : Move values s c x a y) : y.contextSnapshot = x.contextSnapshot ∨
    x.status = .running ∧ x.targetNodeName ≠ .node END ∧ ∃ snapshot,
      y.contextSnapshot = x.contextSnapshot ++ [snapshot] ∧ checkpointOf snapshot = configOf x := by
  cases move with
  | began found context calling idle owner running more begun =>
    rcases (executeNodeOk begun).2 with ⟨_,rfl⟩ | ⟨_,_,state,copied,rfl⟩
    · exact .inl rfl
    · cases copyStateOk copied
      exact .inr ⟨running,more,_,rfl,rfl⟩
  | _ => exact .inl rfl

theorem keepsStep (conserved : Conserved nowhere s) (taken : Runtime.step values s a = some t)
    (found : s.world.contexts[c]? = some x) (there : t.world.contexts[c]? = some y)
    (owner : s.world.graphs[x.graphId]? = some graph) (budgeted : graph.maxSteps = maxSteps)
    (tracked : Tracked values graph.toCompiled s c b x log l) (determined : Determined behave c s a)
    (apart : x.status = .running → Checkpointable values graph.toCompiled (configOf x))
    (keeps : Keeps values behave graph.toCompiled maxSteps s c b x log) :
    Keeps values behave graph.toCompiled maxSteps t c b y (log ++ (committed values s c a).toList) := by
  have steps := Runtime.stepCases taken
  obtain ⟨z,same,move⟩ := (stepMoves conserved.ready steps).moves c x found
  cases Option.some.inj (there.symm.trans same)
  have goes := moveContinues conserved.ready found move
  have marks : ∀ snapshot ∈ y.contextSnapshot, snapshot ∈ b.contextSnapshot ∨
      Marked values behave graph.toCompiled maxSteps (configOf b) snapshot := by
    intro snapshot member
    rcases moveHistory move with kept | ⟨running,more,taken_,grown,here⟩
    · exact keeps.marks snapshot (kept ▸ member)
    · rw [grown] at member
      rcases List.mem_append.mp member with old | new
      · exact keeps.marks snapshot old
      · cases List.mem_singleton.mp new
        have follows := keeps.follows (by rw [running]; rfl)
        have target : snapshot.targetNodeName = x.targetNodeName := congrArg Config.target here
        have counted : snapshot.steps = x.steps := congrArg Config.steps here
        refine .inr ⟨⟨log.length,?_⟩,?_,?_⟩
        · rw [here]
          exact followsReached tracked follows (by rw [running]; nofun)
        · rw [target]
          exact tracked.normal
        · rw [target,counted]
          exact (follows.budget running).2
  -- an attempt that is over commits nothing
  have quiet : x.status ≠ .running → committed values s c a = none := by
    intro stopped
    cases went : committed values s c a with
    | none => rfl
    | some results =>
      obtain ⟨⟨z,_,here,_,commits_⟩,_⟩ := committedSome conserved.ready taken went
      cases Option.some.inj (found.symm.trans here)
      cases commits_ with
      | mk _ _ _ _ running => exact absurd running stopped
  have still : committed values s c a = none → ∀ k ≤ (log ++ (committed values s c a).toList).length,
      Loop.ahead (follow values behave graph.toCompiled maxSteps) k (configOf b) =
        reached values graph.toCompiled b ((log ++ (committed values s c a).toList).take k) := by
    intro none_
    rw [none_,Option.toList_none,List.append_nil]
    exact keeps.path
  cases over_ : x.status.terminal with
  | true =>
    refine ⟨still (quiet ?_),?_,marks⟩
    · intro running
      rw [running] at over_
      contradiction
    · intro open_
      rw [goes.status over_,over_] at open_
      contradiction
  | false =>
    have follows := keeps.follows over_
    by_cases undisturbed : Undisturbed behave c s a
    · have next := followsStep conserved taken found there owner budgeted tracked undisturbed apart follows
      exact ⟨next.path,fun _ => next,marks⟩
    · have refusal := determined.resolve_right undisturbed
      have past := refusalEnds conserved steps refusal undisturbed found there
      refine ⟨still ?_,?_,marks⟩
      · cases a <;> first | contradiction | rfl
      · intro open_
        rw [past] at open_
        contradiction

theorem determinedBudget (determined : Determined behave c s a) : BudgetKept c s a := by
  rcases determined with refusal | undisturbed
  · rintro x found n rfl
    contradiction
  · exact undisturbedBudget undisturbed

theorem runKeeps (determined : Machine.Steps (Runtime.step values) (Determined behave c) (Runtime.initial m) r)
    (ran : Machine.run (Runtime.step values) (Runtime.initial m) r = some s) :
    Attempts values m c (fun compiled maxSteps s b x log => compiled.keepRefKeys = [] →
      Keeps values behave compiled maxSteps s c b x log) r s := by
  refine Machine.historySteps ?_ ?_ determined ran
  · intro b x graph _ found
    simp [Runtime.initial,NodeGraph.initial] at found
  · intro r s a t _ went here keeping taken
    have conserved := runConserved went
    refine attemptsStep (P := fun compiled maxSteps s b x log => compiled.keepRefKeys = [] →
      Keeps values behave compiled maxSteps s c b x log) went (determinedBudget here) taken ?_ ?_ keeping
    · intro y graph missing there known _
      have follows : Follows values behave graph.toCompiled graph.maxSteps t c y y [] :=
        followsBorn conserved (Runtime.stepCases taken) missing there known (runTrailed went).formed
      exact ⟨follows.path,fun _ => follows,fun _ member => .inl member⟩
    · intro b x y graph l born found there known normal tracked keeps unshared
      exact keepsStep conserved taken found there known rfl tracked here (fun _ => noneCheckpointable unshared)
        (keeps unshared)

/- What an attempt from `start` has ended as, where nobody has disturbed it. -/
inductive Uninterrupted (values : Values V) (behave : Behaviour V) (compiled : Compiled) (maxSteps : Int)
    (start : Config V) (x : GraphContext V) : Prop where
  | mk {m c : Nat} {r : List (Action V)} {s : State V} {b : GraphContext V} {graph : Graph}
      (undisturbed : Machine.Steps (Runtime.step values) (Undisturbed behave c) (Runtime.initial m) r)
      (ran : Machine.run (Runtime.step values) (Runtime.initial m) r = some s)
      (born : (births values (Runtime.initial m) r)[c]? = some b) (from_ : configOf b = start)
      (found : s.world.contexts[c]? = some x) (owner : s.world.graphs[x.graphId]? = some graph)
      (same : graph.toCompiled = compiled) (budget : graph.maxSteps = maxSteps)
      (past : x.status.terminal = true) (kept : x.status ≠ .aborted) :
      Uninterrupted values behave compiled maxSteps start x

/- The end of an attempt, in terms of the interpreter. -/
structure Ends (values : Values V) (behave : Behaviour V) (compiled : Compiled) (maxSteps : Int)
    (start : Config V) (x : GraphContext V) : Prop where
  how : x.status = .finished ∧ interpret values behave compiled maxSteps start = .finished (configOf x) ∨
    x.status = .failed ∧ interpret values behave compiled maxSteps start = .failed
  left : x.status = .failed → ∃ n config,
    Loop.ahead (follow values behave compiled maxSteps) n start = some config ∧
    follow values behave compiled maxSteps config = none ∧
    leftover values behave compiled maxSteps config = (x.state,x.steps)

theorem uninterruptedEnds (attempt : Uninterrupted values behave compiled maxSteps start x)
    (normal : Target.Normal compiled.nodes start.target) (unshared : compiled.keepRefKeys = []) :
    Ends values behave compiled maxSteps start x := by
  cases attempt with
  | mk undisturbed ran born from_ found owner same budget past kept =>
    rename_i m c r s b graph
    subst from_ same budget
    have free : ∀ n config, Loop.ahead (follow values behave graph.toCompiled graph.maxSteps) n (configOf b) =
        some config → Checkpointable values graph.toCompiled config := fun _ _ _ => noneCheckpointable unshared
    have follows := runFollowing undisturbed ran _ x _ born found owner normal free
    have stalls := runStalls undisturbed ran _ x _ born found owner normal free
    obtain ⟨l,tracked⟩ := (runTrailed ran).tracked _ x _ _ found born owner normal
    exact ⟨followsEnded tracked follows past kept,stalls.left⟩

theorem endsAhead {n : Nat}
    (reached : Loop.ahead (follow values behave compiled maxSteps) n start = some config)
    (ends : Ends values behave compiled maxSteps config x) :
    Ends values behave compiled maxSteps start x := by
  refine ⟨?_,?_⟩
  · rw [interpretAhead reached]
    exact ends.how
  · intro failed
    obtain ⟨j,last,ahead,stuck,left⟩ := ends.left failed
    refine ⟨n + j,last,?_,stuck,left⟩
    rw [Loop.aheadAdd,reached,Option.bind_some,ahead]

theorem endsSame (first : Ends values behave compiled maxSteps start x)
    (second : Ends values behave compiled maxSteps start y) :
    x.status = y.status ∧ x.state = y.state ∧ x.steps = y.steps := by
  rcases first.how with ⟨finished,ends⟩ | ⟨failed,ends⟩
  · rcases second.how with ⟨finished',ends'⟩ | ⟨_,ends'⟩
    · have same : configOf x = configOf y := Loop.Ending.finished.inj (ends.symm.trans ends')
      exact ⟨finished.trans finished'.symm,congrArg Config.state same,congrArg Config.steps same⟩
    · cases ends.symm.trans ends'
  · rcases second.how with ⟨_,ends'⟩ | ⟨failed',_⟩
    · cases ends.symm.trans ends'
    · obtain ⟨_,one,ahead,stuck,left⟩ := first.left failed
      obtain ⟨_,two,ahead',stuck',left'⟩ := second.left failed'
      have same := Loop.aheadLast ahead stuck ahead' stuck'
      subst same
      have leaves : (x.state,x.steps) = (y.state,y.steps) := left.symm.trans left'
      exact ⟨failed.trans failed'.symm,congrArg Prod.fst leaves,congrArg Prod.snd leaves⟩

/- A context that has appeared on the way from `start`, with checkpoints of that way. -/
structure Genuine (values : Values V) (behave : Behaviour V) (compiled : Compiled) (maxSteps : Int)
    (start : Config V) (b : GraphContext V) : Prop where
  normal : Target.Normal compiled.nodes start.target
  here : ∃ n, Loop.ahead (follow values behave compiled maxSteps) n start = some (configOf b)
  marks : ∀ snapshot ∈ b.contextSnapshot, Marked values behave compiled maxSteps start snapshot

theorem freshGenuine (trailed : Trailed values m r s) (born : (births values (Runtime.initial m) r)[c]? = some b)
    (fresh : b.contextSnapshot = []) (owner : s.world.graphs[b.graphId]? = some graph) :
    Genuine values behave graph.toCompiled graph.maxSteps (configOf b) b := by
  obtain ⟨_,graph',known,entry⟩ := trailed.entry c b born
  cases Option.some.inj (owner.symm.trans known)
  have target := (entry fresh).1
  refine ⟨?_,⟨0,rfl⟩,?_⟩
  · have normal := trailed.formed _ graph owner
    rw [← target] at normal
    exact normal
  · rw [fresh]
    exact fun _ member => absurd member List.not_mem_nil

theorem aheadNormal {n : Nat} (normal : Target.Normal compiled.nodes start.target)
    (reached : Loop.ahead (follow values behave compiled maxSteps) n start = some config) :
    Target.Normal compiled.nodes config.target := by
  induction n generalizing start with
  | zero =>
    cases reached
    exact normal
  | succ n ih =>
    obtain ⟨next,first,rest⟩ := Option.bind_eq_some_iff.mp reached
    exact ih (followNormal first) rest

def untimed (snapshot : Snapshot V) : Snapshot V := {snapshot with timestamp := 0}

/- Checkpoints of graph `g`, one before each batch from `start` on. -/
def Records (values : Values V) (behave : Behaviour V) (compiled : Compiled) (maxSteps : Int)
    (start : Config V) (g : Nat) (l : List (Snapshot V)) : Prop :=
  ∀ (j : Nat) snapshot, l[j]? = some snapshot →
    Loop.ahead (follow values behave compiled maxSteps) j start = some (checkpointOf snapshot) ∧
    snapshot.graphId = g

theorem recordsDrop {i : Nat} {snapshot : Snapshot V}
    (records : Records values behave compiled maxSteps start g l) (there : l[i]? = some snapshot) :
    Records values behave compiled maxSteps (checkpointOf snapshot) g (l.drop i) := by
  intro j other known
  rw [List.getElem?_drop] at known
  obtain ⟨ahead,mine⟩ := records (i + j) other known
  rw [Loop.aheadAdd,(records i snapshot there).1,Option.bind_some] at ahead
  exact ⟨ahead,mine⟩

theorem recordsSame (first : Records values behave compiled maxSteps start g l)
    (second : Records values behave compiled maxSteps start g l') (length : l.length = l'.length) :
    l.map untimed = l'.map untimed := by
  refine List.ext_getElem (by rw [List.length_map,List.length_map,length]) ?_
  intro j inside inside'
  rw [List.length_map] at inside inside'
  rw [List.getElem_map,List.getElem_map]
  obtain ⟨ahead,mine⟩ := first j l[j] (List.getElem?_eq_getElem inside)
  obtain ⟨ahead',mine'⟩ := second j l'[j] (List.getElem?_eq_getElem inside')
  have same : checkpointOf l[j] = checkpointOf l'[j] := Option.some.inj (ahead.symm.trans ahead')
  simp only [untimed,show l[j].state = l'[j].state from congrArg Config.state same,
    show l[j].targetNodeName = l'[j].targetNodeName from congrArg Config.target same,
    show l[j].steps = l'[j].steps from congrArg Config.steps same,mine.trans mine'.symm]

theorem trackedRecords (tracked : Tracked values compiled s c b x log l)
    (path : ∀ k ≤ log.length, Loop.ahead (follow values behave compiled maxSteps) k (configOf b) =
      reached values compiled b (log.take k)) :
    Records values behave compiled maxSteps (configOf b) x.graphId l := by
  intro j snapshot known
  obtain ⟨here,mine⟩ := tracked.recorded.places j snapshot known
  have inside := Slots.inside known
  have most := tracked.recorded.most
  rw [path j (by omega)]
  exact ⟨here,mine.trans tracked.owner.symm⟩

/- An attempt that has finished has taken as many checkpoints as there were batches. -/
theorem finishedAhead (tracked : Tracked values compiled s c b x log l)
    (path : ∀ k ≤ log.length, Loop.ahead (follow values behave compiled maxSteps) k (configOf b) =
      reached values compiled b (log.take k)) (on : compiled.noSnapshot = false)
    (finished : x.status = .finished) :
    Loop.ahead (follow values behave compiled maxSteps) l.length (configOf b) = some (configOf x) := by
  have length := (tracked.past finished).2 on
  have whole := path log.length (Nat.le_refl _)
  rw [List.take_length,tracked.live (by rw [finished]; nofun)] at whole
  rw [length,whole]

theorem unbornUndisturbed (conserved : Conserved nowhere s) (missing : s.world.contexts[c]? = none) :
    Undisturbed behave c s a := by
  have away : ∀ (d : Nat) task, s.tasks[d]? = some task → carries c task.event = false := by
    intro d task known
    cases carried : carries c task.event with
    | false => rfl
    | true =>
      obtain ⟨g,event⟩ := carriesCases carried
      obtain ⟨x,found,_⟩ := (conserved.tasks d task known).mention g c event
      rw [missing] at found
      contradiction
  cases a with
  | graph b =>
    cases b with
    | setMaxSteps g n =>
      intro x member
      rw [missing] at member
      contradiction
    | _ => trivial
  | dispatch d b =>
    intro task known carried
    rw [away d task known] at carried
    contradiction
  | endNode d i outcome =>
    intro task known carried
    rw [away d task known] at carried
    contradiction
  | putFailed d error => exact fun task known => away d task known
  | invokeFailed k error =>
    rintro invocation known rfl
    obtain ⟨x,found,_⟩ := conserved.invocations k invocation known
    rw [missing] at found
    contradiction
  | _ => trivial

theorem runUnborn (ran : Machine.run (Runtime.step values) (Runtime.initial m) r = some s)
    (missing : s.world.contexts[c]? = none) :
    Machine.Steps (Runtime.step values) (Undisturbed behave c) (Runtime.initial m) r := by
  have all : s.world.contexts[c]? = none →
      Machine.Steps (Runtime.step values) (Undisturbed behave c) (Runtime.initial m) r := by
    refine Machine.history (P := fun r s => s.world.contexts[c]? = none →
      Machine.Steps (Runtime.step values) (Undisturbed behave c) (Runtime.initial m) r) ?_ ?_ ran
    · exact fun _ => trivial
    · intro r s a t before earlier taken missing
      have conserved := runConserved before
      have unborn : s.world.contexts[c]? = none := by
        cases found : s.world.contexts[c]? with
        | none => rfl
        | some x =>
          obtain ⟨y,there,_⟩ := stepPersists conserved.ready (Runtime.stepCases taken) c x found
          rw [missing] at there
          contradiction
      exact (Machine.stepsAppend before).mpr
        ⟨earlier unborn,unbornUndisturbed conserved unborn,fun _ _ => trivial⟩
  exact all missing

theorem runGraph {r' : List (Action V)} (conserved : Conserved nowhere s)
    (undisturbed : Machine.Steps (Runtime.step values) (Undisturbed behave c) s r')
    (ran : Machine.run (Runtime.step values) s r' = some t) (found : s.world.contexts[c]? = some x)
    (owner : s.world.graphs[x.graphId]? = some graph) : ∃ y graph', t.world.contexts[c]? = some y ∧
      y.graphId = x.graphId ∧ t.world.graphs[x.graphId]? = some graph' ∧
      graph'.toCompiled = graph.toCompiled ∧ graph'.maxSteps = graph.maxSteps := by
  refine (Machine.invariantSteps (P := fun t => Conserved nowhere t ∧ ∃ y graph',
    t.world.contexts[c]? = some y ∧ y.graphId = x.graphId ∧ t.world.graphs[x.graphId]? = some graph' ∧
      graph'.toCompiled = graph.toCompiled ∧ graph'.maxSteps = graph.maxSteps) ?_ undisturbed
    ⟨conserved,x,graph,found,rfl,owner,rfl,rfl⟩ ran).2
  rintro s a t here ⟨conserved,y,graph',there,mine,known,compiled,budget⟩ taken
  have steps := Runtime.stepCases taken
  have moved := stepMoves conserved.ready steps
  obtain ⟨z,still,goes⟩ := stepPersists conserved.ready steps c y there
  rw [← mine] at known
  obtain ⟨graph'',kept,compiled',budget'⟩ := budgetKept moved there known (undisturbedBudget here)
  rw [mine] at kept
  exact ⟨conservedStep conserved (fun _ => nofun) steps,z,graph'',still,goes.graphId.trans mine,kept,
    compiled'.trans compiled,budget'.trans budget⟩

theorem beginAccepted {copyable : V → Bool} {target : Target} (found : w.contexts[c]? = some x)
    (mine : x.graphId = g) (pending : x.status = .pending) (live : graph.decomposed = false)
    (valid : validateTarget graph x.targetNodeName x.steps = .ok target) :
    beginInvocation copyable w g graph .none (.context c) = .ok (admittedWorld w g c graph x) := by
  simp only [beginInvocation,ensureNotDecomposed,live,beginWith,found,mine,pending,bne_self_eq_false,
    PyError.raiseIf,Bool.false_eq_true,if_false,PyError.leavingReturned,valid,admitCases pending,bind,
    Except.bind]

theorem restoreStep (owner : s.world.graphs[g]? = some graph)
    (accepted : restoreContext values.copyable s.world g graph source version = .ok w) :
    Runtime.step values s (.graph (.restoreContext g source version)) = some {s with world := w} := by
  simp only [Runtime.step,isPublic,if_true,NodeGraph.perform,owner,accepted,State.started,List.append_nil,
    bind,Option.bind]

theorem admitStep (owner : s.world.graphs[g]? = some graph)
    (begun : beginInvocation values.copyable s.world g graph .none (.context c) = .ok w) :
    Runtime.step values s (.graph (.beginInvocation g .none (.context c))) =
      some {s with world := w, invocations := s.invocations ++ [⟨g,c,.admitted⟩]} := by
  simp only [Runtime.step,isPublic,if_true,NodeGraph.perform,owner,begun,State.started,bind,Option.bind]

theorem appendedRun {restored : GraphContext V} {r' : List (Action V)}
    (ran : Machine.run (Runtime.step values) (Runtime.initial m) r = some s)
    (taken : Runtime.step values s a = some t) (here : Undisturbed behave s.world.contexts.length s a)
    (appended : t.world.contexts = s.world.contexts ++ [restored])
    (owner : t.world.graphs[restored.graphId]? = some graph)
    (undisturbed : Machine.Steps (Runtime.step values) (Undisturbed behave s.world.contexts.length) t r')
    (went : Machine.run (Runtime.step values) t r' = some u)
    (there : u.world.contexts[s.world.contexts.length]? = some y) :
    Machine.Steps (Runtime.step values) (Undisturbed behave s.world.contexts.length) (Runtime.initial m)
      (r ++ [a] ++ r') ∧
    Machine.run (Runtime.step values) (Runtime.initial m) (r ++ [a] ++ r') = some u ∧
    (births values (Runtime.initial m) (r ++ [a] ++ r'))[s.world.contexts.length]? = some restored ∧
    ∃ graph', u.world.graphs[y.graphId]? = some graph' ∧ graph'.toCompiled = graph.toCompiled ∧
      graph'.maxSteps = graph.maxSteps := by
  have first : Machine.run (Runtime.step values) (Runtime.initial m) (r ++ [a]) = some t :=
    Machine.runSnoc.mpr ⟨s,ran,taken⟩
  have found : t.world.contexts[s.world.contexts.length]? = some restored := by
    rw [appended]
    exact Slots.appendNew
  have born : (births values (Runtime.initial m) (r ++ [a]))[s.world.contexts.length]? = some restored := by
    rw [birthsSnoc ran taken,appended,List.drop_left,← (runTrailed ran).count]
    exact Slots.appendNew
  have before : Machine.Steps (Runtime.step values) (Undisturbed behave s.world.contexts.length)
      (Runtime.initial m) (r ++ [a]) :=
    (Machine.stepsAppend ran).mpr ⟨runUnborn ran (List.getElem?_eq_none (Nat.le_refl _)),here,
      fun _ _ => trivial⟩
  obtain ⟨z,graph',same,mine,kept,compiled,budget⟩ := runGraph (runConserved first) undisturbed went found owner
  cases Option.some.inj (there.symm.trans same)
  rw [← mine] at kept
  exact ⟨(Machine.stepsAppend first).mpr ⟨before,undisturbed⟩,Machine.runAppend.mpr ⟨t,first,went⟩,
    birthsKept first went born,graph',kept,compiled,budget⟩

structure Finishes (values : Values V) (behave : Behaviour V) (compiled : Compiled) (maxSteps : Int)
    (b x : GraphContext V) (l : List (Snapshot V)) : Prop where
  mine : x.graphId = b.graphId
  history : x.contextSnapshot = b.contextSnapshot ++ l
  records : Records values behave compiled maxSteps (configOf b) x.graphId l
  ends : Loop.ahead (follow values behave compiled maxSteps) l.length (configOf b) = some (configOf x)
  past : x.targetNodeName = .node END

theorem runFinishes (determined : Machine.Steps (Runtime.step values) (Determined behave c) (Runtime.initial m) r)
    (ran : Machine.run (Runtime.step values) (Runtime.initial m) r = some s)
    (born : (births values (Runtime.initial m) r)[c]? = some b) (found : s.world.contexts[c]? = some x)
    (owner : s.world.graphs[x.graphId]? = some graph) (same : graph.toCompiled = compiled)
    (budget : graph.maxSteps = maxSteps) (normal : Target.Normal compiled.nodes b.targetNodeName)
    (unshared : compiled.keepRefKeys = []) (on : compiled.noSnapshot = false)
    (finished : x.status = .finished) : ∃ l, Finishes values behave compiled maxSteps b x l := by
  subst same budget
  have keeps := runKeeps determined ran b x graph born found owner normal unshared
  obtain ⟨l,tracked⟩ := (runTrailed ran).tracked c x b graph found born owner normal
  exact ⟨l,tracked.owner,tracked.history,trackedRecords tracked keeps.path,
    finishedAhead tracked keeps.path on finished,(tracked.past finished).1⟩

theorem runSnapshots (ran : Machine.run (Runtime.step values) (Runtime.initial m) r = some s)
    (born : (births values (Runtime.initial m) r)[c]? = some b) (found : s.world.contexts[c]? = some x)
    (owner : s.world.graphs[x.graphId]? = some graph) (normal : Target.Normal graph.nodes b.targetNodeName)
    (own : b.contextSnapshot.length ≤ k) (inside : k < x.contextSnapshot.length) :
    graph.noSnapshot = false := by
  obtain ⟨l,tracked⟩ := (runTrailed ran).tracked c x b graph found born owner normal
  cases off : graph.noSnapshot with
  | false => rfl
  | true =>
    rw [tracked.history,tracked.recorded.disabled off,List.append_nil] at inside
    omega

/- An attempt that starts from a checkpoint of another one takes the same from there on. -/
theorem finishesRecords {b' : GraphContext V} {i : Nat} {snapshot : Snapshot V}
    (first : Finishes values behave compiled maxSteps b x l)
    (second : Finishes values behave compiled maxSteps b' y l') (mine : b'.graphId = x.graphId)
    (there : l[i]? = some snapshot) (from_ : configOf b' = checkpointOf snapshot) :
    l'.map untimed = (l.drop i).map untimed := by
  have inside := Slots.inside there
  have rest : Loop.ahead (follow values behave compiled maxSteps) (l.length - i) (configOf b') =
      some (configOf x) := by
    have ends := first.ends
    rw [show l.length = i + (l.length - i) by omega,Loop.aheadAdd,(first.records i snapshot there).1,
      Option.bind_some] at ends
    rw [from_]
    exact ends
  have stuck : ∀ z : GraphContext V, z.targetNodeName = .node END →
      follow values behave compiled maxSteps (configOf z) = none := by
    intro z past
    simp only [follow,configOf,past,true_or,if_true]
  have same := Loop.aheadLast rest (stuck x first.past) second.ends (stuck y second.past)
  have steps := aheadSteps rest
  have steps' := aheadSteps second.ends
  rw [same] at steps
  have records := recordsDrop first.records there
  rw [← from_,← mine,← second.mine] at records
  refine recordsSame second.records records ?_
  rw [List.length_drop]
  omega

/- Where one attempt finishes, one that starts from its checkpoint cannot fail. -/
theorem finishesAlike (first : Finishes values behave compiled maxSteps b x l) {n j : Nat}
    (here : Loop.ahead (follow values behave compiled maxSteps) n start = some (configOf b))
    (ahead : Loop.ahead (follow values behave compiled maxSteps) j start = some config)
    (ends : Ends values behave compiled maxSteps config y) : y.status = .finished := by
  rcases ends.how with ⟨finished,_⟩ | ⟨_,fails⟩
  · exact finished
  · rw [← interpretAhead ahead,interpretAhead here,interpretAhead first.ends,interpretFinished first.past] at fails
    cases fails

theorem finishesHistory {b' : GraphContext V} {snapshot : Snapshot V}
    (first : Finishes values behave compiled maxSteps b x l)
    (second : Finishes values behave compiled maxSteps b' y l') (mine : b'.graphId = x.graphId)
    (there : x.contextSnapshot[k]? = some snapshot) (own : b.contextSnapshot.length ≤ k)
    (from_ : configOf b' = checkpointOf snapshot) (prefix_ : b'.contextSnapshot = x.contextSnapshot.take (k + 1)) :
    y.contextSnapshot.map untimed =
      (x.contextSnapshot.take (k + 1) ++ x.contextSnapshot.drop k).map untimed := by
  have later : x.contextSnapshot.drop k = l.drop (k - b.contextSnapshot.length) := by
    rw [first.history,List.drop_append,List.drop_eq_nil_of_le own,List.nil_append]
  have known : l[k - b.contextSnapshot.length]? = some snapshot := by
    rw [first.history,List.getElem?_append_right own] at there
    exact there
  rw [second.history,prefix_,List.map_append,List.map_append,later,
    finishesRecords first second mine known from_]

/- Whatever has ended an attempt, or nothing yet: its graph restores it at any of its
checkpoints as a pending context that it admits, and that context, left alone, ends
as an attempt that has never been interrupted. -/
theorem replayed (determined : Machine.Steps (Runtime.step values) (Determined behave c) (Runtime.initial m) r)
    (ran : Machine.run (Runtime.step values) (Runtime.initial m) r = some s)
    (born : (births values (Runtime.initial m) r)[c]? = some b) (found : s.world.contexts[c]? = some x)
    (owner : s.world.graphs[x.graphId]? = some graph) (live : graph.decomposed = false)
    (unshared : graph.keepRefKeys = [])
    (genuine : Genuine values behave graph.toCompiled graph.maxSteps start b)
    (offers : Offers c x source) (selected : indexAt x.contextSnapshot.length version = some k) :
    ∃ t restored, Runtime.step values s (.graph (.restoreContext x.graphId source version)) = some t ∧
      t.world.contexts = s.world.contexts ++ [restored] ∧ restored.status = .pending ∧
      restored.contextSnapshot = x.contextSnapshot.take (k + 1) ∧
      Genuine values behave graph.toCompiled graph.maxSteps start restored ∧
      (∃ u, Runtime.step values t (.graph (.beginInvocation x.graphId .none
          (.context s.world.contexts.length))) = some u ∧
        u.world.contexts = s.world.contexts ++ [bound restored x.graphId t.world.runs]) ∧
      ∀ r' u y, Machine.Steps (Runtime.step values) (Undisturbed behave s.world.contexts.length) t r' →
        Machine.run (Runtime.step values) t r' = some u →
        u.world.contexts[s.world.contexts.length]? = some y → y.status.terminal = true →
        y.status ≠ .aborted →
        (∀ z, Uninterrupted values behave graph.toCompiled graph.maxSteps start z →
          y.status = z.status ∧ y.state = z.state ∧ y.steps = z.steps) ∧
        (x.status = .finished → b.contextSnapshot.length ≤ k → y.contextSnapshot.map untimed =
          (x.contextSnapshot.take (k + 1) ++ x.contextSnapshot.drop k).map untimed) := by
  obtain ⟨n,here⟩ := genuine.here
  have normal : Target.Normal graph.nodes b.targetNodeName := aheadNormal genuine.normal here
  have keeps := runKeeps determined ran b x graph born found owner normal unshared
  have marks : ∀ snapshot ∈ x.contextSnapshot,
      Marked values behave graph.toCompiled graph.maxSteps start snapshot := by
    intro snapshot member
    rcases keeps.marks snapshot member with inherited | marked
    · exact genuine.marks snapshot inherited
    · exact markedAhead here marked
  have stored := runStored ran c x found
  obtain ⟨snapshot,there,accepted⟩ := restoreAccepted stored found live offers selected
  have member := List.mem_of_getElem? there
  have marked := marks snapshot member
  obtain ⟨j,ahead⟩ := marked.ahead
  have taken := restoreStep owner accepted
  refine ⟨_,restoredContext x.graphId (x.contextSnapshot.take (k + 1)) snapshot,taken,rfl,rfl,rfl,
    ⟨genuine.normal,⟨j,ahead⟩,fun snapshot member => marks snapshot (List.mem_of_mem_take member)⟩,?_,?_⟩
  · have valid := validateNormal marked.normal (stored.history snapshot member).counted marked.budget
    have pending : (s.world.contexts ++ [restoredContext x.graphId (x.contextSnapshot.take (k + 1))
        snapshot])[s.world.contexts.length]? = some _ := Slots.appendNew
    refine ⟨_,admitStep owner (beginAccepted pending rfl rfl live valid),?_⟩
    simp [admittedWorld]
  · intro r' u y undisturbed went known past kept
    obtain ⟨whole,ranAll,born',graph',owner',compiled,budget⟩ :=
      appendedRun ran taken trivial rfl owner undisturbed went known
    have ends := uninterruptedEnds (.mk whole ranAll born' rfl known owner' compiled budget past kept)
      marked.normal unshared
    refine ⟨?_,?_⟩
    · intro z other
      exact endsSame (endsAhead ahead ends) (uninterruptedEnds other genuine.normal unshared)
    · intro finished own
      have on := runSnapshots ran born found owner normal own (Slots.inside there)
      obtain ⟨l,first⟩ := runFinishes determined ran born found owner rfl rfl normal unshared on finished
      obtain ⟨l',second⟩ := runFinishes (Machine.stepsImp (fun _ _ => .inr) whole) ranAll born' known owner'
        compiled budget marked.normal unshared on (finishesAlike first here ahead ends)
      exact finishesHistory first second rfl there own rfl rfl

def admitting (c : Nat) : List (Action Nat) :=
  [.graph (.beginInvocation 0 .none (.context c)),.invoke c,.invokePut c,.invokeResume c]

def dispatching (d : Nat) : List (Action Nat) :=
  [.consumer (.dequeue 1 (.resolved [.graph 0])),.consumer (.launch 1 .launched),.dispatch d .begin,
    .dispatch d .visit,.dispatch d .gate,.core d d]

def returning (d : Nat) (result : Result Nat) : List (Action Nat) :=
  [.startNode d 0,.endNode d 0 (.returned result),.gather d .returned,.put d,.resume d]

def restoredRun : State Nat :=
  (Runtime.step Baton.numbers finishedRun (.graph (.restoreContext 0 (.context 0) (-1)))).getD
    (Runtime.initial 1)

def onceMore : List (Action Nat) :=
  admitting 1 ++ dispatching 3 ++ returning 3 (Atomicity.writing 2 END) ++ dispatching 4

def onceRun : State Nat :=
  (Machine.run (Runtime.step Baton.numbers) restoredRun onceMore).getD (Runtime.initial 1)

def onceContext : GraphContext Nat :=
  ⟨0,some 1,.set .empty "k" 2,.node END,2,
    [⟨0,.empty,.node "a",0,0⟩,⟨1,.set .empty "k" 1,.node "a",1,0⟩,⟨3,.set .empty "k" 1,.node "a",1,0⟩],
    some (.result (.set .empty "k" 2)),.finished,none⟩

theorem finishedSteps : Machine.Steps (Runtime.step Baton.numbers) (Undisturbed twice 0) (Runtime.initial 1)
    finishedBatches := Machine.stepsOfDecide (by decide +kernel)

theorem onceSteps : Machine.Steps (Runtime.step Baton.numbers) (Undisturbed twice 1) restoredRun onceMore :=
  Machine.stepsOfDecide (by decide +kernel)

theorem finishedUninterrupted : Uninterrupted Baton.numbers twice Atomicity.flowGraph.toCompiled
    Atomicity.flowGraph.maxSteps (configOf Atomicity.abortedBirth) finishedContext :=
  @Uninterrupted.mk Nat Baton.numbers twice _ _ _ _ 1 0 finishedBatches finishedRun
    Atomicity.abortedBirth Atomicity.flowGraph finishedSteps rfl rfl rfl rfl rfl rfl rfl rfl nofun

theorem replayedOnce :
    onceContext.status = finishedContext.status ∧ onceContext.state = finishedContext.state ∧
    onceContext.steps = finishedContext.steps ∧ onceContext.contextSnapshot.map untimed =
      (finishedContext.contextSnapshot.take 2 ++ finishedContext.contextSnapshot.drop 1).map untimed := by
  have genuine : Genuine Baton.numbers twice Atomicity.flowGraph.toCompiled Atomicity.flowGraph.maxSteps
      (configOf Atomicity.abortedBirth) Atomicity.abortedBirth :=
    freshGenuine (c := 0) (s := finishedRun) (m := 1) (r := finishedBatches) (runTrailed rfl) rfl rfl rfl
  obtain ⟨t,restored,taken,_,_,_,_,_,ends⟩ := @replayed Nat Baton.numbers twice finishedRun 0 1 1
    finishedBatches finishedContext Atomicity.abortedBirth Atomicity.flowGraph
    (configOf Atomicity.abortedBirth) (.context 0) (-1) (Machine.stepsImp (fun _ _ => .inr) finishedSteps)
    rfl rfl rfl rfl rfl rfl genuine (.inl rfl) rfl
  cases Option.some.inj (taken.symm.trans (show _ = some restoredRun from rfl))
  obtain ⟨alike,history⟩ := ends onceMore onceRun onceContext onceSteps rfl rfl rfl nofun
  obtain ⟨status,state,steps⟩ := alike finishedContext finishedUninterrupted
  exact ⟨status,state,steps,history rfl (Nat.zero_le 1)⟩

/- The restored attempt has finished too, and is itself restored at the first checkpoint
that it has inherited. -/
def inheritedRun : State Nat :=
  (Runtime.step Baton.numbers onceRun (.graph (.restoreContext 0 (.context 1) 0))).getD (Runtime.initial 1)

def twiceMore : List (Action Nat) :=
  admitting 2 ++ dispatching 5 ++ returning 5 (Atomicity.writing 1 "a") ++ dispatching 6 ++
    returning 6 (Atomicity.writing 2 END) ++ dispatching 7

def twiceRun : State Nat :=
  (Machine.run (Runtime.step Baton.numbers) inheritedRun twiceMore).getD (Runtime.initial 1)

def twiceContext : GraphContext Nat :=
  ⟨0,some 2,.set .empty "k" 2,.node END,2,
    [⟨0,.empty,.node "a",0,0⟩,⟨5,.empty,.node "a",0,0⟩,⟨6,.set .empty "k" 1,.node "a",1,0⟩],
    some (.result (.set .empty "k" 2)),.finished,none⟩

def retiredRun : State Nat :=
  (Runtime.step Baton.numbers finishedRun (.graph (.decompose 0 true))).getD (Runtime.initial 1)

theorem inheritedTwice :
    (Machine.Steps (Runtime.step Baton.numbers) (Undisturbed twice 0) (Runtime.initial 1) finishedBatches ∧
      Machine.Steps (Runtime.step Baton.numbers) (Undisturbed twice 1) restoredRun onceMore ∧
      Machine.Steps (Runtime.step Baton.numbers) (Undisturbed twice 2) inheritedRun twiceMore) ∧
    (Machine.run (Runtime.step Baton.numbers) (Runtime.initial 1) finishedBatches = some finishedRun ∧
      Runtime.step Baton.numbers finishedRun (.graph (.decompose 0 true)) = some retiredRun ∧
      retiredRun.world.contexts[0]? = some finishedContext ∧
      indexAt finishedContext.contextSnapshot.length (-1) = some 1 ∧
      NodeGraph.perform Baton.numbers.copyable retiredRun.world (.restoreContext 0 (.context 0) (-1)) =
        some (.error (decomposedError,retiredRun.world))) ∧
    Runtime.step Baton.numbers finishedRun (.graph (.restoreContext 0 (.context 0) (-1))) =
      some restoredRun ∧
    Machine.run (Runtime.step Baton.numbers) restoredRun onceMore = some onceRun ∧
    onceRun.world.contexts[1]? = some onceContext ∧ onceContext.status = .finished ∧
    indexAt onceContext.contextSnapshot.length 0 = some 0 ∧
    Runtime.step Baton.numbers onceRun (.graph (.restoreContext 0 (.context 1) 0)) = some inheritedRun ∧
    Machine.run (Runtime.step Baton.numbers) inheritedRun twiceMore = some twiceRun ∧
    twiceRun.world.contexts[2]? = some twiceContext ∧ twiceContext.status = .finished ∧
    twiceContext.contextSnapshot.map untimed ≠
      (onceContext.contextSnapshot.take 1 ++ onceContext.contextSnapshot.drop 0).map untimed :=
  ⟨⟨finishedSteps,onceSteps,Machine.stepsOfDecide (by decide +kernel)⟩,⟨rfl,rfl,rfl,rfl,rfl⟩,
    rfl,rfl,rfl,rfl,rfl,rfl,rfl,rfl,rfl,fun same => by cases congrArg List.length same⟩

end Apixis.Replay
