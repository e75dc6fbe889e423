import Apixis.Event.Countdown
import Apixis.Graph.Progress
import Apixis.Library.Descent
import Mathlib.Data.Prod.Lex

/-! An attempt cannot go on for ever. The budget bounds its dispatches, each step
of a dispatch or of the call of `_invoke` brings it nearer to its end, and so an
execution that never ends has, from some point on, nothing more to do with it. -/
namespace Apixis.Termination
open NodeGraph hiding Action step initial
open ApplyCommand Lifecycle Moves Obligation Baton Trail Budget Progress Apixis.Runtime

variable {V : Type} {values : Values V} {s t : State V} {w v : World V} {c d m : Nat} {a : Action V}
  {r : List (Action V)} {x b : GraphContext V} {task next : DispatchTask V} {M : Int}
  {invocation : Invocation}

def workLeft : Work → Nat
  | .idle => 3
  | .gathering => 2
  | .posting => 1
  | .resuming => 0

def nodeLeft (node : NodeTask V) : Nat :=
  if node.outcome.isSome then 0 else if node.input.isSome then 1 else 2

def taskLeft (task : DispatchTask V) : ℕ ×ₗ ℕ :=
  toLex (4 * Countdown.left task.run + workLeft task.work,Slots.total nodeLeft task.nodes)

def stageLeft : Stage → Nat
  | .admitted => 4
  | .posting => 3
  | .resuming => 2
  | .waiting => 1
  | .ended => 0

theorem runShrinks (less : Countdown.left next.run < Countdown.left task.run) :
    taskLeft next < taskLeft task := by
  refine Prod.Lex.toLex_lt_toLex.mpr (.inl ?_)
  have most : workLeft next.work ≤ 3 := by cases next.work <;> decide
  show 4 * Countdown.left next.run + workLeft next.work < 4 * Countdown.left task.run + workLeft task.work
  omega

theorem workShrinks (run : next.run = task.run) (less : workLeft next.work < workLeft task.work) :
    taskLeft next < taskLeft task := by
  refine Prod.Lex.toLex_lt_toLex.mpr (.inl ?_)
  show 4 * Countdown.left next.run + workLeft next.work < 4 * Countdown.left task.run + workLeft task.work
  rw [run]
  omega

theorem nodeShrinks {i : Nat} {node node' : NodeTask V} (there : task.nodes[i]? = some node)
    (less : nodeLeft node' < nodeLeft node) :
    taskLeft {task with nodes := task.nodes.set i node'} < taskLeft task := by
  refine Prod.Lex.toLex_lt_toLex.mpr (.inr ⟨rfl,?_⟩)
  have sums := Slots.totalSet (y := node') nodeLeft there
  show Slots.total nodeLeft (task.nodes.set i node') < Slots.total nodeLeft task.nodes
  omega

theorem answerShrinks {outcome : Dispatch.Outcome} (answered : task.answer outcome = some next) :
    taskLeft next < taskLeft task := by
  obtain ⟨run,taken,rfl⟩ := answerCases answered
  exact runShrinks (Countdown.leftShrinks taken nofun)

/- Each step of a dispatch brings it nearer to its end. -/
theorem taskShrinks (moved : TaskStep values w d task a next v) :
    dispatchOf a = none ∧ taskLeft next = taskLeft task ∨
      dispatchOf a = some d ∧ taskLeft next < taskLeft task := by
  cases moved with
  | dispatch allowed_ taken =>
    rename_i b run
    by_cases accept : b = .accept
    · subst accept
      refine .inl ⟨rfl,?_⟩
      unfold taskLeft
      rw [Countdown.leftAccept taken]
    · refine .inr ⟨?_,runShrinks (Countdown.leftShrinks taken accept)⟩
      cases b <;> first | rfl | contradiction
  | notify calling notified done => exact .inr ⟨rfl,answerShrinks done⟩
  | notifyCancelled notifying taken => exact .inr ⟨rfl,runShrinks (Countdown.leftShrinks taken nofun)⟩
  | coreIdle calling idle inactive done => exact .inr ⟨rfl,answerShrinks done⟩
  | coreFinish calling idle event active there end_ done => exact .inr ⟨rfl,answerShrinks done⟩
  | coreRaise calling idle event active there owner more raised done =>
    rename_i now g h e x graph error
    exact .inr ⟨rfl,@answerShrinks V {task with failure := some error} _ _ done⟩
  | coreBegin calling idle event active there owner more begun =>
    exact .inr ⟨rfl,workShrinks rfl (by simp [workLeft,idle])⟩
  | startNode event there owner known unstarted open_ =>
    refine .inr ⟨rfl,nodeShrinks there ?_⟩
    unfold startNode
    split <;> simp [nodeLeft,unstarted,open_]
  | endNode there open_ started =>
    refine .inr ⟨rfl,nodeShrinks there ?_⟩
    simp only [nodeLeft,open_,Option.isSome_some,Option.isSome_none,Bool.false_eq_true,if_true,if_false]
    split <;> decide
  | gatherCancelled calling context work done => exact .inr ⟨rfl,answerShrinks done⟩
  | gatherRaised calling context work there raised past done => exact .inr ⟨rfl,answerShrinks done⟩
  | gathered calling context work returned owner there stopped done => exact .inr ⟨rfl,answerShrinks done⟩
  | committed calling context work returned owner there goes =>
    exact .inr ⟨rfl,workShrinks rfl (by simp [workLeft,work])⟩
  | putFailed calling context work done => exact .inr ⟨rfl,answerShrinks done⟩
  | postCancelled work done => exact .inr ⟨rfl,answerShrinks done⟩
  | resume work done => exact .inr ⟨rfl,answerShrinks done⟩

theorem tasksShrink (taken : Runtime.Step values s a t) (found : s.tasks[d]? = some task) :
    ∃ next, t.tasks[d]? = some next ∧ next.event = task.event ∧ taskLeft next ≤ taskLeft task ∧
      (dispatchOf a = some d → taskLeft next < taskLeft task) := by
  have stays : t.tasks[d]? = some task → dispatchOf a ≠ some d →
      ∃ next, t.tasks[d]? = some next ∧ next.event = task.event ∧ taskLeft next ≤ taskLeft task ∧
        (dispatchOf a = some d → taskLeft next < taskLeft task) :=
    fun same other => ⟨task,same,rfl,le_refl _,fun own => absurd own other⟩
  cases taken with
  | consumer permitted went => exact stays (by rw [List.getElem?_append_left (Slots.inside found)]; exact found) nofun
  | task here moved =>
    rename_i e other next w
    have shrinks := taskShrinks moved
    by_cases same : e = d
    · subst same
      cases Option.some.inj (here.symm.trans found)
      refine ⟨next,Slots.setSame here,(taskKept moved).1,?_,?_⟩
      · rcases shrinks with ⟨_,equal⟩ | ⟨_,less⟩
        · exact le_of_eq equal
        · exact le_of_lt less
      · intro own
        rcases shrinks with ⟨away,_⟩ | ⟨_,less⟩
        · rw [own] at away
          contradiction
        · exact less
    · refine stays ((Slots.setOther same).trans found) ?_
      rcases shrinks with ⟨away,_⟩ | ⟨own,_⟩
      · rw [away]; nofun
      · rw [own]
        exact fun equal => same (Option.some.inj equal)
  | put here calling context work room =>
    rename_i e other g phase e' consumer
    by_cases same : e = d
    · subst same
      cases Option.some.inj (here.symm.trans found)
      have less : taskLeft {task with work := .resuming, posted := true} < taskLeft task :=
        workShrinks rfl (by simp [workLeft,work])
      exact ⟨_,Slots.setSame here,rfl,le_of_lt less,fun _ => less⟩
    · exact stays ((Slots.setOther same).trans found) (fun equal => same (Option.some.inj equal))
  | invocation here moved => cases moved <;> exact stays found nofun
  | accepted open_ performed => exact stays found nofun
  | rejected open_ performed => exact stays found nofun
  | invokePut here stage room => exact stays found nofun
  | interrupt here there stage => exact stays found nofun

theorem invocationShrinks {k : Nat} {stage : Stage} (moved : InvocationStep values w k invocation a stage v) :
    invocationOf a = some k ∧ stageLeft stage < stageLeft invocation.stage := by
  cases moved with
  | refused stage => exact ⟨rfl,by rw [stage]; decide⟩
  | targeted stage => exact ⟨rfl,by rw [stage]; decide⟩
  | late stage => exact ⟨rfl,by rw [stage]; decide⟩
  | failed stage => exact ⟨rfl,by rw [stage]; decide⟩
  | cancelled stage => exact ⟨rfl,by rcases stage with at_ | at_ <;> (rw [at_]; decide)⟩
  | resume stage => exact ⟨rfl,by rw [stage]; decide⟩
  | wake stage => exact ⟨rfl,by rw [stage]; decide⟩

theorem invocationsShrink {k : Nat} (taken : Runtime.Step values s a t)
    (found : s.invocations[k]? = some invocation) :
    ∃ other, t.invocations[k]? = some other ∧ other.context = invocation.context ∧
      stageLeft other.stage ≤ stageLeft invocation.stage ∧
      (invocationOf a = some k → stageLeft other.stage < stageLeft invocation.stage) := by
  have stays : t.invocations[k]? = some invocation → invocationOf a ≠ some k →
      ∃ other, t.invocations[k]? = some other ∧ other.context = invocation.context ∧
        stageLeft other.stage ≤ stageLeft invocation.stage ∧
        (invocationOf a = some k → stageLeft other.stage < stageLeft invocation.stage) :=
    fun same away => ⟨invocation,same,rfl,le_refl _,fun own => absurd own away⟩
  cases taken with
  | accepted open_ performed =>
    exact stays (by rw [List.getElem?_append_left (Slots.inside found)]; exact found) nofun
  | rejected open_ performed => exact stays found nofun
  | consumer permitted went => exact stays found nofun
  | task here moved => cases moved <;> exact stays found nofun
  | put here calling context work room => exact stays found nofun
  | invocation here moved =>
    rename_i e other stage w
    obtain ⟨own,less⟩ := invocationShrinks moved
    by_cases same : e = k
    · subst same
      cases Option.some.inj (here.symm.trans found)
      exact ⟨_,Slots.setSame here,rfl,le_of_lt less,fun _ => less⟩
    · refine stays ((Slots.setOther same).trans found) ?_
      rw [own]
      exact fun equal => same (Option.some.inj equal)
  | invokePut here stage room =>
    rename_i e other consumer
    by_cases same : e = k
    · subst same
      cases Option.some.inj (here.symm.trans found)
      have less : stageLeft .resuming < stageLeft invocation.stage := by rw [stage]; decide
      exact ⟨_,Slots.setSame here,rfl,le_of_lt less,fun _ => less⟩
    · exact stays ((Slots.setOther same).trans found) (fun equal => same (Option.some.inj equal))
  | interrupt here there stage => exact stays found nofun

/- A dispatch that has put the next event, or is about to, has applied its batch. -/
def turned (c : Nat) (task : DispatchTask V) : Bool :=
  carries c task.event && (task.posted || task.work == .posting)

theorem taskTurned (found : s.tasks[d]? = some task) (moved : TaskStep values s.world d task a next v)
    (turn : turned c next = true) : turned c task = true ∨ (applied values s c a).isSome = true := by
  obtain ⟨event,posted⟩ := taskKept moved
  simp only [turned,Bool.and_eq_true,Bool.or_eq_true,beq_iff_eq] at turn ⊢
  rw [event,posted] at turn
  obtain ⟨mine,turn⟩ := turn
  have kept : (next.work = .posting → task.work = .posting) →
      (carries c task.event = true ∧ (task.posted = true ∨ task.work = .posting)) ∨
        (applied values s c a).isSome = true :=
    fun back => .inl ⟨mine,turn.imp id back⟩
  have answered : ∀ (other : DispatchTask V) outcome, other.answer outcome = some next →
      next.work = .posting → task.work = .posting := by
    intro other outcome answered
    obtain ⟨run,_,rfl⟩ := answerCases answered
    exact nofun
  cases moved with
  | dispatch allowed_ taken => exact kept id
  | notify calling notified done => exact kept (answered _ _ done)
  | notifyCancelled notifying taken => exact kept id
  | coreIdle calling idle inactive done => exact kept (answered _ _ done)
  | coreFinish calling idle event active there end_ done => exact kept (answered _ _ done)
  | coreRaise calling idle event active there owner more raised done => exact kept (answered _ _ done)
  | coreBegin calling idle event active there owner more begun => exact kept nofun
  | startNode event there owner known unstarted open_ => exact kept id
  | endNode there open_ started => exact kept id
  | gatherCancelled calling context work done => exact kept (answered _ _ done)
  | gatherRaised calling context work there raised past done => exact kept (answered _ _ done)
  | gathered calling context work returned owner there stopped done => exact kept (answered _ _ done)
  | committed calling context work returned owner there goes =>
    rename_i g phase e x graph results call
    obtain ⟨h,about⟩ := carriesCases mine
    rw [about] at context
    cases context
    rcases commitCases goes with ⟨_,no,_⟩ | ⟨active,⟨_,_,_,no,_⟩ | ⟨next,state,does,_⟩⟩
    · contradiction
    · contradiction
    · refine .inr ?_
      simp [applied,found,calling,returned,owner,there,about,Event.context,work,active,does]
  | putFailed calling context work done => exact kept (answered _ _ done)
  | postCancelled work done => exact kept (answered _ _ done)
  | resume work done => exact kept (answered _ _ done)

theorem turnedStep (taken : Runtime.Step values s a t) :
    t.tasks.countP (turned c) ≤ s.tasks.countP (turned c) + (applied values s c a).isSome.toNat := by
  cases taken with
  | consumer permitted went =>
    rename_i b consumer
    have none_ : (s.launched b).countP (turned c) = 0 := by
      refine List.countP_eq_zero.mpr ?_
      intro task member turn
      obtain ⟨_,item,chain,_,_,rfl⟩ := launchedNew member
      simp [turned,DispatchTask.new] at turn
    simp only [List.countP_append,none_]
    omega
  | task found moved =>
    rename_i e task next w
    have set_ := Slots.countSet (y := next) (turned c) found
    have turn := taskTurned (c := c) found moved
    show (s.tasks.set e next).countP (turned c) ≤ _
    cases after : turned c next with
    | false =>
      rw [after] at set_
      simp only [Bool.false_eq_true,if_false] at set_
      omega
    | true =>
      rw [after] at set_
      rcases turn after with before | went
      · rw [before] at set_
        simp only [if_true] at set_
        omega
      · rw [went]
        simp only [if_true,Bool.toNat_true] at set_ ⊢
        omega
  | put found calling context work room =>
    rename_i e task g phase e' consumer
    have same : turned c {task with work := .resuming, posted := true} = turned c task := by
      simp [turned,work]
    have kept := Slots.countSetSame (y := {task with work := .resuming, posted := true}) (turned c) found same
    show (s.tasks.set e _).countP (turned c) ≤ _
    omega
  | _ => exact Nat.le_add_right _ _

theorem runTurned (ran : Machine.run (Runtime.step values) (Runtime.initial m) r = some s) :
    s.tasks.countP (turned c) ≤ counted values c (Runtime.initial m) r := by
  refine Machine.history (P := fun r s => s.tasks.countP (turned c) ≤ counted values c (Runtime.initial m) r)
    (Nat.zero_le _) ?_ ran
  intro r s a t before few taken
  have more := turnedStep (c := c) (Runtime.stepCases taken)
  have counted_ : counted values c (Runtime.initial m) (r ++ [a]) =
      counted values c (Runtime.initial m) r + (applied values s c a).isSome.toNat := Machine.tallySnoc before
  omega

theorem dispatchesFew (ran : Machine.run (Runtime.step values) (Runtime.initial m) r = some s) :
    s.tasks.countP (fun task => carries c task.event) ≤ counted values c (Runtime.initial m) r + 1 := by
  have turned_ := runTurned (c := c) ran
  have few := (runConserved ran).few c
  unfold pieces at few
  have split : s.tasks.countP (fun task => carries c task.event) ≤
      s.tasks.countP (turned c) + s.tasks.countP (unposted c) := by
    have both : ∀ l : List (DispatchTask V), l.countP (fun task => carries c task.event) ≤
        l.countP (turned c) + l.countP (unposted c) := by
      intro l
      induction l with
      | nil => exact Nat.zero_le _
      | cons head tail ih =>
        simp only [List.countP_cons]
        by_cases mine : carries c head.event = true
        · by_cases put : head.posted = true
          · simp only [turned,unposted,mine,put,Bool.true_or,Bool.and_true,Bool.not_true,if_true]
            omega
          · simp only [turned,unposted,mine,put,Bool.not_false,Bool.and_true,if_true]
            omega
        · simp only [mine,Bool.false_eq_true,if_false]
          omega
    exact both s.tasks
  omega

/- A context has one call of `_invoke`, at most. -/
theorem callsFew (ran : Machine.run (Runtime.step values) (Runtime.initial m) r = some s) :
    s.invocations.countP (fun invocation => invocation.context == c) ≤ 1 := by
  refine Machine.history (P := fun _ s => s.invocations.countP (fun invocation => invocation.context == c) ≤ 1)
    (Nat.zero_le _) ?_ ran
  intro r s a t before few taken
  have conserved := runConserved before
  cases Runtime.stepCases taken with
  | accepted open_ performed =>
    rename_i b w
    simp only [List.countP_append]
    have short := startedFew b (s := s)
    have most : (s.started b).countP (fun invocation => invocation.context == c) ≤ (s.started b).length :=
      List.countP_le_length
    by_cases new : (s.started b).countP (fun invocation => invocation.context == c) = 0
    · omega
    · -- a context that is admitted now has had no call before
      obtain ⟨invocation,member,about⟩ := List.countP_pos_iff.mp (Nat.pos_of_ne_zero new)
      have about : invocation.context = c := by simpa using about
      obtain ⟨_,_,pending⟩ := startedFresh performed member
      have none_ : s.invocations.countP (fun invocation => invocation.context == c) = 0 := by
        refine List.countP_eq_zero.mpr ?_
        intro old known same
        have same : old.context = c := by simpa using same
        obtain ⟨k,at_⟩ := List.getElem?_of_mem known
        obtain ⟨x,found,_,started⟩ := conserved.invocations k old at_
        have still := pending x (by rw [about,← same]; exact found)
        have shaped := conserved.ready.managed.shaped _ x found
        unfold Shaped at shaped
        rw [still] at shaped
        exact started shaped.1
      omega
  | invocation found moved =>
    rename_i e invocation stage w
    have kept := Slots.countSetSame (y := {invocation with stage := stage})
      (fun invocation => invocation.context == c) found rfl
    exact kept ▸ few
  | invokePut found stage room =>
    rename_i e invocation consumer
    have kept := Slots.countSetSame (y := {invocation with stage := .resuming})
      (fun invocation => invocation.context == c) found rfl
    exact kept ▸ few
  | _ => exact few

/- In an execution without end nothing concerns the context any more from some
point on. -/
theorem concernsEnd {states : Nat → State V} {acts : Nat → Action V}
    (capped : Machine.Along (Runtime.step values) (Capped M c) (Runtime.initial m) r)
    (ran : Machine.run (Runtime.step values) (Runtime.initial m) r = some s)
    (born : (births values (Runtime.initial m) r)[c]? = some b) (first : states 0 = s)
    (endless : Machine.Endless (Runtime.step values) states acts) (all : ∀ n, Capped M c (states n)) :
    ∃ N, ∀ n ≥ N, ¬ Concerns (states n) c (acts n) := by
  subst first
  have reached : ∀ n, Machine.run (Runtime.step values) (Runtime.initial m)
      (r ++ (List.range n).map acts) = some (states n) :=
    fun n => Machine.runAppend.mpr ⟨states 0,ran,Machine.endlessRun endless n⟩
  have inside : ∀ n, Machine.Along (Runtime.step values) (Capped M c) (Runtime.initial m)
      (r ++ (List.range n).map acts) :=
    fun n => (Machine.alongAppend ran).mpr ⟨capped,Machine.endlessAlong endless all n⟩
  have dispatches : ∀ n, (states n).tasks.countP (fun task => carries c task.event) ≤
      (max 0 (M - b.steps)).toNat + 1 := by
    intro n
    have ledger := runLedger (inside n) (reached n)
    have born' := birthsKept ran (Machine.endlessRun endless n) born
    obtain ⟨⟨x,found,_⟩,_⟩ := (runTrailed (reached n)).entry c b born'
    have budgeted := ledger.budgeted x b found born'
    have few := dispatchesFew (c := c) (reached n)
    have within := budgeted.within
    have behind := budgeted.behind
    omega
  obtain ⟨N,tasks⟩ := Descent.storeSettles (fun n => (states n).tasks)
    (fun task => carries c task.event) taskLeft (fun n d => dispatchOf (acts n) = some d)
    (fun n d task found => by
      obtain ⟨next,there,event,most,less⟩ := tasksShrink (Runtime.stepCases (endless n)) found
      exact ⟨next,there,by rw [event],most,less⟩) dispatches
  obtain ⟨K,calls⟩ := Descent.storeSettles (fun n => (states n).invocations)
    (fun invocation => invocation.context == c) (fun invocation => stageLeft invocation.stage)
    (fun n k => invocationOf (acts n) = some k)
    (fun n k invocation found => by
      obtain ⟨next,there,context,most,less⟩ := invocationsShrink (Runtime.stepCases (endless n)) found
      exact ⟨next,there,by rw [context],most,less⟩) (fun n => callsFew (reached n))
  refine ⟨max N K,?_⟩
  rintro n late (⟨d,task,own,found,mine⟩ | ⟨k,invocation,own,found,about⟩)
  · exact tasks n (le_trans (le_max_left N K) late) d task found mine own
  · exact calls n (le_trans (le_max_right N K) late) k invocation found (by simp [about]) own

def Runs (s : State V) (c : Nat) : Prop := ∃ x, s.world.contexts[c]? = some x ∧ x.status = .running

/- While the attempt runs, nobody lets it wait for ever, and it is not for ever kept from
steps that it can take again and again. -/
structure Fair (values : Values V) (c : Nat) (states : Nat → State V) (acts : Nat → Action V) : Prop where
  answered : ∀ n, (∀ k ≥ n, Runs (states k) c) → ∃ k ≥ n, awaits (states k) c = false
  served : (∀ n, ∃ k ≥ n, Able values (states k) c) → ∀ n, ∃ k ≥ n, Concerns (states k) c (acts k)

theorem runsOn {whole : Nat → Prop} (conserved : Conserved whole s) (taken : Runtime.Step values s a t) (runs : Runs s c) :
    Runs t c ∨ ∃ y, t.world.contexts[c]? = some y ∧ y.status.terminal = true := by
  obtain ⟨x,found,running⟩ := runs
  obtain ⟨y,there,goes⟩ := stepPersists conserved.ready taken c x found
  have before := conserved.ready.managed.shaped c x found
  have after := (readyStep conserved.ready taken).managed.shaped c y there
  unfold Shaped at before after
  rw [running] at before
  cases at_ : y.status with
  | running => exact .inl ⟨y,there,at_⟩
  | pending =>
    rw [at_] at after
    obtain ⟨run,given⟩ := Option.isSome_iff_exists.mp before.1
    rw [goes.runId run given] at after
    exact absurd after.1 nofun
  | failed => exact .inr ⟨y,there,by rw [at_]; rfl⟩
  | aborted => exact .inr ⟨y,there,by rw [at_]; rfl⟩
  | finished => exact .inr ⟨y,there,by rw [at_]; rfl⟩

/- A fair execution that loses none of its events brings an attempt to its end. -/
theorem attemptEnds {states : Nat → State V} {acts : Nat → Action V}
    (capped : Machine.Along (Runtime.step values) (Capped M c) (Runtime.initial m) r)
    (ran : Machine.run (Runtime.step values) (Runtime.initial m) r = some s)
    (born : (births values (Runtime.initial m) r)[c]? = some b) (conserved : Conserved (· = c) s)
    (runs : Runs s c) (first : states 0 = s) (endless : Machine.Endless (Runtime.step values) states acts)
    (all : ∀ n, Capped M c (states n)) (spared : ∀ n, spares c (states n) (acts n) = true)
    (fair : Fair values c states acts) :
    ∃ n y, (states n).world.contexts[c]? = some y ∧ y.status.terminal = true := by
  by_contra never
  have always : ∀ n, Conserved (· = c) (states n) ∧ Runs (states n) c := by
    intro n
    induction n with
    | zero => exact first ▸ ⟨conserved,runs⟩
    | succ n ih =>
      have taken := Runtime.stepCases (endless n)
      have next := conservedStep ih.1 (fun _ same => same ▸ spared n) taken
      refine ⟨next,(runsOn ih.1 taken ih.2).resolve_right ?_⟩
      rintro ⟨y,there,past⟩
      exact never ⟨n + 1,y,there,past⟩
  obtain ⟨N,quiet⟩ := concernsEnd capped ran born first endless all
  have able : ∀ n, ∃ k ≥ n, Able values (states k) c := by
    intro n
    obtain ⟨k,late,free⟩ := fair.answered n (fun k _ => (always k).2)
    obtain ⟨x,found,running⟩ := (always k).2
    refine ⟨k,late,(progress (always k).1 rfl found running).resolve_right ?_⟩
    rw [free]
    nofun
  obtain ⟨k,late,works⟩ := fair.served able N
  exact quiet k late works

/- An attempt begins no more batches than its budget leaves, counts those it has
committed, may always end, and is refused whatever needs more. It takes finitely many
steps; while it runs and none of its events is lost it can take one or waits for somebody
else, so that it ends unless it is left waiting for ever. -/
theorem stepBudget (capped : Machine.Along (Runtime.step values) (Capped M c) (Runtime.initial m) r)
    (ran : Machine.run (Runtime.step values) (Runtime.initial m) r = some s)
    (born : (births values (Runtime.initial m) r)[c]? = some b) (found : s.world.contexts[c]? = some x)
    (owner : s.world.graphs[x.graphId]? = some graph) :
    Started b ∧ (begun values c (Runtime.initial m) r : Int) ≤ max 0 (M - b.steps) ∧
    x.steps = b.steps + counted values c (Runtime.initial m) r ∧
    (∀ a t next, Runtime.step values s a = some t → applied values s c a = some next →
      ∃ y, t.world.contexts[c]? = some y ∧ y.steps = x.steps + 1 ∧
        Settles M graph next y (∀ r, begun values c t r = 0)) ∧
    (x.status = .pending → graph.decomposed = false → ∀ target,
      Target.normaliseTarget graph.nodes (.target x.targetNodeName) = .ok target →
      (target ≠ .node END → graph.maxSteps ≤ x.steps →
        NodeGraph.perform values.copyable s.world (.beginInvocation x.graphId .none (.context c)) =
          some (.error (budgetError graph.maxSteps,s.world))) ∧
      (target = .node END ∨ x.steps < graph.maxSteps → ∃ w,
        NodeGraph.perform values.copyable s.world (.beginInvocation x.graphId .none (.context c)) =
          some (.ok w))) ∧
    (∀ state prepared, graph.decomposed = false →
      copyState values.copyable graph.keepRefKeys state = .ok prepared → graph.entryPoint ≠ .node END →
      graph.maxSteps ≤ 0 →
        NodeGraph.perform values.copyable s.world (.beginInvocation x.graphId (.dict state) .none) =
          some (.error (budgetError graph.maxSteps,s.world))) ∧
    (∀ states acts, states 0 = s → Machine.Endless (Runtime.step values) states acts →
      (∀ n, Capped M c (states n)) → ∃ N, ∀ n ≥ N, ¬ Concerns (states n) c (acts n)) ∧
    (x.status = .running →
      Machine.Steps (Runtime.step values) (fun s a => spares c s a = true) (Runtime.initial m) r →
      (Able values s c ∨ awaits s c = true) ∧
      ∀ states acts, states 0 = s → Machine.Endless (Runtime.step values) states acts →
        (∀ n, Capped M c (states n)) → (∀ n, spares c (states n) (acts n) = true) →
        Fair values c states acts →
        ∃ n y, (states n).world.contexts[c]? = some y ∧ y.status.terminal = true) := by
  have ledger := runLedger capped ran
  have conserved := runConserved ran
  have budgeted := ledger.budgeted x b found born
  have started := ledger.started b born
  have here : Capped M c s := Machine.alongLast capped ran
  have positive : 0 ≤ x.steps := by
    have counted := started.counted
    have steps := budgeted.steps
    omega
  refine ⟨started,budgeted.within,budgeted.steps,?_,?_,?_,?_,?_⟩
  · intro a t next taken went
    exact appliedSettles conserved here started budgeted found owner taken went
  · intro pending live target normalised
    exact admission values.copyable found pending owner live positive normalised
  · intro state prepared live copied more spent
    exact freshRejected owner live copied ((runTrailed ran).formed _ graph owner) more spent
  · intro states acts first endless all
    exact concernsEnd capped ran born first endless all
  · intro running spared
    have whole := runWhole spared ran
    refine ⟨progress whole rfl found running,?_⟩
    intro states acts first endless all kept fair
    exact attemptEnds capped ran born whole ⟨x,found,running⟩ first endless all kept fair

/- Two batches of a graph that always names itself, with a budget of two: the
second has run and is about to be committed. -/
def endlessBatches : List (Action Nat) :=
  [.graph (.construct flow),.graph (.beginInvocation 0 (.dict .empty) .none),.invoke 0,.invokePut 0,
    .invokeResume 0,.consumer .start,.consumer (.begin 0),.consumer (.dequeue 0 (.resolved [.graph 0])),
    .consumer (.launch 0 .launched),.dispatch 0 .begin,.dispatch 0 .visit,.dispatch 0 .gate,.core 0 0,
    .startNode 0 0,.endNode 0 0 (.returned toSelf),.gather 0 .returned,.put 0,
    .consumer (.dequeue 0 (.resolved [.graph 0])),.resume 0,.consumer (.launch 0 .launched),
    .dispatch 1 .begin,.dispatch 1 .visit,.dispatch 1 .gate,.core 1 1,.startNode 1 0,
    .endNode 1 0 (.returned toSelf)]

def spentRun : State Nat :=
  (Machine.run (Runtime.step numbers) (Runtime.initial 1) endlessBatches).getD (Runtime.initial 1)

def spentGraph : Graph := ⟨⟨["a"],.node "a",false,[],[]⟩,2,[0],false⟩

def spentContext : GraphContext Nat :=
  ⟨0,some 0,.empty,.node "a",1,[⟨0,.empty,.node "a",0,0⟩,⟨1,.empty,.node "a",1,0⟩],some .pending,.running,some 0⟩

def spentBirth : GraphContext Nat := ⟨0,some 0,.empty,.node "a",0,[],some .pending,.running,some 0⟩

example : (begun numbers 0 (Runtime.initial 1) endlessBatches,
    (Runtime.step numbers spentRun (.gather 1 .returned)).map (fun t => t.world.contexts.map (fun x =>
      (x.status,x.steps,x.completion)))) =
    (2,some [(.failed,2,some (.exception (budgetError 2)))]) := by decide

theorem stepBudgetSpent :
    Started spentBirth ∧
    (begun numbers 0 (Runtime.initial 1) endlessBatches : Int) ≤ max 0 (2 - spentBirth.steps) ∧
    spentContext.steps = spentBirth.steps + counted numbers 0 (Runtime.initial 1) endlessBatches ∧
    (∀ a t next, Runtime.step numbers spentRun a = some t → applied numbers spentRun 0 a = some next →
      ∃ y, t.world.contexts[0]? = some y ∧ y.steps = spentContext.steps + 1 ∧
        Settles 2 spentGraph next y (∀ r, begun numbers 0 t r = 0)) ∧
    (spentContext.status = .pending → spentGraph.decomposed = false → ∀ target,
      Target.normaliseTarget spentGraph.nodes (.target spentContext.targetNodeName) = .ok target →
      (target ≠ .node END → spentGraph.maxSteps ≤ spentContext.steps →
        NodeGraph.perform numbers.copyable spentRun.world
          (.beginInvocation spentContext.graphId .none (.context 0)) =
            some (.error (budgetError spentGraph.maxSteps,spentRun.world))) ∧
      (target = .node END ∨ spentContext.steps < spentGraph.maxSteps → ∃ w,
        NodeGraph.perform numbers.copyable spentRun.world
          (.beginInvocation spentContext.graphId .none (.context 0)) = some (.ok w))) ∧
    (∀ state prepared, spentGraph.decomposed = false →
      copyState numbers.copyable spentGraph.keepRefKeys state = .ok prepared →
      spentGraph.entryPoint ≠ .node END → spentGraph.maxSteps ≤ 0 →
        NodeGraph.perform numbers.copyable spentRun.world
          (.beginInvocation spentContext.graphId (.dict state) .none) =
            some (.error (budgetError spentGraph.maxSteps,spentRun.world))) ∧
    (∀ states acts, states 0 = spentRun → Machine.Endless (Runtime.step numbers) states acts →
      (∀ n, Capped 2 0 (states n)) → ∃ N, ∀ n ≥ N, ¬ Concerns (states n) 0 (acts n)) ∧
    (Able numbers spentRun 0 ∨ awaits spentRun 0 = true) ∧
    ∀ states acts, states 0 = spentRun → Machine.Endless (Runtime.step numbers) states acts →
      (∀ n, Capped 2 0 (states n)) → (∀ n, spares 0 (states n) (acts n) = true) →
      Fair numbers 0 states acts →
      ∃ n y, (states n).world.contexts[0]? = some y ∧ y.status.terminal = true := by
  have all := @stepBudget Nat numbers spentRun 0 1 endlessBatches spentContext spentBirth 2 spentGraph
    (Machine.alongOfDecide rfl) rfl rfl rfl rfl
  obtain ⟨started,within,steps,settles,admitted,fresh,finite,ends⟩ := all
  exact ⟨started,within,steps,settles,admitted,fresh,finite,ends rfl (Machine.stepsOfCheck rfl)⟩

/- The only node of the first batch has ended. The event of the second is put, and its
handlers cannot be resolved: the consumer logs this and goes on. -/
def lostBatch : List (Action Nat) :=
  [.graph (.construct flow),.graph (.beginInvocation 0 (.dict .empty) .none),.invoke 0,.invokePut 0,
    .invokeResume 0,.consumer .start,.consumer (.begin 0),.consumer (.dequeue 0 (.resolved [.graph 0])),
    .consumer (.launch 0 .launched),.dispatch 0 .begin,.dispatch 0 .visit,.dispatch 0 .gate,.core 0 0,
    .startNode 0 0,.endNode 0 0 (.returned toSelf),.gather 0 .returned,.put 0,
    .consumer (.dequeue 0 .failed),.resume 0,.dispatch 0 .visit]

def stranded : State Nat :=
  (Machine.run (Runtime.step numbers) (Runtime.initial 1) lostBatch).getD (Runtime.initial 1)

theorem strandedCapped : Capped 2 0 stranded := by decide

theorem strandedIdle : ¬ Able numbers stranded 0 := by
  rintro ⟨a,t,alone,concerns,taken⟩
  rcases concerns with ⟨d,task,mine,found,_⟩ | ⟨k,invocation,mine,found,_⟩
  · obtain rfl : d = 0 := Nat.lt_one_iff.mp (Slots.inside found)
    cases a with
    | dispatch e b =>
      cases b with
      | begin | visit | gate | cleanup => cases mine; cases taken
      | _ => cases alone
    | notify e => cases mine; cases taken
    | notifyCancelled e => cases mine; cases taken
    | core e p => cases mine; cases taken
    | startNode e i =>
      cases mine
      match i with
      | 0 => cases taken
      | i + 1 => cases taken
    | endNode e i how => cases alone
    | gather e how => cases mine; cases how <;> cases taken
    | put e => cases mine; cases taken
    | putFailed e error => cases alone
    | postCancelled e => cases alone
    | resume e => cases mine; cases taken
    | _ => cases mine
  · obtain rfl : k = 0 := Nat.lt_one_iff.mp (Slots.inside found)
    cases a with
    | invoke j => cases mine; cases taken
    | invokePut j => cases mine; cases taken
    | invokeFailed j error => cases alone
    | invokeCancelled j => cases alone
    | invokeResume j => cases mine; cases taken
    | wake j => cases mine; cases taken
    | _ => cases mine

/- All node executions have ended, the attempt has nothing more to do and waits for nobody,
and the rest of the system may go on for ever without it. -/
theorem runsForEver :
    Machine.run (Runtime.step numbers) (Runtime.initial 1) lostBatch = some stranded ∧
    (∀ task ∈ stranded.tasks, ∀ node ∈ task.nodes, node.outcome.isSome = true) ∧
    ¬ Able numbers stranded 0 ∧ awaits stranded 0 = false ∧
    ∃ states acts, states 0 = stranded ∧ Machine.Endless (Runtime.step numbers) states acts ∧
      ∀ n, Capped 2 0 (states n) ∧ Runs (states n) 0 :=
  ⟨rfl,by decide,strandedIdle,rfl,fun _ => stranded,fun _ => .consumer .start,rfl,fun _ => rfl,
    fun _ => ⟨strandedCapped,_,rfl,rfl⟩⟩
end Apixis.Termination
