import Apixis.Graph.Trail

/-! The step budget of an attempt: how many batches it may begin, what its step
count says of those it has committed, and how it ends when the budget is used up. -/
namespace Apixis.Budget
open NodeGraph hiding Action step initial
open ApplyCommand Lifecycle Moves Obligation Baton Trail Apixis.Runtime

variable {V : Type}

section Counts
variable (values : Values V)

/- The step creates the node tasks of a batch of context `c`. -/
def begins (s : State V) (c : Nat) : Action V → Bool
  | .core d now => match Runtime.step values s (.core d now) with
      | some t => t.tasks[d]?.any (gathers c)
      | none => false
  | _ => false

/- What the commands of a batch of context `c` name next, once all are applied. -/
def applied (s : State V) (c : Nat) : Action V → Option Target
  | .gather d .returned => do
      let task ← s.tasks[d]?
      let (g,_) ← task.calling
      let results ← allReturned task.nodes
      let graph ← s.world.graphs[g]?
      let x ← s.world.contexts[c]?
      if task.event.context = some c ∧ task.work = .gathering ∧ x.isActive = true then
        match applyCommand values g graph results (.batch (task.nodes.map NodeTask.name)) x with
        | .ok (next,_) => some next
        | .error _ => none
      else none
  | _ => none

/- The batches of context `c` that a run begins, and those whose commands it applies. -/
def begun (c : Nat) : State V → List (Action V) → Nat :=
  Machine.tally (Runtime.step values) (fun s a => (begins values s c a).toNat)

def counted (c : Nat) : State V → List (Action V) → Nat :=
  Machine.tally (Runtime.step values) (fun s a => (applied values s c a).isSome.toNat)

end Counts

/- As long as context `c` runs, its graph has the budget `M`. -/
def Capped (M : Int) (c : Nat) (s : State V) : Prop :=
  ∀ x ∈ s.world.contexts[c]?, x.status = .running →
    ∀ graph ∈ s.world.graphs[x.graphId]?, graph.maxSteps = M

instance (M : Int) (c : Nat) (s : State V) : Decidable (Capped M c s) :=
  inferInstanceAs (Decidable (∀ x ∈ s.world.contexts[c]?, x.status = .running →
    ∀ graph ∈ s.world.graphs[x.graphId]?, graph.maxSteps = M))

variable {values : Values V} {s t : State V} {c d : Nat} {a : Action V} {r : List (Action V)}
  {x y b : GraphContext V} {task next : DispatchTask V} {graph : Graph} {target : Target} {M : Int}
  {n k : Nat} {invocation : Invocation}

/- A batch of context `c` whose commands are applied, and what becomes of the context. -/
inductive Applies (values : Values V) (s : State V) (c : Nat) (x : GraphContext V) :
    Action V → Target → GraphContext V → Prop where
  | committed {d task graph results next state target} (found : s.tasks[d]? = some task)
      (context : task.event.context = some c) (work : task.work = .gathering)
      (owner : s.world.graphs[x.graphId]? = some graph) (running : x.status = .running)
      (returned : allReturned task.nodes = some results)
      (applied : applyCommand values x.graphId graph results (.batch (task.nodes.map NodeTask.name)) x =
        .ok (next,state))
      (valid : validateTarget graph next (x.steps + 1) = .ok target) :
      Applies values s c x (.gather d .returned) next
        {x with state := state, steps := x.steps + 1, targetNodeName := target}
  | overrun {d task graph results next state error} (found : s.tasks[d]? = some task)
      (context : task.event.context = some c) (work : task.work = .gathering)
      (owner : s.world.graphs[x.graphId]? = some graph) (running : x.status = .running)
      (returned : allReturned task.nodes = some results)
      (applied : applyCommand values x.graphId graph results (.batch (task.nodes.map NodeTask.name)) x =
        .ok (next,state))
      (invalid : validateTarget graph next (x.steps + 1) = .error error) :
      Applies values s c x (.gather d .returned) next
        (ended {x with state := state, steps := x.steps + 1} .failed (fun _ => .exception error))

theorem brokenThere {w : World V} {z : GraphContext V} {error : PyError} (managed : Managed w)
    (there : w.contexts[c]? = some x) (alike : Alike x z) (running : x.status = .running) :
    (PyError.stateOf (failIfActive (w.setContext c z) x.graphId c error)).contexts[c]? =
      some (ended z .failed (fun _ => .exception error)) := by
  have shaped := alikeShaped alike (managed.shaped c x there)
  have written := setManaged managed there shaped alike.graphId alike.status
  have stored : (w.setContext c z).contexts[c]? = some z := Slots.setSame there
  have active := runningActive written stored (alike.status.trans running)
  rw [alike.graphId] at active
  rcases failIfActiveCloses written x.graphId c error with ⟨idle,_⟩ | ⟨z',known,_,_,_,done⟩
  · rw [active] at idle
    contradiction
  · cases Option.some.inj (stored.symm.trans known)
    rw [done]
    exact Slots.setSame stored

theorem appliedSome (ready : Ready s) (taken : Runtime.step values s a = some t)
    (went : applied values s c a = some target) : ∃ x y, s.world.contexts[c]? = some x ∧
      t.world.contexts[c]? = some y ∧ Applies values s c x a target y := by
  unfold applied at went
  split at went <;> try contradiction
  rename_i d
  simp only [bind,Option.bind_eq_some_iff] at went
  obtain ⟨task,found,⟨g,phase⟩,calling,results,returned,graph,owner,x,there,last⟩ := went
  split at last <;> try contradiction
  rename_i guards
  obtain ⟨context,work,active⟩ := guards
  split at last <;> try contradiction
  rename_i next state does
  cases Option.some.inj last
  have mine := worksOwner (ready.works d task found) (by rw [work]; nofun) calling context there
  subst mine
  have running : x.status = .running := eq_of_beq active
  cases valid : validateTarget graph target (x.steps + 1) with
  | ok target' =>
    have result : t = s.setTask d {task with work := .posting} (s.world.setContext c
        {x with state := state, steps := x.steps + 1, targetNodeName := target'}) := by
      simp only [Runtime.step,bind,Option.bind,found,calling,context,work,if_true,gather,returned,
        owner,there,commit,active,does,valid] at taken
      exact (Option.some.inj taken).symm
    subst result
    exact ⟨x,_,there,Slots.setSame there,.committed found context work owner running returned does valid⟩
  | error error =>
    have alike : Alike x {x with state := state, steps := x.steps + 1} := ⟨rfl,rfl,rfl,rfl,rfl⟩
    have world : t.world = PyError.stateOf (failIfActive (s.world.setContext c
        {x with state := state, steps := x.steps + 1}) x.graphId c error) := by
      simp only [Runtime.step,bind,Option.bind,found,calling,context,work,if_true,gather,returned,
        owner,there,commit,active,does,valid] at taken
      split at taken
      · contradiction
      · rename_i answered
        split at answered
        · contradiction
        · cases answered
          cases Option.some.inj taken
          rfl
    refine ⟨x,_,there,?_,.overrun found context work owner running returned does valid⟩
    rw [world]
    exact brokenThere ready.managed there alike running

theorem moveApplied (ready : Ready s) (there : s.world.contexts[c]? = some x)
    (applies : Applies values s c x a target y) : applied values s c a = some target := by
  have parts : ∃ d task graph results state, a = .gather d .returned ∧ s.tasks[d]? = some task ∧
      task.event.context = some c ∧ task.work = .gathering ∧
      s.world.graphs[x.graphId]? = some graph ∧ x.status = .running ∧
      allReturned task.nodes = some results ∧
      applyCommand values x.graphId graph results (.batch (task.nodes.map NodeTask.name)) x =
        .ok (target,state) := by
    cases applies with
    | committed found context work owner running returned does valid =>
      exact ⟨_,_,_,_,_,rfl,found,context,work,owner,running,returned,does⟩
    | overrun found context work owner running returned does invalid =>
      exact ⟨_,_,_,_,_,rfl,found,context,work,owner,running,returned,does⟩
  obtain ⟨d,task,graph,results,state,rfl,found,context,work,owner,running,returned,does⟩ := parts
  obtain ⟨g,e,z,calling,context',known,mine⟩ := ready.works d task found (by rw [work]; nofun)
  rw [context] at context'
  cases context'
  cases Option.some.inj (there.symm.trans known)
  have active : x.isActive = true := by rw [GraphContext.isActive,running]; rfl
  subst mine
  simp only [applied,bind,Option.bind,found,calling,returned,owner,there,context,work,active,does,
    and_self,if_true]

theorem committedApplied (ready : Ready s) (taken : Runtime.step values s a = some t)
    (quiet : applied values s c a = none) : committed values s c a = none := by
  cases went : committed values s c a with
  | none => rfl
  | some results =>
    obtain ⟨⟨x,y,there,_,commits⟩,_⟩ := committedSome ready taken went
    cases commits with
    | mk found context work owner running returned does valid =>
      rw [moveApplied ready there (.committed found context work owner running returned does valid)] at quiet
      contradiction

theorem beginsCases (conserved : Conserved nowhere s) (taken : Runtime.step values s a = some t)
    (went : begins values s c a = true) : ∃ (d : Nat) (now : ℚ) (next : DispatchTask V) (x y : GraphContext V)
      (graph : Graph) (names : List String), a = .core d now ∧ t.tasks[d]? = some next ∧
      gathers c next = true ∧ s.world.contexts[c]? = some x ∧ t.world.contexts[c]? = some y ∧
      x.status = .running ∧ x.targetNodeName ≠ .node END ∧ Between s c ∧
      s.invocations.countP (owesPost c) = 0 ∧ executeNode values graph x now = .ok (names,y) := by
  unfold begins at went
  split at went <;> try contradiction
  rename_i d now
  rw [taken] at went
  obtain ⟨next,there,busy⟩ := (Option.any_eq_true _ _).mp went
  obtain ⟨⟨g,about⟩,work⟩ := gathersCases busy
  have steps := Runtime.stepCases taken
  cases steps with
  | task found moved =>
    rename_i e task other w
    cases moved with
    | coreIdle calling idle inactive done =>
      obtain ⟨run,_,rfl⟩ := answerCases done
      cases Option.some.inj ((Slots.setSame found).symm.trans there)
      contradiction
    | coreFinish calling idle event active known end_ done =>
      obtain ⟨run,_,rfl⟩ := answerCases done
      cases Option.some.inj ((Slots.setSame found).symm.trans there)
      contradiction
    | coreRaise calling idle event active known owner more raised done =>
      obtain ⟨run,_,rfl⟩ := answerCases done
      cases Option.some.inj ((Slots.setSame found).symm.trans there)
      contradiction
    | coreBegin calling idle event active known owner more begun =>
      rename_i g' h e x y graph names
      cases Option.some.inj ((Slots.setSame found).symm.trans there)
      have same : task.event = .dispatch g c := about
      cases event.symm.trans same
      have ok := conserved.tasks d task found
      obtain ⟨rfl,running,holds⟩ := coreRunning conserved.ready ok event active known
      obtain ⟨unposted_,empty⟩ := callingEarly holds event calling idle
      have context : task.event.context = some c := by rw [event]; rfl
      have mine : unposted c task = true := by simp [unposted,carriesContext context,unposted_]
      have here := Slots.countPositive (unposted c) found mine
      have few := conserved.few c
      unfold pieces at few
      have resting_ : resting c task = true := by simp [resting,carriesContext context,unposted_,empty]
      exact ⟨d,now,_,x,y,graph,names,rfl,there,busy,known,Slots.setSame known,running,more,
        .inr (.inr ⟨d,task,found,resting_⟩),by omega,begun⟩
  | invocation found moved => cases moved

/- A call of `_invoke` for context `c` that has not validated its target yet. -/
def Admits (s : State V) (c : Nat) : Prop :=
  ∃ (k : Nat) (invocation : Invocation), s.invocations[k]? = some invocation ∧ invocation.context = c ∧
    invocation.stage = .admitted

/- A context that appeared as `b`, has begun `n` batches, has applied `k` of them
and is `x` now, in a graph with budget `M`. -/
structure Budgeted (M : Int) (s : State V) (c : Nat) (b x : GraphContext V) (n k : Nat) : Prop where
  steps : x.steps = b.steps + k
  within : (n : Int) ≤ max 0 (M - b.steps)
  behind : k ≤ n
  fresh : x.status = .pending → n = 0 ∧ k = 0
  budget : x.status = .running → x.targetNodeName = .node END ∨ x.steps < M ∨ Admits s c
  between : x.status = .running → Between s c → n = k
  gathering : x.status = .running → ∀ (d : Nat) task, s.tasks[d]? = some task → gathers c task = true →
    n = k + 1
  completion : x.status = .running → x.completion = some .pending ∨ x.completion = some .cancelled

/- What is between two batches has none of them running. -/
theorem gathersNone (conserved : Conserved nowhere s) (between : Between s c) :
    ∀ (d : Nat) task, s.tasks[d]? = some task → gathers c task = true → False := by
  intro d task known busy
  rw [betweenExcludes conserved between known] at busy
  contradiction

theorem admitsStep (conserved : Conserved nowhere s) (taken : Runtime.Step values s a t)
    (found : s.world.contexts[c]? = some x) (ran : x.status = .running)
    (there : t.world.contexts[c]? = some y) (running : y.status = .running) (admits : Admits s c) :
    Admits t c ∨ ∃ graph target, s.world.graphs[x.graphId]? = some graph ∧
      validateTarget graph x.targetNodeName x.steps = .ok target ∧ y = {x with targetNodeName := target} := by
  obtain ⟨k,invocation,known,about,stage⟩ := admits
  have stays : t.invocations[k]? = some invocation → Admits t c := fun same => ⟨k,invocation,same,about,stage⟩
  cases taken with
  | accepted open_ performed =>
    refine .inl (stays ?_)
    show (s.invocations ++ _)[k]? = some invocation
    rw [List.getElem?_append_left (Slots.inside known)]
    exact known
  | invocation here moved =>
    rename_i e other stage' w
    by_cases same : e = k
    · subst same
      cases Option.some.inj (here.symm.trans known)
      subst about
      have mention := conserved.invocations e invocation known
      have mine := (mentionFound mention found).1
      have active := runningActive conserved.ready.managed found ran
      rw [mine] at active
      cases moved with
      | refused stage owner there' active' invalid =>
        cases Option.some.inj (found.symm.trans there')
        rcases graphFailCloses conserved.ready.managed invocation.graphId invocation.context _ with
          ⟨idle,_⟩ | ⟨z,known',_,_,_,done⟩
        · rw [active] at idle
          contradiction
        · have world : y = ended z .failed _ :=
            Option.some.inj (there.symm.trans (by rw [State.setInvocation,done]; exact Slots.setSame known'))
          rw [world] at running
          contradiction
      | targeted stage owner there' active' valid =>
        cases Option.some.inj (found.symm.trans there')
        refine .inr ⟨_,_,by rw [mine]; exact owner,valid,?_⟩
        exact Option.some.inj (there.symm.trans (Slots.setSame found))
      | late stage there' inactive =>
        rw [active] at inactive
        contradiction
      | failed stage' => rw [stage] at stage'; contradiction
      | cancelled stage' => rw [stage] at stage'; rcases stage' with no | no <;> contradiction
      | resume stage' => rw [stage] at stage'; contradiction
      | wake stage' => rw [stage] at stage'; contradiction
    · exact .inl (stays ((Slots.setOther same).trans known))
  | invokePut here stage' room =>
    rename_i e other consumer
    by_cases same : e = k
    · subst same
      cases Option.some.inj (here.symm.trans known)
      rw [stage] at stage'
      contradiction
    · exact .inl (stays ((Slots.setOther same).trans known))
  | _ => exact .inl (stays known)

theorem budgetedSame (conserved : Conserved nowhere s) (capped : Capped M c s)
    (taken : Runtime.step values s a = some t)
    (found : s.world.contexts[c]? = some x) (there : t.world.contexts[c]? = some y)
    (budgeted : Budgeted M s c b x n k) (still : begins values s c a = false)
    (quiet : applied values s c a = none) (steps : y.steps = x.steps) (status : y.status = x.status)
    (target : y.targetNodeName = x.targetNodeName ∨ ∃ graph, s.world.graphs[x.graphId]? = some graph ∧
      validateTarget graph x.targetNodeName x.steps = .ok y.targetNodeName)
    (completion : y.status = .running → y.completion = some .pending ∨ y.completion = some .cancelled) :
    Budgeted M t c b y n k := by
  have step := Runtime.stepCases taken
  have valid : ∀ graph target', x.status = .running → s.world.graphs[x.graphId]? = some graph →
      validateTarget graph x.targetNodeName x.steps = .ok target' →
      target' = .node END ∨ x.steps < M := by
    intro graph target' running owner valid
    have budget := capped x found running graph owner
    rw [← budget]
    exact (validateBudget valid).2.2
  refine ⟨steps.trans budgeted.steps,budgeted.within,budgeted.behind,
    fun pending => budgeted.fresh (status.symm.trans pending),?_,?_,?_,completion⟩
  · intro running
    have ran := status.symm.trans running
    rw [steps]
    rcases target with same | ⟨graph,owner,validated⟩
    · rw [same]
      rcases budgeted.budget ran with end_ | less | admits
      · exact .inl end_
      · exact .inr (.inl less)
      · rcases admitsStep conserved step found ran there running admits with stays | ⟨graph,target',owner,valid',rfl⟩
        · exact .inr (.inr stays)
        · rw [← same]
          exact (valid graph target' ran owner valid').imp id .inl
    · exact (valid graph _ ran owner validated).imp id .inl
  · intro running between
    have ran := status.symm.trans running
    rcases betweenKept conserved step found ran between with was | went
    · exact budgeted.between ran was
    · exact absurd (committedApplied conserved.ready taken quiet) went
  · intro running d task known busy
    have ran := status.symm.trans running
    rcases gathersKept conserved step known busy with ⟨old,before,gathering,_⟩ |
      ⟨now,z,z',graph,rfl,_⟩
    · exact budgeted.gathering ran d old before gathering
    · simp [begins,taken,known,busy] at still

theorem budgetedOver (final : y.status.terminal = true) (steps : y.steps = b.steps + k)
    (within : (n : Int) ≤ max 0 (M - b.steps)) (behind : k ≤ n) : Budgeted M t c b y n k := by
  have not : ∀ status : Status, status.terminal = false → y.status = status → False := by
    intro status open_ same
    rw [same,open_] at final
    contradiction
  exact ⟨steps,within,behind,fun at_ => (not .pending rfl at_).elim,fun at_ => (not .running rfl at_).elim,
    fun at_ => (not .running rfl at_).elim,fun at_ => (not .running rfl at_).elim,
    fun at_ => (not .running rfl at_).elim⟩

theorem budgetedBegan (conserved : Conserved nowhere s) (after : Conserved nowhere t)
    (taken : Runtime.step values s a = some t) (found : s.world.contexts[c]? = some x)
    (there : t.world.contexts[c]? = some y) (budgeted : Budgeted M s c b x n k)
    (went : begins values s c a = true) : Budgeted M t c b y (n + 1) k := by
  obtain ⟨d,now,next,x',y',graph,names,rfl,place,busy,known,known',ran,more,between,alone,begun⟩ :=
    beginsCases conserved taken went
  cases Option.some.inj (found.symm.trans known)
  cases Option.some.inj (there.symm.trans known')
  have alike := executeNodeAlike begun
  have count := budgeted.between ran between
  have noAdmission : ¬ Admits s c := by
    rintro ⟨k',invocation,at_,about,stage⟩
    have owing : owesPost c invocation = true := by simp [owesPost,about,stage]
    have one := Slots.countPositive (owesPost c) at_ owing
    omega
  have less : x.steps < M := by
    rcases budgeted.budget ran with end_ | less | admits
    · exact absurd end_ more
    · exact less
    · exact absurd admits noAdmission
  have kept : y.targetNodeName = x.targetNodeName ∧ y.steps = x.steps := by
    rcases (executeNodeOk begun).2 with ⟨_,rfl⟩ | ⟨_,_,_,_,rfl⟩ <;> exact ⟨rfl,rfl⟩
  have steps := budgeted.steps
  refine ⟨kept.2.trans steps,?_,by omega,?_,?_,?_,?_,?_⟩
  · push_cast
    omega
  · intro pending
    rw [alike.status,ran] at pending
    contradiction
  · intro _
    rw [kept.2]
    exact .inr (.inl less)
  · intro _ again
    exact (gathersNone after again d next place busy).elim
  · intro _ _ _ _ _
    rw [count]
  · intro _
    rw [alike.completion]
    exact budgeted.completion ran

/- A batch whose commands are applied: the next target is within the budget, or
the attempt is over. -/
theorem budgetedApplied (conserved : Conserved nowhere s) (after : Conserved nowhere t) (capped : Capped M c s)
    (taken : Runtime.step values s a = some t) (found : s.world.contexts[c]? = some x)
    (there : t.world.contexts[c]? = some y) (budgeted : Budgeted M s c b x n k)
    (went : applied values s c a = some target) : Budgeted M t c b y n (k + 1) := by
  obtain ⟨x',y',known,known',applies⟩ := appliedSome conserved.ready taken went
  cases Option.some.inj (found.symm.trans known)
  cases Option.some.inj (there.symm.trans known')
  have steps := budgeted.steps
  cases applies with
  | committed place context work owner ran returned does valid =>
    rename_i d task graph results state target'
    have busy : gathers c task = true := by simp [gathers,carriesContext context,work]
    have count := budgeted.gathering ran d task place busy
    have commits_ := moveCommitted conserved.ready found
      (.mk place context work owner ran returned does valid)
    obtain ⟨_,e,other,place',context',work',next⟩ := committedSome conserved.ready taken commits_
    have unposted := (conserved.tasks e other place').waits.unposted (.inl work')
    have between : Between t c :=
      .inr (.inr ⟨e,_,next,by simp [resting,carriesContext context',unposted]⟩)
    refine ⟨?_,budgeted.within,by omega,?_,?_,fun _ _ => count,?_,fun _ => budgeted.completion ran⟩
    · show x.steps + 1 = _
      push_cast
      omega
    · intro pending
      rw [show x.status = .pending from pending] at ran
      contradiction
    · intro _
      have budget := capped x found ran graph owner
      rw [← budget]
      exact (validateBudget valid).2.2.imp id .inl
    · exact fun _ e other at_ busy => (gathersNone after between e other at_ busy).elim
  | overrun place context work owner ran returned does invalid =>
    rename_i d task graph results state error
    have busy : gathers c task = true := by simp [gathers,carriesContext context,work]
    have count := budgeted.gathering ran d task place busy
    refine budgetedOver rfl ?_ budgeted.within (by omega)
    show x.steps + 1 = _
    push_cast
    omega

theorem budgetedBound {g run : Nat} (conserved : Conserved nowhere s) (after : Conserved nowhere t)
    (taken : Runtime.Step values s a t) (found : s.world.contexts[c]? = some x)
    (there : t.world.contexts[c]? = some (bound x g run)) (pending : x.status = .pending)
    (budgeted : Budgeted M s c b x n k) : Budgeted M t c b (bound x g run) n k := by
  obtain ⟨rfl,rfl⟩ := budgeted.fresh pending
  have idle : ∀ z, s.world.contexts[c]? = some z → z.status ≠ .running := by
    intro z known
    cases Option.some.inj (found.symm.trans known)
    rw [pending]
    decide
  obtain ⟨h,_,_,invocations⟩ := newlyRunning conserved.ready taken there rfl idle
  have admits : Admits t c := ⟨_,_,by rw [invocations]; exact Slots.appendNew,rfl,rfl⟩
  have between : Between t c := by
    refine .inl ?_
    rw [invocations,List.countP_append]
    simp [owesPost]
  exact ⟨budgeted.steps,budgeted.within,budgeted.behind,(fun at_ => by cases at_),fun _ => .inr (.inr admits),fun _ _ => rfl,
    fun _ d task known busy => (gathersNone after between d task known busy).elim,fun _ => .inl rfl⟩

theorem budgetedStep (conserved : Conserved nowhere s) (capped : Capped M c s)
    (taken : Runtime.step values s a = some t) (found : s.world.contexts[c]? = some x)
    (there : t.world.contexts[c]? = some y) (budgeted : Budgeted M s c b x n k) :
    Budgeted M t c b y (n + (begins values s c a).toNat) (k + (applied values s c a).isSome.toNat) := by
  have steps := Runtime.stepCases taken
  have after := conservedStep conserved (fun _ => nofun) steps
  cases went : applied values s c a with
  | some target =>
    have still : begins values s c a = false := by
      unfold applied at went
      split at went
      · rfl
      · contradiction
    rw [still]
    exact budgetedApplied conserved after capped taken found there budgeted went
  | none =>
    cases begun : begins values s c a with
    | true => exact budgetedBegan conserved after taken found there budgeted begun
    | false =>
      show Budgeted M t c b y n k
      obtain ⟨z,same,move⟩ := (stepMoves conserved.ready steps).moves c x found
      cases Option.some.inj (there.symm.trans same)
      have same_ : ∀ {z : GraphContext V}, y = z → z.steps = x.steps → z.status = x.status →
          z.targetNodeName = x.targetNodeName → (z.status = .running →
            z.completion = some .pending ∨ z.completion = some .cancelled) → Budgeted M t c b y n k := by
        rintro z rfl steps status target completion
        exact budgetedSame conserved capped taken found there budgeted begun went steps status (.inl target)
          completion
      cases move with
      | same => exact same_ rfl rfl rfl rfl budgeted.completion
      | ended permitted cause =>
        exact budgetedOver (causeFinal cause) budgeted.steps budgeted.within budgeted.behind
      | bound owner live mine pending valid =>
        exact budgetedBound conserved after steps found there pending budgeted
      | interrupted known about completion =>
        refine same_ rfl rfl rfl rfl ?_
        intro running
        rcases budgeted.completion running with held | held <;>
          (cases Option.some.inj (completion.symm.trans held); exact .inr rfl)
      | targeted known about stage owner running valid =>
        exact budgetedSame conserved capped taken found there budgeted begun went rfl rfl
          (.inr ⟨_,owner,valid⟩) budgeted.completion
      | began known context calling idle owner running more begun' =>
        obtain ⟨next,place,busy⟩ := beganGathers conserved.ready taken known context calling idle owner found
          running more begun'
        simp [begins,taken,place,busy] at begun
      | committed known context work owner running returned does valid =>
        rw [moveApplied conserved.ready found
          (.committed known context work owner running returned does valid)] at went
        contradiction
      | refused known context work owner running returned does =>
        exact budgetedOver rfl budgeted.steps budgeted.within budgeted.behind
      | overrun known context work owner running returned does invalid =>
        rw [moveApplied conserved.ready found
          (.overrun known context work owner running returned does invalid)] at went
        contradiction

theorem budgetedBorn (conserved : Conserved nowhere s) (after : Conserved nowhere t) (taken : Runtime.Step values s a t)
    (missing : s.world.contexts[c]? = none) (there : t.world.contexts[c]? = some y) :
    Budgeted M t c y y 0 0 := by
  have born := (stepMoves conserved.ready taken).born c y there missing
  have admits : y.status = .running → Admits t c ∧ Between t c := by
    intro running
    obtain ⟨g,_,_,invocations⟩ := newlyRunning conserved.ready taken there running
      (by intro x found; rw [missing] at found; contradiction)
    refine ⟨⟨_,_,by rw [invocations]; exact Slots.appendNew,rfl,rfl⟩,.inl ?_⟩
    rw [invocations,List.countP_append]
    simp [owesPost]
  refine ⟨by simp,by simp,Nat.le_refl 0,fun _ => ⟨rfl,rfl⟩,fun running => .inr (.inr (admits running).1),
    fun _ _ => rfl,?_,?_⟩
  · intro running d task known busy
    exact (gathersNone after (admits running).2 d task known busy).elim
  · intro running
    cases born with
    | created owner copied => contradiction
    | invoked owner live copied valid => exact .inl rfl
    | restored owner sourced valid latest => contradiction

structure Started (b : GraphContext V) : Prop where
  counted : 0 ≤ b.steps
  fresh : b.contextSnapshot = [] → b.steps = 0
  restored : ∀ snapshot, b.contextSnapshot.getLast? = some snapshot → b.steps = snapshot.steps

theorem bornStarted (born : Born values s a y) : Started y := by
  cases born with
  | created owner copied => exact ⟨Int.le_refl 0,fun _ => rfl,nofun⟩
  | invoked owner live copied valid => exact ⟨Int.le_refl 0,fun _ => rfl,nofun⟩
  | restored owner sourced valid latest =>
    rename_i g source version graph raw history restored
    refine ⟨(validatedAll valid restored (List.mem_of_getLast? latest)).2,?_,?_⟩
    · intro none_
      have none_ : history = [] := none_
      rw [none_] at latest
      contradiction
    · intro snapshot last
      cases Option.some.inj (latest.symm.trans last)
      rfl

/- What a run says of the batches of context `c`. -/
structure Ledger (values : Values V) (M : Int) (c m : Nat) (r : List (Action V)) (s : State V) : Prop where
  unborn : s.world.contexts[c]? = none →
    begun values c (Runtime.initial m) r = 0 ∧ counted values c (Runtime.initial m) r = 0
  started : ∀ b, (births values (Runtime.initial m) r)[c]? = some b → Started b
  budgeted : ∀ x b, s.world.contexts[c]? = some x → (births values (Runtime.initial m) r)[c]? = some b →
    Budgeted M s c b x (begun values c (Runtime.initial m) r) (counted values c (Runtime.initial m) r)

theorem ledgerStep {m : Nat} (ran : Machine.run (Runtime.step values) (Runtime.initial m) r = some s)
    (capped : Capped M c s) (ledger : Ledger values M c m r s)
    (taken : Runtime.step values s a = some t) : Ledger values M c m (r ++ [a]) t := by
  have steps := Runtime.stepCases taken
  have conserved := runConserved ran
  have after := conservedStep conserved (fun _ => nofun) steps
  have trailed := runTrailed ran
  have moved := stepMoves conserved.ready steps
  have begun_ : begun values c (Runtime.initial m) (r ++ [a]) =
      begun values c (Runtime.initial m) r + (begins values s c a).toNat := Machine.tallySnoc ran
  have counted_ : counted values c (Runtime.initial m) (r ++ [a]) =
      counted values c (Runtime.initial m) r + (applied values s c a).isSome.toNat := Machine.tallySnoc ran
  have quiet : s.world.contexts[c]? = none →
      begins values s c a = false ∧ applied values s c a = none := by
    intro missing
    refine ⟨?_,?_⟩
    · cases went : begins values s c a with
      | false => rfl
      | true =>
        obtain ⟨_,_,_,x,_,_,_,_,_,_,found,_⟩ := beginsCases conserved taken went
        rw [missing] at found
        contradiction
    · cases went : applied values s c a with
      | none => rfl
      | some target =>
        obtain ⟨x,_,found,_⟩ := appliedSome conserved.ready taken went
        rw [missing] at found
        contradiction
  have zero : s.world.contexts[c]? = none → begun values c (Runtime.initial m) (r ++ [a]) = 0 ∧
      counted values c (Runtime.initial m) (r ++ [a]) = 0 := by
    intro missing
    obtain ⟨still,none_⟩ := quiet missing
    obtain ⟨one,two⟩ := ledger.unborn missing
    rw [begun_,counted_,still,none_,one,two]
    exact ⟨rfl,rfl⟩
  refine ⟨?_,?_,?_⟩
  · intro missing
    refine zero ?_
    cases found : s.world.contexts[c]? with
    | none => rfl
    | some x =>
      obtain ⟨y,there,_⟩ := stepPersists conserved.ready steps c x found
      rw [missing] at there
      contradiction
  · intro b born
    obtain ⟨⟨y,there,_⟩,_⟩ := (trailedStep conserved ran trailed taken).entry c b born
    rcases bornCases trailed ran taken there born with ⟨missing,rfl⟩ | ⟨x,found,born⟩
    · exact bornStarted (moved.born c b there missing)
    · exact ledger.started b born
  · intro y b there born
    rcases bornCases trailed ran taken there born with ⟨missing,rfl⟩ | ⟨x,found,born⟩
    · obtain ⟨one,two⟩ := zero missing
      rw [one,two]
      exact budgetedBorn conserved after steps missing there
    · rw [begun_,counted_]
      exact budgetedStep conserved capped taken found there (ledger.budgeted x b found born)

theorem runLedger {m : Nat} (capped : Machine.Along (Runtime.step values) (Capped M c) (Runtime.initial m) r)
    (ran : Machine.run (Runtime.step values) (Runtime.initial m) r = some s) : Ledger values M c m r s := by
  refine Machine.historyAlong ⟨fun _ => ⟨rfl,rfl⟩,?_,?_⟩
    (fun _ _ _ _ before here _ ledger taken => ledgerStep before here ledger taken) capped ran
  · intro b born
    rw [birthsNil] at born
    cases born
  · intro x b found
    simp [Runtime.initial,NodeGraph.initial] at found

section Ends
variable {w : World V} {g : Nat} {results : List (Result V)}

theorem validateNext {steps : Int} {next : Target} (positive : 0 ≤ steps)
    (normalised : Target.normaliseTarget graph.nodes (.target next) = .ok target) :
    validateTarget graph next steps =
      if target ≠ .node END ∧ graph.maxSteps ≤ steps then .error (budgetError graph.maxSteps) else .ok target := by
  have counted : decide (steps < 0) = false := decide_eq_false (not_lt.mpr positive)
  by_cases spent : target ≠ .node END ∧ graph.maxSteps ≤ steps
  · simp [validateTarget,counted,normalised,spent,PyError.raiseIf,bind,Except.bind]
  · have open_ : (decide (target ≠ .node END) && decide (graph.maxSteps ≤ steps)) = false := by
      rw [← Bool.decide_and]
      exact decide_eq_false spent
    simp only [validateTarget,counted,normalised,open_,PyError.raiseIf,if_neg spent,bind,Except.bind]
    rfl

/- An attempt that is over begins no batch any more. -/
theorem overBegins (conserved : Conserved nowhere s) (found : s.world.contexts[c]? = some x)
    (past : x.status.terminal = true) (r : List (Action V)) : begun values c s r = 0 := by
  refine Machine.tallyNone (I := fun s => Conserved nowhere s ∧
    ∃ x, s.world.contexts[c]? = some x ∧ x.status.terminal = true) ?_ ?_ ⟨conserved,x,found,past⟩
  · rintro s a t ⟨conserved,x,found,past⟩ taken
    have steps := Runtime.stepCases taken
    obtain ⟨y,there,goes⟩ := stepPersists conserved.ready steps c x found
    exact ⟨conservedStep conserved (fun _ => nofun) steps,y,there,by rw [goes.status past]; exact past⟩
  · rintro s a ⟨conserved,x,found,past⟩
    cases went : begins values s c a with
    | false => rfl
    | true =>
      cases taken : Runtime.step values s a with
      | none =>
        unfold begins at went
        split at went <;> try contradiction
        rw [taken] at went
        contradiction
      | some t =>
        obtain ⟨_,_,_,z,_,_,_,_,_,_,same,_,running,_⟩ := beginsCases conserved taken went
        cases Option.some.inj (found.symm.trans same)
        rw [running] at past
        contradiction

/- What the target of a committed batch makes of its attempt, `y` after it. -/
structure Settles (M : Int) (graph : Graph) (next : Target) (y : GraphContext V) (dead : Prop) : Prop where
  past : Target.normaliseTarget graph.nodes (.target next) = .ok (.node END) →
    y.status = .running ∧ y.targetNodeName = .node END
  more : ∀ target, Target.normaliseTarget graph.nodes (.target next) = .ok target →
    y.steps < M → y.status = .running ∧ y.targetNodeName = target
  spent : ∀ target, Target.normaliseTarget graph.nodes (.target next) = .ok target →
    target ≠ .node END → M ≤ y.steps → y.status = .failed ∧ dead ∧
      (y.completion = some (.exception (budgetError M)) ∨ y.completion = some .cancelled)

theorem appliedSettles (conserved : Conserved nowhere s) (capped : Capped M c s) (started : Started b)
    (budgeted : Budgeted M s c b x n k) (found : s.world.contexts[c]? = some x)
    (owner : s.world.graphs[x.graphId]? = some graph)
    (taken : Runtime.step values s a = some t) (went : applied values s c a = some target) :
    ∃ y, t.world.contexts[c]? = some y ∧ y.steps = x.steps + 1 ∧
      Settles M graph target y (∀ r, begun values c t r = 0) := by
  obtain ⟨x',y,known,there,applies⟩ := appliedSome conserved.ready taken went
  cases Option.some.inj (found.symm.trans known)
  have after := conservedStep conserved (fun _ => nofun) (Runtime.stepCases taken)
  have positive : 0 ≤ x.steps + 1 := by
    have counted := started.counted
    have steps := budgeted.steps
    omega
  cases applies with
  | committed place context work owner' ran returned does valid =>
    rename_i d task graph' results state target'
    cases Option.some.inj (owner.symm.trans owner')
    have budget := capped x found ran graph owner
    refine ⟨_,there,rfl,?_,?_,?_⟩
    · intro normalised
      rw [validateNext positive normalised] at valid
      cases (if_neg (by simp)).symm.trans valid
      exact ⟨ran,rfl⟩
    · intro next normalised less
      rw [validateNext positive normalised] at valid
      cases (if_neg (fun spent => absurd spent.2 (by rw [budget]; exact not_le.mpr less))).symm.trans valid
      exact ⟨ran,rfl⟩
    · intro next normalised more spent
      rw [validateNext positive normalised,if_pos ⟨more,by rw [budget]; exact spent⟩] at valid
      contradiction
  | overrun place context work owner' ran returned does invalid =>
    rename_i d task graph' results state error
    cases Option.some.inj (owner.symm.trans owner')
    have budget := capped x found ran graph owner
    refine ⟨_,there,rfl,?_,?_,?_⟩
    · intro normalised
      rw [validateNext positive normalised,if_neg (by simp)] at invalid
      contradiction
    · intro next normalised less
      rw [validateNext positive normalised,
        if_neg (fun spent => absurd spent.2 (by rw [budget]; exact not_le.mpr less))] at invalid
      contradiction
    · intro next normalised more spent
      rw [validateNext positive normalised,if_pos ⟨more,by rw [budget]; exact spent⟩,budget] at invalid
      cases invalid
      refine ⟨rfl,fun r => overBegins after there rfl r,?_⟩
      rcases budgeted.completion ran with held | held
      · exact .inl (by simp [ended,settled,held,Future.done])
      · exact .inr (by simp [ended,settled,held,Future.done])

theorem admission (copyable : V → Bool) (found : w.contexts[c]? = some x) (pending : x.status = .pending)
    (owner : w.graphs[x.graphId]? = some graph) (live : graph.decomposed = false) (positive : 0 ≤ x.steps)
    (normalised : Target.normaliseTarget graph.nodes (.target x.targetNodeName) = .ok target) :
    (target ≠ .node END → graph.maxSteps ≤ x.steps →
      NodeGraph.perform copyable w (.beginInvocation x.graphId .none (.context c)) =
        some (.error (budgetError graph.maxSteps,w))) ∧
    (target = .node END ∨ x.steps < graph.maxSteps → ∃ v,
      NodeGraph.perform copyable w (.beginInvocation x.graphId .none (.context c)) = some (.ok v)) := by
  have call : NodeGraph.perform copyable w (.beginInvocation x.graphId .none (.context c)) =
      some (do
        let _ ← PyError.leaving w (validateTarget graph x.targetNodeName x.steps)
        admitContext w x.graphId c graph x) := by
    simp [NodeGraph.perform,owner,beginInvocation,ensureNotDecomposed,live,beginWith,found,pending,
      PyError.raiseIf,PyError.leavingReturned,bind,Except.bind]
  rw [call,validateNext positive normalised]
  refine ⟨?_,?_⟩
  · intro more spent
    rw [if_pos ⟨more,spent⟩]
    rfl
  · intro open_
    rw [if_neg (by rintro ⟨more,spent⟩; rcases open_ with past | less; exacts [more past,absurd spent (not_le.mpr less)])]
    simp [PyError.leavingReturned,admitContext,transitionTo,allowed,pending,Status.terminal,bind,Except.bind,pure,
      Except.pure]

theorem freshRejected {copyable : V → Bool} {state prepared : StateDict V} (owner : w.graphs[g]? = some graph)
    (live : graph.decomposed = false) (copied : copyState copyable graph.keepRefKeys state = .ok prepared)
    (normal : Target.Normal graph.nodes graph.entryPoint) (more : graph.entryPoint ≠ .node END)
    (spent : graph.maxSteps ≤ 0) : NodeGraph.perform copyable w (.beginInvocation g (.dict state) .none) =
      some (.error (budgetError graph.maxSteps,w)) := by
  have refused : validateTarget graph graph.entryPoint 0 = .error (budgetError graph.maxSteps) := by
    rw [validateNext (Int.le_refl 0) (Target.normaliseStable normal),if_pos ⟨more,spent⟩]
  simp [NodeGraph.perform,owner,beginInvocation,ensureNotDecomposed,live,createContext,prepareState,copied,
    beginWith,newContext,refused,PyError.raiseIf,PyError.leavingReturned,PyError.leavingRaised,bind,Except.bind,pure,Except.pure]
  rfl

end Ends

end Apixis.Budget
