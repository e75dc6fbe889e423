import Apixis.Graph.BatchOutcome
import Apixis.Graph.Runtime

/-! The runtime lets a batch end in one step, by what its node tasks have given; in
`NodeBatch` it takes as many steps as its tasks do. The runtime can follow every run of a
batch, and then end it as the batch ends. -/
namespace Apixis.BatchRefinement
open ApplyCommand ParallelNode
open NodeGraph (Graph GraphContext StateDict copyState)
open NodeBatch (Job Member Branches Own promiseOf)
open Apixis.Runtime (NodeTask NodeOutcome DispatchTask allReturned startNode)

variable {V : Type}

def outcomeOf (asError : Raised → PyError) : Promise Raised (Result V) → Option (NodeOutcome V)
  | .pending => none
  | .result result => some (.returned result)
  | .exception error => some (.raised (asError error))
  | .cancelled => some .cancelled

/- A node task has its copy of the state from its start on. -/
def Begun (m : Member V) (node : NodeTask V) : Prop :=
  match m.stage with
  | .created => node.input = none
  | .running _ => node.input.isSome = true
  | .ended _ => True

/- The node tasks of the runtime are where the tasks of the batch are. -/
structure Mirrors (asError : Raised → PyError) (s : NodeBatch.State V) (nodes : List (NodeTask V)) : Prop where
  names : nodes.map NodeTask.name = s.members.map (fun m => m.job.name)
  outcomes : nodes.map NodeTask.outcome = (Gather.promises s.outer.children).map (outcomeOf asError)
  begun : ∀ (i : Nat) m node, s.members[i]? = some m → nodes[i]? = some node → Begun m node

/- Steps of node tasks of dispatch `d`. -/
def OfNodes (d : Nat) : Runtime.Action V → Prop
  | .startNode e _ => e = d
  | .endNode e _ _ => e = d
  | _ => False

variable {asError : Raised → PyError} {text : Node.Seconds → String} {values : Values V} {graph : Graph} {x : GraphContext V}
  {jobs : List Job} {r : List (NodeBatch.Action V)} {a : NodeBatch.Action V} {s t : NodeBatch.State V} {S : Runtime.State V}
  {d g c i : Nat} {task : DispatchTask V} {m m' : Member V} {node : NodeTask V} {nodes : List (NodeTask V)}
  {own : Own (Result V)} {ended : Option (Branches V)}

theorem nodeAt (mirrors : Mirrors asError s nodes) (found : s.members[i]? = some m) :
    ∃ node, nodes[i]? = some node ∧ node.name = m.job.name := by
  have same := congrArg (fun l => l[i]?) mirrors.names
  simp only [List.getElem?_map,found,Option.map_some] at same
  obtain ⟨node,there,name⟩ := Option.map_eq_some_iff.mp same
  exact ⟨node,there,name⟩

theorem outcomeAt {child : Gather.Child Raised (Result V)} (mirrors : Mirrors asError s nodes)
    (there : nodes[i]? = some node) (beside : s.outer.children[i]? = some child) :
    node.outcome = outcomeOf asError child.promise := by
  have same := congrArg (fun l => l[i]?) mirrors.outcomes
  simp only [Gather.promises,List.getElem?_map,there,beside,Option.map_some,Option.some.injEq] at same
  exact same

theorem stayMirrors (mirrors : Mirrors asError s nodes) (names : t.members.map (fun m => m.job.name) = s.members.map (fun m => m.job.name))
    (promises : Gather.promises t.outer.children = Gather.promises s.outer.children)
    (begun : ∀ (i : Nat) m node, t.members[i]? = some m → nodes[i]? = some node → Begun m node) : Mirrors asError t nodes :=
  ⟨mirrors.names.trans names.symm,by rw [promises]; exact mirrors.outcomes,begun⟩

theorem putMirrors (mirrors : Mirrors asError s nodes) (found : s.members[i]? = some m) (job : m'.job = m.job)
    (begun : ∀ node, nodes[i]? = some node → Begun m' node) : Mirrors asError (s.put i m') nodes := by
  refine stayMirrors mirrors ?_ rfl ?_
  · exact Slots.mapSet (fun m => m.job.name) found (by rw [job])
  · intro j other node at_ there
    rcases Slots.setCases at_ with ⟨rfl,rfl⟩ | ⟨_,old⟩
    · exact begun node there
    · exact mirrors.begun j other node old there

theorem closeMirrors {node' : NodeTask V} (mirrors : Mirrors asError s nodes) (found : s.members[i]? = some m)
    (there : nodes[i]? = some node) (name : node'.name = node.name) (outcome : node'.outcome = outcomeOf asError (promiseOf own))
    (taken : s.close i m ended own = some t) : Mirrors asError t (nodes.set i node') := by
  simp only [NodeBatch.State.close,bind,Option.bind_eq_some_iff] at taken
  obtain ⟨outer,finished,taken⟩ := taken
  cases taken
  obtain ⟨child,beside,_,_,children⟩ := Gather.finishCases finished
  refine ⟨?_,?_,?_⟩
  · have job : ({m with stage := .ended ended} : Member V).job.name = m.job.name := rfl
    rw [Slots.mapSet NodeTask.name there name]
    exact mirrors.names.trans (Slots.mapSet (fun m => m.job.name) found job).symm
  · rw [children,Gather.setPromises,List.map_set,List.map_set,mirrors.outcomes,outcome]
  · intro j other node'' at_ there'
    rcases Slots.setCases at_ with ⟨rfl,rfl⟩ | ⟨different,old⟩
    · trivial
    · rw [Slots.setOther different] at there'
      exact mirrors.begun j other node'' old there'

theorem copiedMirrors {node' : NodeTask V} (mirrors : Mirrors asError s nodes) (found : s.members[i]? = some m)
    (there : nodes[i]? = some node) (name : node'.name = node.name) (outcome : node'.outcome = node.outcome)
    (job : m'.job = m.job) (begun : Begun m' node') : Mirrors asError (s.put i m') (nodes.set i node') := by
  refine ⟨?_,?_,?_⟩
  · rw [Slots.mapSet NodeTask.name there name]
    exact mirrors.names.trans (Slots.mapSet (fun m => m.job.name) found (by rw [job])).symm
  · rw [Slots.mapSet NodeTask.outcome there outcome]
    exact mirrors.outcomes
  · intro j other node'' at_ there'
    rcases Slots.setCases at_ with ⟨rfl,rfl⟩ | ⟨different,old⟩
    · rw [Slots.setSame there] at there'
      cases Option.some.inj there'
      exact begun
    · rw [Slots.setOther different] at there'
      exact mirrors.begun j other node'' old there'

theorem cancelBegun : Begun m.cancel node ↔ Begun m node := by
  unfold Begun NodeBatch.Member.cancel
  cases stage : m.stage with
  | created => simp
  | running y => simp
  | ended branches => simp [stage]

theorem waitMirrors {b : Gather.Action Raised (Result V)} (mirrors : Mirrors asError s nodes)
    (other : ∀ i how, b ≠ .finish i how) (taken : s.wait b = some t) : Mirrors asError t nodes := by
  simp only [NodeBatch.State.wait,bind,Option.bind_eq_some_iff] at taken
  obtain ⟨outer,waited,taken⟩ := taken
  cases taken
  have asked : ∀ (i : Nat) m, (NodeBatch.ask s.outer.children outer.children s.members)[i]? = some m →
      ∃ old, s.members[i]? = some old ∧ (m = old ∨ m = old.cancel) := by
    intro i m at_
    rw [NodeBatch.ask,List.getElem?_mapIdx] at at_
    obtain ⟨old,there,rfl⟩ := Option.map_eq_some_iff.mp at_
    refine ⟨old,there,?_⟩
    split
    · exact .inr rfl
    · exact .inl rfl
  refine stayMirrors mirrors ?_ ?_ ?_
  · refine List.ext_getElem? ?_
    intro i
    rw [List.getElem?_map,NodeBatch.ask,List.getElem?_mapIdx,List.getElem?_map]
    cases s.members[i]? with
    | none => rfl
    | some m =>
      simp only [Option.map_some]
      split
      · rw [NodeBatch.cancelJob]
      · rfl
  · rcases Gather.askCases other waited with same | same
    · rw [same]
    · rw [same,Gather.askPromises]
  · intro i m node at_ there
    obtain ⟨old,before,rfl | rfl⟩ := asked i m at_
    · exact mirrors.begun i m node before there
    · exact cancelBegun.mpr (mirrors.begun i old node before there)

section Step
variable (found : S.tasks[d]? = some task)
include found

theorem setSameTask : S.setTask d task S.world = S := by
  rw [Runtime.State.setTask,Slots.setEqual found]

theorem endTaken {outcome : NodeOutcome V} (there : task.nodes[i]? = some node) (open_ : node.outcome = none)
    (begun : node.input.isSome = true ∨ outcome = .cancelled) :
    Runtime.step values S (.endNode d i outcome) =
      some (S.setTask d {task with nodes := task.nodes.set i {node with outcome := some outcome}} S.world) := by
  have guard : (node.outcome.isNone && (node.input.isSome || outcome.isCancelled)) = true := by
    rw [open_]
    rcases begun with given | rfl
    · simp [given]
    · simp [NodeOutcome.isCancelled]
  simp only [Runtime.step,found,there,bind,Option.bind_some,guard,if_true]

theorem startTaken (event : task.event = .dispatch g c) (owner : S.world.graphs[g]? = some graph)
    (context : S.world.contexts[c]? = some x) (there : task.nodes[i]? = some node) (open_ : node.outcome = none)
    (fresh : node.input = none) :
    Runtime.step values S (.startNode d i) =
      some (S.setTask d {task with nodes := task.nodes.set i (startNode values graph x node)} S.world) := by
  have guard : (node.input.isNone && node.outcome.isNone) = true := by rw [open_,fresh]; rfl
  simp only [Runtime.step,found,there,event,owner,context,bind,Option.bind_some,guard,if_true]

theorem endsMirrored {jobs : List Job} {polite : Prop} (holds : NodeBatch.Holds text values.copyable graph.keepRefKeys polite jobs r s)
    (mirrors : Mirrors asError s task.nodes) (at_ : s.members[i]? = some m)
    (begun : (∃ x, m.execution = some x) ∨ own.isCancelled = true) (taken : s.close i m ended own = some t) :
    ∃ R nodes, (∀ b ∈ R, OfNodes d b) ∧ Machine.run (Runtime.step values) S R = some (S.setTask d {task with nodes := nodes} S.world) ∧
      Mirrors asError t nodes := by
  obtain ⟨node,there,_⟩ := nodeAt mirrors at_
  obtain ⟨_,child,beside,_⟩ := NodeBatch.memberOf holds at_
  have closed := taken
  simp only [NodeBatch.State.close,bind,Option.bind_eq_some_iff] at closed
  obtain ⟨outer,finished,_⟩ := closed
  obtain ⟨child',beside',open_,done,_⟩ := Gather.finishCases finished
  cases Option.some.inj (beside.symm.trans beside')
  have waits : node.outcome = none := by
    rw [outcomeAt mirrors there beside,Promise.open_ open_]
    rfl
  obtain ⟨outcome,known⟩ : ∃ outcome, outcomeOf asError (promiseOf own) = some outcome := by
    cases own with
    | escaped => cases done
    | _ => exact ⟨_,rfl⟩
  have given : node.input.isSome = true ∨ outcome = .cancelled := by
    rcases begun with ⟨x,executes⟩ | cancelled
    · have input := mirrors.begun i m node at_ there
      unfold NodeBatch.Member.execution at executes
      split at executes
      · rename_i stage
        rw [Begun,stage] at input
        exact .inl input
      · cases executes
    · rw [NodeBatch.promiseCancelled.mpr cancelled] at known
      exact .inr (Option.some.inj known).symm
  exact ⟨[.endNode d i outcome],_,by simp [OfNodes],Machine.runCons.mpr ⟨_,endTaken found there waits given,rfl⟩,
    closeMirrors mirrors at_ there rfl known.symm taken⟩

theorem stepMirrored {jobs : List Job} {polite : Prop} (holds : NodeBatch.Holds text values.copyable graph.keepRefKeys polite jobs r s)
    (event : task.event = .dispatch g c) (owner : S.world.graphs[g]? = some graph) (context : S.world.contexts[c]? = some x)
    (faithful : ∀ e, asError (.error e) = e) (mirrors : Mirrors asError s task.nodes)
    (live : ∀ i state, a = .start i state → state = x.state)
    (taken : NodeBatch.step text values.copyable graph.keepRefKeys s a = some t) :
    ∃ R nodes, (∀ b ∈ R, OfNodes d b) ∧ Machine.run (Runtime.step values) S R = some (S.setTask d {task with nodes := nodes} S.world) ∧
      Mirrors asError t nodes := by
  have stays : ∀ {t}, Mirrors asError t task.nodes → ∃ R nodes, (∀ b ∈ R, OfNodes d b) ∧
      Machine.run (Runtime.step values) S R = some (S.setTask d {task with nodes := nodes} S.world) ∧ Mirrors asError t nodes :=
    fun same => ⟨[],task.nodes,by simp,by rw [setSameTask found]; rfl,same⟩
  have goesOn : ∀ {i : Nat} {m m' : Member V} {y y' : NodeBatch.Execution V}, s.members[i]? = some m → m.execution = some y →
      m'.job = m.job → m'.stage = .running y' → Mirrors asError (s.put i m') task.nodes := by
    intro i m m' y y' at_ executes job running
    refine putMirrors mirrors at_ job ?_
    intro node there
    have begun := mirrors.begun i m node at_ there
    unfold NodeBatch.Member.execution at executes
    split at executes
    · rename_i stage
      rw [Begun,stage] at begun
      rw [Begun,running]
      exact begun
    · cases executes
  cases a with
  | start i state =>
    cases live i state rfl
    simp only [NodeBatch.step,bind,Option.bind_eq_some_iff] at taken
    obtain ⟨m,at_,taken⟩ := taken
    split at taken
    · rename_i stage
      obtain ⟨node,there,_⟩ := nodeAt mirrors at_
      obtain ⟨_,child,beside,own⟩ := NodeBatch.memberOf holds at_
      rw [NodeBatch.MemberHolds,stage] at own
      have waits : node.outcome = none := by rw [outcomeAt mirrors there beside,own.1]; rfl
      have fresh : node.input = none := by
        have begun := mirrors.begun i m node at_ there
        rwa [Begun,stage] at begun
      have starts : Runtime.step values S (.startNode d i) = _ := startTaken found event owner context there waits fresh
      unfold NodeBatch.begin at taken
      split at taken
      · rename_i own begun
        split at begun
        · cases begun
          exact endsMirrored found holds mirrors at_ (.inr rfl) taken
        · split at begun
          · rename_i error failed
            cases begun
            refine ⟨[.startNode d i],_,by simp [OfNodes],Machine.runCons.mpr ⟨_,starts,rfl⟩,?_⟩
            refine closeMirrors mirrors at_ there ?_ ?_ taken
            · simp only [startNode,failed]
            · simp only [startNode,failed,promiseOf,outcomeOf,faithful]
          · cases begun
      · rename_i y begun
        split at begun
        · cases begun
        · split at begun
          · cases begun
          · rename_i input copied
            cases begun
            cases taken
            refine ⟨[.startNode d i],_,by simp [OfNodes],Machine.runCons.mpr ⟨_,starts,rfl⟩,?_⟩
            refine copiedMirrors mirrors at_ there ?_ ?_ rfl ?_
            · simp only [startNode,copied]
            · simp only [startNode,copied]
            · simp only [Begun,startNode,copied]
              rfl
    · cases taken
  | functionEnds i how | executeEnds i how =>
    simp only [NodeBatch.step,bind,Option.bind_eq_some_iff] at taken
    obtain ⟨m,at_,y,executes,taken⟩ := taken
    split at taken
    · exact endsMirrored found holds mirrors at_ (.inl ⟨y,executes⟩) taken
    · cases taken
  | branchEnds i j how | branchNotify i =>
    simp only [NodeBatch.step,bind,Option.bind_eq_some_iff] at taken
    obtain ⟨m,at_,y,executes,branches,_,next,_,taken⟩ := taken
    cases taken
    exact stays (goesOn at_ executes rfl rfl)
  | branchWake i =>
    simp only [NodeBatch.step,bind,Option.bind_eq_some_iff] at taken
    obtain ⟨m,at_,y,executes,branches,_,next,_,taken⟩ := taken
    split at taken
    · exact endsMirrored found holds mirrors at_ (.inl ⟨y,executes⟩) taken
    · cases taken
      exact stays (goesOn at_ executes rfl rfl)
  | expire i =>
    simp only [NodeBatch.step,bind,Option.bind_eq_some_iff] at taken
    obtain ⟨m,at_,y,executes,deadline,_,taken⟩ := taken
    split at taken
    · cases taken
    · cases taken
      exact stays (goesOn at_ executes rfl rfl)
  | notify => exact stays (waitMirrors mirrors (by simp) taken)
  | cancel => exact stays (waitMirrors mirrors (by simp) taken)
  | wake => exact stays (waitMirrors mirrors (by simp) taken)

end Step

theorem initialMirrors (fresh : nodes = jobs.map (fun job => NodeTask.new job.name)) :
    Mirrors asError (NodeBatch.initial jobs) nodes := by
  subst fresh
  refine ⟨?_,?_,?_⟩
  · simp only [NodeBatch.initial,List.map_map]
    rfl
  · simp only [NodeBatch.initial,Gather.initial,Gather.promises,Gather.fresh,List.map_map,List.map_replicate]
    exact List.map_const'
  · intro i m node at_ there
    simp only [NodeBatch.initial,List.getElem?_map] at at_ there
    obtain ⟨job,_,rfl⟩ := Option.map_eq_some_iff.mp at_
    obtain ⟨_,_,rfl⟩ := Option.map_eq_some_iff.mp there
    rfl

/- The runtime follows a run of the batch. -/
theorem runMirrored (found : S.tasks[d]? = some task) (event : task.event = .dispatch g c)
    (owner : S.world.graphs[g]? = some graph) (context : S.world.contexts[c]? = some x)
    (faithful : ∀ e, asError (.error e) = e) (fresh : task.nodes = jobs.map (fun job => NodeTask.new job.name))
    (live : ∀ i state, .start i state ∈ r → state = x.state)
    (ran : Machine.run (NodeBatch.step text values.copyable graph.keepRefKeys) (NodeBatch.initial jobs) r = some s) :
    ∃ R nodes, (∀ b ∈ R, OfNodes d b) ∧ Machine.run (Runtime.step values) S R = some (S.setTask d {task with nodes := nodes} S.world) ∧
      Mirrors asError s nodes := by
  refine Machine.history (P := fun r s => (∀ i state, .start i state ∈ r → state = x.state) →
    ∃ R nodes, (∀ b ∈ R, OfNodes d b) ∧ Machine.run (Runtime.step values) S R = some (S.setTask d {task with nodes := nodes} S.world) ∧
      Mirrors asError s nodes) ?_ ?_ ran live
  · intro _
    exact ⟨[],task.nodes,by simp,by rw [setSameTask found]; rfl,initialMirrors fresh⟩
  · intro r m a t before mirrored taken live
    obtain ⟨R,nodes,own,went,mirrors⟩ := mirrored (fun i state member => live i state (List.mem_append_left _ member))
    have found' : (S.setTask d {task with nodes := nodes} S.world).tasks[d]? = some {task with nodes := nodes} := Slots.setSame found
    have here : ∀ i state, a = .start i state → state = x.state := fun i state same =>
      live i state (same ▸ List.mem_append_right _ List.mem_cons_self)
    obtain ⟨R',nodes',own',goes,mirrors'⟩ :=
      stepMirrored found' (NodeBatch.runHolds before) event owner context faithful mirrors here taken
    refine ⟨R ++ R',nodes',?_,Machine.runAppend.mpr ⟨_,went,?_⟩,mirrors'⟩
    · intro b member
      exact (List.mem_append.mp member).elim (own b) (own' b)
    · rw [goes]
      simp only [Runtime.State.setTask,List.set_set]

theorem returnedAll {results : List (Result V)}
    (same : nodes.map NodeTask.outcome = results.map (fun result => some (.returned result))) : allReturned nodes = some results := by
  induction nodes generalizing results with
  | nil =>
    cases results with
    | nil => rfl
    | cons head tail => cases same
  | cons node rest ih =>
    cases results with
    | nil => cases same
    | cons result others =>
      rw [List.map_cons,List.map_cons] at same
      injection same with here later
      simp only [allReturned,NodeTask.isReturned,here,ih later,bind,Option.bind_some]

/- The end of the runtime's batch that stands for this one. -/
def Fits (asError : Raised → PyError) (nodes : List (NodeTask V)) : Gather.Ending Raised (Result V) → Runtime.Gathered → Prop
  | .returned results, .returned => allReturned nodes = some results
  | .failed (.raised error), .raised i => ∃ node : NodeTask V, nodes[i]? = some node ∧ node.outcome = some (.raised (asError error))
  | .failed .cancelled, .cancelled => True
  | _, _ => False

theorem answerTaken {phase : Dispatch.Phase} (calling : task.calling = some (g,phase)) (outcome : Dispatch.Outcome) :
    ∃ answered, task.answer outcome = some answered := by
  unfold DispatchTask.calling at calling
  split at calling
  · rename_i j phase parent pc
    split at calling
    · rename_i h there
      simp only [DispatchTask.answer,Dispatch.step,pc,there,bind,Option.bind_some]
      exact ⟨_,rfl⟩
    · cases calling
  · cases calling

theorem allEnded {how : Gather.Ending Raised (Result V)} {n : Nat} {o : List (Gather.Action Raised (Result V))}
    (mirrors : Mirrors asError s nodes) (outer : Gather.Holds n o s.outer) (at_ : s.outer.phase = .ended how) :
    nodes.all (fun node => node.outcome.isSome) = true := by
  refine List.all_eq_true.mpr ?_
  intro node member
  obtain ⟨i,there⟩ := List.getElem?_of_mem member
  have size := congrArg List.length mirrors.outcomes
  simp only [Gather.promises,List.length_map] at size
  obtain ⟨child,beside⟩ : ∃ child, s.outer.children[i]? = some child :=
    ⟨_,List.getElem?_eq_getElem (size ▸ Slots.inside there)⟩
  have done := Gather.endedDone outer at_ child (List.mem_of_getElem? beside)
  rw [outcomeAt mirrors there beside]
  unfold Gather.Child.done at done
  generalize child.promise = p at done
  cases p with
  | pending => cases done
  | _ => rfl

theorem fits {how : Gather.Ending Raised (Result V)} {n : Nat} {o : List (Gather.Action Raised (Result V))}
    (mirrors : Mirrors asError s nodes) (ran : Machine.run Gather.step (Gather.initial n) o = some s.outer)
    (at_ : s.outer.phase = .ended how) : ∃ gathered, Fits asError nodes how gathered := by
  have outer := Gather.runHolds ran
  cases how with
  | returned results =>
    have phase := outer.phase
    simp only [Gather.PhaseHolds,at_] at phase
    refine ⟨.returned,returnedAll ?_⟩
    rw [mirrors.outcomes,phase,List.map_map]
    rfl
  | failed cause =>
    cases cause with
    | cancelled => exact ⟨.cancelled,trivial⟩
    | raised error =>
      obtain ⟨i,told⟩ := (Gather.endedAll ran at_).2
      obtain ⟨_,there⟩ := (outer.recorded i _).mp told
      have same := congrArg (fun l => l[i]?) mirrors.outcomes
      simp only [List.getElem?_map,there,Option.map_some] at same
      obtain ⟨node,inside,outcome⟩ := Option.map_eq_some_iff.mp same
      exact ⟨.raised i,node,inside,outcome⟩

theorem gatherTaken {how : Gather.Ending Raised (Result V)} {gathered : Runtime.Gathered} {phase : Dispatch.Phase}
    (found : S.tasks[d]? = some task) (calling : task.calling = some (g,phase)) (event : task.event = .dispatch g c)
    (work : task.work = .gathering) (owner : S.world.graphs[g]? = some graph) (context : S.world.contexts[c]? = some x)
    (all : task.nodes.all (fun node => node.outcome.isSome) = true) (fits : Fits asError task.nodes how gathered) :
    ∃ T, Runtime.step values S (.gather d gathered) = some T := by
  have taken : ∃ next, Runtime.gather values S.world task g c gathered = some next := by
    unfold Fits at fits
    split at fits
    · rename_i results
      simp only [Runtime.gather,fits,owner,context,bind,Option.bind_some]
      split
      · exact ⟨_,rfl⟩
      · rename_i call _
        obtain ⟨answered,ends⟩ := answerTaken calling (Runtime.outcomeOf call)
        rw [ends]
        exact ⟨_,rfl⟩
    · rename_i error i
      obtain ⟨node,there,outcome⟩ := fits
      obtain ⟨answered,ends⟩ := answerTaken calling (Runtime.outcomeOf (Runtime.failIfActive S.world g c (asError error)))
      simp only [Runtime.gather,there,outcome,all,if_true,ends,bind,Option.bind_some]
      exact ⟨_,rfl⟩
    · obtain ⟨answered,ends⟩ := answerTaken calling .cancelled
      simp only [Runtime.gather,ends,bind,Option.bind_some]
      exact ⟨_,rfl⟩
    · cases fits
  obtain ⟨⟨next,w⟩,taken⟩ := taken
  have carries : task.event.context = some c := by rw [event]; rfl
  simp only [Runtime.step,found,calling,carries,work,taken,if_true,bind,Option.bind_some]
  exact ⟨_,rfl⟩

/- Every run of the tasks of a batch is one of the runtime in which only its node tasks
move and which it mirrors, and the runtime can then end the batch as it has ended. -/
theorem simulated {phase : Dispatch.Phase} (found : S.tasks[d]? = some task) (calling : task.calling = some (g,phase))
    (event : task.event = .dispatch g c) (work : task.work = .gathering)
    (owner : S.world.graphs[g]? = some graph) (context : S.world.contexts[c]? = some x)
    (faithful : ∀ e, asError (.error e) = e) (fresh : task.nodes = jobs.map (fun job => NodeTask.new job.name))
    (live : ∀ i state, .start i state ∈ r → state = x.state)
    (ran : Machine.run (NodeBatch.step text values.copyable graph.keepRefKeys) (NodeBatch.initial jobs) r = some s) :
    ∃ R nodes, (∀ b ∈ R, OfNodes d b) ∧ Machine.run (Runtime.step values) S R = some (S.setTask d {task with nodes := nodes} S.world) ∧
      Mirrors asError s nodes ∧ nodes.map NodeTask.name = jobs.map Job.name ∧
      ∀ how, s.outer.phase = .ended how → ∃ gathered T, Fits asError nodes how gathered ∧
        Runtime.step values (S.setTask d {task with nodes := nodes} S.world) (.gather d gathered) = some T := by
  obtain ⟨R,nodes,own,went,mirrors⟩ := runMirrored found event owner context faithful fresh live ran
  have holds := NodeBatch.runHolds ran
  refine ⟨R,nodes,own,went,mirrors,?_,?_⟩
  · rw [mirrors.names,← holds.planned,List.map_map]
    rfl
  · intro how at_
    obtain ⟨o,outer,_,_⟩ := holds.outer
    obtain ⟨gathered,fit⟩ := fits mirrors outer at_
    have all := allEnded mirrors (Gather.runHolds outer) at_
    have found' : (S.setTask d {task with nodes := nodes} S.world).tasks[d]? = some {task with nodes := nodes} := Slots.setSame found
    obtain ⟨T,taken⟩ : ∃ T, Runtime.step values _ (.gather d gathered) = some T :=
      gatherTaken found' calling event work owner context all fit
    exact ⟨gathered,T,fit,taken⟩

def fetchFlow : NodeGraph.Definition := ⟨["fetch","score"],.target (.batch ["fetch","score"]),2,false,[],[]⟩

def fetchBegun : List (Runtime.Action Nat) :=
  [.graph (.construct fetchFlow),.graph (.beginInvocation 0 (.dict .empty) .none),.invoke 0,.invokePut 0,
    .invokeResume 0,.consumer .start,.consumer (.begin 0),.consumer (.dequeue 0 (.resolved [.graph 0])),
    .consumer (.launch 0 .launched),.dispatch 0 .begin,.dispatch 0 .visit,.dispatch 0 .gate,.core 0 0]

theorem fetchGathers : ∃ S task x graph, Machine.run (Runtime.step NodeBatch.fetchValues) (Runtime.initial 1) fetchBegun = some S ∧
    S.tasks[0]? = some task ∧ task.calling = some (0,.coreFunc) ∧ task.event = .dispatch 0 0 ∧ task.work = .gathering ∧
    S.world.graphs[0]? = some graph ∧ graph.keepRefKeys = [] ∧ S.world.contexts[0]? = some x ∧ x.state = .empty ∧
    task.nodes = NodeBatch.fetchJobs.map (fun job => NodeTask.new job.name) :=
  ⟨_,_,_,_,rfl,rfl,rfl,rfl,rfl,rfl,rfl,rfl,rfl,rfl⟩

/- Of the errors of nodes the runtime knows the kind only of ordinary ones. -/
def named : Raised → PyError
  | .error e => e
  | .invalidReturns message => ⟨.runtimeError,message⟩
  | .timeoutError message => ⟨.runtimeError,message⟩

theorem simulatedFetch : ∃ S, Machine.run (Runtime.step NodeBatch.fetchValues) (Runtime.initial 1) fetchBegun = some S ∧
    ∃ R T, Machine.run (Runtime.step NodeBatch.fetchValues) S (R ++ [.gather 0 .returned]) = some T := by
  obtain ⟨S,task,x,graph,went,found,calling,event,work,owner,keeps,context,state,fresh⟩ := fetchGathers
  obtain ⟨s,ran,at_⟩ := NodeBatch.fetchEnds
  have live : ∀ i state, .start i state ∈ NodeBatch.fetchRun → state = x.state := by
    rw [state]
    intro i given member
    simp only [NodeBatch.fetchRun,List.mem_cons,NodeBatch.Action.start.injEq,reduceCtorEq,List.not_mem_nil,or_false] at member
    rcases member with ⟨_,same⟩ | ⟨_,same⟩
    · exact same
    · exact same
  have ran' : Machine.run (NodeBatch.step (fun _ => "5") NodeBatch.fetchValues.copyable graph.keepRefKeys)
      (NodeBatch.initial NodeBatch.fetchJobs) NodeBatch.fetchRun = some s := by rw [keeps]; exact ran
  have faithful : ∀ e, named (.error e) = e := fun _ => rfl
  obtain ⟨R,nodes,_,goes,_,_,ends⟩ := simulated found calling event work owner context faithful fresh live ran'
  obtain ⟨gathered,T,fit,taken⟩ := ends _ at_
  cases gathered with
  | returned => exact ⟨S,went,R,T,Machine.runSnoc.mpr ⟨_,goes,taken⟩⟩
  | raised i => cases fit
  | cancelled => cases fit

end Apixis.BatchRefinement
