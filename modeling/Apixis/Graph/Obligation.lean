import Apixis.Event.Conservation
import Apixis.Graph.Moves

/-! The baton of an invocation: as long as a context runs, exactly one call of
`_post_next`, queued or pending event or dispatch task is responsible for it. -/
namespace Apixis.Obligation
open NodeGraph hiding Action step initial
open ApplyCommand Lifecycle Moves Apixis.Runtime

variable {V : Type} {values : Values V} {w v : World V} {s t : State V} {g c d k : Nat}
  {x y : GraphContext V} {a : Action V} {task next : DispatchTask V} {whole : Prop}

def carries (c : Nat) (event : Event) : Bool := event.context == some c

def owesPost (c : Nat) (invocation : Invocation) : Bool :=
  invocation.context == c && (invocation.stage == .admitted || invocation.stage == .posting)

/- Where in its chain a dispatch reaches the handler of the event's graph. -/
def place (task : DispatchTask V) : Nat :=
  match task.event with
  | .dispatch g _ => task.run.chain.idxOf (.graph g)
  | .other _ => 0

/- The handler at position `i` has not ended, nor has its cancellation hook. -/
def unfinished (i : Nat) : Dispatch.Pc → Bool
  | .created => true
  | .visit j => j ≤ i
  | .execute j _ => j ≤ i
  | .cleanup j => j ≤ i
  | .notifying j => j ≤ i
  | .returned => false
  | .cancelled => false

def unposted (c : Nat) (task : DispatchTask V) : Bool := carries c task.event && !task.posted

def owes (c : Nat) (task : DispatchTask V) : Bool :=
  unposted c task && unfinished (place task) task.run.pc

/- The calls that have not put their event, the events put and not dispatched, and
the dispatches that have not finished the graph's handler and put no new event. -/
def obligations (s : State V) (c : Nat) : Nat :=
  s.invocations.countP (owesPost c) + s.consumer.queue.countP (fun item => carries c item.event) +
  s.consumer.pendingDispatch.toList.countP (fun pending => carries c pending.1.event) +
  s.tasks.countP (owes c)

/- A dispatch that gathers the results of its nodes, or has a node that has not ended. -/
def batching (c : Nat) (task : DispatchTask V) : Bool :=
  carries c task.event && (task.work == .gathering || task.nodes.any (fun node => node.outcome.isNone))

def batches (s : State V) (c : Nat) : Nat := s.tasks.countP (batching c)

section Walk
variable {run run' : Dispatch.State Handler} {b : Dispatch.Action} {i : Nat}

/- The handler at position `i` has not gone further than the call of its core. -/
def early (i : Nat) : Dispatch.Pc → Bool
  | .created => true
  | .visit j => j ≤ i
  | .execute j pc => j < i || (j == i && match pc with
      | .gate => true
      | .calling phase _ => phase != .onError)
  | _ => false

/- What a step of the dispatch means for the graph's handler at position `i`: it
ends one of its callbacks, passes it by for an error, has notified it, or leaves
it as far to go as before. -/
inductive Walks (i : Nat) (run run' : Dispatch.State Handler) : Dispatch.Action → Prop where
  | own {phase parent outcome} (pc : run.pc = .execute i (.calling phase parent)) :
      Walks i run run' (.callback outcome)
  | passedBy (pc : run.pc = .execute i .gate) (errors : run.event.errorStack ≠ []) :
      Walks i run run' .gate
  | notified (pc : run.pc = .notifying i) : Walks i run run' .notified
  | killed (pc : run'.pc = .cancelled) : Walks i run run' .kill
  | goes {action} (still : unfinished i run.pc = true → unfinished i run'.pc = true)
      (back : early i run'.pc = true → early i run.pc = true)
      (gate : run'.pc = .execute i .gate → run'.event.errorStack = [] ∨
        run.pc = .execute i .gate ∧ run'.event.errorStack = run.event.errorStack) :
      Walks i run run' action

theorem walksAway {j : Nat} {pc : Dispatch.ExecutePc} {next : Dispatch.Next} (different : j ≠ i)
    (before : run.pc = .execute j pc) (after : run'.pc = next.foreground j) : Walks i run run' b := by
  refine .goes ?_ ?_ ?_
  · intro open_
    rw [before] at open_
    rw [after]
    cases next with
    | go pc => exact open_
    | finished =>
      simp only [Dispatch.Next.foreground,unfinished,decide_eq_true_eq] at open_ ⊢
      omega
    | cancelled => simp [Dispatch.Next.foreground,unfinished]
  · intro open_
    rw [after] at open_
    rw [before]
    cases next with
    | go pc =>
      simp only [Dispatch.Next.foreground,early,Bool.or_eq_true,Bool.and_eq_true,decide_eq_true_eq,
        beq_iff_eq] at open_ ⊢
      exact .inl (open_.resolve_right (fun same => different same.1))
    | finished =>
      simp only [Dispatch.Next.foreground,early,Bool.or_eq_true,decide_eq_true_eq] at open_ ⊢
      exact .inl (by omega)
    | cancelled => contradiction
  · intro gate
    rw [after] at gate
    cases next with
    | go pc =>
      cases gate
      exact absurd rfl different
    | finished => contradiction
    | cancelled => contradiction

theorem walksStill (pc : run'.pc = run.pc) (errors : run'.event.errorStack = run.event.errorStack) :
    Walks i run run' b := by
  refine .goes (by rw [pc]; exact id) (by rw [pc]; exact id) ?_
  intro gate
  exact .inr ⟨pc ▸ gate,errors⟩

theorem walksGate {g : Nat} {next : Dispatch.Next} {event : Dispatch.Event Handler}
    {uses : List (Dispatch.Use Handler)} (pc : run.pc = .execute i .gate)
    (passed : Dispatch.pass (Handler.flags (.graph g)) (.graph g) run.event = (next,event)) :
    Walks i run ({run with pc := next.foreground i, event := event}.note uses) .gate := by
  unfold Dispatch.pass at passed
  split at passed
  · cases passed
    refine .goes (fun _ => by simp [Dispatch.State.note,Handler.flags,dispatchFlags,
      Dispatch.Next.foreground,unfinished]) (fun _ => by simp [pc,early]) ?_
    intro gate
    simp [Dispatch.State.note,Handler.flags,dispatchFlags,Dispatch.Next.foreground] at gate
  · split at passed
    · rename_i stops
      have errors : run.event.hasError = true := (Bool.and_eq_true _ _ |>.mp stops).1
      exact .passedBy pc (by simpa [Dispatch.Event.hasError] using errors)
    · cases passed
      refine .goes (fun _ => by simp [Dispatch.State.note,Dispatch.Next.foreground,unfinished])
        (fun _ => by simp [pc,early]) ?_
      intro gate
      simp [Dispatch.State.note,Dispatch.Next.foreground] at gate

theorem walks (taken : Dispatch.Step Handler.flags run b run') (found : run.chain[i]? = some (.graph g)) :
    Walks i run run' b := by
  have inside := Slots.inside found
  cases taken with
  | begin pc => exact .goes (fun _ => by simp [unfinished]) (fun _ => by simp [early,pc]) nofun
  | kill pc => exact .killed rfl
  | finish pc past =>
    rename_i j
    have outside := List.getElem?_eq_none_iff.mp past
    refine .goes ?_ nofun nofun
    intro before
    rw [pc] at before
    simp only [unfinished,decide_eq_true_eq] at before
    omega
  | hand pc there background =>
    rename_i j handler
    have different : j ≠ i := by
      rintro rfl
      cases Option.some.inj (found.symm.trans there)
      contradiction
    refine .goes ?_ ?_ nofun
    · intro before
      rw [pc] at before
      simp only [unfinished,decide_eq_true_eq] at before ⊢
      omega
    · intro after
      rw [pc]
      simp only [early,decide_eq_true_eq] at after ⊢
      omega
  | enter pc there foreground =>
    rename_i j handler
    refine .goes ?_ ?_ ?_
    · intro before
      rw [pc] at before
      exact before
    · intro after
      rw [pc]
      simp only [Dispatch.State.note,early,Bool.or_eq_true,Bool.and_eq_true,decide_eq_true_eq,
        beq_iff_eq] at after ⊢
      omega
    · intro gate
      simp only [Dispatch.State.note,Dispatch.Pc.execute.injEq] at gate
      obtain ⟨rfl,calm⟩ := gate
      cases Option.some.inj (found.symm.trans there)
      left
      simp only [Dispatch.enter,Handler.flags,dispatchFlags,Bool.and_true] at calm
      split at calm
      · contradiction
      · rename_i none_
        have calm : run.event.errorStack = [] := by simpa [Dispatch.Event.hasError] using none_
        exact calm
  | gate pc there passed =>
    rename_i j handler next event
    by_cases same : j = i
    · subst same
      cases Option.some.inj (found.symm.trans there)
      exact walksGate pc passed
    · exact walksAway same pc rfl
  | callback pc there settled =>
    rename_i j phase parent handler outcome next event
    by_cases same : j = i
    · subst same
      exact .own pc
    · exact walksAway same pc rfl
  | cleaned pc past =>
    have outside := List.getElem?_eq_none_iff.mp past
    refine .goes ?_ nofun nofun
    intro before
    rw [pc] at before
    simp only [unfinished,decide_eq_true_eq] at before
    omega
  | notify pc there foreground hook =>
    refine .goes ?_ nofun nofun
    intro before
    rw [pc] at before
    exact before
  | skip pc there silent =>
    rename_i j handler
    have different : j ≠ i := by
      rintro rfl
      cases Option.some.inj (found.symm.trans there)
      rcases silent with background | hook <;> contradiction
    refine .goes ?_ nofun nofun
    intro before
    rw [pc] at before
    simp only [Dispatch.State.note,unfinished,decide_eq_true_eq] at before ⊢
    omega
  | notified pc =>
    rename_i j
    by_cases same : j = i
    · subst same
      exact .notified pc
    · refine .goes ?_ nofun nofun
      intro before
      rw [pc] at before
      simp only [unfinished,decide_eq_true_eq] at before ⊢
      omega
  | accept => exact walksStill rfl rfl
  | backgroundBegin there pc =>
    obtain ⟨place,_,event⟩ := Dispatch.backgroundFixed _ _ _ _ _
    exact walksStill place (by rw [event])
  | backgroundGate there pc passed =>
    obtain ⟨place,_,event⟩ := Dispatch.backgroundFixed _ _ _ _ _
    exact walksStill place (by rw [event]; exact Dispatch.passErrors passed)
  | backgroundCallback there pc settled =>
    obtain ⟨place,_,event⟩ := Dispatch.backgroundFixed _ _ _ _ _
    exact walksStill place (by rw [event]; exact congrArg _ (Dispatch.settleEvent settled))
  | backgroundEnd there => exact walksStill rfl rfl

/- Only `on_error` has a parent phase. -/
def Parents (run : Dispatch.State Handler) : Prop :=
  ∀ j phase parent, run.pc = .execute j (.calling phase parent) → phase ≠ .onError → parent = none

theorem parentsStep (parents : Parents run) (taken : Dispatch.Step Handler.flags run b run') :
    Parents run' := by
  intro j phase parent after other
  have kept : run'.pc = run.pc → parent = none := fun same => parents j phase parent (same ▸ after) other
  cases taken with
  | begin pc => contradiction
  | kill pc => contradiction
  | finish pc past => contradiction
  | hand pc there background => contradiction
  | enter pc there foreground =>
    simp only [Dispatch.State.note,Dispatch.Pc.execute.injEq] at after
    unfold Dispatch.enter at after
    split at after
    · cases after.2
      rfl
    · cases after.2
  | gate pc there passed =>
    rename_i next event
    unfold Dispatch.pass at passed
    simp only [Dispatch.State.note] at after
    split at passed
    · split at passed
      · cases passed
        cases after
        rfl
      · cases passed
        cases after
    · split at passed
      · cases passed
        cases after
      · cases passed
        cases after
        rfl
  | callback pc there settled =>
    rename_i i before parent' handler outcome next event
    simp only [Dispatch.State.note] at after
    have away : ∀ p, (Dispatch.after p).foreground i ≠ .execute j (.calling phase parent) := by
      intro p same
      cases p <;> cases same
    cases outcome with
    | returned =>
      cases settled
      exact absurd after (away _)
    | cancelled =>
      cases settled
      cases after
    | raised =>
      have went : next = if before != .onError && handler.flags.onError then
          .go (.calling .onError (some before)) else Dispatch.after (parent'.getD before) :=
        (congrArg Prod.fst settled).symm
      subst went
      split at after
      · cases after
        exact absurd rfl other
      · exact absurd after (away _)
  | cleaned pc past => contradiction
  | notify pc there foreground hook => contradiction
  | skip pc there silent => contradiction
  | notified pc => contradiction
  | accept => exact kept rfl
  | backgroundBegin there pc => exact kept (Dispatch.backgroundFixed _ _ _ _ _).1
  | backgroundGate there pc passed => exact kept (Dispatch.backgroundFixed _ _ _ _ _).1
  | backgroundCallback there pc settled => exact kept (Dispatch.backgroundFixed _ _ _ _ _).1
  | backgroundEnd there => exact kept rfl

theorem countPlace {chain : List Handler} {h : Handler} (once : chain.count h = 1)
    (found : chain[i]? = some h) : i = chain.idxOf h := by
  induction chain generalizing i with
  | nil => simp at found
  | cons head tail ih =>
    by_cases same : head = h
    · subst same
      have none_ : head ∉ tail := by
        intro member
        have more := List.count_pos_iff.mpr member
        rw [List.count_cons_self] at once
        omega
      cases i with
      | zero => simp
      | succ j =>
        have later : tail[j]? = some head := found
        exact absurd (List.mem_of_getElem? later) none_
    · rw [List.count_cons_of_ne same] at once
      cases i with
      | zero =>
        cases Option.some.inj found
        exact absurd rfl same
      | succ j =>
        rw [List.idxOf_cons_ne _ same,← ih once found]

theorem placeFound {chain : List Handler} {h : Handler} (once : chain.count h = 1) :
    chain[chain.idxOf h]? = some h := by
  have member : h ∈ chain := List.count_pos_iff.mp (by omega)
  rw [List.getElem?_eq_getElem (List.idxOf_lt_length_iff.mpr member),List.getElem_idxOf]

end Walk

/- A context that has been admitted by this graph. -/
def Mention (w : World V) (g c : Nat) : Prop :=
  ∃ x, w.contexts[c]? = some x ∧ x.graphId = g ∧ x.runId ≠ none

/- A dispatch of graph `g` whose context still runs. `whole` says that no dispatch
was lost before it could start. -/
structure Holds (whole : Prop) (g : Nat) (task : DispatchTask V) : Prop where
  held : task.run.chain.count (.graph g) = 1
  owing : whole → task.posted = false → unfinished (place task) task.run.pc = true
  errors : task.run.pc = .execute (place task) .gate → task.run.event.errorStack = []
  early : early (place task) task.run.pc = true → task.work = .idle →
    task.posted = false ∧ task.nodes = []

structure Waits (task : DispatchTask V) : Prop where
  past : task.work = .posting ∨ task.work = .resuming ∨ task.posted = true →
    ∀ node ∈ task.nodes, node.outcome ≠ none
  unposted : task.work = .gathering ∨ task.work = .posting → task.posted = false
  resumed : task.work = .resuming → task.posted = true
  begun : task.work = .gathering → task.nodes ≠ []

structure TaskOk (whole : Prop) (w : World V) (task : DispatchTask V) : Prop where
  parents : Parents task.run
  mention : ∀ g c, task.event = .dispatch g c → Mention w g c
  running : ∀ g c x, task.event = .dispatch g c → w.contexts[c]? = some x → x.status = .running →
    Holds whole g task
  waits : Waits task

theorem mentionPersists (mention : Mention w g c) (persists : Persists w v) : Mention v g c := by
  obtain ⟨x,found,mine,started⟩ := mention
  obtain ⟨y,there,goes⟩ := persists c x found
  obtain ⟨run,given⟩ := Option.ne_none_iff_exists'.mp started
  exact ⟨y,there,goes.graphId.trans mine,by rw [goes.runId run given]; simp⟩

theorem wasRunning (managed : Managed w) (persists : Persists w v) (found : w.contexts[c]? = some x)
    (started : x.runId ≠ none) (there : v.contexts[c]? = some y) (running : y.status = .running) :
    x.status = .running := by
  obtain ⟨z,same,goes⟩ := persists c x found
  cases Option.some.inj (there.symm.trans same)
  have shaped := managed.shaped c x found
  unfold Shaped at shaped
  cases at_ : x.status with
  | running => rfl
  | pending =>
    rw [at_] at shaped
    exact absurd shaped.1 started
  | failed =>
    have same := goes.status (by rw [at_]; rfl)
    rw [running,at_] at same
    contradiction
  | aborted =>
    have same := goes.status (by rw [at_]; rfl)
    rw [running,at_] at same
    contradiction
  | finished =>
    have same := goes.status (by rw [at_]; rfl)
    rw [running,at_] at same
    contradiction

theorem placeOf {h : Nat} (event : task.event = .dispatch h c) :
    place task = task.run.chain.idxOf (.graph h) := by
  unfold place
  rw [event]

theorem callingPlace {phase : Dispatch.Phase} (holds : Holds whole g task)
    (event : task.event = .dispatch g c) (calling : task.calling = some (g,phase)) :
    ∃ parent, task.run.pc = .execute (place task) (.calling phase parent) := by
  unfold DispatchTask.calling at calling
  split at calling <;> try contradiction
  rename_i i phase' parent pc
  split at calling <;> try contradiction
  rename_i h found
  cases calling
  rw [placeOf event,← countPlace holds.held found]
  exact ⟨parent,pc⟩

theorem placeCalling {phase : Dispatch.Phase} {parent : Option Dispatch.Phase} (holds : Holds whole g task)
    (event : task.event = .dispatch g c)
    (pc : task.run.pc = .execute (place task) (.calling phase parent)) :
    task.calling = some (g,phase) := by
  have found := placeFound holds.held
  rw [← placeOf event] at found
  unfold DispatchTask.calling
  rw [pc]
  simp only [found]

def ownNext (i : Nat) : Dispatch.Outcome → Dispatch.Pc
  | .returned => .visit (i + 1)
  | .raised => .execute i (.calling .onError (some .coreFunc))
  | .cancelled => .cleanup 0

theorem coreAnswer {run run' : Dispatch.State Handler} {i : Nat} {outcome : Dispatch.Outcome}
    (pc : run.pc = .execute i (.calling .coreFunc none)) (found : run.chain[i]? = some (.graph g))
    (taken : Dispatch.step Handler.flags run (.callback outcome) = some run') :
    run'.pc = ownNext i outcome := by
  cases Dispatch.stepCases taken with
  | callback at_ there settled =>
    rw [pc] at at_
    cases at_
    cases Option.some.inj (found.symm.trans there)
    cases outcome <;> cases settled <;> rfl

theorem holdsAnswer {outcome : Dispatch.Outcome} (holds : Holds whole g task)
    (event : task.event = .dispatch g c) (parents : Parents task.run)
    (busy : task.work ≠ .idle → ∃ phase, task.calling = some (g,phase))
    (own : ∀ phase, task.calling = some (g,phase) →
      phase = .coreFunc ∧ (outcome = .returned → task.posted = true))
    (answered : task.answer outcome = some next) : Holds whole g next := by
  obtain ⟨run,taken,rfl⟩ := answerCases answered
  have steps := Dispatch.stepCases taken
  have chain := Dispatch.chainKept steps
  have found := placeFound holds.held
  rw [← placeOf event] at found
  have same : place ({task with run := run, work := .idle} : DispatchTask V) = place task := by
    simp only [place,event,chain]
  have held : run.chain.count (.graph g) = 1 := by
    rw [chain]
    exact holds.held
  by_cases mine : ∃ phase parent, task.run.pc = .execute (place task) (.calling phase parent)
  · obtain ⟨phase,parent,pc⟩ := mine
    obtain ⟨rfl,posted⟩ := own phase (placeCalling holds event pc)
    have top := parents _ _ _ pc nofun
    subst top
    have after := coreAnswer pc found taken
    refine ⟨held,?_,?_,?_⟩
    · intro _ open_
      rw [same]
      simp only [after]
      cases outcome with
      | returned =>
        have put := posted rfl
        rw [show task.posted = false from open_] at put
        contradiction
      | raised => simp [ownNext,unfinished]
      | cancelled => simp [ownNext,unfinished]
    · intro gate
      rw [same] at gate
      simp only [after] at gate
      cases outcome <;> simp [ownNext] at gate
    · intro before
      rw [same] at before
      simp only [after] at before
      have late : Obligation.early (place task) (ownNext (place task) outcome) = false := by
        cases outcome <;> simp [ownNext,Obligation.early]
      rw [late] at before
      contradiction
  · have idle : task.work = .idle := by
      by_contra waits
      obtain ⟨phase,calling⟩ := busy waits
      obtain ⟨parent,pc⟩ := callingPlace holds event calling
      exact mine ⟨phase,parent,pc⟩
    cases walks steps found with
    | own pc => exact absurd ⟨_,_,pc⟩ mine
    | goes still back gate =>
      refine ⟨held,?_,?_,?_⟩
      · intro sure open_
        rw [same]
        exact still (holds.owing sure open_)
      · intro at_
        rw [same] at at_
        rcases gate at_ with none_ | ⟨before,kept⟩
        · exact none_
        · exact kept.trans (holds.errors before)
      · intro before _
        rw [same] at before
        exact holds.early (back before) idle

theorem holdsDispatch {run : Dispatch.State Handler} {b : Dispatch.Action} (holds : Holds whole g task)
    (event : task.event = .dispatch g c) (alive : whole → b ≠ .kill)
    (callback : ∀ outcome, b = .callback outcome → task.calling = none)
    (notified : b = .notified → task.notifying ≠ some g)
    (taken : Dispatch.step Handler.flags task.run b = some run) :
    Holds whole g ({task with run := run} : DispatchTask V) := by
  have steps := Dispatch.stepCases taken
  have chain := Dispatch.chainKept steps
  have found := placeFound holds.held
  rw [← placeOf event] at found
  have same : place ({task with run := run} : DispatchTask V) = place task := by
    simp only [place,event,chain]
  have held : run.chain.count (.graph g) = 1 := by
    rw [chain]
    exact holds.held
  cases walks steps found with
  | own pc =>
    have none_ := callback _ rfl
    rw [placeCalling holds event pc] at none_
    contradiction
  | passedBy pc errors => exact absurd (holds.errors pc) errors
  | notified pc =>
    refine absurd ?_ (notified rfl)
    unfold DispatchTask.notifying
    rw [pc]
    simp only [found]
  | killed pc =>
    refine ⟨held,fun sure => absurd rfl (alive sure),?_,?_⟩
    · intro at_
      rw [pc] at at_
      contradiction
    · intro before
      rw [pc] at before
      contradiction
  | goes still back gate =>
    refine ⟨held,?_,?_,?_⟩
    · intro sure open_
      rw [same]
      exact still (holds.owing sure open_)
    · intro at_
      rw [same] at at_
      rcases gate at_ with none_ | ⟨before,kept⟩
      · exact none_
      · exact kept.trans (holds.errors before)
    · intro before idle
      rw [same] at before
      exact holds.early (back before) idle

theorem taskKept (moved : TaskStep values w d task a next v) :
    next.event = task.event ∧ next.posted = task.posted := by
  have answered : ∀ (task : DispatchTask V) outcome, task.answer outcome = some next →
      next.event = task.event ∧ next.posted = task.posted := by
    intro task outcome answered
    obtain ⟨run,_,rfl⟩ := answerCases answered
    exact ⟨rfl,rfl⟩
  cases moved with
  | dispatch allowed_ taken => exact ⟨rfl,rfl⟩
  | notify calling notified done => exact answered _ _ done
  | notifyCancelled notifying taken => exact ⟨rfl,rfl⟩
  | coreIdle calling idle inactive done => exact answered _ _ done
  | coreFinish calling idle event active there end_ done => exact answered _ _ done
  | coreRaise calling idle event active there owner more raised done =>
    rename_i now g h c x graph error
    exact answered {task with failure := some error} _ done
  | coreBegin calling idle event active there owner more begun => exact ⟨rfl,rfl⟩
  | startNode event there owner known unstarted open_ => exact ⟨rfl,rfl⟩
  | endNode there open_ started => exact ⟨rfl,rfl⟩
  | gatherCancelled calling context work done => exact answered _ _ done
  | gatherRaised calling context work there raised past done => exact answered _ _ done
  | gathered calling context work returned owner there stopped done => exact answered _ _ done
  | committed calling context work returned owner there goes => exact ⟨rfl,rfl⟩
  | putFailed calling context work done => exact answered _ _ done
  | postCancelled work done => exact answered _ _ done
  | resume work done => exact answered _ _ done

theorem taskParents (parents : Parents task.run) (moved : TaskStep values w d task a next v) :
    Parents next.run := by
  have answered : ∀ (task : DispatchTask V) outcome, Parents task.run →
      task.answer outcome = some next → Parents next.run := by
    intro task outcome parents answered
    obtain ⟨run,taken,rfl⟩ := answerCases answered
    exact parentsStep parents (Dispatch.stepCases taken)
  cases moved with
  | dispatch allowed_ taken => exact parentsStep parents (Dispatch.stepCases taken)
  | notify calling notified done => exact answered _ _ parents done
  | notifyCancelled notifying taken => exact parentsStep parents (Dispatch.stepCases taken)
  | coreIdle calling idle inactive done => exact answered _ _ parents done
  | coreFinish calling idle event active there end_ done => exact answered _ _ parents done
  | coreRaise calling idle event active there owner more raised done =>
    rename_i now g h c x graph error
    exact answered {task with failure := some error} _ parents done
  | coreBegin calling idle event active there owner more begun => exact parents
  | startNode event there owner known unstarted open_ => exact parents
  | endNode there open_ started => exact parents
  | gatherCancelled calling context work done => exact answered _ _ parents done
  | gatherRaised calling context work there raised past done => exact answered _ _ parents done
  | gathered calling context work returned owner there stopped done => exact answered _ _ parents done
  | committed calling context work returned owner there goes => exact parents
  | putFailed calling context work done => exact answered _ _ parents done
  | postCancelled work done => exact answered _ _ parents done
  | resume work done => exact answered _ _ parents done

theorem returnedAll {nodes : List (NodeTask V)} {results : List (Result V)}
    (returned : allReturned nodes = some results) : ∀ node ∈ nodes, node.outcome ≠ none := by
  induction nodes generalizing results with
  | nil => simp
  | cons head tail ih =>
    simp only [allReturned,bind,Option.bind_eq_some_iff] at returned
    obtain ⟨result,first,rest,all,_⟩ := returned
    intro node member
    rcases List.mem_cons.mp member with rfl | later
    · intro none_
      unfold NodeTask.isReturned at first
      rw [none_] at first
      contradiction
    · exact ih all node later

theorem coreRunning (ready : Ready s) (ok : TaskOk whole s.world task) {h : Nat}
    (event : task.event = .dispatch h c) (active : s.world.isActiveContext g c = true)
    (there : s.world.contexts[c]? = some x) : h = g ∧ x.status = .running ∧ Holds whole g task := by
  obtain ⟨mine,running⟩ := activeRunning ready.managed.toExact there active
  obtain ⟨z,same,owner,_⟩ := ok.mention h c event
  cases Option.some.inj (there.symm.trans same)
  have equal : h = g := owner.symm.trans mine
  subst equal
  exact ⟨rfl,running,ok.running h c x event there running⟩

theorem callingEarly {g : Nat} (holds : Holds whole g task) (event : task.event = .dispatch g c)
    (calling : task.calling = some (g,.coreFunc)) (idle : task.work = .idle) :
    task.posted = false ∧ task.nodes = [] := by
  obtain ⟨parent,pc⟩ := callingPlace holds event calling
  refine holds.early ?_ idle
  rw [pc]
  simp [early]

theorem waitsIdle (idle : next.work = .idle)
    (past : next.posted = true → ∀ node ∈ next.nodes, node.outcome ≠ none) : Waits next := by
  refine ⟨?_,?_,?_,?_⟩
  · rintro (waits | waits | posted)
    · rw [idle] at waits; contradiction
    · rw [idle] at waits; contradiction
    · exact past posted
  · rintro (waits | waits) <;> (rw [idle] at waits; contradiction)
  · intro waits
    rw [idle] at waits
    contradiction
  · intro waits
    rw [idle] at waits
    contradiction

theorem targetsSome {target : Target} {names : List String}
    (named : Target.normaliseTargets target = .ok names) : names ≠ [] := by
  unfold Target.normaliseTargets at named
  split at named
  · cases named; simp
  · contradiction
  · cases named; simp

theorem taskWaits (ready : Ready s) (ok : TaskOk whole s.world task)
    (moved : TaskStep values s.world d task a next v) : Waits next := by
  have waits := ok.waits
  have past : task.posted = true → ∀ node ∈ task.nodes, node.outcome ≠ none :=
    fun posted => waits.past (.inr (.inr posted))
  have answered : ∀ (task : DispatchTask V) outcome, (task.posted = true →
        ∀ node ∈ task.nodes, node.outcome ≠ none) → task.answer outcome = some next → Waits next := by
    intro task outcome past answered
    obtain ⟨run,_,rfl⟩ := answerCases answered
    exact waitsIdle rfl past
  -- a node that is still open belongs to a task that has not gone on
  have open_ : ∀ (i : Nat) node, task.nodes[i]? = some node → node.outcome = none →
      ¬ (task.work = .posting ∨ task.work = .resuming ∨ task.posted = true) := by
    intro i node there none_ gone
    exact waits.past gone node (List.mem_of_getElem? there) none_
  have set : ∀ {i : Nat} {node node' : NodeTask V}, task.nodes[i]? = some node →
      task.work = .gathering → task.nodes.set i node' ≠ [] := by
    intro i node node' there _ none_
    have inside := Slots.inside there
    rw [(List.set_eq_nil_iff i node').mp none_] at inside
    contradiction
  cases moved with
  | dispatch allowed_ taken => exact ⟨waits.past,waits.unposted,waits.resumed,waits.begun⟩
  | notify calling notified done => exact answered _ _ past done
  | notifyCancelled notifying taken => exact ⟨waits.past,waits.unposted,waits.resumed,waits.begun⟩
  | coreIdle calling idle inactive done => exact answered _ _ past done
  | coreFinish calling idle event active there end_ done => exact answered _ _ past done
  | coreRaise calling idle event active there owner more raised done =>
    rename_i now g h c x graph error
    exact answered {task with failure := some error} _ past done
  | coreBegin calling idle event active there owner more begun =>
    obtain ⟨rfl,running,holds⟩ := coreRunning ready ok event active there
    obtain ⟨unposted,_⟩ := callingEarly holds event calling idle
    refine ⟨?_,fun _ => unposted,nofun,fun _ => ?_⟩
    · rintro (waits | waits | posted)
      · contradiction
      · contradiction
      · rw [show task.posted = true from posted] at unposted
        contradiction
    · intro none_
      exact targetsSome (executeNodeOk begun).1 (List.map_eq_nil_iff.mp none_)
  | startNode event there owner known unstarted none_ =>
    exact ⟨fun gone => absurd gone (open_ _ _ there none_),waits.unposted,waits.resumed,set there⟩
  | endNode there none_ started =>
    exact ⟨fun gone => absurd gone (open_ _ _ there none_),waits.unposted,waits.resumed,set there⟩
  | gatherCancelled calling context work done => exact answered _ _ past done
  | gatherRaised calling context work there raised ended done => exact answered _ _ past done
  | gathered calling context work returned owner there stopped done => exact answered _ _ past done
  | committed calling context work returned owner there goes =>
    exact ⟨fun _ => returnedAll returned,fun _ => waits.unposted (.inl work),nofun,nofun⟩
  | putFailed calling context work done => exact answered _ _ past done
  | postCancelled work done => exact answered _ _ past done
  | resume work done => exact answered _ _ past done

theorem notificationInactive {phase : Dispatch.Phase} {failure : Option PyError} (managed : Managed w)
    (notified : phase ≠ .coreFunc) (g c : Nat) :
    (PyError.stateOf (notification w g failure phase (.dispatch g c))).isActiveContext g c = false := by
  cases phase with
  | coreFunc => exact absurd rfl notified
  | onHasError => exact closesInactive managed rfl (fun _ => rfl) (graphFailCloses managed g c _)
  | onAccepted => exact closesInactive managed rfl (fun _ => rfl) (abortIfActiveCloses managed g c)
  | onError => exact closesInactive managed rfl (fun _ => rfl) (graphFailCloses managed g c _)

theorem ownerActive (managed : Managed v) (found : v.contexts[c]? = some y) (mine : y.graphId = g)
    (running : y.status = .running) : v.isActiveContext g c = true := by
  subst mine
  exact runningActive managed found running

theorem commitInactive (ready : Ready s) {graph : Graph} {names : List String}
    {results : List (Result V)} {call : Call V (World V)} (there : s.world.contexts[c]? = some x)
    (stopped : commit values s.world g c graph x names results = (false,call)) :
    (PyError.stateOf call).isActiveContext g c = false := by
  have broken : ∀ z : GraphContext V, Alike x z → ∀ error,
      (PyError.stateOf (failIfActive (s.world.setContext c z) g c error)).isActiveContext g c = false := by
    intro z alike error
    have shaped := alikeShaped alike (ready.managed.shaped c x there)
    have written := setManaged ready.managed there shaped alike.graphId alike.status
    exact closesInactive written rfl (fun _ => rfl) (failIfActiveCloses written g c error)
  rcases commitCases stopped with ⟨idle,_,rfl⟩ | ⟨_,⟨error,state,_,_,rfl⟩ | ⟨next,state,_,
    ⟨error,_,_,rfl⟩ | ⟨target,_,goes,_⟩⟩⟩
  · cases active : s.world.isActiveContext g c with
    | false => exact active
    | true =>
      have running := (activeRunning ready.managed.toExact there active).2
      simp [GraphContext.isActive,running] at idle
  · exact broken {x with state := state} ⟨rfl,rfl,rfl,rfl,rfl⟩ error
  · exact broken {x with state := state, steps := x.steps + 1} ⟨rfl,rfl,rfl,rfl,rfl⟩ error
  · contradiction

theorem holdsAnswered {other : DispatchTask V} {outcome : Dispatch.Outcome} (holds : Holds whole g task)
    (event : task.event = .dispatch g c) (parents : Parents task.run)
    (busy : task.work ≠ .idle → ∃ phase, task.calling = some (g,phase))
    (answered : other.answer outcome = some next) (run : other.run = task.run)
    (same : other.event = task.event) (posted : other.posted = task.posted) (nodes : other.nodes = task.nodes)
    (own : ∀ phase, task.calling = some (g,phase) →
      phase = .coreFunc ∧ (outcome = .returned → task.posted = true)) : Holds whole g next := by
  obtain ⟨run',taken,rfl⟩ := answerCases answered
  have done : task.answer outcome = some {task with run := run', work := .idle} := by
    unfold DispatchTask.answer
    rw [← run,taken]
    rfl
  have result := holdsAnswer holds event parents busy own done
  have here : place ({other with run := run', work := .idle} : DispatchTask V) =
      place ({task with run := run', work := .idle} : DispatchTask V) := by
    simp only [place,same]
  refine ⟨result.held,?_,?_,?_⟩
  · intro sure open_
    rw [here]
    exact result.owing sure (posted ▸ open_)
  · rw [here]
    exact result.errors
  · intro before idle
    rw [here] at before
    obtain ⟨unposted,none_⟩ := result.early before idle
    exact ⟨posted.trans unposted,nodes.trans none_⟩

theorem taskRunning (ready : Ready s) (found : s.tasks[d]? = some task) (ok : TaskOk whole s.world task)
    (alive : whole → a ≠ .dispatch d .kill)
    (moved : TaskStep values s.world d task a next v) (event : task.event = .dispatch g c)
    (there : s.world.contexts[c]? = some x) (running : x.status = .running) (mine : x.graphId = g)
    (after : v.isActiveContext g c = true) : Holds whole g next := by
  have holds := ok.running g c x event there running
  have works := ready.works d task found
  have busy : task.work ≠ .idle → ∃ phase, task.calling = some (g,phase) := by
    intro waits
    obtain ⟨h,e,z,calling,context,known,owner⟩ := works waits
    rw [event] at context
    cases context
    cases Option.some.inj (there.symm.trans known)
    rw [← mine,owner]
    exact ⟨_,calling⟩
  -- a callback of this graph after which the context would not be active
  have ends : ∀ {h : Nat} {phase' : Dispatch.Phase} {outcome : Dispatch.Outcome},
      task.calling = some (h,phase') → (h = g → v.isActiveContext g c = false) →
      ∀ phase, task.calling = some (g,phase) →
        phase = .coreFunc ∧ (outcome = .returned → task.posted = true) := by
    intro h phase' outcome calling inactive phase same
    rw [calling] at same
    cases same
    rw [inactive rfl] at after
    contradiction
  have waiting : task.work ≠ .idle → ∀ phase, task.calling = some (g,phase) → phase = .coreFunc := by
    intro waits phase same
    obtain ⟨h,e,z,calling,_,_,_⟩ := works waits
    rw [calling] at same
    cases same
    rfl
  cases moved with
  | dispatch allowed_ taken =>
    refine holdsDispatch holds event (by rintro sure rfl; exact alive sure rfl) ?_ ?_ taken
    · rintro outcome rfl
      exact Option.isNone_iff_eq_none.mp allowed_
    · rintro rfl notifying
      have none_ := Option.isNone_iff_eq_none.mp (show task.notifying.isNone = true from allowed_)
      rw [none_] at notifying
      contradiction
  | notify calling notified done =>
    refine holdsAnswered holds event ok.parents busy done rfl rfl rfl rfl (ends calling ?_)
    rintro rfl
    rw [event]
    exact notificationInactive ready.managed notified _ c
  | notifyCancelled notifying taken =>
    have alive : whole → Dispatch.Action.notified ≠ .kill := fun _ => nofun
    refine holdsDispatch holds event alive nofun ?_ taken
    intro _ same
    rw [notifying] at same
    cases same
    have inactive := closesInactive ready.managed rfl (fun _ => rfl)
      (cancelIfActiveCloses ready.managed g c)
    rw [event] at after
    rw [show PyError.stateOf (cancellation s.world g (.dispatch g c)) =
      PyError.stateOf (cancelIfActive s.world g c) from rfl,inactive] at after
    contradiction
  | coreIdle calling idle inactive done =>
    refine holdsAnswered holds event ok.parents busy done rfl rfl rfl rfl (ends calling ?_)
    rintro rfl
    exact inactive _ c event
  | coreFinish calling idle event' active known end_ done =>
    rw [event] at event'
    cases event'
    refine holdsAnswered holds event ok.parents busy done rfl rfl rfl rfl (ends calling ?_)
    rintro rfl
    exact closesInactive ready.managed rfl (fun _ => rfl) (graphFinishCloses ready.managed _ c)
  | coreRaise calling idle event' active known owner more raised done =>
    rename_i now h h' c' z graph error
    refine holdsAnswered holds event ok.parents busy done rfl rfl rfl rfl ?_
    intro phase same
    rw [calling] at same
    cases same
    exact ⟨rfl,nofun⟩
  | coreBegin calling idle event' active known owner more begun =>
    exact ⟨holds.held,holds.owing,holds.errors,fun _ waits => nomatch waits⟩
  | startNode event' known owner there' unstarted none_ =>
    refine ⟨holds.held,holds.owing,holds.errors,?_⟩
    intro before idle
    obtain ⟨_,empty⟩ := holds.early before idle
    rw [empty] at known
    contradiction
  | endNode known none_ started =>
    refine ⟨holds.held,holds.owing,holds.errors,?_⟩
    intro before idle
    obtain ⟨_,empty⟩ := holds.early before idle
    rw [empty] at known
    contradiction
  | gatherCancelled calling context work done =>
    have waits : task.work ≠ .idle := by rw [work]; nofun
    exact holdsAnswered holds event ok.parents busy done rfl rfl rfl rfl
      (fun phase same => ⟨waiting waits phase same,nofun⟩)
  | gatherRaised calling context work known raised past done =>
    rw [event] at context
    cases context
    refine holdsAnswered holds event ok.parents busy done rfl rfl rfl rfl (ends calling ?_)
    rintro rfl
    exact closesInactive ready.managed rfl (fun _ => rfl) (failIfActiveCloses ready.managed _ c _)
  | gathered calling context work returned owner known stopped done =>
    rw [event] at context
    cases context
    refine holdsAnswered holds event ok.parents busy done rfl rfl rfl rfl (ends calling ?_)
    rintro rfl
    cases Option.some.inj (there.symm.trans known)
    exact commitInactive ready there stopped
  | committed calling context work returned owner known goes =>
    exact ⟨holds.held,holds.owing,holds.errors,fun _ waits => nomatch waits⟩
  | putFailed calling context work done =>
    rw [event] at context
    cases context
    refine holdsAnswered holds event ok.parents busy done rfl rfl rfl rfl (ends calling ?_)
    rintro rfl
    exact closesInactive ready.managed rfl (fun _ => rfl) (failIfActiveCloses ready.managed _ c _)
  | postCancelled work done =>
    have waits : task.work ≠ .idle := by rcases work with work | work <;> rw [work] <;> nofun
    exact holdsAnswered holds event ok.parents busy done rfl rfl rfl rfl
      (fun phase same => ⟨waiting waits phase same,nofun⟩)
  | resume work done =>
    have waits : task.work ≠ .idle := by rw [work]; nofun
    exact holdsAnswered holds event ok.parents busy done rfl rfl rfl rfl
      (fun phase same => ⟨waiting waits phase same,fun _ => ok.waits.resumed work⟩)

theorem taskOkPersists (managed : Managed w) (persists : Persists w v) (ok : TaskOk whole w task) :
    TaskOk whole v task := by
  refine ⟨ok.parents,fun g c event => mentionPersists (ok.mention g c event) persists,?_,ok.waits⟩
  intro g c y event there running
  obtain ⟨x,found,_,started⟩ := ok.mention g c event
  exact ok.running g c x event found (wasRunning managed persists found started there running)

theorem taskOkStep (ready : Ready s) (found : s.tasks[d]? = some task) (ok : TaskOk whole s.world task)
    (alive : whole → a = .dispatch d .kill → task.event.context = none)
    (moved : TaskStep values s.world d task a next v) (managed : Managed v)
    (persists : Persists s.world v) : TaskOk whole v next := by
  have kept := (taskKept moved).1
  refine ⟨taskParents ok.parents moved,?_,?_,taskWaits ready ok moved⟩
  · intro g c event
    exact mentionPersists (ok.mention g c (kept ▸ event)) persists
  · intro g c y event there running
    have event : task.event = .dispatch g c := kept ▸ event
    obtain ⟨x,known,mine,started⟩ := ok.mention g c event
    have ran := wasRunning ready.managed persists known started there running
    obtain ⟨z,same,goes⟩ := persists c x known
    cases Option.some.inj (there.symm.trans same)
    refine taskRunning ready found ok ?_ moved event known ran mine
      (ownerActive managed there (goes.graphId.trans mine) running)
    intro sure killed
    have foreign := alive sure killed
    rw [event] at foreign
    contradiction

end Apixis.Obligation
