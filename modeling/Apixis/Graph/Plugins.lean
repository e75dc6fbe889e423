import Apixis.Graph.Baton

/-! A dispatch whose event no plugin has accepted and in whose chain no plugin has
raised. The graph's handler is then told of nothing but the failure of its own core. -/
namespace Apixis.Plugins
open NodeGraph hiding Action step initial
open ApplyCommand Lifecycle Moves Obligation Baton Apixis.Runtime

variable {V : Type} {values : Values V} {w v : World V} {s t : State V} {g c d i : Nat}
  {x : GraphContext V} {a : Action V} {task next : DispatchTask V} {whole doomed : Prop}

/- The loop of a dispatch up to the graph's handler at position `i`, and in it.
`doomed` is what a failure of the handler's core means. -/
structure Calm (doomed : Prop) (i : Nat) (run : Dispatch.State Handler) : Prop where
  accepted : run.event.accepted = false
  errors : early i run.pc = true → run.event.errorStack = []
  phases : ∀ phase parent, run.pc = .execute i (.calling phase parent) →
    phase = .coreFunc ∧ parent = none ∨ phase = .onError ∧ parent = some .coreFunc ∧ doomed

/- What a plugin does to an event when it accepts it or raises. -/
def touches : Dispatch.Action → Bool
  | .accept => true
  | .callback .raised => true
  | _ => false

section Walk
variable {run run' : Dispatch.State Handler} {b : Dispatch.Action}

theorem calmKept (calm : Calm doomed i run) (event : run'.event = run.event)
    (back : early i run'.pc = true → early i run.pc = true)
    (phases : ∀ phase parent, run'.pc = .execute i (.calling phase parent) →
      run.pc = .execute i (.calling phase parent)) : Calm doomed i run' := by
  refine ⟨event ▸ calm.accepted,?_,fun phase parent pc => calm.phases phase parent (phases phase parent pc)⟩
  intro before
  rw [event]
  exact calm.errors (back before)

theorem calmLate (calm : Calm doomed i run) (accepted : run'.event.accepted = run.event.accepted)
    (late : early i run'.pc = false)
    (phases : ∀ phase parent, run'.pc = .execute i (.calling phase parent) →
      phase = .coreFunc ∧ parent = none ∨ phase = .onError ∧ parent = some .coreFunc ∧ doomed) :
    Calm doomed i run' := by
  refine ⟨accepted.trans calm.accepted,?_,phases⟩
  intro before
  rw [late] at before
  contradiction

theorem foregroundEarly {j : Nat} {next : Dispatch.Next} {pc : Dispatch.ExecutePc} (different : j ≠ i)
    (before : early i (next.foreground j) = true) : early i (.execute j pc) = true := by
  cases next with
  | go pc' =>
    simp only [Dispatch.Next.foreground,early,Bool.or_eq_true,Bool.and_eq_true,decide_eq_true_eq,
      beq_iff_eq] at before ⊢
    exact .inl (before.resolve_right (fun same => different same.1))
  | finished =>
    simp only [Dispatch.Next.foreground,early,Bool.or_eq_true,decide_eq_true_eq] at before ⊢
    exact .inl (by omega)
  | cancelled => contradiction

theorem foregroundAway {j : Nat} {next : Dispatch.Next} {pc : Dispatch.ExecutePc} (different : j ≠ i) :
    next.foreground j ≠ .execute i pc := by
  intro same
  cases next <;> cases same
  exact different rfl

/- The graph's own callback has ended: its core, or `on_error` after it. -/
theorem calmOwn {phase : Dispatch.Phase} {parent : Option Dispatch.Phase} {outcome : Dispatch.Outcome}
    {next : Dispatch.Next} {event : Dispatch.Event Handler} {uses : List (Dispatch.Use Handler)}
    (calm : Calm doomed i run) (pc : run.pc = .execute i (.calling phase parent))
    (settled : Dispatch.settle (Handler.flags (.graph g)) false (.graph g) run.event phase parent outcome =
      (next,event))
    (raises : outcome = .raised → doomed) :
    Calm doomed i ({run with pc := next.foreground i, event := event}.note uses) := by
  rcases calm.phases phase parent pc with ⟨rfl,rfl⟩ | ⟨rfl,rfl,known⟩
  · cases outcome with
    | returned =>
      cases settled
      exact calmLate calm rfl (by simp [Dispatch.State.note,Dispatch.after,Dispatch.Next.foreground,early])
        (fun _ _ at_ => by cases at_)
    | raised =>
      cases settled
      refine calmLate calm rfl (by simp [Dispatch.State.note,Handler.flags,dispatchFlags,
        Dispatch.Next.foreground,early]) ?_
      intro phase' parent' at_
      cases at_
      exact .inr ⟨rfl,rfl,raises rfl⟩
    | cancelled =>
      cases settled
      exact calmLate calm rfl rfl (fun _ _ at_ => by cases at_)
  · cases outcome with
    | returned =>
      cases settled
      exact calmLate calm rfl (by simp [Dispatch.State.note,Dispatch.after,Dispatch.Next.foreground,early])
        (fun _ _ at_ => by cases at_)
    | raised =>
      cases settled
      exact calmLate calm rfl (by simp [Dispatch.State.note,Dispatch.after,Dispatch.Next.foreground,early])
        (fun _ _ at_ => by cases at_)
    | cancelled =>
      cases settled
      exact calmLate calm rfl rfl (fun _ _ at_ => by cases at_)

theorem calmStep (calm : Calm doomed i run) (taken : Dispatch.Step Handler.flags run b run')
    (found : run.chain[i]? = some (.graph g)) (quiet : b ≠ .accept)
    (raises : b = .callback .raised → doomed ∧ ∃ phase parent, run.pc = .execute i (.calling phase parent)) :
    Calm doomed i run' := by
  cases taken with
  | begin pc => exact calmKept calm rfl (fun _ => by rw [pc]; rfl) (fun _ _ at_ => by cases at_)
  | kill pc => exact calmLate calm rfl rfl (fun _ _ at_ => by cases at_)
  | finish pc past => exact calmLate calm rfl rfl (fun _ _ at_ => by cases at_)
  | hand pc there background =>
    refine calmKept calm rfl ?_ (fun _ _ at_ => by cases at_)
    intro before
    rw [pc]
    simp only [early,decide_eq_true_eq] at before ⊢
    omega
  | enter pc there foreground =>
    rename_i j handler
    have back : early i (.execute j (Dispatch.enter handler.flags run.event)) = true →
        early i run.pc = true := by
      intro before
      rw [pc]
      simp only [early,Bool.or_eq_true,Bool.and_eq_true,decide_eq_true_eq,beq_iff_eq] at before ⊢
      omega
    refine ⟨calm.accepted,fun before => calm.errors (back before),?_⟩
    intro phase parent at_
    -- the handler itself is entered without an error before it
    have same : j = i ∧ Dispatch.enter handler.flags run.event = .calling phase parent := by
      simpa [Dispatch.State.note] using at_
    obtain ⟨rfl,entered⟩ := same
    have clean := calm.errors (by rw [pc]; simp [early])
    simp [Dispatch.enter,Dispatch.Event.hasError,clean] at entered
  | gate pc there passed =>
    rename_i j handler next event
    have accepted := Dispatch.passAccepted passed
    have errors := Dispatch.passErrors passed
    by_cases same : j = i
    · subst same
      have clean := calm.errors (by rw [pc]; simp [early])
      have goes : next = .go (.calling .coreFunc none) := by
        simp only [Dispatch.pass,calm.accepted,Dispatch.Event.hasError,clean] at passed
        exact (congrArg Prod.fst passed).symm
      subst goes
      refine ⟨accepted.trans calm.accepted,fun _ => errors.trans clean,?_⟩
      intro phase parent at_
      cases at_
      exact .inl ⟨rfl,rfl⟩
    · refine ⟨accepted.trans calm.accepted,?_,fun phase parent at_ => absurd at_ (foregroundAway same)⟩
      intro before
      refine errors.trans (calm.errors ?_)
      rw [pc]
      exact foregroundEarly same before
  | callback pc there settled =>
    rename_i j phase parent handler outcome next event
    by_cases same : j = i
    · subst same
      cases Option.some.inj (found.symm.trans there)
      exact calmOwn calm pc settled (fun raised => (raises (by rw [raised])).1)
    · have away : ∀ phase' parent', next.foreground j ≠ .execute i (.calling phase' parent') :=
        fun _ _ => foregroundAway same
      cases outcome with
      | returned =>
        have kept : event = run.event := (congrArg Prod.snd settled).symm
        subst kept
        refine calmKept calm rfl ?_ (fun phase' parent' at_ => absurd at_ (away phase' parent'))
        intro before
        rw [pc]
        exact foregroundEarly same before
      | raised =>
        obtain ⟨_,phase',parent',mine⟩ := raises rfl
        rw [pc] at mine
        cases mine
        exact absurd rfl same
      | cancelled =>
        cases settled
        exact calmLate calm rfl rfl (fun _ _ at_ => by cases at_)
  | cleaned pc past => exact calmLate calm rfl rfl (fun _ _ at_ => by cases at_)
  | notify pc there foreground hook => exact calmLate calm rfl rfl (fun _ _ at_ => by cases at_)
  | skip pc there silent => exact calmLate calm rfl rfl (fun _ _ at_ => by cases at_)
  | notified pc => exact calmLate calm rfl rfl (fun _ _ at_ => by cases at_)
  | accept => exact absurd rfl quiet
  | backgroundBegin there pc =>
    obtain ⟨place,_,event⟩ := Dispatch.backgroundFixed _ _ _ _ _
    exact calmKept calm event (by rw [place]; exact id) (by rw [place]; exact fun _ _ => id)
  | backgroundGate there pc passed =>
    obtain ⟨place,_,event⟩ := Dispatch.backgroundFixed _ _ _ _ _
    refine ⟨?_,?_,?_⟩
    · rw [event]
      exact (Dispatch.passAccepted passed).trans calm.accepted
    · rw [place,event]
      exact fun before => (Dispatch.passErrors passed).trans (calm.errors before)
    · rw [place]
      exact calm.phases
  | backgroundCallback there pc settled =>
    obtain ⟨place,_,event⟩ := Dispatch.backgroundFixed _ _ _ _ _
    exact calmKept calm (event.trans (Dispatch.settleEvent settled)) (by rw [place]; exact id)
      (by rw [place]; exact fun _ _ => id)
  | backgroundEnd there => exact calmKept calm rfl id (fun _ _ => id)

end Walk

theorem launchedCalm (chain : List Handler) : Calm doomed i (Dispatch.initial chain) :=
  ⟨rfl,fun _ => rfl,nofun⟩

/- The dispatch of a context that runs stays calm if no plugin touches its event. -/
theorem calmTask (ready : Ready s) (found : s.tasks[d]? = some task) (ok : TaskOk whole s.world task)
    (calm : Calm doomed (place task) task.run) (event : task.event = .dispatch g c)
    (there : s.world.contexts[c]? = some x) (running : x.status = .running)
    (quiet : ∀ b, a = .dispatch d b → touches b = false)
    (fails : ∀ now graph error, task.calling = some (g,.coreFunc) → task.work = .idle →
      s.world.graphs[x.graphId]? = some graph → x.targetNodeName ≠ .node END →
      executeNode values graph x now = .error error → doomed)
    (moved : TaskStep values s.world d task a next v) (after : v.isActiveContext g c = true) :
    Calm doomed (place next) next.run := by
  have managed := ready.managed
  have holds := ok.running g c x event there running
  have held := placeFound holds.held
  rw [← placeOf event] at held
  have goes : ∀ {run : Dispatch.State Handler} {other : DispatchTask V} {b : Dispatch.Action},
      other.event = task.event → other.run = run → Dispatch.step Handler.flags task.run b = some run →
      b ≠ .accept → (b = .callback .raised → doomed ∧ ∃ phase parent,
        task.run.pc = .execute (place task) (.calling phase parent)) →
      Calm doomed (place other) other.run := by
    intro run other b event' run' taken quiet raises
    have steps := Dispatch.stepCases taken
    have same : place other = place task := by
      unfold place
      rw [event',run',Dispatch.chainKept steps]
    rw [same,run']
    exact calmStep calm steps held quiet raises
  have answered : ∀ (other : DispatchTask V) outcome, other.run = task.run → other.event = task.event →
      (outcome = .raised → doomed ∧ ∃ phase parent,
        task.run.pc = .execute (place task) (.calling phase parent)) →
      other.answer outcome = some next → Calm doomed (place next) next.run := by
    intro other outcome run event' raises done
    obtain ⟨run',taken,rfl⟩ := answerCases done
    rw [run] at taken
    exact goes event' rfl taken nofun (fun same => raises (by cases same; rfl))
  have returns : ∀ {e : Nat} {status : Status} {value : GraphContext V → Future V} {call : Call V (World V)},
      Closes s.world e c status value call → outcomeOf call = .raised → doomed ∧ ∃ phase parent,
        task.run.pc = .execute (place task) (.calling phase parent) := by
    intro e status value call closes raised
    rw [closesReturns closes] at raised
    contradiction
  cases moved with
  | dispatch allowed_ taken =>
    rename_i b run
    have still := quiet b rfl
    refine goes rfl rfl taken ?_ ?_
    · rintro rfl
      contradiction
    · rintro rfl
      contradiction
  | notify calling notified done =>
    rename_i h phase
    refine answered task _ rfl rfl ?_ done
    rw [event]
    cases phase with
    | coreFunc => contradiction
    | onHasError => exact returns (graphFailCloses managed h c _)
    | onAccepted => exact returns (abortIfActiveCloses managed h c)
    | onError => exact returns (graphFailCloses managed h c _)
  | notifyCancelled notifying taken => exact goes rfl rfl taken nofun nofun
  | coreIdle calling idle inactive done => exact answered task .returned rfl rfl nofun done
  | coreFinish calling idle event' active known end_ done =>
    rw [event] at event'
    cases event'
    exact answered task _ rfl rfl (returns (graphFinishCloses managed _ c)) done
  | coreRaise calling idle event' active known owner more raised done =>
    rename_i now h h' c' z graph error
    rw [event] at event'
    cases event'
    cases Option.some.inj (there.symm.trans known)
    obtain ⟨rfl,_,_⟩ := coreRunning ready ok event active there
    have mine := (activeRunning managed.toExact there active).1
    obtain ⟨parent,pc⟩ := callingPlace holds event calling
    refine answered {task with failure := some error} _ rfl rfl ?_ done
    intro _
    exact ⟨fails now graph error calling idle (mine ▸ owner) more raised,_,_,pc⟩
  | coreBegin calling idle event' active known owner more begun => exact calm
  | startNode event' known owner there' unstarted none_ => exact calm
  | endNode known none_ started => exact calm
  | gatherCancelled calling context work done => exact answered task .cancelled rfl rfl nofun done
  | gatherRaised calling context work known raised past done =>
    rw [event] at context
    cases context
    exact answered task _ rfl rfl (returns (failIfActiveCloses managed _ c _)) done
  | gathered calling context work returned owner known stopped done =>
    rw [event] at context
    cases context
    cases Option.some.inj (there.symm.trans known)
    have mine := worksOwner (ready.works d task found) (by rw [work]; nofun) calling
      (by rw [event]; rfl) there
    obtain ⟨owner',_⟩ := mentionFound (ok.mention g c event) there
    rw [← owner',mine] at after
    rw [commitInactive ready there stopped] at after
    contradiction
  | committed calling context work returned owner known goes => exact calm
  | putFailed calling context work done =>
    rw [event] at context
    cases context
    exact answered task _ rfl rfl (returns (failIfActiveCloses managed _ c _)) done
  | postCancelled work done => exact answered task .cancelled rfl rfl nofun done
  | resume work done => exact answered task .returned rfl rfl nofun done

end Apixis.Plugins
