import Apixis.Graph.Answering

/-! The hooks of an interruption: each is a `BlockEventHandler` of its own, whose
lifecycle callbacks await nothing. A block that a hook has claimed with `accept` is
to stay open until somebody completes it. -/
namespace Apixis.Claiming
open Dispatch Interruption

variable {V η : Type}

inductive Action (V η : Type) where
  | world (a : Interruption.Action V η)
  /- A lifecycle callback of a `BlockEventHandler` runs, in the dispatch or in a
  background task; `error` is what its core has raised, if it is told of that. -/
  | told (error : Failure η)
  | taskTold (k : Nat) (error : Failure η)
  /- `close_block`, once the completion of the invocation is done. -/
  | closeBlock
  /- `interrupt()` leaves: its own deadline, or its task is cancelled. -/
  | leave

section Adapter
variable (adapter : η → Bool) (flags : η → Flags)

/- `BlockEventHandler.__init__` sets every callback. -/
def equipped (handler : η) : Flags :=
  if adapter handler then
    {flags handler with onHasError := true, onAccepted := true, onError := true, onCancelled := true}
  else flags handler

def hooks : Interruption.Handler η → Bool
  | .fallback => false
  | .other handler => adapter handler

/- The core of a `BlockEventHandler` awaits the hook, its other callbacks nothing. -/
def lifecycle : Phase → Bool
  | .coreFunc => false
  | _ => true

def atHook (s : Dispatch.State (Interruption.Handler η)) : Bool := match s.pc with
  | .execute i (.calling phase _) => lifecycle phase && (s.chain[i]?).any (hooks adapter)
  | .notifying i => (s.chain[i]?).any (hooks adapter)
  | _ => false

def taskAtHook (s : Dispatch.State (Interruption.Handler η)) (k : Nat) : Bool :=
  (s.backgrounds[k]?).any (fun task => hooks adapter task.handler && match task.pc with
    | .execute (.calling phase _) => lifecycle phase
    | .notifying => true
    | _ => false)

/- Whether an action leaves the lifecycle callbacks of the hooks alone. -/
def apart (s : Dispatch.State (Interruption.Handler η)) : Interruption.Action V η → Bool
  | .dispatch (.callback _) | .dispatch .notified => !atHook adapter s
  | .dispatch (.backgroundCallback k _) | .dispatch (.backgroundEnd k) => !taskAtHook adapter s k
  | _ => true

def tell (block : Block V η) (errors : List (Interruption.Handler η × Phase)) (error : Failure η) :
    Phase → Block V η
  | .onHasError => onHasError block errors
  | .onAccepted => onAccepted block
  | .onError => onFailure block error
  | .coreFunc => block

end Adapter

/- The invocation that waits for the block goes on. -/
def Open (graphs : NodeGraph.World V) (c : Nat) : Prop :=
  ∃ context, graphs.contexts[c]? = some context ∧ context.isActive = true ∧
    context.completion = some .pending

section Step
variable (copyable : V → Bool) (adapter : η → Bool) (flags : η → Flags) (name : η → String)
  (nameSpace : String) (g c : Nat)

def step (w : Interruption.World V η) : Action V η → Option (Interruption.World V η)
  | .world a =>
      if apart adapter w.dispatch a then
        Interruption.step copyable (equipped adapter flags) name nameSpace g w a
      else none
  | .told error =>
      if !atHook adapter w.dispatch then none
      else match w.dispatch.pc with
        | .execute _ (.calling phase _) => do
            let dispatch ← Dispatch.step (Handler.flags (equipped adapter flags)) w.dispatch
              (.callback .returned)
            some {w with
              dispatch := dispatch
              block := tell w.block w.dispatch.event.errorStack error phase}
        | _ => do
            let dispatch ← Dispatch.step (Handler.flags (equipped adapter flags)) w.dispatch .notified
            some {w with dispatch := dispatch, block := onCancelled w.block}
  | .taskTold k error =>
      if !taskAtHook adapter w.dispatch k then none
      else do
        let task ← w.dispatch.backgrounds[k]?
        match task.pc with
        | .execute (.calling phase _) => do
            let dispatch ← Dispatch.step (Handler.flags (equipped adapter flags)) w.dispatch
              (.backgroundCallback k .returned)
            some {w with
              dispatch := dispatch
              block := tell w.block w.dispatch.event.errorStack error phase}
        | _ => do
            let dispatch ← Dispatch.step (Handler.flags (equipped adapter flags)) w.dispatch
              (.backgroundEnd k)
            some {w with dispatch := dispatch, block := onCancelled w.block}
  | .closeBlock => do
      let context ← w.graphs.contexts[c]?
      let completion ← context.completion
      if completion.done then some {w with block := w.block.cancel} else none
  | .leave => some {w with block := w.block.cancel}

/- The core of the fallback handler finds nothing to raise, when it is its turn. -/
def accepts (w : Interruption.World V η) : Bool := match w.dispatch.pc with
  | .execute _ (.calling phase _) => match called name nameSpace g w phase with
      | some (outcomes,_) => !outcomes.contains .raised
      | none => true
  | _ => true

/- No foreground handler fails, nothing of the dispatch is cancelled, and nobody
completes the block. -/
def Unharmed (w : Interruption.World V η) : Action V η → Bool
  | .world (.dispatch .kill) => false
  | .world (.dispatch (.callback outcome)) => outcome == .returned
  | .world .fallback => accepts name nameSpace g w
  | .world (.block operation) => match operation with
      | .accept => true
      | _ => false
  | .leave => false
  | _ => true

def told (adapter : η → Bool) : Interruption.Handler η → Bool
  | .fallback => true
  | .other handler => adapter handler

/- No `BlockEventHandler` comes to its acceptance check while the event is accepted,
and none that runs in the background fails or is cancelled. -/
def Unannounced (w : Interruption.World V η) : Action V η → Bool
  | .world (.dispatch .gate) => match w.dispatch.pc with
      | .execute i _ => !(w.dispatch.event.accepted && (w.dispatch.chain[i]?).any (told adapter))
      | _ => true
  | .world (.dispatch (.backgroundGate k)) =>
      !(w.dispatch.event.accepted &&
        (w.dispatch.backgrounds[k]?).any (fun task => hooks adapter task.handler))
  | .world (.dispatch (.backgroundCallback k outcome)) =>
      outcome == .returned || !(w.dispatch.backgrounds[k]?).any (fun task => hooks adapter task.handler)
  | _ => true

end Step

/- Inside `execute`, and with no lifecycle callback called. -/
def InCore : ExecutePc → Prop
  | .gate => True
  | .calling phase _ => phase = .coreFunc

def TaskInCore : BackgroundPc → Prop
  | .execute pc => InCore pc
  | .notifying => False
  | _ => True

def NextInCore : Next → Prop
  | .go pc => InCore pc
  | .finished => True
  | .cancelled => False

/- No error is recorded and no `BlockEventHandler` has been told of anything. -/
structure Calm (adapter : η → Bool) (s : Dispatch.State (Interruption.Handler η)) : Prop where
  clear : s.event.errorStack = []
  place : match s.pc with
    | .execute i pc => ∀ handler, s.chain[i]? = some handler → told adapter handler = true → InCore pc
    | .cleanup _ | .notifying _ | .cancelled => False
    | _ => True
  tasks : ∀ (k : Nat) task, s.backgrounds[k]? = some task → hooks adapter task.handler = true →
    TaskInCore task.pc

/- The conditions on an action, as far as the dispatch sees it. -/
def Permitted (adapter : η → Bool) (s : Dispatch.State (Interruption.Handler η)) :
    Dispatch.Action → Prop
  | .kill => False
  | .callback outcome => outcome = .returned
  | .gate => ∀ i pc handler, s.pc = .execute i pc → s.chain[i]? = some handler →
      told adapter handler = true → s.event.accepted = false
  | .backgroundGate k => ∀ task, s.backgrounds[k]? = some task → hooks adapter task.handler = true →
      s.event.accepted = false
  | .backgroundCallback k outcome => outcome = .returned ∨
      ∀ task, s.backgrounds[k]? = some task → hooks adapter task.handler = false
  | _ => True

section Dispatch
variable {adapter : η → Bool} {flags : Interruption.Handler η → Flags}
  {s t : Dispatch.State (Interruption.Handler η)} {a : Dispatch.Action}
  {event after : Event (Interruption.Handler η)} {handler : Interruption.Handler η} {next : Next} {k : Nat}
  {task : Background (Interruption.Handler η)}

theorem enterInCore {options : Flags} (clear : event.errorStack = []) : enter options event = .gate := by
  have none_ : event.hasError = false := by simp [Event.hasError,clear]
  simp [enter,none_]

theorem passNext {options : Flags} (passed : Dispatch.pass options handler event = (next,after)) :
    next ≠ .cancelled := by
  unfold Dispatch.pass at passed
  split at passed
  · cases passed
    split <;> exact fun at_ => by cases at_
  · split at passed <;> (cases passed; exact fun at_ => by cases at_)

theorem passInCore {options : Flags} (open_ : event.accepted = false)
    (passed : Dispatch.pass options handler event = (next,after)) : NextInCore next := by
  unfold Dispatch.pass at passed
  simp only [open_,Bool.false_eq_true,if_false] at passed
  split at passed
  · cases passed
    trivial
  · cases passed
    exact rfl

theorem returnedInCore {options : Flags} {background : Bool} {phase : Phase} {parent : Option Phase}
    (settled : settle options background handler event phase parent .returned = (next,after)) :
    NextInCore next ∧ after = event := by
  cases settled
  refine ⟨?_,rfl⟩
  cases parent.getD phase <;> trivial

theorem calmForeground (calm : Calm adapter s) {i : Nat} (found : s.chain[i]? = some handler)
    (errors : event.errorStack = []) (whole : next ≠ .cancelled)
    (core : told adapter handler = true → NextInCore next) (uses : List (Use (Interruption.Handler η))) :
    Calm adapter ({s with pc := next.foreground i, event := event}.note uses) := by
  refine ⟨errors,?_,calm.tasks⟩
  cases next with
  | go pc =>
    intro other there member
    cases Option.some.inj (found.symm.trans there)
    exact core member
  | finished => trivial
  | cancelled => exact absurd rfl whole

theorem calmTask (calm : Calm adapter s) (pc : BackgroundPc)
    (core : hooks adapter task.handler = true → TaskInCore pc) : Calm adapter (s.setBackground k task pc) := by
  refine ⟨calm.clear,calm.place,?_⟩
  intro l other there member
  rcases Slots.setCases there with ⟨_,rfl⟩ | ⟨_,old⟩
  · exact core member
  · exact calm.tasks l other old member

theorem calmNote (calm : Calm adapter s) (uses : List (Use (Interruption.Handler η))) :
    Calm adapter (s.note uses) := ⟨calm.clear,calm.place,calm.tasks⟩

theorem calmEvent (calm : Calm adapter s) (errors : event.errorStack = []) :
    Calm adapter {s with event := event} := ⟨errors,calm.place,calm.tasks⟩

theorem calmBackground (calm : Calm adapter s) (options : Flags)
    (core : hooks adapter task.handler = true → NextInCore next) :
    Calm adapter (s.backgroundNext options k task next) := by
  cases next with
  | go pc => exact calmNote (calmTask calm (.execute pc) core) _
  | finished => exact calmTask calm .ended (fun _ => trivial)
  | cancelled =>
    simp only [State.backgroundNext]
    split
    · exact calmNote (calmTask calm .notifying core) _
    · exact calmTask calm .ended (fun _ => trivial)

theorem calmStep (calm : Calm adapter s) (permitted : Permitted adapter s a)
    (taken : Dispatch.Step flags s a t) : Calm adapter t := by
  have place := calm.place
  cases taken with
  | begin pc => exact ⟨calm.clear,trivial,calm.tasks⟩
  | kill pc => exact permitted.elim
  | finish pc past => exact ⟨calm.clear,trivial,calm.tasks⟩
  | hand pc found background =>
    refine ⟨calm.clear,trivial,?_⟩
    intro l other there member
    rcases Slots.appendCases there with ⟨_,rfl⟩ | old
    · trivial
    · exact calm.tasks l other old member
  | enter pc found foreground =>
    refine ⟨calm.clear,?_,calm.tasks⟩
    intro other there member
    rw [enterInCore calm.clear]
    trivial
  | gate pc found passed =>
    refine calmForeground calm found ((passErrors passed).trans calm.clear) (passNext passed) ?_ _
    intro member
    exact passInCore (permitted _ _ _ pc found member) passed
  | callback pc found settled =>
    obtain rfl := permitted
    obtain ⟨core,rfl⟩ := returnedInCore settled
    refine calmForeground calm found calm.clear ?_ (fun _ => core) _
    rintro rfl
    exact core
  | cleaned pc past => rw [pc] at place; exact place.elim
  | notify pc found foreground hook => rw [pc] at place; exact place.elim
  | skip pc found silent => rw [pc] at place; exact place.elim
  | notified pc => rw [pc] at place; exact place.elim
  | accept => exact ⟨calm.clear,calm.place,calm.tasks⟩
  | backgroundBegin found pc =>
    rw [enterInCore calm.clear]
    exact calmBackground calm _ (fun _ => trivial)
  | backgroundGate found pc passed =>
    refine calmBackground (calmEvent calm ((passErrors passed).trans calm.clear)) _ ?_
    intro member
    exact passInCore (permitted _ found member) passed
  | backgroundCallback found pc settled =>
    obtain rfl := settleEvent settled
    refine calmBackground (calmEvent calm calm.clear) _ ?_
    intro member
    rcases permitted with rfl | apart
    · exact (returnedInCore settled).1
    · rw [apart _ found] at member
      cases member
  | backgroundEnd found pc => exact calmTask calm .ended (fun _ => trivial)

theorem hookTold (hook : hooks adapter handler = true) : told adapter handler = true := by
  cases handler with
  | fallback => rfl
  | other handler => exact hook

theorem atHookCalm (calm : Calm adapter s) : atHook adapter s = false := by
  have place := calm.place
  rw [Bool.eq_false_iff]
  intro at_
  unfold atHook at at_
  split at at_
  · rename_i i phase parent pc
    simp only [Bool.and_eq_true,Option.any_eq_true] at at_
    obtain ⟨own,handler,found,hook⟩ := at_
    rw [pc] at place
    cases place handler found (hookTold hook)
    cases own
  · rename_i i pc
    rw [pc] at place
    exact place
  · cases at_

theorem taskAtHookCalm (calm : Calm adapter s) (k : Nat) : taskAtHook adapter s k = false := by
  rw [Bool.eq_false_iff]
  intro at_
  unfold taskAtHook at at_
  simp only [Option.any_eq_true,Bool.and_eq_true] at at_
  obtain ⟨task,found,hook,own⟩ := at_
  have core := calm.tasks k task found hook
  cases pc : task.pc with
  | created => rw [pc] at own; cases own
  | ended => rw [pc] at own; cases own
  | notifying => rw [pc] at core; exact core
  | execute pc_ =>
    rw [pc] at core own
    cases pc_ with
    | gate => cases own
    | calling phase parent =>
      cases core
      cases own

end Dispatch

section Run
variable {copyable : V → Bool} {adapter : η → Bool} {flags : η → Flags} {name : η → String}
  {nameSpace : String} {g c : Nat} {w t : Interruption.World V η} {a : Action V η}

theorem permittedDispatch {b : Dispatch.Action}
    (unharmed : Unharmed name nameSpace g w (.world (.dispatch b)) = true)
    (unannounced : Unannounced adapter w (.world (.dispatch b)) = true) :
    Permitted adapter w.dispatch b := by
  cases b with
  | kill => cases unharmed
  | callback outcome =>
    simp only [Unharmed,beq_iff_eq] at unharmed
    exact unharmed
  | gate =>
    intro i pc handler at_ found member
    simp only [Unannounced,at_,found,Option.any_some,member,Bool.and_true,Bool.not_eq_true'] at unannounced
    exact unannounced
  | backgroundGate k =>
    intro task found member
    simp only [Unannounced,found,Option.any_some,member,Bool.and_true,Bool.not_eq_true'] at unannounced
    exact unannounced
  | backgroundCallback k outcome =>
    simp only [Unannounced,Bool.or_eq_true,beq_iff_eq,Bool.not_eq_true'] at unannounced
    refine unannounced.imp_right ?_
    intro others task found
    rw [found] at others
    exact others
  | begin => trivial
  | visit => trivial
  | cleanup => trivial
  | notified => trivial
  | accept => trivial
  | backgroundBegin k => trivial
  | backgroundEnd k => trivial

theorem fallbackCalm (calm : Calm adapter w.dispatch) (kind : accepts name nameSpace g w = true)
    (taken : Interruption.step copyable flags name nameSpace g w .fallback = some t) :
    Calm adapter t.dispatch ∧ t.block = w.block ∧ t.graphs = w.graphs := by
  have place := calm.place
  simp only [Interruption.step] at taken
  split at taken <;> try contradiction
  rename_i at_
  split at taken
  · rename_i i phase parent pc
    obtain ⟨⟨outcomes,block⟩,call,rest⟩ := Option.bind_eq_some_iff.mp taken
    obtain ⟨dispatch,ran,last⟩ := Option.bind_eq_some_iff.mp rest
    cases Option.some.inj last
    have own : w.dispatch.chain[i]? = some .fallback := by
      simp only [atFallback,pc,Bool.not_eq_true',Bool.not_eq_false] at at_
      split at at_
      · assumption
      · cases at_
    rw [pc] at place
    have core : phase = .coreFunc := place .fallback own rfl
    subst core
    simp only [accepts,pc,call,Bool.not_eq_true'] at kind
    simp only [called] at call
    split at call
    · cases call
      obtain ⟨m,first,done⟩ := Machine.runCons.mp ran
      cases Option.some.inj done
      exact ⟨calmStep (a := .callback .returned) calm rfl (Dispatch.stepCases first),rfl,rfl⟩
    · cases call
      cases kind
  · rename_i other
    unfold atFallback at at_
    cases pc : w.dispatch.pc with
    | execute i inner =>
      rw [pc] at at_
      cases inner with
      | gate => cases at_ rfl
      | calling phase parent => exact absurd pc (other i phase parent)
    | notifying i => rw [pc] at place; exact place.elim
    | created => rw [pc] at at_; cases at_ rfl
    | visit i => rw [pc] at at_; cases at_ rfl
    | cleanup i => rw [pc] at at_; cases at_ rfl
    | returned => rw [pc] at at_; cases at_ rfl
    | cancelled => rw [pc] at at_; cases at_ rfl

/- The block of the context `c`, claimed or not: while the invocation goes on it is
pending. -/
structure Kept (adapter : η → Bool) (c : Nat) (w : Interruption.World V η) : Prop where
  managed : Lifecycle.Managed w.graphs
  emitter : Answering.Emitter w.graphs c w.block
  calm : Calm adapter w.dispatch
  pending : Open w.graphs c → w.block.future = .pending

theorem openBefore {graphs after : NodeGraph.World V} {block : Block V η}
    (managed : Lifecycle.Managed graphs) (emitter : Answering.Emitter graphs c block)
    (persists : Lifecycle.Persists graphs after) (open_ : Open after c) : Open graphs c := by
  obtain ⟨y,there,active,waits⟩ := open_
  have emits := emitter
  obtain ⟨x,found,_⟩ := emits
  obtain ⟨y',there',goes⟩ := persists c x found
  cases Option.some.inj (there.symm.trans there')
  have active_ : x.isActive = true := by
    by_contra inactive
    have before : ∀ context, graphs.contexts[c]? = some context → context.isActive = false := by
      intro context here
      cases Option.some.inj (found.symm.trans here)
      exact Bool.eq_false_iff.mpr inactive
    have after_ := Answering.endedPersists managed emitter persists before y there
    rw [active] at after_
    cases after_
  have running : x.status = .running := eq_of_beq active_
  have shaped := managed.shaped c x found
  unfold Lifecycle.Shaped at shaped
  rw [running] at shaped
  obtain ⟨f,completion⟩ := Option.isSome_iff_exists.mp shaped.2.1
  refine ⟨x,found,active_,?_⟩
  cases f with
  | pending => exact completion
  | result state => cases waits.symm.trans (goes.completion _ completion rfl)
  | exception error => cases waits.symm.trans (goes.completion _ completion rfl)
  | cancelled => cases waits.symm.trans (goes.completion _ completion rfl)

theorem stepKept (unharmed : Unharmed name nameSpace g w a = true) (unannounced : Unannounced adapter w a = true)
    (kept : Kept adapter c w) (taken : step copyable adapter flags name nameSpace g c w a = some t) :
    Kept adapter c t := by
  cases a with
  | world b =>
    simp only [step] at taken
    split at taken <;> try contradiction
    cases b with
    | dispatch d =>
      simp only [Interruption.step] at taken
      split at taken <;> try contradiction
      obtain ⟨dispatch,moved,last⟩ := Option.bind_eq_some_iff.mp taken
      cases Option.some.inj last
      have permitted := permittedDispatch unharmed unannounced
      exact ⟨kept.managed,kept.emitter,calmStep kept.calm permitted (Dispatch.stepCases moved),kept.pending⟩
    | fallback =>
      obtain ⟨calm,block,graphs⟩ := fallbackCalm kept.calm unharmed taken
      refine ⟨by rw [graphs]; exact kept.managed,by rw [graphs,block]; exact kept.emitter,calm,?_⟩
      rw [graphs,block]
      exact kept.pending
    | block operation =>
      cases Option.some.inj taken
      cases operation with
      | accept => exact ⟨kept.managed,kept.emitter,kept.calm,kept.pending⟩
      | resolve result => cases unharmed
      | fail error => cases unharmed
      | cancel => cases unharmed
    | graph b =>
      obtain ⟨graphs,moved,last⟩ := Option.bind_eq_some_iff.mp taken
      cases Option.some.inj last
      obtain ⟨managed,persists⟩ := Lifecycle.stepManaged kept.managed moved
      refine ⟨managed,Answering.emitterPersists kept.emitter persists,kept.calm,?_⟩
      intro open_
      exact kept.pending (openBefore kept.managed kept.emitter persists open_)
  | told error =>
    simp only [step,atHookCalm kept.calm] at taken
    cases taken
  | taskTold k error =>
    simp only [step,taskAtHookCalm kept.calm] at taken
    cases taken
  | closeBlock =>
    obtain ⟨context,found,rest⟩ := Option.bind_eq_some_iff.mp taken
    obtain ⟨completion,holds,last⟩ := Option.bind_eq_some_iff.mp rest
    split at last <;> try contradiction
    rename_i done
    cases Option.some.inj last
    have keeps : Answering.Keeps w.block w.block.cancel := Answering.keepsSettle .cancelled
    refine ⟨kept.managed,Answering.emitterKeeps kept.emitter keeps,kept.calm,?_⟩
    rintro ⟨other,there,_,waits⟩
    cases Option.some.inj (found.symm.trans there)
    cases Option.some.inj (holds.symm.trans waits)
    cases done
  | leave => cases unharmed

theorem equippedFlags {handler : Interruption.Handler η} (member : told adapter handler = true) :
    (Handler.flags (equipped adapter flags) handler).onAccepted = true ∧
      (Handler.flags (equipped adapter flags) handler).onError = true ∧
      (Handler.flags (equipped adapter flags) handler).onCancelled = true := by
  cases handler with
  | fallback => exact ⟨rfl,rfl,rfl⟩
  | other handler =>
    have hook : adapter handler = true := member
    simp only [Handler.flags,equipped,hook,if_true,and_self]

theorem tellDone (block : Block V η) (errors : List (Interruption.Handler η × Phase)) (error : Failure η)
    {phase : Phase} (own : lifecycle phase = true) : (tell block errors error phase).done = true := by
  cases phase with
  | coreFunc => cases own
  | onHasError => exact Answering.failDone _ _
  | onAccepted => exact Answering.acceptedDone block
  | onError => exact Answering.failDone _ _

theorem toldDone {i : Nat} {phase : Phase} {handler : η} (error : Failure η)
    (pc : w.dispatch.pc = .execute i (.calling phase none))
    (found : w.dispatch.chain[i]? = some (.other handler)) (hook : adapter handler = true)
    (own : lifecycle phase = true) :
    ∃ t, step copyable adapter flags name nameSpace g c w (.told error) = some t ∧ t.block.done = true := by
  have at_ : atHook adapter w.dispatch = true := by
    simp only [atHook,pc,own,found,Option.any_some,hooks,hook,Bool.and_self]
  obtain ⟨d,moved⟩ : ∃ d, Dispatch.step (Handler.flags (equipped adapter flags)) w.dispatch
      (.callback .returned) = some d := by
    simp only [Dispatch.step,pc,found]
    exact ⟨_,rfl⟩
  refine ⟨{w with dispatch := d, block := tell w.block w.dispatch.event.errorStack error phase},?_,
    tellDone w.block w.dispatch.event.errorStack error own⟩
  simp only [step,at_,pc,moved]
  rfl

theorem taskToldDone {k : Nat} {task : Background (Interruption.Handler η)} {phase : Phase}
    {parent : Option Phase} (error : Failure η) (found : w.dispatch.backgrounds[k]? = some task)
    (pc : task.pc = .execute (.calling phase parent)) (hook : hooks adapter task.handler = true)
    (own : lifecycle phase = true) :
    ∃ t, step copyable adapter flags name nameSpace g c w (.taskTold k error) = some t ∧
      t.block.done = true := by
  have at_ : taskAtHook adapter w.dispatch k = true := by
    simp only [taskAtHook,found,Option.any_some,hook,pc,own,Bool.and_self]
  obtain ⟨d,moved⟩ : ∃ d, Dispatch.step (Handler.flags (equipped adapter flags)) w.dispatch
      (.backgroundCallback k .returned) = some d := by
    simp only [Dispatch.step,found,Option.bind_eq_bind,Option.bind_some,pc]
    exact ⟨_,rfl⟩
  refine ⟨{w with dispatch := d, block := tell w.block w.dispatch.event.errorStack error phase},?_,
    tellDone w.block w.dispatch.event.errorStack error own⟩
  simp only [step,at_,found,Option.bind_eq_bind,Option.bind_some,pc,moved]
  rfl

/- A `BlockEventHandler` that finds the event accepted completes the block. -/
theorem gateCompletes {i : Nat} {handler : Interruption.Handler η} (error : Failure η)
    (pc : w.dispatch.pc = .execute i .gate) (found : w.dispatch.chain[i]? = some handler)
    (member : told adapter handler = true) (accepted : w.dispatch.event.accepted = true) :
    ∃ u b t, step copyable adapter flags name nameSpace g c w (.world (.dispatch .gate)) = some u ∧
      step copyable adapter flags name nameSpace g c u b = some t ∧ t.block.done = true := by
  have equips := (@equippedFlags η adapter flags handler member).1
  have passed : Dispatch.pass (Handler.flags (equipped adapter flags) handler) handler w.dispatch.event =
      (.go (.calling .onAccepted none),w.dispatch.event) := by
    simp only [Dispatch.pass,accepted,equips,if_true]
  let d : Dispatch.State (Interruption.Handler η) :=
    ({w.dispatch with pc := .execute i (.calling .onAccepted none)}).note
      ((ExecutePc.calling .onAccepted none).use handler false)
  have first : step copyable adapter flags name nameSpace g c w (.world (.dispatch .gate)) =
      some {w with dispatch := d} := by
    simp only [step,apart,if_true,Interruption.step,isEnd,Bool.false_and,Bool.false_eq_true,if_false,
      Dispatch.step,pc,found,Option.bind_eq_bind,Option.bind_some,passed]
    rfl
  refine ⟨{w with dispatch := d},?_⟩
  cases handler with
  | other handler =>
    obtain ⟨t,last,done⟩ := @toldDone V η copyable adapter flags name nameSpace g c
      {w with dispatch := d} i .onAccepted handler error rfl found member rfl
    exact ⟨.told error,t,first,last,done⟩
  | fallback =>
    have at_ : atFallback d = true := Answering.atPlace found rfl
    obtain ⟨d',moved⟩ : ∃ d', Machine.run (Dispatch.step (Handler.flags (equipped adapter flags))) d
        [.callback .returned] = some d' := by
      simp only [Machine.run,Dispatch.step,d,State.note,found]
      exact ⟨_,rfl⟩
    refine ⟨.world .fallback,{w with dispatch := d', block := onAccepted w.block},first,?_,
      Answering.acceptedDone w.block⟩
    simp only [step,apart,if_true,Interruption.step,at_,Bool.not_true,Bool.false_eq_true,if_false]
    simp only [d,State.note,called] at moved ⊢
    simp only [Option.bind_eq_bind,Option.bind_some,List.map_cons,List.map_nil,moved]

theorem backgroundGateCompletes {k : Nat} {task : Background (Interruption.Handler η)} (error : Failure η)
    (found : w.dispatch.backgrounds[k]? = some task) (pc : task.pc = .execute .gate)
    (hook : hooks adapter task.handler = true) (accepted : w.dispatch.event.accepted = true) :
    ∃ u b t, step copyable adapter flags name nameSpace g c w (.world (.dispatch (.backgroundGate k))) =
        some u ∧
      step copyable adapter flags name nameSpace g c u b = some t ∧ t.block.done = true := by
  have equips := (@equippedFlags η adapter flags task.handler (hookTold hook)).1
  have passed : Dispatch.pass (Handler.flags (equipped adapter flags) task.handler) task.handler
      w.dispatch.event = (.go (.calling .onAccepted none),w.dispatch.event) := by
    simp only [Dispatch.pass,accepted,equips,if_true]
  let d := (w.dispatch.setBackground k task (.execute (.calling .onAccepted none))).note
    ((ExecutePc.calling .onAccepted none).use task.handler true)
  have first : step copyable adapter flags name nameSpace g c w (.world (.dispatch (.backgroundGate k))) =
      some {w with dispatch := d} := by
    simp only [step,apart,if_true,Interruption.step,isEnd,Bool.false_and,Bool.false_eq_true,if_false,
      Dispatch.step,pc,found,Option.bind_eq_bind,Option.bind_some,passed]
    rfl
  obtain ⟨t,last,done⟩ := @taskToldDone V η copyable adapter flags name nameSpace g c
    {w with dispatch := d} k {task with pc := .execute (.calling .onAccepted none)} .onAccepted none error
    (Slots.setSame found) rfl hook rfl
  exact ⟨_,.taskTold k error,t,first,last,done⟩

theorem backgroundFailureCompletes {k : Nat} {task : Background (Interruption.Handler η)} {parent : Option Phase}
    (error : Failure η) (found : w.dispatch.backgrounds[k]? = some task)
    (pc : task.pc = .execute (.calling .coreFunc parent)) (hook : hooks adapter task.handler = true) :
    ∃ u b t, step copyable adapter flags name nameSpace g c w
        (.world (.dispatch (.backgroundCallback k .raised))) = some u ∧
      step copyable adapter flags name nameSpace g c u b = some t ∧ t.block.done = true := by
  have equips := (@equippedFlags η adapter flags task.handler (hookTold hook)).2.1
  have at_ : taskAtHook adapter w.dispatch k = false := by
    simp only [taskAtHook,found,Option.any_some,pc,lifecycle,Bool.and_false]
  let d := (w.dispatch.setBackground k task (.execute (.calling .onError (some .coreFunc)))).note
    ((ExecutePc.calling .onError (some .coreFunc)).use task.handler true)
  have first : step copyable adapter flags name nameSpace g c w
      (.world (.dispatch (.backgroundCallback k .raised))) = some {w with dispatch := d} := by
    simp only [step,apart,at_,Bool.not_false,if_true,Interruption.step,isEnd,Bool.false_and,
      Bool.false_eq_true,if_false,Dispatch.step,pc,found,Option.bind_eq_bind,Option.bind_some,settle,equips,
      record]
    rfl
  obtain ⟨t,last,done⟩ := @taskToldDone V η copyable adapter flags name nameSpace g c
    {w with dispatch := d} k {task with pc := .execute (.calling .onError (some .coreFunc))} .onError
    (some .coreFunc) error (Slots.setSame found) rfl hook rfl
  exact ⟨_,.taskTold k error,t,first,last,done⟩

theorem backgroundCancelCompletes {k : Nat} {task : Background (Interruption.Handler η)} {parent : Option Phase}
    (error : Failure η) (found : w.dispatch.backgrounds[k]? = some task)
    (pc : task.pc = .execute (.calling .coreFunc parent)) (hook : hooks adapter task.handler = true) :
    ∃ u b t, step copyable adapter flags name nameSpace g c w
        (.world (.dispatch (.backgroundCallback k .cancelled))) = some u ∧
      step copyable adapter flags name nameSpace g c u b = some t ∧ t.block.done = true := by
  have equips := (@equippedFlags η adapter flags task.handler (hookTold hook)).2.2
  have at_ : taskAtHook adapter w.dispatch k = false := by
    simp only [taskAtHook,found,Option.any_some,pc,lifecycle,Bool.and_false]
  let d := (w.dispatch.setBackground k task .notifying).note [.backgroundCancelled task.handler]
  have first : step copyable adapter flags name nameSpace g c w
      (.world (.dispatch (.backgroundCallback k .cancelled))) = some {w with dispatch := d} := by
    simp only [step,apart,at_,Bool.not_false,if_true,Interruption.step,isEnd,Bool.false_and,
      Bool.false_eq_true,if_false,Dispatch.step,pc,found,Option.bind_eq_bind,Option.bind_some,settle,equips,
      State.backgroundNext]
    rfl
  have there : d.backgrounds[k]? = some {task with pc := .notifying} := Slots.setSame found
  have told_ : taskAtHook adapter d k = true := by
    simp only [taskAtHook,there,Option.any_some,hook,Bool.and_self]
  refine ⟨_,.taskTold k error,{w with
    dispatch := d.setBackground k {task with pc := .notifying} .ended
    block := onCancelled w.block},first,?_,Answering.failDone w.block .cancelledError⟩
  simp only [step,told_,Bool.not_true,Bool.false_eq_true,if_false,there,Option.bind_eq_bind,Option.bind_some,
    Dispatch.step,or_true,if_true]

/- Where the condition breaks, the block is done one step later. -/
theorem announcedCompletes {a : Action V η} {u : Interruption.World V η}
    (taken : step copyable adapter flags name nameSpace g c w a = some u) (heard : Unannounced adapter w a = false) :
    ∃ b v, step copyable adapter flags name nameSpace g c u b = some v ∧ v.block.done = true := by
  have lands : (∃ u' b v, step copyable adapter flags name nameSpace g c w a = some u' ∧
      step copyable adapter flags name nameSpace g c u' b = some v ∧ v.block.done = true) →
      ∃ b v, step copyable adapter flags name nameSpace g c u b = some v ∧ v.block.done = true := by
    rintro ⟨u',b,v,first,second,done⟩
    cases Option.some.inj (taken.symm.trans first)
    exact ⟨b,v,second,done⟩
  refine lands ?_
  unfold Unannounced at heard
  split at heard
  · split at heard
    · rename_i i inner pc
      simp only [Bool.not_eq_false',Bool.and_eq_true,Option.any_eq_true] at heard
      obtain ⟨accepted,handler,found,member⟩ := heard
      cases inner with
      | gate => exact gateCompletes .cancelledError pc found member accepted
      | calling phase parent => simp [step,apart,Interruption.step,isEnd,Dispatch.step,pc] at taken
    · cases heard
  · rename_i k
    simp only [Bool.not_eq_false',Bool.and_eq_true,Option.any_eq_true] at heard
    obtain ⟨accepted,task,found,hook⟩ := heard
    have pc : task.pc = .execute .gate := by
      cases at_ : task.pc with
      | execute inner =>
        cases inner with
        | gate => rfl
        | calling phase parent => simp [step,apart,Interruption.step,isEnd,Dispatch.step,found,at_] at taken
      | _ => simp [step,apart,Interruption.step,isEnd,Dispatch.step,found,at_] at taken
    exact backgroundGateCompletes .cancelledError found pc hook accepted
  · rename_i k outcome
    simp only [Bool.or_eq_false_iff,Bool.not_eq_false',Option.any_eq_true,beq_eq_false_iff_ne] at heard
    obtain ⟨fails,task,found,hook⟩ := heard
    -- a lifecycle callback is not ended from outside, so this is the core
    obtain ⟨parent,pc⟩ : ∃ parent, task.pc = .execute (.calling .coreFunc parent) := by
      cases at_ : task.pc with
      | execute inner =>
        cases inner with
        | gate => simp [step,Interruption.step,isEnd,Dispatch.step,found,at_] at taken
        | calling phase parent =>
          cases phase with
          | coreFunc => exact ⟨parent,rfl⟩
          | _ => simp [step,apart,taskAtHook,found,hook,at_,lifecycle] at taken
      | _ => simp [step,Interruption.step,isEnd,Dispatch.step,found,at_] at taken
    cases outcome with
    | returned => exact absurd rfl fails
    | raised => exact backgroundFailureCompletes .cancelledError found pc hook
    | cancelled => exact backgroundCancelCompletes .cancelledError found pc hook
  · cases heard

/- While nobody completes it and nothing fails, a block stays pending for as long as
its invocation goes on, if no `BlockEventHandler` finds the event accepted; one that does
completes it with its next step. -/
theorem claimStays {before : List (NodeGraph.Action V)} {graphs : NodeGraph.World V} {block : Block V η}
    {chain : List (Interruption.Handler η)} {r : List (Action V η)}
    (lived : Machine.run (NodeGraph.step copyable) NodeGraph.initial before = some graphs)
    (raised : interrupt graphs c = some block)
    (ran : Machine.run (step copyable adapter flags name nameSpace block.graphId c)
      (emitted graphs block chain) r = some t)
    (unharmed : Machine.Steps (step copyable adapter flags name nameSpace block.graphId c)
      (fun w a => Unharmed name nameSpace block.graphId w a = true) (emitted graphs block chain) r)
    (unannounced : Machine.Steps (step copyable adapter flags name nameSpace block.graphId c)
      (fun w a => Unannounced adapter w a = true) (emitted graphs block chain) r)
    (active : Open t.graphs c) : t.block.future = .pending ∧
      ∀ (w u : Interruption.World V η) (a : Action V η),
        step copyable adapter flags name nameSpace block.graphId c w a = some u → Unannounced adapter w a = false →
        ∃ b v, step copyable adapter flags name nameSpace block.graphId c u b = some v ∧ v.block.done = true := by
  have fresh : block.future = .pending := by
    obtain ⟨context,_,rest⟩ := Option.bind_eq_some_iff.mp raised
    split at rest <;> try contradiction
    obtain ⟨runId,_,rest⟩ := Option.bind_eq_some_iff.mp rest
    obtain ⟨completion,_,last⟩ := Option.bind_eq_some_iff.mp rest
    cases Option.some.inj last
    rfl
  have start : Kept adapter c (emitted graphs block chain) :=
    ⟨Lifecycle.runManaged lived,Answering.interruptEmits raised,⟨rfl,trivial,by simp [emitted,Dispatch.initial]⟩,
      fun _ => fresh⟩
  have both := Machine.stepsAnd unharmed unannounced
  have kept : Kept adapter c t := Machine.invariantSteps
    (fun _ _ _ met kept taken => stepKept met.1 met.2 kept taken) both start ran
  exact ⟨kept.pending active,fun _ _ _ taken heard => announcedCompletes taken heard⟩

theorem tellPerforms (block : Block V η) (errors : List (Interruption.Handler η × Phase))
    (error : Failure η) {phase : Phase} (own : lifecycle phase = true) :
    ∃ operation, tell block errors error phase = block.perform operation := by
  cases phase with
  | coreFunc => cases own
  | onHasError => exact ⟨.fail _,rfl⟩
  | onError => exact ⟨.fail error,rfl⟩
  | onAccepted =>
    refine ⟨.cancel,?_⟩
    simp only [tell,onAccepted,Block.perform,Block.cancel,Block.settle]
    cases block.done <;> rfl

theorem hookApart {i : Nat} (hook : (w.dispatch.chain[i]?).any (hooks adapter) = true) :
    ∃ handler, w.dispatch.chain[i]? = some (.other handler) := by
  simp only [Option.any_eq_true] at hook
  obtain ⟨handler,found,member⟩ := hook
  cases handler with
  | fallback => cases member
  | other handler => exact ⟨handler,found⟩

theorem performThen (operation : Operation V η) {b : Dispatch.Action}
    {d : Dispatch.State (Interruption.Handler η)} (theirs : (isEnd b && atFallback w.dispatch) = false)
    (moved : Dispatch.step (Handler.flags flags) w.dispatch b = some d) :
    Machine.run (Interruption.step copyable flags name nameSpace g) w [.block operation,.dispatch b] =
      some {w with dispatch := d, block := w.block.perform operation} := by
  simp only [Machine.run,Interruption.step,theirs,Bool.false_eq_true,if_false,moved,
    Option.bind_eq_bind,Option.bind_some]

/- Every step is one of the interruption's own machine, or an operation on the block
beside it. -/
theorem stepInterruption (taken : step copyable adapter flags name nameSpace g c w a = some t)
    (begun : a ≠ .world (.dispatch .kill)) :
    ∃ bs, Machine.run (Interruption.step copyable (equipped adapter flags) name nameSpace g) w bs = some t ∧
      .dispatch .kill ∉ bs := by
  cases a with
  | world b =>
    simp only [step] at taken
    split at taken <;> try contradiction
    refine ⟨[b],Machine.runCons.mpr ⟨t,taken,rfl⟩,?_⟩
    intro member
    cases List.mem_singleton.mp member
    exact begun rfl
  | told error =>
    simp only [step] at taken
    split at taken <;> try contradiction
    rename_i at_
    unfold atHook at at_
    split at taken
    · rename_i i phase parent pc
      obtain ⟨d,moved,last⟩ := Option.bind_eq_some_iff.mp taken
      cases Option.some.inj last
      simp only [pc,Bool.not_eq_true',Bool.not_eq_false,Bool.and_eq_true] at at_
      obtain ⟨handler,found⟩ := hookApart at_.2
      obtain ⟨operation,same⟩ := tellPerforms w.block w.dispatch.event.errorStack error at_.1
      have theirs : atFallback w.dispatch = false := by simp only [atFallback,pc,found]
      rw [same]
      exact ⟨_,performThen operation (by rw [theirs,Bool.and_false]) moved,by simp⟩
    · rename_i other
      obtain ⟨d,moved,last⟩ := Option.bind_eq_some_iff.mp taken
      cases Option.some.inj last
      have theirs : atFallback w.dispatch = false := by
        cases pc : w.dispatch.pc with
        | notifying i =>
          simp only [pc,Bool.not_eq_true',Bool.not_eq_false] at at_
          obtain ⟨handler,found⟩ := hookApart at_
          simp only [atFallback,pc,found]
        | execute i inner =>
          cases inner with
          | gate => simp only [atFallback,pc]
          | calling phase parent => exact absurd pc (other i phase parent)
        | _ => simp only [atFallback,pc]
      exact ⟨_,performThen (.fail .cancelledError) (by rw [theirs,Bool.and_false]) moved,by simp⟩
  | taskTold k error =>
    simp only [step] at taken
    split at taken <;> try contradiction
    rename_i at_
    obtain ⟨task,found,rest⟩ := Option.bind_eq_some_iff.mp taken
    split at rest
    · rename_i phase parent pc
      obtain ⟨d,moved,last⟩ := Option.bind_eq_some_iff.mp rest
      cases Option.some.inj last
      simp only [taskAtHook,found,Option.any_some,pc,Bool.not_eq_true',Bool.not_eq_false,Bool.and_eq_true] at at_
      obtain ⟨operation,same⟩ := tellPerforms w.block w.dispatch.event.errorStack error at_.2
      rw [same]
      exact ⟨_,performThen operation rfl moved,by simp⟩
    · obtain ⟨d,moved,last⟩ := Option.bind_eq_some_iff.mp rest
      cases Option.some.inj last
      exact ⟨_,performThen (.fail .cancelledError) rfl moved,by simp⟩
  | closeBlock =>
    obtain ⟨context,_,rest⟩ := Option.bind_eq_some_iff.mp taken
    obtain ⟨completion,_,last⟩ := Option.bind_eq_some_iff.mp rest
    split at last <;> try contradiction
    cases Option.some.inj last
    exact ⟨[.block .cancel],rfl,by simp⟩
  | leave =>
    cases Option.some.inj taken
    exact ⟨[.block .cancel],rfl,by simp⟩

theorem runInterruption {r : List (Action V η)}
    (ran : Machine.run (step copyable adapter flags name nameSpace g c) w r = some t)
    (begun : .world (.dispatch .kill) ∉ r) :
    ∃ bs, Machine.run (Interruption.step copyable (equipped adapter flags) name nameSpace g) w bs = some t ∧
      .dispatch .kill ∉ bs := by
  induction r generalizing w with
  | nil =>
    cases Option.some.inj ran
    exact ⟨[],rfl,List.not_mem_nil⟩
  | cons a rest ih =>
    obtain ⟨m,first,last⟩ := Machine.runCons.mp ran
    have own : a ≠ .world (.dispatch .kill) := by
      rintro rfl
      exact begun List.mem_cons_self
    obtain ⟨bs,here,clean⟩ := stepInterruption first own
    obtain ⟨cs,there,spotless⟩ := ih last (fun member => begun (List.mem_cons_of_mem _ member))
    refine ⟨bs ++ cs,Machine.runAppend.mpr ⟨m,here,there⟩,?_⟩
    intro member
    rcases List.mem_append.mp member with first | second
    · exact clean first
    · exact spotless second

end Run

/- A hook, a handler that sees the event itself, and the fallback handler. -/
def listeners : List (Interruption.Handler Nat) := [.other 0,.other 1,.fallback]

def stepHooks : Interruption.World Nat Nat → Action Nat Nat → Option (Interruption.World Nat Nat) :=
  step (fun _ => true) (fun handler => handler == 0) Answering.plain (fun _ => "hook") "flow" 0 0

def claimed : List (Action Nat Nat) :=
  [.world (.dispatch .begin),.world (.dispatch .visit),.world (.dispatch .gate),.world (.block .accept),
    .world (.dispatch (.callback .returned)),.world (.dispatch .visit),.world (.dispatch .gate)]

def leftAlone : List (Action Nat Nat) := claimed ++
  [.world (.dispatch (.callback .returned)),.world (.dispatch .visit),.world (.dispatch .gate),
    .world .fallback,.world (.dispatch .accept),.world (.dispatch .visit)]

def takenOver : List (Action Nat Nat) := claimed ++
  [.world (.dispatch .accept),.world (.dispatch (.callback .returned)),.world (.dispatch .visit),
    .world (.dispatch .gate),.world .fallback,.world (.dispatch .visit)]

def after (r : List (Action Nat Nat)) : Interruption.World Nat Nat :=
  (Machine.run stepHooks (emitted Answering.running Answering.waiting listeners) r).getD
    (emitted Answering.running Answering.waiting [])

theorem runningOpen : Open Answering.running 0 := ⟨_,rfl,rfl,rfl⟩

/- A claimed block is cancelled although nobody has completed it. -/
theorem claimLost :
    Machine.run stepHooks (emitted Answering.running Answering.waiting listeners) takenOver =
      some (after takenOver) ∧
    Machine.Steps stepHooks (fun w a => Unharmed (fun _ : Nat => "hook") "flow" 0 w a = true)
      (emitted Answering.running Answering.waiting listeners) takenOver ∧
    (after takenOver).dispatch.pc = .returned ∧ (after takenOver).block.accepted = true ∧
    Open (after takenOver).graphs 0 ∧ (after takenOver).block.future = .cancelled :=
  ⟨rfl,Machine.stepsOfCheck rfl,rfl,rfl,runningOpen,rfl⟩

theorem claimStaysAlone : (after leftAlone).dispatch.pc = .returned ∧
    (after leftAlone).block.accepted = true ∧ (after leftAlone).block.future = .pending :=
  ⟨rfl,rfl,(@claimStays Nat Nat (fun _ => true) (fun handler => handler == 0) Answering.plain
    (fun _ => "hook") "flow" 0 (after leftAlone) Answering.beginning Answering.running Answering.waiting
    listeners leftAlone rfl rfl rfl (Machine.stepsOfCheck rfl) (Machine.stepsOfCheck rfl) runningOpen).1⟩

end Apixis.Claiming
