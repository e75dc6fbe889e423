import Apixis.Library.Machine
import Apixis.Library.Slots

/-! One dispatch of one event: `_dispatch_event`, `ApixEventHandler.execute`,
`_execute_func`, `notify_cancelled` and the background tasks it creates. An
action is at most what the task runs between two awaits; where it is less, the
machine only has more interleavings. How a callback ends is chosen by the action:
a timeout is an ordinary exception, a cancellation one that passed through it. -/
namespace Apixis.Dispatch

inductive Phase where
  | coreFunc
  | onHasError
  | onAccepted
  | onError
  deriving DecidableEq, Repr

/- What an instance is asked for while it is used: its execution options and
which of its optional callbacks are set. -/
structure Flags where
  background : Bool
  stopWhenError : Bool
  onHasError : Bool
  onAccepted : Bool
  onError : Bool
  onCancelled : Bool
  deriving DecidableEq, Repr

inductive Outcome where
  | returned
  | raised
  | cancelled
  deriving DecidableEq, Repr

variable {η : Type}

/- The mutable part of `ApixEvent`; a record of the error stack keeps the handler
and the phase. -/
structure Event (η : Type) where
  accepted : Bool
  seen : List η
  errorStack : List (η × Phase)
  deriving DecidableEq, Repr

def Event.new : Event η := ⟨false,[],[]⟩
def Event.hasError (event : Event η) : Bool := !event.errorStack.isEmpty

/- Inside `execute`. `parent` is the phase whose failure `on_error` is told of. -/
inductive ExecutePc where
  | gate
  | calling (phase : Phase) (parent : Option Phase)
  deriving DecidableEq, Repr

inductive Next where
  | go (pc : ExecutePc)
  | finished
  | cancelled
  deriving DecidableEq, Repr

def enter (flags : Flags) (event : Event η) : ExecutePc :=
  if event.hasError && flags.onHasError then .calling .onHasError none else .gate

def pass (flags : Flags) (handler : η) (event : Event η) : Next × Event η :=
  if event.accepted then
    (if flags.onAccepted then .go (.calling .onAccepted none) else .finished,event)
  else if event.hasError && flags.stopWhenError then (.finished,event)
  else (.go (.calling .coreFunc none),{event with seen := event.seen ++ [handler]})

def record (background : Bool) (handler : η) (phase : Phase) (event : Event η) : Event η :=
  if background then event else {event with errorStack := event.errorStack ++ [(handler,phase)]}

def after : Phase → Next
  | .onHasError => .go .gate
  | _ => .finished

def settle (flags : Flags) (background : Bool) (handler : η) (event : Event η) (phase : Phase)
    (parent : Option Phase) : Outcome → Next × Event η
  | .returned => (after (parent.getD phase),event)
  | .raised =>
      (if phase != .onError && flags.onError then .go (.calling .onError (some phase))
        else after (parent.getD phase),record background handler phase event)
  | .cancelled => (.cancelled,record background handler phase event)

theorem passErrors {flags : Flags} {handler : η} {event after : Event η} {next : Next}
    (passed : pass flags handler event = (next,after)) : after.errorStack = event.errorStack := by
  unfold pass at passed
  split at passed
  · cases passed; rfl
  · split at passed
    · cases passed; rfl
    · cases passed; rfl

theorem passAccepted {flags : Flags} {handler : η} {event after : Event η} {next : Next}
    (passed : pass flags handler event = (next,after)) : after.accepted = event.accepted := by
  unfold pass at passed
  split at passed
  · cases passed; rfl
  · split at passed
    · cases passed; rfl
    · cases passed; rfl

theorem settleEvent {flags : Flags} {handler : η} {event after : Event η} {phase : Phase}
    {parent : Option Phase} {outcome : Outcome} {next : Next}
    (settled : settle flags true handler event phase parent outcome = (next,after)) : after = event := by
  cases outcome <;> exact (congrArg Prod.snd settled).symm

inductive Pc where
  | created
  | visit (i : Nat)
  | execute (i : Nat) (pc : ExecutePc)
  /- The notification loop of a cancelled dispatch, and the hook it awaits. -/
  | cleanup (i : Nat)
  | notifying (i : Nat)
  | returned
  | cancelled
  deriving DecidableEq, Repr

inductive BackgroundPc where
  | created
  | execute (pc : ExecutePc)
  | notifying
  | ended
  deriving DecidableEq, Repr

structure Background (η : Type) where
  handler : η
  pc : BackgroundPc
  deriving DecidableEq, Repr

/- One use of a handler instance: the loop reaches it, to execute it or to hand it
to a background task; one of its callbacks is started; the notification loop
reaches it and calls its hook or not; a background task calls its own hook. -/
inductive Use (η : Type) where
  | visit (handler : η) (background : Bool)
  | callback (handler : η) (phase : Phase) (background : Bool)
  | clean (handler : η) (notified : Bool)
  | backgroundCancelled (handler : η)
  deriving DecidableEq, Repr

structure State (η : Type) where
  chain : List η
  pc : Pc
  event : Event η
  backgrounds : List (Background η)
  uses : List (Use η)
  deriving DecidableEq, Repr

def initial (chain : List η) : State η := ⟨chain,.created,.new,[],[]⟩

def Next.foreground (i : Nat) : Next → Pc
  | .go pc => .execute i pc
  | .finished => .visit (i + 1)
  | .cancelled => .cleanup 0

def ExecutePc.use (handler : η) (background : Bool) : ExecutePc → List (Use η)
  | .gate => []
  | .calling phase _ => [.callback handler phase background]

def Next.use (handler : η) (background : Bool) : Next → List (Use η)
  | .go pc => pc.use handler background
  | _ => []

inductive Action where
  /- The task runs for the first time, or is cancelled before it does. -/
  | begin
  | kill
  | visit
  | gate
  | callback (outcome : Outcome)
  | cleanup
  | notified
  /- Whoever holds the event accepts it. -/
  | accept
  | backgroundBegin (k : Nat)
  | backgroundGate (k : Nat)
  | backgroundCallback (k : Nat) (outcome : Outcome)
  /- Cancelled before its first step, or its notification has ended. -/
  | backgroundEnd (k : Nat)
  deriving DecidableEq, Repr

def State.setBackground (s : State η) (k : Nat) (task : Background η) (pc : BackgroundPc) : State η :=
  {s with backgrounds := s.backgrounds.set k {task with pc := pc}}

def State.note (s : State η) (uses : List (Use η)) : State η := {s with uses := s.uses ++ uses}

/- A background task goes on; a cancelled one notifies its own handler only. -/
def State.backgroundNext (s : State η) (flags : Flags) (k : Nat) (task : Background η) : Next → State η
  | .go pc => (s.setBackground k task (.execute pc)).note (pc.use task.handler true)
  | .finished => s.setBackground k task .ended
  | .cancelled =>
      if flags.onCancelled then
        (s.setBackground k task .notifying).note [.backgroundCancelled task.handler]
      else s.setBackground k task .ended

theorem backgroundFixed (s : State η) (flags : Flags) (k : Nat) (task : Background η) (next : Next) :
    (s.backgroundNext flags k task next).pc = s.pc ∧
    (s.backgroundNext flags k task next).chain = s.chain ∧
    (s.backgroundNext flags k task next).event = s.event := by
  cases next with
  | go pc => exact ⟨rfl,rfl,rfl⟩
  | finished => exact ⟨rfl,rfl,rfl⟩
  | cancelled =>
    simp only [State.backgroundNext]
    by_cases hook : flags.onCancelled = true
    · simp only [hook,if_true]
      exact ⟨rfl,rfl,rfl⟩
    · simp only [hook]
      exact ⟨rfl,rfl,rfl⟩

section Step
variable (flags : η → Flags)

def step (s : State η) : Action → Option (State η)
  | .begin => if s.pc = .created then some {s with pc := .visit 0} else none
  | .kill => if s.pc = .created then some {s with pc := .cancelled} else none
  | .visit => match s.pc with
      | .visit i => match s.chain[i]? with
          | none => some {s with pc := .returned}
          | some handler =>
              if (flags handler).background then
                some {s with
                  pc := .visit (i + 1)
                  backgrounds := s.backgrounds ++ [⟨handler,.created⟩]
                  uses := s.uses ++ [.visit handler true]}
              else
                let pc := enter (flags handler) s.event
                some ({s with pc := .execute i pc}.note (.visit handler false :: pc.use handler false))
      | _ => none
  | .gate => match s.pc with
      | .execute i .gate => do
          let handler ← s.chain[i]?
          let (next,event) := pass (flags handler) handler s.event
          some ({s with pc := next.foreground i, event := event}.note (next.use handler false))
      | _ => none
  | .callback outcome => match s.pc with
      | .execute i (.calling phase parent) => do
          let handler ← s.chain[i]?
          let (next,event) := settle (flags handler) false handler s.event phase parent outcome
          some ({s with pc := next.foreground i, event := event}.note (next.use handler false))
      | _ => none
  | .cleanup => match s.pc with
      | .cleanup i => match s.chain[i]? with
          | none => some {s with pc := .cancelled}
          | some handler =>
              if !(flags handler).background && (flags handler).onCancelled then
                some ({s with pc := .notifying i}.note [.clean handler true])
              else some ({s with pc := .cleanup (i + 1)}.note [.clean handler false])
      | _ => none
  | .notified => match s.pc with
      | .notifying i => some {s with pc := .cleanup (i + 1)}
      | _ => none
  | .accept => some {s with event := {s.event with accepted := true}}
  | .backgroundBegin k => do
      let task ← s.backgrounds[k]?
      if task.pc = .created then
        some (s.backgroundNext (flags task.handler) k task (.go (enter (flags task.handler) s.event)))
      else none
  | .backgroundGate k => do
      let task ← s.backgrounds[k]?
      match task.pc with
      | .execute .gate =>
          let (next,event) := pass (flags task.handler) task.handler s.event
          some ({s with event := event}.backgroundNext (flags task.handler) k task next)
      | _ => none
  | .backgroundCallback k outcome => do
      let task ← s.backgrounds[k]?
      match task.pc with
      | .execute (.calling phase parent) =>
          let (next,event) :=
            settle (flags task.handler) true task.handler s.event phase parent outcome
          some ({s with event := event}.backgroundNext (flags task.handler) k task next)
      | _ => none
  | .backgroundEnd k => do
      let task ← s.backgrounds[k]?
      if task.pc = .created ∨ task.pc = .notifying then some (s.setBackground k task .ended) else none

inductive Step (s : State η) : Action → State η → Prop where
  | begin (pc : s.pc = .created) : Step s .begin {s with pc := .visit 0}
  | kill (pc : s.pc = .created) : Step s .kill {s with pc := .cancelled}
  | finish {i} (pc : s.pc = .visit i) (past : s.chain[i]? = none) : Step s .visit {s with pc := .returned}
  | hand {i handler} (pc : s.pc = .visit i) (found : s.chain[i]? = some handler)
      (background : (flags handler).background = true) :
      Step s .visit {s with
        pc := .visit (i + 1)
        backgrounds := s.backgrounds ++ [⟨handler,.created⟩]
        uses := s.uses ++ [.visit handler true]}
  | enter {i handler} (pc : s.pc = .visit i) (found : s.chain[i]? = some handler)
      (foreground : (flags handler).background = false) :
      Step s .visit ({s with pc := .execute i (enter (flags handler) s.event)}.note
        (.visit handler false :: (enter (flags handler) s.event).use handler false))
  | gate {i handler next event} (pc : s.pc = .execute i .gate) (found : s.chain[i]? = some handler)
      (passed : pass (flags handler) handler s.event = (next,event)) :
      Step s .gate ({s with pc := next.foreground i, event := event}.note (next.use handler false))
  | callback {i phase parent handler outcome next event}
      (pc : s.pc = .execute i (.calling phase parent)) (found : s.chain[i]? = some handler)
      (settled : settle (flags handler) false handler s.event phase parent outcome = (next,event)) :
      Step s (.callback outcome)
        ({s with pc := next.foreground i, event := event}.note (next.use handler false))
  | cleaned {i} (pc : s.pc = .cleanup i) (past : s.chain[i]? = none) :
      Step s .cleanup {s with pc := .cancelled}
  | notify {i handler} (pc : s.pc = .cleanup i) (found : s.chain[i]? = some handler)
      (foreground : (flags handler).background = false) (hook : (flags handler).onCancelled = true) :
      Step s .cleanup ({s with pc := .notifying i}.note [.clean handler true])
  | skip {i handler} (pc : s.pc = .cleanup i) (found : s.chain[i]? = some handler)
      (silent : (flags handler).background = true ∨ (flags handler).onCancelled = false) :
      Step s .cleanup ({s with pc := .cleanup (i + 1)}.note [.clean handler false])
  | notified {i} (pc : s.pc = .notifying i) : Step s .notified {s with pc := .cleanup (i + 1)}
  | accept : Step s .accept {s with event := {s.event with accepted := true}}
  | backgroundBegin {k task} (found : s.backgrounds[k]? = some task) (pc : task.pc = .created) :
      Step s (.backgroundBegin k)
        (s.backgroundNext (flags task.handler) k task (.go (enter (flags task.handler) s.event)))
  | backgroundGate {k task next event} (found : s.backgrounds[k]? = some task)
      (pc : task.pc = .execute .gate)
      (passed : pass (flags task.handler) task.handler s.event = (next,event)) :
      Step s (.backgroundGate k)
        ({s with event := event}.backgroundNext (flags task.handler) k task next)
  | backgroundCallback {k task phase parent outcome next event} (found : s.backgrounds[k]? = some task)
      (pc : task.pc = .execute (.calling phase parent))
      (settled : settle (flags task.handler) true task.handler s.event phase parent outcome =
        (next,event)) :
      Step s (.backgroundCallback k outcome)
        ({s with event := event}.backgroundNext (flags task.handler) k task next)
  | backgroundEnd {k task} (found : s.backgrounds[k]? = some task)
      (pc : task.pc = .created ∨ task.pc = .notifying) :
      Step s (.backgroundEnd k) (s.setBackground k task .ended)

variable {flags : η → Flags}

theorem stepCases {s t : State η} {a : Action} (taken : step flags s a = some t) : Step flags s a t := by
  cases a with
  | begin =>
    simp only [step] at taken
    split at taken <;> try contradiction
    cases Option.some.inj taken
    exact .begin (by assumption)
  | kill =>
    simp only [step] at taken
    split at taken <;> try contradiction
    cases Option.some.inj taken
    exact .kill (by assumption)
  | visit =>
    simp only [step] at taken
    split at taken <;> try contradiction
    rename_i i pc
    split at taken
    · rename_i past
      cases Option.some.inj taken
      exact .finish pc past
    · rename_i handler found
      split at taken
      · rename_i background
        cases Option.some.inj taken
        exact .hand pc found background
      · rename_i foreground
        cases Option.some.inj taken
        exact .enter pc found (by simpa using foreground)
  | gate =>
    simp only [step] at taken
    split at taken <;> try contradiction
    rename_i i pc
    obtain ⟨handler,found,last⟩ := Option.bind_eq_some_iff.mp taken
    cases Option.some.inj last
    exact .gate pc found rfl
  | callback outcome =>
    simp only [step] at taken
    split at taken <;> try contradiction
    rename_i i phase parent pc
    obtain ⟨handler,found,last⟩ := Option.bind_eq_some_iff.mp taken
    cases Option.some.inj last
    exact .callback pc found rfl
  | cleanup =>
    simp only [step] at taken
    split at taken <;> try contradiction
    rename_i i pc
    split at taken
    · rename_i past
      cases Option.some.inj taken
      exact .cleaned pc past
    · rename_i handler found
      split at taken
      · rename_i hook
        simp only [Bool.and_eq_true,Bool.not_eq_true'] at hook
        cases Option.some.inj taken
        exact .notify pc found hook.1 hook.2
      · rename_i silent
        cases Option.some.inj taken
        refine .skip pc found ?_
        cases background : (flags handler).background with
        | true => exact .inl rfl
        | false =>
          rw [background] at silent
          exact .inr (by simpa using silent)
  | notified =>
    simp only [step] at taken
    split at taken <;> try contradiction
    rename_i i pc
    cases Option.some.inj taken
    exact .notified pc
  | accept => cases Option.some.inj taken; exact .accept
  | backgroundBegin k =>
    obtain ⟨task,found,last⟩ := Option.bind_eq_some_iff.mp taken
    split at last <;> try contradiction
    rename_i pc
    cases Option.some.inj last
    exact .backgroundBegin found pc
  | backgroundGate k =>
    obtain ⟨task,found,last⟩ := Option.bind_eq_some_iff.mp taken
    split at last <;> try contradiction
    rename_i pc
    cases Option.some.inj last
    exact .backgroundGate found pc rfl
  | backgroundCallback k outcome =>
    obtain ⟨task,found,last⟩ := Option.bind_eq_some_iff.mp taken
    split at last <;> try contradiction
    rename_i phase parent pc
    cases Option.some.inj last
    exact .backgroundCallback found pc rfl
  | backgroundEnd k =>
    obtain ⟨task,found,last⟩ := Option.bind_eq_some_iff.mp taken
    split at last <;> try contradiction
    rename_i pc
    cases Option.some.inj last
    exact .backgroundEnd found pc

theorem chainKept {s t : State η} {a : Action} (taken : Step flags s a t) : t.chain = s.chain := by
  cases taken <;> first
    | rfl
    | exact (backgroundFixed _ _ _ _ _).2.1

end Step
end Apixis.Dispatch
