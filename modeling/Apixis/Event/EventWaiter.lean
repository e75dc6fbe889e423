import Apixis.Event.ChainCache
import Apixis.Library.Cancellation
import Apixis.Library.Promise

/-! `wait_for_event`: the handler it registers, the `EventWaiter` its five callbacks
resolve, the deadline, and any number of calls of `wait()`. A captured chain may
deliver at any time, also after the context has been left. -/
namespace Apixis.EventWaiter
open HandlerRegistry Cancellation

inductive Error where
  | timeoutError (message : String)
  | runtimeError (message : String)
  | invalidStateError
  | other (error : PyError)
  deriving DecidableEq, Repr

def timedOut : Error := .timeoutError "Timed out waiting for an event."
def alreadyExited : Error := .runtimeError "The event waiter context has already exited."

/- `_timeout_handle`: a handle that is cancelled or has fired fires no more. -/
inductive Timer where
  | none
  | armed
  | cancelled
  | fired
  deriving DecidableEq, Repr

def Timer.cancel : Timer → Timer
  | .armed => .cancelled
  | timer => timer

structure Waiter (ε : Type) where
  future : Promise Error ε
  deadline : Option ℚ
  timer : Timer
  closed : Bool
  deriving DecidableEq, Repr

variable {ε : Type}
namespace Waiter

def new : Waiter ε := ⟨.pending,none,.none,false⟩

def startTimeout (self : Waiter ε) (time : ℚ) : Option ℚ → Waiter ε
  | none => self
  | some timeOut => {self with deadline := some (time + timeOut), timer := .armed}

def set (self : Waiter ε) (value : Promise Error ε) : Except Error (Waiter ε) :=
  match self.future.settle value with
  | some future => .ok {self with future := future}
  | none => .error .invalidStateError

def expire (self : Waiter ε) : Except Error (Waiter ε) :=
  if !self.future.done then self.set (.exception timedOut) else .ok self

def reached (self : Waiter ε) (time : ℚ) : Bool := match self.deadline with
  | none => false
  | some deadline => decide (deadline ≤ time)

def resolve (self : Waiter ε) (time : ℚ) (event : ε) : Except Error (Waiter ε) :=
  if self.future.done then .ok self
  else if self.reached time then self.expire
  else {self with timer := self.timer.cancel}.set (.result event)

def close (self : Waiter ε) : Waiter ε :=
  {self with closed := true, timer := self.timer.cancel, future := self.future.cancel}

end Waiter

inductive Callback where
  | coreFunc
  | onAccepted
  | onCancelled
  | onHasError
  | onError
  deriving DecidableEq, Repr

/- What `_register_wait_handler` sets for each of them. -/
def Callback.run (self : Waiter ε) : Callback → ℚ → ε → Except Error (Waiter ε)
  | .coreFunc => self.resolve
  | .onAccepted => self.resolve
  | .onCancelled => self.resolve
  | .onHasError => self.resolve
  | .onError => self.resolve

inductive Point where
  | received
  | processed
  deriving DecidableEq, Repr

def listed : Patterns → Patterns
  | .text s => .items [.text s]
  | filter => filter

/- `callback` stands for the bound method `waiter._resolve`. -/
def waitHandler (name eventName : String) (point : Point) (filter : Patterns) (callback : Nat) : Handler where
  name := name
  subscribe := .items [.text eventName]
  filterEvent := listed filter
  priority := match point with
    | .received => .number (.finite 10000) "10000"
    | .processed => .number (.finite (-10000)) "-10000"
  betweenHandlers := .none
  registerOrder := -1
  stopWhenError := false
  timeOut := none
  background := false
  callbacks := ⟨.function callback,.function callback,.function callback,.function callback,
    .function callback⟩

abbrev End (ε : Type) := Ended Unit Error ε

inductive WaitPc (ε : Type) where
  | awaiting
  | leaving (ended : End ε)
  | ended (ended : End ε)
  deriving DecidableEq, Repr

structure Wait (ε : Type) where
  pc : WaitPc ε
  task : Task
  deriving DecidableEq, Repr

def Wait.isAwaiting (wait : Wait ε) : Bool := match wait.pc with
  | .awaiting => true
  | _ => false

/- `raised` is what has left a callback, the timer or the end of the context. -/
structure State (ε : Type) where
  registry : Registry
  now : ℚ
  waiter : Waiter ε
  waits : List (Wait ε)
  raised : List Error
  deriving DecidableEq, Repr

inductive Action (ε : Type) where
  | deliver (callback : Callback) (event : ε)
  | tick (d : ℚ)
  | timer
  | wait
  | cancelWait (i : Nat)
  | resume (i : Nat)
  | left (i : Nat)
  | exit
  | registry (a : HandlerRegistry.Action)
  deriving DecidableEq, Repr

/- How `await self._future` ends. -/
def retrieved : Promise Error ε → Option (End ε)
  | .pending => none
  | .result event => some (.returned event)
  | .exception error => some (.raised error)
  | .cancelled => some (.cancelled ())

def State.setWait (s : State ε) (i : Nat) (wait : Wait ε) : State ε := {s with waits := s.waits.set i wait}

/- A callback of the event loop ends; what it raises is reported and goes no further. -/
def State.called (s : State ε) : Except Error (Waiter ε) → State ε
  | .ok waiter => {s with waiter := waiter}
  | .error error => {s with raised := s.raised ++ [error]}

section Step
/- A timer fires as soon as its time is less than the clock's resolution ahead. -/
variable (fnmatchcase : String → String → Bool) (resolution : ℚ) (name : String)

/- Up to the `yield` of `wait_for_event`. -/
def enter (registry : Registry) (time : ℚ) (eventName : String) (point : Point) (filter : Patterns)
    (timeOut : Option ℚ) : Except (PyError × Registry) (State ε) := do
  let handler := waitHandler name eventName point filter registry.heap.length
  let allocated := {registry with heap := registry.heap ++ [handler]}
  let registered ← registerHandler fnmatchcase allocated registry.heap.length true
  return ⟨registered,time,Waiter.new.startTimeout time timeOut,[],[]⟩

def step (s : State ε) : Action ε → Option (State ε)
  | .deliver callback event => some (s.called (callback.run s.waiter s.now event))
  | .tick d => if 0 ≤ d then some {s with now := s.now + d} else none
  | .timer => match s.waiter.timer,s.waiter.deadline with
      | .armed,some deadline =>
          if deadline < s.now + resolution then
            some ({s with waiter := {s.waiter with timer := .fired}}.called
              {s.waiter with timer := .fired}.expire)
          else none
      | _,_ => none
  | .wait =>
      let pc := if s.waiter.closed then .ended (.raised alreadyExited)
        else match retrieved s.waiter.future with
          | some ended => .leaving ended
          | none => .awaiting
      some {s with waits := s.waits ++ [⟨pc,⟨0,false⟩⟩]}
  | .cancelWait i => do
      let wait ← s.waits[i]?
      match wait.pc with
      | .awaiting => some {s.setWait i {wait with task := wait.task.cancel (!s.waiter.future.done)} with
          waiter := {s.waiter with future := s.waiter.future.cancel}}
      | .leaving _ => some (s.setWait i {wait with task := wait.task.cancel false})
      | .ended _ => none
  | .resume i => do
      let wait ← s.waits[i]?
      match wait.pc with
      | .awaiting => do
          let ended ← retrieved s.waiter.future
          let (task,ended) := wait.task.resume () ended
          some (s.setWait i ⟨.leaving ended,task⟩)
      | _ => none
  | .left i => do
      let wait ← s.waits[i]?
      match wait.pc with
      | .leaving ended =>
          let (task,ended) := wait.task.resume () ended
          some (s.setWait i ⟨.ended ended,task⟩)
      | _ => none
  | .exit =>
      if s.waiter.closed then none
      else match unregisterHandler fnmatchcase s.registry name true with
        | .ok registry => some {s with waiter := s.waiter.close, registry := registry}
        | .error error => some {s with waiter := s.waiter.close, raised := s.raised ++ [.other error]}
  | .registry a => (HandlerRegistry.step fnmatchcase s.registry a).map (fun registry =>
      {s with registry := registry})

inductive Step (s : State ε) : Action ε → State ε → Prop where
  | deliver {callback event} : Step s (.deliver callback event) (s.called (callback.run s.waiter s.now event))
  | tick {d} (forward : 0 ≤ d) : Step s (.tick d) {s with now := s.now + d}
  | timer {deadline} (armed : s.waiter.timer = .armed) (due : s.waiter.deadline = some deadline)
      (past : deadline < s.now + resolution) :
      Step s .timer ({s with waiter := {s.waiter with timer := .fired}}.called
        {s.waiter with timer := .fired}.expire)
  | wait {pc} (begun : pc = if s.waiter.closed then .ended (.raised alreadyExited)
        else match retrieved s.waiter.future with
          | some ended => .leaving ended
          | none => .awaiting) :
      Step s .wait {s with waits := s.waits ++ [⟨pc,⟨0,false⟩⟩]}
  | cancelAwaiting {i wait} (there : s.waits[i]? = some wait) (pc : wait.pc = .awaiting) :
      Step s (.cancelWait i) {s.setWait i {wait with task := wait.task.cancel (!s.waiter.future.done)} with
        waiter := {s.waiter with future := s.waiter.future.cancel}}
  | cancelLeaving {i wait ended} (there : s.waits[i]? = some wait) (pc : wait.pc = .leaving ended) :
      Step s (.cancelWait i) (s.setWait i {wait with task := wait.task.cancel false})
  | resume {i wait ended} (there : s.waits[i]? = some wait) (pc : wait.pc = .awaiting)
      (has : retrieved s.waiter.future = some ended) :
      Step s (.resume i) (s.setWait i ⟨.leaving (wait.task.resume () ended).2,(wait.task.resume () ended).1⟩)
  | left {i wait ended} (there : s.waits[i]? = some wait) (pc : wait.pc = .leaving ended) :
      Step s (.left i) (s.setWait i ⟨.ended (wait.task.resume () ended).2,(wait.task.resume () ended).1⟩)
  | exit {registry} (on : s.waiter.closed = false)
      (removed : unregisterHandler fnmatchcase s.registry name true = .ok registry) :
      Step s .exit {s with waiter := s.waiter.close, registry := registry}
  | exitRaised {error} (on : s.waiter.closed = false)
      (failed : unregisterHandler fnmatchcase s.registry name true = .error error) :
      Step s .exit {s with waiter := s.waiter.close, raised := s.raised ++ [.other error]}
  | registry {a registry} (moved : HandlerRegistry.step fnmatchcase s.registry a = some registry) :
      Step s (.registry a) {s with registry := registry}

variable {fnmatchcase resolution name} {s t : State ε} {a : Action ε}

theorem stepCases (taken : step fnmatchcase resolution name s a = some t) :
    Step fnmatchcase resolution name s a t := by
  cases a with
  | deliver callback event =>
    cases Option.some.inj taken
    exact .deliver
  | tick d =>
    simp only [step] at taken
    split at taken <;> try contradiction
    rename_i forward
    cases Option.some.inj taken
    exact .tick forward
  | timer =>
    simp only [step] at taken
    split at taken <;> try contradiction
    rename_i deadline armed due
    split at taken <;> try contradiction
    rename_i past
    cases Option.some.inj taken
    exact .timer armed due past
  | wait =>
    cases Option.some.inj taken
    exact .wait rfl
  | cancelWait i =>
    obtain ⟨wait,there,rest⟩ := Option.bind_eq_some_iff.mp taken
    split at rest <;> try contradiction
    · rename_i pc
      cases Option.some.inj rest
      exact .cancelAwaiting there pc
    · rename_i pc
      cases Option.some.inj rest
      exact .cancelLeaving there pc
  | resume i =>
    obtain ⟨wait,there,rest⟩ := Option.bind_eq_some_iff.mp taken
    split at rest <;> try contradiction
    rename_i pc
    obtain ⟨ended,has,last⟩ := Option.bind_eq_some_iff.mp rest
    cases Option.some.inj last
    exact .resume there pc has
  | left i =>
    obtain ⟨wait,there,rest⟩ := Option.bind_eq_some_iff.mp taken
    split at rest <;> try contradiction
    rename_i pc
    cases Option.some.inj rest
    exact .left there pc
  | exit =>
    simp only [step] at taken
    split at taken <;> try contradiction
    rename_i on
    have on : s.waiter.closed = false := by simpa using on
    split at taken <;> cases Option.some.inj taken
    · rename_i removed
      exact .exit on removed
    · rename_i failed
      exact .exitRaised on failed
  | registry a =>
    simp only [step] at taken
    obtain ⟨registry,moved,last⟩ := Option.map_eq_some_iff.mp taken
    cases last
    exact .registry moved

end Step
end Apixis.EventWaiter
