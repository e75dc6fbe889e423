import Apixis.Library.Machine
import Apixis.Library.Slots

/-! The consumer of the event pipe: `start`, `stop`, `_event_consumer_loop`,
`_on_consumer_done` and the bounded queue with `clear`. One action is what one
task runs between two awaits. Capacity is not counted here, so `launch` may
follow whenever a worker waits for it; what resolution and preparation return is
chosen by the action. -/
namespace Apixis.Consumer
variable {ε η : Type}

/- One put of an event; the same event object may be put again. -/
structure Item (ε : Type) where
  seq : Nat
  event : ε
  deriving DecidableEq, Repr

inductive WorkerPc where
  | created
  | getting
  | acquiring
  | ended
  deriving DecidableEq, Repr

/- A task of `_event_consumer_loop`. `settled`: its done callback has run. -/
structure Worker where
  pc : WorkerPc
  cancelling : Bool
  settled : Bool
  deriving DecidableEq, Repr

def Worker.live (w : Worker) : Bool := w.pc != .ended && !w.cancelling

/- Where every event that was put has gone. -/
structure History (ε η : Type) where
  put : List (Item ε)
  dispatched : List (Item ε × List η)
  cleared : List (Item ε)
  dropped : List (Item ε)
  acknowledged : Nat
  deriving DecidableEq, Repr

structure State (ε η : Type) where
  maxsize : Nat
  queue : List (Item ε)
  unfinishedTasks : Nat
  pendingDispatch : Option (Item ε × List η)
  workers : List Worker
  eventConsumerTask : Option Nat
  started : Bool
  raised : Bool
  history : History ε η
  deriving DecidableEq, Repr

def initial (maxsize : Nat) : State ε η := ⟨maxsize,[],0,none,[],none,false,false,⟨[],[],[],[],0⟩⟩

def State.putNowait (s : State ε η) (event : ε) : Option (State ε η) :=
  if s.queue.length < s.maxsize then
    let item : Item ε := ⟨s.history.put.length,event⟩
    some {s with
      queue := s.queue ++ [item]
      unfinishedTasks := s.unfinishedTasks + 1
      history := {s.history with put := s.history.put ++ [item]}}
  else none

/- `raised` records that this raised ValueError, for one call too many. -/
def State.taskDone (s : State ε η) : State ε η :=
  if s.unfinishedTasks = 0 then {s with raised := true}
  else {s with
    unfinishedTasks := s.unfinishedTasks - 1
    history := {s.history with acknowledged := s.history.acknowledged + 1}}

def State.drop (s : State ε η) (item : Item ε) : State ε η :=
  {s with history := {s.history with dropped := s.history.dropped ++ [item]}}

def State.clearOne (s : State ε η) (item : Item ε) (rest : List (Item ε)) : State ε η :=
  ({s with queue := rest, history := {s.history with cleared := s.history.cleared ++ [item]}}).taskDone

/- The loop of `clear`, with the number of events it has removed. -/
def clearFrom : List (Item ε) → Nat → State ε η → Nat × State ε η
  | [], count, s => (count,s)
  | item :: rest, count, s =>
      let t := s.clearOne item rest
      if t.raised then (count,t) else clearFrom rest (count + 1) t

def State.clear (s : State ε η) : Nat × State ε η := clearFrom s.queue 0 s

def State.setWorker (s : State ε η) (w : Nat) (worker : Worker) (pc : WorkerPc) : State ε η :=
  {s with workers := s.workers.set w {worker with pc := pc}}

/- The head of the loop: an event left pending goes straight to the semaphore. -/
def State.loopHead (s : State ε η) : WorkerPc :=
  if s.raised then .ended else if s.pendingDispatch.isNone then .getting else .acquiring

def State.start (s : State ε η) : State ε η :=
  if s.started then s
  else {s with
    workers := s.workers ++ [⟨.created,false,false⟩]
    eventConsumerTask := some s.workers.length
    started := true}

def State.cancel (s : State ε η) (w : Nat) : State ε η :=
  match s.workers[w]? with
  | some worker =>
      if worker.pc = .ended then s
      else {s with workers := s.workers.set w {worker with cancelling := true}}
  | none => s

def State.stop (s : State ε η) : State ε η :=
  let stopped := {s with eventConsumerTask := none, started := false}
  match s.eventConsumerTask with
  | none => stopped
  | some w => stopped.cancel w

/- What capturing the handlers of a dequeued event gives. `fatal` is a
BaseException that is no Exception. -/
inductive Resolution (η : Type) where
  | resolved (chain : List η)
  | failed
  | fatal
  deriving DecidableEq, Repr

inductive Preparation where
  | launched
  | failed
  | fatal
  deriving DecidableEq, Repr

def State.dequeue (s : State ε η) (w : Nat) (worker : Worker) (item : Item ε)
    (rest : List (Item ε)) : Resolution η → State ε η
  | .resolved chain =>
      ({s with queue := rest, pendingDispatch := some (item,chain)}).setWorker w worker .acquiring
  | .failed =>
      let t := ({s with queue := rest}).taskDone.drop item
      t.setWorker w worker t.loopHead
  | .fatal => (({s with queue := rest}).taskDone.drop item).setWorker w worker .ended

def State.launch (s : State ε η) (w : Nat) (worker : Worker) (item : Item ε) (chain : List η) :
    Preparation → State ε η
  | .launched =>
      let t := ({s with
        pendingDispatch := none
        history := {s.history with dispatched := s.history.dispatched ++ [(item,chain)]}}).taskDone
      t.setWorker w worker t.loopHead
  | .failed =>
      let t := ({s with pendingDispatch := none}).taskDone.drop item
      t.setWorker w worker t.loopHead
  | .fatal =>
      (({s with pendingDispatch := none}).taskDone.drop item).setWorker w worker .ended

/- `put` and `post_event` wait for room; `put_nowait` raises QueueFull instead. -/
inductive Publication where
  | put
  | putNowait
  | postEvent
  deriving DecidableEq, Repr

inductive Action (ε η : Type) where
  | publish (via : Publication) (event : ε)
  | clear
  | start
  | stop
  | cancelWorker (w : Nat)
  | begin (w : Nat)
  | dequeue (w : Nat) (resolution : Resolution η)
  | launch (w : Nat) (preparation : Preparation)
  | unwind (w : Nat)
  | onConsumerDone (w : Nat)
  deriving DecidableEq, Repr

def step (s : State ε η) : Action ε η → Option (State ε η)
  | .publish .putNowait event => some ((s.putNowait event).getD s)
  | .publish _ event => s.putNowait event
  | .clear => some s.clear.2
  | .start => some s.start
  | .stop => some s.stop
  | .cancelWorker w => some (s.cancel w)
  | .begin w => do
      let worker ← s.workers[w]?
      if worker.pc = .created ∧ worker.cancelling = false then some (s.setWorker w worker s.loopHead)
      else none
  | .dequeue w resolution => do
      let worker ← s.workers[w]?
      if worker.pc = .getting ∧ worker.cancelling = false then
        match s.queue with
        | [] => none
        | item :: rest => some (s.dequeue w worker item rest resolution)
      else none
  | .launch w preparation => do
      let worker ← s.workers[w]?
      if worker.pc = .acquiring ∧ worker.cancelling = false then
        match s.pendingDispatch with
        -- unpacking None raises TypeError
        | none => some ({s with raised := true}.setWorker w worker .ended)
        | some (item,chain) => some (s.launch w worker item chain preparation)
      else none
  | .unwind w => do
      let worker ← s.workers[w]?
      if worker.pc ≠ .ended ∧ worker.cancelling = true then some (s.setWorker w worker .ended) else none
  | .onConsumerDone w => do
      let worker ← s.workers[w]?
      if worker.pc = .ended ∧ worker.settled = false then
        let noted := {s with workers := s.workers.set w {worker with settled := true}}
        some (if s.eventConsumerTask = some w then
          {noted with eventConsumerTask := none, started := false} else noted)
      else none

inductive Step (s : State ε η) : Action ε η → State ε η → Prop where
  | publish {via event t} (room : s.putNowait event = some t) : Step s (.publish via event) t
  | queueFull {event} (full : s.putNowait event = none) : Step s (.publish .putNowait event) s
  | clear : Step s .clear s.clear.2
  | start : Step s .start s.start
  | stop : Step s .stop s.stop
  | cancelWorker {w} : Step s (.cancelWorker w) (s.cancel w)
  | begin {w worker} (found : s.workers[w]? = some worker) (pc : worker.pc = .created)
      (kept : worker.cancelling = false) : Step s (.begin w) (s.setWorker w worker s.loopHead)
  | dequeue {w worker item rest resolution} (found : s.workers[w]? = some worker)
      (pc : worker.pc = .getting) (kept : worker.cancelling = false)
      (queue : s.queue = item :: rest) :
      Step s (.dequeue w resolution) (s.dequeue w worker item rest resolution)
  | launchNone {w worker preparation} (found : s.workers[w]? = some worker)
      (pc : worker.pc = .acquiring) (kept : worker.cancelling = false)
      (nothing : s.pendingDispatch = none) :
      Step s (.launch w preparation) ({s with raised := true}.setWorker w worker .ended)
  | launch {w worker item chain preparation} (found : s.workers[w]? = some worker)
      (pc : worker.pc = .acquiring) (kept : worker.cancelling = false)
      (pending : s.pendingDispatch = some (item,chain)) :
      Step s (.launch w preparation) (s.launch w worker item chain preparation)
  | unwind {w worker} (found : s.workers[w]? = some worker) (pc : worker.pc ≠ .ended)
      (asked : worker.cancelling = true) : Step s (.unwind w) (s.setWorker w worker .ended)
  | currentDone {w worker} (found : s.workers[w]? = some worker) (pc : worker.pc = .ended)
      (current : s.eventConsumerTask = some w) :
      Step s (.onConsumerDone w) {s with
        workers := s.workers.set w {worker with settled := true}
        eventConsumerTask := none
        started := false}
  | oldDone {w worker} (found : s.workers[w]? = some worker) (pc : worker.pc = .ended)
      (old : s.eventConsumerTask ≠ some w) :
      Step s (.onConsumerDone w) {s with workers := s.workers.set w {worker with settled := true}}

theorem stepCases {s t : State ε η} {a : Action ε η} (taken : step s a = some t) : Step s a t := by
  cases a with
  | publish via event =>
    cases via with
    | put => exact .publish taken
    | postEvent => exact .publish taken
    | putNowait =>
      simp only [step] at taken
      cases room : s.putNowait event with
      | none => rw [room] at taken; cases Option.some.inj taken; exact .queueFull room
      | some t' => rw [room] at taken; cases Option.some.inj taken; exact .publish room
  | clear => cases Option.some.inj taken; exact .clear
  | start => cases Option.some.inj taken; exact .start
  | stop => cases Option.some.inj taken; exact .stop
  | cancelWorker w => cases Option.some.inj taken; exact .cancelWorker
  | begin w =>
    simp only [step,bind,Option.bind_eq_some_iff] at taken
    obtain ⟨worker,found,last⟩ := taken
    split at last <;> try contradiction
    rename_i guards
    cases Option.some.inj last
    exact .begin found guards.1 guards.2
  | dequeue w resolution =>
    simp only [step,bind,Option.bind_eq_some_iff] at taken
    obtain ⟨worker,found,last⟩ := taken
    split at last <;> try contradiction
    rename_i guards
    split at last <;> try contradiction
    rename_i item rest queue
    cases Option.some.inj last
    exact .dequeue found guards.1 guards.2 queue
  | launch w preparation =>
    simp only [step,bind,Option.bind_eq_some_iff] at taken
    obtain ⟨worker,found,last⟩ := taken
    split at last <;> try contradiction
    rename_i guards
    split at last
    · rename_i nothing
      cases Option.some.inj last
      exact .launchNone found guards.1 guards.2 nothing
    · rename_i item chain pending
      cases Option.some.inj last
      exact .launch found guards.1 guards.2 pending
  | unwind w =>
    simp only [step,bind,Option.bind_eq_some_iff] at taken
    obtain ⟨worker,found,last⟩ := taken
    split at last <;> try contradiction
    rename_i guards
    cases Option.some.inj last
    exact .unwind found guards.1 guards.2
  | onConsumerDone w =>
    simp only [step,bind,Option.bind_eq_some_iff] at taken
    obtain ⟨worker,found,last⟩ := taken
    split at last <;> try contradiction
    rename_i guards
    cases Option.some.inj last
    split
    · rename_i current
      exact .currentDone found guards.1 current
    · rename_i old
      exact .oldDone found guards.1 old

end Apixis.Consumer
