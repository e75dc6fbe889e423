import Apixis.Library.Fifo
import Apixis.Library.Grouping
import Apixis.Library.Machine

/-! `Logger`: the shared buffer, the batches that are detached from it and written by
threads, and the flush worker between `start` and `stop`. -/
namespace Apixis.Logger

/- A buffered tuple; `number` tells the tuples of all log calls apart. -/
structure Record where
  number : Nat
  name : String
  message : String
  deriving DecidableEq, Repr

/- How the file of one logger is written: an error in it is printed, one before it
leaves `_flush_to_disk`. -/
inductive Fate where
  | written
  | partly (lines : Nat)
  | raised
  deriving DecidableEq, Repr

structure Batch where
  cache : List Record
  written : List (String × List String)
  pending : List (String × List String)
  failed : Bool
  raised : Bool
  deriving DecidableEq, Repr

namespace Batch

def groups (cache : List Record) : List (String × List String) :=
  (Grouping.grouped Record.name Record.message Dict.empty cache).entries

def lines (cache : List Record) (name : String) : List String :=
  Grouping.under Record.name Record.message name cache

def detached (cache : List Record) : Batch := ⟨cache,[],groups cache,false,false⟩

def ended (batch : Batch) : Bool := batch.raised || batch.pending.isEmpty

def write (batch : Batch) (fate : Fate) : Option Batch :=
  if batch.raised then none
  else match batch.pending with
    | [] => none
    | (name,messages) :: rest => some (match fate with
        | .written => {batch with written := batch.written ++ [(name,messages)], pending := rest}
        | .partly n => {batch with
            written := batch.written ++ [(name,messages.take n)], pending := rest, failed := true}
        | .raised => {batch with raised := true})

end Batch

/- The buffer and the batches taken from it. What follows is a record of what has
happened, read by nothing. -/
structure Store where
  log_cache : List Record
  log_cache_size : Int
  batches : List Batch
  logged : List Record
  evicted : List Record
  /- A record has reached a threshold since the last detachment. -/
  crossed : Bool
  deriving DecidableEq, Repr

namespace Store

/- The first lines of `_log`: the oldest record gives up its length, if it is to go. A
full buffer without records has no oldest one. -/
def room (limit : Nat) (s : Store) : Option Int :=
  if s.log_cache.length = limit then
    s.log_cache.head?.map (fun oldest => s.log_cache_size - oldest.message.length)
  else some s.log_cache_size

def log (limit : Nat) (max_cache_size : Int) (s : Store) (name message : String) : Option (Store × Bool) := do
  let size ← room limit s
  let record := ⟨s.logged.length,name,message⟩
  let log_cache := Fifo.push limit s.log_cache record
  let crossing := log_cache.length == limit || decide (max_cache_size ≤ size + message.length)
  some ({s with
    log_cache := log_cache
    log_cache_size := size + message.length
    logged := s.logged ++ [record]
    evicted := s.evicted ++ Fifo.dropped limit s.log_cache record
    crossed := s.crossed || crossing},crossing)

/- `flush` up to its await: the batch to be written, if there is anything to write. -/
def detach (s : Store) : Option (Store × Nat) :=
  if s.log_cache = [] then none
  else some ({s with
    log_cache := []
    log_cache_size := 0
    batches := s.batches ++ [Batch.detached s.log_cache]
    crossed := false},s.batches.length)

def write (s : Store) (b : Nat) (fate : Fate) : Option Store := do
  let batch ← s.batches[b]?
  let next ← batch.write fate
  some {s with batches := s.batches.set b next}

end Store

inductive Ended where
  | returned
  | raised
  | cancelled
  deriving DecidableEq, Repr

/- `flush_loop`: a task that has not begun, one that waits for the event, one that
writes a batch in the loop or after it. -/
inductive Worker where
  | created
  | waiting (woken : Bool)
  | writing (b : Nat)
  | finishing (b : Nat)
  | ended (how : Ended)
  deriving DecidableEq, Repr

def Worker.alive : Worker → Bool
  | .ended _ => false
  | _ => true

def Worker.wake : Worker → Worker
  | .waiting _ => .waiting true
  | other => other

/- `lifecycle_lock`: a `stop` keeps it while it waits for the worker and while its own
flush is written. -/
inductive Lock where
  | free
  | joining
  | flushing (b : Nat)
  deriving DecidableEq, Repr

structure State where
  store : Store
  flush_event : Bool
  running : Bool
  flush_task : Option Nat
  workers : List Worker
  lock : Lock
  deriving DecidableEq, Repr

namespace State

def setEvent (s : State) : State := {s with flush_event := true, workers := s.workers.map Worker.wake}

def setWorker (s : State) (k : Nat) (worker : Worker) : State :=
  {s with workers := s.workers.set k worker}

def finish (s : State) (k : Nat) : State := match s.store.detach with
  | some (store,b) => {s with store := store}.setWorker k (.finishing b)
  | none => s.setWorker k (.ended .returned)

/- The event has been waited for: it is cleared and the buffer flushed. Where there was
nothing to flush, the loop begins again with the event cleared. -/
def awaken (s : State) (k : Nat) : State := match s.store.detach with
  | some (store,b) => {s with store := store, flush_event := false}.setWorker k (.writing b)
  | none =>
      if s.running then {s with flush_event := false}.setWorker k (.waiting false)
      else {s with flush_event := false}.finish k

/- The head of the loop; an event that is set is not waited for. -/
def loop (s : State) (k : Nat) : State :=
  if s.running then
    if s.flush_event then s.awaken k else s.setWorker k (.waiting false)
  else s.finish k

def lastFlush (s : State) : State := match s.store.detach with
  | some (store,b) => {s with store := store, lock := .flushing b}
  | none => {s with lock := .free}

end State

def batchEnded (s : State) (b : Nat) : Bool := (s.store.batches[b]?).any Batch.ended

def batchRaised (s : State) (b : Nat) : Bool := (s.store.batches[b]?).any Batch.raised

def workerEnded (s : State) (k : Nat) : Option Ended := match s.workers[k]? with
  | some (.ended how) => some how
  | _ => none

inductive Action where
  | log (name message : String)
  | flush
  | write (b : Nat) (fate : Fate)
  | start
  | stop
  /- The worker a `stop` awaits has ended; its own flush has been written; the call is
  cancelled in one of the two, which cancels the worker first. -/
  | joined
  | flushed
  | cancelStop
  /- The worker's task goes on, or is cancelled. -/
  | worker (k : Nat)
  | cancelWorker (k : Nat)
  deriving DecidableEq, Repr

section Step
variable (limit : Nat) (max_cache_size : Int)

def step (s : State) : Action → Option State
  | .log name message => do
      let (store,crossing) ← s.store.log limit max_cache_size name message
      some (if crossing then {s with store := store}.setEvent else {s with store := store})
  | .flush => some (match s.store.detach with
      | some (store,_) => {s with store := store}
      | none => s)
  | .write b fate => (s.store.write b fate).map (fun store => {s with store := store})
  | .start =>
      if s.lock ≠ .free then none
      else if s.running then some s
      else some {s with
        running := true
        flush_task := some s.workers.length
        workers := s.workers ++ [.created]}
  | .stop =>
      if s.lock ≠ .free then none
      else if s.running then
        let s := {s with running := false}.setEvent
        some (match s.flush_task with
          | some _ => {s with lock := .joining}
          | none => s.lastFlush)
      else some s
  | .joined => match s.lock with
      | .joining => do
          let k ← s.flush_task
          let how ← workerEnded s k
          some (match how with
            | .returned => {s with flush_task := none}.lastFlush
            | _ => {s with lock := .free})
      | _ => none
  | .flushed => match s.lock with
      | .flushing b => if batchEnded s b then some {s with lock := .free} else none
      | _ => none
  | .cancelStop => match s.lock with
      | .joining => do
          let k ← s.flush_task
          let _ ← workerEnded s k
          some {s with lock := .free}
      | .flushing _ => some {s with lock := .free}
      | .free => none
  | .worker k => do
      let worker ← s.workers[k]?
      match worker with
      | .created => some (s.loop k)
      | .waiting woken => if woken then some (s.awaken k) else none
      | .writing b => if batchEnded s b then some (s.loop k) else none
      | .finishing b =>
          if batchEnded s b then
            some (s.setWorker k (.ended (if batchRaised s b then .raised else .returned)))
          else none
      | .ended _ => none
  | .cancelWorker k => do
      let worker ← s.workers[k]?
      if worker.alive then some (s.setWorker k (.ended .cancelled)) else none

inductive Step (s : State) : Action → State → Prop where
  | log {name message store} (moved : s.store.log limit max_cache_size name message = some (store,false)) :
      Step s (.log name message) {s with store := store}
  | crosses {name message store} (moved : s.store.log limit max_cache_size name message = some (store,true)) :
      Step s (.log name message) {s with store := store}.setEvent
  | flush {store b} (moved : s.store.detach = some (store,b)) : Step s .flush {s with store := store}
  | nothing (nothing : s.store.detach = none) : Step s .flush s
  | write {b fate store} (moved : s.store.write b fate = some store) :
      Step s (.write b fate) {s with store := store}
  | start (free : s.lock = .free) (stopped : s.running = false) : Step s .start {s with
      running := true
      flush_task := some s.workers.length
      workers := s.workers ++ [.created]}
  | again {a} (free : s.lock = .free)
      (already : a = .start ∧ s.running = true ∨ a = .stop ∧ s.running = false) : Step s a s
  | stop {k} (free : s.lock = .free) (running : s.running = true) (task : s.flush_task = some k) :
      Step s .stop {{s with running := false}.setEvent with lock := .joining}
  | stopAlone (free : s.lock = .free) (running : s.running = true) (none_ : s.flush_task = none) :
      Step s .stop {s with running := false}.setEvent.lastFlush
  | joined {k} (lock : s.lock = .joining) (task : s.flush_task = some k)
      (ended : workerEnded s k = some .returned) : Step s .joined {s with flush_task := none}.lastFlush
  | unjoined {a k how} (lock : s.lock = .joining) (task : s.flush_task = some k)
      (ended : workerEnded s k = some how) (left : a = .joined ∧ how ≠ .returned ∨ a = .cancelStop) :
      Step s a {s with lock := .free}
  | flushed {a b} (lock : s.lock = .flushing b)
      (left : a = .flushed ∧ batchEnded s b = true ∨ a = .cancelStop) : Step s a {s with lock := .free}
  | loop {k worker} (there : s.workers[k]? = some worker)
      (ready : worker = .created ∨ ∃ b, worker = .writing b ∧ batchEnded s b = true) :
      Step s (.worker k) (s.loop k)
  | awaken {k} (there : s.workers[k]? = some (.waiting true)) : Step s (.worker k) (s.awaken k)
  | finish {k b} (there : s.workers[k]? = some (.finishing b)) (written : batchEnded s b = true) :
      Step s (.worker k) (s.setWorker k (.ended (if batchRaised s b then .raised else .returned)))
  | cancelWorker {k worker} (there : s.workers[k]? = some worker) (alive : worker.alive = true) :
      Step s (.cancelWorker k) (s.setWorker k (.ended .cancelled))

variable {limit max_cache_size} {s t : State} {a : Action}

theorem stepCases (taken : step limit max_cache_size s a = some t) : Step limit max_cache_size s a t := by
  cases a with
  | log name message =>
    obtain ⟨⟨store,crossing⟩,moved,last⟩ := Option.bind_eq_some_iff.mp taken
    cases Option.some.inj last
    cases crossing with
    | true => exact .crosses moved
    | false => exact .log moved
  | flush =>
    simp only [step] at taken
    split at taken <;> cases Option.some.inj taken
    · rename_i store b moved
      exact .flush moved
    · rename_i nothing
      exact .nothing nothing
  | write b fate =>
    obtain ⟨store,moved,last⟩ := Option.map_eq_some_iff.mp taken
    cases last
    exact .write moved
  | start =>
    simp only [step] at taken
    split at taken <;> try contradiction
    rename_i free
    have free : s.lock = .free := by simpa using free
    split at taken <;> cases Option.some.inj taken
    · rename_i running
      exact .again free (.inl ⟨rfl,running⟩)
    · rename_i stopped
      exact .start free (by simpa using stopped)
  | stop =>
    simp only [step] at taken
    split at taken <;> try contradiction
    rename_i free
    have free : s.lock = .free := by simpa using free
    split at taken <;> cases Option.some.inj taken
    · rename_i running
      split
      · rename_i k task
        exact .stop free running task
      · rename_i none_
        exact .stopAlone free running none_
    · rename_i stopped
      exact .again free (.inr ⟨rfl,by simpa using stopped⟩)
  | joined =>
    simp only [step] at taken
    split at taken <;> try contradiction
    rename_i lock
    obtain ⟨k,task,rest⟩ := Option.bind_eq_some_iff.mp taken
    obtain ⟨how,ended,last⟩ := Option.bind_eq_some_iff.mp rest
    cases Option.some.inj last
    split
    · exact .joined lock task ended
    · rename_i other
      exact .unjoined lock task ended (.inl ⟨rfl,other⟩)
  | flushed =>
    simp only [step] at taken
    split at taken <;> try contradiction
    rename_i b lock
    split at taken <;> try contradiction
    rename_i written
    cases Option.some.inj taken
    exact .flushed lock (.inl ⟨rfl,written⟩)
  | cancelStop =>
    simp only [step] at taken
    split at taken <;> try contradiction
    · rename_i lock
      obtain ⟨k,task,rest⟩ := Option.bind_eq_some_iff.mp taken
      obtain ⟨how,ended,last⟩ := Option.bind_eq_some_iff.mp rest
      cases Option.some.inj last
      exact .unjoined lock task ended (.inr rfl)
    · rename_i b lock
      cases Option.some.inj taken
      exact .flushed lock (.inr rfl)
  | worker k =>
    obtain ⟨worker,there,rest⟩ := Option.bind_eq_some_iff.mp taken
    cases worker with
    | created =>
      cases Option.some.inj rest
      exact .loop there (.inl rfl)
    | waiting woken =>
      cases woken with
      | true =>
        cases Option.some.inj rest
        exact .awaken there
      | false => cases rest
    | writing b =>
      simp only at rest
      split at rest <;> try contradiction
      rename_i written
      cases Option.some.inj rest
      exact .loop there (.inr ⟨b,rfl,written⟩)
    | finishing b =>
      simp only at rest
      split at rest <;> try contradiction
      rename_i written
      cases Option.some.inj rest
      exact .finish there written
    | ended how => cases rest
  | cancelWorker k =>
    obtain ⟨worker,there,rest⟩ := Option.bind_eq_some_iff.mp taken
    split at rest <;> try contradiction
    rename_i alive
    cases Option.some.inj rest
    exact .cancelWorker there alive

end Step

def initial : State := ⟨⟨[],0,[],[],[],false⟩,false,false,none,[],.free⟩

end Apixis.Logger
