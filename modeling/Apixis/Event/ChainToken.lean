import Apixis.Library.Machine
import Apixis.Library.Slots

/-! Dispatch permits: `HandlerChainToken`, `suspend_process`, the capacity wait of
the consumer and `_on_dispatch_done`. One action is what one task runs between
two awaits, so a list of actions is one interleaving. Of the semaphore only this
is used: `acquire` takes one permit or, when it is cancelled, none; which waiting
acquisition is granted next is left open. -/
namespace Apixis.ChainToken

structure BoundedSemaphore where
  value : Nat
  boundValue : Nat
  deriving DecidableEq, Repr

structure HandlerChainToken where
  held : Bool
  closed : Bool
  suspended : Int
  resumeLock : Option Nat
  deriving DecidableEq, Repr

/- Where the dispatch task of a chain is. `failed` is a launch that raised. -/
inductive Phase where
  | running
  | finished
  | settled
  | failed
  deriving DecidableEq, Repr

structure Chain where
  token : HandlerChainToken
  runner : Option Nat
  phase : Phase
  deriving DecidableEq, Repr

structure Task where
  context : Option Nat
  deriving DecidableEq, Repr

inductive FramePc where
  | body
  | lockWait
  | permitWait
  | granted
  | left
  deriving DecidableEq, Repr

structure Frame where
  task : Nat
  chain : Nat
  pc : FramePc
  deriving DecidableEq, Repr

inductive Acquire where
  | waiting
  | granted
  | past
  deriving DecidableEq, Repr

structure State where
  semaphore : BoundedSemaphore
  chains : List Chain
  tasks : List Task
  frames : List Frame
  consumers : List Acquire
  exceeded : Bool
  deriving DecidableEq, Repr

def initial (capacity : Nat) : State := ⟨⟨capacity,capacity⟩,[],[],[],[],false⟩

/- `BoundedSemaphore.release`; `exceeded` records that it raised ValueError. -/
def State.release (s : State) : State :=
  if s.semaphore.boundValue ≤ s.semaphore.value then {s with exceeded := true}
  else {s with semaphore := {s.semaphore with value := s.semaphore.value + 1}}

def State.take (s : State) : State :=
  {s with semaphore := {s.semaphore with value := s.semaphore.value - 1}}

def State.undo (s : State) : State :=
  {s with semaphore := {s.semaphore with value := s.semaphore.value + 1}}

def State.setFrame (s : State) (f : Nat) (frame : Frame) (pc : FramePc) : State :=
  {s with frames := s.frames.set f {frame with pc := pc}}

def State.setToken (s : State) (c : Nat) (chain : Chain) (token : HandlerChainToken) : State :=
  {s with chains := s.chains.set c {chain with token := token}}

def Frame.live (f : Frame) : Bool := f.pc != .left

/- Inside its own suspension a task sees no chain; a child it creates there
inherits that, so nested calls and their children share the outer suspension. -/
def State.handlerChainContext (s : State) (t : Nat) : Option Nat :=
  if s.frames.any (fun f => f.task == t && f.live) then none
  else (s.tasks[t]?).bind Task.context

def State.close (s : State) (c : Nat) (chain : Chain) (phase : Phase) : State :=
  let released := if chain.token.held then s.release else s
  let token := {chain.token with closed := true, held := false}
  {released with chains := s.chains.set c {chain with token := token, phase := phase}}

def newToken : HandlerChainToken := ⟨true,false,0,none⟩

def State.launch (s : State) (i : Nat) : State :=
  {s with
    consumers := s.consumers.set i .past
    tasks := s.tasks ++ [⟨some s.chains.length⟩]
    chains := s.chains ++ [⟨newToken,some s.tasks.length,.running⟩]}

def State.launchFailed (s : State) (i : Nat) : State :=
  let chain : Chain := ⟨newToken,none,.running⟩
  let created := {s with consumers := s.consumers.set i .past, chains := s.chains ++ [chain]}
  created.close s.chains.length chain .failed

def State.enter (s : State) (t c : Nat) (chain : Chain) : State :=
  let lent := if chain.token.held then s.release else s
  let token := {chain.token with suspended := chain.token.suspended + 1, held := false}
  {lent with
    chains := s.chains.set c {chain with token := token}
    frames := s.frames ++ [⟨t,c,.body⟩]}

def State.leaveBody (s : State) (f : Nat) (frame : Frame) (chain : Chain) : State :=
  (s.setToken frame.chain chain {chain.token with suspended := chain.token.suspended - 1}).setFrame f
    frame (if chain.token.suspended - 1 = 0 then .lockWait else .left)

/- Whether the exit goes on to the semaphore once it holds the resume lock. -/
def HandlerChainToken.wants (token : HandlerChainToken) : Bool :=
  !token.closed && !token.held && decide (token.suspended = 0)

def State.lock (s : State) (f : Nat) (frame : Frame) (chain : Chain) : State :=
  if chain.token.wants then
    (s.setToken frame.chain chain {chain.token with resumeLock := some f}).setFrame f frame .permitWait
  else s.setFrame f frame .left

/- The acquisition returns: keep the permit, or give it back if the dispatch has
ended or another branch has suspended meanwhile. -/
def State.resume (s : State) (f : Nat) (frame : Frame) (chain : Chain) : State :=
  if chain.token.closed || chain.token.suspended != 0 then
    (s.release.setToken frame.chain chain {chain.token with resumeLock := none}).setFrame f frame .left
  else
    (s.setToken frame.chain chain {chain.token with resumeLock := none, held := true}).setFrame f frame .left

/- CancelledError reaches an exit that waits for the lock or for the permit. -/
def State.interrupt (s : State) (f : Nat) (frame : Frame) (chain : Chain) : State :=
  match frame.pc with
  | .lockWait => s.setFrame f frame .left
  | .granted =>
      (s.undo.setToken frame.chain chain {chain.token with resumeLock := none}).setFrame f frame .left
  | _ => (s.setToken frame.chain chain {chain.token with resumeLock := none}).setFrame f frame .left

inductive Action where
  | request
  | grantConsumer (i : Nat)
  | cancelConsumer (i : Nat)
  | launch (i : Nat) (ok : Bool)
  | spawn (t : Nat)
  /- A task without a chain: a producer, or a background handler. -/
  | detached
  | enter (t : Nat)
  | leaveBody (f : Nat)
  | lock (f : Nat)
  | grantFrame (f : Nat)
  | resume (f : Nat)
  | interrupt (f : Nat)
  | finish (c : Nat)
  | onDispatchDone (c : Nat)
  deriving DecidableEq, Repr

def step (s : State) : Action → Option State
  | .request => some {s with consumers := s.consumers ++ [.waiting]}
  | .grantConsumer i =>
      if s.consumers[i]? = some .waiting ∧ 0 < s.semaphore.value then
        some {s.take with consumers := s.consumers.set i .granted}
      else none
  | .cancelConsumer i => match s.consumers[i]? with
      | some .waiting => some {s with consumers := s.consumers.set i .past}
      | some .granted => some {s.undo with consumers := s.consumers.set i .past}
      | _ => none
  | .launch i ok =>
      if s.consumers[i]? = some .granted then
        some (if ok then s.launch i else s.launchFailed i)
      else none
  | .spawn t =>
      if t < s.tasks.length then some {s with tasks := s.tasks ++ [⟨s.handlerChainContext t⟩]}
      else none
  | .detached => some {s with tasks := s.tasks ++ [⟨none⟩]}
  | .enter t => match s.handlerChainContext t with
      | none => some s
      | some c => do
          let chain ← s.chains[c]?
          some (if chain.token.closed then s else s.enter t c chain)
  | .leaveBody f => do
      let frame ← s.frames[f]?
      let chain ← s.chains[frame.chain]?
      if frame.pc = .body then some (s.leaveBody f frame chain) else none
  | .lock f => do
      let frame ← s.frames[f]?
      let chain ← s.chains[frame.chain]?
      if frame.pc = .lockWait ∧ chain.token.resumeLock = none then some (s.lock f frame chain) else none
  | .grantFrame f => do
      let frame ← s.frames[f]?
      if frame.pc = .permitWait ∧ 0 < s.semaphore.value then some (s.take.setFrame f frame .granted)
      else none
  | .resume f => do
      let frame ← s.frames[f]?
      let chain ← s.chains[frame.chain]?
      if frame.pc = .granted then some (s.resume f frame chain) else none
  | .interrupt f => do
      let frame ← s.frames[f]?
      let chain ← s.chains[frame.chain]?
      if frame.pc = .lockWait ∨ frame.pc = .permitWait ∨ frame.pc = .granted then
        some (s.interrupt f frame chain)
      else none
  | .finish c => do
      let chain ← s.chains[c]?
      -- the dispatch task itself has left every suspension it entered
      if chain.phase = .running ∧ s.frames.all (fun f => some f.task != chain.runner || !f.live) then
        some {s with chains := s.chains.set c {chain with phase := .finished}}
      else none
  | .onDispatchDone c => do
      let chain ← s.chains[c]?
      if chain.phase = .finished then some (s.close c chain .settled) else none

inductive Step (s : State) : Action → State → Prop where
  | request : Step s .request {s with consumers := s.consumers ++ [.waiting]}
  | grantConsumer {i} (waiting : s.consumers[i]? = some .waiting) (free : 0 < s.semaphore.value) :
      Step s (.grantConsumer i) {s.take with consumers := s.consumers.set i .granted}
  | dropConsumer {i} (waiting : s.consumers[i]? = some .waiting) :
      Step s (.cancelConsumer i) {s with consumers := s.consumers.set i .past}
  | returnConsumer {i} (granted : s.consumers[i]? = some .granted) :
      Step s (.cancelConsumer i) {s.undo with consumers := s.consumers.set i .past}
  | launch {i} (granted : s.consumers[i]? = some .granted) : Step s (.launch i true) (s.launch i)
  | launchFailed {i} (granted : s.consumers[i]? = some .granted) :
      Step s (.launch i false) (s.launchFailed i)
  | spawn {t} (task : t < s.tasks.length) :
      Step s (.spawn t) {s with tasks := s.tasks ++ [⟨s.handlerChainContext t⟩]}
  | detached : Step s .detached {s with tasks := s.tasks ++ [⟨none⟩]}
  | pass {t} : Step s (.enter t) s
  | enter {t c chain} (inherited : s.handlerChainContext t = some c)
      (found : s.chains[c]? = some chain) (opened : chain.token.closed = false) :
      Step s (.enter t) (s.enter t c chain)
  | leaveBody {f frame chain} (at_ : s.frames[f]? = some frame)
      (found : s.chains[frame.chain]? = some chain) (pc : frame.pc = .body) :
      Step s (.leaveBody f) (s.leaveBody f frame chain)
  | lock {f frame chain} (at_ : s.frames[f]? = some frame)
      (found : s.chains[frame.chain]? = some chain) (pc : frame.pc = .lockWait)
      (unlocked : chain.token.resumeLock = none) :
      Step s (.lock f) (s.lock f frame chain)
  | grantFrame {f frame} (at_ : s.frames[f]? = some frame) (pc : frame.pc = .permitWait)
      (free : 0 < s.semaphore.value) :
      Step s (.grantFrame f) (s.take.setFrame f frame .granted)
  | resume {f frame chain} (at_ : s.frames[f]? = some frame)
      (found : s.chains[frame.chain]? = some chain) (pc : frame.pc = .granted) :
      Step s (.resume f) (s.resume f frame chain)
  | interrupt {f frame chain} (at_ : s.frames[f]? = some frame)
      (found : s.chains[frame.chain]? = some chain)
      (pc : frame.pc = .lockWait ∨ frame.pc = .permitWait ∨ frame.pc = .granted) :
      Step s (.interrupt f) (s.interrupt f frame chain)
  | finish {c chain} (found : s.chains[c]? = some chain) (phase : chain.phase = .running) :
      Step s (.finish c) {s with chains := s.chains.set c {chain with phase := .finished}}
  | onDispatchDone {c chain} (found : s.chains[c]? = some chain) (phase : chain.phase = .finished) :
      Step s (.onDispatchDone c) (s.close c chain .settled)

theorem stepCases {s t : State} {a : Action} (taken : step s a = some t) : Step s a t := by
  cases a with
  | request => cases Option.some.inj taken; exact .request
  | grantConsumer i =>
    simp only [step] at taken
    split at taken <;> try contradiction
    rename_i guards
    cases Option.some.inj taken
    exact .grantConsumer guards.1 guards.2
  | cancelConsumer i =>
    simp only [step] at taken
    split at taken <;> try contradiction
    all_goals cases Option.some.inj taken
    · exact .dropConsumer (by assumption)
    · exact .returnConsumer (by assumption)
  | launch i ok =>
    simp only [step] at taken
    split at taken <;> try contradiction
    cases Option.some.inj taken
    cases ok
    · exact .launchFailed (by assumption)
    · exact .launch (by assumption)
  | spawn u =>
    simp only [step] at taken
    split at taken <;> try contradiction
    cases Option.some.inj taken
    exact .spawn (by assumption)
  | detached => cases Option.some.inj taken; exact .detached
  | enter u =>
    simp only [step] at taken
    split at taken
    · cases Option.some.inj taken; exact .pass
    · rename_i c inherited
      obtain ⟨chain,found,last⟩ := Option.bind_eq_some_iff.mp taken
      cases Option.some.inj last
      by_cases past : chain.token.closed = true
      · rw [if_pos past]; exact .pass
      · rw [if_neg past]; exact .enter inherited found (by simpa using past)
  | leaveBody f =>
    simp only [step,bind,Option.bind_eq_some_iff] at taken
    obtain ⟨frame,place,chain,found,last⟩ := taken
    split at last <;> try contradiction
    cases Option.some.inj last
    exact .leaveBody place found (by assumption)
  | lock f =>
    simp only [step,bind,Option.bind_eq_some_iff] at taken
    obtain ⟨frame,place,chain,found,last⟩ := taken
    split at last <;> try contradiction
    rename_i guards
    cases Option.some.inj last
    exact .lock place found guards.1 guards.2
  | grantFrame f =>
    simp only [step,bind,Option.bind_eq_some_iff] at taken
    obtain ⟨frame,place,last⟩ := taken
    split at last <;> try contradiction
    rename_i guards
    cases Option.some.inj last
    exact .grantFrame place guards.1 guards.2
  | resume f =>
    simp only [step,bind,Option.bind_eq_some_iff] at taken
    obtain ⟨frame,place,chain,found,last⟩ := taken
    split at last <;> try contradiction
    cases Option.some.inj last
    exact .resume place found (by assumption)
  | interrupt f =>
    simp only [step,bind,Option.bind_eq_some_iff] at taken
    obtain ⟨frame,place,chain,found,last⟩ := taken
    split at last <;> try contradiction
    cases Option.some.inj last
    exact .interrupt place found (by assumption)
  | finish c =>
    simp only [step,bind,Option.bind_eq_some_iff] at taken
    obtain ⟨chain,found,last⟩ := taken
    split at last <;> try contradiction
    rename_i guards
    cases Option.some.inj last
    exact .finish found guards.1
  | onDispatchDone c =>
    simp only [step,bind,Option.bind_eq_some_iff] at taken
    obtain ⟨chain,found,last⟩ := taken
    split at last <;> try contradiction
    cases Option.some.inj last
    exact .onDispatchDone found (by assumption)

end Apixis.ChainToken
