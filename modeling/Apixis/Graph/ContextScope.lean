import Apixis.Event.Ownership
import Apixis.Library.ContextVars
import Apixis.Utils.PyError

/-! Which graph context and which handler chain a piece of code finds. Both are context
variables: `_execute_node` binds the graph context around a batch, the consumer binds the
chain around the creation of a dispatch task, `suspend_process` and the creation of a
background task unbind it, and every task begins with the variables of the code that
creates it. One action is what one task runs between two awaits. -/
namespace Apixis.ContextScope
open ContextVars (Vars Sees find)
open ChainToken (BoundedSemaphore Chain Frame Acquire)

inductive Var where
  | handlerChain
  | graphContext
  deriving DecidableEq, Repr

inductive Block where
  | dispatch (chain : Nat)
  | background
  | suspension (frame chain : Nat)
  | node (context : Nat)
  deriving DecidableEq, Repr

def Block.binding : Block → Var × Option Nat
  | .dispatch chain => (.handlerChain,some chain)
  | .background => (.handlerChain,none)
  | .suspension _ _ => (.handlerChain,none)
  | .node context => (.graphContext,some context)

/- `outer` is what enclosed the code that created the task; no step reads it. -/
structure Task where
  vars : Vars Var (Option Nat)
  blocks : List Block
  outer : List Block
  consumer : Bool

def Task.enter (task : Task) (block : Block) : Task :=
  {task with vars := task.vars.set block.binding, blocks := block :: task.blocks}

def Task.leave (task : Task) : Option Task := do
  let vars ← task.vars.reset
  some {task with vars := vars, blocks := task.blocks.tail}

def Task.child (task : Task) (consumer : Bool) : Task :=
  ⟨task.vars.copy,[],task.blocks ++ task.outer,consumer⟩

def root : Task := ⟨⟨fun _ => none,[]⟩,[],[],false⟩

/- `requests` are the consumer tasks behind the acquisitions. -/
structure State where
  semaphore : BoundedSemaphore
  chains : List Chain
  frames : List Frame
  consumers : List Acquire
  exceeded : Bool
  tasks : List Task
  requests : List Nat

def initial (capacity : Nat) : State := ⟨⟨capacity,capacity⟩,[],[],[],false,[],[]⟩

/- The permits with the chains the tasks were created in. -/
def State.within (s : State) (chains : List ChainToken.Task) : ChainToken.State :=
  ⟨s.semaphore,s.chains,chains,s.frames,s.consumers,s.exceeded⟩

def State.bare (s : State) : ChainToken.State := s.within (s.tasks.map (fun _ => ⟨none⟩))

def State.after (s : State) (p : ChainToken.State) : State :=
  {s with
    semaphore := p.semaphore
    chains := p.chains
    frames := p.frames
    consumers := p.consumers
    exceeded := p.exceeded}

/- A task that runs anything but the loop of a consumer. -/
def State.code (s : State) (t : Nat) : Option Task := do
  let task ← s.tasks[t]?
  if task.consumer then none else some task

inductive Action where
  /- A task that no code of the event loop has created. -/
  | outside
  | spawn (t : Nat)
  /- `ApixEventLoop.start` creates the consumer. -/
  | start (t : Nat)
  | request (t : Nat)
  | launch (i : Nat) (ok : Bool)
  | background (t : Nat)
  | suspend (t : Nat)
  /- `with apix_graph_context(context)`, and a task for each node of the batch. -/
  | executeNode (t context n : Nat)
  | leaveNode (t : Nat)
  | permit (a : ChainToken.Action)
  deriving DecidableEq, Repr

def exiting : ChainToken.Action → Option Nat
  | .leaveBody f => some f
  | .lock f => some f
  | .grantFrame f => some f
  | .resume f => some f
  | .interrupt f => some f
  | _ => none

def aside : ChainToken.Action → Bool
  | .grantConsumer _ => true
  | .cancelConsumer _ => true
  | .finish _ => true
  | .onDispatchDone _ => true
  | _ => false

def step (s : State) : Action → Option State
  | .outside => some {s with tasks := s.tasks ++ [root]}
  | .spawn t => do
      let task ← s.code t
      some {s with tasks := s.tasks ++ [task.child false]}
  | .start t => do
      let task ← s.code t
      some {s with tasks := s.tasks ++ [task.child true]}
  | .request t => do
      let task ← s.tasks[t]?
      if task.consumer then
        some {s with consumers := s.consumers ++ [.waiting], requests := s.requests ++ [t]}
      else none
  | .launch i ok => do
      let t ← s.requests[i]?
      let task ← s.tasks[t]?
      if s.consumers[i]? = some .granted then
        let inside := task.enter (.dispatch s.chains.length)
        let back ← inside.leave
        if ok then some {s.after (s.bare.launch i) with tasks := s.tasks.set t back ++ [inside.child false]}
        else some {s.after (s.bare.launchFailed i) with tasks := s.tasks.set t back}
      else none
  | .background t => do
      let task ← s.code t
      let inside := task.enter .background
      let back ← inside.leave
      some {s with tasks := s.tasks.set t back ++ [inside.child false]}
  | .suspend t => do
      let task ← s.code t
      match task.vars.values .handlerChain with
      | none => some s
      | some c => do
          let chain ← s.chains[c]?
          if chain.token.closed then some s
          else some {s.after (s.bare.enter t c chain) with
            tasks := s.tasks.set t (task.enter (.suspension s.frames.length c))}
  | .executeNode t context n => do
      let task ← s.code t
      let inside := task.enter (.node context)
      some {s with tasks := s.tasks.set t inside ++ List.replicate n (inside.child false)}
  | .leaveNode t => do
      let task ← s.code t
      match task.blocks with
      | .node _ :: _ => do
          let back ← task.leave
          some {s with tasks := s.tasks.set t back}
      | _ => none
  | .permit a => match exiting a with
      | none => if aside a then (ChainToken.step s.bare a).map s.after else none
      | some f => do
          let frame ← s.frames[f]?
          let task ← s.tasks[frame.task]?
          if task.blocks.head? = some (.suspension f frame.chain) then
            let p ← ChainToken.step s.bare a
            let exit ← p.frames[f]?
            -- the variable is given back when the exit is through
            if exit.live then some (s.after p)
            else do
              let back ← task.leave
              some {s.after p with tasks := s.tasks.set frame.task back}
          else none

inductive Step (s : State) : Action → State → Prop where
  | outside : Step s .outside {s with tasks := s.tasks ++ [root]}
  | spawn {t : Nat} {task : Task} (there : s.tasks[t]? = some task) :
      Step s (.spawn t) {s with tasks := s.tasks ++ [task.child false]}
  | start {t : Nat} {task : Task} (there : s.tasks[t]? = some task) :
      Step s (.start t) {s with tasks := s.tasks ++ [task.child true]}
  | request {t : Nat} {task : Task} (there : s.tasks[t]? = some task) : Step s (.request t)
      {s with consumers := s.consumers ++ [.waiting], requests := s.requests ++ [t]}
  | launch {i t : Nat} {task : Task} (there : s.tasks[t]? = some task) (granted : s.consumers[i]? = some .granted) :
      Step s (.launch i true) {s.after (s.bare.launch i) with
        tasks := s.tasks ++ [(task.enter (.dispatch s.chains.length)).child false]}
  | launchFailed {i : Nat} (granted : s.consumers[i]? = some .granted) :
      Step s (.launch i false) (s.after (s.bare.launchFailed i))
  | background {t : Nat} {task : Task} (there : s.tasks[t]? = some task) :
      Step s (.background t) {s with tasks := s.tasks ++ [(task.enter .background).child false]}
  | free {t : Nat} {task : Task} (there : s.tasks[t]? = some task) (nothing : task.vars.values .handlerChain = none) :
      Step s (.suspend t) s
  | late {t c : Nat} {task : Task} {chain : Chain} (there : s.tasks[t]? = some task) (own : task.vars.values .handlerChain = some c)
      (found : s.chains[c]? = some chain) (closed : chain.token.closed = true) : Step s (.suspend t) s
  | suspend {t c : Nat} {task : Task} {chain : Chain} (there : s.tasks[t]? = some task) (own : task.vars.values .handlerChain = some c)
      (found : s.chains[c]? = some chain) (opened : chain.token.closed = false) :
      Step s (.suspend t) {s.after (s.bare.enter t c chain) with
        tasks := s.tasks.set t (task.enter (.suspension s.frames.length c))}
  | executeNode {t context n : Nat} {task : Task} (there : s.tasks[t]? = some task) :
      Step s (.executeNode t context n) {s with
        tasks := s.tasks.set t (task.enter (.node context)) ++
          List.replicate n ((task.enter (.node context)).child false)}
  | leaveNode {t context : Nat} {task back : Task} {rest : List Block} (there : s.tasks[t]? = some task)
      (blocks : task.blocks = .node context :: rest) (left : task.leave = some back) :
      Step s (.leaveNode t) {s with tasks := s.tasks.set t back}
  | aside {a p} (moves : aside a = true) (taken : ChainToken.step s.bare a = some p) :
      Step s (.permit a) (s.after p)
  | exit {f : Nat} {a p pc} {frame : Frame} {task : Task} (moves : exiting a = some f) (place : s.frames[f]? = some frame)
      (there : s.tasks[frame.task]? = some task)
      (innermost : task.blocks.head? = some (.suspension f frame.chain))
      (taken : ChainToken.step s.bare a = some p) (frames : p.frames = s.frames.set f {frame with pc := pc})
      (stays : ({frame with pc := pc} : Frame).live = true) : Step s (.permit a) (s.after p)
  | through {f : Nat} {a p pc} {frame : Frame} {task back : Task} (moves : exiting a = some f) (place : s.frames[f]? = some frame)
      (there : s.tasks[frame.task]? = some task)
      (innermost : task.blocks.head? = some (.suspension f frame.chain))
      (taken : ChainToken.step s.bare a = some p) (frames : p.frames = s.frames.set f {frame with pc := pc})
      (gone : ({frame with pc := pc} : Frame).live = false) (left : task.leave = some back) :
      Step s (.permit a) {s.after p with tasks := s.tasks.set frame.task back}

section Permits
variable {p q : ChainToken.State} {a : ChainToken.Action} {f : Nat} {frame : Frame} {chains : List ChainToken.Task}

theorem stepWithin (moves : (exiting a).isSome = true ∨ aside a = true) (taken : ChainToken.step p a = some q) :
    ChainToken.step {p with tasks := chains} a = some {q with tasks := chains} := by
  cases ChainToken.stepCases taken with
  | request => simp [exiting,aside] at moves
  | launch granted => simp [exiting,aside] at moves
  | launchFailed granted => simp [exiting,aside] at moves
  | spawn task => simp [exiting,aside] at moves
  | detached => simp [exiting,aside] at moves
  | pass => simp [exiting,aside] at moves
  | enter inherited found opened => simp [exiting,aside] at moves
  | grantConsumer waiting free => simp [ChainToken.step,waiting,free,ChainToken.State.take]
  | dropConsumer waiting => simp [ChainToken.step,waiting]
  | returnConsumer granted => simp [ChainToken.step,granted,ChainToken.State.undo]
  | leaveBody place found pc =>
    simp [ChainToken.step,place,found,pc,ChainToken.State.leaveBody,ChainToken.State.setToken,
      ChainToken.State.setFrame]
  | lock place found pc unlocked =>
    rename_i f frame chain
    simp only [ChainToken.step,place,found,pc,unlocked,ChainToken.State.lock,bind,Option.bind_some]
    by_cases wants : chain.token.wants = true <;>
      simp [wants,ChainToken.State.setToken,ChainToken.State.setFrame]
  | grantFrame place pc free =>
    simp [ChainToken.step,place,pc,free,ChainToken.State.take,ChainToken.State.setFrame]
  | resume place found pc =>
    rename_i f frame chain
    simp only [ChainToken.step,place,found,pc,ChainToken.State.resume,bind,Option.bind_some]
    by_cases late : (chain.token.closed || chain.token.suspended != 0) = true
    · by_cases full : p.semaphore.boundValue ≤ p.semaphore.value <;>
        simp [late,full,ChainToken.State.release,ChainToken.State.setToken,ChainToken.State.setFrame]
    · simp [late,ChainToken.State.setToken,ChainToken.State.setFrame]
  | interrupt place found pc =>
    rename_i f frame chain
    rcases pc with pc | pc | pc <;>
      simp [ChainToken.step,place,found,pc,ChainToken.State.interrupt,ChainToken.State.undo,
        ChainToken.State.setToken,ChainToken.State.setFrame]
  | finish found phase =>
    rename_i c chain
    have all := taken
    simp only [ChainToken.step,found,bind,Option.bind_some] at all ⊢
    split at all <;> try contradiction
    rename_i guards
    simp [guards]
  | onDispatchDone found phase =>
    rename_i c chain
    simp only [ChainToken.step,found,phase,ChainToken.State.close,bind,Option.bind_some,if_pos]
    by_cases held : chain.token.held = true
    · by_cases full : p.semaphore.boundValue ≤ p.semaphore.value <;>
        simp [held,full,ChainToken.State.release]
    · simp [held]

theorem asideFrames (moves : aside a = true) (taken : ChainToken.step p a = some q) : q.frames = p.frames := by
  cases ChainToken.stepCases taken <;> try simp [aside] at moves
  case grantConsumer => rfl
  case dropConsumer => rfl
  case returnConsumer => rfl
  case finish => rfl
  case onDispatchDone => exact Ownership.closeFrames _ _ _ _

theorem exitFrames (own : exiting a = some f) (there : p.frames[f]? = some frame)
    (taken : ChainToken.step p a = some q) : ∃ pc, q.frames = p.frames.set f {frame with pc := pc} := by
  cases ChainToken.stepCases taken <;> simp only [exiting,reduceCtorEq,Option.some.injEq] at own
  case leaveBody place found pc =>
    cases own
    cases Option.some.inj (place.symm.trans there)
    exact ⟨_,rfl⟩
  case lock place found pc unlocked =>
    cases own
    cases Option.some.inj (place.symm.trans there)
    unfold ChainToken.State.lock
    split <;> exact ⟨_,rfl⟩
  case grantFrame place pc free =>
    cases own
    cases Option.some.inj (place.symm.trans there)
    exact ⟨_,rfl⟩
  case resume place found pc =>
    cases own
    cases Option.some.inj (place.symm.trans there)
    unfold ChainToken.State.resume
    split
    · exact ⟨_,Ownership.releasedFrames _ _ _ _ _ _ _⟩
    · exact ⟨_,rfl⟩
  case interrupt place found pc =>
    cases own
    cases Option.some.inj (place.symm.trans there)
    unfold ChainToken.State.interrupt
    split <;> exact ⟨_,rfl⟩

theorem chainsLonger (taken : ChainToken.step p a = some q) : p.chains.length ≤ q.chains.length := by
  have set_ : ∀ (c : Nat) (chain : Chain), p.chains.length ≤ (p.chains.set c chain).length := by simp
  cases ChainToken.stepCases taken with
  | launch granted => simp [ChainToken.State.launch]
  | launchFailed granted => simp [ChainToken.State.launchFailed,Ownership.closeChains]
  | enter inherited found opened => exact set_ _ _
  | leaveBody place found pc => exact set_ _ _
  | lock place found pc unlocked =>
    unfold ChainToken.State.lock
    split
    · exact set_ _ _
    · exact Nat.le_refl _
  | resume place found pc =>
    unfold ChainToken.State.resume
    split
    · rw [Ownership.releasedChains]
      exact set_ _ _
    · exact set_ _ _
  | interrupt place found pc =>
    unfold ChainToken.State.interrupt
    split
    · exact Nat.le_refl _
    · exact set_ _ _
    · exact set_ _ _
  | finish found phase => exact set_ _ _
  | onDispatchDone found phase => exact set_ _ _
  | _ => exact Nat.le_refl _

end Permits

/- The blocks around a piece of code give the variables these values. -/
def seen (line : List Block) (key : Var) : Option Nat := find (fun _ => none) (line.map Block.binding) key

section Line
variable {line : List Block} {c d f g : Nat}

@[simp] theorem seenRoot (key : Var) : seen [] key = none := rfl
@[simp] theorem seenDispatch : seen (.dispatch c :: line) .handlerChain = some c := rfl
@[simp] theorem seenBackground : seen (.background :: line) .handlerChain = none := rfl
@[simp] theorem seenSuspension : seen (.suspension f c :: line) .handlerChain = none := rfl
@[simp] theorem seenAround : seen (.node g :: line) .handlerChain = seen line .handlerChain := rfl
@[simp] theorem seenNode : seen (.node g :: line) .graphContext = some g := rfl

def Block.suspends : Block → Bool
  | .suspension _ _ => true
  | _ => false

/- Inside a suspension of its own a task has no chain. -/
theorem seenOwn {own : List Block} (kinds : ∀ b ∈ own, (∃ g, b = .node g) ∨ ∃ f c, b = .suspension f c) :
    seen (own ++ line) .handlerChain = if own.any Block.suspends then none else seen line .handlerChain := by
  induction own with
  | nil => rfl
  | cons b rest ih =>
    have tail := ih (fun x member => kinds x (List.mem_cons_of_mem _ member))
    rcases kinds b List.mem_cons_self with ⟨g,rfl⟩ | ⟨f,c,rfl⟩
    · rw [List.cons_append,seenAround,tail]
      rfl
    · rfl

def Block.lends (c : Nat) : Block → Bool
  | .suspension _ d => d == c
  | _ => false

/- Along a line every chain begins once, and what lends a chain is inside it. -/
def Proper : List Block → Prop
  | [] => True
  | .dispatch c :: around => Block.dispatch c ∉ around ∧ Proper around
  | .suspension _ c :: around => seen around .handlerChain = some c ∧ Proper around
  | _ :: around => Proper around

theorem properTail {b : Block} (proper : Proper (b :: line)) : Proper line := by
  cases b with
  | dispatch c => exact proper.2
  | suspension f c => exact proper.2
  | background => exact proper
  | node g => exact proper

/- A chain that is seen has begun and is not lent; it is lent at most once, and where
it is lent it is not seen. -/
theorem lendsOnce (proper : Proper line) (c : Nat) :
    (seen line .handlerChain = some c → line.countP (Block.lends c) = 0 ∧ Block.dispatch c ∈ line) ∧
    line.countP (Block.lends c) ≤ 1 ∧ (line.countP (Block.lends c) = 1 → Block.dispatch c ∈ line) := by
  induction line with
  | nil => simp
  | cons b around ih =>
    obtain ⟨inside,few,begun⟩ := ih (properTail proper)
    cases b with
    | node g =>
      simp only [seenAround,List.mem_cons,reduceCtorEq,false_or,List.countP_cons,Block.lends,
        Bool.false_eq_true,if_false,Nat.add_zero]
      exact ⟨inside,few,begun⟩
    | background =>
      simp only [seenBackground,List.mem_cons,reduceCtorEq,false_or,List.countP_cons,Block.lends,
        Bool.false_eq_true,if_false,Nat.add_zero,false_implies,true_and]
      exact ⟨few,begun⟩
    | dispatch d =>
      simp only [seenDispatch,List.mem_cons,Block.dispatch.injEq,List.countP_cons,Block.lends,
        Bool.false_eq_true,if_false,Nat.add_zero,Option.some.injEq]
      refine ⟨?_,few,fun one => .inr (begun one)⟩
      rintro rfl
      refine ⟨?_,.inl rfl⟩
      by_contra some_
      exact proper.1 (begun (by omega))
    | suspension f d =>
      simp only [seenSuspension,List.mem_cons,reduceCtorEq,false_or,List.countP_cons,Block.lends,
        false_implies,true_and]
      by_cases same : d = c
      · subst same
        obtain ⟨none_,known⟩ := inside proper.1
        simp only [none_,beq_self_eq_true,if_true]
        exact ⟨Nat.le_refl _,fun _ => known⟩
      · simp only [beq_eq_false_iff_ne.mpr same,Bool.false_eq_true,if_false,Nat.add_zero]
        exact ⟨few,begun⟩

end Line

theorem enterLeave (task : Task) (block : Block) : (task.enter block).leave = some task := by
  simp [Task.enter,Task.leave,ContextVars.setReset]

theorem leaveOuter {task back : Task} (left : task.leave = some back) : back.outer = task.outer := by
  obtain ⟨vars,_,last⟩ := Option.bind_eq_some_iff.mp left
  cases Option.some.inj last
  rfl

theorem codeOf {s : State} {t : Nat} {task : Task} (code : s.code t = some task) : s.tasks[t]? = some task := by
  obtain ⟨own,there,last⟩ := Option.bind_eq_some_iff.mp code
  split at last <;> try contradiction
  cases Option.some.inj last
  exact there

theorem stepCases {s s' : State} {a : Action} (taken : step s a = some s') : Step s a s' := by
  cases a with
  | outside => cases Option.some.inj taken; exact .outside
  | spawn t =>
    obtain ⟨task,code,last⟩ := Option.bind_eq_some_iff.mp taken
    cases Option.some.inj last
    exact .spawn (codeOf code)
  | start t =>
    obtain ⟨task,code,last⟩ := Option.bind_eq_some_iff.mp taken
    cases Option.some.inj last
    exact .start (codeOf code)
  | request t =>
    obtain ⟨task,there,last⟩ := Option.bind_eq_some_iff.mp taken
    split at last <;> try contradiction
    cases Option.some.inj last
    exact .request there
  | launch i ok =>
    obtain ⟨t,_,last⟩ := Option.bind_eq_some_iff.mp taken
    obtain ⟨task,there,last⟩ := Option.bind_eq_some_iff.mp last
    split at last <;> try contradiction
    rename_i granted
    simp only [enterLeave,bind,Option.bind_some,Slots.setEqual there] at last
    cases ok
    · cases Option.some.inj last
      exact .launchFailed granted
    · cases Option.some.inj last
      exact .launch there granted
  | background t =>
    obtain ⟨task,code,last⟩ := Option.bind_eq_some_iff.mp taken
    simp only [enterLeave,bind,Option.bind_some,Slots.setEqual (codeOf code)] at last
    cases Option.some.inj last
    exact .background (codeOf code)
  | suspend t =>
    obtain ⟨task,code,last⟩ := Option.bind_eq_some_iff.mp taken
    split at last
    · cases Option.some.inj last
      exact .free (codeOf code) (by assumption)
    · rename_i c own
      obtain ⟨chain,found,last⟩ := Option.bind_eq_some_iff.mp last
      split at last
      · cases Option.some.inj last
        exact .late (codeOf code) own found (by assumption)
      · rename_i opened
        cases Option.some.inj last
        exact .suspend (codeOf code) own found (by simpa using opened)
  | executeNode t context n =>
    obtain ⟨task,code,last⟩ := Option.bind_eq_some_iff.mp taken
    cases Option.some.inj last
    exact .executeNode (codeOf code)
  | leaveNode t =>
    obtain ⟨task,code,last⟩ := Option.bind_eq_some_iff.mp taken
    split at last <;> try contradiction
    rename_i context rest blocks
    obtain ⟨back,left,last⟩ := Option.bind_eq_some_iff.mp last
    cases Option.some.inj last
    exact .leaveNode (codeOf code) blocks left
  | permit a =>
    simp only [step] at taken
    split at taken
    · split at taken <;> try contradiction
      rename_i moves
      obtain ⟨p,moved,rfl⟩ := Option.map_eq_some_iff.mp taken
      exact .aside moves moved
    · rename_i f moves
      obtain ⟨frame,place,last⟩ := Option.bind_eq_some_iff.mp taken
      obtain ⟨task,there,last⟩ := Option.bind_eq_some_iff.mp last
      split at last <;> try contradiction
      rename_i innermost
      obtain ⟨p,moved,last⟩ := Option.bind_eq_some_iff.mp last
      obtain ⟨exit,now,last⟩ := Option.bind_eq_some_iff.mp last
      obtain ⟨pc,frames⟩ := exitFrames moves place moved
      have after : p.frames[f]? = some {frame with pc := pc} := by
        rw [frames]
        exact Slots.setSame place
      cases Option.some.inj (after.symm.trans now)
      split at last
      · rename_i stays
        cases Option.some.inj last
        exact .exit moves place there innermost moved frames stays
      · rename_i gone
        obtain ⟨back,left,last⟩ := Option.bind_eq_some_iff.mp last
        cases Option.some.inj last
        exact .through moves place there innermost moved frames (by simpa using gone) left

def Block.frame : Block → Option Nat
  | .suspension f _ => some f
  | _ => none

structure Lined (s : State) (task : Task) : Prop where
  sees : Sees (fun _ => none) task.vars (task.blocks.map Block.binding) (task.outer.map Block.binding)
  proper : Proper (task.blocks ++ task.outer)
  begun : ∀ c, Block.dispatch c ∈ task.blocks ++ task.outer → c < s.chains.length

/- Besides, what a task is in is a batch or a suspension that it has not left. -/
structure Placed (s : State) (t : Nat) (task : Task) : Prop extends Lined s task where
  kinds : ∀ b ∈ task.blocks, (∃ g, b = .node g) ∨ ∃ f frame, b = .suspension f frame.chain ∧
    s.frames[f]? = some frame ∧ frame.task = t ∧ frame.live = true
  apart : (task.blocks.filterMap Block.frame).Nodup

structure Tied (s : State) : Prop where
  placed : ∀ t task, s.tasks[t]? = some task → Placed s t task
  inside : ∀ f frame, s.frames[f]? = some frame → frame.live = true →
    ∃ task, s.tasks[frame.task]? = some task ∧ Block.suspension f frame.chain ∈ task.blocks

section Tied
variable {s s' : State} {t u f : Nat} {task back : Task} {b : Block} {frame : Frame} {key : Var}

theorem linedSeen (lined : Lined s task) : task.vars.values key = seen (task.blocks ++ task.outer) key := by
  rw [lined.sees.values key,seen,List.map_append]

theorem enterLined (lined : Lined s task) (proper : Proper (b :: (task.blocks ++ task.outer)))
    (begun : ∀ c, b = .dispatch c → c < s.chains.length) : Lined s (task.enter b) := by
  refine ⟨ContextVars.setSees lined.sees,proper,?_⟩
  intro c member
  rcases List.mem_cons.mp member with new | old
  · exact begun c new.symm
  · exact lined.begun c old

theorem leaveLined (lined : Lined s task) {rest : List Block} (blocks : task.blocks = b :: rest) :
    ∃ back, task.leave = some back ∧ Lined s back ∧ back.blocks = rest := by
  have sees := lined.sees
  rw [blocks,List.map_cons] at sees
  obtain ⟨vars,left,after⟩ := ContextVars.resetSees sees
  refine ⟨{task with vars := vars, blocks := rest},by simp [Task.leave,left,blocks],⟨after,?_,?_⟩,rfl⟩
  · have proper := lined.proper
    rw [blocks] at proper
    exact properTail proper
  · intro c member
    exact lined.begun c (by rw [blocks]; exact List.mem_cons_of_mem _ member)

theorem leftLined (lined : Lined s task) {rest : List Block} (blocks : task.blocks = b :: rest)
    (left : task.leave = some back) : Lined s back ∧ back.blocks = rest := by
  obtain ⟨after,left',lined,own⟩ := leaveLined lined blocks
  cases Option.some.inj (left.symm.trans left')
  exact ⟨lined,own⟩

theorem childPlaced (lined : Lined s task) (consumer : Bool) (u : Nat) : Placed s u (task.child consumer) := by
  refine ⟨⟨?_,lined.proper,lined.begun⟩,fun _ none_ => (by cases none_),List.nodup_nil⟩
  have copied := ContextVars.copySees lined.sees
  rw [← List.map_append] at copied
  exact copied

theorem rootPlaced (u : Nat) : Placed s u root := by
  refine ⟨⟨⟨fun _ => rfl,trivial⟩,trivial,?_⟩,?_,List.nodup_nil⟩
  · intro c none_; cases none_
  · intro b none_; cases none_

theorem placedKept (placed : Placed s t task) (longer : s.chains.length ≤ s'.chains.length)
    (kept : ∀ f frame, Block.suspension f frame.chain ∈ task.blocks → s.frames[f]? = some frame →
      frame.task = t → frame.live = true →
      ∃ after, s'.frames[f]? = some after ∧ after.chain = frame.chain ∧ after.task = t ∧ after.live = true) :
    Placed s' t task := by
  refine ⟨⟨placed.sees,placed.proper,fun c member => Nat.lt_of_lt_of_le (placed.begun c member) longer⟩,?_,placed.apart⟩
  intro b member
  rcases placed.kinds b member with node | ⟨f,frame,rfl,there,own,live⟩
  · exact .inl node
  · obtain ⟨after,now,chain,mine,stays⟩ := kept f frame member there own live
    exact .inr ⟨f,after,by rw [chain],now,mine,stays⟩

theorem placedTasks {tasks : List Task} (placed : Placed s t task) : Placed {s with tasks := tasks} t task :=
  ⟨⟨placed.sees,placed.proper,placed.begun⟩,placed.kinds,placed.apart⟩

theorem tiedPermits (tied : Tied s) (tasks : s'.tasks = s.tasks) (longer : s.chains.length ≤ s'.chains.length)
    (frames : s'.frames = s.frames) : Tied s' := by
  constructor
  · intro t task there
    rw [tasks] at there
    exact placedKept (tied.placed t task there) longer
      (fun f frame _ there own live => ⟨frame,by rw [frames]; exact there,rfl,own,live⟩)
  · intro f frame there live
    rw [frames] at there
    rw [tasks]
    exact tied.inside f frame there live

theorem tiedAppend (tied : Tied s) {new : List Task} (born : ∀ child ∈ new, ∀ u, Placed s u child) :
    Tied {s with tasks := s.tasks ++ new} := by
  constructor
  · intro u child there
    rcases List.getElem?_append.symm.trans there with found
    split at found
    · exact placedTasks (tied.placed u child found)
    · exact placedTasks (born child (List.mem_of_getElem? found) u)
  · intro f frame there live
    obtain ⟨task,found,member⟩ := tied.inside f frame there live
    exact ⟨task,List.getElem?_append_left (Slots.inside found) ▸ found,member⟩

theorem tiedBorn (tied : Tied s) {child : Task} (placed : ∀ u, Placed s u child) :
    Tied {s with tasks := s.tasks ++ [child]} := by
  refine tiedAppend tied ?_
  intro new member u
  cases List.mem_singleton.mp member
  exact placed u

theorem tiedSet (tied : Tied s) (there : s.tasks[t]? = some task) (placed : Placed s t back)
    (same : ∀ f c, Block.suspension f c ∈ task.blocks → Block.suspension f c ∈ back.blocks) :
    Tied {s with tasks := s.tasks.set t back} := by
  constructor
  · intro u other found
    rcases Slots.setCases found with ⟨rfl,rfl⟩ | ⟨_,old⟩
    · exact placedTasks placed
    · exact placedTasks (tied.placed u other old)
  · intro f frame place live
    obtain ⟨own,found,member⟩ := tied.inside f frame place live
    by_cases mine : t = frame.task
    · subst mine
      cases Option.some.inj (there.symm.trans found)
      exact ⟨back,Slots.setSame there,same f _ member⟩
    · exact ⟨own,(Slots.setOther mine).trans found,member⟩

theorem tiedSuspend (tied : Tied s) (there : s.tasks[t]? = some task) {c : Nat}
    (inherited : task.vars.values .handlerChain = some c) (longer : s.chains.length ≤ s'.chains.length)
    (frames : s'.frames = s.frames ++ [⟨t,c,.body⟩])
    (tasks : s'.tasks = s.tasks.set t (task.enter (.suspension s.frames.length c))) : Tied s' := by
  have placed := tied.placed t task there
  have visible : seen (task.blocks ++ task.outer) .handlerChain = some c :=
    (linedSeen placed.toLined).symm.trans inherited
  have entered := enterLined (b := .suspension s.frames.length c) placed.toLined ⟨visible,placed.proper⟩
    (fun c same => by cases same)
  have fresh : ∀ d, Block.suspension s.frames.length d ∉ task.blocks := by
    intro d member
    rcases placed.kinds _ member with ⟨g,other⟩ | ⟨f,frame,same,place,_⟩
    · cases other
    · cases same
      exact absurd (Slots.inside place) (Nat.lt_irrefl _)
  have old : ∀ u other, s.tasks[u]? = some other → Placed s' u other := fun u other found =>
    placedKept (tied.placed u other found) longer
      (fun f frame _ place own live => ⟨frame,by rw [frames]; exact Slots.appendOld place,rfl,own,live⟩)
  constructor
  · intro u other found
    rw [tasks] at found
    rcases Slots.setCases found with ⟨rfl,rfl⟩ | ⟨_,before⟩
    · refine ⟨⟨entered.sees,entered.proper,(fun d member =>
        Nat.lt_of_lt_of_le (entered.begun d member) longer)⟩,?_,?_⟩
      · intro b member
        rcases List.mem_cons.mp member with rfl | inside
        · exact .inr ⟨_,_,rfl,by rw [frames]; exact Slots.appendNew,rfl,rfl⟩
        · exact (old t task there).kinds b inside
      · refine List.nodup_cons.mpr ⟨?_,placed.apart⟩
        intro again
        obtain ⟨b,member,own⟩ := List.mem_filterMap.mp again
        cases b with
        | suspension g d =>
          cases own
          exact fresh d member
        | _ => cases own
    · exact old u other before
  · intro f frame place live
    rw [frames] at place
    rcases Slots.appendCases place with ⟨rfl,rfl⟩ | before
    · exact ⟨_,by rw [tasks]; exact Slots.setSame there,List.mem_cons_self⟩
    · obtain ⟨own,found,member⟩ := tied.inside f frame before live
      by_cases mine : t = frame.task
      · subst mine
        cases Option.some.inj (there.symm.trans found)
        exact ⟨_,by rw [tasks]; exact Slots.setSame there,List.mem_cons_of_mem _ member⟩
      · exact ⟨own,by rw [tasks]; exact (Slots.setOther mine).trans found,member⟩

theorem tiedExit (tied : Tied s) (place : s.frames[f]? = some frame) {pc : ChainToken.FramePc}
    (was : frame.live = true) (stays : ({frame with pc := pc} : Frame).live = true)
    (longer : s.chains.length ≤ s'.chains.length) (frames : s'.frames = s.frames.set f {frame with pc := pc})
    (tasks : s'.tasks = s.tasks) : Tied s' := by
  constructor
  · intro u task found
    rw [tasks] at found
    refine placedKept (tied.placed u task found) longer ?_
    intro g other _ there own live
    by_cases same : f = g
    · subst same
      cases Option.some.inj (place.symm.trans there)
      exact ⟨{frame with pc := pc},by rw [frames]; exact Slots.setSame place,rfl,own,stays⟩
    · exact ⟨other,by rw [frames]; exact (Slots.setOther same).trans there,rfl,own,live⟩
  · intro g other there live
    rw [frames] at there
    rw [tasks]
    rcases Slots.setCases there with ⟨rfl,rfl⟩ | ⟨_,old⟩
    · exact tied.inside f frame place was
    · exact tied.inside g other old live

theorem tiedLeave (tied : Tied s) (place : s.frames[f]? = some frame) (there : s.tasks[frame.task]? = some task)
    (innermost : task.blocks.head? = some (.suspension f frame.chain)) (left : task.leave = some back)
    {pc : ChainToken.FramePc} (gone : ({frame with pc := pc} : Frame).live = false)
    (longer : s.chains.length ≤ s'.chains.length) (frames : s'.frames = s.frames.set f {frame with pc := pc})
    (tasks : s'.tasks = s.tasks.set frame.task back) : Tied s' := by
  have placed := tied.placed _ task there
  obtain ⟨rest,blocks⟩ := List.head?_eq_some_iff.mp innermost
  obtain ⟨lined,own⟩ := leftLined placed.toLined blocks left
  have apart : f ∉ rest.filterMap Block.frame ∧ (rest.filterMap Block.frame).Nodup := by
    have apart := placed.apart
    rw [blocks] at apart
    exact List.nodup_cons.mp apart
  have elsewhere : ∀ d, Block.suspension f d ∉ rest := fun d member =>
    apart.1 (List.mem_filterMap.mpr ⟨_,member,rfl⟩)
  have kept : ∀ (g : Nat) (other : Frame), g ≠ f → s.frames[g]? = some other → s'.frames[g]? = some other := by
    intro g other different found
    rw [frames]
    exact (Slots.setOther (Ne.symm different)).trans found
  constructor
  · intro u other found
    rw [tasks] at found
    rcases Slots.setCases found with ⟨rfl,rfl⟩ | ⟨different,old⟩
    · refine ⟨⟨lined.sees,lined.proper,(fun c member => Nat.lt_of_lt_of_le (lined.begun c member) longer)⟩,?_,?_⟩
      · intro b member
        rw [own] at member
        rcases placed.kinds b (by rw [blocks]; exact List.mem_cons_of_mem _ member) with node | ⟨g,held,rfl,found',mine⟩
        · exact .inl node
        · refine .inr ⟨g,held,rfl,kept g held ?_ found',mine⟩
          rintro rfl
          exact elsewhere _ member
      · rw [own]
        exact apart.2
    · refine placedKept (tied.placed u other old) longer ?_
      intro g held _ found' mine live
      refine ⟨held,kept g held ?_ found',rfl,mine,live⟩
      rintro rfl
      cases Option.some.inj (place.symm.trans found')
      exact different mine
  · intro g held found live
    rw [frames] at found
    rcases Slots.setCases found with ⟨rfl,rfl⟩ | ⟨different,old⟩
    · rw [gone] at live
      cases live
    · obtain ⟨other,found',member⟩ := tied.inside g held old live
      rw [tasks]
      by_cases mine : frame.task = held.task
      · rw [← mine] at found' ⊢
        cases Option.some.inj (there.symm.trans found')
        rw [blocks] at member
        rcases List.mem_cons.mp member with same | inside
        · exact absurd (Block.suspension.inj same).1.symm different
        · exact ⟨back,Slots.setSame there,by rw [own]; exact inside⟩
      · exact ⟨other,(Slots.setOther mine).trans found',member⟩

theorem stepTied {a : Action} (tied : Tied s) (taken : step s a = some s') : Tied s' := by
  cases stepCases taken with
  | outside => exact tiedBorn tied rootPlaced
  | spawn there => exact tiedBorn tied (childPlaced (tied.placed _ _ there).toLined false)
  | start there => exact tiedBorn tied (childPlaced (tied.placed _ _ there).toLined true)
  | request there => exact tiedPermits tied rfl (Nat.le_refl _) rfl
  | launch there granted =>
    rename_i i t task
    have longer : s.chains.length ≤ (s.bare.launch i).chains.length := by simp [ChainToken.State.launch,State.bare,State.within]
    have moved : Tied (s.after (s.bare.launch i)) := tiedPermits tied rfl longer rfl
    have lined := (moved.placed t task there).toLined
    refine tiedBorn moved (childPlaced (enterLined (b := .dispatch s.chains.length) lined ⟨?_,lined.proper⟩ ?_) false)
    · intro again
      exact absurd ((tied.placed t task there).begun _ again) (Nat.lt_irrefl _)
    · intro c same
      cases same
      simp [State.after,ChainToken.State.launch,State.bare,State.within]
  | launchFailed granted =>
    refine tiedPermits tied rfl ?_ ?_
    · simp [State.after,ChainToken.State.launchFailed,Ownership.closeChains,State.bare,State.within]
    · simp [State.after,ChainToken.State.launchFailed,Ownership.closeFrames,State.bare,State.within]
  | background there =>
    have lined := (tied.placed _ _ there).toLined
    have entered := enterLined (b := .background) lined lined.proper (fun c same => by cases same)
    exact tiedBorn tied (childPlaced entered false)
  | free there nothing => exact tied
  | late there own found closed => exact tied
  | suspend there own found opened =>
    refine tiedSuspend tied there own ?_ rfl rfl
    simp [State.after,ChainToken.State.enter,State.bare,State.within]
  | executeNode there =>
    rename_i t context n task
    have placed := tied.placed t task there
    have entered := enterLined (b := .node context) placed.toLined placed.proper (fun c same => by cases same)
    have moved := tiedSet tied there ⟨entered,(fun b member => by
      rcases List.mem_cons.mp member with rfl | old
      · exact .inl ⟨context,rfl⟩
      · exact placed.kinds b old),placed.apart⟩ (fun f c member => List.mem_cons_of_mem _ member)
    refine tiedAppend moved ?_
    intro child member u
    cases List.eq_of_mem_replicate member
    exact placedTasks (childPlaced entered false u)
  | leaveNode there blocks left =>
    rename_i t context task back rest
    have placed := tied.placed t task there
    obtain ⟨lined,own⟩ := leftLined placed.toLined blocks left
    refine tiedSet tied there ⟨lined,?_,?_⟩ ?_
    · intro b member
      rw [own] at member
      exact placed.kinds b (by rw [blocks]; exact List.mem_cons_of_mem _ member)
    · have apart := placed.apart
      rw [blocks] at apart
      rw [own]
      exact apart
    · intro f c member
      rw [blocks] at member
      rw [own]
      exact (List.mem_cons.mp member).resolve_left (fun same => by cases same)
  | aside moves moved => exact tiedPermits tied rfl (chainsLonger moved) (asideFrames moves moved)
  | exit moves place there innermost moved frames stays =>
    refine tiedExit tied place ?_ stays (chainsLonger moved) frames rfl
    obtain ⟨g,held,same,found,_,live⟩ := ((tied.placed _ _ there).kinds _ (List.mem_of_mem_head? innermost)).resolve_left
      (by rintro ⟨_,other⟩; cases other)
    rw [← (Block.suspension.inj same).1,place] at found
    cases Option.some.inj found
    exact live
  | through moves place there innermost moved frames gone left =>
    exact tiedLeave tied place there innermost left gone (chainsLonger moved) frames rfl

theorem runTied {capacity : Nat} {acts : List Action} (ran : Machine.run step (initial capacity) acts = some s) :
    Tied s := by
  refine Machine.invariant (fun _ _ _ => stepTied) ?_ ran
  constructor
  · intro t task there; cases there
  · intro f frame there; cases there

end Tied

end Apixis.ContextScope
