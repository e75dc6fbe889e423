import Apixis.Event.ChainToken

/-! Where the permits of the event loop are. Every permit is in the semaphore,
marked on a token, or in an acquisition granted to a task that has not resumed. -/
namespace Apixis.PermitLedger
open ChainToken

def held (c : Chain) : Bool := c.token.held
def frameGrant (f : Frame) : Bool := f.pc == .granted
def consumerGrant (a : Acquire) : Bool := a == .granted

def heldTokens (s : State) : Nat := s.chains.countP held

def grantedAcquisitions (s : State) : Nat :=
  s.consumers.countP consumerGrant + s.frames.countP frameGrant

def DispatchLeft (s : State) : Prop := ∃ c ∈ s.chains, c.phase = .running ∨ c.phase = .finished
instance (s : State) : Decidable (DispatchLeft s) := by unfold DispatchLeft; infer_instance

def SuspendedLeft (s : State) : Prop := ∃ f ∈ s.frames, f.live = true
instance (s : State) : Decidable (SuspendedLeft s) := by unfold SuspendedLeft; infer_instance

/- A closed token holds nothing, and a settled or failed dispatch has closed its token. -/
structure ChainFacts (c : Chain) : Prop where
  closed : c.token.closed = true → c.token.held = false
  settled : c.phase = .settled ∨ c.phase = .failed → c.token.closed = true

/- An exit that waits for the permit, or has been granted it, holds the resume
lock of its chain, and the chain holds no permit meanwhile. -/
def Acquiring (f : Frame) : Prop := f.pc = .permitWait ∨ f.pc = .granted
instance (f : Frame) : Decidable (Acquiring f) := by unfold Acquiring; infer_instance

/- Every exit of chain `i` that acquires has the lock of `token`, which holds no permit. -/
def Locked (s : State) (i : Nat) (token : HandlerChainToken) : Prop :=
  ∀ (g : Nat) (other : Frame), s.frames[g]? = some other → other.chain = i → Acquiring other →
    token.resumeLock = some g ∧ token.held = false

def Nobody (s : State) (i : Nat) : Prop :=
  ∀ (g : Nat) (other : Frame), s.frames[g]? = some other → other.chain = i → ¬Acquiring other

structure Ledger (capacity : Nat) (s : State) : Prop where
  bound : s.semaphore.boundValue = capacity
  total : s.semaphore.value + heldTokens s + grantedAcquisitions s = capacity
  exceeded : s.exceeded = false
  facts : ∀ c ∈ s.chains, ChainFacts c
  valid : ∀ f ∈ s.frames, f.chain < s.chains.length
  locked : ∀ (i : Nat) (chain : Chain), s.chains[i]? = some chain → Locked s i chain.token

variable {capacity i f : Nat} {s t : State} {a : Action} {chain next : Chain} {frame : Frame}
  {grant : Acquire} {pc : FramePc} {phase : Phase}

theorem initialLedger (capacity : Nat) : Ledger capacity (initial capacity) := by
  refine ⟨rfl,?_,rfl,?_,?_,?_⟩ <;> simp [initial,heldTokens,grantedAcquisitions]

theorem releaseOutside (outside : s.semaphore.value < s.semaphore.boundValue) :
    s.release = s.undo := by
  simp [State.release,State.undo,Nat.not_le.mpr outside]

theorem heldOutside (ledger : Ledger capacity s) (found : s.chains[i]? = some chain)
    (own : chain.token.held = true) : s.semaphore.value < s.semaphore.boundValue := by
  have counted := Slots.countPositive held found own
  have total := ledger.total
  have bound := ledger.bound
  simp only [heldTokens] at total
  omega

theorem grantOutside (ledger : Ledger capacity s) (place : s.frames[f]? = some frame)
    (pc : frame.pc = .granted) : s.semaphore.value < s.semaphore.boundValue := by
  have counted := Slots.countPositive frameGrant place (by simp [frameGrant,pc])
  have total := ledger.total
  have bound := ledger.bound
  simp only [grantedAcquisitions] at total
  omega

/- The changes a step is made of. Each says what the counter must do for the
ledger to balance again. -/
theorem consumerMoved (ledger : Ledger capacity s) (place : s.consumers[i]? = some grant)
    (after : Acquire) (value : Nat)
    (balance : value + (if consumerGrant after then 1 else 0) =
      s.semaphore.value + (if consumerGrant grant then 1 else 0)) :
    Ledger capacity {s with
      semaphore := {s.semaphore with value := value}, consumers := s.consumers.set i after} := by
  have moved := Slots.countSet (y := after) consumerGrant place
  have total := ledger.total
  refine ⟨ledger.bound,?_,ledger.exceeded,ledger.facts,ledger.valid,ledger.locked⟩
  simp only [heldTokens,grantedAcquisitions] at total ⊢
  omega

theorem frameMoved (ledger : Ledger capacity s) (place : s.frames[f]? = some frame)
    (pc : FramePc) (value : Nat)
    (balance : value + (if frameGrant {frame with pc := pc} then 1 else 0) =
      s.semaphore.value + (if frameGrant frame then 1 else 0))
    (lock : Acquiring {frame with pc := pc} → Acquiring frame) :
    Ledger capacity ({s with semaphore := {s.semaphore with value := value}}.setFrame f frame pc) := by
  have moved := Slots.countSet (y := {frame with pc := pc}) frameGrant place
  have total := ledger.total
  refine ⟨ledger.bound,?_,ledger.exceeded,ledger.facts,?_,?_⟩
  · simp only [heldTokens,grantedAcquisitions,State.setFrame] at total ⊢
    omega
  · intro x member
    rcases List.mem_or_eq_of_mem_set member with old | new
    · exact ledger.valid x old
    · subst new; exact ledger.valid frame (List.mem_of_getElem? place)
  · intro i chain inside g other found same waits
    rcases Slots.setCases found with ⟨rfl,rfl⟩ | ⟨_,old⟩
    · exact ledger.locked i chain inside _ frame place same (lock waits)
    · exact ledger.locked i chain inside g other old same waits

/- A chain is replaced. Whoever waits for its permit must find the lock its own
and the chain still without a permit. -/
theorem chainMoved (ledger : Ledger capacity s) (found : s.chains[i]? = some chain)
    (next : Chain) (good : ChainFacts next) (value : Nat)
    (balance : value + (if held next then 1 else 0) =
      s.semaphore.value + (if held chain then 1 else 0))
    (lock : Locked s i next.token) :
    Ledger capacity {s with
      semaphore := {s.semaphore with value := value}, chains := s.chains.set i next} := by
  have moved := Slots.countSet (y := next) held found
  have total := ledger.total
  refine ⟨ledger.bound,?_,ledger.exceeded,?_,by simpa using ledger.valid,?_⟩
  · simp only [heldTokens,grantedAcquisitions] at total ⊢
    omega
  · intro x member
    rcases List.mem_or_eq_of_mem_set member with old | new
    · exact ledger.facts x old
    · subst new; exact good
  · intro j x inside
    rcases Slots.setCases inside with ⟨rfl,rfl⟩ | ⟨_,old⟩
    · exact lock
    · exact ledger.locked j x old

theorem chainAppended (ledger : Ledger capacity s) (next : Chain) (good : ChainFacts next)
    (value : Nat) (balance : value + (if held next then 1 else 0) = s.semaphore.value) :
    Ledger capacity {s with
      semaphore := {s.semaphore with value := value}, chains := s.chains ++ [next]} := by
  have total := ledger.total
  refine ⟨ledger.bound,?_,ledger.exceeded,?_,?_,?_⟩
  · simp only [heldTokens,grantedAcquisitions,Slots.countAppend] at total ⊢
    omega
  · intro x member
    rcases List.mem_append.mp member with old | new
    · exact ledger.facts x old
    · rw [List.mem_singleton.mp new]; exact good
  · intro x member
    have bound := ledger.valid x member
    simp only [List.length_append]
    omega
  · intro j x inside g other place same waits
    have bound := ledger.valid other (List.mem_of_getElem? place)
    rcases Slots.appendCases inside with ⟨new,_⟩ | old
    · omega
    · exact ledger.locked j x old g other place same waits

theorem tasksFree (ledger : Ledger capacity s) (tasks : List Task) :
    Ledger capacity {s with tasks := tasks} :=
  ⟨ledger.bound,ledger.total,ledger.exceeded,ledger.facts,ledger.valid,ledger.locked⟩

theorem frameAppended (ledger : Ledger capacity s) (task c : Nat) (valid : c < s.chains.length) :
    Ledger capacity {s with frames := s.frames ++ [⟨task,c,.body⟩]} := by
  have total := ledger.total
  refine ⟨ledger.bound,?_,ledger.exceeded,ledger.facts,?_,?_⟩
  · simp only [heldTokens,grantedAcquisitions,Slots.countAppend] at total ⊢
    simpa [frameGrant] using total
  · intro x member
    rcases List.mem_append.mp member with old | new
    · exact ledger.valid x old
    · rw [List.mem_singleton.mp new]; exact valid
  · intro i chain inside g other place same waits
    rcases Slots.appendCases place with ⟨_,rfl⟩ | old
    · rcases waits with h | h <;> contradiction
    · exact ledger.locked i chain inside g other old same waits

theorem tokenKept (ledger : Ledger capacity s) (found : s.chains[i]? = some chain)
    (token : HandlerChainToken) (own : token.held = chain.token.held)
    (closed : token.closed = chain.token.closed) (lock : token.resumeLock = chain.token.resumeLock) :
    Ledger capacity (s.setToken i chain token) := by
  have old := ledger.facts chain (List.mem_of_getElem? found)
  have same : held {chain with token := token} = held chain := own
  refine chainMoved ledger found {chain with token := token} ⟨?_,?_⟩ s.semaphore.value
    (by rw [same]) ?_
  · intro h; rw [own]; exact old.closed (closed ▸ h)
  · intro h; rw [closed]; exact old.settled h
  · intro g other place mine waits
    rw [lock,own]
    exact ledger.locked i chain found g other place mine waits

theorem lockedWithout (ledger : Ledger capacity s) (found : s.chains[i]? = some chain)
    (token : HandlerChainToken) (lock : token.resumeLock = chain.token.resumeLock)
    (without : token.held = false) : Locked s i token := by
  intro g other place mine waits
  exact ⟨lock.trans (ledger.locked i chain found g other place mine waits).1,without⟩

theorem closeLedger (ledger : Ledger capacity s) (found : s.chains[i]? = some chain) :
    Ledger capacity (s.close i chain phase) := by
  have lock := lockedWithout ledger found {chain.token with closed := true, held := false} rfl rfl
  by_cases own : chain.token.held = true
  · have room := heldOutside ledger found own
    simp only [State.close,own,if_true,releaseOutside room]
    exact chainMoved ledger found _ ⟨fun _ => rfl,fun _ => rfl⟩ _ (by simp [held,own]) lock
  · simp only [State.close,own]
    exact chainMoved ledger found _ ⟨fun _ => rfl,fun _ => rfl⟩ s.semaphore.value
      (by simp [held,own]) lock

theorem enterLedger (ledger : Ledger capacity s) (found : s.chains[i]? = some chain) (task : Nat) :
    Ledger capacity (s.enter task i chain) := by
  have old := ledger.facts chain (List.mem_of_getElem? found)
  have bound := Slots.inside found
  let next : Chain := {chain with token :=
    {chain.token with suspended := chain.token.suspended + 1, held := false}}
  have good : ChainFacts next := ⟨fun _ => rfl,old.settled⟩
  have lock := lockedWithout ledger found next.token rfl rfl
  by_cases own : chain.token.held = true
  · have room := heldOutside ledger found own
    simp only [State.enter,own,if_true,releaseOutside room]
    exact frameAppended (chainMoved ledger found next good (s.semaphore.value + 1)
      (by simp [held,next,own]) lock) task i (by simpa using bound)
  · simp only [State.enter,own]
    exact frameAppended (chainMoved ledger found next good s.semaphore.value
      (by simp [held,next,own]) lock) task i (by simpa using bound)

theorem leaveBodyLedger (ledger : Ledger capacity s) (place : s.frames[f]? = some frame)
    (found : s.chains[frame.chain]? = some chain) (body : frame.pc = .body) :
    Ledger capacity (s.leaveBody f frame chain) := by
  have counted := tokenKept ledger found {chain.token with suspended := chain.token.suspended - 1}
    rfl rfl rfl
  unfold State.leaveBody
  refine frameMoved counted (f := f) place _ s.semaphore.value ?_ ?_
  · split <;> simp [State.setToken,frameGrant,body]
  · split <;> simp [Acquiring]

theorem lockLedger (ledger : Ledger capacity s) (place : s.frames[f]? = some frame)
    (found : s.chains[frame.chain]? = some chain) (waits : frame.pc = .lockWait)
    (unlocked : chain.token.resumeLock = none) : Ledger capacity (s.lock f frame chain) := by
  have nobody : Nobody s frame.chain := by
    intro g other at_ same acquiring
    have lock := ledger.locked frame.chain chain found g other at_ same acquiring
    rw [unlocked] at lock
    exact absurd lock.1 (by simp)
  unfold State.lock
  split
  · rename_i wants
    simp only [HandlerChainToken.wants,Bool.and_eq_true,Bool.not_eq_true',decide_eq_true_eq] at wants
    have old := ledger.facts chain (List.mem_of_getElem? found)
    have marked := chainMoved ledger found
      {chain with token := {chain.token with resumeLock := some f}} ⟨old.closed,old.settled⟩
      s.semaphore.value rfl (fun g other at_ same acquiring =>
        absurd acquiring (nobody g other at_ same))
    have total := marked.total
    have moved := Slots.countSetSame (y := {frame with pc := .permitWait}) frameGrant place
      (by simp [frameGrant,waits])
    refine ⟨marked.bound,?_,marked.exceeded,marked.facts,?_,?_⟩
    · simp only [heldTokens,grantedAcquisitions,State.setFrame,State.setToken] at total ⊢
      omega
    · intro x member
      rcases List.mem_or_eq_of_mem_set member with old | new
      · exact marked.valid x old
      · subst new; exact marked.valid frame (List.mem_of_getElem? place)
    · intro j x inside g other at_ same acquiring
      rcases Slots.setCases at_ with ⟨rfl,rfl⟩ | ⟨_,before⟩
      · simp only at same
        subst same
        simp only [State.setFrame,State.setToken] at inside
        rw [Slots.setSame found] at inside
        cases Option.some.inj inside
        exact ⟨rfl,wants.1.2⟩
      · exact marked.locked j x inside g other before same acquiring
  · exact frameMoved ledger place .left s.semaphore.value (by simp [frameGrant,waits]) (by simp [Acquiring])

theorem unlockLedger (ledger : Ledger capacity s) (found : s.chains[i]? = some chain)
    (alone : Nobody s i)
    (token : HandlerChainToken) (good : ChainFacts {chain with token := token}) (value : Nat)
    (balance : value + (if token.held then 1 else 0) =
      s.semaphore.value + (if chain.token.held then 1 else 0)) :
    Ledger capacity ({s with semaphore := {s.semaphore with value := value}}.setToken i chain token) :=
  chainMoved ledger found {chain with token := token} good value balance
    (fun g other place same waits => absurd waits (alone g other place same))

theorem aloneAfter (ledger : Ledger capacity s) (place : s.frames[f]? = some frame)
    (found : s.chains[frame.chain]? = some chain) (waits : Acquiring frame) :
    Nobody (s.setFrame f frame .left) frame.chain := by
  intro g other at_ same acquiring
  rcases Slots.setCases at_ with ⟨_,rfl⟩ | ⟨different,before⟩
  · simp [Acquiring] at acquiring
  · have mine := (ledger.locked frame.chain chain found f frame place rfl waits).1
    have theirs := (ledger.locked frame.chain chain found g other before same acquiring).1
    exact different (Option.some.inj (mine.symm.trans theirs))

theorem resumeLedger (ledger : Ledger capacity s) (place : s.frames[f]? = some frame)
    (found : s.chains[frame.chain]? = some chain) (granted : frame.pc = .granted) :
    Ledger capacity (s.resume f frame chain) := by
  have room := grantOutside ledger place granted
  have old := ledger.facts chain (List.mem_of_getElem? found)
  have without := (ledger.locked frame.chain chain found f frame place rfl (.inr granted)).2
  have alone := aloneAfter ledger place found (.inr granted)
  -- first the acquisition ends and its permit is back in the semaphore
  have ended := frameMoved ledger place .left (s.semaphore.value + 1)
    (by simp [frameGrant,granted]) (by simp [Acquiring])
  unfold State.resume
  split
  · rw [releaseOutside room]
    exact unlockLedger ended found alone {chain.token with resumeLock := none}
      ⟨old.closed,old.settled⟩ (s.semaphore.value + 1) rfl
  · rename_i keep
    simp only [Bool.or_eq_true,not_or,Bool.not_eq_true] at keep
    exact unlockLedger ended found alone {chain.token with resumeLock := none, held := true}
      ⟨fun h => absurd h (by simp [keep.1]),old.settled⟩ s.semaphore.value
      (by simp [without,State.setFrame])

theorem interruptLedger (ledger : Ledger capacity s) (place : s.frames[f]? = some frame)
    (found : s.chains[frame.chain]? = some chain)
    (waits : frame.pc = .lockWait ∨ frame.pc = .permitWait ∨ frame.pc = .granted) :
    Ledger capacity (s.interrupt f frame chain) := by
  have old := ledger.facts chain (List.mem_of_getElem? found)
  rcases waits with lockWait | permitWait | granted
  · simp only [State.interrupt,lockWait]
    exact frameMoved ledger place .left s.semaphore.value (by simp [frameGrant,lockWait])
      (by simp [Acquiring])
  · simp only [State.interrupt,permitWait]
    have ended := frameMoved ledger place .left s.semaphore.value (by simp [frameGrant,permitWait])
      (by simp [Acquiring])
    have alone := aloneAfter ledger place found (.inl permitWait)
    exact unlockLedger ended found alone {chain.token with resumeLock := none}
      ⟨old.closed,old.settled⟩ s.semaphore.value rfl
  · simp only [State.interrupt,granted]
    have ended := frameMoved ledger place .left (s.semaphore.value + 1) (by simp [frameGrant,granted])
      (by simp [Acquiring])
    have alone := aloneAfter ledger place found (.inr granted)
    exact unlockLedger ended found alone {chain.token with resumeLock := none}
      ⟨old.closed,old.settled⟩ (s.semaphore.value + 1) rfl

theorem launchLedger (ledger : Ledger capacity s) (granted : s.consumers[i]? = some .granted) :
    Ledger capacity (s.launch i) := by
  have ended := consumerMoved ledger granted .past (s.semaphore.value + 1) (by simp [consumerGrant])
  have created := chainAppended ended ⟨newToken,some s.tasks.length,.running⟩
    ⟨by simp [newToken],by simp⟩ s.semaphore.value (by simp [held,newToken])
  exact tasksFree created _

theorem launchFailedLedger (ledger : Ledger capacity s)
    (granted : s.consumers[i]? = some .granted) : Ledger capacity (s.launchFailed i) := by
  have ended := consumerMoved ledger granted .past (s.semaphore.value + 1) (by simp [consumerGrant])
  have created := chainAppended ended ⟨newToken,none,.running⟩
    ⟨by simp [newToken],by simp⟩ s.semaphore.value (by simp [held,newToken])
  exact closeLedger created Slots.appendNew

theorem stepLedger (ledger : Ledger capacity s) (taken : step s a = some t) : Ledger capacity t := by
  cases stepCases taken with
  | request =>
    refine ⟨ledger.bound,?_,ledger.exceeded,ledger.facts,ledger.valid,ledger.locked⟩
    have total := ledger.total
    simp only [heldTokens,grantedAcquisitions,Slots.countAppend] at total ⊢
    simpa [consumerGrant] using total
  | grantConsumer waiting free =>
    exact consumerMoved ledger waiting .granted _ (by simp [consumerGrant]; omega)
  | dropConsumer waiting => exact consumerMoved ledger waiting .past s.semaphore.value (by simp [consumerGrant])
  | returnConsumer granted => exact consumerMoved ledger granted .past _ (by simp [consumerGrant])
  | launch granted => exact launchLedger ledger granted
  | launchFailed granted => exact launchFailedLedger ledger granted
  | spawn task => exact tasksFree ledger _
  | detached => exact tasksFree ledger _
  | pass => exact ledger
  | enter inherited found opened => exact enterLedger ledger found _
  | leaveBody place found pc => exact leaveBodyLedger ledger place found pc
  | lock place found pc unlocked => exact lockLedger ledger place found pc unlocked
  | grantFrame place pc free =>
    exact frameMoved ledger place .granted _ (by simp [frameGrant,pc]; omega) (fun _ => .inl pc)
  | resume place found pc => exact resumeLedger ledger place found pc
  | interrupt place found pc => exact interruptLedger ledger place found pc
  | finish found phase =>
    rename_i c chain
    have old := ledger.facts chain (List.mem_of_getElem? found)
    exact chainMoved ledger found {chain with phase := .finished} ⟨old.closed,by simp⟩
      s.semaphore.value rfl (ledger.locked c chain found)
  | onDispatchDone found phase => exact closeLedger ledger found

theorem runLedger {r : List Action} (ran : Machine.run step (initial capacity) r = some s) :
    Ledger capacity s :=
  Machine.invariant (fun _ _ _ => stepLedger) (initialLedger capacity) ran

theorem idleLedger (ledger : Ledger capacity s) (noDispatch : ¬DispatchLeft s)
    (noSuspended : ¬SuspendedLeft s) :
    s.semaphore.value + s.consumers.countP consumerGrant = capacity := by
  have chains : heldTokens s = 0 := by
    refine List.countP_eq_zero.mpr ?_
    intro c member own
    have facts := ledger.facts c member
    have past : c.phase = .settled ∨ c.phase = .failed := by
      cases phase : c.phase with
      | running => exact absurd ⟨c,member,.inl phase⟩ noDispatch
      | finished => exact absurd ⟨c,member,.inr phase⟩ noDispatch
      | settled => exact .inl rfl
      | failed => exact .inr rfl
    have free := facts.closed (facts.settled past)
    simp [held,free] at own
  have frames : s.frames.countP frameGrant = 0 := by
    refine List.countP_eq_zero.mpr ?_
    intro f member granted
    exact noSuspended ⟨f,member,by simp_all [frameGrant,Frame.live]⟩
  have total := ledger.total
  simp only [grantedAcquisitions] at total
  omega

theorem permitsConserved {r : List Action} (ran : Machine.run step (initial capacity) r = some s) :
    s.semaphore.value + heldTokens s + grantedAcquisitions s = capacity ∧
    (∀ c ∈ s.chains, c.phase = .settled ∨ c.phase = .failed → c.token.held = false) ∧
    s.exceeded = false ∧
    (¬DispatchLeft s → ¬SuspendedLeft s → grantedAcquisitions s = 0 →
      s.semaphore.value = capacity) := by
  have ledger := runLedger ran
  refine ⟨ledger.total,?_,ledger.exceeded,?_⟩
  · intro c member past
    have facts := ledger.facts c member
    exact facts.closed (facts.settled past)
  · intro noDispatch noSuspended noGrant
    have idle := idleLedger ledger noDispatch noSuspended
    simp only [grantedAcquisitions] at noGrant
    omega

/- With one permit: a handler lends it to a second dispatch and takes it back; then the
consumer waits for capacity while the first dispatch ends, and the released permit is
granted to it before it resumes. -/
def handOver : List Action :=
  [.request,.grantConsumer 0,.launch 0 true,.enter 0,.request,.grantConsumer 1,.launch 1 true,.leaveBody 0,
    .lock 0,.finish 1,.onDispatchDone 1,.grantFrame 0,.resume 0,.request,.finish 0,.onDispatchDone 0,
    .grantConsumer 2]

def handedOver : State := (Machine.run step (initial 1) handOver).getD (initial 1)

example : handedOver.frames.map Frame.live = [false] ∧ handedOver.consumers = [.past,.past,.granted] := by decide

theorem permitsConservedHandOver :
    handedOver.semaphore.value + heldTokens handedOver + grantedAcquisitions handedOver = 1 ∧
    (∀ c ∈ handedOver.chains, c.phase = .settled ∨ c.phase = .failed → c.token.held = false) ∧
    handedOver.exceeded = false ∧
    (¬DispatchLeft handedOver → ¬SuspendedLeft handedOver → grantedAcquisitions handedOver = 0 →
      handedOver.semaphore.value = 1) :=
  permitsConserved (r := handOver) rfl

theorem permitOwedToConsumer :
    ¬∀ capacity as s, Machine.run step (initial capacity) as = some s →
      ¬DispatchLeft s → ¬SuspendedLeft s → s.semaphore.value = capacity := by
  intro claim
  have full := claim 1 handOver handedOver rfl (by decide) (by decide)
  exact absurd full (by decide)

end Apixis.PermitLedger
