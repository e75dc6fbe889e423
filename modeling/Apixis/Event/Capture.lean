import Apixis.Event.ChainCache
import Apixis.Event.Conservation
import Apixis.Event.Dispatch

/-! The event loop as one machine: registry, consumer and dispatches. The chain of
an event is resolved in the step that takes it from the queue; after that the
registry and the dispatch only share the instances themselves. -/
namespace Apixis.Capture
open HandlerRegistry (Registry)
open Consumer (Item Resolution Preparation)

section Walk
variable {η : Type} {flags : η → Dispatch.Flags} {s t : Dispatch.State η} {a : Dispatch.Action}
  {l m : List (Dispatch.Use η)} {handler : η}

def visited (uses : List (Dispatch.Use η)) : List η := uses.filterMap (fun use => match use with
  | .visit handler _ => some handler
  | _ => none)

def cleaned (uses : List (Dispatch.Use η)) : List η := uses.filterMap (fun use => match use with
  | .clean handler _ => some handler
  | _ => none)

def Reached (uses : List (Dispatch.Use η)) : Dispatch.Use η → Prop
  | .callback handler _ background => .visit handler background ∈ uses
  | .backgroundCancelled handler => .visit handler true ∈ uses
  | _ => True

def VisitedAt (s : Dispatch.State η) : Prop := match s.pc with
  | .created => visited s.uses = []
  | .visit i => visited s.uses = s.chain.take i ∧ i ≤ s.chain.length
  | .execute i _ => visited s.uses = s.chain.take (i + 1) ∧
      ∃ handler, s.chain[i]? = some handler ∧ .visit handler false ∈ s.uses
  | .returned => visited s.uses = s.chain
  | _ => True

def CleanedAt (s : Dispatch.State η) : Prop := match s.pc with
  | .cleanup i => cleaned s.uses = s.chain.take i ∧ i ≤ s.chain.length
  | .notifying i => cleaned s.uses = s.chain.take (i + 1) ∧ i < s.chain.length
  | .cancelled => cleaned s.uses = s.chain ∨ s.uses = []
  | _ => cleaned s.uses = []

/- Both loops walk the chain in order, and callbacks are those of handlers reached. -/
structure Walked (s : Dispatch.State η) : Prop where
  visits : visited s.uses <+: s.chain
  visitedAt : VisitedAt s
  cleans : cleaned s.uses <+: s.chain
  cleanedAt : CleanedAt s
  reached : ∀ use ∈ s.uses, Reached s.uses use
  backgrounds : ∀ task ∈ s.backgrounds, .visit task.handler true ∈ s.uses
  unused : s.pc = .created → s.uses = []

theorem visitedAppend : visited (l ++ m) = visited l ++ visited m := List.filterMap_append

theorem cleanedAppend : cleaned (l ++ m) = cleaned l ++ cleaned m := List.filterMap_append

theorem executeUse (pc : Dispatch.ExecutePc) (handler : η) (background : Bool) :
    visited (pc.use handler background) = [] ∧ cleaned (pc.use handler background) = [] := by
  cases pc <;> exact ⟨rfl,rfl⟩

theorem nextUse (next : Dispatch.Next) (handler : η) (background : Bool) :
    visited (next.use handler background) = [] ∧ cleaned (next.use handler background) = [] := by
  cases next with
  | go pc => exact executeUse pc handler background
  | finished => exact ⟨rfl,rfl⟩
  | cancelled => exact ⟨rfl,rfl⟩

theorem useReached (pc : Dispatch.ExecutePc) {background : Bool}
    (there : .visit handler background ∈ m) : ∀ use ∈ pc.use handler background, Reached m use := by
  intro use member
  cases pc with
  | gate => simp [Dispatch.ExecutePc.use] at member
  | calling phase parent =>
    rw [List.mem_singleton.mp member]
    exact there

theorem nextReached (next : Dispatch.Next) {background : Bool}
    (there : .visit handler background ∈ m) : ∀ use ∈ next.use handler background, Reached m use := by
  intro use member
  cases next with
  | go pc => exact useReached pc there use member
  | finished => simp [Dispatch.Next.use] at member
  | cancelled => simp [Dispatch.Next.use] at member

theorem reachedMore {use : Dispatch.Use η} (known : Reached l use) : Reached (l ++ m) use := by
  cases use with
  | visit handler background => trivial
  | callback handler phase background => exact List.mem_append_left _ known
  | clean handler notified => trivial
  | backgroundCancelled handler => exact List.mem_append_left _ known

theorem reachedAppend (known : ∀ use ∈ l, Reached l use) (new : ∀ use ∈ m, Reached (l ++ m) use) :
    ∀ use ∈ l ++ m, Reached (l ++ m) use := by
  intro use member
  rcases List.mem_append.mp member with old | fresh
  · exact reachedMore (known use old)
  · exact new use fresh

theorem takeNext {chain : List η} {i : Nat} (found : chain[i]? = some handler) :
    chain.take (i + 1) = chain.take i ++ [handler] := by
  rw [List.take_add_one,found]
  rfl

theorem takeAll {chain : List η} {i : Nat} (past : chain[i]? = none) : chain.take i = chain := by
  have length := List.getElem?_eq_none_iff.mp past
  exact List.take_of_length_le length

theorem initialWalked (chain : List η) : Walked (Dispatch.initial chain) :=
  ⟨List.nil_prefix,rfl,List.nil_prefix,rfl,by simp [Dispatch.initial],by simp [Dispatch.initial],
    fun _ => rfl⟩

theorem executedWalked {i : Nat} {pc : Dispatch.ExecutePc} {next : Dispatch.Next}
    (walked : Walked s) (at_ : s.pc = .execute i pc) (found : s.chain[i]? = some handler)
    (event : Dispatch.Event η) :
    Walked ({s with pc := next.foreground i, event := event}.note (next.use handler false)) := by
  have visitedAt := walked.visitedAt
  have cleanedAt := walked.cleanedAt
  simp only [VisitedAt,CleanedAt,at_] at visitedAt cleanedAt
  obtain ⟨visits,handler',found',there⟩ := visitedAt
  cases Option.some.inj (found.symm.trans found')
  obtain ⟨noVisit,noClean⟩ := nextUse next handler false
  have bound := Slots.inside found
  have sameVisits : visited (s.uses ++ next.use handler false) = visited s.uses := by
    rw [visitedAppend,noVisit,List.append_nil]
  have sameCleans : cleaned (s.uses ++ next.use handler false) = cleaned s.uses := by
    rw [cleanedAppend,noClean,List.append_nil]
  refine ⟨?_,?_,?_,?_,?_,?_,?_⟩
  · simp only [Dispatch.State.note,sameVisits]
    exact walked.visits
  · cases next with
    | go pc' =>
      simp only [VisitedAt,Dispatch.State.note,Dispatch.Next.foreground,sameVisits]
      exact ⟨visits,handler,found,List.mem_append_left _ there⟩
    | finished =>
      simp only [VisitedAt,Dispatch.State.note,Dispatch.Next.foreground,sameVisits]
      exact ⟨visits,Nat.succ_le_of_lt bound⟩
    | cancelled => trivial
  · simp only [Dispatch.State.note,sameCleans]
    exact walked.cleans
  · cases next with
    | go pc' => simpa only [CleanedAt,Dispatch.State.note,Dispatch.Next.foreground,sameCleans] using cleanedAt
    | finished => simpa only [CleanedAt,Dispatch.State.note,Dispatch.Next.foreground,sameCleans] using cleanedAt
    | cancelled =>
      simp only [CleanedAt,Dispatch.State.note,Dispatch.Next.foreground,sameCleans]
      exact ⟨cleanedAt,Nat.zero_le _⟩
  · exact reachedAppend walked.reached (nextReached next (List.mem_append_left _ there))
  · intro task member
    exact List.mem_append_left _ (walked.backgrounds task member)
  · intro created
    cases next <;> simp [Dispatch.State.note,Dispatch.Next.foreground] at created

theorem visitedAtMore (known : VisitedAt s) (pc : t.pc = s.pc) (chain : t.chain = s.chain)
    (uses : t.uses = s.uses ++ m) (noVisit : visited m = []) : VisitedAt t := by
  have same : visited t.uses = visited s.uses := by rw [uses,visitedAppend,noVisit,List.append_nil]
  unfold VisitedAt at known ⊢
  rw [pc]
  cases at_ : s.pc with
  | created => simpa only [at_,same] using known
  | visit i => simpa only [at_,same,chain] using known
  | execute i pc' =>
    simp only [at_,same,chain] at known ⊢
    obtain ⟨visits,handler,found,member⟩ := known
    exact ⟨visits,handler,found,by rw [uses]; exact List.mem_append_left _ member⟩
  | returned => simpa only [at_,same,chain] using known
  | cleanup i => trivial
  | notifying i => trivial
  | cancelled => trivial

theorem cleanedAtMore (known : CleanedAt s) (pc : t.pc = s.pc) (chain : t.chain = s.chain)
    (uses : t.uses = s.uses ++ m) (noClean : cleaned m = []) (used : s.uses ≠ []) : CleanedAt t := by
  have same : cleaned t.uses = cleaned s.uses := by rw [uses,cleanedAppend,noClean,List.append_nil]
  unfold CleanedAt at known ⊢
  rw [pc]
  cases at_ : s.pc with
  | cancelled =>
    simp only [at_,same,chain] at known ⊢
    exact .inl (known.resolve_right used)
  | created => simpa only [at_,same] using known
  | visit i => simpa only [at_,same] using known
  | execute i pc' => simpa only [at_,same] using known
  | returned => simpa only [at_,same] using known
  | cleanup i => simpa only [at_,same,chain] using known
  | notifying i => simpa only [at_,same,chain] using known

theorem backgroundWalked {k : Nat} {task : Dispatch.Background η} (pc : Dispatch.BackgroundPc)
    (walked : Walked s) (found : s.backgrounds[k]? = some task) (event : Dispatch.Event η)
    (noVisit : visited m = []) (noClean : cleaned m = [])
    (reaches : ∀ use ∈ m, Reached (s.uses ++ m) use) :
    Walked ({s with event := event}.setBackground k task pc |>.note m) := by
  have there := walked.backgrounds task (List.mem_of_getElem? found)
  have used : s.uses ≠ [] := List.ne_nil_of_mem there
  have sameVisits : visited (s.uses ++ m) = visited s.uses := by
    rw [visitedAppend,noVisit,List.append_nil]
  have sameCleans : cleaned (s.uses ++ m) = cleaned s.uses := by
    rw [cleanedAppend,noClean,List.append_nil]
  refine ⟨?_,visitedAtMore walked.visitedAt rfl rfl rfl noVisit,?_,
    cleanedAtMore walked.cleanedAt rfl rfl rfl noClean used,reachedAppend walked.reached reaches,?_,?_⟩
  · simp only [Dispatch.State.note,Dispatch.State.setBackground,sameVisits]
    exact walked.visits
  · simp only [Dispatch.State.note,Dispatch.State.setBackground,sameCleans]
    exact walked.cleans
  · intro other member
    refine List.mem_append_left _ ?_
    rcases List.mem_or_eq_of_mem_set member with old | new
    · exact walked.backgrounds other old
    · rw [new]
      exact there
  · intro created
    exact absurd (walked.unused created) used

theorem backgroundNextWalked {k : Nat} {task : Dispatch.Background η} (walked : Walked s)
    (found : s.backgrounds[k]? = some task) (event : Dispatch.Event η) (options : Dispatch.Flags)
    (next : Dispatch.Next) :
    Walked ({s with event := event}.backgroundNext options k task next) := by
  have there := walked.backgrounds task (List.mem_of_getElem? found)
  have quiet : ∀ pc, Walked ({s with event := event}.setBackground k task pc) := by
    intro pc
    have step := backgroundWalked (m := []) pc walked found event rfl rfl (by simp)
    simpa only [Dispatch.State.note,List.append_nil] using step
  cases next with
  | go pc =>
    obtain ⟨noVisit,noClean⟩ := executeUse pc task.handler true
    exact backgroundWalked _ walked found event noVisit noClean
      (useReached pc (List.mem_append_left _ there))
  | finished => exact quiet .ended
  | cancelled =>
    unfold Dispatch.State.backgroundNext
    simp only
    split
    · refine backgroundWalked _ walked found event rfl rfl ?_
      intro use member
      rw [List.mem_singleton.mp member]
      exact List.mem_append_left _ there
    · exact quiet .ended

theorem reachedHandler {i : Nat} (background : Bool) (walked : Walked s) (at_ : s.pc = .visit i)
    (found : s.chain[i]? = some handler) (quiet : visited m = []) :
    visited (s.uses ++ .visit handler background :: m) = s.chain.take (i + 1) := by
  have visitedAt := walked.visitedAt
  simp only [VisitedAt,at_] at visitedAt
  have one : visited (.visit handler background :: m) = handler :: visited m := rfl
  rw [visitedAppend,one,quiet,visitedAt.1,takeNext found]

theorem cleanWalked {i : Nat} (walked : Walked s) (at_ : s.pc = .cleanup i)
    (found : s.chain[i]? = some handler) (hook : Bool) (pc : Dispatch.Pc)
    (goes : pc = .cleanup (i + 1) ∨ pc = .notifying i) :
    Walked ({s with pc := pc}.note [.clean handler hook]) := by
  have cleanedAt := walked.cleanedAt
  simp only [CleanedAt,at_] at cleanedAt
  have bound : i < s.chain.length := Slots.inside found
  have sameVisits : visited (s.uses ++ [.clean handler hook]) = visited s.uses := by
    rw [visitedAppend]
    exact List.append_nil _
  have cleans : cleaned (s.uses ++ [.clean handler hook]) = s.chain.take (i + 1) := by
    rw [cleanedAppend,cleanedAt.1,takeNext found]
    rfl
  refine ⟨?_,?_,?_,?_,reachedAppend walked.reached (by simp [Reached]),?_,?_⟩
  · simp only [Dispatch.State.note,sameVisits]
    exact walked.visits
  · rcases goes with rfl | rfl <;> trivial
  · simp only [Dispatch.State.note,cleans]
    exact List.take_prefix _ _
  · rcases goes with rfl | rfl
    · exact ⟨cleans,bound⟩
    · exact ⟨cleans,bound⟩
  · intro task member
    exact List.mem_append_left _ (walked.backgrounds task member)
  · rcases goes with rfl | rfl <;> simp [Dispatch.State.note]

theorem stepWalked (walked : Walked s) (taken : Dispatch.step flags s a = some t) : Walked t := by
  have visitedAt := walked.visitedAt
  have cleanedAt := walked.cleanedAt
  cases Dispatch.stepCases taken with
  | begin pc =>
    simp only [VisitedAt,CleanedAt,pc] at visitedAt cleanedAt
    exact ⟨walked.visits,⟨visitedAt,Nat.zero_le _⟩,walked.cleans,cleanedAt,walked.reached,
      walked.backgrounds,by simp⟩
  | kill pc =>
    exact ⟨walked.visits,trivial,walked.cleans,.inr (walked.unused pc),walked.reached,
      walked.backgrounds,by simp⟩
  | finish pc past =>
    simp only [VisitedAt,CleanedAt,pc] at visitedAt cleanedAt
    exact ⟨walked.visits,visitedAt.1.trans (takeAll past),walked.cleans,cleanedAt,
      walked.reached,walked.backgrounds,by simp⟩
  | @hand i handler pc found background =>
    have reached := reachedHandler (m := []) true walked pc found rfl
    simp only [CleanedAt,pc] at cleanedAt
    have sameCleans : cleaned (s.uses ++ [.visit handler true]) = cleaned s.uses := by
      rw [cleanedAppend]
      exact List.append_nil _
    refine ⟨?_,⟨reached,Slots.inside found⟩,by rw [sameCleans]; exact walked.cleans,
      sameCleans.trans cleanedAt,reachedAppend walked.reached (by simp [Reached]),?_,by simp⟩
    · simp only [reached]
      exact List.take_prefix _ _
    · intro task member
      rcases List.mem_append.mp member with old | new
      · exact List.mem_append_left _ (walked.backgrounds task old)
      · rw [List.mem_singleton.mp new]
        simp
  | @enter i handler pc found foreground =>
    obtain ⟨noVisit,noClean⟩ := executeUse (Dispatch.enter (flags handler) s.event) handler false
    have reached := reachedHandler false walked pc found noVisit
    have first : Dispatch.Use.visit handler false ∈ s.uses ++ Dispatch.Use.visit handler false ::
        (Dispatch.enter (flags handler) s.event).use handler false := by simp
    simp only [CleanedAt,pc] at cleanedAt
    have sameCleans : cleaned (s.uses ++ .visit handler false ::
        (Dispatch.enter (flags handler) s.event).use handler false) = cleaned s.uses := by
      rw [cleanedAppend]
      exact (congrArg (cleaned s.uses ++ ·) noClean).trans (List.append_nil _)
    refine ⟨?_,⟨reached,handler,found,first⟩,?_,?_,?_,?_,by simp [Dispatch.State.note]⟩
    · simp only [Dispatch.State.note,reached]
      exact List.take_prefix _ _
    · simp only [Dispatch.State.note,sameCleans]
      exact walked.cleans
    · simpa only [CleanedAt,Dispatch.State.note,sameCleans] using cleanedAt
    · refine reachedAppend walked.reached ?_
      intro use member
      rcases List.mem_cons.mp member with rfl | later
      · trivial
      · exact useReached _ first use later
    · intro task member
      exact List.mem_append_left _ (walked.backgrounds task member)
  | gate pc found passed => exact executedWalked walked pc found _
  | callback pc found settled => exact executedWalked walked pc found _
  | cleaned pc past =>
    simp only [CleanedAt,pc] at cleanedAt
    exact ⟨walked.visits,trivial,walked.cleans,.inl (cleanedAt.1.trans (takeAll past)),
      walked.reached,walked.backgrounds,by simp⟩
  | notify pc found foreground hook => exact cleanWalked walked pc found true _ (.inr rfl)
  | skip pc found silent => exact cleanWalked walked pc found false _ (.inl rfl)
  | @notified i pc =>
    simp only [CleanedAt,pc] at cleanedAt
    exact ⟨walked.visits,trivial,walked.cleans,cleanedAt,walked.reached,walked.backgrounds,by simp⟩
  | accept =>
    exact ⟨walked.visits,walked.visitedAt,walked.cleans,walked.cleanedAt,walked.reached,
      walked.backgrounds,walked.unused⟩
  | backgroundBegin found pc => exact backgroundNextWalked walked found s.event _ _
  | backgroundGate found pc passed => exact backgroundNextWalked walked found _ _ _
  | backgroundCallback found pc settled => exact backgroundNextWalked walked found _ _ _
  | backgroundEnd found =>
    have quiet := backgroundWalked (m := []) .ended walked found s.event rfl rfl (by simp)
    simpa only [Dispatch.State.note,List.append_nil] using quiet

end Walk

structure Task where
  item : Item String
  run : Dispatch.State Nat
  deriving DecidableEq, Repr

/- `ApixEventLoop`. Events are known by their names, handlers by their instances. -/
structure EventLoop where
  registry : Registry
  consumer : Consumer.State String Nat
  dispatches : List Task
  deriving DecidableEq, Repr

def initial (maxsize : Nat) : EventLoop := ⟨HandlerRegistry.initial,Consumer.initial maxsize,[]⟩

/- Options and callbacks of an instance are read when it is used, not captured. -/
def flagsOf (r : Registry) (ref : Nat) : Dispatch.Flags :=
  match r.heap[ref]? with
  | none => ⟨false,true,false,false,false,false⟩
  | some h => ⟨h.background,h.stopWhenError,h.callbacks.onHasError != .none,
      h.callbacks.onAccepted != .none,h.callbacks.onError != .none,h.callbacks.onCancelled != .none⟩

inductive Action where
  | registry (a : HandlerRegistry.Action)
  /- Anything the consumer does but taking an event and launching its dispatch. -/
  | consumer (a : Consumer.Action String Nat)
  | dequeue (w : Nat)
  | launch (w : Nat) (preparation : Preparation)
  | dispatch (d : Nat) (a : Dispatch.Action)
  deriving DecidableEq, Repr

section Loop
variable (fnmatchcase : String → String → Bool)

/- Capturing the handlers of an event; one without a name gets none. -/
def resolve (r : Registry) (event : String) : Resolution Nat × Registry :=
  if event = "" then (.resolved [],r)
  else match HandlerRegistry.getHandlersForEvent fnmatchcase r event with
    | .ok (refs,t) => (.resolved refs,t)
    | .error (_,t) => (.failed,t)

def plain : Consumer.Action String Nat → Bool
  | .dequeue _ _ => false
  | .launch _ _ => false
  | _ => true

def EventLoop.launched (s : EventLoop) : Preparation → List Task
  | .launched => match s.consumer.pendingDispatch with
      | some (item,chain) => s.dispatches ++ [⟨item,Dispatch.initial chain⟩]
      | none => s.dispatches
  | _ => s.dispatches

def step (s : EventLoop) : Action → Option EventLoop
  | .registry a => do
      let registry ← HandlerRegistry.step fnmatchcase s.registry a
      some {s with registry := registry}
  | .consumer a => do
      let consumer ← Consumer.step s.consumer a
      if plain a then some {s with consumer := consumer} else none
  | .dequeue w => do
      let item ← s.consumer.queue.head?
      let (resolution,registry) := resolve fnmatchcase s.registry item.event
      let consumer ← Consumer.step s.consumer (.dequeue w resolution)
      some {s with registry := registry, consumer := consumer}
  | .launch w preparation => do
      let consumer ← Consumer.step s.consumer (.launch w preparation)
      some {s with consumer := consumer, dispatches := s.launched preparation}
  | .dispatch d a => do
      let task ← s.dispatches[d]?
      let run ← Dispatch.step (flagsOf s.registry) task.run a
      some {s with dispatches := s.dispatches.set d {task with run := run}}

/- In `s`, `item` is the next event and `chain` the instances that are registered
and match its name, in dispatch order. -/
def Captures (s : EventLoop) (item : Item String) (chain : List Nat) : Prop :=
  s.consumer.queue.head? = some item ∧
  chain.map some = if item.event = "" then []
    else (ChainCache.fresh fnmatchcase s.registry item.event).map s.registry.registry.get

/- `chain` was captured for `item` by a step of the run that took it from the queue. -/
def CapturedIn (start : EventLoop) (r : List Action) (item : Item String) (chain : List Nat) : Prop :=
  ∃ before w after s, r = before ++ .dequeue w :: after ∧
    Machine.run (step fnmatchcase) start before = some s ∧ Captures fnmatchcase s item chain

end Loop

variable {fnmatchcase : String → String → Bool} {s t : EventLoop} {a : Action} {m : Nat}
  {item : Item String} {chain : List Nat} {start : EventLoop} {r : List Action}

theorem capturedLater (captured : CapturedIn fnmatchcase start r item chain) (b : Action) :
    CapturedIn fnmatchcase start (r ++ [b]) item chain := by
  obtain ⟨before,w,after,s,same,ran,captures⟩ := captured
  refine ⟨before,w,after ++ [b],s,?_,ran,captures⟩
  rw [same,List.append_assoc,List.cons_append]

section Consumer
variable {c d : Consumer.State String Nat} {b : Consumer.Action String Nat} {w : Nat}

def SameSlot (c d : Consumer.State String Nat) : Prop :=
  d.pendingDispatch = c.pendingDispatch ∧ d.history.dispatched = c.history.dispatched

theorem taskDoneSlot (c : Consumer.State String Nat) : SameSlot c c.taskDone := by
  unfold Consumer.State.taskDone
  split <;> exact ⟨rfl,rfl⟩

theorem clearSlot (l : List (Item String)) (count : Nat) (c : Consumer.State String Nat) :
    SameSlot c (Consumer.clearFrom l count c).2 := by
  induction l generalizing count c with
  | nil => exact ⟨rfl,rfl⟩
  | cons item rest ih =>
    have one : SameSlot c (c.clearOne item rest) := taskDoneSlot _
    unfold Consumer.clearFrom
    simp only
    split
    · exact one
    · have tail := ih (count + 1) (c.clearOne item rest)
      exact ⟨tail.1.trans one.1,tail.2.trans one.2⟩

theorem cancelSlot (c : Consumer.State String Nat) (w : Nat) : SameSlot c (c.cancel w) := by
  unfold Consumer.State.cancel
  split
  · split <;> exact ⟨rfl,rfl⟩
  · exact ⟨rfl,rfl⟩

theorem plainSlot (taken : Consumer.step c b = some d) (other : plain b = true) : SameSlot c d := by
  cases Consumer.stepCases taken with
  | publish room =>
    unfold Consumer.State.putNowait at room
    split at room <;> try contradiction
    cases Option.some.inj room
    exact ⟨rfl,rfl⟩
  | queueFull => exact ⟨rfl,rfl⟩
  | clear => exact clearSlot _ _ _
  | start =>
    unfold Consumer.State.start
    split <;> exact ⟨rfl,rfl⟩
  | stop =>
    unfold Consumer.State.stop
    split
    · exact ⟨rfl,rfl⟩
    · exact cancelSlot {c with eventConsumerTask := none, started := false} _
  | cancelWorker => exact cancelSlot c _
  | begin found pc kept => exact ⟨rfl,rfl⟩
  | dequeue found pc kept queue => contradiction
  | launchNone found pc kept nothing => contradiction
  | launch found pc kept slot => contradiction
  | unwind found pc asked => exact ⟨rfl,rfl⟩
  | currentDone found pc current => exact ⟨rfl,rfl⟩
  | oldDone found pc old => exact ⟨rfl,rfl⟩

theorem dequeueSlot {resolution : Resolution Nat}
    (taken : Consumer.step c (.dequeue w resolution) = some d) :
    d.history.dispatched = c.history.dispatched ∧
    (d.pendingDispatch = c.pendingDispatch ∨ ∃ item chain, c.queue.head? = some item ∧
      resolution = .resolved chain ∧ d.pendingDispatch = some (item,chain)) := by
  cases Consumer.stepCases taken with
  | @dequeue w worker item rest resolution found pc kept queue =>
    cases resolution with
    | resolved chain => exact ⟨rfl,.inr ⟨item,chain,by rw [queue]; rfl,rfl,rfl⟩⟩
    | failed =>
      have same := taskDoneSlot ({c with queue := rest})
      exact ⟨same.2,.inl same.1⟩
    | fatal =>
      have same := taskDoneSlot ({c with queue := rest})
      exact ⟨same.2,.inl same.1⟩

theorem launchSlot {preparation : Preparation}
    (taken : Consumer.step c (.launch w preparation) = some d) :
    (c.pendingDispatch = none ∧ SameSlot c d) ∨
    ∃ item chain, c.pendingDispatch = some (item,chain) ∧ d.pendingDispatch = none ∧
      d.history.dispatched = if preparation = .launched then
        c.history.dispatched ++ [(item,chain)] else c.history.dispatched := by
  cases Consumer.stepCases taken with
  | launchNone found pc kept nothing => exact .inl ⟨nothing,rfl,rfl⟩
  | @launch w worker item chain preparation found pc kept slot =>
    refine .inr ⟨item,chain,slot,?_⟩
    cases preparation with
    | launched =>
      have same := taskDoneSlot ({c with
        pendingDispatch := none
        history := {c.history with dispatched := c.history.dispatched ++ [(item,chain)]}})
      exact ⟨same.1,same.2⟩
    | failed =>
      have same := taskDoneSlot ({c with pendingDispatch := none})
      exact ⟨same.1,same.2⟩
    | fatal =>
      have same := taskDoneSlot ({c with pendingDispatch := none})
      exact ⟨same.1,same.2⟩

end Consumer

structure Known (fnmatchcase : String → String → Bool) (start : EventLoop) (r : List Action)
    (s : EventLoop) : Prop where
  coherent : ChainCache.Coherent fnmatchcase s.registry
  accounted : Conservation.Accounted s.consumer
  pending : ∀ item chain, s.consumer.pendingDispatch = some (item,chain) →
    CapturedIn fnmatchcase start r item chain
  dispatches : ∀ task ∈ s.dispatches,
    CapturedIn fnmatchcase start r task.item task.run.chain ∧ Walked task.run
  launched : s.dispatches.map (fun task => (task.item,task.run.chain)) = s.consumer.history.dispatched

theorem initialKnown (m : Nat) : Known fnmatchcase (initial m) [] (initial m) :=
  ⟨ChainCache.initialCoherent,Conservation.initialAccounted m,by simp [initial,Consumer.initial],
    by simp [initial],rfl⟩

theorem resolveCoherent (coherent : ChainCache.Coherent fnmatchcase s.registry) (event : String) :
    ChainCache.Coherent fnmatchcase (resolve fnmatchcase s.registry event).2 ∧
    ∃ chain, (resolve fnmatchcase s.registry event).1 = .resolved chain ∧
      chain.map some = if event = "" then []
        else (ChainCache.fresh fnmatchcase s.registry event).map s.registry.registry.get := by
  unfold resolve
  by_cases nameless : event = ""
  · simp only [nameless,if_true]
    exact ⟨coherent,[],rfl,rfl⟩
  · simp only [nameless,if_false]
    rcases ChainCache.handlersCases coherent event with ⟨same,_⟩ | ⟨_,refs,t,found,same,_,_,kept⟩
    · exact absurd same nameless
    · simp only [found]
      exact ⟨kept,refs,rfl,same⟩

theorem sameConsumer (known : Known fnmatchcase start r s) (b : Action)
    (consumer : t.consumer = s.consumer) (dispatches : t.dispatches = s.dispatches)
    (coherent : ChainCache.Coherent fnmatchcase t.registry) :
    Known fnmatchcase start (r ++ [b]) t := by
  refine ⟨coherent,by rw [consumer]; exact known.accounted,?_,?_,?_⟩
  · intro item chain slot
    rw [consumer] at slot
    exact capturedLater (known.pending item chain slot) b
  · intro task member
    rw [dispatches] at member
    obtain ⟨captured,walked⟩ := known.dispatches task member
    exact ⟨capturedLater captured b,walked⟩
  · rw [dispatches,consumer]
    exact known.launched

theorem stepKnown (ran : Machine.run (step fnmatchcase) start r = some s)
    (known : Known fnmatchcase start r s) (taken : step fnmatchcase s a = some t) :
    Known fnmatchcase start (r ++ [a]) t := by
  have later : ∀ task ∈ s.dispatches,
      CapturedIn fnmatchcase start (r ++ [a]) task.item task.run.chain ∧ Walked task.run := by
    intro task member
    obtain ⟨captured,walked⟩ := known.dispatches task member
    exact ⟨capturedLater captured a,walked⟩
  cases a with
  | registry b =>
    simp only [step,bind,Option.bind_eq_some_iff] at taken
    obtain ⟨registry,moved,last⟩ := taken
    cases Option.some.inj last
    exact sameConsumer known _ rfl rfl (ChainCache.stepCoherent known.coherent moved)
  | consumer b =>
    obtain ⟨consumer,moved,last⟩ := Option.bind_eq_some_iff.mp taken
    split at last <;> try contradiction
    rename_i other
    cases Option.some.inj last
    obtain ⟨slot,dispatched⟩ := plainSlot moved other
    refine ⟨known.coherent,Conservation.stepAccounted known.accounted moved,?_,later,?_⟩
    · intro item chain at_
      exact capturedLater (known.pending item chain (slot ▸ at_)) _
    · exact known.launched.trans dispatched.symm
  | dequeue w =>
    simp only [step,bind,Option.bind_eq_some_iff] at taken
    obtain ⟨item,head,consumer,moved,last⟩ := taken
    cases Option.some.inj last
    obtain ⟨coherent,chain,resolved,fresh⟩ := resolveCoherent known.coherent item.event
    obtain ⟨dispatched,slot⟩ := dequeueSlot moved
    refine ⟨coherent,Conservation.stepAccounted known.accounted moved,?_,later,?_⟩
    · intro item' chain' at_
      rcases slot with same | ⟨item'',chain'',head',resolved',filled⟩
      · exact capturedLater (known.pending item' chain' (same ▸ at_)) _
      · -- this very step has captured it
        cases Option.some.inj (head.symm.trans head')
        cases (resolved.symm.trans resolved' : Resolution.resolved chain = .resolved chain'')
        cases Option.some.inj (filled.symm.trans at_)
        exact ⟨r,w,[],s,rfl,ran,head,fresh⟩
    · exact known.launched.trans dispatched.symm
  | launch w preparation =>
    obtain ⟨consumer,moved,last⟩ := Option.bind_eq_some_iff.mp taken
    cases Option.some.inj last
    have accounted := Conservation.stepAccounted known.accounted moved
    rcases launchSlot moved with ⟨nothing,slot,dispatched⟩ | ⟨item,chain,filled,emptied,dispatched⟩
    · have same : s.launched preparation = s.dispatches := by
        unfold EventLoop.launched
        cases preparation <;> simp [nothing]
      refine ⟨known.coherent,accounted,?_,by rw [same]; exact later,?_⟩
      · intro item chain at_
        exact capturedLater (known.pending item chain (slot ▸ at_)) _
      · simp only [same]
        exact known.launched.trans dispatched.symm
    · have captured := capturedLater (known.pending item chain filled) (.launch w preparation)
      refine ⟨known.coherent,accounted,?_,?_,?_⟩
      · intro item' chain' at_
        simp only at at_
        rw [emptied] at at_
        contradiction
      · intro task member
        cases preparation with
        | launched =>
          simp only [EventLoop.launched,filled] at member
          rcases List.mem_append.mp member with old | new
          · exact later task old
          · rw [List.mem_singleton.mp new]
            exact ⟨captured,initialWalked chain⟩
        | failed => exact later task member
        | fatal => exact later task member
      · cases preparation with
        | launched =>
          simp only [EventLoop.launched,filled,List.map_append,known.launched]
          exact dispatched.symm
        | failed => exact known.launched.trans dispatched.symm
        | fatal => exact known.launched.trans dispatched.symm
  | dispatch d b =>
    simp only [step,bind,Option.bind_eq_some_iff] at taken
    obtain ⟨task,found,run,moved,last⟩ := taken
    cases Option.some.inj last
    obtain ⟨captured,walked⟩ := later task (List.mem_of_getElem? found)
    have chain := Dispatch.chainKept (Dispatch.stepCases moved)
    refine ⟨known.coherent,known.accounted,?_,?_,?_⟩
    · intro item chain at_
      exact capturedLater (known.pending item chain at_) _
    · intro other member
      rcases List.mem_or_eq_of_mem_set member with old | new
      · exact later other old
      · rw [new]
        exact ⟨by rw [chain]; exact captured,stepWalked walked moved⟩
    · have same : (task.item,run.chain) = (task.item,task.run.chain) := by rw [chain]
      rw [← known.launched,List.map_set,same]
      exact Slots.setEqual (by rw [List.getElem?_map,found]; rfl)

/- The dispatch uses the instances that were captured for its event, and both its
loops walk them in that order. -/
structure UsesCaptured (fnmatchcase : String → String → Bool) (start : EventLoop) (r : List Action)
    (task : Task) : Prop where
  captured : CapturedIn fnmatchcase start r task.item task.run.chain
  visits : visited task.run.uses <+: task.run.chain
  allVisited : task.run.pc = .returned → visited task.run.uses = task.run.chain
  cleans : cleaned task.run.uses <+: task.run.chain
  allCleaned : task.run.pc = .cancelled → task.run.uses = [] ∨ cleaned task.run.uses = task.run.chain
  reached : ∀ use ∈ task.run.uses, Reached task.run.uses use
  backgrounds : ∀ background ∈ task.run.backgrounds, .visit background.handler true ∈ task.run.uses

theorem dequeueCaptured (ran : Machine.run (step fnmatchcase) (initial m) r = some s) :
    (∀ item chain, s.consumer.pendingDispatch = some (item,chain) →
      CapturedIn fnmatchcase (initial m) r item chain) ∧
    s.dispatches.map (fun task => (task.item,task.run.chain)) = s.consumer.history.dispatched ∧
    (s.dispatches.map Task.item).Nodup ∧
    ∀ task ∈ s.dispatches, UsesCaptured fnmatchcase (initial m) r task := by
  have known : Known fnmatchcase (initial m) r s :=
    Machine.history (initialKnown m) (fun r s a t before known taken => stepKnown before known taken) ran
  refine ⟨known.pending,known.launched,?_,?_⟩
  · have items : s.dispatches.map Task.item = Conservation.dispatched s.consumer := by
      rw [Conservation.dispatched,← known.launched,List.map_map]
      rfl
    have ordered := known.accounted.2.ordered
    rw [List.append_assoc] at ordered
    rw [items]
    exact (Conservation.putNodup known.accounted.2).sublist
      ((List.sublist_append_left _ _).trans ordered)
  · intro task member
    obtain ⟨captured,walked⟩ := known.dispatches task member
    refine ⟨captured,walked.visits,?_,walked.cleans,?_,walked.reached,walked.backgrounds⟩
    · intro pc
      have all := walked.visitedAt
      simpa only [VisitedAt,pc] using all
    · intro pc
      have all := walked.cleanedAt
      simp only [CleanedAt,pc] at all
      exact all.symm

def handler (name : String) (id : Nat) : HandlerRegistry.Action :=
  .subscribe (ChainCache.one ["a"] .none .none) (.function name (.function id))

/- While the event waits for capacity one handler is removed and the other replaced,
and the consumer is restarted; the dispatch still runs both, and is then cancelled. -/
def swapWhilePending : List Action :=
  [.registry (handler "x" 0),.registry (handler "y" 1),.consumer .start,.consumer (.begin 0),
    .consumer (.publish .put "a"),.dequeue 0,.registry (.unregisterHandler "x" true),
    .registry (handler "y" 2),.consumer .stop,.consumer .start,.consumer (.begin 1),
    .launch 1 .launched,.dispatch 0 .begin,.dispatch 0 .visit,.dispatch 0 .gate,
    .dispatch 0 (.callback .returned),.dispatch 0 .visit,.dispatch 0 .gate,
    .dispatch 0 (.callback .cancelled),.dispatch 0 .cleanup]

def swapped : EventLoop :=
  (Machine.run (step ChainCache.exactly) (initial 4) swapWhilePending).getD (initial 4)

example : swapped.dispatches.map (fun task => visited task.run.uses) = [[0,1]] := by decide

theorem dequeueCapturedSwap :
    (∀ item chain, swapped.consumer.pendingDispatch = some (item,chain) →
      CapturedIn ChainCache.exactly (initial 4) swapWhilePending item chain) ∧
    swapped.dispatches.map (fun task => (task.item,task.run.chain)) = swapped.consumer.history.dispatched ∧
    (swapped.dispatches.map Task.item).Nodup ∧
    ∀ task ∈ swapped.dispatches, UsesCaptured ChainCache.exactly (initial 4) swapWhilePending task :=
  dequeueCaptured (r := swapWhilePending) rfl

end Apixis.Capture
