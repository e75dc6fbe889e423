import Apixis.Library.Machine
import Apixis.Library.Promise
import Apixis.Library.Slots

/-! Tasks that run at once and one task that waits for all of them. The waiting task is
told how each one ends, in the order in which they end; at the first failure, or when it
is itself cancelled, it asks those still running to end and waits for them too before it
passes the failure on. -/
namespace Apixis.Gather

variable {ε α : Type}

/- How the task has ended, and how often it has been asked to. -/
structure Child (ε α : Type) where
  promise : Promise ε α
  asked : Nat
  deriving DecidableEq, Repr

def Child.done (child : Child ε α) : Bool := child.promise.done

def Child.ask (child : Child ε α) : Child ε α :=
  if child.done then child else {child with asked := child.asked + 1}

/- One gathering: the ends it has yet to be told of, how many it has been told of, and
whether it has been cancelled through its tasks. A lenient one takes a failure for a
result. -/
structure Gathering (ε α : Type) where
  lenient : Bool
  due : List (Promise ε α)
  finished : Nat
  cancelled : Bool
  outer : Promise ε (List (Promise ε α))
  deriving DecidableEq, Repr

inductive Failure (ε : Type) where
  | raised (error : ε)
  | cancelled
  deriving DecidableEq, Repr

inductive Ending (ε α : Type) where
  | returned (values : List α)
  | failed (cause : Failure ε)
  deriving DecidableEq, Repr

inductive Phase (ε α : Type) where
  | waiting
  | cleaning (cause : Failure ε)
  | ended (how : Ending ε α)
  deriving DecidableEq, Repr

/- `mustCancel` is a cancellation to be thrown into the waiting task when it goes on. -/
structure State (ε α : Type) where
  children : List (Child ε α)
  call : Gathering ε α
  mustCancel : Bool
  phase : Phase ε α
  deriving DecidableEq, Repr

inductive Action (ε α : Type) where
  | finish (i : Nat) (how : Promise ε α)
  | notify
  | cancel
  | wake
  deriving DecidableEq, Repr

def promises (children : List (Child ε α)) : List (Promise ε α) := children.map Child.promise

def Gathering.complete (call : Gathering ε α) (children : List (Child ε α)) : Gathering ε α :=
  if call.finished = children.length then
    {call with outer := if call.cancelled then .cancelled else .result (promises children)}
  else call

/- What a strict gathering makes of a failure. -/
def Gathering.failure (call : Gathering ε α) : Promise ε α → Option (Promise ε (List (Promise ε α)))
  | .exception error => if call.lenient then none else some (.exception error)
  | .cancelled => if call.lenient then none else some .cancelled
  | _ => none

/- The callback of a task that has ended like this. -/
def Gathering.told (call : Gathering ε α) (children : List (Child ε α)) (ended : Promise ε α) : Gathering ε α :=
  let counted := {call with finished := call.finished + 1}
  if call.outer.done then counted
  else match call.failure ended with
    | some failed => {counted with outer := failed}
    | none => counted.complete children

/- The callbacks of tasks that have ended already run at once. -/
def Gathering.start (lenient : Bool) (children : List (Child ε α)) : Gathering ε α :=
  ((promises children).filter Promise.done).foldl (fun call ended => call.told children ended)
    ⟨lenient,[],0,false,if children.isEmpty then .result [] else .pending⟩

def returnedValues (results : List (Promise ε α)) : List α :=
  results.filterMap (fun p => match p with
    | .result value => some value
    | _ => none)

def State.received (s : State ε α) : Option (Except (Failure ε) (List (Promise ε α))) :=
  if s.mustCancel then some (.error .cancelled)
  else match s.call.outer with
    | .pending => none
    | .result results => some (.ok results)
    | .exception error => some (.error (.raised error))
    | .cancelled => some (.error .cancelled)

/- The failure is kept while the tasks that still run are asked to end. -/
def State.clean (s : State ε α) (cause : Failure ε) : State ε α :=
  let children := s.children.map Child.ask
  let call := Gathering.start true children
  ⟨children,call,false,if call.outer.done then .ended (.failed cause) else .cleaning cause⟩

def step (s : State ε α) : Action ε α → Option (State ε α)
  | .finish i how => do
      let child ← s.children[i]?
      if !child.done && how.done then
        some {s with
          children := s.children.set i {child with promise := how},
          call := {s.call with due := s.call.due ++ [how]}}
      else none
  | .notify => match s.call.due with
      | [] => none
      | ended :: rest =>
          some {s with call := ({s.call with due := rest} : Gathering ε α).told s.children ended}
  | .cancel => match s.phase with
      | .ended _ => none
      | _ =>
          if s.call.outer.done then some {s with mustCancel := true}
          else
            let taken := s.children.any (fun child => !child.done)
            some {s with
              children := s.children.map Child.ask,
              call := {s.call with cancelled := s.call.cancelled || taken},
              mustCancel := s.mustCancel || !taken}
  | .wake => if s.call.outer.done then match s.phase with
      | .ended _ => none
      | .waiting => do
          match ← s.received with
          | .ok results => some {s with phase := .ended (.returned (returnedValues results))}
          | .error cause => some (s.clean cause)
      | .cleaning cause => do
          match ← s.received with
          | .ok _ => some {s with phase := .ended (.failed cause)}
          | .error _ => some {s with mustCancel := false, phase := .ended (.failed .cancelled)}
    else none

def fresh (n : Nat) : List (Child ε α) := List.replicate n ⟨.pending,0⟩

def initial (n : Nat) : State ε α := ⟨fresh n,.start false (fresh n),false,.waiting⟩

def failing : Promise ε α → Bool
  | .exception _ => true
  | .cancelled => true
  | _ => false

def AllDone (children : List (Child ε α)) : Prop := ∀ child ∈ children, child.done = true

/- What the future of a gathering tells of its tasks, with these ends yet to be told. -/
def Reports (children : List (Child ε α)) (call : Gathering ε α) (due : List (Promise ε α)) : Prop :=
  match call.outer with
  | .pending => call.finished < children.length ∧
      (call.lenient = false → (promises children).countP failing = due.countP failing)
  | .result results => AllDone children ∧ results = promises children ∧
      (call.lenient = false → (promises children).countP failing = 0)
  | .exception error => call.lenient = false ∧ .exception error ∈ promises children
  | .cancelled => call.cancelled = true ∧ AllDone children ∨ call.lenient = false ∧ .cancelled ∈ promises children

structure Sound (children : List (Child ε α)) (call : Gathering ε α) (due : List (Promise ε α)) : Prop where
  count : call.finished + due.length = children.countP Child.done
  real : ∀ p ∈ due, p ∈ promises children ∧ p.done = true
  reports : Reports children call due

variable {s t : State ε α} {children : List (Child ε α)} {call call' : Gathering ε α} {due rest : List (Promise ε α)}
  {p : Promise ε α} {child : Child ε α} {i : Nat}

@[simp] theorem toldLenient : (call.told children p).lenient = call.lenient := by
  simp only [Gathering.told,Gathering.complete]
  repeat' split
  all_goals rfl

@[simp] theorem toldCancelled : (call.told children p).cancelled = call.cancelled := by
  simp only [Gathering.told,Gathering.complete]
  repeat' split
  all_goals rfl

@[simp] theorem toldDue : (call.told children p).due = call.due := by
  simp only [Gathering.told,Gathering.complete]
  repeat' split
  all_goals rfl

@[simp] theorem toldFinished : (call.told children p).finished = call.finished + 1 := by
  simp only [Gathering.told,Gathering.complete]
  repeat' split
  all_goals rfl

theorem countDone : children.countP Child.done ≤ children.length := List.countP_le_length

theorem allDoneOfCount (all : children.countP Child.done = children.length) : AllDone children :=
  fun child member => List.countP_eq_length.mp all child member

theorem reportsDone (done : call.outer.done = true) (outer : call'.outer = call.outer)
    (lenient : call'.lenient = call.lenient) (cancelled : call'.cancelled = call.cancelled)
    (reports : Reports children call due) : Reports children call' rest := by
  unfold Reports at reports ⊢
  rw [outer,lenient,cancelled]
  cases outer' : call.outer with
  | pending => rw [outer'] at done; cases done
  | result results => rw [outer'] at reports; exact reports
  | exception error => rw [outer'] at reports; exact reports
  | cancelled => rw [outer'] at reports; exact reports

theorem completeReports (count : call.finished + rest.length = children.countP Child.done)
    (open_ : call.outer = .pending) (before : call.finished ≤ children.length)
    (fails : call.lenient = false → (promises children).countP failing = rest.countP failing) :
    Reports children (call.complete children) rest := by
  have size := @countDone _ _ children
  unfold Gathering.complete
  split
  · rename_i last
    have none_ : rest = [] := List.length_eq_zero_iff.mp (by omega)
    have all : AllDone children := allDoneOfCount (by omega)
    unfold Reports
    cases cancelled : call.cancelled with
    | true => exact .inl ⟨rfl,all⟩
    | false => exact ⟨all,rfl,fun strict => by rw [fails strict,none_]; rfl⟩
  · rename_i more
    unfold Reports
    rw [open_]
    exact ⟨by omega,fails⟩

theorem toldSound (sound : Sound children call (p :: rest)) : Sound children (call.told children p) rest := by
  obtain ⟨count,real,reports⟩ := sound
  have size := @countDone _ _ children
  rw [List.length_cons] at count
  refine ⟨by rw [toldFinished]; omega,fun q member => real q (List.mem_cons_of_mem _ member),?_⟩
  have here := (real p List.mem_cons_self).1
  by_cases done : call.outer.done = true
  · have same : (call.told children p).outer = call.outer := by
      simp only [Gathering.told,done,if_true]
    exact reportsDone done same toldLenient toldCancelled reports
  · have open_ := Promise.open_ (Bool.of_not_eq_true done)
    simp only [Reports,open_] at reports
    have counting : (call.lenient = false → failing p = false) →
        Reports children (({call with finished := call.finished + 1} : Gathering ε α).complete children) rest := by
      intro fine
      refine completeReports (by simp only; omega) open_ reports.1 ?_
      intro strict
      rw [reports.2 strict,List.countP_cons_of_neg (by simp [fine strict])]
    have outcome : (∃ outer, call.failure p = some outer ∧ Reports children {call with finished := call.finished + 1, outer := outer} rest) ∨
        (call.failure p = none ∧ (call.lenient = false → failing p = false)) := by
      unfold Gathering.failure
      cases p with
      | pending => exact .inr ⟨rfl,fun _ => rfl⟩
      | result value => exact .inr ⟨rfl,fun _ => rfl⟩
      | exception error => cases lenient : call.lenient with
        | true => exact .inr ⟨rfl,fun strict => by cases strict⟩
        | false => exact .inl ⟨_,rfl,rfl,here⟩
      | cancelled => cases lenient : call.lenient with
        | true => exact .inr ⟨rfl,fun strict => by cases strict⟩
        | false => exact .inl ⟨_,rfl,.inr ⟨rfl,here⟩⟩
    simp only [Gathering.told,done,if_false,Bool.false_eq_true]
    rcases outcome with ⟨outer,failed,reports'⟩ | ⟨fine,passes⟩
    · rw [failed]
      exact reports'
    · rw [fine]
      exact counting passes

theorem toldAll (sound : Sound children call due) :
    Sound children (due.foldl (fun call ended => call.told children ended) call) [] := by
  induction due generalizing call with
  | nil => exact sound
  | cons p rest ih => exact ih (toldSound sound)

theorem failingDone : failing p = true → p.done = true := by
  cases p <;> simp [failing,Promise.done]

theorem startSound (lenient : Bool) (children : List (Child ε α)) :
    Sound children (Gathering.start lenient children) [] := by
  refine toldAll ⟨?_,fun p member => List.mem_filter.mp member,?_⟩
  · rw [← List.countP_eq_length_filter,promises,List.countP_map,Nat.zero_add]
    rfl
  · unfold Reports
    cases children with
    | nil => exact ⟨fun child member => (List.not_mem_nil member).elim,rfl,fun _ => rfl⟩
    | cons head tail =>
      refine ⟨by simp,fun _ => ?_⟩
      rw [List.countP_filter]
      refine List.countP_congr ?_
      intro p _
      simp only [Bool.and_eq_true]
      exact ⟨fun bad => ⟨bad,failingDone bad⟩,fun both => both.1⟩

theorem foldDue (due : List (Promise ε α)) :
    (due.foldl (fun call ended => call.told children ended) call).due = call.due := by
  induction due generalizing call with
  | nil => rfl
  | cons p rest ih => rw [List.foldl_cons,ih,toldDue]

theorem foldLenient (due : List (Promise ε α)) :
    (due.foldl (fun call ended => call.told children ended) call).lenient = call.lenient := by
  induction due generalizing call with
  | nil => rfl
  | cons p rest ih => rw [List.foldl_cons,ih,toldLenient]

theorem foldCancelled (due : List (Promise ε α)) :
    (due.foldl (fun call ended => call.told children ended) call).cancelled = call.cancelled := by
  induction due generalizing call with
  | nil => rfl
  | cons p rest ih => rw [List.foldl_cons,ih,toldCancelled]

theorem startDue (lenient : Bool) : (Gathering.start lenient children).due = [] := foldDue _
theorem startLenient (lenient : Bool) : (Gathering.start lenient children).lenient = lenient := foldLenient _
theorem startCancelled (lenient : Bool) : (Gathering.start lenient children).cancelled = false := foldCancelled _

theorem askPromise (child : Child ε α) : child.ask.promise = child.promise := by
  unfold Child.ask
  split <;> rfl

theorem askDone (child : Child ε α) : child.ask.done = child.done := by
  rw [Child.done,askPromise,Child.done]

theorem askPromises : promises (children.map Child.ask) = promises children := by
  rw [promises,List.map_map]
  exact List.map_congr_left (fun child _ => askPromise child)

theorem askCount : (children.map Child.ask).countP Child.done = children.countP Child.done := by
  rw [List.countP_map]
  exact List.countP_congr (fun child _ => by rw [Function.comp,askDone])

theorem askAll : AllDone (children.map Child.ask) ↔ AllDone children := by
  constructor
  · intro all child member
    rw [← askDone]
    exact all _ (List.mem_map_of_mem member)
  · intro all child member
    obtain ⟨own,inside,rfl⟩ := List.mem_map.mp member
    rw [askDone]
    exact all own inside

theorem askSound (open_ : call.outer = .pending) (sound : Sound children call due) (taken : Bool) :
    Sound (children.map Child.ask) {call with cancelled := call.cancelled || taken} due := by
  obtain ⟨count,real,reports⟩ := sound
  refine ⟨by rw [askCount]; exact count,fun p member => by rw [askPromises]; exact real p member,?_⟩
  simp only [Reports,open_] at reports ⊢
  rw [askPromises,List.length_map]
  exact reports

theorem setPromises (how : Promise ε α) : promises (children.set i {child with promise := how}) =
    (promises children).set i how := by
  rw [promises,List.map_set]
  rfl

theorem countReplaced {β : Type} {f : β → Bool} {l : List β} {x y : β} (found : l[i]? = some x) (not_ : f x = false) :
    (l.set i y).countP f = l.countP f + if f y then 1 else 0 := by
  have moved := Slots.countSet f (y := y) found
  rw [not_] at moved
  simpa using moved

theorem soundDue (sound : Sound children call due) (other : List (Promise ε α)) :
    Sound children {call with due := other} due := ⟨sound.count,sound.real,sound.reports⟩

theorem endedKept {how : Promise ε α} (found : children[i]? = some child) (runs : child.done = false)
    (member : p ∈ promises children) (done : p.done = true) :
    p ∈ promises (children.set i {child with promise := how}) := by
  have place : (promises children)[i]? = some child.promise := by
    rw [promises,List.getElem?_map,found]
    rfl
  obtain ⟨j,there⟩ := List.getElem?_of_mem member
  have other : i ≠ j := by
    rintro rfl
    rw [place] at there
    rw [Child.done,Option.some.inj there,done] at runs
    cases runs
  rw [setPromises]
  exact List.mem_of_getElem? ((List.getElem?_set_ne other).trans there)

theorem finishSound {how : Promise ε α} (found : children[i]? = some child) (runs : child.done = false)
    (ends : how.done = true) (sound : Sound children call due) :
    Sound (children.set i {child with promise := how}) call (due ++ [how]) := by
  obtain ⟨count,real,reports⟩ := sound
  have place : (promises children)[i]? = some child.promise := by
    rw [promises,List.getElem?_map,found]
    rfl
  have still : ∀ p, p ∈ promises children → p.done = true → p ∈ (promises children).set i how := by
    intro p member done
    rw [← setPromises]
    exact endedKept found runs member done
  have new : how ∈ (promises children).set i how :=
    List.mem_of_getElem? (List.getElem?_set_self (Slots.inside place))
  have open_ : ¬ AllDone children := by
    intro all
    rw [all child (List.mem_of_getElem? found)] at runs
    cases runs
  refine ⟨?_,?_,?_⟩
  · rw [countReplaced found runs,List.length_append,List.length_singleton,← Nat.add_assoc,count]
    exact congrArg _ (if_pos ends).symm
  · intro p member
    rw [setPromises]
    rcases List.mem_append.mp member with old | last
    · obtain ⟨inside,done⟩ := real p old
      exact ⟨still p inside done,done⟩
    · cases List.mem_singleton.mp last
      exact ⟨new,ends⟩
  · unfold Reports at reports ⊢
    rw [setPromises,List.length_set]
    cases outer : call.outer with
    | pending =>
      rw [outer] at reports
      refine ⟨reports.1,fun strict => ?_⟩
      have calm : failing child.promise = false := by
        rw [Promise.open_ runs]
        rfl
      rw [countReplaced place calm,Slots.countAppend,reports.2 strict]
    | result results =>
      rw [outer] at reports
      exact absurd reports.1 open_
    | exception error =>
      rw [outer] at reports
      exact ⟨reports.1,still _ reports.2 rfl⟩
    | cancelled =>
      rw [outer] at reports
      rcases reports with ⟨_,all⟩ | ⟨strict,inside⟩
      · exact absurd all open_
      · exact .inr ⟨strict,still _ inside rfl⟩

theorem lenientAll (sound : Sound children call due) (lenient : call.lenient = true) (done : call.outer.done = true) :
    AllDone children := by
  have reports := sound.reports
  unfold Reports at reports
  cases outer : call.outer with
  | pending => rw [outer] at done; cases done
  | result results => rw [outer] at reports; exact reports.1
  | exception error =>
    rw [outer,lenient] at reports
    exact absurd reports.1 (by simp)
  | cancelled =>
    rw [outer,lenient] at reports
    rcases reports with ⟨_,all⟩ | ⟨strict,_⟩
    · exact all
    · cases strict

theorem returnedAll (all : AllDone children) (fine : (promises children).countP failing = 0) :
    promises children = (returnedValues (promises children)).map .result := by
  have each : ∀ p ∈ promises children, ∃ value, p = .result value := by
    intro p member
    obtain ⟨child,inside,rfl⟩ := List.mem_map.mp member
    have done := all child inside
    have calm := List.countP_eq_zero.mp fine _ member
    rw [Child.done] at done
    cases ended : child.promise with
    | pending => rw [ended] at done; cases done
    | result value => exact ⟨value,rfl⟩
    | exception error => rw [ended] at calm; exact absurd rfl calm
    | cancelled => rw [ended] at calm; exact absurd rfl calm
  generalize promises children = l at each
  induction l with
  | nil => rfl
  | cons head tail ih =>
    obtain ⟨value,rfl⟩ := each head List.mem_cons_self
    have rest := ih (fun p member => each p (List.mem_cons_of_mem _ member))
    show _ = List.map Promise.result (value :: returnedValues tail)
    rw [List.map_cons,← rest]

def CauseIn (r : List (Action ε α)) (children : List (Child ε α)) : Failure ε → Prop
  | .raised error => .exception error ∈ promises children
  | .cancelled => .cancel ∈ r ∨ .cancelled ∈ promises children

def PhaseHolds (r : List (Action ε α)) (s : State ε α) : Prop :=
  match s.phase with
  | .waiting => s.call.lenient = false
  | .cleaning cause => s.call.lenient = true ∧
      (∀ child ∈ s.children, child.done = false → 0 < child.asked) ∧ CauseIn r s.children cause
  | .ended (.returned values) => promises s.children = values.map .result
  | .ended (.failed cause) => AllDone s.children ∧ CauseIn r s.children cause

structure Holds (n : Nat) (r : List (Action ε α)) (s : State ε α) : Prop where
  size : s.children.length = n
  recorded : ∀ (i : Nat) how, .finish i how ∈ r ↔ how.done = true ∧ (promises s.children)[i]? = some how
  sound : Sound s.children s.call s.call.due
  struck : s.mustCancel = true ∨ s.call.cancelled = true → .cancel ∈ r
  phase : PhaseHolds r s

variable {n : Nat} {r : List (Action ε α)} {cause : Failure ε}

theorem initialHolds (n : Nat) : Holds n [] (initial n : State ε α) := by
  refine ⟨by simp [initial,fresh],?_,?_,?_,startLenient _⟩
  · intro i how
    refine ⟨fun member => (List.not_mem_nil member).elim,?_⟩
    rintro ⟨done,found⟩
    have pending := List.mem_of_getElem? found
    simp only [initial,promises,fresh,List.map_replicate] at pending
    rw [List.eq_of_mem_replicate pending] at done
    cases done
  · have sound := startSound false (fresh n : List (Child ε α))
    rwa [← @startDue _ _ (fresh n) false] at sound
  · rintro (struck | struck)
    · cases struck
    · rw [initial,startCancelled] at struck
      cases struck

theorem receivedFailed (holds : Holds n r s) (received : s.received = some (.error cause)) :
    CauseIn r s.children cause := by
  unfold State.received at received
  split at received
  · rename_i must
    cases received
    exact .inl (holds.struck (.inl must))
  · have reports := holds.sound.reports
    unfold Reports at reports
    cases outer : s.call.outer with
    | pending => rw [outer] at received; cases received
    | result results => rw [outer] at received; cases received
    | exception error =>
      rw [outer] at received reports
      cases received
      exact reports.2
    | cancelled =>
      rw [outer] at received reports
      cases received
      rcases reports with ⟨asked,_⟩ | ⟨_,inside⟩
      · exact .inl (holds.struck (.inr asked))
      · exact .inr inside

theorem causeKept {children' : List (Child ε α)} {a : Action ε α}
    (kept : ∀ p ∈ promises children, p.done = true → p ∈ promises children')
    (before : CauseIn r children cause) : CauseIn (r ++ [a]) children' cause := by
  cases cause with
  | raised error => exact kept _ before rfl
  | cancelled =>
    rcases before with asked | inside
    · exact .inl (List.mem_append_left _ asked)
    · exact .inr (kept _ inside rfl)

theorem endedDone {how : Ending ε α} (holds : Holds n r s) (at_ : s.phase = .ended how) : AllDone s.children := by
  have phase := holds.phase
  simp only [PhaseHolds,at_] at phase
  cases how with
  | returned values =>
    intro child member
    have inside : child.promise ∈ values.map .result := phase ▸ List.mem_map_of_mem member
    obtain ⟨value,_,same⟩ := List.mem_map.mp inside
    rw [Child.done,← same]
    rfl
  | failed cause => exact phase.1

theorem recordedKept {a : Action ε α} {children' : List (Child ε α)} (same : promises children' = promises children)
    (other : ∀ i how, a ≠ .finish i how)
    (recorded : ∀ (i : Nat) how, .finish i how ∈ r ↔ how.done = true ∧ (promises children)[i]? = some how) :
    ∀ (i : Nat) how, .finish i how ∈ r ++ [a] ↔ how.done = true ∧ (promises children')[i]? = some how := by
  intro i how
  rw [List.mem_append,List.mem_singleton,recorded,same]
  exact ⟨fun either => either.resolve_right (fun new => other i how new.symm),.inl⟩

theorem struckKept {a : Action ε α} (struck : s.mustCancel = true ∨ s.call.cancelled = true → .cancel ∈ r)
    (flags : t.mustCancel = true ∨ t.call.cancelled = true → s.mustCancel = true ∨ s.call.cancelled = true) :
    t.mustCancel = true ∨ t.call.cancelled = true → .cancel ∈ r ++ [a] :=
  fun now => List.mem_append_left _ (struck (flags now))

theorem finishHolds {how : Promise ε α} (holds : Holds n r s) (taken : step s (.finish i how) = some t) :
    Holds n (r ++ [.finish i how]) t := by
  simp only [step,Option.bind_eq_bind,Option.bind_eq_some_iff] at taken
  obtain ⟨child,found,taken⟩ := taken
  split at taken <;> try contradiction
  rename_i may
  obtain ⟨runs,ends⟩ := Bool.and_eq_true_iff.mp may
  have runs : child.done = false := by simpa using runs
  cases Option.some.inj taken
  have open_ : ¬ AllDone s.children := by
    intro all
    rw [all child (List.mem_of_getElem? found)] at runs
    cases runs
  have place : (promises s.children)[i]? = some child.promise := by
    rw [promises,List.getElem?_map,found]
    rfl
  have kept : ∀ p ∈ promises s.children, p.done = true → p ∈ promises (s.children.set i {child with promise := how}) :=
    fun p member done => endedKept found runs member done
  refine ⟨by rw [List.length_set]; exact holds.size,?_,finishSound found runs ends (soundDue holds.sound _),
    struckKept holds.struck id,?_⟩
  · intro j how'
    rw [List.mem_append,List.mem_singleton,holds.recorded,setPromises]
    by_cases same : j = i
    · subst same
      rw [List.getElem?_set_self (Slots.inside place)]
      constructor
      · rintro (⟨done,there⟩ | new)
        · rw [place] at there
          rw [Child.done,Option.some.inj there,done] at runs
          cases runs
        · cases new
          exact ⟨ends,rfl⟩
      · rintro ⟨_,new⟩
        cases Option.some.inj new
        exact .inr rfl
    · rw [List.getElem?_set_ne (Ne.symm same)]
      refine ⟨fun either => either.resolve_right ?_,.inl⟩
      intro new
      cases new
      exact same rfl
  · have phase := holds.phase
    unfold PhaseHolds at phase ⊢
    cases at_ : s.phase with
    | waiting => rw [at_] at phase; exact phase
    | cleaning cause =>
      rw [at_] at phase
      refine ⟨phase.1,?_,causeKept kept phase.2.2⟩
      intro other member late
      rcases List.mem_or_eq_of_mem_set member with old | new
      · exact phase.2.1 other old late
      · rw [new,Child.done,ends] at late
        cases late
    | ended ending =>
      rw [at_] at phase
      cases ending with
      | returned values => exact absurd (endedDone holds at_) open_
      | failed cause => exact absurd phase.1 open_

theorem notifyHolds (holds : Holds n r s) (taken : step s .notify = some t) : Holds n (r ++ [.notify]) t := by
  simp only [step] at taken
  split at taken <;> try contradiction
  rename_i ended rest due
  cases Option.some.inj taken
  have sound := holds.sound
  rw [due] at sound
  refine ⟨holds.size,recordedKept rfl (by simp) holds.recorded,?_,struckKept holds.struck ?_,?_⟩
  · rw [toldDue]
    exact toldSound (soundDue sound rest)
  · rw [toldCancelled]
    exact id
  · have phase := holds.phase
    unfold PhaseHolds at phase ⊢
    cases at_ : s.phase with
    | waiting => rw [at_] at phase; rw [toldLenient]; exact phase
    | cleaning cause =>
      rw [at_] at phase
      rw [toldLenient]
      exact ⟨phase.1,phase.2.1,causeKept (fun _ member _ => member) phase.2.2⟩
    | ended ending =>
      rw [at_] at phase
      cases ending with
      | returned values => exact phase
      | failed cause => exact ⟨phase.1,causeKept (fun _ member _ => member) phase.2⟩

theorem cancelHolds (holds : Holds n r s) (taken : step s .cancel = some t) : Holds n (r ++ [.cancel]) t := by
  have now : Action.cancel ∈ r ++ [(.cancel : Action ε α)] := List.mem_append_right _ List.mem_cons_self
  have phase := holds.phase
  simp only [step] at taken
  split at taken
  · cases taken
  · rename_i running
    split at taken
    · cases Option.some.inj taken
      refine ⟨holds.size,recordedKept rfl (by simp) holds.recorded,holds.sound,fun _ => now,?_⟩
      unfold PhaseHolds at phase ⊢
      cases at_ : s.phase with
      | waiting => rw [at_] at phase; exact phase
      | cleaning cause =>
        rw [at_] at phase
        exact ⟨phase.1,phase.2.1,causeKept (fun _ member _ => member) phase.2.2⟩
      | ended ending => exact absurd at_ (running ending)
    · rename_i open_
      cases Option.some.inj taken
      refine ⟨by rw [List.length_map]; exact holds.size,recordedKept askPromises (by simp) holds.recorded,
        askSound (Promise.open_ (Bool.of_not_eq_true open_)) holds.sound _,fun _ => now,?_⟩
      unfold PhaseHolds at phase ⊢
      cases at_ : s.phase with
      | waiting => rw [at_] at phase; exact phase
      | cleaning cause =>
        rw [at_] at phase
        refine ⟨phase.1,?_,causeKept (fun p member _ => by rw [askPromises]; exact member) phase.2.2⟩
        intro child member late
        obtain ⟨own,inside,rfl⟩ := List.mem_map.mp member
        rw [askDone] at late
        rw [Child.ask,if_neg (by simp [late])]
        exact Nat.succ_pos _
      | ended ending => exact absurd at_ (running ending)

theorem cleanHolds (holds : Holds n r s) (received : s.received = some (.error cause)) :
    Holds n (r ++ [.wake]) (s.clean cause) := by
  have sound := startSound true (s.children.map Child.ask)
  have cause_ := @causeKept _ _ s.children r cause (s.children.map Child.ask) .wake
    (fun p member _ => by rw [askPromises]; exact member) (receivedFailed holds received)
  refine ⟨by simp only [State.clean,List.length_map]; exact holds.size,recordedKept askPromises (by simp) holds.recorded,?_,?_,?_⟩
  · simp only [State.clean]
    rwa [startDue]
  · rintro (struck | struck)
    · cases struck
    · simp only [State.clean,startCancelled] at struck
      cases struck
  · unfold PhaseHolds State.clean
    by_cases settled : (Gathering.start true (s.children.map Child.ask)).outer.done = true
    · simp only [settled,if_true]
      exact ⟨lenientAll sound (startLenient _) settled,cause_⟩
    · simp only [settled,if_false,Bool.false_eq_true]
      refine ⟨startLenient _,?_,cause_⟩
      intro child member late
      obtain ⟨own,inside,rfl⟩ := List.mem_map.mp member
      rw [askDone] at late
      rw [Child.ask,if_neg (by simp [late])]
      exact Nat.succ_pos _

theorem wakeHolds (holds : Holds n r s) (taken : step s .wake = some t) : Holds n (r ++ [.wake]) t := by
  have phase := holds.phase
  simp only [step] at taken
  split at taken <;> try contradiction
  rename_i settled
  cases at_ : s.phase with
  | ended how => rw [at_] at taken; cases taken
  | waiting =>
    simp only [at_,Option.bind_eq_bind,Option.bind_eq_some_iff] at taken
    obtain ⟨got,received,taken⟩ := taken
    cases got with
    | error cause =>
      cases Option.some.inj taken
      exact cleanHolds holds received
    | ok results =>
      cases Option.some.inj taken
      refine ⟨holds.size,recordedKept rfl (by simp) holds.recorded,holds.sound,struckKept holds.struck id,?_⟩
      simp only [PhaseHolds,at_] at phase ⊢
      have reports := holds.sound.reports
      unfold State.received at received
      split at received
      · cases received
      · unfold Reports at reports
        cases outer : s.call.outer with
        | result own =>
          rw [outer] at received reports
          cases received
          obtain ⟨all,rfl,fine⟩ := reports
          exact returnedAll all (fine phase)
        | pending => rw [outer] at received; cases received
        | exception error => rw [outer] at received; cases received
        | cancelled => rw [outer] at received; cases received
  | cleaning cause =>
    simp only [at_,Option.bind_eq_bind,Option.bind_eq_some_iff] at taken
    obtain ⟨got,received,taken⟩ := taken
    simp only [PhaseHolds,at_] at phase
    have all := lenientAll holds.sound phase.1 settled
    cases got with
    | ok results =>
      cases Option.some.inj taken
      refine ⟨holds.size,recordedKept rfl (by simp) holds.recorded,holds.sound,struckKept holds.struck id,?_⟩
      exact ⟨all,causeKept (fun _ member _ => member) phase.2.2⟩
    | error own =>
      cases Option.some.inj taken
      refine ⟨holds.size,recordedKept rfl (by simp) holds.recorded,holds.sound,
        struckKept holds.struck (fun now => now.elim (fun none_ => by cases none_) .inr),?_⟩
      refine ⟨all,?_⟩
      have from_ := receivedFailed holds received
      have reports := holds.sound.reports
      unfold State.received at received
      split at received
      · rename_i must
        exact .inl (List.mem_append_left _ (holds.struck (.inl must)))
      · unfold Reports at reports
        cases outer : s.call.outer with
        | pending => rw [outer] at received; cases received
        | result own => rw [outer] at received; cases received
        | exception error =>
          rw [outer,phase.1] at reports
          exact absurd reports.1 (by simp)
        | cancelled =>
          rw [outer] at received
          cases received
          exact causeKept (fun _ member _ => member) from_

theorem runHolds (ran : Machine.run step (initial n) r = some s) : Holds n r s := by
  refine Machine.history (P := fun r s => Holds n r s) (initialHolds n) ?_ ran
  intro r m a t _ holds taken
  cases a with
  | finish i how => exact finishHolds holds taken
  | notify => exact notifyHolds holds taken
  | cancel => exact cancelHolds holds taken
  | wake => exact wakeHolds holds taken

/- When the waiting task goes on its way, every task has ended, and how it goes on is how
they have. -/
theorem endedAll {how : Ending ε α} (ran : Machine.run step (initial n) r = some s) (at_ : s.phase = .ended how) :
    (∀ i < n, ∃ p, p.done = true ∧ .finish i p ∈ r) ∧
    match how with
    | .returned values => values.length = n ∧ ∀ (i : Nat) v, values[i]? = some v ↔ .finish i (.result v) ∈ r
    | .failed (.raised error) => ∃ i, .finish i (.exception error) ∈ r
    | .failed .cancelled => .cancel ∈ r ∨ ∃ i, .finish i .cancelled ∈ r := by
  have holds := runHolds ran
  have recordedAt : ∀ p ∈ promises s.children, p.done = true → ∃ i, .finish i p ∈ r := by
    intro p member done
    obtain ⟨i,there⟩ := List.getElem?_of_mem member
    exact ⟨i,(holds.recorded i p).mpr ⟨done,there⟩⟩
  have ends : AllDone s.children → ∀ i < n, ∃ p, p.done = true ∧ .finish i p ∈ r := by
    intro all i inside
    have found := List.getElem?_eq_getElem (holds.size.symm ▸ inside)
    have done := all _ (List.mem_of_getElem? found)
    refine ⟨_,done,(holds.recorded i _).mpr ⟨done,?_⟩⟩
    rw [promises,List.getElem?_map,found]
    rfl
  have phase := holds.phase
  simp only [PhaseHolds,at_] at phase
  cases how with
  | returned values =>
    refine ⟨ends (endedDone holds at_),?_,?_⟩
    · have sizes := congrArg List.length phase
      rw [promises,List.length_map,List.length_map,holds.size] at sizes
      exact sizes.symm
    · intro i v
      rw [holds.recorded,phase,List.getElem?_map]
      cases values[i]? with
      | none => simp
      | some w => simp [Promise.done]
  | failed cause =>
    refine ⟨ends phase.1,?_⟩
    cases cause with
    | raised error => exact recordedAt _ phase.2 rfl
    | cancelled => exact phase.2.imp id (fun inside => recordedAt _ inside rfl)

def failures (r : List (Action ε α)) : List (Promise ε α) :=
  r.filterMap (fun a => match a with
    | .finish _ how => if failing how then some how else none
    | _ => none)

def Failure.promise : Failure ε → Promise ε α
  | .raised error => .exception error
  | .cancelled => .cancelled

/- What a strict gathering makes of the failures so far, with these ends yet to be told. -/
def OuterFirst (fails due : List (Promise ε α)) : Promise ε (List (Promise ε α)) → Prop
  | .pending => due.filter failing = fails
  | .result _ => fails = []
  | .exception error => fails.head? = some (.exception error)
  | .cancelled => fails.head? = some .cancelled

def EndingFirst (fails : List (Promise ε α)) : Ending ε α → Prop
  | .returned _ => fails = []
  | .failed cause => fails.head? = some cause.promise

/- While nobody cancels the waiting task, the first failure is the one that counts. -/
def First (fails : List (Promise ε α)) (s : State ε α) : Prop :=
  match s.phase with
  | .waiting => OuterFirst fails s.call.due s.call.outer
  | .cleaning cause => fails.head? = some cause.promise
  | .ended how => EndingFirst fails how

theorem failuresFinish {how : Promise ε α} :
    failures (r ++ [.finish i how]) = failures r ++ if failing how then [how] else [] := by
  rw [failures,List.filterMap_append]
  congr 1
  by_cases bad : failing how = true
  · simp [bad]
  · simp [bad]

theorem failuresOther {a : Action ε α} (other : ∀ i how, a ≠ .finish i how) : failures (r ++ [a]) = failures r := by
  rw [failures,List.filterMap_append]
  cases a with
  | finish i how => exact absurd rfl (other i how)
  | notify => exact List.append_nil _
  | cancel => exact List.append_nil _
  | wake => exact List.append_nil _

theorem headKept {β : Type} {l m : List β} {x : β} (head : l.head? = some x) : (l ++ m).head? = some x := by
  rw [List.head?_append,head]
  rfl

theorem finishOpen {how : Promise ε α} (taken : step s (.finish i how) = some t) : ¬ AllDone s.children := by
  intro all
  simp only [step,Option.bind_eq_bind,Option.bind_eq_some_iff] at taken
  obtain ⟨child,found,taken⟩ := taken
  split at taken <;> try contradiction
  rename_i may
  rw [all child (List.mem_of_getElem? found)] at may
  cases may

theorem finishFirst {how : Promise ε α} (holds : Holds n r s) (first : First (failures r) s)
    (taken : step s (.finish i how) = some t) : First (failures (r ++ [.finish i how])) t := by
  have open_ := finishOpen taken
  simp only [step,Option.bind_eq_bind,Option.bind_eq_some_iff] at taken
  obtain ⟨child,found,taken⟩ := taken
  split at taken <;> try contradiction
  cases Option.some.inj taken
  unfold First at first ⊢
  rw [failuresFinish]
  cases at_ : s.phase with
  | waiting =>
    rw [at_] at first
    have reports := holds.sound.reports
    unfold Reports at reports
    cases outer : s.call.outer with
    | pending =>
      simp only [outer,OuterFirst] at first ⊢
      rw [List.filter_append,first]
      congr 1
      by_cases bad : failing how = true
      · simp [bad]
      · simp [bad]
    | result results =>
      rw [outer] at reports
      exact absurd reports.1 open_
    | exception error =>
      rw [outer] at first
      exact headKept first
    | cancelled =>
      rw [outer] at first
      exact headKept first
  | cleaning cause =>
    rw [at_] at first
    exact headKept first
  | ended ending => exact absurd (endedDone holds at_) open_

theorem toldFirst {fails : List (Promise ε α)} (sound : Sound children call (p :: rest)) (strict : call.lenient = false)
    (calm : call.cancelled = false) (first : OuterFirst fails (p :: rest) call.outer) :
    OuterFirst fails rest (call.told children p).outer := by
  unfold Gathering.told
  split
  · rename_i settled
    cases outer : call.outer with
    | pending => rw [outer] at settled; cases settled
    | result results => rw [outer] at first; exact first
    | exception error => rw [outer] at first; exact first
    | cancelled => rw [outer] at first; exact first
  · rename_i settled
    have open_ := Promise.open_ (Bool.of_not_eq_true settled)
    rw [open_] at first
    have first : (p :: rest).filter failing = fails := first
    have passes : failing p = false → call.failure p = none := by
      intro fine
      cases p with
      | pending => rfl
      | result value => rfl
      | exception error => cases fine
      | cancelled => cases fine
    by_cases bad : failing p = true
    · rw [List.filter_cons_of_pos bad] at first
      cases p with
      | pending => cases bad
      | result value => cases bad
      | exception error =>
        simp only [Gathering.failure,strict,if_false,Bool.false_eq_true,← first]
        rfl
      | cancelled =>
        simp only [Gathering.failure,strict,if_false,Bool.false_eq_true,← first]
        rfl
    · rw [List.filter_cons_of_neg bad] at first
      have count := sound.count
      have size := @countDone _ _ children
      rw [List.length_cons] at count
      simp only [passes (Bool.of_not_eq_true bad),Gathering.complete]
      by_cases last : call.finished + 1 = children.length
      · have none_ : rest = [] := List.length_eq_zero_iff.mp (by omega)
        simp only [last,if_true,calm,Bool.false_eq_true,if_false,← first,none_]
        rfl
      · simp only [last,if_false,open_]
        exact first

theorem notifyFirst (holds : Holds n r s) (calm : Action.cancel ∉ r) (first : First (failures r) s)
    (taken : step s .notify = some t) : First (failures (r ++ [.notify])) t := by
  simp only [step] at taken
  split at taken <;> try contradiction
  rename_i p rest due
  cases Option.some.inj taken
  rw [failuresOther (by simp)]
  have phase := holds.phase
  unfold First at first ⊢
  unfold PhaseHolds at phase
  cases at_ : s.phase with
  | cleaning cause => rw [at_] at first; exact first
  | ended ending => rw [at_] at first; exact first
  | waiting =>
    rw [at_] at first phase
    have sound := holds.sound
    rw [due] at sound first
    have flag : s.call.cancelled = false := by
      rw [← Bool.not_eq_true]
      exact fun asked => calm (holds.struck (.inr asked))
    show OuterFirst _ (Gathering.told _ _ _).due _
    rw [toldDue]
    exact toldFirst (soundDue sound rest) phase flag first

theorem cleanFirst {fails : List (Promise ε α)} (head : fails.head? = some cause.promise) :
    First fails (s.clean cause) := by
  unfold First State.clean
  by_cases settled : (Gathering.start true (s.children.map Child.ask)).outer.done = true
  · simp only [settled,if_true]
    exact head
  · simp only [settled,if_false,Bool.false_eq_true]
    exact head

theorem wakeFirst (holds : Holds n r s) (calm : Action.cancel ∉ r) (first : First (failures r) s)
    (taken : step s .wake = some t) : First (failures (r ++ [.wake])) t := by
  have clear : s.mustCancel = false := by
    rw [← Bool.not_eq_true]
    exact fun must => calm (holds.struck (.inl must))
  simp only [step] at taken
  split at taken <;> try contradiction
  rw [failuresOther (by simp)]
  unfold First at first
  cases at_ : s.phase with
  | ended ending => rw [at_] at taken; cases taken
  | waiting =>
    rw [at_] at first
    simp only [at_,Option.bind_eq_bind,Option.bind_eq_some_iff,State.received,clear,Bool.false_eq_true,if_false] at taken
    obtain ⟨got,received,taken⟩ := taken
    cases outer : s.call.outer with
    | pending => rw [outer] at received; cases received
    | result results =>
      rw [outer] at received first
      cases received
      cases Option.some.inj taken
      exact first
    | exception error =>
      rw [outer] at received first
      cases received
      cases Option.some.inj taken
      exact cleanFirst first
    | cancelled =>
      rw [outer] at received first
      cases received
      cases Option.some.inj taken
      exact cleanFirst first
  | cleaning cause =>
    rw [at_] at first
    have phase := holds.phase
    simp only [PhaseHolds,at_] at phase
    simp only [at_,Option.bind_eq_bind,Option.bind_eq_some_iff,State.received,clear,Bool.false_eq_true,if_false] at taken
    obtain ⟨got,received,taken⟩ := taken
    have reports := holds.sound.reports
    unfold Reports at reports
    cases outer : s.call.outer with
    | pending => rw [outer] at received; cases received
    | result results =>
      rw [outer] at received
      cases received
      cases Option.some.inj taken
      exact first
    | exception error =>
      rw [outer,phase.1] at reports
      exact absurd reports.1 (by simp)
    | cancelled =>
      rw [outer,phase.1] at reports
      rcases reports with ⟨asked,_⟩ | ⟨strict,_⟩
      · exact absurd (holds.struck (.inr asked)) calm
      · cases strict

theorem runFirst (calm : Action.cancel ∉ r) (ran : Machine.run step (initial n) r = some s) :
    First (failures r) s := by
  refine Machine.history (P := fun r s => Action.cancel ∉ r → First (failures r) s) ?_ ?_ ran calm
  · intro _
    unfold First
    cases n with
    | zero => rfl
    | succ n =>
      have quiet : (promises (fresh (n + 1) : List (Child ε α))).filter Promise.done = [] := by
        rw [promises,fresh,List.map_replicate]
        exact List.filter_eq_nil_iff.mpr (fun p member => by rw [List.eq_of_mem_replicate member]; simp [Promise.done])
      simp only [initial,Gathering.start,quiet,List.foldl_nil]
      rfl
  · intro r m a t before first taken still
    have calm : Action.cancel ∉ r := fun member => still (List.mem_append_left _ member)
    cases a with
    | finish i how => exact finishFirst (runHolds before) (first calm) taken
    | notify => exact notifyFirst (runHolds before) calm (first calm) taken
    | cancel => exact absurd (List.mem_append_right _ List.mem_cons_self) still
    | wake => exact wakeFirst (runHolds before) calm (first calm) taken

theorem toldSettled (sound : Sound children call []) (all : AllDone children) : call.outer.done = true := by
  have count := sound.count
  have full : children.countP Child.done = children.length := List.countP_eq_length.mpr all
  have reports := sound.reports
  unfold Reports at reports
  cases outer : call.outer with
  | pending =>
    rw [outer] at reports
    rw [List.length_nil] at count
    omega
  | result results => rfl
  | exception error => rfl
  | cancelled => rfl

theorem receivedSettled (settled : s.call.outer.done = true) : ∃ got, s.received = some got := by
  unfold State.received
  split
  · exact ⟨_,rfl⟩
  · cases outer : s.call.outer with
    | pending => rw [outer] at settled; cases settled
    | result results => exact ⟨_,rfl⟩
    | exception error => exact ⟨_,rfl⟩
    | cancelled => exact ⟨_,rfl⟩

theorem finishCases {how : Promise ε α} (taken : step s (.finish i how) = some t) :
    ∃ child, s.children[i]? = some child ∧ child.done = false ∧ how.done = true ∧
      t.children = s.children.set i {child with promise := how} := by
  simp only [step,bind,Option.bind_eq_some_iff] at taken
  obtain ⟨child,found,taken⟩ := taken
  split at taken
  · rename_i guards
    cases taken
    simp only [Bool.and_eq_true,Bool.not_eq_true'] at guards
    exact ⟨child,found,guards.1,guards.2,rfl⟩
  · cases taken

/- Only going on changes where the waiting task is. -/
theorem phaseKept {a : Action ε α} (other : a ≠ .wake) (taken : step s a = some t) : t.phase = s.phase := by
  cases a with
  | finish i how =>
    simp only [step,bind,Option.bind_eq_some_iff] at taken
    obtain ⟨child,_,taken⟩ := taken
    split at taken
    · cases taken
      rfl
    · cases taken
  | notify =>
    simp only [step] at taken
    split at taken
    · cases taken
    · cases taken
      rfl
  | cancel =>
    simp only [step] at taken
    split at taken
    · cases taken
    · split at taken
      · cases taken
        rfl
      · cases taken
        rfl
  | wake => exact absurd rfl other

theorem askCases {a : Action ε α} (other : ∀ i how, a ≠ .finish i how) (taken : step s a = some t) :
    t.children = s.children ∨ t.children = s.children.map Child.ask := by
  cases a with
  | finish i how => exact absurd rfl (other i how)
  | notify =>
    simp only [step] at taken
    split at taken
    · cases taken
    · cases taken
      exact .inl rfl
  | cancel =>
    simp only [step] at taken
    split at taken
    · cases taken
    · split at taken
      · cases taken
        exact .inl rfl
      · cases taken
        exact .inr rfl
  | wake =>
    simp only [step] at taken
    split at taken
    · split at taken
      · cases taken
      · simp only [bind,Option.bind_eq_some_iff] at taken
        obtain ⟨got,_,taken⟩ := taken
        split at taken
        · cases taken
          exact .inl rfl
        · cases taken
          exact .inr rfl
      · simp only [bind,Option.bind_eq_some_iff] at taken
        obtain ⟨got,_,taken⟩ := taken
        split at taken
        · cases taken
          exact .inl rfl
        · cases taken
          exact .inl rfl
    · cases taken

theorem cancelTaken (open_ : ∀ how, s.phase ≠ .ended how) :
    ∃ t, step s .cancel = some t ∧ ∀ how, t.phase ≠ .ended how := by
  have taken : ∃ t, step s .cancel = some t := by
    cases at_ : s.phase with
    | ended how => exact absurd at_ (open_ how)
    | waiting | cleaning cause =>
      simp only [step,at_]
      split
      · exact ⟨_,rfl⟩
      · exact ⟨_,rfl⟩
  obtain ⟨t,taken⟩ := taken
  refine ⟨t,taken,fun how at_ => open_ how ?_⟩
  rw [← phaseKept (by simp) taken,at_]

theorem wakeEnds (all : AllDone s.children) (settled : s.call.outer.done = true)
    (more : ∀ how, s.phase ≠ .ended how) : ∃ t how, step s .wake = some t ∧ t.phase = .ended how := by
  obtain ⟨got,received⟩ := receivedSettled settled
  cases at_ : s.phase with
  | ended how => exact absurd at_ (more how)
  | waiting =>
    cases got with
    | ok results =>
      refine ⟨{s with phase := .ended (.returned (returnedValues results))},_,?_,rfl⟩
      simp only [step,settled,if_true,at_,received,Option.bind_eq_bind,Option.bind_some]
    | error cause =>
      have asked := toldSettled (startSound true (s.children.map Child.ask)) (askAll.mpr all)
      refine ⟨s.clean cause,.failed cause,?_,?_⟩
      · simp only [step,settled,if_true,at_,received,Option.bind_eq_bind,Option.bind_some]
      · simp only [State.clean,asked,if_true]
  | cleaning cause =>
    cases got with
    | ok results =>
      refine ⟨{s with phase := .ended (.failed cause)},_,?_,rfl⟩
      simp only [step,settled,if_true,at_,received,Option.bind_eq_bind,Option.bind_some]
    | error own =>
      refine ⟨{s with mustCancel := false, phase := .ended (.failed .cancelled)},_,?_,rfl⟩
      simp only [step,settled,if_true,at_,received,Option.bind_eq_bind,Option.bind_some]

/- With its tasks ended the waiting task is told of one more end, or goes on its way. -/
theorem goesOn (holds : Holds n r s) (all : AllDone s.children) (more : ∀ how, s.phase ≠ .ended how) :
    (∃ t, step s .notify = some t) ∨ ∃ t how, step s .wake = some t ∧ t.phase = .ended how := by
  cases due : s.call.due with
  | nil =>
    have settled : s.call.outer.done = true := toldSettled (due ▸ holds.sound) all
    exact .inr (wakeEnds all settled more)
  | cons p rest =>
    refine .inl ⟨{s with call := ({s.call with due := rest} : Gathering ε α).told s.children p},?_⟩
    simp only [step,due]

def Phase.rank : Phase ε α → Nat
  | .waiting => 2
  | .cleaning _ => 1
  | .ended _ => 0

/- How often the waiting task can be told or woken before it has gone on its way, if no
task ends in the meantime. -/
def State.rank (s : State ε α) : Nat := s.call.due.length + s.phase.rank

theorem notifyDown (taken : step s .notify = some t) : t.rank < s.rank := by
  simp only [step] at taken
  split at taken
  · cases taken
  · rename_i p rest due
    cases taken
    simp only [State.rank,toldDue,due,List.length_cons]
    omega

theorem cleanRank (cause : Failure ε) : (s.clean cause).rank ≤ 1 := by
  simp only [State.clean,State.rank,startDue,List.length_nil,Nat.zero_add]
  split
  · exact Nat.zero_le _
  · exact Nat.le_refl _

theorem wakeDown (taken : step s .wake = some t) : t.rank < s.rank := by
  simp only [step] at taken
  split at taken
  · split at taken
    · cases taken
    · rename_i at_
      simp only [bind,Option.bind_eq_some_iff] at taken
      obtain ⟨got,_,taken⟩ := taken
      split at taken
      · cases taken
        simp only [State.rank,at_,Phase.rank]
        omega
      · rename_i cause _
        cases taken
        have few := cleanRank (s := s) cause
        simp only [State.rank,at_,Phase.rank] at few ⊢
        omega
    · rename_i cause at_
      simp only [bind,Option.bind_eq_some_iff] at taken
      obtain ⟨got,_,taken⟩ := taken
      split at taken
      · cases taken
        simp only [State.rank,at_,Phase.rank]
        omega
      · cases taken
        simp only [State.rank,at_,Phase.rank]
        omega
  · cases taken

theorem finishRank {how : Promise ε α} (taken : step s (.finish i how) = some t) : t.rank = s.rank + 1 := by
  simp only [step,bind,Option.bind_eq_some_iff] at taken
  obtain ⟨child,_,taken⟩ := taken
  split at taken
  · cases taken
    simp only [State.rank,List.length_append,List.length_cons,List.length_nil]
    omega
  · cases taken

theorem cancelRank (taken : step s .cancel = some t) : t.rank = s.rank := by
  simp only [step] at taken
  split at taken
  · cases taken
  · split at taken
    · cases taken
      rfl
    · cases taken
      rfl

/- A task ends cancelled only if it has been asked to end. -/
def Polite (s : State ε α) (a : Action ε α) : Prop :=
  ∀ i, a = .finish i .cancelled → ∃ child, s.children[i]? = some child ∧ 0 < child.asked

theorem wakeKept (taken : step s .wake = some t) : t.children = s.children ∨
    (∃ cause, t.phase = .cleaning cause) ∨ ∃ cause, t.phase = .ended (.failed cause) := by
  simp only [step] at taken
  split at taken
  · split at taken
    · cases taken
    · simp only [bind,Option.bind_eq_some_iff] at taken
      obtain ⟨got,_,taken⟩ := taken
      split at taken
      · cases taken
        exact .inl rfl
      · cases taken
        unfold State.clean
        dsimp only
        split
        · exact .inr (.inr ⟨_,rfl⟩)
        · exact .inr (.inl ⟨_,rfl⟩)
    · simp only [bind,Option.bind_eq_some_iff] at taken
      obtain ⟨got,_,taken⟩ := taken
      split at taken
      · cases taken
        exact .inl rfl
      · cases taken
        exact .inl rfl
  · cases taken

theorem unasked (calm : Action.cancel ∉ r) (fine : failures r = []) (ran : Machine.run step (initial n) r = some s) :
    ∀ child ∈ s.children, child.asked = 0 := by
  refine Machine.history (P := fun r s => Action.cancel ∉ r → failures r = [] → ∀ child ∈ s.children, child.asked = 0)
    ?_ ?_ ran calm fine
  · intro _ _ child member
    rw [List.eq_of_mem_replicate member]
  · intro r m a t before quiet taken still none_ child member
    have calm : Action.cancel ∉ r := fun inside => still (List.mem_append_left _ inside)
    have fine : failures r = [] := by
      rw [failures,List.filterMap_append,List.append_eq_nil_iff] at none_
      exact none_.1
    have zero := quiet calm fine
    cases a with
    | finish i how =>
      simp only [step,bind,Option.bind_eq_some_iff] at taken
      obtain ⟨own,found,taken⟩ := taken
      split at taken
      · cases taken
        rcases List.mem_or_eq_of_mem_set member with old | rfl
        · exact zero child old
        · exact zero own (List.mem_of_getElem? found)
      · cases taken
    | notify =>
      simp only [step] at taken
      split at taken
      · cases taken
      · cases taken
        exact zero child member
    | cancel => exact absurd (List.mem_append_right _ List.mem_cons_self) still
    | wake =>
      have first := runFirst still (Machine.runSnoc.mpr ⟨m,before,taken⟩)
      rcases wakeKept taken with same | ⟨cause,at_⟩ | ⟨cause,at_⟩
      · exact zero child (same ▸ member)
      · simp only [First,at_,none_] at first
        cases first
      · simp only [First,at_,none_] at first
        cases first

theorem politeFirst (calm : Action.cancel ∉ r) (polite : Machine.Steps step Polite (initial n) r)
    (ran : Machine.run step (initial n : State ε α) r = some s) : (failures r).head? ≠ some .cancelled := by
  refine Machine.historySteps (P := fun r (_ : State ε α) => Action.cancel ∉ r → (failures r).head? ≠ some .cancelled)
    (fun _ => by simp [failures]) ?_ polite ran calm
  intro r m a t _ before here kept taken still
  have calm : Action.cancel ∉ r := fun inside => still (List.mem_append_left _ inside)
  by_cases fine : failures r = []
  · cases a with
    | finish i how =>
      rw [failuresFinish,fine,List.nil_append]
      intro head
      have own : how = .cancelled := by
        split at head
        · exact Option.some.inj head
        · cases head
      obtain ⟨child,found,asked⟩ := here i (by rw [own])
      have zero := unasked calm fine before child (List.mem_of_getElem? found)
      omega
    | _ =>
      rw [failuresOther (fun i how => by simp),fine]
      simp
  · intro head
    refine kept calm ?_
    cases old : failures r with
    | nil => exact absurd old fine
    | cons p rest =>
      rw [failures,List.filterMap_append,← failures,old] at head
      exact head

theorem politeEnds {how : Ending ε α} (calm : Action.cancel ∉ r) (polite : Machine.Steps step Polite (initial n) r)
    (ran : Machine.run step (initial n) r = some s) (at_ : s.phase = .ended how) : how ≠ .failed .cancelled := by
  rintro rfl
  have first := runFirst calm ran
  simp only [First,at_] at first
  exact politeFirst calm polite ran first

end Apixis.Gather
