import Apixis.Graph.Interruption
import Apixis.Library.Cancellation

/-! `interrupt()` from the event it posts to its end, in the task of its node. The
block is completed by hooks and whoever has it, by the deadline of the interruption,
by a cancellation of the task and by the end of the invocation; its completion and
the task's going on are two steps. -/
namespace Apixis.Deciding
open Cancellation Interruption

variable {V η : Type}

inductive Raised (η : Type) where
  | failure (error : Failure η)
  | timeoutError
  | posting (error : PyError)
  deriving DecidableEq, Repr

/- `interrupt()` returns what the block has been resolved with, or `None`. -/
abbrev End (V η : Type) := Ended Unit (Raised η) (Option V)

inductive Pc (V η : Type) where
  | posting
  | waiting
  /- Out of the timeout scope, on the way out of `suspend_process`. -/
  | leaving (ended : End V η)
  | ended (ended : End V η)
  deriving DecidableEq, Repr

def Pc.isWaiting : Pc V η → Bool
  | .waiting => true
  | _ => false

def Pc.isEnded : Pc V η → Bool
  | .ended _ => true
  | _ => false

def cancelled (block : Block V η) : Bool := match block.future with
  | .cancelled => true
  | _ => false

/- `completed` is `completion.done()`, `running` the status of the context. -/
structure State (V η : Type) where
  block : Block V η
  pc : Pc V η
  task : Task
  scope : Option Scope
  completed : Bool
  running : Bool
  aborted : Bool
  deriving DecidableEq, Repr

inductive Action (V η : Type) where
  | posted (ended : Ended Unit PyError Unit)
  | operation (operation : Operation V η)
  /- The task is cancelled from outside: a node timeout, a sibling that fails. -/
  | cancel
  | expire
  /- The completion of the invocation is done; its context stops running. -/
  | complete
  | stop
  | closeBlock
  | resume
  | left
  deriving DecidableEq, Repr

/- The block is new; the task may have been cancelled before and have gone on. -/
def initial (runId graphId requests : Nat) (completed : Bool) : State V η :=
  ⟨⟨runId,graphId,false,.pending⟩,.posting,⟨requests,false⟩,none,completed,true,false⟩

/- How `await block` ends. -/
def awaited : Interruption.Future V η → Option (End V η)
  | .pending => none
  | .result value => some (.returned (some value))
  | .exception error => match error with
      | .cancelledError => some (.cancelled ())
      | error => some (.raised (.failure error))
  | .cancelled => some (.cancelled ())

section Step
variable (timed : Bool) (isTimeout : Failure η → Bool)

/- The clause for `TimeoutError`. -/
def exceptTimeout (expired : Bool) : End V η → End V η
  | .raised error =>
      let caught := match error with
        | .failure error => isTimeout error
        | .timeoutError => true
        | .posting _ => false
      if caught && expired then .returned none else .raised error
  | ended => ended

def State.leaveScope (s : State V η) (ended : End V η) : State V η := match s.scope with
  | none => {s with pc := .leaving ended}
  | some scope =>
      let (requests,left) := scope.leave .timeoutError s.task.requests ended
      {s with
        pc := .leaving (exceptTimeout isTimeout scope.expiring left)
        task := {s.task with requests := requests}
        scope := none}

/- Whether the clause for `CancelledError` aborts the invocation. -/
def State.aborts (s : State V η) (ended : End V η) : Bool :=
  ended.isCancelled && cancelled s.block && s.task.requests == 0 && s.running

/- That clause and the `finally` of `interrupt()`. -/
def State.close (s : State V η) (ended : End V η) : State V η :=
  {s with
    block := if !s.block.done then s.block.cancel else s.block
    pc := .ended ended
    completed := s.completed || s.aborts ended
    running := s.running && !s.aborts ended
    aborted := s.aborted || s.aborts ended}

/- `cancel` of the task: a future it waits for takes the cancellation if it can. -/
def State.cancelTask (s : State V η) : State V η :=
  if s.pc.isWaiting then
    {s with task := s.task.cancel (!s.block.done), block := s.block.cancel}
  else {s with task := s.task.cancel false}

def step (s : State V η) : Action V η → Option (State V η)
  | .posted ended => match s.pc with
      | .posting =>
          let s := {s with task := {s.task with mustCancel := false}}
          match ended with
          | .returned _ =>
              let s := {s with scope := if timed then some (.enter s.task.requests) else none}
              match awaited s.block.future with
              | some ended => some (s.leaveScope isTimeout ended)
              | none => some {s with pc := .waiting}
          | .raised error => some (s.close (.raised (.posting error)))
          | .cancelled why => some (s.close (.cancelled why))
          | .escaped => some (s.close .escaped)
      | _ => none
  | .operation operation => some {s with block := s.block.perform operation}
  | .cancel => if s.pc.isEnded then none else some s.cancelTask
  | .expire => match s.scope with
      | some scope =>
          if scope.expiring then none
          else some {s.cancelTask with scope := some {scope with expiring := true}}
      | none => none
  | .complete => some {s with completed := true}
  | .stop => some {s with running := false}
  | .closeBlock =>
      if s.completed && !s.pc.isEnded then some {s with block := s.block.cancel} else none
  | .resume => match s.pc with
      | .waiting => do
          let ended ← awaited s.block.future
          let (task,ended) := s.task.resume () ended
          some ({s with task := task}.leaveScope isTimeout ended)
      | _ => none
  | .left => match s.pc with
      | .leaving ended =>
          let (task,ended) := s.task.resume () ended
          some ({s with task := task}.close ended)
      | _ => none

inductive Step (s : State V η) : Action V η → State V η → Prop where
  | wait {u} (pc : s.pc = .posting) (waits : awaited s.block.future = (none : Option (End V η))) :
      Step s (.posted (.returned u)) {s with
        pc := .waiting
        task := {s.task with mustCancel := false}
        scope := if timed then some (.enter s.task.requests) else none}
  | pass {u ended} (pc : s.pc = .posting) (waited : awaited s.block.future = some ended) :
      Step s (.posted (.returned u))
        ({s with
          task := {s.task with mustCancel := false}
          scope := if timed then some (.enter s.task.requests) else none}.leaveScope isTimeout ended)
  | fail {ended final} (pc : s.pc = .posting) (other : ∀ u, ended ≠ .returned u) (calm : final ≠ .returned none) :
      Step s (.posted ended) ({s with task := {s.task with mustCancel := false}}.close final)
  | operation {operation} : Step s (.operation operation) {s with block := s.block.perform operation}
  | cancel (on : s.pc.isEnded = false) : Step s .cancel s.cancelTask
  | expire {scope} (open_ : s.scope = some scope) (fresh : scope.expiring = false) :
      Step s .expire {s.cancelTask with scope := some {scope with expiring := true}}
  | complete : Step s .complete {s with completed := true}
  | stop : Step s .stop {s with running := false}
  | closeBlock (completed : s.completed = true) (on : s.pc.isEnded = false) :
      Step s .closeBlock {s with block := s.block.cancel}
  | resume {ended} (pc : s.pc = .waiting) (waited : awaited s.block.future = some ended) :
      Step s .resume ({s with task := (s.task.resume () ended).1}.leaveScope isTimeout
        (s.task.resume () ended).2)
  | left {ended} (pc : s.pc = .leaving ended) :
      Step s .left ({s with task := (s.task.resume () ended).1}.close (s.task.resume () ended).2)

variable {timed isTimeout} {s t : State V η} {a : Action V η}

theorem stepCases (taken : step timed isTimeout s a = some t) : Step timed isTimeout s a t := by
  cases a with
  | posted ended =>
    simp only [step] at taken
    split at taken <;> try contradiction
    rename_i pc
    cases ended with
    | returned u =>
      cases waited : awaited s.block.future with
      | none =>
        simp only [waited] at taken
        cases Option.some.inj taken
        exact .wait pc waited
      | some ended =>
        simp only [waited] at taken
        cases Option.some.inj taken
        exact .pass pc waited
    | raised error => cases Option.some.inj taken; exact .fail pc (fun _ at_ => by cases at_) (fun at_ => by cases at_)
    | cancelled why => cases Option.some.inj taken; exact .fail pc (fun _ at_ => by cases at_) (fun at_ => by cases at_)
    | escaped => cases Option.some.inj taken; exact .fail pc (fun _ at_ => by cases at_) (fun at_ => by cases at_)
  | operation operation => cases Option.some.inj taken; exact .operation
  | cancel =>
    simp only [step] at taken
    split at taken <;> try contradiction
    rename_i on
    cases Option.some.inj taken
    exact .cancel (by simpa using on)
  | expire =>
    simp only [step] at taken
    split at taken <;> try contradiction
    rename_i scope open_
    split at taken <;> try contradiction
    rename_i fresh
    cases Option.some.inj taken
    exact .expire open_ (by simpa using fresh)
  | complete => cases Option.some.inj taken; exact .complete
  | stop => cases Option.some.inj taken; exact .stop
  | closeBlock =>
    simp only [step] at taken
    split at taken <;> try contradiction
    rename_i guard
    simp only [Bool.and_eq_true,Bool.not_eq_true'] at guard
    cases Option.some.inj taken
    exact .closeBlock guard.1 guard.2
  | resume =>
    simp only [step] at taken
    split at taken <;> try contradiction
    rename_i pc
    obtain ⟨ended,waited,last⟩ := Option.bind_eq_some_iff.mp taken
    cases Option.some.inj last
    exact .resume pc waited
  | left =>
    simp only [step] at taken
    split at taken <;> try contradiction
    rename_i ended pc
    cases Option.some.inj taken
    exact .left pc

@[simp] theorem leaveScopeAborted (s : State V η) (ended : End V η) :
    (s.leaveScope isTimeout ended).aborted = s.aborted := by
  unfold State.leaveScope
  split <;> rfl

@[simp] theorem leaveScopeBlock (s : State V η) (ended : End V η) :
    (s.leaveScope isTimeout ended).block = s.block := by
  unfold State.leaveScope
  split <;> rfl

end Step

inductive Cause (V η : Type) where
  | resolved (value : V)
  | failed (error : Failure η)
  | cancelled
  | deadline
  | outside
  | closed
  | left
  deriving DecidableEq, Repr

/- `late`: the deadline strikes after the block is done. -/
inductive Mark (V η : Type) where
  | completed (cause : Cause V η)
  | late
  deriving DecidableEq, Repr

def cause : Action V η → Cause V η
  | .operation operation => match operation with
      | .resolve value => .resolved value
      | .fail error => .failed error
      | _ => .cancelled
  | .cancel => .outside
  | .expire => .deadline
  | .closeBlock => .closed
  | _ => .left

def Cause.future : Cause V η → Interruption.Future V η
  | .resolved value => .result value
  | .failed error => .exception error
  | _ => .cancelled

def Cause.verdict : Cause V η → End V η
  | .resolved value => .returned (some value)
  | .failed error => match error with
      | .cancelledError => .cancelled ()
      | error => .raised (.failure error)
  | .deadline => .returned none
  | _ => .cancelled ()

/- The deadline of an interruption whose block is done. -/
def struck : Action V η → List (Mark V η)
  | .expire => [.late]
  | _ => []

def marks (timed : Bool) (isTimeout : Failure η → Bool) (s : State V η) (a : Action V η) :
    List (Mark V η) := match step timed isTimeout s a with
  | none => []
  | some t =>
      if s.block.done then struck a
      else if t.block.done then [.completed (cause a)] else []

section Block
variable {block : Block V η} {future : Interruption.Future V η} {c : Cause V η} {ended : End V η}
  {isTimeout : Failure η → Bool}

theorem pendingOpen (pending : block.future = .pending) : block.done = false := by
  simp [Block.done,pending]

theorem openPending (waits : block.done = false) : block.future = .pending := by
  unfold Block.done at waits
  split at waits
  · assumption
  · cases waits

theorem settleKept (done : block.done = true) (value : Interruption.Future V η) :
    block.settle value = block := by
  simp [Block.settle,done]

theorem settleOpen (waits : block.done = false) (value : Interruption.Future V η) :
    (block.settle value).future = value := by
  simp [Block.settle,waits]

theorem settleEither (block : Block V η) (value : Interruption.Future V η) :
    (block.settle value).future = block.future ∨
      (block.done = false ∧ (block.settle value).future = value) := by
  cases done : block.done with
  | true => exact .inl (congrArg _ (settleKept done value))
  | false => exact .inr ⟨rfl,settleOpen done value⟩

theorem closeEither (s : State V η) (ended : End V η) :
    (s.close ended).block.future = s.block.future ∨
      (s.block.done = false ∧ (s.close ended).block.future = .cancelled) := by
  simp only [State.close]
  cases done : s.block.done with
  | true => exact .inl rfl
  | false => exact .inr ⟨rfl,settleOpen done _⟩

theorem cancelEither (s : State V η) : s.cancelTask.block.future = s.block.future ∨
    (s.block.done = false ∧ s.cancelTask.block.future = .cancelled) := by
  unfold State.cancelTask
  split
  · exact settleEither _ _
  · exact .inl rfl

theorem causeDone (c : Cause V η) : c.future ≠ .pending := by
  cases c <;> exact fun at_ => by cases at_

theorem causeVerdict (own : c ≠ .deadline) (waited : awaited c.future = some ended) : ended = c.verdict := by
  cases c with
  | deadline => exact absurd rfl own
  | failed error => cases error <;> exact (Option.some.inj waited).symm
  | _ => exact (Option.some.inj waited).symm

theorem exceptNone (ended : End V η) : exceptTimeout isTimeout false ended = ended := by
  cases ended <;> simp [exceptTimeout]

end Block

/- Completed by somebody, and by no cancellation of the waiting task. -/
def Natural : Cause V η → Prop
  | .deadline | .outside | .left => False
  | _ => True

/- What has been completed once is completed for good; only the deadline may still
strike. -/
inductive Told : List (Mark V η) → Interruption.Future V η → Prop where
  | waiting : Told [] .pending
  | done (c : Cause V η) {lates : List (Mark V η)} (late : ∀ mark ∈ lates, mark = .late) :
      Told (.completed c :: lates) c.future

inductive Early : List (Mark V η) → Prop where
  | waiting : Early []
  | done {c : Cause V η} (natural : Natural c) : Early [.completed c]

/- What the marks of an interruption nobody cancels from outside decide. -/
inductive Verdict : List (Mark V η) → End V η → Prop where
  | prompt {c : Cause V η} (natural : Natural c) : Verdict [.completed c] c.verdict
  | deadline : Verdict [.completed .deadline] (.returned none)
  | late {c : Cause V η} (natural : Natural c) : Verdict [.completed c,.late] (.returned none)

/- Every request but that of the open scope has been made from outside. -/
def Ledger (base outs : Nat) (s : State V η) : Prop := match s.pc with
  | .posting => s.scope = none ∧ s.task.requests = base + outs ∧ s.aborted = false
  | .waiting => s.aborted = false ∧ match s.scope with
      | none => s.task.requests = base + outs
      | some scope => base ≤ scope.cancelling ∧
          s.task.requests = base + outs + (if scope.expiring then 1 else 0)
  | .leaving _ => s.scope = none ∧ s.task.requests = base + outs ∧ s.aborted = false
  | .ended _ => s.scope = none

def Free (awaits : Bool) (made : List (Mark V η)) (s : State V η) : Prop := match s.pc with
  | .posting => Early made
  | .waiting => match s.scope with
      | none => s.task.mustCancel = false ∧ Early made
      | some scope =>
          if scope.expiring then
            (s.task.mustCancel = false ∧ made = [.completed .deadline]) ∨
              (s.task.mustCancel = true ∧ ∃ c, Natural c ∧ made = [.completed c,.late])
          else s.task.mustCancel = false ∧ Early made
  | .leaving ended => s.task.mustCancel = false ∧ Verdict made ended
  | .ended ended => awaits = true → Verdict made ended

def outside : Action V η → Bool
  | .cancel => true
  | _ => false

/- The event has been posted, so that the block is awaited. -/
def awaits : Action V η → Bool
  | .posted ended => match ended with
      | .returned _ => true
      | _ => false
  | _ => true

/- Nobody has asked for a cancellation of the task: the block itself has been cancelled. -/
structure ByBlock (base : Nat) (acts : List (Action V η)) (made : List (Mark V η)) : Prop where
  before : base = 0
  none_ : acts.countP outside = 0
  made : made = [.completed .cancelled] ∨ made = [.completed .closed]

structure Kept (base : Nat) (acts : List (Action V η)) (made : List (Mark V η)) (s : State V η) :
    Prop where
  told : Told made s.block.future
  ledger : Ledger base (acts.countP outside) s
  free : acts.countP outside = 0 → Free (acts.all awaits) made s
  abort : s.aborted = true → ByBlock base acts made

section Step
variable {timed : Bool} {isTimeout : Failure η → Bool} {base : Nat} {acts : List (Action V η)}
  {made : List (Mark V η)} {s t : State V η} {a : Action V η} {c : Cause V η} {ended : End V η}

theorem toldDone (told : Told made s.block.future) (done : s.block.done = true) : made ≠ [] := by
  generalize at_ : s.block.future = future at told
  cases told with
  | waiting =>
    rw [pendingOpen at_] at done
    cases done
  | done c late => exact fun empty => by cases empty

theorem toldOpen (told : Told made s.block.future) (waits : s.block.done = false) : made = [] := by
  rw [openPending waits] at told
  generalize at_ : (Interruption.Future.pending : Interruption.Future V η) = future at told
  cases told with
  | waiting => rfl
  | done c late => exact absurd at_.symm (causeDone c)

/- Only what the marks show happens to the block. -/
theorem blockStep (taken : step timed isTimeout s a = some t) : t.block.future = s.block.future ∨
    (s.block.done = false ∧ t.block.future = (cause a).future) := by
  cases stepCases taken with
  | wait pc waits => exact .inl rfl
  | pass pc waited => exact .inl (by rw [leaveScopeBlock])
  | fail pc other calm => exact closeEither _ _
  | @operation operation =>
    cases operation with
    | accept => exact .inl rfl
    | resolve value => exact settleEither _ _
    | fail error => exact settleEither _ _
    | cancel => exact settleEither _ _
  | cancel on => exact cancelEither s
  | expire open_ fresh => exact cancelEither s
  | complete => exact .inl rfl
  | stop => exact .inl rfl
  | closeBlock completed on => exact settleEither _ _
  | resume pc waited => exact .inl (by rw [leaveScopeBlock])
  | left pc => exact closeEither _ _

theorem toldStep (told : Told made s.block.future) (taken : step timed isTimeout s a = some t) :
    Told (made ++ marks timed isTimeout s a) t.block.future := by
  have moved := blockStep taken
  simp only [marks,taken]
  cases done : s.block.done with
  | true =>
    have marked := toldDone told done
    rcases moved with same | ⟨waits,_⟩
    · rw [same]
      generalize s.block.future = future at told
      cases told with
      | waiting => exact absurd rfl marked
      | done c earlier =>
        refine .done c ?_
        intro mark member
        rcases List.mem_append.mp member with before | here
        · exact earlier mark before
        · cases a <;> simp_all [struck]
    · rw [done] at waits
      cases waits
  | false =>
    rw [toldOpen told done]
    rcases moved with same | ⟨_,completed⟩
    · have waits : t.block.done = false := pendingOpen (same.trans (openPending done))
      simp only [waits,Bool.false_eq_true,if_false,List.append_nil]
      rw [same,openPending done]
      exact .waiting
    · have closed : t.block.done = true := by
        cases done_ : t.block.done with
        | true => rfl
        | false => exact absurd (completed.symm.trans (openPending done_)) (causeDone _)
      simp only [closed,if_true]
      rw [completed]
      exact .done (cause a) (by simp)

theorem leaveLedger {outs : Nat} (calm : s.aborted = false)
    (requests : match s.scope with
      | none => s.task.requests = base + outs
      | some scope => base ≤ scope.cancelling ∧
          s.task.requests = base + outs + (if scope.expiring then 1 else 0)) :
    Ledger base outs (s.leaveScope isTimeout ended) := by
  unfold State.leaveScope
  split
  · rename_i scope
    rw [scope] at requests
    exact ⟨scope,requests,calm⟩
  · rename_i open_ scope
    rw [scope] at requests
    refine ⟨rfl,?_,calm⟩
    have counted := requests.2
    simp only [leaveRequests]
    cases expiring : open_.expiring with
    | true =>
      simp only [expiring,if_true] at counted ⊢
      omega
    | false =>
      simp only [expiring] at counted ⊢
      exact counted

theorem ledgerSame {outs : Nat} (ledger : Ledger base outs s) (pc : t.pc = s.pc) (task : t.task = s.task)
    (scope : t.scope = s.scope) (aborted : t.aborted = s.aborted) : Ledger base outs t := by
  unfold Ledger at ledger ⊢
  rw [pc,task,scope,aborted]
  exact ledger

theorem scopeWaits {outs : Nat} {scope : Scope} (ledger : Ledger base outs s) (open_ : s.scope = some scope) :
    s.pc = .waiting := by
  unfold Ledger at ledger
  cases at_ : s.pc with
  | waiting => rfl
  | posting => rw [at_] at ledger; cases open_.symm.trans ledger.1
  | leaving ended => rw [at_] at ledger; cases open_.symm.trans ledger.1
  | ended ended => rw [at_] at ledger; cases open_.symm.trans ledger

theorem ledgerCalm {outs : Nat} (ledger : Ledger base outs s) (on : s.pc.isEnded = false) :
    s.aborted = false := by
  unfold Ledger at ledger
  cases at_ : s.pc with
  | posting => rw [at_] at ledger; exact ledger.2.2
  | waiting => rw [at_] at ledger; exact ledger.1
  | leaving ended => rw [at_] at ledger; exact ledger.2.2
  | ended ended => rw [at_] at on; cases on

theorem cancelTaskRequests (s : State V η) : s.cancelTask.task.requests = s.task.requests + 1 ∧
    s.cancelTask.pc = s.pc ∧ s.cancelTask.scope = s.scope ∧ s.cancelTask.aborted = s.aborted := by
  unfold State.cancelTask
  split <;> exact ⟨rfl,rfl,rfl,rfl⟩

theorem ledgerStep {outs : Nat} (ledger : Ledger base outs s) (taken : step timed isTimeout s a = some t) :
    Ledger base (outs + if outside a then 1 else 0) t := by
  cases stepCases taken with
  | wait pc waits =>
    simp only [Ledger,pc] at ledger
    refine ⟨ledger.2.2,?_⟩
    cases timed with
    | false => exact ledger.2.1
    | true => exact ⟨by rw [enterCancelling]; omega,ledger.2.1⟩
  | pass pc waited =>
    simp only [Ledger,pc] at ledger
    refine leaveLedger ledger.2.2 ?_
    cases timed with
    | false => exact ledger.2.1
    | true => exact ⟨by rw [enterCancelling]; omega,ledger.2.1⟩
  | fail pc other calm =>
    simp only [Ledger,pc] at ledger
    exact ledger.1
  | operation => exact ledgerSame ledger rfl rfl rfl rfl
  | complete => exact ledgerSame ledger rfl rfl rfl rfl
  | stop => exact ledgerSame ledger rfl rfl rfl rfl
  | closeBlock completed on => exact ledgerSame ledger rfl rfl rfl rfl
  | cancel on =>
    obtain ⟨requests,pc,scope,aborted⟩ := cancelTaskRequests s
    unfold Ledger at ledger ⊢
    rw [pc,scope,aborted,requests]
    simp only [outside,if_true]
    cases at_ : s.pc with
    | posting =>
      rw [at_] at ledger
      exact ⟨ledger.1,by omega,ledger.2.2⟩
    | waiting =>
      rw [at_] at ledger
      refine ⟨ledger.1,?_⟩
      have counted := ledger.2
      cases open_ : s.scope with
      | none =>
        simp only [open_] at counted ⊢
        omega
      | some scope =>
        simp only [open_] at counted ⊢
        exact ⟨counted.1,by omega⟩
    | leaving ended =>
      rw [at_] at ledger
      exact ⟨ledger.1,by omega,ledger.2.2⟩
    | ended ended =>
      rw [at_] at on
      cases on
  | @expire scope open_ fresh =>
    obtain ⟨requests,pc,_,aborted⟩ := cancelTaskRequests s
    have at_ := scopeWaits ledger open_
    simp only [Ledger,at_,open_,fresh] at ledger
    obtain ⟨calm,inside,counted⟩ := ledger
    simp only [Ledger,pc,at_,aborted,requests]
    refine ⟨calm,inside,?_⟩
    simp only [outside,Bool.false_eq_true,if_true,if_false] at counted ⊢
    omega
  | resume pc waited =>
    simp only [Ledger,pc] at ledger
    refine leaveLedger ledger.1 ?_
    simp only [resumeRequests]
    exact ledger.2
  | left pc =>
    simp only [Ledger,pc] at ledger
    exact ledger.1

theorem marksDone (taken : step timed isTimeout s a = some t) (done : s.block.done = true) :
    marks timed isTimeout s a = struck a := by
  simp only [marks,taken,done,if_true]

theorem marksSame (taken : step timed isTimeout s a = some t) (same : t.block.future = s.block.future)
    (quiet : struck a = []) : marks timed isTimeout s a = [] := by
  simp only [marks,taken,quiet]
  cases done : s.block.done with
  | true => rfl
  | false =>
    have waits : t.block.done = false := pendingOpen (same.trans (openPending done))
    simp only [waits,Bool.false_eq_true,if_false]

theorem markedDone (told : Told made s.block.future) (marked : made ≠ []) : s.block.done = true := by
  cases done : s.block.done with
  | true => rfl
  | false => exact absurd (toldOpen told done) marked

theorem earlyStep (told : Told made s.block.future) (early : Early made)
    (taken : step timed isTimeout s a = some t) (natural : Natural (cause a)) (quiet : struck a = []) :
    Early (made ++ marks timed isTimeout s a) := by
  cases done : s.block.done with
  | true =>
    rw [marksDone taken done,quiet,List.append_nil]
    exact early
  | false =>
    rw [toldOpen told done]
    simp only [marks,taken,done,Bool.false_eq_true,if_false,List.nil_append]
    split
    · exact .done natural
    · exact .waiting

theorem verdictDone (told : Told made s.block.future) (verdict : Verdict made ended) :
    s.block.done = true := by
  refine markedDone told ?_
  cases verdict <;> exact fun empty => by cases empty

theorem freeBeside {aw : Bool} (told : Told made s.block.future) (free : Free aw made s)
    (taken : step timed isTimeout s a = some t) (natural : Natural (cause a)) (quiet : struck a = [])
    (pc : t.pc = s.pc) (task : t.task = s.task) (scope : t.scope = s.scope) :
    Free aw (made ++ marks timed isTimeout s a) t := by
  have early : Early made → Early (made ++ marks timed isTimeout s a) := fun early =>
    earlyStep told early taken natural quiet
  have done : s.block.done = true → made ++ marks timed isTimeout s a = made := by
    intro done
    rw [marksDone taken done,quiet,List.append_nil]
  unfold Free at free ⊢
  rw [pc,task,scope]
  cases at_ : s.pc with
  | posting =>
    rw [at_] at free
    exact early free
  | waiting =>
    simp only [at_] at free
    simp only
    cases open_ : s.scope with
    | none =>
      simp only [open_] at free
      exact ⟨free.1,early free.2⟩
    | some scope =>
      simp only [open_] at free
      cases expiring : scope.expiring with
      | false =>
        simp only [expiring,Bool.false_eq_true,if_false] at free ⊢
        exact ⟨free.1,early free.2⟩
      | true =>
        simp only [expiring,if_true] at free ⊢
        have marked : made ≠ [] := by
          rintro rfl
          rcases free with ⟨_,empty⟩ | ⟨_,c,_,empty⟩
          · cases empty
          · cases empty
        rw [done (markedDone told marked)]
        exact free
  | leaving ended =>
    rw [at_] at free
    have verdict : Verdict made ended := free.2
    rw [done (verdictDone told verdict)]
    exact free
  | ended ended =>
    rw [at_] at free
    intro aw
    have verdict : Verdict made ended := free aw
    rw [done (verdictDone told verdict)]
    exact verdict

theorem earlyAwaited (told : Told made s.block.future) (early : Early made)
    (waited : awaited s.block.future = some ended) : Verdict made ended := by
  cases early with
  | waiting =>
    generalize s.block.future = future at told waited
    cases told
    cases waited
  | @done c natural =>
    generalize s.block.future = future at told waited
    cases told
    have own : c ≠ .deadline := by
      rintro rfl
      exact natural
    rw [causeVerdict own waited]
    exact .prompt natural

theorem leaveCalm {aw : Bool} (kept : s.task.mustCancel = false) (verdict : Verdict made ended)
    (fresh : ∀ scope, s.scope = some scope → scope.expiring = false) :
    Free aw made (s.leaveScope isTimeout ended) := by
  unfold State.leaveScope
  split
  · exact ⟨kept,verdict⟩
  · rename_i scope open_
    refine ⟨kept,?_⟩
    have calm := fresh scope open_
    simp only [Scope.leave,calm,Bool.false_eq_true,if_false,exceptNone]
    exact verdict

theorem leaveExpired {aw : Bool} {scope : Scope} (kept : s.task.mustCancel = false)
    (open_ : s.scope = some scope) (expiring : scope.expiring = true)
    (alone : s.task.requests - 1 ≤ scope.cancelling) (verdict : Verdict made (.returned none)) :
    Free aw made (s.leaveScope isTimeout (.cancelled ())) := by
  unfold State.leaveScope
  simp only [open_,Scope.leave,expiring,if_true,alone,exceptTimeout,Bool.and_self]
  exact ⟨kept,verdict⟩

/- The deadline strikes while the block is open, and completes it, or too late. -/
theorem freeExpire {aw all : Bool} {scope : Scope} {t : State V η} (told : Told made s.block.future)
    (free : Free aw made s) (pc : s.pc = .waiting) (open_ : s.scope = some scope)
    (fresh : scope.expiring = false)
    (taken : step timed isTimeout s .expire = some t)
    (struck_ : t = {s.cancelTask with scope := some {scope with expiring := true}}) :
    Free all (made ++ marks timed isTimeout s .expire) t := by
  subst struck_
  simp only [Free,pc,open_,fresh,Bool.false_eq_true,if_false] at free
  obtain ⟨kept,early⟩ := free
  cases done : s.block.done with
  | true =>
    rw [marksDone taken done]
    simp only [Free,State.cancelTask,pc,Pc.isWaiting,if_true,Task.cancel,kept,done,Bool.not_true,
      Bool.not_false,Bool.or_true,Bool.true_eq_false,false_and,true_and,false_or]
    cases early with
    | waiting => exact absurd rfl (toldDone told done)
    | @done c natural => exact ⟨c,natural,rfl⟩
  | false =>
    have closed : s.block.cancel.done = true := by
      simp only [Block.done,Block.cancel,settleOpen done]
    rw [toldOpen told done]
    simp only [Free,marks,taken,State.cancelTask,pc,Pc.isWaiting,if_true,Task.cancel,kept,done,closed,
      Bool.not_false,Bool.not_true,Bool.or_false,Bool.false_eq_true,if_false]
    exact .inl ⟨trivial,rfl⟩

theorem freeResume {aw all : Bool} (told : Told made s.block.future) (ledger : Ledger base 0 s)
    (free : Free aw made s) (pc : s.pc = .waiting) (waited : awaited s.block.future = some ended) :
    Free all made ({s with task := (s.task.resume () ended).1}.leaveScope isTimeout
      (s.task.resume () ended).2) := by
  simp only [Free,pc] at free
  simp only [Ledger,pc] at ledger
  cases open_ : s.scope with
  | none =>
    simp only [open_] at free
    rw [resumeClear free.1]
    refine leaveCalm free.1 (earlyAwaited told free.2 waited) ?_
    intro scope there
    cases there
  | some scope =>
    simp only [open_] at free ledger
    cases expiring : scope.expiring with
    | false =>
      simp only [expiring,Bool.false_eq_true,if_false] at free
      rw [resumeClear free.1]
      refine leaveCalm free.1 (earlyAwaited told free.2 waited) ?_
      intro other there
      cases there
      exact expiring
    | true =>
      simp only [expiring,if_true] at free ledger
      have alone : s.task.requests - 1 ≤ scope.cancelling := by omega
      rcases free with ⟨kept,rfl⟩ | ⟨struck_,c,natural,rfl⟩
      · rw [resumeClear kept]
        have own : ended = .cancelled () := by
          generalize s.block.future = future at told waited
          cases told
          exact (Option.some.inj waited).symm
        rw [own]
        exact leaveExpired kept rfl expiring alone .deadline
      · obtain ⟨own,same⟩ := resumeStruck struck_ () ended
        rw [same]
        exact leaveExpired (resumeKept () s.task ended) rfl expiring (by simpa using alone) (.late natural)

theorem freeStep {aw : Bool} (told : Told made s.block.future) (ledger : Ledger base 0 s)
    (free : Free aw made s) (taken : step timed isTimeout s a = some t) (alone : outside a = false) :
    Free (aw && awaits a) (made ++ marks timed isTimeout s a) t := by
  cases stepCases taken with
  | wait pc waits =>
    rw [marksSame taken rfl rfl,List.append_nil]
    simp only [Free,pc] at free
    cases timed with
    | false => exact ⟨rfl,free⟩
    | true => exact ⟨rfl,free⟩
  | pass pc waited =>
    rw [marksSame taken (by rw [leaveScopeBlock]) rfl,List.append_nil]
    simp only [Free,pc] at free
    refine leaveCalm rfl (earlyAwaited told free waited) ?_
    intro scope open_
    cases timed with
    | false => cases open_
    | true => cases open_; rfl
  | @fail ended final pc other =>
    intro all
    cases ended with
    | returned u => exact absurd rfl (other u)
    | _ => simp [awaits] at all
  | @operation operation =>
    have all : (aw && awaits (.operation operation : Action V η)) = aw := Bool.and_true aw
    rw [all]
    exact freeBeside told free taken (by cases operation <;> trivial) rfl rfl rfl rfl
  | complete =>
    have all : (aw && awaits (.complete : Action V η)) = aw := Bool.and_true aw
    rw [marksSame taken rfl rfl,List.append_nil,all]
    exact free
  | stop =>
    have all : (aw && awaits (.stop : Action V η)) = aw := Bool.and_true aw
    rw [marksSame taken rfl rfl,List.append_nil,all]
    exact free
  | closeBlock completed on =>
    have all : (aw && awaits (.closeBlock : Action V η)) = aw := Bool.and_true aw
    rw [all]
    exact freeBeside told free taken trivial rfl rfl rfl rfl
  | cancel on => cases alone
  | expire open_ fresh => exact freeExpire told free (scopeWaits ledger open_) open_ fresh taken rfl
  | resume pc waited =>
    rw [marksSame taken (by rw [leaveScopeBlock]) rfl,List.append_nil]
    exact freeResume told ledger free pc waited
  | @left ended pc =>
    have all : (aw && awaits (.left : Action V η)) = aw := Bool.and_true aw
    simp only [Free,pc] at free
    rw [marksDone taken (verdictDone told free.2),all,resumeClear free.1]
    intro _
    exact (List.append_nil made).symm ▸ free.2

theorem naturalCancelled (natural : Natural c) (same : c.future = .cancelled) :
    c = .cancelled ∨ c = .closed := by
  cases c with
  | resolved value => cases same
  | failed error => cases same
  | cancelled => exact .inl rfl
  | closed => exact .inr rfl
  | deadline => exact natural.elim
  | outside => exact natural.elim
  | left => exact natural.elim

theorem cancelledFuture {block : Block V η} (at_ : cancelled block = true) : block.future = .cancelled := by
  unfold cancelled at at_
  split at at_
  · assumption
  · cases at_

theorem earlyCancelled (told : Told made s.block.future) (early : Early made)
    (at_ : cancelled s.block = true) :
    made = [.completed .cancelled] ∨ made = [.completed .closed] := by
  have future := cancelledFuture at_
  generalize s.block.future = future_ at told future
  cases early with
  | waiting =>
    cases told
    cases future
  | @done c natural =>
    cases told
    rcases naturalCancelled natural future with rfl | rfl
    · exact .inl rfl
    · exact .inr rfl

theorem verdictCancelled (told : Told made s.block.future) (verdict : Verdict made ended)
    (at_ : cancelled s.block = true) (ends : ended.isCancelled = true) :
    made = [.completed .cancelled] ∨ made = [.completed .closed] := by
  cases verdict with
  | prompt natural => exact earlyCancelled told (.done natural) at_
  | deadline => cases ends
  | late natural => cases ends

theorem abortsNeed (aborts : s.aborts ended = true) :
    ended.isCancelled = true ∧ cancelled s.block = true ∧ s.task.requests = 0 := by
  simp only [State.aborts,Bool.and_eq_true,beq_iff_eq] at aborts
  exact ⟨aborts.1.1.1,aborts.1.1.2,aborts.1.2⟩

theorem byBlockStep (told : Told made s.block.future) (byBlock : ByBlock base acts made)
    (taken : step timed isTimeout s a = some t) (alone : outside a = false) (quiet : struck a = []) :
    ByBlock base (acts ++ [a]) (made ++ marks timed isTimeout s a) := by
  have marked : made ≠ [] := by
    rintro rfl
    rcases byBlock.made with empty | empty
    · cases empty
    · cases empty
  rw [marksDone taken (markedDone told marked),quiet,List.append_nil]
  exact ⟨byBlock.before,by simp [byBlock.none_,alone],byBlock.made⟩

theorem abortStep (kept : Kept base acts made s) (taken : step timed isTimeout s a = some t)
    (aborted : t.aborted = true) : ByBlock base (acts ++ [a]) (made ++ marks timed isTimeout s a) := by
  have ledger := kept.ledger
  have free := kept.free
  unfold Ledger at ledger
  unfold Free at free
  have before : s.aborted = true → outside a = false → struck a = [] →
      ByBlock base (acts ++ [a]) (made ++ marks timed isTimeout s a) :=
    fun old alone quiet => byBlockStep kept.told (kept.abort old) taken alone quiet
  cases stepCases taken with
  | wait pc waits => exact before aborted rfl rfl
  | pass pc waited => exact before (by rw [leaveScopeAborted] at aborted; exact aborted) rfl rfl
  | operation => exact before aborted rfl rfl
  | complete => exact before aborted rfl rfl
  | stop => exact before aborted rfl rfl
  | closeBlock completed on => exact before aborted rfl rfl
  | resume pc waited => exact before (by rw [leaveScopeAborted] at aborted; exact aborted) rfl rfl
  | cancel on =>
    rw [(cancelTaskRequests s).2.2.2] at aborted
    cases aborted.symm.trans (ledgerCalm kept.ledger on)
  | expire open_ fresh =>
    have old : s.aborted = true := (cancelTaskRequests s).2.2.2.symm.trans aborted
    have on : s.pc.isEnded = false := by rw [scopeWaits kept.ledger open_]; rfl
    cases old.symm.trans (ledgerCalm kept.ledger on)
  | @fail ended final pc other =>
    rw [pc] at ledger
    have now : s.aborts final = true := by
      simp only [State.close,Bool.or_eq_true] at aborted
      rcases aborted with old | new
      · cases old.symm.trans ledger.2.2
      · exact new
    obtain ⟨ends,at_,requests⟩ := abortsNeed now
    have none_ : acts.countP outside = 0 := by omega
    have early : Early made := by
      have free := free none_
      rw [pc] at free
      exact free
    exact byBlockStep kept.told ⟨by omega,none_,earlyCancelled kept.told early at_⟩ taken rfl rfl
  | @left ended pc =>
    rw [pc] at ledger
    have now : ({s with task := (s.task.resume () ended).1} : State V η).aborts (s.task.resume () ended).2 =
        true := by
      simp only [State.close,Bool.or_eq_true] at aborted
      rcases aborted with old | new
      · cases old.symm.trans ledger.2.2
      · exact new
    obtain ⟨ends,at_,requests⟩ := abortsNeed now
    simp only [resumeRequests] at requests
    have none_ : acts.countP outside = 0 := by omega
    have free := free none_
    rw [pc] at free
    rw [resumeClear free.1] at ends
    exact byBlockStep kept.told ⟨by omega,none_,verdictCancelled kept.told free.2 at_ ends⟩ taken rfl rfl

theorem keptStep (kept : Kept base acts made s) (taken : step timed isTimeout s a = some t) :
    Kept base (acts ++ [a]) (made ++ marks timed isTimeout s a) t := by
  refine ⟨toldStep kept.told taken,?_,?_,abortStep kept taken⟩
  · rw [List.countP_append,List.countP_singleton]
    exact ledgerStep kept.ledger taken
  · intro none_
    rw [List.countP_append,List.countP_singleton] at none_
    have alone : outside a = false := by
      cases own : outside a with
      | false => rfl
      | true =>
        rw [own,if_pos rfl] at none_
        omega
    have few : acts.countP outside = 0 := by omega
    have ledger := kept.ledger
    rw [few] at ledger
    rw [List.all_append]
    simp only [List.all_cons,List.all_nil,Bool.and_true]
    exact freeStep kept.told ledger (kept.free few) taken alone

end Step

section Run
variable {timed : Bool} {isTimeout : Failure η → Bool} {runId graphId base : Nat} {completed : Bool}
  {acts : List (Action V η)} {made : List (Mark V η)} {s t : State V η} {a : Action V η} {ended : End V η}

def journal (timed : Bool) (isTimeout : Failure η → Bool) (s : State V η) (acts : List (Action V η)) :
    List (Mark V η) := Machine.journal (step timed isTimeout) (marks timed isTimeout) s acts

theorem keptRun
    (ran : Machine.run (step timed isTimeout) (initial runId graphId base completed) acts = some t) :
    Kept base acts (journal timed isTimeout (initial runId graphId base completed) acts) t := by
  refine Machine.history (P := fun acts t =>
    Kept base acts (journal timed isTimeout (initial runId graphId base completed) acts) t) ?_ ?_ ran
  · refine ⟨Told.waiting,⟨rfl,rfl,rfl⟩,fun _ => Early.waiting,?_⟩
    intro aborted
    cases aborted
  · intro acts m a t before kept taken
    unfold journal
    rw [Machine.journalSnoc before]
    exact keptStep kept taken

theorem donePersists (taken : step timed isTimeout s a = some t) (done : s.block.done = true) :
    t.block.done = true := by
  rcases blockStep taken with same | ⟨waits,_⟩
  · simp only [Block.done,same] at done ⊢
    exact done
  · cases done.symm.trans waits

theorem closeDone (s : State V η) (ended : End V η) : (s.close ended).block.done = true := by
  simp only [State.close]
  cases done : s.block.done with
  | true => simp only [Bool.not_true,Bool.false_eq_true,if_false,done]
  | false =>
    simp only [Bool.not_false,if_true]
    simp only [Block.done,Block.cancel,settleOpen done]

theorem leaveScopeOn (s : State V η) (ended : End V η) :
    (s.leaveScope isTimeout ended).pc.isEnded = false := by
  unfold State.leaveScope
  split <;> rfl

/- Whatever has happened, the block is done when `interrupt()` has ended. -/
theorem endedDone (known : s.pc.isEnded = true → s.block.done = true)
    (taken : step timed isTimeout s a = some t) (over_ : t.pc.isEnded = true) : t.block.done = true := by
  cases stepCases taken with
  | wait pc waits => cases over_
  | pass pc waited => rw [leaveScopeOn] at over_; cases over_
  | resume pc waited => rw [leaveScopeOn] at over_; cases over_
  | fail pc other calm => exact closeDone _ _
  | left pc => exact closeDone _ _
  | operation => exact donePersists taken (known over_)
  | complete => exact donePersists taken (known over_)
  | stop => exact donePersists taken (known over_)
  | closeBlock completed on => cases on.symm.trans over_
  | cancel on => exact donePersists taken (known ((cancelTaskRequests s).2.1 ▸ over_))
  | expire open_ fresh => exact donePersists taken (known ((cancelTaskRequests s).2.1 ▸ over_))

def Struck (made : List (Mark V η)) : Prop := .completed .deadline ∈ made ∨ .late ∈ made

/- The scope is about to turn a cancellation into its TimeoutError, and `interrupt()` about
to return None. -/
structure Expires (made : List (Mark V η)) (t : State V η) : Prop where
  scope : ∀ scope, t.scope = some scope → scope.expiring = true → Struck made
  ending : t.pc = .leaving (.returned none) ∨ t.pc = .ended (.returned none) → Struck made

theorem struckMore {more : List (Mark V η)} (struck : Struck made) : Struck (made ++ more) :=
  struck.imp (List.mem_append_left _) (List.mem_append_left _)

theorem expiresMore {more : List (Mark V η)} (expires : Expires made t) : Expires (made ++ more) t :=
  ⟨fun scope open_ expiring => struckMore (expires.scope scope open_ expiring),
    fun ending => struckMore (expires.ending ending)⟩

theorem leaveScopeNone (none_ : (s.leaveScope isTimeout ended).pc = .leaving (.returned none)) :
    ended = .returned none ∨ ∃ scope, s.scope = some scope ∧ scope.expiring = true := by
  unfold State.leaveScope at none_
  split at none_
  · exact .inl (Pc.leaving.inj none_)
  · rename_i scope open_
    cases expiring : scope.expiring with
    | true => exact .inr ⟨scope,open_,expiring⟩
    | false =>
      simp only [Scope.leave,expiring,Bool.false_eq_true,if_false,exceptNone] at none_
      exact .inl (Pc.leaving.inj none_)

theorem leaveScopeExpires (expires : ∀ scope, s.scope = some scope → scope.expiring = true → Struck made)
    (some_ : ended ≠ .returned none) : Expires made (s.leaveScope isTimeout ended) := by
  constructor
  · intro scope open_
    unfold State.leaveScope at open_
    split at open_ <;> rename_i before
    · cases before.symm.trans open_
    · cases open_
  · rintro (leaving | over_)
    · rcases leaveScopeNone leaving with same | ⟨scope,open_,expiring⟩
      · exact absurd same some_
      · exact expires scope open_ expiring
    · have on : (s.leaveScope isTimeout ended).pc.isEnded = false := leaveScopeOn s ended
      rw [over_] at on
      cases on

theorem awaitedSome {future : Interruption.Future V η} (waited : awaited future = some ended) :
    ended ≠ .returned none := by
  rintro rfl
  cases future with
  | exception error => cases error <;> cases waited
  | _ => cases waited

theorem resumeSome {task : Task} (some_ : ended ≠ .returned none) : (task.resume () ended).2 ≠ .returned none := by
  unfold Task.resume
  split
  · intro same
    split at same <;> cases same
  · exact some_

theorem expiresStep {outs : Nat} (ledger : Ledger base outs s) (expires : Expires made s)
    (taken : step timed isTimeout s a = some t) : Expires (made ++ marks timed isTimeout s a) t := by
  cases stepCases taken with
  | wait pc waits =>
    refine ⟨?_,by rintro (leaving | over_); cases leaving; cases over_⟩
    intro scope open_ expiring
    cases timed with
    | false => cases open_
    | true => cases open_; cases expiring
  | pass pc waited =>
    refine leaveScopeExpires ?_ (awaitedSome waited)
    intro scope open_ expiring
    cases timed with
    | false => cases open_
    | true => cases open_; cases expiring
  | fail pc other calm =>
    refine expiresMore ⟨expires.scope,?_⟩
    rintro (leaving | over_)
    · cases leaving
    · exact absurd (Pc.ended.inj over_) calm
  | operation => exact expiresMore ⟨expires.scope,expires.ending⟩
  | complete => exact expiresMore ⟨expires.scope,expires.ending⟩
  | stop => exact expiresMore ⟨expires.scope,expires.ending⟩
  | closeBlock completed on => exact expiresMore ⟨expires.scope,expires.ending⟩
  | cancel on =>
    obtain ⟨_,pc,scope,_⟩ := cancelTaskRequests s
    exact expiresMore ⟨by rw [scope]; exact expires.scope,by rw [pc]; exact expires.ending⟩
  | @expire scope open_ fresh =>
    have at_ := scopeWaits ledger open_
    have struck_ : Struck (marks timed isTimeout s .expire) := by
      simp only [marks,taken,struck,Struck]
      cases done : s.block.done with
      | true => exact .inr (by simp)
      | false =>
        have closes : s.cancelTask.block.done = true := by
          unfold State.cancelTask
          rw [at_]
          simp only [Pc.isWaiting,if_true]
          simp only [Block.done,Block.cancel,settleOpen done]
        simp [closes,cause]
    exact ⟨fun _ _ _ => struck_.imp (List.mem_append_right _) (List.mem_append_right _),fun _ => struck_.imp (List.mem_append_right _) (List.mem_append_right _)⟩
  | resume pc waited => exact expiresMore (leaveScopeExpires expires.scope (resumeSome (awaitedSome waited)))
  | @left ended pc =>
    refine expiresMore ⟨expires.scope,?_⟩
    rintro (leaving | over_)
    · cases leaving
    · refine expires.ending (.inl ?_)
      by_contra some_
      have over_ : (s.task.resume () ended).2 = .returned none := Pc.ended.inj over_
      refine resumeSome ?_ over_
      rintro rfl
      exact some_ pc

theorem expiresRun
    (ran : Machine.run (step timed isTimeout) (initial runId graphId base completed) acts = some t) :
    Expires (journal timed isTimeout (initial runId graphId base completed) acts) t := by
  refine Machine.history (P := fun acts t =>
    Expires (journal timed isTimeout (initial runId graphId base completed) acts) t) ?_ ?_ ran
  · refine ⟨fun scope open_ => (by cases open_),?_⟩
    rintro (leaving | over_)
    · cases leaving
    · cases over_
  · intro acts m a t before expires taken
    unfold journal
    rw [Machine.journalSnoc before]
    exact expiresStep (keptRun before).ledger expires taken

/- The deadline strikes only while the block is pending. -/
def prompt (s : State V η) : Action V η → Bool
  | .expire => !s.block.done
  | _ => true

theorem promptMarks (taken : step timed isTimeout s a = some t) :
    prompt s a = true ↔ .late ∉ marks timed isTimeout s a := by
  simp only [marks,taken]
  cases done : s.block.done with
  | true => cases a <;> simp [prompt,struck,done]
  | false =>
    have calm : prompt s a = true := by cases a <;> simp [prompt,done]
    simp only [calm,Bool.false_eq_true,if_false,true_iff]
    split <;> simp

theorem promptRun (ran : Machine.run (step timed isTimeout) s acts = some t) :
    Machine.Steps (step timed isTimeout) (fun s a => prompt s a = true) s acts ↔
      .late ∉ journal timed isTimeout s acts := by
  induction acts generalizing s with
  | nil => exact ⟨fun _ => List.not_mem_nil,fun _ => trivial⟩
  | cons a rest ih =>
    obtain ⟨m,taken,last⟩ := Machine.runCons.mp ran
    have later := ih last
    simp only [journal,Machine.journal,taken,List.mem_append,not_or,← promptMarks taken] at later ⊢
    constructor
    · rintro ⟨here,next⟩
      exact ⟨here,later.mp (next m taken)⟩
    · rintro ⟨here,next⟩
      refine ⟨here,?_⟩
      intro n other
      cases Option.some.inj (taken.symm.trans other)
      exact later.mpr next

def completions (made : List (Mark V η)) : List (Cause V η) :=
  made.filterMap (fun mark => match mark with
    | .completed c => some c
    | .late => none)

theorem latesNone {lates : List (Mark V η)} (late : ∀ mark ∈ lates, mark = .late) :
    completions lates = [] := by
  refine List.filterMap_eq_nil_iff.mpr ?_
  intro mark member
  rw [late mark member]

theorem aloneCount (alone : .cancel ∉ acts) : acts.countP outside = 0 := by
  refine List.countP_eq_zero.mpr ?_
  intro a member
  cases a with
  | cancel => exact absurd member alone
  | _ => simp [outside]

theorem countAlone (none_ : acts.countP outside = 0) : .cancel ∉ acts := by
  intro member
  exact List.countP_eq_zero.mp none_ _ member rfl

theorem verdictExact (verdict : Verdict made ended) :
    ∃ c, completions made = [c] ∧ (ended = c.verdict ↔ .late ∉ made) := by
  cases verdict with
  | @prompt c natural => exact ⟨c,rfl,by simp⟩
  | deadline => exact ⟨.deadline,rfl,by simp [Cause.verdict]⟩
  | @late c natural =>
    refine ⟨c,rfl,?_⟩
    have different : (.returned none : End V η) ≠ c.verdict := by
      cases c with
      | resolved value => exact fun at_ => by cases at_
      | failed error => cases error <;> exact fun at_ => by cases at_
      | cancelled => exact fun at_ => by cases at_
      | closed => exact fun at_ => by cases at_
      | deadline => exact natural.elim
      | outside => exact natural.elim
      | left => exact natural.elim
    simp [different]

/- One completion at most, and it decides how `interrupt()` ends, unless the task is
cancelled from outside or the deadline strikes once more. None comes of the deadline only,
whoever cancels. -/
theorem firstDecides
    (ran : Machine.run (step timed isTimeout) (initial runId graphId base completed) acts = some t) :
    (completions (journal timed isTimeout (initial runId graphId base completed) acts)).length ≤ 1 ∧
    ∀ ended, t.pc = .ended ended →
      ∃ c, completions (journal timed isTimeout (initial runId graphId base completed) acts) = [c] ∧
        t.block.future = c.future ∧
        (t.aborted = true → (c = .cancelled ∨ c = .closed) ∧ base = 0 ∧ .cancel ∉ acts) ∧
        (acts.all awaits = true → .cancel ∉ acts →
          (ended = c.verdict ↔ Machine.Steps (step timed isTimeout) (fun s a => prompt s a = true)
            (initial runId graphId base completed) acts)) ∧
        (ended = .returned none → Machine.Steps (step timed isTimeout) (fun s a => prompt s a = true)
          (initial runId graphId base completed) acts → c = .deadline) := by
  have kept := keptRun ran
  have exact_ := promptRun ran
  have expires := expiresRun ran
  generalize journal timed isTimeout (initial runId graphId base completed) acts = made at kept exact_ expires ⊢
  have done : t.pc.isEnded = true → t.block.done = true := Machine.invariant
    (P := fun t => t.pc.isEnded = true → t.block.done = true)
    (fun _ _ _ known taken over_ => endedDone known taken over_) (fun over_ => by cases over_) ran
  obtain ⟨few,single⟩ : (completions made).length ≤ 1 ∧ (t.block.done = true →
      ∃ c, completions made = [c] ∧ t.block.future = c.future) := by
    have told := kept.told
    generalize at_ : t.block.future = future at told
    cases told with
    | waiting =>
      refine ⟨by simp [completions],?_⟩
      intro closed
      cases (pendingOpen at_).symm.trans closed
    | @done c lates late =>
      have one : completions (.completed c :: lates) = [c] := congrArg (c :: ·) (latesNone late)
      rw [one]
      exact ⟨Nat.le_refl 1,fun _ => ⟨c,rfl,rfl⟩⟩
  refine ⟨few,?_⟩
  intro ended at_
  obtain ⟨c,one,future⟩ := single (done (by rw [at_]; rfl))
  refine ⟨c,one,future,?_,?_,?_⟩
  · intro aborted
    obtain ⟨before,none_,shown⟩ := kept.abort aborted
    refine ⟨?_,before,countAlone none_⟩
    rcases shown with rfl | rfl
    · exact .inl (List.cons.inj one).1.symm
    · exact .inr (List.cons.inj one).1.symm
  · intro posted alone
    have free := kept.free (aloneCount alone)
    unfold Free at free
    rw [at_] at free
    obtain ⟨other,same,exactly⟩ := verdictExact (free posted)
    cases List.cons.inj (same.symm.trans one)
    subst c
    rw [exact_]
    exact exactly
  · rintro rfl calm
    have struck := (expires.ending (.inr at_)).resolve_right (exact_.mp calm)
    have member : .deadline ∈ completions made :=
      List.mem_filterMap.mpr ⟨.completed .deadline,struck,rfl⟩
    rw [one] at member
    exact (List.mem_singleton.mp member).symm

end Run

/- A claimed block is resolved in time, and once more just before the deadline. -/
def resolvedInTime : List (Action Nat Nat) :=
  [.posted (.returned ()),.operation .accept,.operation (.resolve 5),.operation .cancel,.resume,.left]
def struckLate : List (Action Nat Nat) :=
  [.posted (.returned ()),.operation (.resolve 5),.expire,.resume,.left]

def after (acts : List (Action Nat Nat)) : State Nat Nat :=
  (Machine.run (step true (fun _ => false)) (initial 0 0 0 false) acts).getD (initial 0 0 0 false)

theorem firstDecidesInTime : (after resolvedInTime).pc = .ended (.returned (some 5)) ∧
    ∃ c : Cause Nat Nat, (after resolvedInTime).block.future = c.future ∧
      (Ended.returned (some 5) : End Nat Nat) = c.verdict :=
  have decided := (@firstDecides Nat Nat true (fun _ => false) 0 0 0 false resolvedInTime
    (after resolvedInTime) rfl).2 (.returned (some 5)) rfl
  ⟨rfl,decided.imp (fun _ all =>
    ⟨all.2.1,(all.2.2.2.1 rfl (by decide)).mpr (Machine.stepsOfCheck rfl)⟩)⟩

/- The value comes first, and `interrupt()` returns `None`. -/
theorem valueLost :
    Machine.run (step true (fun _ => false)) (initial 0 0 0 false) struckLate = some (after struckLate) ∧
    completions (journal true (fun _ => false) (initial 0 0 0 false) struckLate) =
      [(.resolved 5 : Cause Nat Nat)] ∧
    .cancel ∉ struckLate ∧ (after struckLate).pc = .ended (.returned none) :=
  ⟨rfl,rfl,by decide,rfl⟩

end Apixis.Deciding
