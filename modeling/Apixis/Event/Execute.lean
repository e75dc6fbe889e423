import Apixis.Event.Dispatch

/-! `execute` and `_execute_func` as the source writes them: a coroutine that reads
and changes the event between the awaits of its callbacks, with exceptions that
leave it unless a `try` catches them. The program counters of a dispatch stand for
what is left of it. -/
namespace Apixis.Dispatch

inductive Coroutine (η : Type) where
  | exit (outcome : Outcome)
  | read (test : Event η → Bool) (yes no : Coroutine η)
  | write (change : Event η → Event η) (rest : Coroutine η)
  | await (phase : Phase) (resume : Outcome → Coroutine η)

variable {η : Type}
namespace Coroutine
variable {code first second : Coroutine η} {catch_ : Outcome → Coroutine η}

/- `try`: the code, and what its end is turned into. -/
def attempt : Coroutine η → (Outcome → Coroutine η) → Coroutine η
  | exit outcome, catch_ => catch_ outcome
  | read test yes no, catch_ => read test (yes.attempt catch_) (no.attempt catch_)
  | write change rest, catch_ => write change (rest.attempt catch_)
  | await phase resume, catch_ => await phase (fun outcome => (resume outcome).attempt catch_)

def next (first second : Coroutine η) : Coroutine η := first.attempt (fun outcome => match outcome with
  | .returned => second
  | .raised => exit .raised
  | .cancelled => exit .cancelled)

/- The ways the code can end, whatever it reads and however its callbacks end. -/
inductive Exits : Coroutine η → Outcome → Prop where
  | exit {outcome} : Exits (exit outcome) outcome
  | yes {test yes no outcome} (exits : Exits yes outcome) : Exits (read test yes no) outcome
  | no {test yes no outcome} (exits : Exits no outcome) : Exits (read test yes no) outcome
  | write {change rest outcome} (exits : Exits rest outcome) : Exits (write change rest) outcome
  | await {phase resume outcome} (ended : Outcome) (exits : Exits (resume ended) outcome) :
      Exits (await phase resume) outcome

theorem attemptExits {outcome : Outcome} (exits : (code.attempt catch_).Exits outcome) :
    ∃ ended, code.Exits ended ∧ (catch_ ended).Exits outcome := by
  induction code with
  | exit ended => exact ⟨ended,.exit,exits⟩
  | read test yes no yesCase noCase =>
    cases exits with
    | yes inner =>
      obtain ⟨ended,ends,after⟩ := yesCase inner
      exact ⟨ended,.yes ends,after⟩
    | no inner =>
      obtain ⟨ended,ends,after⟩ := noCase inner
      exact ⟨ended,.no ends,after⟩
  | write change rest ih =>
    cases exits with
    | write inner =>
      obtain ⟨ended,ends,after⟩ := ih inner
      exact ⟨ended,.write ends,after⟩
  | await phase resume ih =>
    cases exits with
    | await answer inner =>
      obtain ⟨ended,ends,after⟩ := ih answer inner
      exact ⟨ended,.await answer ends,after⟩

theorem nextContained (before : ¬ first.Exits .raised) (after : ¬ second.Exits .raised) :
    ¬ (first.next second).Exits .raised := by
  intro exits
  obtain ⟨ended,ends,rest⟩ := attemptExits exits
  cases ended with
  | returned => exact after rest
  | raised => exact before ends
  | cancelled => cases rest

theorem nextReturned (code : Coroutine η) : code.next (exit .returned) = code := by
  unfold next
  induction code with
  | exit outcome => cases outcome <;> rfl
  | read test yes no yesCase noCase => simp only [attempt,yesCase,noCase]
  | write change rest ih => simp only [attempt,ih]
  | await phase resume ih => simp only [attempt,ih]

end Coroutine
open Coroutine

section Source
variable (flags : Flags) (background : Bool) (handler : η)

def awaited (phase : Phase) (report : Coroutine η) : Coroutine η :=
  (await phase exit).attempt (fun outcome => match outcome with
    | .returned => exit .returned
    | .cancelled => write (record background handler phase) (exit .cancelled)
    | .raised => write (record background handler phase) report)

def executeFunc (phase : Phase) : Coroutine η :=
  awaited background handler phase
    (if phase != .onError && flags.onError then awaited background handler .onError (exit .returned)
      else exit .returned)

def executeChecks : Coroutine η :=
  read Event.accepted
    (if flags.onAccepted then executeFunc flags background handler .onAccepted else exit .returned)
    (read (fun event => event.hasError && flags.stopWhenError) (exit .returned)
      (write (fun event => {event with seen := event.seen ++ [handler]})
        (executeFunc flags background handler .coreFunc)))

def execute : Coroutine η :=
  (read (fun event => event.hasError && flags.onHasError)
    (executeFunc flags background handler .onHasError) (exit .returned)).next
    (executeChecks flags background handler)

/- `_execute_func` calls itself for the error hook. -/
example (phase : Phase) : executeFunc flags background handler phase =
    awaited background handler phase
      (if phase != .onError && flags.onError then executeFunc flags background handler .onError
        else exit .returned) := rfl

def executeRest : Phase → Coroutine η
  | .onHasError => executeChecks flags background handler
  | _ => exit .returned

def ExecutePc.code : ExecutePc → Coroutine η
  | .gate => executeChecks flags background handler
  | .calling phase parent =>
      (executeFunc flags background handler phase).next
        (executeRest flags background handler (parent.getD phase))

def Next.code : Next → Coroutine η
  | .go pc => pc.code flags background handler
  | .finished => exit .returned
  | .cancelled => exit .cancelled

end Source

/- Where `execute` can be: `on_error` is told of the failure of another phase. -/
def ExecutePc.Proper : ExecutePc → Prop
  | .gate => True
  | .calling phase parent => match parent with
      | none => phase ≠ .onError
      | some failed => phase = .onError ∧ failed ≠ .onError

variable {flags : Flags} {background : Bool} {handler : η}

theorem awaitedContained {phase : Phase} {report : Coroutine η} (known : ¬ report.Exits .raised) :
    ¬ (awaited background handler phase report).Exits .raised := by
  intro exits
  cases exits with
  | await ended inner =>
    cases ended with
    | returned => cases inner
    | raised => cases inner with | write last => exact known last
    | cancelled => cases inner with | write last => cases last

theorem executeFuncContained (phase : Phase) :
    ¬ (executeFunc flags background handler phase).Exits .raised := by
  have quiet : ¬ (exit .returned : Coroutine η).Exits .raised := by intro bad; cases bad
  refine awaitedContained ?_
  split
  · exact awaitedContained quiet
  · exact quiet

/- No ordinary exception leaves `execute`. -/
theorem executeContained : ¬ (execute flags background handler).Exits .raised := by
  have quiet : ¬ (exit .returned : Coroutine η).Exits .raised := by intro bad; cases bad
  refine nextContained ?_ ?_
  · intro exits
    cases exits with
    | yes inner => exact executeFuncContained _ inner
    | no inner => exact quiet inner
  · intro exits
    cases exits with
    | yes inner =>
      split at inner
      · exact executeFuncContained _ inner
      · exact quiet inner
    | no inner => cases inner with
      | yes last => exact quiet last
      | no last => cases last with | write last => exact executeFuncContained _ last

end Apixis.Dispatch
