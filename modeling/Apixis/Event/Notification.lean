import Apixis.Event.Dispatch
import Apixis.Library.Cancellation

/-! The task of one dispatch: `_dispatch_event` with the requests to cancel its
task, the timeout scopes of `_execute_func` and `notify_cancelled`, and the
exceptions that leave a callback or a hook. -/
namespace Apixis.Notification
open Dispatch Cancellation

/- `error` is the `CancelledError` that the `except` clause raises again. -/
structure State (η κ : Type) where
  dispatch : Dispatch.State η
  requests : Nat
  scope : Option Scope
  error : Option κ
  escaped : Bool
  deriving DecidableEq, Repr

/- What an ordinary exception carries is read by nobody here. -/
abbrev End (κ : Type) := Ended κ Unit Unit

inductive Action (κ : Type) where
  /- The task runs on to its next await, from its start, a handler or a check. -/
  | begin
  | visit
  | gate
  | cleanup
  /- The task is cancelled before it has run. -/
  | kill (why : κ)
  /- The awaited callback or hook ends. -/
  | callback (ended : End κ)
  | hook (ended : End κ)
  /- `cancel` and `uncancel` of the task; the open timeout scope expires. -/
  | cancel
  | uncancel
  | expire
  /- What others do: the event is accepted, a background task goes on. -/
  | aside (action : Dispatch.Action)
  deriving DecidableEq, Repr

variable {η κ : Type}

def initial (chain : List η) : State η κ := ⟨Dispatch.initial chain,0,none,none,false⟩

def aside : Dispatch.Action → Bool
  | .accept | .backgroundBegin _ | .backgroundGate _ | .backgroundCallback _ _ | .backgroundEnd _ => true
  | _ => false

/- How `_execute_func` sees the end of its callback. -/
def outcome : End κ → Option Outcome
  | .returned _ => some .returned
  | .raised _ => some .raised
  | .cancelled _ => some .cancelled
  | .escaped => none

def why : End κ → Option κ
  | .cancelled why => some why
  | _ => none

/- The clause of `notify_cancelled`: `Exception` and `CancelledError` are logged. -/
def contain : End κ → End κ
  | .escaped => .escaped
  | _ => .returned ()

def leave (scope : Option Scope) (requests : Nat) (ended : End κ) : Nat × End κ :=
  match scope with
  | none => (requests,ended)
  | some scope => scope.leave () requests ended

section Step
variable (flags : η → Flags) (limited : η → Bool)

/- Whether what the task awaits now runs under a timeout: a callback if its handler
has one, a hook always. -/
def timed (s : Dispatch.State η) : Bool := match s.pc with
  | .execute i (.calling _ _) => (s.chain[i]?).any limited
  | .notifying _ => true
  | _ => false

def State.await (s : State η κ) (dispatch : Dispatch.State η) : State η κ :=
  {s with
    dispatch := dispatch
    scope := if timed limited dispatch then some (.enter s.requests) else none}

def step (s : State η κ) : Action κ → Option (State η κ)
  | .begin => (Dispatch.step flags s.dispatch .begin).map (s.await limited)
  | .visit => (Dispatch.step flags s.dispatch .visit).map (s.await limited)
  | .gate => (Dispatch.step flags s.dispatch .gate).map (s.await limited)
  | .cleanup => (Dispatch.step flags s.dispatch .cleanup).map (s.await limited)
  | .kill why => (Dispatch.step flags s.dispatch .kill).map (fun dispatch =>
      {s with dispatch := dispatch, error := some why})
  | .callback ended =>
      let (requests,left) := leave s.scope s.requests ended
      if s.escaped then none
      else match outcome left with
        | some outcome => (Dispatch.step flags s.dispatch (.callback outcome)).map (fun dispatch =>
            {s with requests := requests, error := (why left).or s.error}.await limited dispatch)
        | none => match s.dispatch.pc with
            | .execute _ (.calling _ _) => some {s with requests := requests, scope := none, escaped := true}
            | _ => none
  | .hook ended =>
      let (requests,left) := leave s.scope s.requests ended
      if s.escaped then none
      else match contain left with
        | .escaped => match s.dispatch.pc with
            | .notifying _ => some {s with requests := requests, scope := none, escaped := true}
            | _ => none
        | _ => (Dispatch.step flags s.dispatch .notified).map (fun dispatch =>
            {s with requests := requests}.await limited dispatch)
  | .cancel => some {s with requests := s.requests + 1}
  | .uncancel => some {s with requests := s.requests - 1}
  | .expire => match s.scope with
      | some scope =>
          if scope.expiring then none
          else some {s with requests := s.requests + 1, scope := some {scope with expiring := true}}
      | none => none
  | .aside action =>
      if aside action then
        (Dispatch.step flags s.dispatch action).map (fun dispatch => {s with dispatch := dispatch})
      else none

inductive Step (s : State η κ) : Action κ → State η κ → Prop where
  | begin {d} (taken : Dispatch.Step flags s.dispatch .begin d) : Step s .begin (s.await limited d)
  | visit {d} (taken : Dispatch.Step flags s.dispatch .visit d) : Step s .visit (s.await limited d)
  | gate {d} (taken : Dispatch.Step flags s.dispatch .gate d) : Step s .gate (s.await limited d)
  | cleanup {d} (taken : Dispatch.Step flags s.dispatch .cleanup d) : Step s .cleanup (s.await limited d)
  | kill {why d} (taken : Dispatch.Step flags s.dispatch .kill d) :
      Step s (.kill why) {s with dispatch := d, error := some why}
  | callback {ended requests left outcome d} (calm : s.escaped = false)
      (left_ : leave s.scope s.requests ended = (requests,left))
      (seen : Notification.outcome left = some outcome)
      (taken : Dispatch.Step flags s.dispatch (.callback outcome) d) :
      Step s (.callback ended)
        ({s with requests := requests, error := (why left).or s.error}.await limited d)
  | callbackEscapes {ended requests i phase parent} (calm : s.escaped = false)
      (left_ : leave s.scope s.requests ended = (requests,.escaped))
      (pc : s.dispatch.pc = .execute i (.calling phase parent)) :
      Step s (.callback ended) {s with requests := requests, scope := none, escaped := true}
  | hook {ended requests left d} (calm : s.escaped = false)
      (left_ : leave s.scope s.requests ended = (requests,left)) (contained : left ≠ .escaped)
      (taken : Dispatch.Step flags s.dispatch .notified d) :
      Step s (.hook ended) ({s with requests := requests}.await limited d)
  | hookEscapes {ended requests i} (calm : s.escaped = false)
      (left_ : leave s.scope s.requests ended = (requests,.escaped))
      (pc : s.dispatch.pc = .notifying i) :
      Step s (.hook ended) {s with requests := requests, scope := none, escaped := true}
  | cancel : Step s .cancel {s with requests := s.requests + 1}
  | uncancel : Step s .uncancel {s with requests := s.requests - 1}
  | expire {scope} (open_ : s.scope = some scope) (fresh : scope.expiring = false) :
      Step s .expire {s with requests := s.requests + 1, scope := some {scope with expiring := true}}
  | aside {action d} (others : Notification.aside action = true)
      (taken : Dispatch.Step flags s.dispatch action d) : Step s (.aside action) {s with dispatch := d}

variable {flags limited} {s t : State η κ} {a : Action κ}

theorem stepCases (taken : step flags limited s a = some t) : Step flags limited s a t := by
  cases a with
  | begin =>
    obtain ⟨d,inner,last⟩ := Option.map_eq_some_iff.mp taken
    cases last
    exact .begin (Dispatch.stepCases inner)
  | visit =>
    obtain ⟨d,inner,last⟩ := Option.map_eq_some_iff.mp taken
    cases last
    exact .visit (Dispatch.stepCases inner)
  | gate =>
    obtain ⟨d,inner,last⟩ := Option.map_eq_some_iff.mp taken
    cases last
    exact .gate (Dispatch.stepCases inner)
  | cleanup =>
    obtain ⟨d,inner,last⟩ := Option.map_eq_some_iff.mp taken
    cases last
    exact .cleanup (Dispatch.stepCases inner)
  | kill reason =>
    obtain ⟨d,inner,last⟩ := Option.map_eq_some_iff.mp taken
    cases last
    exact .kill (Dispatch.stepCases inner)
  | callback ended =>
    simp only [step] at taken
    cases left_ : leave s.scope s.requests ended with
    | mk requests left =>
    rw [left_] at taken
    split at taken <;> try contradiction
    rename_i calm
    split at taken
    · rename_i outcome seen
      obtain ⟨d,inner,last⟩ := Option.map_eq_some_iff.mp taken
      cases last
      exact .callback (by simpa using calm) left_ seen (Dispatch.stepCases inner)
    · rename_i unseen
      split at taken <;> try contradiction
      rename_i i phase parent pc
      cases Option.some.inj taken
      cases left with
      | escaped => exact .callbackEscapes (by simpa using calm) left_ pc
      | returned value => cases unseen
      | raised error => cases unseen
      | cancelled reason => cases unseen
  | hook ended =>
    simp only [step] at taken
    cases left_ : leave s.scope s.requests ended with
    | mk requests left =>
    rw [left_] at taken
    split at taken <;> try contradiction
    rename_i calm
    cases left with
    | escaped =>
      simp only [contain] at taken
      split at taken <;> try contradiction
      rename_i i pc
      cases Option.some.inj taken
      exact .hookEscapes (by simpa using calm) left_ pc
    | returned value =>
      obtain ⟨d,inner,last⟩ := Option.map_eq_some_iff.mp taken
      cases last
      exact .hook (by simpa using calm) left_ (fun at_ => by cases at_) (Dispatch.stepCases inner)
    | raised error =>
      obtain ⟨d,inner,last⟩ := Option.map_eq_some_iff.mp taken
      cases last
      exact .hook (by simpa using calm) left_ (fun at_ => by cases at_) (Dispatch.stepCases inner)
    | cancelled reason =>
      obtain ⟨d,inner,last⟩ := Option.map_eq_some_iff.mp taken
      cases last
      exact .hook (by simpa using calm) left_ (fun at_ => by cases at_) (Dispatch.stepCases inner)
  | cancel => cases Option.some.inj taken; exact .cancel
  | uncancel => cases Option.some.inj taken; exact .uncancel
  | expire =>
    simp only [step] at taken
    split at taken <;> try contradiction
    rename_i scope open_
    split at taken <;> try contradiction
    rename_i fresh
    cases Option.some.inj taken
    exact .expire open_ (by simpa using fresh)
  | aside action =>
    simp only [step] at taken
    split at taken <;> try contradiction
    rename_i others
    obtain ⟨d,inner,last⟩ := Option.map_eq_some_iff.mp taken
    cases last
    exact .aside others (Dispatch.stepCases inner)

end Step
end Apixis.Notification
