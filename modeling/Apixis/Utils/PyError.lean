import Mathlib.Init

/-! Exceptions the code raises, with their texts, and checks that raise them. -/
namespace Apixis

inductive ErrorKind where
  | valueError
  | typeError
  | keyError
  | attributeError
  | overflowError
  | indexError
  | runtimeError
  | recursionError
  | invalidStateError
  | copyError
  | graphNodeError
  | invalidContextError
  | eventHandlerAlreadyRegisteredError
  | eventHandlerNotRegisteredError
  deriving DecidableEq, Repr

structure PyError where
  kind : ErrorKind
  message : String
  deriving DecidableEq, Repr

namespace PyError

theorem bindOk {ε α β : Type} {x : Except ε α} {f : α → Except ε β} {b : β} :
    (x >>= f) = .ok b ↔ ∃ a, x = .ok a ∧ f a = .ok b := by
  cases x with
  | error e => simp [bind,Except.bind]
  | ok a => simp [bind,Except.bind]

theorem bindError {ε α β : Type} {x : Except ε α} {f : α → Except ε β} {e : ε} :
    (x >>= f) = .error e ↔ x = .error e ∨ ∃ a, x = .ok a ∧ f a = .error e := by
  cases x with
  | error other => simp [bind,Except.bind]
  | ok a => simp [bind,Except.bind]

def raiseIf {ε : Type} (bad : Bool) (error : ε) : Except ε Unit :=
  if bad then .error error else .ok ()

theorem raiseIfOk {ε : Type} {bad : Bool} {error : ε} {u : Unit} :
    raiseIf bad error = .ok u ↔ bad = false := by
  cases bad <;> simp [raiseIf]

/- An operation that raises leaves the state `s` behind. -/
def leaving {σ α : Type} (s : σ) (x : Except PyError α) : Except (PyError × σ) α :=
  x.mapError (fun error => (error,s))

theorem leavingReturned {σ α : Type} {s : σ} {a : α} : leaving s (.ok a) = .ok a := rfl

theorem leavingRaised {σ α : Type} {s : σ} {error : PyError} :
    (leaving s (.error error) : Except (PyError × σ) α) = .error (error,s) := rfl

theorem leavingOk {σ α : Type} {s : σ} {x : Except PyError α} {a : α} :
    leaving s x = .ok a ↔ x = .ok a := by
  cases x <;> simp [leavingReturned,leavingRaised]

theorem leavingError {σ α : Type} {s t : σ} {x : Except PyError α} {error : PyError} :
    leaving s x = .error (error,t) ↔ x = .error error ∧ t = s := by
  cases x with
  | error own => simp [leavingRaised,eq_comm]
  | ok a => simp [leavingReturned]

/- What `x` leaves behind, whether it returns or raises. -/
def stateOf {σ : Type} : Except (PyError × σ) σ → σ
  | .ok s => s
  | .error (_,s) => s

end PyError
end Apixis
