/-! A value that is given once: pending until it is settled, and what it has been
settled with from then on. -/
namespace Apixis

inductive Promise (ε α : Type) where
  | pending
  | result (value : α)
  | exception (error : ε)
  | cancelled
  deriving DecidableEq, Repr

namespace Promise
variable {ε α : Type} {p q value : Promise ε α}

def done : Promise ε α → Bool
  | .pending => false
  | _ => true

/- Nothing where it is settled already. -/
def settle (p value : Promise ε α) : Option (Promise ε α) := if p.done then none else some value

def cancel (p : Promise ε α) : Promise ε α := if p.done then p else .cancelled

theorem open_ (waits : p.done = false) : p = .pending := by
  cases p with
  | pending => rfl
  | _ => cases waits

theorem settleOpen (waits : p.done = false) : p.settle value = some value := by
  simp [settle,waits]

theorem cancelDone (done : p.done = true) : p.cancel = p := by
  simp [cancel,done]

@[simp] theorem cancelClosed (p : Promise ε α) : p.cancel.done = true := by
  cases p <;> rfl

end Promise
end Apixis
