/-! How awaited code ends in a task that can be cancelled, and in a timeout scope, which
cancels its own task and on the way out makes a timeout of that. -/
namespace Apixis.Cancellation

/- `escaped` is an exception no ordinary clause catches. -/
inductive Ended (κ ε α : Type) where
  | returned (value : α)
  | raised (error : ε)
  | cancelled (why : κ)
  | escaped
  deriving DecidableEq, Repr

def Ended.isCancelled {κ ε α : Type} : Ended κ ε α → Bool
  | .cancelled _ => true
  | _ => false

structure Scope where
  cancelling : Nat
  expiring : Bool
  deriving DecidableEq, Repr

variable {κ ε α : Type}

def Scope.enter (requests : Nat) : Scope := ⟨requests,false⟩

def Scope.leave (timeout : ε) (scope : Scope) (requests : Nat) (ended : Ended κ ε α) :
    Nat × Ended κ ε α :=
  if scope.expiring then
    (requests - 1,match ended with
      | .cancelled why => if requests - 1 ≤ scope.cancelling then .raised timeout else .cancelled why
      | other => other)
  else (requests,ended)

/- `mustCancel` is a cancellation to be thrown into the task when it goes on. -/
structure Task where
  requests : Nat
  mustCancel : Bool
  deriving DecidableEq, Repr

/- What the task awaits takes the cancellation, or the task keeps it. -/
def Task.cancel (task : Task) (taken : Bool) : Task := ⟨task.requests + 1,task.mustCancel || !taken⟩

def Task.resume (why : κ) (task : Task) (ended : Ended κ ε α) : Task × Ended κ ε α :=
  if task.mustCancel then
    ({task with mustCancel := false},match ended with
      | .cancelled own => .cancelled own
      | _ => .cancelled why)
  else (task,ended)

variable {timeout : ε} {scope : Scope} {requests : Nat}

@[simp] theorem enterCancelling : (Scope.enter requests).cancelling = requests := rfl
@[simp] theorem enterExpiring : (Scope.enter requests).expiring = false := rfl

@[simp] theorem resumeRequests (why : κ) (task : Task) (ended : Ended κ ε α) :
    (task.resume why ended).1.requests = task.requests := by
  unfold Task.resume
  split <;> rfl

@[simp] theorem resumeKept (why : κ) (task : Task) (ended : Ended κ ε α) :
    (task.resume why ended).1.mustCancel = false := by
  unfold Task.resume
  split
  · rfl
  · simp_all

theorem resumeClear {why : κ} {task : Task} (clear : task.mustCancel = false) (ended : Ended κ ε α) :
    task.resume why ended = (task,ended) := by
  simp [Task.resume,clear]

theorem resumeStruck {task : Task} (struck : task.mustCancel = true) (why : κ) (ended : Ended κ ε α) :
    ∃ own, (task.resume why ended).2 = .cancelled own := by
  simp only [Task.resume,struck,if_true]
  cases ended with
  | cancelled own => exact ⟨own,rfl⟩
  | returned value => exact ⟨why,rfl⟩
  | raised error => exact ⟨why,rfl⟩
  | escaped => exact ⟨why,rfl⟩

theorem leaveRequests (ended : Ended κ ε α) :
    (scope.leave timeout requests ended).1 = if scope.expiring then requests - 1 else requests := by
  unfold Scope.leave
  split <;> rfl

@[simp] theorem leaveEscaped :
    (scope.leave timeout requests (.escaped : Ended κ ε α)).2 = .escaped := by
  unfold Scope.leave
  split <;> rfl

@[simp] theorem leaveReturned (value : α) :
    (scope.leave timeout requests (.returned value : Ended κ ε α)).2 = .returned value := by
  unfold Scope.leave
  split <;> rfl

theorem leaveEscapes {ended : Ended κ ε α} (escapes : (scope.leave timeout requests ended).2 = .escaped) :
    ended = .escaped := by
  unfold Scope.leave at escapes
  split at escapes
  · cases ended with
    | cancelled why =>
      simp only at escapes
      split at escapes <;> cases escapes
    | returned value => cases escapes
    | raised error => cases escapes
    | escaped => rfl
  · exact escapes

/- With a request of somebody else's on top of its own a scope makes no timeout. -/
theorem leaveOutside {why : κ} (outside : scope.cancelling + 1 < requests) :
    (scope.leave timeout requests (.cancelled why : Ended κ ε α)).2 = .cancelled why := by
  have more : ¬ requests - 1 ≤ scope.cancelling := by omega
  unfold Scope.leave
  split
  · rfl
  · rfl

end Apixis.Cancellation
