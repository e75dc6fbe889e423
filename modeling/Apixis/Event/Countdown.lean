import Apixis.Event.Dispatch

/-! Every dispatch ends: with each of its steps it comes nearer to its end, for a
chain of any length and callbacks that end in any way. What anybody may do at any
time, and again, is only to accept the event. -/
namespace Apixis.Countdown
open Dispatch

variable {η : Type} {flags : η → Flags} {s t : State η} {a : Action} {handler : η}
  {event event' : Event η} {phase : Phase} {parent : Option Phase} {outcome : Outcome} {next : Next}
  {background : Bool} {k : Nat} {task : Background η}

/- How far a visit is from its end; `on_error` comes after what it is told of. -/
def visitLeft : ExecutePc → Nat
  | .gate => 4
  | .calling .onError parent => if parent = some .onHasError then 5 else 2
  | .calling phase parent => if phase = .onHasError ∨ parent = some .onHasError then 6 else 3

def nextLeft : Next → Nat
  | .go pc => visitLeft pc
  | .finished => 0
  | .cancelled => 1

/- A handler is worth more than its own visit, whoever makes it, and the
notification loop comes after all of them. -/
def placeLeft (n : Nat) : Pc → Nat
  | .created => 10 * n + 5
  | .visit i => 8 * (n - i) + 2 * n + 4
  | .execute i pc => 8 * (n - (i + 1)) + visitLeft pc + 2 * n + 4
  | .cleanup i => 2 * (n - i) + 1
  | .notifying i => max 2 (2 * (n - i))
  | .returned => 0
  | .cancelled => 0

def taskLeft : BackgroundPc → Nat
  | .created => 7
  | .execute pc => visitLeft pc
  | .notifying => 1
  | .ended => 0

def left (s : State η) : Nat :=
  placeLeft s.chain.length s.pc + Slots.total (fun task => taskLeft task.pc) s.backgrounds

theorem visitPositive (pc : ExecutePc) : 1 < visitLeft pc := by
  cases pc with
  | gate => decide
  | calling phase parent =>
    cases phase <;> simp only [visitLeft] <;> split <;> omega

theorem enterLeft (flags : Flags) (event : Event η) : visitLeft (enter flags event) ≤ 6 := by
  unfold enter
  split <;> decide

theorem passLeft {flags : Flags} (passed : pass flags handler event = (next,event')) :
    nextLeft next < 4 := by
  unfold Dispatch.pass at passed
  split at passed
  · cases passed
    split <;> decide
  · split at passed <;> cases passed <;> decide

theorem afterLeft (phase : Phase) (parent : Option Phase) :
    nextLeft (after (parent.getD phase)) < visitLeft (.calling phase parent) := by
  cases parent with
  | none => cases phase <;> decide
  | some told => cases phase <;> cases told <;> decide

theorem settleLeft {flags : Flags}
    (settled : settle flags background handler event phase parent outcome = (next,event')) :
    nextLeft next < visitLeft (.calling phase parent) := by
  cases outcome with
  | returned =>
    cases settled
    exact afterLeft phase parent
  | raised =>
    simp only [settle,Prod.mk.injEq] at settled
    rw [← settled.1]
    split
    · rename_i hook
      cases phase with
      | onError => simp at hook
      | onHasError => simp [nextLeft,visitLeft]
      | coreFunc => simp [nextLeft,visitLeft]; split <;> omega
      | onAccepted => simp [nextLeft,visitLeft]; split <;> omega
    · exact afterLeft phase parent
  | cancelled =>
    cases settled
    exact visitPositive _

theorem foregroundLeft {i n : Nat} (inside : i < n) (next : Next) :
    placeLeft n (next.foreground i) ≤ 8 * (n - (i + 1)) + nextLeft next + 2 * n + 4 := by
  cases next with
  | go pc => exact Nat.le_refl _
  | finished => simp only [Next.foreground,placeLeft,nextLeft]; omega
  | cancelled => simp only [Next.foreground,placeLeft,nextLeft]; omega

theorem backgroundLeft (found : s.backgrounds[k]? = some task) (flags : Flags) (next : Next) :
    left (s.backgroundNext flags k task next) + taskLeft task.pc ≤ left s + nextLeft next := by
  have moved : ∀ pc, left (s.setBackground k task pc) + taskLeft task.pc = left s + taskLeft pc := by
    intro pc
    have sums : Slots.total (fun task => taskLeft task.pc) (s.backgrounds.set k {task with pc := pc}) +
        taskLeft task.pc = Slots.total (fun task => taskLeft task.pc) s.backgrounds + taskLeft pc :=
      Slots.totalSet (fun task : Background η => taskLeft task.pc) found
    simp only [left,State.setBackground]
    omega
  cases next with
  | go pc =>
    have here := moved (.execute pc)
    exact Nat.le_of_eq here
  | finished =>
    have here := moved .ended
    exact Nat.le_of_eq here
  | cancelled =>
    simp only [State.backgroundNext]
    split
    · have here := moved .notifying
      exact Nat.le_of_eq here
    · have here := moved .ended
      simp only [taskLeft,nextLeft] at here ⊢
      omega

theorem leftPlace {pc : Pc} {uses : List (Use η)}
    (nearer : placeLeft s.chain.length pc < placeLeft s.chain.length s.pc) :
    left {s with pc := pc, event := event, uses := uses} < left s :=
  Nat.add_lt_add_right nearer _

theorem leftEvent (flags : Flags) (found : s.backgrounds[k]? = some task)
    (nearer : nextLeft next < taskLeft task.pc) :
    left ({s with event := event}.backgroundNext flags k task next) < left s := by
  have moved := backgroundLeft (s := {s with event := event}) found flags next
  have same : left {s with event := event} = left s := rfl
  omega

theorem leftShrinks (taken : step flags s a = some t) (own : a ≠ .accept) : left t < left s := by
  cases stepCases taken with
  | begin pc => exact leftPlace (by rw [pc]; simp only [placeLeft]; omega)
  | kill pc => exact leftPlace (by rw [pc]; simp only [placeLeft]; omega)
  | finish pc past => exact leftPlace (by rw [pc]; simp only [placeLeft]; omega)
  | hand pc found background =>
    have inside := Slots.inside found
    simp only [left,pc,placeLeft,Slots.totalAppend,Slots.total,taskLeft]
    omega
  | enter pc found foreground =>
    rename_i i handler
    have inside := Slots.inside found
    have few := enterLeft (flags handler) s.event
    have nearer : placeLeft s.chain.length (.execute i (enter (flags handler) s.event)) <
        placeLeft s.chain.length s.pc := by
      rw [pc]
      simp only [placeLeft]
      omega
    exact leftPlace nearer
  | gate pc found passed =>
    have inside := Slots.inside found
    have few := passLeft passed
    refine leftPlace (Nat.lt_of_le_of_lt (foregroundLeft inside _) ?_)
    rw [pc]
    simp only [placeLeft,visitLeft]
    omega
  | callback pc found settled =>
    have inside := Slots.inside found
    have few := settleLeft settled
    refine leftPlace (Nat.lt_of_le_of_lt (foregroundLeft inside _) ?_)
    rw [pc]
    simp only [placeLeft]
    omega
  | cleaned pc past => exact leftPlace (by rw [pc]; simp only [placeLeft]; omega)
  | notify pc found foreground hook =>
    rename_i i handler
    have inside := Slots.inside found
    have nearer : placeLeft s.chain.length (.notifying i) < placeLeft s.chain.length s.pc := by
      rw [pc]
      simp only [placeLeft]
      omega
    exact leftPlace nearer
  | skip pc found silent =>
    rename_i i handler
    have inside := Slots.inside found
    have nearer : placeLeft s.chain.length (.cleanup (i + 1)) < placeLeft s.chain.length s.pc := by
      rw [pc]
      simp only [placeLeft]
      omega
    exact leftPlace nearer
  | notified pc => exact leftPlace (by rw [pc]; simp only [placeLeft]; omega)
  | accept => contradiction
  | backgroundBegin found pc =>
    rename_i k task
    have few := enterLeft (flags task.handler) s.event
    have moved := backgroundLeft found (flags task.handler) (.go (enter (flags task.handler) s.event))
    simp only [pc,taskLeft,nextLeft] at moved
    omega
  | backgroundGate found pc passed =>
    refine leftEvent _ found ?_
    rw [pc]
    exact passLeft passed
  | backgroundCallback found pc settled =>
    refine leftEvent _ found ?_
    rw [pc]
    exact settleLeft settled
  | @backgroundEnd k task found place =>
    have moved := backgroundLeft found (flags task.handler) .finished
    simp only [State.backgroundNext,nextLeft] at moved
    have open_ : 0 < taskLeft task.pc := by rcases place with at_ | at_ <;> (rw [at_]; decide)
    omega

theorem leftAccept (taken : step flags s .accept = some t) : left t = left s := by
  cases Option.some.inj taken
  rfl

end Apixis.Countdown
