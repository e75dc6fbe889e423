import Apixis.Event.Gating

/-! That the steps of a dispatch are the code of `execute`: turn by turn, each call does to
the event what its coroutine does, and awaits what it awaits. -/
namespace Apixis.Following
open Dispatch Coroutine

variable {η : Type}

/- Code that runs on an event, up to its next await or to any point before. -/
inductive Runs : Coroutine η → Event η → Coroutine η → Event η → Prop where
  | rest (code : Coroutine η) (event : Event η) : Runs code event code event
  | yes {test yes no left} {event after : Event η} (holds : test event = true) (later : Runs yes event left after) :
      Runs (read test yes no) event left after
  | no {test yes no left} {event after : Event η} (fails : test event = false) (later : Runs no event left after) :
      Runs (read test yes no) event left after
  | write {change rest left} {event after : Event η} (later : Runs rest (change event) left after) :
      Runs (write change rest) event left after

/- One turn of a call: what the callback it has awaited, if any, has come to, and the
event before and after. -/
structure Move (η : Type) where
  before : Event η
  answer : Option Outcome
  after : Event η

/- What is left of the code after these turns. -/
inductive Follows (code : Coroutine η) : List (Move η) → Coroutine η → Prop where
  | start : Follows code [] code
  | goes {moves left later before after} (follows : Follows code moves left) (runs : Runs left before later after) :
      Follows code (moves ++ [⟨before,none,after⟩]) later
  | answered {moves phase resume outcome later before after} (follows : Follows code moves (await phase resume))
      (runs : Runs (resume outcome) before later after) : Follows code (moves ++ [⟨before,some outcome,after⟩]) later

section Turn
variable {flags : Flags} {background : Bool} {handler : η} {event after : Event η} {next : Next}

theorem enterRuns : Runs (execute flags background handler) event ((enter flags event).code flags background handler) event := by
  unfold enter
  by_cases told : (event.hasError && flags.onHasError) = true
  · rw [if_pos told]
    exact .yes told (.rest _ _)
  · rw [if_neg told]
    exact .no (by simpa using told) (.rest _ _)

theorem passRuns (passed : Dispatch.pass flags handler event = (next,after)) :
    Runs (ExecutePc.gate.code flags background handler) event (next.code flags background handler) after := by
  unfold Dispatch.pass at passed
  by_cases accepted : event.accepted = true
  · rw [if_pos accepted] at passed
    refine .yes accepted ?_
    cases passed
    split
    · have same := nextReturned (executeFunc flags background handler .onAccepted)
      exact same.symm ▸ .rest _ _
    · exact .rest _ _
  · rw [if_neg accepted] at passed
    refine .no (by simpa using accepted) ?_
    by_cases stops : (event.hasError && flags.stopWhenError) = true
    · rw [if_pos stops] at passed
      cases passed
      exact .yes stops (.rest _ _)
    · rw [if_neg stops] at passed
      cases passed
      refine .no (by simpa using stops) (.write ?_)
      have same := nextReturned (executeFunc flags background handler .coreFunc)
      exact same.symm ▸ .rest _ _

theorem settleRuns {phase : Phase} {parent : Option Phase} {outcome : Outcome}
    (proper : (ExecutePc.calling phase parent).Proper)
    (settled : settle flags background handler event phase parent outcome = (next,after)) :
    ∃ resume, (ExecutePc.calling phase parent).code flags background handler = await phase resume ∧
      Runs (resume outcome) event (next.code flags background handler) after := by
  refine ⟨_,rfl,?_⟩
  cases outcome with
  | returned =>
    cases settled
    cases parent.getD phase <;> exact .rest _ _
  | cancelled =>
    cases settled
    exact .write (.rest _ _)
  | raised =>
    cases settled
    refine .write ?_
    cases parent with
    | none =>
      by_cases hook : (phase != .onError && flags.onError) = true
      · simp only [hook,if_true]
        exact .rest _ _
      · simp only [hook]
        cases phase <;> exact .rest _ _
    | some failed =>
      obtain ⟨rfl,other⟩ := proper
      cases failed <;> exact .rest _ _

end Turn

def Leaves (flags : Flags) (background : Bool) (handler : η) (left : Coroutine η) : Stage → Prop
  | .unreached => False
  | .inside pc => left = pc.code flags background handler
  | .past => left = exit .returned ∨ left = exit .cancelled

theorem nextLeaves (flags : Flags) (background : Bool) (handler : η) (next : Next) :
    Leaves flags background handler (next.code flags background handler) next.stage := by
  cases next with
  | go pc => rfl
  | finished => exact .inl rfl
  | cancelled => exact .inr rfl

def answer : Mark → Option (Option Outcome)
  | .reached _ => some none
  | .checked _ _ => some none
  | .started _ => none
  | .ended _ outcome => some (some outcome)

def turnOf (before after : Event η) (marks : List Mark) : List (Move η) :=
  marks.filterMap (fun mark => (answer mark).map (fun answer => ⟨before,answer,after⟩))

def moves (flags : η → Flags) (who : Who) (s : State η) (a : Action) : List (Move η) :=
  match step flags s a with
  | some t => turnOf s.event t.event (marksOf who (entries flags s a))
  | none => []

/- A call that has taken no turn has not begun, or never will. -/
def FollowsOf (flags : η → Flags) (who : Who) (moves : List (Move η)) (s : State η) : Prop :=
  (moves = [] ∧ (s.stage who = .unreached ∨ s.stage who = .past)) ∨
  ∃ handler left, s.handlerOf who = some handler ∧
    Follows (execute (flags handler) who.isBackground handler) moves left ∧
    Leaves (flags handler) who.isBackground handler left (s.stage who)

variable {flags : η → Flags} {who : Who} {made : List (Move η)} {s t : State η} {a : Action} {chain : List η}
  {event : Event η} {r : List Action} {l : List (Entry η)} {before after : Event η}

theorem turnOwn (mark : Mark) (next : Next) :
    turnOf before after (mark :: next.marks) = turnOf before after [mark] := by
  cases next with
  | go pc => cases pc <;> cases mark <;> rfl
  | finished => rfl
  | cancelled => rfl

theorem restFollows (known : FollowsOf flags who made s) (taken : step flags s a = some t) (kept : Kept s t who) :
    FollowsOf flags who made t := by
  rcases known with ⟨empty,out⟩ | ⟨handler,left,holds,follows,leaves⟩
  · refine .inl ⟨empty,?_⟩
    rcases kept with same | ⟨_,later⟩
    · rw [same]
      exact out
    · exact .inr later
  · refine .inr ⟨handler,left,handlerKept taken holds,follows,?_⟩
    rcases kept with same | ⟨fresh,_⟩
    · rw [same]
      exact leaves
    · rw [fresh] at leaves
      exact leaves.elim

theorem insideFollows {handler : η} {pc : ExecutePc} (known : FollowsOf flags who made s)
    (holds : s.handlerOf who = some handler) (inside : s.stage who = .inside pc) :
    Follows (execute (flags handler) who.isBackground handler) made (pc.code (flags handler) who.isBackground handler) := by
  rcases known with ⟨_,out | out⟩ | ⟨handler',left,holds',follows,leaves⟩
  · cases inside.symm.trans out
  · cases inside.symm.trans out
  · cases Option.some.inj (holds.symm.trans holds')
    rw [inside] at leaves
    exact leaves ▸ follows

theorem movedFollows (known : FollowsOf flags who made s) (taken : step flags s a = some t)
    (proper : ∀ pc, s.stage who = .inside pc → pc.Proper) (moved : Moved flags s t l) :
    FollowsOf flags who (made ++ turnOf s.event t.event (marksOf who l)) t := by
  cases moved with
  | quiet kept _ _ _ =>
    rw [show marksOf who ([] : List (Entry η)) = [] from rfl,turnOf,List.filterMap_nil,List.append_nil]
    exact restFollows known taken (kept who)
  | @enter actor handler turn fresh event =>
    by_cases same : who = actor
    · subst same
      have empty : made = [] := by
        rcases known with ⟨empty,_⟩ | ⟨_,_,_,_,leaves⟩
        · exact empty
        · rw [fresh] at leaves
          exact leaves.elim
      rw [marksOwn,turnOwn,empty,event]
      refine .inr ⟨handler,_,handlerKept taken turn.holds,.goes .start enterRuns,?_⟩
      rw [turn.after]
      exact nextLeaves _ _ _ (.go (enter (flags handler) s.event))
    · rw [marksOther same,turnOf,List.filterMap_nil,List.append_nil]
      exact restFollows known taken (turn.others who same)
  | @gate actor handler next turn inside passed =>
    by_cases same : who = actor
    · subst same
      rw [marksOwn,turnOwn]
      refine .inr ⟨handler,_,handlerKept taken turn.holds,.goes (insideFollows known turn.holds inside) (passRuns passed),?_⟩
      rw [turn.after]
      exact nextLeaves _ _ _ next
    · rw [marksOther same,turnOf,List.filterMap_nil,List.append_nil]
      exact restFollows known taken (turn.others who same)
  | @callback actor handler phase parent outcome next turn inside settled =>
    by_cases same : who = actor
    · subst same
      obtain ⟨resume,awaits,runs⟩ := settleRuns (proper _ inside) settled
      have follows := insideFollows known turn.holds inside
      rw [awaits] at follows
      rw [marksOwn,turnOwn]
      refine .inr ⟨handler,_,handlerKept taken turn.holds,.answered follows runs,?_⟩
      rw [turn.after]
      exact nextLeaves _ _ _ next
    · rw [marksOther same,turnOf,List.filterMap_nil,List.append_nil]
      exact restFollows known taken (turn.others who same)

/- Whatever the others do meanwhile, the turns of a call are those of its code, on the event
as it finds it and with the answers its callbacks have given. -/
theorem executeFollowed (ran : Machine.run (step flags) (opened chain event) r = some t) (who : Who) :
    FollowsOf flags who (Machine.journal (step flags) (moves flags who) (opened chain event) r) t := by
  refine Machine.history (P := fun r t => FollowsOf flags who (Machine.journal (step flags) (moves flags who) (opened chain event) r) t)
    (.inl ⟨rfl,.inl ?_⟩) ?_ ran
  · cases who <;> rfl
  · intro r s a t before known taken
    have turned : moves flags who s a = turnOf s.event t.event (marksOf who (entries flags s a)) := by
      simp only [moves,taken]
    rw [Machine.journalSnoc before,turned]
    exact movedFollows known taken (fun _ inside => Gating.insideProper before inside) (stepMoved taken)

/- The foreground handler that accepts the event, fails and is told so by its own hook. -/
theorem executeFollowedNotified : ∃ made left,
    made = Machine.journal (step Gating.notifying) (moves Gating.notifying (.foreground 1)) (opened [1,0,2] .new) Gating.acceptThenFail ∧
    made.length = 4 ∧ Follows (execute (Gating.notifying 0) false 0) made left ∧ (left = exit .returned ∨ left = exit .cancelled) := by
  have turns : (Machine.journal (step Gating.notifying) (moves Gating.notifying (.foreground 1)) (opened [1,0,2] .new)
      Gating.acceptThenFail).length = 4 := rfl
  have past : Gating.notified.stage (.foreground 1) = .past := rfl
  have first : Gating.notified.handlerOf (.foreground 1) = some 0 := rfl
  rcases executeFollowed Gating.notifiedRan (.foreground 1) with ⟨empty,_⟩ | ⟨handler,left,holds,follows,leaves⟩
  · rw [empty] at turns
    cases turns
  · rw [past] at leaves
    cases Option.some.inj (first.symm.trans holds)
    exact ⟨_,left,rfl,turns,follows,leaves⟩

end Apixis.Following
