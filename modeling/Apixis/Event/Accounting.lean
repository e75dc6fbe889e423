import Apixis.Event.Gating

/-! What the error stack records and which failures `on_error` is told of. -/
namespace Apixis.Accounting
open Dispatch

variable {η : Type}

/- The record an entry leaves: of a foreground callback that ended in an exception
or a cancellation. -/
def failure (entry : Entry η) : Option (η × Phase) := match entry.who, entry.mark with
  | .foreground _, .ended phase .raised => some (entry.handler,phase)
  | .foreground _, .ended phase .cancelled => some (entry.handler,phase)
  | _, _ => none

/- A failure of a core or a notification with an ordinary exception. -/
def ordinary : Mark → Bool
  | .ended phase .raised => phase != .onError
  | _ => false

def isReport (mark : Mark) : Bool := ordinary mark || mark == .started .onError

/- Every ordinary failure, with the call of `on_error` that is told of it. -/
def reports (hook : Bool) (marks : List Mark) : List Mark :=
  (marks.filter ordinary).flatMap (fun mark => if hook then [mark,.started .onError] else [mark])

def endsIn (phase : Phase) : Mark → Bool
  | .ended phase' _ => phase' == phase
  | _ => false

def awaiting (phase : Phase) : Stage → Nat
  | .inside (.calling phase' _) => if phase' = phase then 1 else 0
  | _ => 0

def Balanced (who : Who) (marks : List Mark) (s : State η) : Prop :=
  ∀ phase, marks.count (.started phase) = marks.countP (endsIn phase) + awaiting phase (s.stage who)

def Reported (flags : η → Flags) (who : Who) (marks : List Mark) (s : State η) : Prop :=
  (s.handlerOf who = none → marks = []) ∧
  ∀ handler, s.handlerOf who = some handler →
    marks.filter isReport = reports (flags handler).onError marks

section Visit
variable {options : Flags} {background : Bool} {handler : η} {before after : Event η} {next : Next}
  {phase : Phase} {parent : Option Phase} {outcome : Outcome} {marks : List Mark}

theorem nextAwaits (next : Next) (phase : Phase) :
    next.marks.count (.started phase) = awaiting phase next.stage := by
  cases next with
  | go pc =>
    cases pc with
    | gate => rfl
    | calling phase' parent =>
      by_cases same : phase' = phase
      · simp [Next.marks,awaiting,Next.stage,same]
      · simp [Next.marks,awaiting,Next.stage,same]
  | finished => rfl
  | cancelled => rfl

theorem nextEnds (next : Next) (phase : Phase) : next.marks.countP (endsIn phase) = 0 := by
  cases next with
  | go pc => cases pc <;> rfl
  | finished => rfl
  | cancelled => rfl

theorem nextOrdinary (next : Next) : next.marks.filter ordinary = [] := by
  cases next with
  | go pc => cases pc <;> rfl
  | finished => rfl
  | cancelled => rfl

theorem reportsAppend (hook : Bool) (l m : List Mark) :
    reports hook (l ++ m) = reports hook l ++ reports hook m := by
  simp only [reports,List.filter_append,List.flatMap_append]

theorem enterReports : (Next.go (enter options before)).marks.filter isReport = [] := by
  unfold enter
  split <;> rfl

theorem passReports (passed : pass options handler before = (next,after)) :
    next.marks.filter isReport = [] ∧ after.errorStack = before.errorStack := by
  unfold Dispatch.pass at passed
  split at passed
  · cases passed
    split <;> exact ⟨rfl,rfl⟩
  · split at passed
    · cases passed
      exact ⟨rfl,rfl⟩
    · cases passed
      exact ⟨rfl,rfl⟩

theorem settleReports
    (settled : settle options background handler before phase parent outcome = (next,after)) :
    (.ended phase outcome :: next.marks).filter isReport =
      reports options.onError (.ended phase outcome :: next.marks) := by
  have left : ∀ failed, (Dispatch.after failed).marks = [] := by intro failed; cases failed <;> rfl
  cases outcome with
  | returned =>
    cases settled
    rw [left]
    rfl
  | cancelled =>
    cases settled
    rfl
  | raised =>
    cases settled
    cases hook : options.onError with
    | true =>
      by_cases nested : phase = .onError
      · subst nested
        simp only [bne_self_eq_false,Bool.false_and,Bool.false_eq_true,if_false,left]
        rfl
      · have other : (phase != .onError) = true := bne_iff_ne.mpr nested
        simp only [other,Bool.true_and,if_true,Next.marks]
        simp [isReport,ordinary,reports,other]
    | false =>
      simp only [Bool.and_false,Bool.false_eq_true,if_false,left]
      cases phase <;> rfl

theorem settleRecords
    (settled : settle options background handler before phase parent outcome = (next,after)) :
    after.errorStack = before.errorStack ++
      if background || outcome == .returned then [] else [(handler,phase)] := by
  cases outcome with
  | returned =>
    cases settled
    simp
  | raised =>
    cases settled
    cases background <;> simp [record]
  | cancelled =>
    cases settled
    cases background <;> simp [record]

end Visit

section Run
variable {flags : η → Flags} {who : Who} {marks new : List Mark} {s t : State η} {a : Action}
  {chain : List η} {event : Event η} {r : List Action}

theorem stepBalanced (balanced : Balanced who marks s) (own : Own flags s t who new) :
    Balanced who (marks ++ new) t := by
  intro phase
  have known := balanced phase
  rw [List.count_append,List.countP_append,known]
  cases own with
  | rest kept =>
    have same : awaiting phase (t.stage who) = awaiting phase (s.stage who) := by
      rcases kept with same | ⟨fresh,past⟩
      · rw [same]
      · rw [fresh,past]
        rfl
    rw [same]
    rfl
  | @enter handler holds fresh after =>
    have starts := nextAwaits (.go (enter (flags handler) s.event)) phase
    have ends := nextEnds (.go (enter (flags handler) s.event)) phase
    rw [List.count_cons_of_ne (by simp),List.countP_cons_of_neg (by simp [endsIn]),starts,ends,
      fresh,after]
    simp [awaiting,Next.stage]
  | @gate handler next holds at_ after passed =>
    rw [List.count_cons_of_ne (by simp),List.countP_cons_of_neg (by simp [endsIn]),
      nextAwaits,nextEnds,at_,after]
    simp [awaiting]
  | @callback handler phase' parent outcome next holds at_ after stops settled =>
    rw [List.count_cons_of_ne (by simp),List.countP_cons,nextAwaits,nextEnds,at_,after]
    by_cases same : phase' = phase
    · simp [awaiting,endsIn,same]
    · simp [awaiting,endsIn,same]

theorem stepReported (reported : Reported flags who marks s) (taken : step flags s a = some t)
    (own : Own flags s t who new) : Reported flags who (marks ++ new) t := by
  obtain ⟨empty,known⟩ := reported
  have some_ : ∀ {handler}, s.handlerOf who = some handler →
      new.filter isReport = reports (flags handler).onError new →
      Reported flags who (marks ++ new) t := by
    intro handler holds step
    have still := handlerKept taken holds
    refine ⟨fun none_ => (by cases still.symm.trans none_),?_⟩
    intro handler' holds'
    cases Option.some.inj (still.symm.trans holds')
    rw [List.filter_append,reportsAppend,known handler holds,step]
  cases own with
  | rest kept =>
    cases holds : s.handlerOf who with
    | some handler => exact some_ holds rfl
    | none =>
      rw [empty holds]
      exact ⟨fun _ => rfl,fun _ _ => rfl⟩
  | @enter handler holds fresh after =>
    refine some_ holds ?_
    rw [List.filter_cons_of_neg (by simp [isReport,ordinary]),enterReports]
    simp only [reports]
    rw [List.filter_cons_of_neg (by simp [ordinary]),nextOrdinary]
    rfl
  | @gate handler next holds at_ after passed =>
    refine some_ holds ?_
    rw [List.filter_cons_of_neg (by simp [isReport,ordinary]),(passReports passed).1]
    simp only [reports]
    rw [List.filter_cons_of_neg (by simp [ordinary]),nextOrdinary]
    rfl
  | callback holds at_ after stops settled => exact some_ holds (settleReports settled)

theorem runBalanced (who : Who) (ran : Machine.run (step flags) (opened chain event) r = some t) :
    Balanced who (marksOf who (journal flags chain event r)) t := by
  refine ownRun (P := Balanced who) ?_ ?_ ran
  · intro phase
    cases who <;> rfl
  · intro marks new s t a known taken own
    exact stepBalanced known own

theorem runReported (who : Who) (ran : Machine.run (step flags) (opened chain event) r = some t) :
    Reported flags who (marksOf who (journal flags chain event r)) t := by
  refine ownRun (P := Reported flags who) ⟨fun _ => rfl,fun _ _ => rfl⟩ ?_ ran
  intro marks new s t a known taken own
  exact stepReported known taken own

theorem toldFailures (who : Who) (handler : η) (next : Next) :
    (told who handler next.marks).filterMap failure = [] := by
  cases next with
  | go pc => cases pc <;> cases who <;> rfl
  | finished => rfl
  | cancelled => rfl

theorem stepRecords {more : List (Entry η)} (moved : Moved flags s t more) :
    t.event.errorStack = s.event.errorStack ++ more.filterMap failure := by
  cases moved with
  | quiet kept seen errorStack accepted =>
    rw [errorStack]
    exact (List.append_nil _).symm
  | @enter actor handler turn fresh event =>
    have rest := toldFailures actor handler (.go (enter (flags handler) s.event))
    simp only [told,List.map_cons] at rest ⊢
    rw [event,List.filterMap_cons,rest]
    cases actor <;> simp [failure]
  | @gate actor handler next turn inside passed =>
    have rest := toldFailures actor handler next
    simp only [told,List.map_cons] at rest ⊢
    rw [(passReports passed).2,List.filterMap_cons,rest]
    cases actor <;> simp [failure]
  | @callback actor handler phase parent outcome next turn inside settled =>
    have rest := toldFailures actor handler next
    simp only [told,List.map_cons] at rest ⊢
    rw [settleRecords settled,List.filterMap_cons,rest]
    cases actor <;> cases outcome <;> rfl

theorem runRecords (ran : Machine.run (step flags) (opened chain event) r = some t) :
    t.event.errorStack = event.errorStack ++ (journal flags chain event r).filterMap failure := by
  refine Machine.history (P := fun r t => t.event.errorStack =
    event.errorStack ++ (journal flags chain event r).filterMap failure) (List.append_nil _).symm ?_ ran
  intro r m a t before known taken
  rw [journalStep before,List.filterMap_append,← List.append_assoc,← known]
  exact stepRecords (stepMoved taken)

def isFailure : Mark → Bool
  | .ended _ .raised => true
  | .ended _ .cancelled => true
  | _ => false

theorem failuresOf (who : Who) (log : List (Entry η)) :
    ((log.filter (fun entry => entry.who = who)).filterMap failure).length ≤
      (marksOf who log).countP isFailure := by
  induction log with
  | nil => exact Nat.le_refl 0
  | cons entry rest ih =>
    by_cases same : entry.who = who
    · have marks : marksOf who (entry :: rest) = entry.mark :: marksOf who rest := by
        simp [marksOf,same]
      rw [marks,List.filter_cons_of_pos (by simpa using same),List.countP_cons]
      cases recorded : failure entry with
      | none =>
        rw [List.filterMap_cons_none recorded]
        omega
      | some both =>
        have failed : isFailure entry.mark = true := by
          obtain ⟨actor,handler,mark⟩ := entry
          cases actor with
          | background k => cases recorded
          | foreground i =>
            cases mark with
            | ended phase outcome => cases outcome <;> first | rfl | cases recorded
            | reached failed => cases recorded
            | checked accepted failed => cases recorded
            | started phase => cases recorded
        rw [List.filterMap_cons_some recorded,List.length_cons,failed]
        exact Nat.succ_le_succ ih
    · have marks : marksOf who (entry :: rest) = marksOf who rest := by simp [marksOf,same]
      rw [marks,List.filter_cons_of_neg (by simpa using same)]
      exact ih

theorem callsCounted (marks : List Mark) : (marks.filterMap Gating.call).length =
    marks.count (.started .coreFunc) + marks.count (.started .onHasError) +
      marks.count (.started .onAccepted) := by
  induction marks with
  | nil => rfl
  | cons mark rest ih =>
    simp only [List.filterMap_cons,List.count_cons]
    cases mark with
    | started phase => cases phase <;> simp [Gating.call] <;> omega
    | reached failed => simpa [Gating.call] using ih
    | checked accepted failed => simpa [Gating.call] using ih
    | ended phase outcome => simpa [Gating.call] using ih

theorem endsCounted (marks : List Mark) :
    marks.countP ordinary ≤ marks.countP (endsIn .coreFunc) + marks.countP (endsIn .onHasError) +
      marks.countP (endsIn .onAccepted) ∧
    marks.countP isFailure ≤ marks.countP (endsIn .coreFunc) + marks.countP (endsIn .onHasError) +
      marks.countP (endsIn .onAccepted) + marks.countP (endsIn .onError) := by
  induction marks with
  | nil => exact ⟨Nat.le_refl 0,Nat.le_refl 0⟩
  | cons mark rest ih =>
    simp only [List.countP_cons]
    cases mark with
    | ended phase outcome =>
      cases phase <;> cases outcome <;> simp [ordinary,isFailure,endsIn] <;> omega
    | reached failed => simpa [ordinary,isFailure,endsIn] using ih
    | checked accepted failed => simpa [ordinary,isFailure,endsIn] using ih
    | started phase => simpa [ordinary,isFailure,endsIn] using ih

theorem reportsCounted (hook : Bool) (marks : List Mark) :
    (reports hook marks).count (.started .onError) ≤ marks.countP ordinary := by
  unfold reports
  rw [List.countP_eq_length_filter]
  have all : ∀ mark ∈ marks.filter ordinary, ordinary mark = true :=
    fun mark member => (List.mem_filter.mp member).2
  revert all
  generalize marks.filter ordinary = failures
  intro all
  induction failures with
  | nil => exact Nat.le_refl 0
  | cons mark rest ih =>
    have later := ih (fun other member => all other (List.mem_cons_of_mem _ member))
    have here : mark ≠ .started .onError := by
      intro same
      have bad := all mark List.mem_cons_self
      rw [same] at bad
      cases bad
    rw [List.flatMap_cons,List.count_append,List.length_cons]
    cases hook with
    | true =>
      simp only [if_true] at later ⊢
      rw [List.count_cons_of_ne here,List.count_singleton_self]
      omega
    | false =>
      have own : (if false = true then [mark,.started .onError] else [mark]) = [mark] := rfl
      rw [own,List.count_singleton]
      simp only [beq_iff_eq,here,if_false] at later ⊢
      omega

theorem dueCounted (options : Flags) (failed : Bool) (gate : Option (Bool × Bool)) :
    (Gating.due options failed gate).length ≤ 2 := by
  unfold Gating.due
  rw [List.length_append]
  refine Nat.add_le_add (b := 1) (d := 1) ?_ ?_
  · split <;> decide
  · cases gate with
    | none => exact Nat.zero_le 1
    | some both =>
      simp only
      split
      · split <;> decide
      · split <;> decide

theorem runFour (who : Who) (ran : Machine.run (step flags) (opened chain event) r = some t) :
    (marksOf who (journal flags chain event r)).countP isFailure ≤ 4 := by
  rcases Gating.runRan who ran with ⟨empty,_⟩ | ⟨handler,holds,failed,gate,gated,_⟩
  · rw [empty]
    decide
  · have balanced := runBalanced who ran
    have reported := (runReported who ran).2 handler holds
    generalize marksOf who (journal flags chain event r) = marks at gated balanced reported ⊢
    have told : marks.count (.started .onError) ≤ marks.countP ordinary := by
      have kept : (marks.filter isReport).count (.started .onError) = marks.count (.started .onError) :=
        List.count_filter rfl
      rw [← kept,reported]
      exact reportsCounted _ _
    have calls := callsCounted marks
    have few := dueCounted (flags handler) failed gate
    rw [← gated.calls] at few
    obtain ⟨some_,all⟩ := endsCounted marks
    have core := balanced .coreFunc
    have hasError := balanced .onHasError
    have accepted := balanced .onAccepted
    have hook := balanced .onError
    omega

theorem errorAccounting (ran : Machine.run (step flags) (opened chain event) r = some t) :
    t.event.errorStack = event.errorStack ++ (journal flags chain event r).filterMap failure ∧
    (∀ before after s, r = before ++ after →
      Machine.run (step flags) (opened chain event) before = some s →
      s.event.errorStack <+: t.event.errorStack) ∧
    (∀ who handler, t.handlerOf who = some handler →
      (marksOf who (journal flags chain event r)).filter isReport =
        reports (flags handler).onError (marksOf who (journal flags chain event r))) ∧
    (∀ who, (((journal flags chain event r).filter (fun entry => entry.who = who)).filterMap
      failure).length ≤ 4) ∧
    ∀ handler background, ¬ (execute (flags handler) background handler).Exits .raised := by
  refine ⟨runRecords ran,?_,?_,?_,?_⟩
  · rintro before after s rfl early
    have log : journal flags chain event (before ++ after) =
        journal flags chain event before ++ Machine.journal (step flags) (entries flags) s after :=
      Machine.journalAppend early
    rw [runRecords ran,runRecords early,log,List.filterMap_append,← List.append_assoc]
    exact List.prefix_append _ _
  · intro who handler holds
    exact (runReported who ran).2 handler holds
  · intro who
    exact Nat.le_trans (failuresOf who _) (runFour who ran)
  · intro handler background
    exact executeContained

end Run

theorem errorAccountingNotified :
    Gating.notified.event.errorStack = [(0,.coreFunc),(0,.onError)] ∧
    (∀ who, (((journal Gating.notifying [1,0,2] .new Gating.acceptThenFail).filter
      (fun entry => entry.who = who)).filterMap failure).length ≤ 4) :=
  have accounted := errorAccounting Gating.notifiedRan
  ⟨rfl,accounted.2.2.2.1⟩

end Apixis.Accounting
