import Apixis.Event.Journal

/-! Which callbacks one call of `execute` invokes, and what it goes by. -/
namespace Apixis.Gating
open Dispatch

variable {η : Type}

def call : Mark → Option Phase
  | .started .onError => none
  | .started phase => some phase
  | _ => none

def isCheck : Mark → Bool
  | .reached _ => true
  | .checked _ _ => true
  | _ => false

/- What is due, given whether an error was recorded on arrival and, once it has been
checked, whether the event was accepted and had an error then. -/
def due (options : Flags) (failed : Bool) (gate : Option (Bool × Bool)) : List Phase :=
  (if failed && options.onHasError then [.onHasError] else []) ++ match gate with
    | none => []
    | some (accepted,failedSince) =>
        if accepted then (if options.onAccepted then [.onAccepted] else [])
        else if failedSince && options.stopWhenError then [] else [.coreFunc]

structure Gated (options : Flags) (failed : Bool) (gate : Option (Bool × Bool)) (marks : List Mark) :
    Prop where
  checks : marks.filter isCheck =
    .reached failed :: gate.toList.map (fun both => .checked both.1 both.2)
  calls : marks.filterMap call = due options failed gate

/- Where a call stands that has written this. -/
def StandsAt (gate : Option (Bool × Bool)) (marks : List Mark) : Stage → Prop
  | .unreached => False
  | .inside .gate => gate = none
  | .inside (.calling phase parent) => (ExecutePc.calling phase parent).Proper ∧
      (gate = none ↔ parent.getD phase = .onHasError)
  | .past => gate ≠ none ∨ ∃ phase, .ended phase .cancelled ∈ marks

def Ran (options : Flags) (marks : List Mark) (stage : Stage) : Prop :=
  ∃ failed gate, Gated options failed gate marks ∧ StandsAt gate marks stage

def RanOf (flags : η → Flags) (who : Who) (marks : List Mark) (s : State η) : Prop :=
  (marks = [] ∧ (s.stage who = .unreached ∨ s.stage who = .past)) ∨
  ∃ handler, s.handlerOf who = some handler ∧ Ran (flags handler) marks (s.stage who)

section Visit
variable {options : Flags} {marks : List Mark} {event after : Event η} {handler : η}

theorem enterRan (options : Flags) (event : Event η) :
    Ran options (.reached event.hasError :: (Next.go (enter options event)).marks)
      (.inside (enter options event)) := by
  unfold enter
  split
  · rename_i told
    have calls : due options event.hasError none = [.onHasError] := by simp only [due,told]; rfl
    exact ⟨event.hasError,none,⟨rfl,calls.symm⟩,(fun at_ => by cases at_),fun _ => rfl,fun _ => rfl⟩
  · rename_i quiet
    have calls : due options event.hasError none = [] := by simp only [due,quiet]; rfl
    exact ⟨event.hasError,none,⟨rfl,calls.symm⟩,rfl⟩

theorem noChecks (next : Next) : next.marks.filter isCheck = [] := by
  cases next with
  | go pc => cases pc <;> rfl
  | finished => rfl
  | cancelled => rfl

theorem gateCalling {phase : Phase} (both : Bool × Bool) (own : phase ≠ .onError)
    (later : phase ≠ .onHasError) : StandsAt (some both) marks (.inside (.calling phase none)) :=
  ⟨own,fun at_ => (by cases at_),fun same => absurd same later⟩

theorem passDue {next : Next} (failed : Bool) (passed : pass options handler event = (next,after)) :
    due options failed none ++ next.marks.filterMap call =
      due options failed (some (event.accepted,event.hasError)) ∧
    StandsAt (some (event.accepted,event.hasError)) marks next.stage := by
  simp only [due,List.append_nil]
  unfold Dispatch.pass at passed
  by_cases accepted : event.accepted = true
  · rw [if_pos accepted] at passed
    cases passed
    rw [if_pos accepted]
    cases options.onAccepted with
    | true => exact ⟨rfl,gateCalling _ (by decide) (by decide)⟩
    | false => exact ⟨rfl,.inl (by intro at_; cases at_)⟩
  · rw [if_neg accepted] at passed
    rw [if_neg accepted]
    by_cases stops : (event.hasError && options.stopWhenError) = true
    · rw [if_pos stops] at passed
      cases passed
      rw [if_pos stops]
      exact ⟨rfl,.inl (by intro at_; cases at_)⟩
    · rw [if_neg stops] at passed
      cases passed
      rw [if_neg stops]
      exact ⟨rfl,gateCalling _ (by decide) (by decide)⟩

theorem gateRan {next : Next} (ran : Ran options marks (.inside .gate))
    (passed : pass options handler event = (next,after)) :
    Ran options (marks ++ .checked event.accepted event.hasError :: next.marks) next.stage := by
  obtain ⟨failed,gate,gated,rfl⟩ := ran
  obtain ⟨calls,stands⟩ := passDue failed passed
  refine ⟨failed,some (event.accepted,event.hasError),⟨?_,?_⟩,stands⟩
  · rw [List.filter_append,gated.checks,List.filter_cons_of_pos rfl,noChecks]
    rfl
  · rw [List.filterMap_append,gated.calls,List.filterMap_cons_none rfl]
    exact calls

theorem callbackRan {background : Bool} {phase : Phase} {parent : Option Phase} {outcome : Outcome}
    {next : Next} (ran : Ran options marks (.inside (.calling phase parent)))
    (settled : settle options background handler event phase parent outcome = (next,after)) :
    Ran options (marks ++ .ended phase outcome :: next.marks) next.stage := by
  obtain ⟨failed,gate,gated,proper,stands⟩ := ran
  have left : ∀ failed marks, (gate = none ↔ failed = .onHasError) →
      (Dispatch.after failed).marks.filterMap call = [] ∧
      StandsAt gate marks (Dispatch.after failed).stage := by
    intro failed marks stands
    cases failed with
    | onHasError => exact ⟨rfl,stands.mpr rfl⟩
    | coreFunc => exact ⟨rfl,.inl (fun at_ => by cases stands.mp at_)⟩
    | onAccepted => exact ⟨rfl,.inl (fun at_ => by cases stands.mp at_)⟩
    | onError => exact ⟨rfl,.inl (fun at_ => by cases stands.mp at_)⟩
  have goes : next.marks.filterMap call = [] ∧
      StandsAt gate (marks ++ .ended phase outcome :: next.marks) next.stage := by
    cases outcome with
    | returned =>
      cases settled
      exact left _ _ stands
    | cancelled =>
      cases settled
      exact ⟨rfl,.inr ⟨phase,by simp⟩⟩
    | raised =>
      cases settled
      split
      · rename_i hook
        simp only [Bool.and_eq_true,bne_iff_ne] at hook
        have alone : parent = none := by
          cases parent with
          | none => rfl
          | some failed => exact absurd proper.1 hook.1
        rw [alone] at stands
        exact ⟨rfl,⟨rfl,hook.1⟩,stands⟩
      · exact left _ _ stands
  refine ⟨failed,gate,⟨?_,?_⟩,goes.2⟩
  · rw [List.filter_append,gated.checks,List.filter_cons_of_neg (by simp [isCheck]),noChecks,List.append_nil]
  · rw [List.filterMap_append,gated.calls,List.filterMap_cons_none rfl,goes.1,List.append_nil]

end Visit

section Run
variable {flags : η → Flags} {who : Who} {marks new : List Mark} {s t : State η} {a : Action}
  {chain : List η} {event : Event η} {r : List Action}

theorem stepRan (ran : RanOf flags who marks s) (taken : step flags s a = some t)
    (own : Own flags s t who new) : RanOf flags who (marks ++ new) t := by
  have inside : ∀ {handler pc}, s.handlerOf who = some handler → s.stage who = .inside pc →
      Ran (flags handler) marks (.inside pc) := by
    intro handler pc holds at_
    rcases ran with ⟨_,out | out⟩ | ⟨handler',holds',known⟩
    · cases at_.symm.trans out
    · cases at_.symm.trans out
    · cases Option.some.inj (holds.symm.trans holds')
      exact at_ ▸ known
  cases own with
  | rest kept =>
    rw [List.append_nil]
    rcases ran with ⟨empty,out⟩ | ⟨handler,holds,known⟩
    · refine .inl ⟨empty,?_⟩
      rcases kept with same | ⟨_,later⟩
      · rw [same]
        exact out
      · exact .inr later
    · refine .inr ⟨handler,handlerKept taken holds,?_⟩
      rcases kept with same | ⟨fresh,_⟩
      · rw [same]
        exact known
      · obtain ⟨failed,gate,_,stands⟩ := known
        rw [fresh] at stands
        exact stands.elim
  | @enter handler holds fresh after =>
    have empty : marks = [] := by
      rcases ran with ⟨empty,_⟩ | ⟨handler',_,failed,gate,_,stands⟩
      · exact empty
      · rw [fresh] at stands
        exact stands.elim
    rw [empty,List.nil_append]
    refine .inr ⟨handler,handlerKept taken holds,?_⟩
    rw [after]
    exact enterRan _ _
  | @gate handler next holds at_ after passed =>
    refine .inr ⟨handler,handlerKept taken holds,?_⟩
    rw [after]
    exact gateRan (inside holds at_) passed
  | @callback handler phase parent outcome next holds at_ after stops settled =>
    refine .inr ⟨handler,handlerKept taken holds,?_⟩
    rw [after]
    exact callbackRan (inside holds at_) settled

theorem runRan (who : Who) (ran : Machine.run (step flags) (opened chain event) r = some t) :
    RanOf flags who (marksOf who (journal flags chain event r)) t := by
  refine ownRun (P := RanOf flags who) (.inl ⟨rfl,.inl ?_⟩) ?_ ran
  · cases who <;> rfl
  · intro marks new s t a known taken own
    exact stepRan known taken own

def Accepted (entry : Entry η) : Prop := ∃ failed, entry.mark = .checked true failed
def Starts (entry : Entry η) : Prop := entry.mark = .started .coreFunc

def coreStart (entry : Entry η) : Option η :=
  if entry.mark = .started .coreFunc then some entry.handler else none

/- What the event and the journal say of each other. -/
structure Agrees (event : Event η) (log : List (Entry η)) (s : State η) : Prop where
  accepted : ∀ entry ∈ log, Accepted entry → s.event.accepted = true
  later : log.Pairwise (fun entry next => Accepted entry → ¬ Starts next)
  seen : s.event.seen = event.seen ++ log.filterMap coreStart

theorem toldStarts (who : Who) (handler : η) (none_ : .started .coreFunc ∉ marks) :
    (∀ entry ∈ told who handler marks, ¬ Starts entry) ∧
    (told who handler marks).filterMap coreStart = [] := by
  have all : ∀ entry ∈ told who handler marks, ¬ Starts entry := by
    intro entry member starts
    obtain ⟨mark,there,rfl⟩ := List.mem_map.mp member
    have same : mark = .started .coreFunc := starts
    exact none_ (same ▸ there)
  exact ⟨all,List.filterMap_eq_nil_iff.mpr (fun entry member => if_neg (all entry member))⟩

theorem agreesMore {log more : List (Entry η)} (agrees : Agrees event log s)
    (accepted : s.event.accepted = true → t.event.accepted = true)
    (found : ∀ entry ∈ more, Accepted entry → t.event.accepted = true)
    (starts : ∀ entry ∈ more, Starts entry → s.event.accepted = false)
    (inner : more.Pairwise (fun entry next => Accepted entry → ¬ Starts next))
    (seen : t.event.seen = s.event.seen ++ more.filterMap coreStart) : Agrees event (log ++ more) t := by
  refine ⟨?_,?_,?_⟩
  · intro entry member
    rcases List.mem_append.mp member with old | new
    · exact fun known => accepted (agrees.accepted entry old known)
    · exact found entry new
  · refine List.pairwise_append.mpr ⟨agrees.later,inner,?_⟩
    intro entry old next new known begins
    exact absurd (agrees.accepted entry old known) (by rw [starts next new begins]; decide)
  · rw [seen,agrees.seen,List.filterMap_append,List.append_assoc]

theorem agreesQuiet {log : List (Entry η)} {handler : η} (agrees : Agrees event log s)
    (accepted : t.event.accepted = s.event.accepted) (seen : t.event.seen = s.event.seen)
    (none_ : .started .coreFunc ∉ marks)
    (found : ∀ failed, .checked true failed ∈ marks → s.event.accepted = true) :
    Agrees event (log ++ told who handler marks) t := by
  obtain ⟨starts,cores⟩ := toldStarts who handler none_
  refine agreesMore agrees (by rw [accepted]; exact id) ?_ ?_ ?_ ?_
  · rintro entry member ⟨failed,same⟩
    obtain ⟨mark,there,rfl⟩ := List.mem_map.mp member
    have mark_ : mark = .checked true failed := same
    rw [accepted]
    exact found failed (mark_ ▸ there)
  · intro entry member begins
    exact absurd begins (starts entry member)
  · exact List.pairwise_of_forall_mem_list (fun _ _ next member _ => starts next member)
  · rw [cores,List.append_nil,seen]

theorem settleKeeps {options : Flags} {background : Bool} {handler : η} {phase : Phase}
    {parent : Option Phase} {outcome : Outcome} {next : Next} {before after : Event η}
    (settled : settle options background handler before phase parent outcome = (next,after)) :
    after.accepted = before.accepted ∧ after.seen = before.seen ∧ .started .coreFunc ∉ next.marks := by
  have left : ∀ failed, .started .coreFunc ∉ (Dispatch.after failed).marks := by
    intro failed
    cases failed <;> decide
  have recorded : (record background handler phase before).accepted = before.accepted ∧
      (record background handler phase before).seen = before.seen := by
    unfold record
    split <;> exact ⟨rfl,rfl⟩
  cases outcome with
  | returned =>
    cases settled
    exact ⟨rfl,rfl,left _⟩
  | cancelled =>
    cases settled
    exact ⟨recorded.1,recorded.2,by decide⟩
  | raised =>
    cases settled
    refine ⟨recorded.1,recorded.2,?_⟩
    split
    · simp [Next.marks]
    · exact left _

theorem stepAgrees {log more : List (Entry η)} (agrees : Agrees event log s)
    (moved : Moved flags s t more) : Agrees event (log ++ more) t := by
  cases moved with
  | quiet kept seen errorStack accepted =>
    rw [List.append_nil]
    refine ⟨?_,agrees.later,seen.trans agrees.seen⟩
    intro entry member known
    exact accepted (agrees.accepted entry member known)
  | @enter actor handler turn fresh event =>
    refine agreesQuiet agrees (by rw [event]) (by rw [event]) ?_ ?_
    · unfold enter
      split <;> simp [Next.marks]
    · intro failed member
      unfold enter at member
      split at member <;> simp [Next.marks] at member
  | @gate actor handler next turn inside passed =>
    unfold Dispatch.pass at passed
    by_cases accepted : s.event.accepted = true
    · rw [if_pos accepted] at passed
      obtain ⟨goes,same⟩ := Prod.mk.inj passed
      refine agreesQuiet agrees (by rw [same]) (by rw [same]) ?_ (fun _ _ => accepted)
      rw [← goes]
      split <;> simp [Next.marks]
    · rw [if_neg accepted] at passed
      have open_ : s.event.accepted = false := by simpa using accepted
      by_cases stops : (s.event.hasError && (flags handler).stopWhenError) = true
      · rw [if_pos stops] at passed
        obtain ⟨goes,same⟩ := Prod.mk.inj passed
        refine agreesQuiet agrees (by rw [same]) (by rw [same]) ?_ ?_
        · rw [← goes]
          simp [Next.marks]
        · intro failed member
          rw [← goes,open_] at member
          simp [Next.marks] at member
      · rw [if_neg stops] at passed
        obtain ⟨goes,same⟩ := Prod.mk.inj passed
        rw [← goes,open_]
        refine agreesMore agrees (fun known => absurd known accepted) ?_ (fun _ _ _ => open_) ?_ ?_
        · rintro entry member ⟨failed,known⟩
          simp [told,Next.marks] at member
          rcases member with rfl | rfl <;> simp at known
        · simp [told,Next.marks,Accepted]
        · rw [← same]
          simp [told,Next.marks,coreStart]
  | @callback actor handler phase parent outcome next turn inside settled =>
    obtain ⟨accepted,seen,none_⟩ := settleKeeps settled
    have marks : ∀ failed, Mark.checked true failed ∉ next.marks := by
      intro failed
      cases next with
      | go pc => cases pc <;> simp [Next.marks]
      | finished => simp [Next.marks]
      | cancelled => simp [Next.marks]
    refine agreesQuiet agrees accepted seen (by simpa using none_) ?_
    intro failed member
    rcases List.mem_cons.mp member with here | later
    · cases here
    · exact absurd later (marks failed)

theorem runAgrees (ran : Machine.run (step flags) (opened chain event) r = some t) :
    Agrees event (journal flags chain event r) t := by
  refine Machine.history (P := fun r t => Agrees event (journal flags chain event r) t)
    ⟨by simp [journal],by simp [journal],by simp [journal,opened]⟩ ?_ ran
  intro r m a t before known taken
  rw [journalStep before]
  exact stepAgrees known (stepMoved taken)

theorem runReaches (ran : Machine.run (step flags) (opened chain event) r = some t) :
    t.chain = chain ∧ (t.stopped = false →
      (journal flags chain event r).filterMap Entry.reachedPlace = foregroundPlaces flags chain t.place) := by
  refine Machine.history (P := fun r t => t.chain = chain ∧ (t.stopped = false →
    (journal flags chain event r).filterMap Entry.reachedPlace = foregroundPlaces flags chain t.place))
    ⟨rfl,fun _ => rfl⟩ ?_ ran
  rintro r m a t before ⟨chain_,known⟩ taken
  have same := chainKept (stepCases taken)
  refine ⟨same.trans chain_,?_⟩
  intro running
  obtain ⟨went,places⟩ := stepReaches taken running
  rw [same,chain_] at places
  rw [journalStep before,List.filterMap_append,known went,reachedEntries taken,places]

theorem runStops {i : Nat} (ran : Machine.run (step flags) (opened chain event) r = some t) {phase : Phase}
    (ended : .ended phase .cancelled ∈ marksOf (.foreground i) (journal flags chain event r)) :
    t.stopped = true := by
  refine ownRun (P := fun marks t => .ended phase .cancelled ∈ marks → t.stopped = true)
    (fun none_ => by cases none_) ?_ ran ended
  intro marks new s t a known taken own member
  rcases List.mem_append.mp member with old | fresh
  · by_contra going
    have running : t.stopped = false := by simpa using going
    have before := known old
    rw [(stepReaches taken running).1] at before
    cases before
  · cases own with
    | rest kept => cases fresh
    | enter holds fresh_ after =>
      unfold enter at fresh
      split at fresh <;> simp [Next.marks] at fresh
    | @gate handler next holds at_ after passed =>
      cases next with
      | go pc => cases pc <;> simp [Next.marks] at fresh
      | finished => simp [Next.marks] at fresh
      | cancelled => simp [Next.marks] at fresh
    | @callback handler phase' parent outcome next holds at_ after stops settled =>
      have goes : outcome = .cancelled := by
        rcases List.mem_cons.mp fresh with here | later
        · cases here
          rfl
        · cases next with
          | go pc => cases pc <;> simp [Next.marks] at later
          | finished => simp [Next.marks] at later
          | cancelled => simp [Next.marks] at later
      subst goes
      exact stops rfl (Prod.mk.inj settled).1.symm

theorem insideHolds {pc : ExecutePc} (ran : Machine.run (step flags) (opened chain event) r = some t)
    (inside : t.stage who = .inside pc) : ∃ handler, t.handlerOf who = some handler := by
  rcases runRan who ran with ⟨_,out | out⟩ | ⟨handler,holds,_⟩
  · cases inside.symm.trans out
  · cases inside.symm.trans out
  · exact ⟨handler,holds⟩

theorem passGoesOn {options : Flags} {handler : η} {before : Event η} :
    (pass options handler before).1 ≠ .cancelled := by
  unfold Dispatch.pass
  intro stops
  repeat' split at stops
  all_goals cases stops

theorem settleGoesOn {options : Flags} {background : Bool} {handler : η} {before : Event η} {phase : Phase}
    {parent : Option Phase} {outcome : Outcome} (whole : outcome ≠ .cancelled) :
    (settle options background handler before phase parent outcome).1 ≠ .cancelled := by
  have left : ∀ failed, Dispatch.after failed ≠ .cancelled := by intro failed; cases failed <;> decide
  cases outcome with
  | returned => exact left _
  | cancelled => exact absurd rfl whole
  | raised =>
    simp only [settle]
    split
    · intro bad
      cases bad
    · exact left _

theorem foregroundGoesOn {i : Nat} {next : Next} (goes : next ≠ .cancelled)
    (at_ : t.pc = next.foreground i) : t.stopped = false := by
  cases next with
  | go pc => simp only [State.stopped,at_,Next.foreground]
  | finished => simp only [State.stopped,at_,Next.foreground]
  | cancelled => exact absurd rfl goes

/- Nothing stops a dispatch that is not cancelled before its end: however the
callback it awaits ends, it goes on. -/
theorem goesOn (ran : Machine.run (step flags) (opened chain event) r = some t) (whole : t.stopped = false) :
    t.pc = .returned ∨ ∀ outcome, outcome ≠ .cancelled →
      ∃ a ∈ [Action.begin,.visit,.gate,.callback outcome], ∃ u, step flags t a = some u ∧
        u.stopped = false := by
  cases at_ : t.pc with
  | returned => exact .inl rfl
  | cleanup i => simp [State.stopped,at_] at whole
  | notifying i => simp [State.stopped,at_] at whole
  | cancelled => simp [State.stopped,at_] at whole
  | created =>
    refine .inr (fun outcome _ => ⟨.begin,by simp,{t with pc := .visit 0},?_,rfl⟩)
    simp only [step,at_,if_true]
  | visit i =>
    refine .inr (fun outcome _ => ⟨.visit,by simp,?_⟩)
    simp only [step,at_]
    split
    · refine ⟨_,rfl,?_⟩
      rfl
    · split
      · refine ⟨_,rfl,?_⟩
        rfl
      · refine ⟨_,rfl,?_⟩
        rfl
  | execute i pc =>
    have inside : t.stage (.foreground i) = .inside pc := by simp [State.stage,at_]
    obtain ⟨handler,found⟩ := insideHolds ran inside
    simp only [State.handlerOf] at found
    refine .inr (fun outcome goes => ?_)
    cases pc with
    | gate =>
      refine ⟨.gate,by simp,?_⟩
      simp only [step,at_,found]
      refine ⟨_,rfl,?_⟩
      exact foregroundGoesOn passGoesOn rfl
    | calling phase parent =>
      refine ⟨.callback outcome,by simp,?_⟩
      simp only [step,at_,found]
      refine ⟨_,rfl,?_⟩
      exact foregroundGoesOn (settleGoesOn goes) rfl

theorem coreGating (ran : Machine.run (step flags) (opened chain event) r = some t)
    (whole : t.stopped = false) :
    ((journal flags chain event r).filterMap Entry.reachedPlace = foregroundPlaces flags chain t.place ∧
      (t.pc = .returned → t.place = chain.length) ∧
      (t.pc = .returned ∨ ∀ outcome, outcome ≠ .cancelled →
        ∃ a ∈ [Action.begin,.visit,.gate,.callback outcome], ∃ u, step flags t a = some u ∧
          u.stopped = false)) ∧
    (∀ who handler, t.handlerOf who = some handler →
      marksOf who (journal flags chain event r) = [] ∨
      ∃ failed gate, Gated (flags handler) failed gate (marksOf who (journal flags chain event r)) ∧
        (t.stage who = .past → gate ≠ none ∨ who.isBackground = true ∧
          ∃ phase, .ended phase .cancelled ∈ marksOf who (journal flags chain event r))) ∧
    (journal flags chain event r).Pairwise (fun entry next => Accepted entry → ¬ Starts next) ∧
    t.event.seen = event.seen ++ (journal flags chain event r).filterMap coreStart := by
  obtain ⟨same,reaches⟩ := runReaches ran
  have agrees := runAgrees ran
  refine ⟨⟨reaches whole,?_,goesOn ran whole⟩,?_,agrees.later,agrees.seen⟩
  · intro ended
    simp only [State.place,ended,same]
  · intro who handler holds
    rcases runRan who ran with ⟨empty,_⟩ | ⟨handler',holds',failed,gate,gated,stands⟩
    · exact .inl empty
    · cases Option.some.inj (holds.symm.trans holds')
      refine .inr ⟨failed,gate,gated,?_⟩
      intro past
      rw [past] at stands
      rcases stands with passed | ⟨phase,cancelled⟩
      · exact .inl passed
      · cases who with
        | background k => exact .inr ⟨rfl,phase,cancelled⟩
        | foreground i =>
          rw [runStops ran cancelled] at whole
          cases whole

theorem insideProper {pc : ExecutePc} (ran : Machine.run (step flags) (opened chain event) r = some t)
    (inside : t.stage who = .inside pc) : pc.Proper := by
  rcases runRan who ran with ⟨_,out | out⟩ | ⟨handler,_,failed,gate,_,stands⟩
  · cases inside.symm.trans out
  · cases inside.symm.trans out
  · rw [inside] at stands
    cases pc with
    | gate => trivial
    | calling phase parent => exact stands.1

end Run

/- A background handler that fails, a foreground one that accepts and then fails, and
one that is notified of both. -/
def notifying : Nat → Flags
  | 0 => ⟨false,true,false,false,true,false⟩
  | 1 => ⟨true,true,false,false,true,false⟩
  | _ => ⟨false,true,true,true,false,false⟩

def acceptThenFail : List Action :=
  [.begin,.visit,.visit,.backgroundBegin 0,.backgroundGate 0,.gate,.accept,.callback .raised,
    .backgroundCallback 0 .raised,.callback .raised,.visit,.backgroundCallback 0 .returned,
    .callback .returned,.gate,.callback .returned,.visit]

def notified : State Nat :=
  (Machine.run (step notifying) (opened [1,0,2] .new) acceptThenFail).getD (opened [1,0,2] .new)

theorem notifiedRan :
    Machine.run (step notifying) (opened [1,0,2] .new) acceptThenFail = some notified := rfl

theorem coreGatingNotified :
    (journal notifying [1,0,2] .new acceptThenFail).filterMap Entry.reachedPlace = [1,2] ∧
    notified.event.seen = [] ++ (journal notifying [1,0,2] .new acceptThenFail).filterMap coreStart :=
  have gated := coreGating notifiedRan rfl
  ⟨gated.1.1,gated.2.2.2⟩

example : (marksOf (.foreground 2) (journal notifying [1,0,2] .new acceptThenFail)).filterMap call =
    [.onHasError,.onAccepted] := by decide

end Apixis.Gating
