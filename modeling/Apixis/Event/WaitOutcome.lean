import Apixis.Event.EventWaiter

/-! What a `wait_for_event` context comes to: the first delivery, expiry, cancelled
wait or exit decides, and nothing that follows changes it. -/
namespace Apixis.WaitOutcome
open HandlerRegistry Cancellation EventWaiter

variable {ε : Type}

inductive Mark (ε : Type) where
  | event (event : ε)
  /- A delivery once the deadline has been reached. -/
  | late
  | timer
  | cancelled
  | exited
  deriving DecidableEq, Repr

def marks (s : State ε) : EventWaiter.Action ε → List (Mark ε)
  | .deliver _ event => if s.waiter.reached s.now then [.late] else [.event event]
  | .timer => [.timer]
  | .cancelWait i => if (s.waits[i]?).any Wait.isAwaiting then [.cancelled] else []
  | .exit => [.exited]
  | _ => []

def decided : List (Mark ε) → Promise Error ε
  | [] => .pending
  | .event event :: _ => .result event
  | .late :: _ => .exception timedOut
  | .timer :: _ => .exception timedOut
  | .cancelled :: _ => .cancelled
  | .exited :: _ => .cancelled

section Decided
variable {made more : List (Mark ε)} {mark : Mark ε}

theorem decidedDone (some_ : made ≠ []) : (decided made).done = true := by
  cases made with
  | nil => exact absurd rfl some_
  | cons mark rest => cases mark <;> rfl

theorem decidedAppend (some_ : made ≠ []) : decided (made ++ more) = decided made := by
  cases made with
  | nil => exact absurd rfl some_
  | cons mark rest => cases mark <;> rfl

end Decided

/- How a call of `wait()` stands to the future it waits for. -/
def Answers (future : Promise Error ε) (wait : Wait ε) (ended : End ε) : Prop :=
  retrieved future = some ended ∨ (ended = .cancelled () ∧ 0 < wait.task.requests)

structure Sound (future : Promise Error ε) (wait : Wait ε) : Prop where
  asked : wait.task.mustCancel = true → 0 < wait.task.requests
  answered : match wait.pc with
    | .awaiting => True
    | .leaving ended => Answers future wait ended
    | .ended ended => Answers future wait ended ∨ ended = .raised alreadyExited

structure Kept (fnmatchcase : String → String → Bool) (made : List (Mark ε)) (s : State ε) : Prop where
  future : s.waiter.future = decided made
  raised : s.raised = []
  closed : s.waiter.closed = true → s.waiter.timer ≠ .armed ∧ made ≠ []
  coherent : ChainCache.Coherent fnmatchcase s.registry
  waits : ∀ (i : Nat) wait, s.waits[i]? = some wait → Sound s.waiter.future wait

section Step
variable {fnmatchcase : String → String → Bool} {resolution : ℚ} {name : String} {s t : State ε}
  {a : EventWaiter.Action ε} {made : List (Mark ε)} {wait : Wait ε} {ended : End ε}
  {future after : Promise Error ε}

theorem retrievedDone (has : retrieved future = some ended) : future.done = true := by
  cases future with
  | pending => cases has
  | _ => rfl

theorem soundAfter (kept : future.done = true → after = future) (sound : Sound future wait) :
    Sound after wait := by
  have answers : ∀ ended, Answers future wait ended → Answers after wait ended := by
    intro ended answered
    refine answered.imp_left ?_
    intro has
    rw [kept (retrievedDone has)]
    exact has
  refine ⟨sound.asked,?_⟩
  have answered := sound.answered
  cases pc : wait.pc with
  | awaiting => trivial
  | leaving ended =>
    rw [pc] at answered
    exact answers ended answered
  | ended ended =>
    rw [pc] at answered
    exact answered.imp_left (answers ended)

/- Nobody's callback raises: the future is settled only where it is open. -/
theorem expireCases (self : Waiter ε) : ∃ waiter, self.expire = .ok waiter ∧
    waiter.timer = self.timer ∧ waiter.closed = self.closed ∧ waiter.deadline = self.deadline ∧
    waiter.future = if self.future.done then self.future else .exception timedOut := by
  unfold Waiter.expire
  cases done : self.future.done with
  | true => exact ⟨self,rfl,rfl,rfl,rfl,rfl⟩
  | false =>
    refine ⟨{self with future := .exception timedOut},?_,rfl,rfl,rfl,rfl⟩
    simp only [Bool.not_false,if_true,Waiter.set,Promise.settleOpen done]

theorem resolveCases (self : Waiter ε) (time : ℚ) (event : ε) : ∃ waiter,
    self.resolve time event = .ok waiter ∧ (self.timer ≠ .armed → waiter.timer ≠ .armed) ∧
    waiter.closed = self.closed ∧ waiter.deadline = self.deadline ∧
    waiter.future = if self.future.done then self.future
      else if self.reached time then .exception timedOut else .result event := by
  unfold Waiter.resolve
  cases done : self.future.done with
  | true => exact ⟨self,rfl,id,rfl,rfl,rfl⟩
  | false =>
    cases late : self.reached time with
    | true =>
      obtain ⟨waiter,expired,timer,closed,deadline,future⟩ := expireCases self
      rw [done] at future
      exact ⟨waiter,expired,timer ▸ id,closed,deadline,future⟩
    | false =>
      refine ⟨{self with timer := self.timer.cancel, future := .result event},?_,?_,rfl,rfl,rfl⟩
      · simp only [Bool.false_eq_true,if_false,Waiter.set,Promise.settleOpen done]
      · intro unarmed
        cases timer : self.timer with
        | armed => exact absurd timer unarmed
        | _ => exact fun at_ => by cases at_

theorem runResolves (self : Waiter ε) (callback : EventWaiter.Callback) : callback.run self = self.resolve := by
  cases callback <;> rfl

theorem decidedNext {mark : Mark ε} {value : Promise Error ε} (same : future = decided made)
    (own : decided [mark] = value) :
    (if future.done then future else value) = decided (made ++ [mark]) := by
  by_cases first : made = []
  · subst first
    rw [same,List.nil_append,own]
    rfl
  · rw [decidedAppend first,same,decidedDone first,if_pos rfl]

theorem cancelNext (mark : Mark ε) (same : future = decided made) (own : decided [mark] = .cancelled) :
    future.cancel = decided (made ++ [mark]) := decidedNext same own

theorem futureKept {more : List (Mark ε)} (same : future = decided made)
    (next : after = decided (made ++ more)) (done : future.done = true) : after = future := by
  have first : made ≠ [] := by
    rintro rfl
    rw [same] at done
    cases done
  rw [next,decidedAppend first,same]

theorem waitsSet {i : Nat} (more : List (Mark ε)) (kept : Kept fnmatchcase made s)
    (next : after = decided (made ++ more)) (own : Sound after wait) :
    ∀ (j : Nat) other, (s.waits.set i wait)[j]? = some other → Sound after other := by
  intro j other there
  rcases Slots.setCases there with ⟨_,rfl⟩ | ⟨_,old⟩
  · exact own
  · exact soundAfter (futureKept kept.future next) (kept.waits j other old)

theorem resumeSound (asked : wait.task.mustCancel = true → 0 < wait.task.requests)
    (answered : Answers future wait ended) :
    ((wait.task.resume () ended).1.mustCancel = true → 0 < (wait.task.resume () ended).1.requests) ∧
    ∀ pc, Answers future ⟨pc,(wait.task.resume () ended).1⟩ (wait.task.resume () ended).2 := by
  refine ⟨?_,fun pc => ?_⟩
  · intro struck
    rw [resumeKept] at struck
    cases struck
  · cases struck : wait.task.mustCancel with
    | false =>
      rw [resumeClear struck]
      exact answered
    | true =>
      obtain ⟨own,same⟩ := resumeStruck struck () ended
      refine .inr ⟨same,?_⟩
      rw [resumeRequests]
      exact asked struck

theorem keptWait {i : Nat} (kept : Kept fnmatchcase made s) (own : Sound s.waiter.future wait) :
    Kept fnmatchcase (made ++ []) (s.setWait i wait) := by
  rw [List.append_nil]
  refine ⟨kept.future,kept.raised,kept.closed,kept.coherent,?_⟩
  exact waitsSet [] kept (by rw [List.append_nil]; exact kept.future) own

theorem unregistered (kept : Kept fnmatchcase made s) (name : String) :
    ∃ r, unregisterHandler fnmatchcase s.registry name true = .ok r ∧
      ChainCache.Removed fnmatchcase s.registry r name := by
  rcases ChainCache.unregisterCases kept.coherent name true with removed | ⟨impossible,_⟩
  · exact removed
  · cases impossible

theorem keptStep (kept : Kept fnmatchcase made s)
    (taken : EventWaiter.step fnmatchcase resolution name s a = some t) :
    Kept fnmatchcase (made ++ marks s a) t := by
  cases EventWaiter.stepCases taken with
  | @deliver callback event =>
    rw [runResolves]
    obtain ⟨waiter,ran,timer,closed,_,future⟩ := resolveCases s.waiter s.now event
    have next : waiter.future = decided (made ++ marks s (.deliver callback event)) := by
      rw [future]
      cases late : s.waiter.reached s.now with
      | true =>
        simp only [marks,late,if_true]
        exact decidedNext kept.future rfl
      | false =>
        simp only [marks,late]
        exact decidedNext kept.future rfl
    rw [ran]
    refine ⟨next,kept.raised,?_,kept.coherent,?_⟩
    · intro exited
      obtain ⟨unarmed,some_⟩ := kept.closed (closed ▸ exited)
      exact ⟨timer unarmed,fun empty => some_ (List.append_eq_nil_iff.mp empty).1⟩
    · intro i wait there
      exact soundAfter (futureKept kept.future next) (kept.waits i wait there)
  | tick =>
    simp only [marks,List.append_nil]
    exact ⟨kept.future,kept.raised,kept.closed,kept.coherent,kept.waits⟩
  | timer =>
    obtain ⟨waiter,ran,timer,closed,_,future⟩ := expireCases {s.waiter with timer := .fired}
    have next : waiter.future = decided (made ++ [.timer]) := future.trans (decidedNext kept.future rfl)
    rw [ran]
    refine ⟨next,kept.raised,?_,kept.coherent,?_⟩
    · intro exited
      refine ⟨?_,by simp [marks]⟩
      show waiter.timer ≠ .armed
      rw [timer]
      exact fun at_ => by cases at_
    · intro i wait there
      exact soundAfter (futureKept kept.future next) (kept.waits i wait there)
  | wait begun =>
    simp only [marks,List.append_nil]
    refine ⟨kept.future,kept.raised,kept.closed,kept.coherent,?_⟩
    intro i wait there
    rcases Slots.appendCases there with ⟨_,rfl⟩ | old
    · refine ⟨fun struck => (by cases struck),?_⟩
      rw [begun]
      cases closed : s.waiter.closed with
      | true => exact .inr rfl
      | false =>
        cases has : retrieved s.waiter.future with
        | none => trivial
        | some ended => exact .inl has
    · exact kept.waits i wait old
  | @cancelAwaiting i wait there pc =>
    have marked : marks s (.cancelWait i) = [.cancelled] := by
      simp [marks,there,Wait.isAwaiting,pc]
    have next := cancelNext .cancelled kept.future rfl
    rw [marked]
    refine ⟨next,kept.raised,?_,kept.coherent,?_⟩
    · intro exited
      exact ⟨(kept.closed exited).1,by simp⟩
    · refine waitsSet [.cancelled] kept next ⟨fun _ => Nat.succ_pos _,?_⟩
      simp only [pc]
  | @cancelLeaving i wait ended there pc =>
    have marked : marks s (.cancelWait i) = [] := by
      simp [marks,there,Wait.isAwaiting,pc]
    have answered := (kept.waits i wait there).answered
    rw [marked]
    refine keptWait kept ⟨fun _ => Nat.succ_pos _,?_⟩
    simp only [pc] at answered ⊢
    exact answered.imp_right (fun both => ⟨both.1,Nat.succ_pos _⟩)
  | @resume i wait _ there _ has =>
    obtain ⟨asked,answers⟩ := resumeSound (kept.waits i wait there).asked (.inl has)
    exact keptWait kept ⟨asked,answers _⟩
  | @left i wait _ there pc =>
    have sound := kept.waits i wait there
    have answered := sound.answered
    rw [pc] at answered
    obtain ⟨asked,answers⟩ := resumeSound sound.asked answered
    exact keptWait kept ⟨asked,.inl (answers _)⟩
  | exit on removed =>
    obtain ⟨r,removed',without⟩ := unregistered kept name
    cases Except.ok.inj (removed.symm.trans removed')
    have next := cancelNext .exited kept.future rfl
    refine ⟨next,kept.raised,?_,without.coherent,?_⟩
    · intro _
      refine ⟨?_,by simp [marks]⟩
      show s.waiter.timer.cancel ≠ .armed
      cases s.waiter.timer <;> exact fun at_ => by cases at_
    · intro i wait there
      exact soundAfter (futureKept kept.future next) (kept.waits i wait there)
  | exitRaised on failed =>
    obtain ⟨r,removed,_⟩ := unregistered kept name
    cases failed.symm.trans removed
  | registry moved =>
    simp only [marks,List.append_nil]
    exact ⟨kept.future,kept.raised,kept.closed,ChainCache.stepCoherent kept.coherent moved,kept.waits⟩

end Step

section Run
variable {fnmatchcase : String → String → Bool} {resolution : ℚ} {name : String} {s m t : State ε}
  {acts first second : List (EventWaiter.Action ε)} {made : List (Mark ε)} {registry : Registry} {time : ℚ}
  {eventName : String} {point : Point} {filter : Patterns} {timeOut : Option ℚ}

def journal (fnmatchcase : String → String → Bool) (resolution : ℚ) (name : String) (s : State ε)
    (acts : List (EventWaiter.Action ε)) : List (Mark ε) :=
  Machine.journal (EventWaiter.step fnmatchcase resolution name) marks s acts

theorem keptRun (start : Kept fnmatchcase made s)
    (ran : Machine.run (EventWaiter.step fnmatchcase resolution name) s acts = some t) :
    Kept fnmatchcase (made ++ journal fnmatchcase resolution name s acts) t := by
  induction acts generalizing s made with
  | nil =>
    cases Option.some.inj ran
    rw [journal,Machine.journalNil,List.append_nil]
    exact start
  | cons a rest ih =>
    obtain ⟨m,taken,last⟩ := Machine.runCons.mp ran
    have next := ih (keptStep start taken) last
    simp only [journal,Machine.journal,taken] at next ⊢
    rw [← List.append_assoc]
    exact next

theorem enterKept (coherent : ChainCache.Coherent fnmatchcase registry)
    (entered : enter fnmatchcase name registry time eventName point filter timeOut = .ok s) :
    Kept fnmatchcase [] s := by
  unfold enter at entered
  obtain ⟨r,registered,last⟩ := PyError.bindOk.mp entered
  cases last
  have grown := ChainCache.allocatedCoherent coherent
    (waitHandler name eventName point filter registry.heap.length)
  have kept := ChainCache.registerKeeps grown registry.heap.length true
  rw [ChainCache.Keeps,registered] at kept
  refine ⟨?_,rfl,?_,kept,?_⟩
  · cases timeOut <;> rfl
  · intro closed
    cases timeOut <;> cases closed
  · intro i wait there
    cases there

theorem clockStep {a : EventWaiter.Action ε}
    (taken : EventWaiter.step fnmatchcase resolution name s a = some t) :
    t.waiter.deadline = s.waiter.deadline ∧ s.now ≤ t.now := by
  cases EventWaiter.stepCases taken with
  | @deliver callback event =>
    rw [runResolves]
    obtain ⟨waiter,ran,_,_,deadline,_⟩ := resolveCases s.waiter s.now event
    rw [ran]
    exact ⟨deadline,le_refl _⟩
  | tick forward => exact ⟨rfl,le_add_of_nonneg_right forward⟩
  | timer =>
    obtain ⟨waiter,ran,_,_,deadline,_⟩ := expireCases {s.waiter with timer := .fired}
    rw [ran]
    exact ⟨deadline,le_refl _⟩
  | _ => exact ⟨rfl,le_refl _⟩

theorem reachedStep {a : EventWaiter.Action ε}
    (taken : EventWaiter.step fnmatchcase resolution name s a = some t)
    (late : s.waiter.reached s.now = true) : t.waiter.reached t.now = true := by
  obtain ⟨same,forward⟩ := clockStep taken
  unfold Waiter.reached at late ⊢
  rw [same]
  cases deadline : s.waiter.deadline with
  | none => rw [deadline] at late; cases late
  | some deadline_ =>
    rw [deadline] at late
    exact decide_eq_true (le_trans (of_decide_eq_true late) forward)

theorem lateRun (late : s.waiter.reached s.now = true)
    (ran : Machine.run (EventWaiter.step fnmatchcase resolution name) s acts = some t) (event : ε) :
    .event event ∉ journal fnmatchcase resolution name s acts := by
  induction acts generalizing s with
  | nil => exact List.not_mem_nil
  | cons a rest ih =>
    obtain ⟨m,taken,last⟩ := Machine.runCons.mp ran
    have later := ih (reachedStep taken late) last
    simp only [journal,Machine.journal,taken] at later ⊢
    intro member
    rcases List.mem_append.mp member with here | there
    · cases a with
      | deliver callback other => simp [marks,late] at here
      | cancelWait i =>
        simp only [marks] at here
        split at here <;> simp at here
      | _ => simp [marks] at here
    · exact later there

theorem decidedEvent {event : ε} (result : decided made = .result event) : .event event ∈ made := by
  cases made with
  | nil => cases result
  | cons mark rest =>
    cases mark with
    | event other =>
      cases result
      exact List.mem_cons_self
    | _ => cases result

/- A result that is held is what the next `wait()` returns, however late. -/
theorem waitReturns {event : ε} (held : t.waiter.future = .result event) (on : t.waiter.closed = false) :
    ∃ u task, Machine.run (EventWaiter.step fnmatchcase resolution name) t [.wait,.left t.waits.length] =
      some u ∧ u.waits[t.waits.length]? = some ⟨.ended (.returned event),task⟩ := by
  let called : State ε := {t with waits := t.waits ++ [⟨.leaving (.returned event),⟨0,false⟩⟩]}
  have there : called.waits[t.waits.length]? = some ⟨.leaving (.returned event),⟨0,false⟩⟩ :=
    Slots.appendNew
  have calls : EventWaiter.step fnmatchcase resolution name t .wait = some called := by
    simp only [EventWaiter.step,on,held,retrieved]
    rfl
  have leaves : EventWaiter.step fnmatchcase resolution name called (.left t.waits.length) =
      some (called.setWait t.waits.length ⟨.ended (.returned event),⟨0,false⟩⟩) := by
    simp only [EventWaiter.step,there]
    rfl
  refine ⟨_,⟨0,false⟩,Machine.runCons.mpr ⟨called,calls,Machine.runCons.mpr ⟨_,leaves,rfl⟩⟩,?_⟩
  exact Slots.setSame there

theorem exitUnregisters (kept : Kept fnmatchcase made t) {u : State ε}
    (taken : EventWaiter.step fnmatchcase resolution name t .exit = some u) :
    u.registry.registry.get name = none ∧ u.waiter.closed = true := by
  obtain ⟨r,removed,without⟩ := unregistered kept name
  cases EventWaiter.stepCases taken with
  | exit on removed' =>
    cases Except.ok.inj (removed'.symm.trans removed)
    exact ⟨by rw [without.registry,if_pos rfl],rfl⟩
  | exitRaised on failed => cases failed.symm.trans removed

/- The outcome of a context, whatever the order of everything that may happen. -/
theorem waiterOutcome {before : List HandlerRegistry.Action}
    (lived : Machine.run (HandlerRegistry.step fnmatchcase) HandlerRegistry.initial before = some registry)
    (entered : enter fnmatchcase name registry time eventName point filter timeOut = .ok s)
    (ran : Machine.run (EventWaiter.step fnmatchcase resolution name) s acts = some t) :
    t.waiter.future = decided (journal fnmatchcase resolution name s acts) ∧ t.raised = [] ∧
    (∀ first second m, acts = first ++ second →
      Machine.run (EventWaiter.step fnmatchcase resolution name) s first = some m →
      (m.waiter.future.done = true → t.waiter.future = m.waiter.future) ∧
      (m.waiter.future.done = false → m.waiter.reached m.now = true →
        ∀ event, t.waiter.future ≠ .result event)) ∧
    (∀ (i : Nat) wait ended, t.waits[i]? = some wait → wait.pc = .ended ended →
      Answers t.waiter.future wait ended ∨ ended = .raised alreadyExited) ∧
    (∀ event, t.waiter.future = .result event → t.waiter.closed = false → ∃ u task,
      Machine.run (EventWaiter.step fnmatchcase resolution name) t [.wait,.left t.waits.length] = some u ∧
      u.waits[t.waits.length]? = some ⟨.ended (.returned event),task⟩) ∧
    (∀ u, EventWaiter.step fnmatchcase resolution name t .exit = some u →
      u.registry.registry.get name = none ∧ u.waiter.closed = true) ∧
    (t.waiter.closed = true → t.waiter.timer ≠ .armed ∧ t.waiter.future.done = true ∧
      ∀ u, EventWaiter.step fnmatchcase resolution name t .wait = some u →
        u.waits[t.waits.length]? = some ⟨.ended (.raised alreadyExited),⟨0,false⟩⟩) := by
  have start := enterKept (ChainCache.runCoherent lived) entered
  have kept := keptRun start ran
  rw [List.nil_append] at kept
  refine ⟨kept.future,kept.raised,?_,?_,fun event held on => waitReturns held on,
    fun u taken => exitUnregisters kept taken,?_⟩
  · rintro first second m rfl early
    have there := keptRun start early
    rw [List.nil_append] at there
    obtain ⟨m',reached_,later⟩ := Machine.runAppend.mp ran
    cases Option.some.inj (early.symm.trans reached_)
    have whole : journal fnmatchcase resolution name s (first ++ second) =
        journal fnmatchcase resolution name s first ++ journal fnmatchcase resolution name m second :=
      Machine.journalAppend early
    refine ⟨fun done => futureKept there.future (kept.future.trans (by rw [whole])) done,?_⟩
    intro waits late event held
    have none_ : journal fnmatchcase resolution name s first = [] := by
      by_contra some_
      rw [there.future,decidedDone some_] at waits
      cases waits
    rw [kept.future,whole,none_,List.nil_append] at held
    exact lateRun late later event (decidedEvent held)
  · intro i wait ended there pc
    have answered := (kept.waits i wait there).answered
    rw [pc] at answered
    exact answered
  · intro closed
    obtain ⟨unarmed,some_⟩ := kept.closed closed
    refine ⟨unarmed,by rw [kept.future]; exact decidedDone some_,?_⟩
    intro u taken
    cases Option.some.inj taken
    simp [closed]

end Run

/- A reply in time; the deadline passes before anybody waits for it, and again. -/
def registered : State Nat :=
  ((enter ChainCache.exactly "resolve_future-0" HandlerRegistry.initial 0 "job" .processed .none
    (some 1)).toOption).getD ⟨HandlerRegistry.initial,0,.new,[],[]⟩

def replied : List (EventWaiter.Action Nat) :=
  [.tick (1 / 2),.deliver .onHasError 7,.tick 3,.wait,.deliver .coreFunc 8,.left 0,.exit,.wait]

def afterReply : State Nat :=
  (Machine.run (EventWaiter.step ChainCache.exactly 0 "resolve_future-0") registered replied).getD registered

theorem registeredEntered : enter ChainCache.exactly "resolve_future-0" HandlerRegistry.initial 0 "job" .processed
    .none (some 1) = .ok registered := rfl

theorem repliedRan : Machine.run (EventWaiter.step ChainCache.exactly 0 "resolve_future-0") registered replied =
    some afterReply := by decide +kernel

theorem waiterOutcomeReplied : afterReply.waiter.future = .result 7 ∧ afterReply.raised = [] :=
  have outcome := @waiterOutcome Nat ChainCache.exactly 0 "resolve_future-0" registered afterReply replied
    HandlerRegistry.initial 0 "job" .processed .none (some 1) [] rfl registeredEntered repliedRan
  ⟨outcome.1.trans (by decide +kernel),outcome.2.1⟩

/- The deadline is reached first, and the context is left before the timer can fire. -/
theorem exitAfterDeadline :
    (Machine.run (EventWaiter.step ChainCache.exactly 0 "resolve_future-0") registered [.tick 2]).map
      (fun m => (m.waiter.future.done,m.waiter.reached m.now)) = some (false,true) ∧
    (Machine.run (EventWaiter.step ChainCache.exactly 0 "resolve_future-0") registered [.tick 2,.exit]).map
      (fun t => t.waiter.future) = some .cancelled := by decide +kernel

end Apixis.WaitOutcome
