import Apixis.Event.Countdown
import Apixis.Event.Notification

/-! Once a callback has been cancelled the notification loop calls every cancellation
hook of the chain's foreground handlers, one after the other, however the hooks end
and however often the task is cancelled again. -/
namespace Apixis.Cleanup
open Dispatch Cancellation Notification

variable {η κ : Type}

inductive Mark (η : Type) where
  | started (handler : η)
  | ended (handler : η)
  deriving DecidableEq, Repr

def hooked (flags : η → Flags) (handler : η) : Bool :=
  !(flags handler).background && (flags handler).onCancelled

def calls (flags : η → Flags) (chain : List η) : List (Mark η) :=
  (chain.filter (hooked flags)).flatMap (fun handler => [.started handler,.ended handler])

def awaited (s : Notification.State η κ) : List η := match s.dispatch.pc with
  | .notifying i => (s.dispatch.chain[i]?).toList
  | _ => []

/- A hook runs from when the task comes to await it until the await ends. -/
def marks (flags : η → Flags) (limited : η → Bool) (s : Notification.State η κ) :
    Notification.Action κ → List (Mark η)
  | .cleanup => match Notification.step flags limited s .cleanup with
      | some t => (awaited t).map .started
      | none => []
  | .hook _ => (awaited s).map .ended
  | _ => []

def result (s : Notification.State η κ) : Option (End κ) :=
  if s.escaped then some .escaped
  else match s.dispatch.pc with
    | .returned => some (.returned ())
    | .cancelled => s.error.map .cancelled
    | _ => none

/- A `CancelledError` that leaves a callback, other than by its own timeout alone. -/
def Struck (s : Notification.State η κ) (ended : End κ) (why : κ) : Prop :=
  ended = .cancelled why ∧
  ∀ scope, s.scope = some scope → scope.expiring = true → scope.cancelling + 1 < s.requests

/- What a dispatch may still use: its notification loop and its background tasks. -/
def late : Use η → Bool
  | .visit _ _ => false
  | .callback _ _ background => background
  | .clean _ _ | .backgroundCancelled _ => true

def cleans : Notification.Action κ → Bool
  | .cleanup | .hook _ => true
  | _ => false

/- Where the loop is, and the calls made until then. -/
inductive Told (flags : η → Flags) (chain : List η) : Pc → List (Mark η) → Prop where
  | cleanup {i : Nat} : Told flags chain (.cleanup i) (calls flags (chain.take i))
  | notifying {i : Nat} {handler : η} (found : chain[i]? = some handler)
      (hook : hooked flags handler = true) :
      Told flags chain (.notifying i) (calls flags (chain.take i) ++ [.started handler])
  | cancelled : Told flags chain .cancelled (calls flags chain)

structure Cleaning (flags : η → Flags) (m : Notification.State η κ) (why : κ)
    (acts : List (Notification.Action κ)) (made : List (Mark η)) (t : Notification.State η κ) : Prop where
  chain : t.dispatch.chain = m.dispatch.chain
  error : t.error = some why
  calm : t.escaped = false
  told : Told flags m.dispatch.chain t.dispatch.pc made
  errors : t.dispatch.event.errorStack = m.dispatch.event.errorStack
  tasks : t.dispatch.backgrounds.length = m.dispatch.backgrounds.length
  uses : ∃ more, t.dispatch.uses = m.dispatch.uses ++ more ∧ ∀ use ∈ more, late use = true
  bounded : acts.countP cleans + Countdown.placeLeft m.dispatch.chain.length t.dispatch.pc ≤
    2 * m.dispatch.chain.length + 1

variable {flags : η → Flags} {limited : η → Bool} {chain : List η} {handler : η} {why : κ}
  {m s t : Notification.State η κ} {a : Notification.Action κ}
  {acts : List (Notification.Action κ)} {made : List (Mark η)} {i : Nat}

theorem callsNext (flags : η → Flags) (found : chain[i]? = some handler) :
    calls flags (chain.take (i + 1)) =
      calls flags (chain.take i) ++ (if hooked flags handler then [.started handler,.ended handler] else []) := by
  have next : chain.take (i + 1) = chain.take i ++ [handler] := by
    rw [List.take_add_one,found]
    rfl
  unfold calls
  rw [next,List.filter_append,List.flatMap_append]
  congr 1
  by_cases hook : hooked flags handler = true
  · simp [hook]
  · simp [hook]

theorem callsPast (past : chain[i]? = none) : calls flags (chain.take i) = calls flags chain := by
  rw [List.take_of_length_le (List.getElem?_eq_none_iff.mp past)]

theorem toldPrefix {pc : Pc} (told : Told flags chain pc made) : made <+: calls flags chain := by
  have part : ∀ i, calls flags (chain.take i) <+: calls flags chain := by
    intro i
    have whole : calls flags chain = calls flags (chain.take i) ++ calls flags (chain.drop i) := by
      unfold calls
      rw [← List.flatMap_append,← List.filter_append,List.take_append_drop]
    exact ⟨_,whole.symm⟩
  cases told with
  | cleanup => exact part _
  | @notifying i handler found hook =>
    have next := part (i + 1)
    rw [callsNext flags found,if_pos hook] at next
    exact List.IsPrefix.trans ⟨[.ended handler],by simp⟩ next
  | cancelled => exact List.prefix_rfl

theorem strikes {ended : End κ} (taken : Notification.step flags limited s (.callback ended) = some m)
    (struck : Struck s ended why) : Cleaning flags m why [] [] m := by
  obtain ⟨rfl,own⟩ := struck
  have stays : (Notification.leave s.scope s.requests (.cancelled why)).2 = .cancelled why := by
    cases scope : s.scope with
    | none => rfl
    | some scope_ =>
      by_cases expiring : scope_.expiring = true
      · exact leaveOutside (own scope_ scope expiring)
      · simp [Notification.leave,Scope.leave,expiring]
  cases stepCases taken with
  | callback calm left_ seen inner =>
    rw [left_] at stays
    cases stays
    cases seen
    cases inner with
    | callback pc found settled =>
      cases settled
      exact ⟨rfl,rfl,calm,.cleanup,rfl,rfl,⟨[],by simp [State.await],by simp⟩,by simp [State.await,State.note,Next.foreground,Countdown.placeLeft]⟩
  | callbackEscapes calm left_ pc =>
    rw [left_] at stays
    cases stays

structure Aside (d d' : Dispatch.State η) : Prop where
  pc : d'.pc = d.pc
  chain : d'.chain = d.chain
  errors : d'.event.errorStack = d.event.errorStack
  tasks : d'.backgrounds.length = d.backgrounds.length
  uses : ∃ more, d'.uses = d.uses ++ more ∧ ∀ use ∈ more, late use = true

theorem asideRefl (d : Dispatch.State η) : Aside d d :=
  ⟨rfl,rfl,rfl,rfl,[],(List.append_nil _).symm,by simp⟩

theorem backgroundAside (d : Dispatch.State η) (options : Flags) (k : Nat) (task : Background η)
    (next : Next) : Aside d (d.backgroundNext options k task next) := by
  cases next with
  | go pc =>
    refine ⟨rfl,rfl,rfl,List.length_set,pc.use task.handler true,rfl,?_⟩
    cases pc with
    | gate => simp [ExecutePc.use]
    | calling phase parent => simp [ExecutePc.use,late]
  | finished => exact ⟨rfl,rfl,rfl,List.length_set,[],(List.append_nil _).symm,by simp⟩
  | cancelled =>
    simp only [State.backgroundNext]
    by_cases hook : options.onCancelled = true
    · simp only [hook,if_true]
      exact ⟨rfl,rfl,rfl,List.length_set,[.backgroundCancelled task.handler],rfl,by simp [late]⟩
    · simp only [hook]
      exact ⟨rfl,rfl,rfl,List.length_set,[],(List.append_nil _).symm,by simp⟩

theorem backgroundErrors {d : Dispatch.State η} {event : Event η} (options : Flags) (k : Nat)
    (task : Background η) (next : Next) (same : event.errorStack = d.event.errorStack) :
    Aside d ({d with event := event}.backgroundNext options k task next) := by
  have moved := backgroundAside {d with event := event} options k task next
  exact ⟨moved.pc,moved.chain,moved.errors.trans same,moved.tasks,moved.uses⟩

theorem asideStep {d d' : Dispatch.State η} {action : Dispatch.Action}
    (others : Notification.aside action = true) (taken : Dispatch.Step flags d action d') : Aside d d' := by
  cases taken with
  | accept => exact ⟨rfl,rfl,rfl,rfl,[],(List.append_nil _).symm,by simp⟩
  | backgroundBegin found pc => exact backgroundAside d _ _ _ _
  | backgroundGate found pc passed => exact backgroundErrors _ _ _ _ (passErrors passed)
  | backgroundCallback found pc settled =>
    exact backgroundErrors _ _ _ _ (congrArg Event.errorStack (settleEvent settled))
  | backgroundEnd found pc =>
    exact ⟨rfl,rfl,rfl,List.length_set,[],(List.append_nil _).symm,by simp⟩
  | _ => cases others

theorem cleaningAside (known : Cleaning flags m why acts made s) (aside_ : Aside s.dispatch t.dispatch)
    (error : t.error = s.error) (calm : t.escaped = s.escaped) (other : cleans a = false) :
    Cleaning flags m why (acts ++ [a]) (made ++ []) t := by
  obtain ⟨before,usedBefore,lateBefore⟩ := known.uses
  obtain ⟨more,used,lateMore⟩ := aside_.uses
  refine ⟨aside_.chain.trans known.chain,error.trans known.error,calm.trans known.calm,?_,
    aside_.errors.trans known.errors,aside_.tasks.trans known.tasks,⟨before ++ more,?_,?_⟩,?_⟩
  · rw [aside_.pc,List.append_nil]
    exact known.told
  · rw [used,usedBefore,List.append_assoc]
  · intro use member
    rcases List.mem_append.mp member with earlier | later
    · exact lateBefore use earlier
    · exact lateMore use later
  · rw [aside_.pc,List.countP_append,List.countP_singleton,if_neg (by simp [other])]
    exact known.bounded

theorem cleaningLoop {requests : Nat} {d : Dispatch.State η} {marked : List (Mark η)}
    (known : Cleaning flags m why acts made s) (same : d.chain = s.dispatch.chain)
    (event : d.event = s.dispatch.event) (tasks : d.backgrounds = s.dispatch.backgrounds)
    (uses : ∃ more, d.uses = s.dispatch.uses ++ more ∧ ∀ use ∈ more, late use = true)
    (told : Told flags m.dispatch.chain d.pc (made ++ marked))
    (nearer : Countdown.placeLeft m.dispatch.chain.length d.pc <
      Countdown.placeLeft m.dispatch.chain.length s.dispatch.pc) (own : cleans a = true) :
    Cleaning flags m why (acts ++ [a]) (made ++ marked)
      ({s with requests := requests}.await limited d) := by
  obtain ⟨before,usedBefore,lateBefore⟩ := known.uses
  obtain ⟨more,used,lateMore⟩ := uses
  refine ⟨same.trans known.chain,known.error,known.calm,told,
    (congrArg Event.errorStack event).trans known.errors,
    (congrArg List.length tasks).trans known.tasks,⟨before ++ more,?_,?_⟩,?_⟩
  · show d.uses = _
    rw [used,usedBefore,List.append_assoc]
  · intro use member
    rcases List.mem_append.mp member with earlier | later
    · exact lateBefore use earlier
    · exact lateMore use later
  · have spent := known.bounded
    rw [List.countP_append,List.countP_singleton,if_pos own]
    show _ + Countdown.placeLeft _ d.pc ≤ _
    omega

theorem cleaningStep (known : Cleaning flags m why acts made s) (contained : a ≠ .hook .escaped)
    (taken : Notification.step flags limited s a = some t) :
    Cleaning flags m why (acts ++ [a]) (made ++ marks flags limited s a) t := by
  have told := known.told
  have step_ := taken
  cases stepCases taken with
  | begin inner =>
    cases inner with | begin pc => rw [pc] at told; cases told
  | visit inner =>
    cases inner with
    | finish pc past => rw [pc] at told; cases told
    | hand pc found background => rw [pc] at told; cases told
    | enter pc found foreground => rw [pc] at told; cases told
  | gate inner => cases inner with | gate pc found passed => rw [pc] at told; cases told
  | kill inner => cases inner with | kill pc => rw [pc] at told; cases told
  | callback calm left_ seen inner =>
    cases inner with | callback pc found settled => rw [pc] at told; cases told
  | callbackEscapes calm left_ pc => rw [pc] at told; cases told
  | @hookEscapes ended requests i calm left_ pc =>
    have escapes : ended = .escaped := by
      cases scope : s.scope with
      | none =>
        rw [scope] at left_
        exact congrArg Prod.snd left_
      | some scope_ =>
        rw [scope] at left_
        exact leaveEscapes (congrArg Prod.snd left_)
    exact absurd (congrArg Notification.Action.hook escapes) contained
  | cancel => exact cleaningAside known (asideRefl _) rfl rfl rfl
  | uncancel => exact cleaningAside known (asideRefl _) rfl rfl rfl
  | expire open_ fresh => exact cleaningAside known (asideRefl _) rfl rfl rfl
  | aside others inner => exact cleaningAside known (asideStep others inner) rfl rfl rfl
  | @hook ended requests left d calm left_ contained_ inner =>
    cases inner with
    | @notified i pc =>
      rw [pc] at told
      cases told with
      | notifying found hook =>
        rename_i handler
        have here : marks flags limited s (.hook ended) = [.ended handler] := by
          simp [marks,awaited,pc,known.chain,found]
        refine cleaningLoop known rfl rfl rfl ⟨[],(List.append_nil _).symm,by simp⟩ ?_ ?_ rfl
        · have next := callsNext flags found
          rw [if_pos hook] at next
          rw [here,List.append_assoc]
          exact next ▸ .cleanup
        · rw [pc]
          simp only [Countdown.placeLeft]
          omega
  | cleanup inner =>
    cases inner with
    | @cleaned i pc past =>
      have here : marks flags limited s .cleanup = [] := by
        simp [marks,step_,awaited,State.await]
      rw [pc] at told
      cases told with
      | cleanup =>
        refine cleaningLoop known rfl rfl rfl ⟨[],(List.append_nil _).symm,by simp⟩ ?_ ?_ rfl
        · rw [here,List.append_nil,callsPast (known.chain ▸ past)]
          exact .cancelled
        · rw [pc]
          simp only [Countdown.placeLeft]
          omega
    | @notify i handler pc found foreground hook =>
      have here : marks flags limited s .cleanup = [.started handler] := by
        simp [marks,step_,awaited,State.await,State.note,found]
      have called : hooked flags handler = true := by simp [hooked,foreground,hook]
      rw [pc] at told
      cases told with
      | cleanup =>
        refine cleaningLoop known rfl rfl rfl ⟨_,rfl,by simp [late]⟩ ?_ ?_ rfl
        · rw [here]
          exact .notifying (known.chain ▸ found) called
        · have inside := Slots.inside found
          rw [known.chain] at inside
          rw [pc]
          simp only [State.note,Countdown.placeLeft]
          omega
    | @skip i handler pc found silent =>
      have here : marks flags limited s .cleanup = [] := by
        simp [marks,step_,awaited,State.await,State.note]
      have passed : hooked flags handler = false := by
        rcases silent with background | none_
        · simp [hooked,background]
        · simp [hooked,none_]
      rw [pc] at told
      cases told with
      | cleanup =>
        refine cleaningLoop known rfl rfl rfl ⟨_,rfl,by simp [late]⟩ ?_ ?_ rfl
        · have next := callsNext flags (known.chain ▸ found)
          rw [passed] at next
          simp only [Bool.false_eq_true,if_false,List.append_nil] at next
          rw [here,List.append_nil,← next]
          exact .cleanup
        · have inside := Slots.inside found
          rw [known.chain] at inside
          rw [pc]
          simp only [State.note,Countdown.placeLeft]
          omega

def journal (flags : η → Flags) (limited : η → Bool) (m : Notification.State η κ)
    (acts : List (Notification.Action κ)) : List (Mark η) :=
  Machine.journal (Notification.step flags limited) (marks flags limited) m acts

theorem cleaningRun (start : Cleaning flags m why [] [] m) (contained : ∀ a ∈ acts, a ≠ .hook .escaped)
    (ran : Machine.run (Notification.step flags limited) m acts = some t) :
    Cleaning flags m why acts (journal flags limited m acts) t := by
  induction acts using List.reverseRecOn generalizing t with
  | nil =>
    cases Option.some.inj ran
    exact start
  | append_singleton acts a ih =>
    obtain ⟨n,before,taken⟩ := Machine.runSnoc.mp ran
    have known := ih (fun b member => contained b (List.mem_append_left _ member)) before
    have own : a ≠ .hook .escaped := contained a (List.mem_append_right _ (List.mem_singleton_self a))
    have next := cleaningStep known own taken
    unfold journal at next ⊢
    rw [Machine.journalSnoc before]
    exact next

theorem chainFixed (taken : Notification.step flags limited s a = some t) :
    t.dispatch.chain = s.dispatch.chain := by
  cases Notification.stepCases taken with
  | begin inner => exact chainKept inner
  | visit inner => exact chainKept inner
  | gate inner => exact chainKept inner
  | cleanup inner => exact chainKept inner
  | kill inner => exact chainKept inner
  | callback calm left_ seen inner => exact chainKept inner
  | hook calm left_ contained inner => exact chainKept inner
  | aside others inner => exact chainKept inner
  | callbackEscapes calm left_ pc => rfl
  | hookEscapes calm left_ pc => rfl
  | cancel => rfl
  | uncancel => rfl
  | expire open_ fresh => rfl

/- Until it has ended the loop can always go on, or a hook can end, however it does. -/
theorem goesOn (known : Cleaning flags m why acts made t) :
    t.dispatch.pc = .cancelled ∨
    (∃ u, Notification.step flags limited t .cleanup = some u) ∨
    (awaited t ≠ [] ∧ ∀ ended, ∃ u, Notification.step flags limited t (.hook ended) = some u) := by
  have told := known.told
  generalize at_ : t.dispatch.pc = pc at told
  cases told with
  | cancelled => exact .inl rfl
  | @cleanup i =>
    refine .inr (.inl ?_)
    simp only [Notification.step,Dispatch.step,at_]
    cases t.dispatch.chain[i]? with
    | none => exact ⟨_,rfl⟩
    | some handler =>
      simp only
      split <;> exact ⟨_,rfl⟩
  | notifying found hook =>
    refine .inr (.inr ⟨?_,?_⟩)
    · simp [awaited,at_,known.chain,found]
    · intro ended
      simp only [Notification.step,known.calm,Dispatch.step,at_]
      cases contain (Notification.leave t.scope t.requests ended).2 <;> exact ⟨_,rfl⟩

theorem resultCleaning (known : Cleaning flags m why acts made t) {ended : End κ}
    (over_ : result t = some ended) : t.dispatch.pc = .cancelled ∧ ended = .cancelled why := by
  have told := known.told
  unfold result at over_
  rw [known.calm] at over_
  generalize at_ : t.dispatch.pc = pc at told over_
  cases told with
  | cleanup => cases over_
  | notifying found hook => cases over_
  | cancelled =>
    rw [known.error] at over_
    cases over_
    exact ⟨rfl,rfl⟩

/- The callback of a foreground handler ends with a `CancelledError`; what follows is
any run in which no hook raises what is neither that nor an `Exception`. -/
theorem complete {before : List (Notification.Action κ)} {ended : End κ}
    (reached : Machine.run (Notification.step flags limited) (Notification.initial chain) before = some s)
    (taken : Notification.step flags limited s (.callback ended) = some m) (struck : Struck s ended why)
    (contained : ∀ a ∈ acts, a ≠ .hook .escaped)
    (ran : Machine.run (Notification.step flags limited) m acts = some t) :
    journal flags limited m acts <+: calls flags chain ∧
    (∀ ended, result t = some ended →
      journal flags limited m acts = calls flags chain ∧ ended = .cancelled why) ∧
    (result t = some (.cancelled why) ∨
      (∃ u, Notification.step flags limited t .cleanup = some u) ∨
      (awaited t ≠ [] ∧ ∀ ended, ∃ u, Notification.step flags limited t (.hook ended) = some u)) ∧
    acts.countP cleans ≤ 2 * chain.length + 1 ∧
    (∃ more, t.dispatch.uses = m.dispatch.uses ++ more ∧ ∀ use ∈ more, late use = true) ∧
    t.dispatch.backgrounds.length = m.dispatch.backgrounds.length ∧
    t.dispatch.event.errorStack = m.dispatch.event.errorStack := by
  have known := cleaningRun (strikes taken struck) contained ran
  have same : m.dispatch.chain = chain := by
    rw [chainFixed taken]
    exact Machine.invariant (P := fun s => s.dispatch.chain = chain)
      (fun s a t at_ taken => (chainFixed taken).trans at_) rfl reached
  have order := toldPrefix known.told
  have spent := known.bounded
  rw [same] at order spent
  refine ⟨order,?_,?_,by omega,known.uses,known.tasks,known.errors⟩
  · intro ended over_
    obtain ⟨at_,rfl⟩ := resultCleaning known over_
    have told := known.told
    rw [at_,same] at told
    generalize made_ : journal flags limited m acts = made at told
    cases told
    exact ⟨rfl,rfl⟩
  · refine (goesOn known).imp_left ?_
    intro at_
    simp [result,known.calm,at_,known.error]

def hooks : Nat → Flags
  | 1 => ⟨true,false,false,false,true,true⟩
  | _ => ⟨false,true,false,false,true,true⟩

def untilCancelled : List (Notification.Action Nat) :=
  [.begin,.visit,.gate,.callback (.returned ()),.visit,.visit,.gate,.cancel]

def cancelling : Notification.State Nat Nat :=
  (Machine.run (Notification.step hooks (fun _ => true)) (Notification.initial [0,1,2,3])
    untilCancelled).getD (Notification.initial [0,1,2,3])

def cancelled : Notification.State Nat Nat :=
  (Notification.step hooks (fun _ => true) cancelling (.callback (.cancelled 7))).getD cancelling

/- The first hook runs into its timeout, the second is cancelled again, the third fails. -/
def misbehaving : List (Notification.Action Nat) :=
  [.cleanup,.expire,.hook (.cancelled 8),.cleanup,.cleanup,.cancel,.hook (.cancelled 9),.cleanup,
    .hook (.raised ()),.cleanup]

def notified : Notification.State Nat Nat :=
  (Machine.run (Notification.step hooks (fun _ => true)) cancelled misbehaving).getD cancelled

theorem completeMisbehaving :
    journal hooks (fun _ => true) cancelled misbehaving = calls hooks [0,1,2,3] ∧
    notified.dispatch.event.errorStack = cancelled.dispatch.event.errorStack :=
  have all := @complete Nat Nat hooks (fun _ => true) [0,1,2,3] 7 cancelled cancelling notified misbehaving
    untilCancelled (.cancelled 7) rfl rfl
    ⟨rfl,fun scope open_ expiring => by cases Option.some.inj open_; cases expiring⟩ (by decide) rfl
  ⟨(all.2.1 (.cancelled 7) rfl).1,all.2.2.2.2.2.2⟩

def handedOn : List (Notification.Action Nat) := [.aside (.backgroundBegin 0),.aside (.backgroundGate 0)]

/- A background task starts its core after the cancellation, and a hook that raises
what is no `Exception` is the last one called. -/
theorem backgroundCoreAfter :
    (∃ t, Machine.run (Notification.step hooks (fun _ => true)) cancelled handedOn = some t ∧
      t.dispatch.uses.drop cancelled.dispatch.uses.length = [.callback 1 .coreFunc true]) ∧
    (∃ u, Machine.run (Notification.step hooks (fun _ => true)) cancelled [.cleanup,.hook .escaped] =
        some u ∧ result u = some .escaped ∧
      journal hooks (fun _ => true) cancelled [.cleanup,.hook .escaped] = [.started 0,.ended 0]) :=
  ⟨⟨_,rfl,rfl⟩,_,rfl,rfl,rfl⟩

end Apixis.Cleanup
