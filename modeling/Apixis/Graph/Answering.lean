import Apixis.Graph.Interruption

/-! No interruption is left unanswered: until the fallback handler has had its turn,
its turn is still to come, and whichever callback of it is called leaves the block
done or accepted, or finds that the invocation has ended. -/
namespace Apixis.Answering
open Dispatch Interruption

variable {V η : Type} {w t : Interruption.World V η} {c i : Nat}

/- Nobody waits for ever: the block is done, somebody has taken it over, or the
context that emitted it is not running. -/
def Answered (w : Interruption.World V η) (c : Nat) : Prop :=
  w.block.done = true ∨ w.block.accepted = true ∨
    ∀ context, w.graphs.contexts[c]? = some context → context.isActive = false

/- Where the dispatch is while the fallback handler at place `i` has yet to be called. -/
def Due (i : Nat) (s : Dispatch.State (Interruption.Handler η)) : Prop := match s.pc with
  | .created => True
  | .visit k => k ≤ i
  | .execute k pc => k < i ∨ k = i ∧ match pc with
      | .gate => s.event.hasError = false
      | .calling phase _ => phase ≠ .onError
  | .cleanup k => k ≤ i
  | .notifying k => k ≤ i
  | .returned => False
  | .cancelled => False

section Block
variable {block : Block V η}

theorem settleDone (block : Block V η) {value : Interruption.Future V η} (settled : value ≠ .pending) :
    (block.settle value).done = true := by
  unfold Block.settle
  split
  · assumption
  · cases value with
    | pending => exact absurd rfl settled
    | result value => rfl
    | exception error => rfl
    | cancelled => rfl

theorem failDone (block : Block V η) (error : Failure η) : (block.fail error).done = true :=
  settleDone block (by simp)

theorem acceptedDone (block : Block V η) : (onAccepted block).done = true := by
  unfold onAccepted
  split
  · exact settleDone block (by simp)
  · rename_i done
    simpa using done

structure Keeps (before after : Block V η) : Prop where
  done : before.done = true → after.done = true
  accepted : before.accepted = true → after.accepted = true
  runId : after.runId = before.runId
  graphId : after.graphId = before.graphId

theorem keepsSame (block : Block V η) : Keeps block block := ⟨id,id,rfl,rfl⟩

theorem keepsSettle (value : Interruption.Future V η) : Keeps block (block.settle value) := by
  unfold Block.settle
  split
  · exact keepsSame block
  · rename_i waiting
    exact ⟨fun done => absurd done waiting,id,rfl,rfl⟩

theorem keepsPerform (block : Block V η) (operation : Operation V η) :
    Keeps block (block.perform operation) := by
  cases operation with
  | accept => exact ⟨id,fun _ => rfl,rfl,rfl⟩
  | resolve result => exact keepsSettle (.result result)
  | fail error => exact keepsSettle (.exception error)
  | cancel => exact keepsSettle .cancelled

theorem requireReturned {nameSpace : String} {active : Bool} {seen : List String}
    (returned : requireInterruptedHook nameSpace active seen block = .ok ()) :
    active = false ∨ block.accepted = true ∨ block.done = true := by
  unfold requireInterruptedHook at returned
  cases active with
  | false => exact .inl rfl
  | true =>
    simp only [Bool.not_true,Bool.false_eq_true,if_false] at returned
    split at returned <;> try contradiction
    split at returned <;> try contradiction
    rename_i answered
    cases accepted : block.accepted with
    | true => exact .inr (.inl rfl)
    | false =>
      rw [accepted] at answered
      exact .inr (.inr (by simpa using answered))

end Block

section Invocation
variable {block : Block V η} {graphs after : NodeGraph.World V} {context : NodeGraph.GraphContext V}

def Emitter (graphs : NodeGraph.World V) (c : Nat) (block : Block V η) : Prop :=
  ∃ context, graphs.contexts[c]? = some context ∧ context.runId = some block.runId ∧
    context.graphId = block.graphId

theorem emitterPersists (emitter : Emitter graphs c block) (persists : Lifecycle.Persists graphs after) :
    Emitter after c block := by
  obtain ⟨x,found,run,owner⟩ := emitter
  obtain ⟨y,there,goes⟩ := persists c x found
  exact ⟨y,there,goes.runId _ run,goes.graphId.trans owner⟩

theorem endedPersists (managed : Lifecycle.Managed graphs) (emitter : Emitter graphs c block)
    (persists : Lifecycle.Persists graphs after)
    (over_ : ∀ context, graphs.contexts[c]? = some context → context.isActive = false) :
    ∀ context, after.contexts[c]? = some context → context.isActive = false := by
  intro y there
  obtain ⟨x,found,run,_⟩ := emitter
  obtain ⟨y',there',goes⟩ := persists c x found
  cases Option.some.inj (there.symm.trans there')
  have inactive := over_ x found
  have shaped := managed.shaped c x found
  have terminal : x.status.terminal = true := by
    unfold Lifecycle.Shaped at shaped
    unfold NodeGraph.GraphContext.isActive at inactive
    cases status : x.status with
    | pending =>
      rw [status] at shaped
      cases run.symm.trans shaped.1
    | running =>
      rw [status] at inactive
      cases inactive
    | failed => rfl
    | aborted => rfl
    | finished => rfl
  unfold NodeGraph.GraphContext.isActive at inactive ⊢
  rw [goes.status terminal]
  exact inactive

theorem activeBlock (managed : Lifecycle.Managed graphs) (emitter : Emitter graphs c block)
    (found : graphs.contexts[c]? = some context) (active : context.isActive = true) :
    isActiveBlock graphs block.graphId block = true := by
  obtain ⟨x,there,run,owner⟩ := emitter
  cases Option.some.inj (found.symm.trans there)
  have running : context.status = .running := by
    unfold NodeGraph.GraphContext.isActive at active
    exact eq_of_beq active
  have bound := managed.owned c context found
  rw [owner] at bound
  have graph := List.getElem?_eq_getElem bound
  have member : c ∈ (graphs.graphs[block.graphId]).contexts :=
    (managed.running _ _ graph c).mpr ⟨context,found,owner,running⟩
  have known : graphs.isActiveContext block.graphId c = true := by
    have exactly := Lifecycle.runningActive managed found running
    rw [owner] at exactly
    exact exactly
  unfold isActiveBlock
  rw [graph]
  simp only [BEq.rfl,Bool.true_and]
  refine List.any_eq_true.mpr ⟨c,member,?_⟩
  simp only [found,run,BEq.rfl,known,Bool.and_self]

end Invocation

section Turn
variable {flags : η → Flags} {s u : Dispatch.State (Interruption.Handler η)} {a : Dispatch.Action}

theorem dueSame (due : Due i s) (pc : u.pc = s.pc)
    (errors : u.event.errorStack = s.event.errorStack) : Due i u := by
  unfold Due at due ⊢
  rw [pc]
  cases at_ : s.pc with
  | execute k pc =>
    rw [at_] at due
    rcases due with before | ⟨here,stands⟩
    · exact .inl before
    · refine .inr ⟨here,?_⟩
      cases pc with
      | gate =>
        have none_ : s.event.hasError = false := stands
        simpa only [Event.hasError,errors] using none_
      | calling phase parent => exact stands
  | _ => rw [at_] at due; exact due

theorem dueBefore {k : Nat} (before : k < i) (next : Next) (event : Event (Interruption.Handler η))
    (uses : List (Use (Interruption.Handler η))) :
    Due i ({s with pc := next.foreground k, event := event}.note uses) := by
  cases next with
  | go pc => exact .inl before
  | finished => exact before
  | cancelled => exact Nat.zero_le i

theorem dueEntered (event : Event (Interruption.Handler η)) :
    match enter (Handler.flags flags .fallback) event with
    | .gate => event.hasError = false
    | .calling phase _ => phase ≠ .onError := by
  unfold enter
  cases failed : event.hasError with
  | true =>
    simp only [Handler.flags,Bool.and_self,if_true]
    decide
  | false => rfl

theorem duePassed {event after : Event (Interruption.Handler η)} {next : Next}
    (clear : event.hasError = false)
    (passed : Dispatch.pass (Handler.flags flags .fallback) .fallback event = (next,after)) :
    ∃ phase, next = .go (.calling phase none) ∧ phase ≠ .onError := by
  unfold Dispatch.pass at passed
  simp only [clear,Handler.flags,Bool.false_and,Bool.false_eq_true,if_false,if_true] at passed
  split at passed
  · cases passed
    exact ⟨.onAccepted,rfl,by decide⟩
  · cases passed
    exact ⟨.coreFunc,rfl,by decide⟩

theorem atPlace {k : Nat} {phase : Phase} {parent : Option Phase}
    (place : s.chain[k]? = some .fallback) (pc : s.pc = .execute k (.calling phase parent)) :
    atFallback s = true := by
  simp only [atFallback,pc,place]

theorem atHook {k : Nat} (place : s.chain[k]? = some .fallback) (pc : s.pc = .notifying k) :
    atFallback s = true := by
  simp only [atFallback,pc,place]

/- No step of the others passes the fallback handler by. -/
theorem stepDue (due : Due i s) (place : s.chain[i]? = some .fallback) (begun : a ≠ .kill)
    (theirs : (isEnd a && atFallback s) = false) (taken : Dispatch.Step (Handler.flags flags) s a u) :
    Due i u := by
  have inside := Slots.inside place
  unfold Due at due
  cases taken with
  | begin pc => exact Nat.zero_le i
  | kill pc => exact absurd rfl begun
  | finish pc past =>
    rw [pc] at due
    have before : _ ≤ i := due
    have outside := List.getElem?_eq_none_iff.mp past
    omega
  | @hand k handler pc found background =>
    rw [pc] at due
    rcases Nat.lt_or_eq_of_le due with before | rfl
    · exact before
    · cases Option.some.inj (place.symm.trans found)
      cases background
  | @enter k handler pc found foreground =>
    rw [pc] at due
    rcases Nat.lt_or_eq_of_le due with before | rfl
    · exact .inl before
    · cases Option.some.inj (place.symm.trans found)
      exact .inr ⟨rfl,dueEntered s.event⟩
  | @gate k handler next event pc found passed =>
    rw [pc] at due
    rcases due with before | ⟨rfl,clear⟩
    · exact dueBefore before next event _
    · cases Option.some.inj (place.symm.trans found)
      obtain ⟨phase,rfl,own⟩ := duePassed clear passed
      exact .inr ⟨rfl,own⟩
  | @callback k phase parent handler outcome next event pc found settled =>
    rw [pc] at due
    rcases due with before | ⟨rfl,_⟩
    · exact dueBefore before next event _
    · rw [atPlace place pc] at theirs
      cases theirs
  | @cleaned k pc past =>
    rw [pc] at due
    have before : k ≤ i := due
    have outside := List.getElem?_eq_none_iff.mp past
    omega
  | @notify k handler pc found foreground hook =>
    rw [pc] at due
    exact due
  | @skip k handler pc found silent =>
    rw [pc] at due
    rcases Nat.lt_or_eq_of_le due with before | rfl
    · exact before
    · cases Option.some.inj (place.symm.trans found)
      rcases silent with background | hook
      · cases background
      · cases hook
  | @notified k pc =>
    rw [pc] at due
    rcases Nat.lt_or_eq_of_le due with before | rfl
    · exact before
    · rw [atHook place pc] at theirs
      cases theirs
  | accept => exact dueSame due rfl rfl
  | @backgroundBegin k task found pc =>
    obtain ⟨same,_,event⟩ := backgroundFixed s (Handler.flags flags task.handler) k task
      (.go (enter (Handler.flags flags task.handler) s.event))
    exact dueSame due same (congrArg _ event)
  | @backgroundGate k task next event found pc passed =>
    obtain ⟨same,_,event_⟩ := backgroundFixed {s with event := event}
      (Handler.flags flags task.handler) k task next
    exact dueSame due same ((congrArg _ event_).trans (passErrors passed))
  | @backgroundCallback k task phase parent outcome next event found pc settled =>
    obtain ⟨same,_,event_⟩ := backgroundFixed {s with event := event}
      (Handler.flags flags task.handler) k task next
    exact dueSame due same ((congrArg _ event_).trans (congrArg _ (settleEvent settled)))
  | backgroundEnd found pc => exact dueSame due rfl rfl

end Turn

section Run
variable {copyable : V → Bool} {flags : η → Flags} {name : η → String} {nameSpace : String} {g : Nat}

theorem calledAnswers {phase : Phase} {outcomes : List Outcome} {block : Block V η}
    (call : called name nameSpace g w phase = some (outcomes,block)) :
    Keeps w.block block ∧ (block.done = true ∨ block.accepted = true ∨
      isActiveBlock w.graphs g w.block = false) := by
  cases phase with
  | onHasError =>
    cases call
    exact ⟨keepsSettle _,.inl (failDone _ _)⟩
  | onAccepted =>
    cases call
    refine ⟨?_,.inl (acceptedDone w.block)⟩
    unfold onAccepted
    split
    · exact keepsSettle .cancelled
    · exact keepsSame w.block
  | coreFunc =>
    simp only [called] at call
    split at call
    · rename_i returned
      cases call
      refine ⟨keepsSame w.block,?_⟩
      rcases requireReturned returned with inactive | accepted | done
      · exact .inr (.inr inactive)
      · exact .inr (.inl accepted)
      · exact .inl done
    · cases call
      exact ⟨keepsSettle _,.inl (failDone _ _)⟩
  | onError => cases call

structure Pending (g c i : Nat) (w : Interruption.World V η) : Prop where
  managed : Lifecycle.Managed w.graphs
  emitter : Emitter w.graphs c w.block
  owner : w.block.graphId = g
  place : w.dispatch.chain[i]? = some .fallback
  turn : Answered w c ∨ Due i w.dispatch

theorem answeredKeeps (keeps : Keeps w.block t.block) (graphs : t.graphs = w.graphs)
    (answered : Answered w c) : Answered t c := by
  rcases answered with done | accepted | ended
  · exact .inl (keeps.done done)
  · exact .inr (.inl (keeps.accepted accepted))
  · exact .inr (.inr (graphs ▸ ended))

theorem emitterKeeps {graphs : NodeGraph.World V} {before after : Block V η}
    (emitter : Emitter graphs c before) (keeps : Keeps before after) : Emitter graphs c after := by
  obtain ⟨context,found,run,owner⟩ := emitter
  exact ⟨context,found,by rw [keeps.runId]; exact run,by rw [keeps.graphId]; exact owner⟩

theorem chainRun {acts : List Dispatch.Action} {s u : Dispatch.State (Interruption.Handler η)}
    (ran : Machine.run (Dispatch.step (Handler.flags flags)) s acts = some u) : u.chain = s.chain :=
  Machine.invariant (P := fun v => v.chain = s.chain)
    (fun _ _ _ same taken => (chainKept (Dispatch.stepCases taken)).trans same) rfl ran

theorem fallbackAnswers (pending : Pending g c i w)
    (taken : Interruption.step copyable flags name nameSpace g w .fallback = some t) :
    t.graphs = w.graphs ∧ Keeps w.block t.block ∧ t.dispatch.chain = w.dispatch.chain ∧
      Answered t c := by
  simp only [Interruption.step] at taken
  split at taken <;> try contradiction
  split at taken
  · obtain ⟨⟨outcomes,block⟩,call,rest⟩ := Option.bind_eq_some_iff.mp taken
    obtain ⟨dispatch,ran,last⟩ := Option.bind_eq_some_iff.mp rest
    cases Option.some.inj last
    obtain ⟨keeps,answers⟩ := calledAnswers call
    refine ⟨rfl,keeps,chainRun ran,?_⟩
    rcases answers with done | accepted | inactive
    · exact .inl done
    · exact .inr (.inl accepted)
    · refine .inr (.inr ?_)
      intro context found
      cases active : context.isActive with
      | false => rfl
      | true =>
        have known := activeBlock pending.managed pending.emitter found active
        rw [pending.owner,inactive] at known
        cases known
  · obtain ⟨dispatch,notified,last⟩ := Option.bind_eq_some_iff.mp taken
    cases Option.some.inj last
    exact ⟨rfl,keepsSettle _,chainKept (Dispatch.stepCases notified),.inl (failDone _ _)⟩

theorem stepPending {a : Interruption.Action V η} (begun : a ≠ .dispatch .kill)
    (pending : Pending g c i w)
    (taken : Interruption.step copyable flags name nameSpace g w a = some t) : Pending g c i t := by
  cases a with
  | dispatch b =>
    simp only [Interruption.step] at taken
    split at taken <;> try contradiction
    rename_i theirs
    obtain ⟨dispatch,moved,last⟩ := Option.bind_eq_some_iff.mp taken
    cases Option.some.inj last
    have moves := Dispatch.stepCases moved
    refine ⟨pending.managed,pending.emitter,pending.owner,?_,?_⟩
    · rw [chainKept moves]
      exact pending.place
    · rcases pending.turn with answered | due
      · exact .inl answered
      · refine .inr (stepDue due pending.place ?_ (Bool.eq_false_iff.mpr theirs) moves)
        rintro rfl
        exact begun rfl
  | fallback =>
    obtain ⟨graphs,keeps,chain,answered⟩ := fallbackAnswers pending taken
    refine ⟨?_,?_,keeps.graphId.trans pending.owner,by rw [chain]; exact pending.place,.inl answered⟩
    · rw [graphs]
      exact pending.managed
    · rw [graphs]
      exact emitterKeeps pending.emitter keeps
  | block operation =>
    cases Option.some.inj taken
    have keeps := keepsPerform w.block operation
    refine ⟨pending.managed,emitterKeeps pending.emitter keeps,keeps.graphId.trans pending.owner,
      pending.place,?_⟩
    rcases pending.turn with answered | due
    · exact .inl (answeredKeeps keeps rfl answered)
    · exact .inr due
  | graph b =>
    obtain ⟨graphs,moved,last⟩ := Option.bind_eq_some_iff.mp taken
    cases Option.some.inj last
    obtain ⟨managed,persists⟩ := Lifecycle.stepManaged pending.managed moved
    refine ⟨managed,emitterPersists pending.emitter persists,pending.owner,pending.place,?_⟩
    rcases pending.turn with (done | accepted | ended) | due
    · exact .inl (.inl done)
    · exact .inl (.inr (.inl accepted))
    · exact .inl (.inr (.inr (endedPersists pending.managed pending.emitter persists ended)))
    · exact .inr due

theorem interruptEmits {graphs : NodeGraph.World V} {block : Block V η}
    (raised : interrupt graphs c = some block) : Emitter graphs c block := by
  obtain ⟨context,found,rest⟩ := Option.bind_eq_some_iff.mp raised
  split at rest <;> try contradiction
  obtain ⟨runId,run,rest⟩ := Option.bind_eq_some_iff.mp rest
  obtain ⟨completion,_,last⟩ := Option.bind_eq_some_iff.mp rest
  cases Option.some.inj last
  exact ⟨context,found,run,rfl⟩

/- However the dispatch of an interruption ends, nobody is left waiting. -/
theorem interruptionAnswered {before : List (NodeGraph.Action V)} {graphs : NodeGraph.World V}
    {block : Block V η} {chain : List (Interruption.Handler η)} {r : List (Interruption.Action V η)}
    (lived : Machine.run (NodeGraph.step copyable) NodeGraph.initial before = some graphs)
    (raised : interrupt graphs c = some block) (captured : .fallback ∈ chain)
    (ran : Machine.run (Interruption.step copyable flags name nameSpace block.graphId)
      (emitted graphs block chain) r = some t)
    (begun : .dispatch .kill ∉ r) (ended : t.dispatch.pc = .returned ∨ t.dispatch.pc = .cancelled) :
    t.block.done = true ∨ t.block.accepted = true ∨
      ∀ context, t.graphs.contexts[c]? = some context → context.isActive = false := by
  obtain ⟨i,place⟩ := List.mem_iff_getElem?.mp captured
  have start : Pending block.graphId c i (emitted graphs block chain) :=
    ⟨Lifecycle.runManaged lived,interruptEmits raised,rfl,place,.inr trivial⟩
  have pending : Pending block.graphId c i t := by
    refine Machine.invariantWhere (C := fun a => a ≠ .dispatch .kill) ?_ ?_ start ran
    · exact fun _ _ _ begun pending taken => stepPending begun pending taken
    · rintro a member rfl
      exact begun member
  rcases pending.turn with answered | due
  · exact answered
  · unfold Due at due
    rcases ended with pc | pc
    · rw [pc] at due
      contradiction
    · rw [pc] at due
      contradiction

end Run

def plain : Nat → Flags := fun _ => ⟨false,true,false,false,false,false⟩
def beginning : List (NodeGraph.Action Nat) :=
  [.construct Lifecycle.flow,.beginInvocation 0 (.dict .empty) .none]
def running : NodeGraph.World Nat :=
  (Machine.run (NodeGraph.step (fun _ => true)) NodeGraph.initial beginning).getD NodeGraph.initial
def waiting : Block Nat Nat := ⟨0,0,false,.pending⟩
def stepPlain : Interruption.World Nat Nat → Interruption.Action Nat Nat →
    Option (Interruption.World Nat Nat) :=
  Interruption.step (fun _ => true) plain (fun _ => "hook") "flow" 0

/- The hook returns and leaves the block alone; then it is cancelled while it runs. -/
def ignored : List (Interruption.Action Nat Nat) :=
  [.dispatch .begin,.dispatch .visit,.dispatch .gate,.dispatch (.callback .returned),.dispatch .visit,
    .dispatch .gate,.fallback,.dispatch .visit]
def interrupted : List (Interruption.Action Nat Nat) :=
  [.dispatch .begin,.dispatch .visit,.dispatch .gate,.dispatch (.callback .cancelled),
    .dispatch .cleanup,.dispatch .cleanup,.fallback,.dispatch .cleanup]

def ending (r : List (Interruption.Action Nat Nat)) : Interruption.World Nat Nat :=
  (Machine.run stepPlain (emitted running waiting [.other 0,.fallback]) r).getD
    (emitted running waiting [])

example : (ending ignored).block.future = .exception (.blockNotResolvedError (notResolved "flow")) := rfl

/- A task that is cancelled before its first step runs none of this. -/
example : (ending [.dispatch .kill]).dispatch.pc = .cancelled ∧
    (ending [.dispatch .kill]).block = waiting := ⟨rfl,rfl⟩

theorem runningRan : Machine.run (NodeGraph.step (fun _ => true)) NodeGraph.initial beginning =
    some running := rfl

theorem waitingEmitted : interrupt running 0 = some waiting := rfl

theorem interruptedRan : Machine.run (Interruption.step (fun _ => true) plain (fun _ => "hook") "flow"
    waiting.graphId) (emitted running waiting [.other 0,.fallback]) interrupted =
      some (ending interrupted) := rfl

theorem interruptionAnsweredCancelled :
    (ending interrupted).block.future = .exception .cancelledError ∧
    ((ending interrupted).block.done = true ∨ (ending interrupted).block.accepted = true ∨
      ∀ context, (ending interrupted).graphs.contexts[0]? = some context → context.isActive = false) :=
  ⟨rfl,interruptionAnswered runningRan waitingEmitted (List.mem_cons_of_mem _ List.mem_cons_self)
    interruptedRan (by simp [interrupted]) (.inr rfl)⟩

end Apixis.Answering
