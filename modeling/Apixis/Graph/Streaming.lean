import Apixis.Graph.Stream
import Apixis.Graph.Baton

/-! What the consumer of a stream gets, and what the generator leaves behind however
it ends. -/
namespace Apixis.Stream
open NodeGraph hiding Action step initial
open ApplyCommand Apixis.Runtime
open Lifecycle (Managed Persists persistsRefl)
open Moves (Ready)
open Channel (Item)

variable {V C : Type}

def Pc.left? : Pc → Option Left
  | .cleaning left | .ended left => some left
  | _ => none

def Pc.over_ : Pc → Bool
  | .joining => true
  | pc => pc.left?.any Left.drained

section World
variable {w : World V} {c : Nat} {x : GraphContext V} {runtime : Runtime.State V}

theorem soundState {call : Call V (World V)} (managed : Managed w)
    (sound : Lifecycle.Sound none w call) :
    Managed (PyError.stateOf call) ∧ Persists w (PyError.stateOf call) := by
  cases call with
  | ok t => exact ⟨sound.managed,sound.persists⟩
  | error raised =>
    obtain ⟨_,rfl⟩ := sound
    exact ⟨managed,persistsRefl _⟩

theorem cancelKeeps (managed : Managed w) (c : Nat) :
    Managed (PyError.stateOf (cancelIfRunning w c)) ∧ Persists w (PyError.stateOf (cancelIfRunning w c)) := by
  refine soundState managed ?_
  unfold cancelIfRunning
  split
  · rename_i x found
    split
    · exact Lifecycle.soundCancel managed found
    · exact Lifecycle.soundSame managed
  · exact Lifecycle.soundSame managed

theorem readyWorld (ready : Ready runtime) (managed : Managed w) (persists : Persists runtime.world w) :
    Ready {runtime with world := w} :=
  ⟨managed,fun d task found => Moves.worksPersists (ready.works d task found) persists⟩

theorem startedStatus (managed : Managed w) (found : w.contexts[c]? = some x) (started : x.runId ≠ none)
    (other : x.status ≠ .running) : x.status.terminal = true := by
  have shaped := managed.shaped c x found
  unfold Lifecycle.Shaped at shaped
  cases at_ : x.status with
  | pending =>
    rw [at_] at shaped
    exact absurd shaped.1 started
  | running => exact absurd at_ other
  | _ => rfl

/- The last lines of the `finally` never raise, and leave no context running. -/
theorem aborted (managed : Managed w) (found : w.contexts[c]? = some x) (started : x.runId ≠ none) :
    ∃ t, State.abortIfRunning w c = .ok t ∧ Managed t ∧ Persists w t ∧
      ∃ y, t.contexts[c]? = some y ∧ y.status.terminal = true := by
  simp only [State.abortIfRunning,found]
  split
  · rename_i running
    have done : abort w c x = .ok (Lifecycle.endedWorld w c x .aborted abortResult) :=
      Moves.concludeRunning managed.toExact found running rfl
    have sound : Lifecycle.Sound none w (abort w c x) := Lifecycle.soundAbort managed found
    rw [done] at sound
    refine ⟨_,done,sound.managed,sound.persists,Lifecycle.ended x .aborted abortResult,?_,rfl⟩
    exact Slots.setSame found
  · rename_i other
    exact ⟨w,rfl,managed,persistsRefl w,x,found,startedStatus managed found started other⟩

end World

structure Sound (g : Nat) (s : State V C) : Prop where
  ready : Ready s.runtime
  channel : s.channel.Sound s.put s.got
  over_ : s.pc.over_ = true → .stop ∈ s.got
  idle : s.execution = none → s.pc = .created ∨ ∃ left, s.pc = .ended left ∧ left.drained = false
  begun : s.pc = .created → s.execution = none
  bound : ∀ e, s.execution = some e → ∃ x, s.runtime.world.contexts[e.context]? = some x ∧
    x.graphId = g ∧ x.runId ≠ none
  answer : ∀ e left, s.execution = some e → s.pc.left? = some left → left.drained = true →
    leftOf e.task = some left
  ended : ∀ e left, s.execution = some e → s.pc = .ended left → s.channel.closed = true ∧
    ∃ x, s.runtime.world.contexts[e.context]? = some x ∧ x.status.terminal = true

section Keep
variable {g : Nat} {s : State V C} {e next : Execution V} {left : Left} {runtime : Runtime.State V}

theorem startSound (ready : Ready runtime) : Sound g (start runtime : State V C) where
  ready := ready
  channel := Channel.newSound
  over_ := fun over_ => by cases over_
  idle := fun _ => .inl rfl
  begun := fun _ => rfl
  bound := fun _ has => by cases has
  answer := fun _ _ has => by cases has
  ended := fun _ _ has => by cases has

theorem soundMove (next : Execution V) (sound : Sound g s) (has : s.execution = some e) (ready : Ready runtime)
    (persists : Persists s.runtime.world runtime.world) (same : next.context = e.context)
    (task : e.task.done = true → next.task = e.task) :
    Sound g {s with runtime := runtime, execution := some next} where
  ready := ready
  channel := sound.channel
  over_ := sound.over_
  idle := fun none_ => by cases none_
  begun := by
    intro created
    cases has.symm.trans (sound.begun created)
  bound := by
    intro f found
    cases Option.some.inj found
    obtain ⟨x,there,mine,started⟩ := sound.bound e has
    obtain ⟨y,after,goes⟩ := persists e.context x there
    obtain ⟨run,given⟩ := Option.ne_none_iff_exists'.mp started
    exact ⟨y,same ▸ after,goes.graphId.trans mine,by rw [goes.runId run given]; simp⟩
  answer := by
    intro f left found out drained
    cases Option.some.inj found
    have before := sound.answer e left has out drained
    have done : e.task.done = true := by
      cases at_ : e.task with
      | pending => rw [at_] at before; cases before
      | _ => rfl
    rw [task done]
    exact before
  ended := by
    intro f left found over_
    cases Option.some.inj found
    obtain ⟨closed,x,there,final⟩ := sound.ended e left has over_
    obtain ⟨y,after,goes⟩ := persists e.context x there
    exact ⟨closed,y,same ▸ after,by rw [goes.status final]; exact final⟩

theorem soundRuntime (sound : Sound g s) (ready : Ready runtime)
    (persists : Persists s.runtime.world runtime.world) : Sound g {s with runtime := runtime} := by
  cases has : s.execution with
  | none =>
    refine ⟨ready,sound.channel,sound.over_,fun _ => sound.idle has,fun _ => rfl,?_,?_,?_⟩
    · intro e found
      cases found
    · intro e left found
      cases found
    · intro e left found
      cases found
  | some e =>
    have moved := soundMove e sound has ready persists rfl (fun _ => rfl)
    exact moved

theorem soundRequest (sound : Sound g s) (has : s.execution = some e) : Sound g (s.request e) := by
  unfold State.request
  split
  · exact sound
  · have kept := soundMove {e with cancelling := true} sound has sound.ready (persistsRefl _)
      rfl (fun _ => rfl)
    split
    · rename_i x found
      split
      · have goes : Lifecycle.Goes none _ _ := Lifecycle.soundCancelCompletion sound.ready.managed found
        exact soundRuntime kept (readyWorld sound.ready goes.managed goes.persists) goes.persists
      · exact kept
    · exact kept

theorem soundPc {pc : Pc} (sound : Sound g s) (has : s.execution = some e) (going : pc ≠ .created)
    (over_ : pc.over_ = true → .stop ∈ s.got)
    (answer : ∀ left, pc.left? = some left → left.drained = true → leftOf e.task = some left)
    (open_ : ∀ left, pc ≠ .ended left) : Sound g {s with pc := pc} where
  ready := sound.ready
  channel := sound.channel
  over_ := over_
  idle := fun none_ => by cases has.symm.trans none_
  begun := fun created => absurd created going
  bound := sound.bound
  answer := by
    intro f left found out drained
    cases Option.some.inj (has.symm.trans found)
    exact answer left out drained
  ended := fun _ left _ done => absurd done (open_ left)

theorem soundCleanup (sound : Sound g s) (has : s.execution = some e)
    (over_ : left.drained = true → .stop ∈ s.got)
    (answer : left.drained = true → leftOf e.task = some left) : Sound g (s.cleanup e left) := by
  obtain ⟨x,found,mine,started⟩ := sound.bound e has
  obtain ⟨t,done,managed,persists,y,there,final⟩ := aborted sound.ready.managed found started
  have kept := soundRuntime sound (readyWorld sound.ready managed persists) persists
  simp only [State.cleanup,done]
  refine ⟨kept.ready,Channel.closeSound sound.channel,over_,?_,?_,kept.bound,?_,?_⟩
  · intro none_
    cases has.symm.trans none_
  · intro created
    cases created
  · intro f other here out drained
    cases Option.some.inj (has.symm.trans here)
    cases Option.some.inj out
    exact answer drained
  · intro f other here _
    cases Option.some.inj (has.symm.trans here)
    exact ⟨Channel.closeClosed _,y,there,final⟩

theorem requested (has : s.execution = some e) :
    ∃ f, (s.request e).execution = some f ∧ (s.request e).channel = s.channel ∧ (s.request e).got = s.got ∧
      (s.request e).put = s.put := by
  unfold State.request
  split
  · exact ⟨e,has,rfl,rfl,rfl⟩
  · split
    · split <;> exact ⟨_,rfl,rfl,rfl,rfl⟩
    · exact ⟨_,rfl,rfl,rfl,rfl⟩

theorem soundLeave (sound : Sound g s) (has : s.execution = some e)
    (over_ : left.drained = true → .stop ∈ s.got)
    (answer : left.drained = true → leftOf e.task = some left) : Sound g (s.leave e left) := by
  unfold State.leave
  split
  · exact soundCleanup sound has over_ answer
  · rename_i open_
    have stays : left.drained ≠ true := by
      intro drained
      have answered := answer drained
      cases at_ : e.task with
      | pending => rw [at_] at answered; cases answered
      | _ => rw [at_] at open_; exact open_ rfl
    obtain ⟨f,there,_,_,_⟩ := requested has
    refine soundPc (soundRequest sound has) there (fun at_ => by cases at_) (fun drained => absurd drained stays)
      ?_ (fun _ at_ => by cases at_)
    intro other out drained
    cases Option.some.inj out
    exact absurd drained stays

theorem soundChannel {d : Channel C} {put got : List (Item C)} (sound : Sound g s)
    (channel : d.Sound put got) (closed : s.channel.closed = true → d.closed = true)
    (more : ∀ item ∈ s.got, item ∈ got) : Sound g {s with channel := d, put := put, got := got} where
  ready := sound.ready
  channel := channel
  over_ := fun over_ => more _ (sound.over_ over_)
  idle := sound.idle
  begun := sound.begun
  bound := sound.bound
  answer := sound.answer
  ended := by
    intro e left has done
    obtain ⟨shut,context⟩ := sound.ended e left has done
    exact ⟨closed shut,context⟩

theorem soundTake {t : State V C} (sound : Sound g s) (taken : s.take = some t) : Sound g t := by
  obtain ⟨⟨item,channel⟩,took,rest⟩ := Option.bind_eq_some_iff.mp taken
  obtain ⟨e,has,last⟩ := Option.bind_eq_some_iff.mp rest
  obtain ⟨moved,closed⟩ := Channel.takeSound sound.channel took
  have kept := soundChannel sound moved (fun shut => closed.trans shut)
    (fun other member => List.mem_append_left _ member)
  cases item with
  | chunk x =>
    cases Option.some.inj last
    exact soundPc kept has (fun at_ => by cases at_) (fun over_ => by cases over_)
      (fun _ out => by cases out) (fun _ at_ => by cases at_)
  | stop =>
    have stopped : Item.stop ∈ s.got ++ [.stop] := List.mem_append_right _ List.mem_cons_self
    cases out : leftOf e.task with
    | some left =>
      simp only [out] at last
      cases Option.some.inj last
      exact soundLeave kept has (fun _ => stopped) (fun _ => out)
    | none =>
      simp only [out] at last
      cases Option.some.inj last
      exact soundPc kept has (fun at_ => by cases at_) (fun _ => stopped)
        (fun _ out => by cases out) (fun _ at_ => by cases at_)

end Keep

section Step
variable {values : Values V} {g : Nat} {state : StateArg V} {context : ContextArg} {s t : State V C}

theorem settleDone {e : Execution V} (value : Promise PyError (StateDict V)) (done : e.task.done = true) :
    (e.settle value).task = e.task := by
  simp [Execution.settle,Promise.settle,done]

theorem soundSet {runtime : Runtime.State V} {w : World V} (k : Nat) (stage : Stage) (ready : Ready runtime)
    (managed : Managed w) (persists : Persists runtime.world w) :
    Ready (setStage runtime k stage w) ∧ (setStage runtime k stage w).world = w := by
  have kept := readyWorld ready managed persists
  unfold setStage
  split
  · exact ⟨⟨kept.managed,kept.works⟩,rfl⟩
  · exact ⟨kept,rfl⟩

theorem soundRefused {left : Left} (sound : Sound g s) (created : s.pc = .created)
    (other : left.drained = false) : Sound g {s with pc := .ended left} where
  ready := sound.ready
  channel := sound.channel
  over_ := fun drained => by cases other.symm.trans drained
  idle := fun _ => .inr ⟨left,rfl,other⟩
  begun := fun at_ => by cases at_
  bound := sound.bound
  answer := by
    intro e _ has
    cases (sound.begun created).symm.trans has
  ended := by
    intro e _ has
    cases (sound.begun created).symm.trans has

theorem admittedContext {w : World V} (performed : NodeGraph.perform values.copyable s.runtime.world
    (.beginInvocation g state context) = some (.ok w)) :
    ∃ x, w.contexts[Lifecycle.chosen s.runtime.world context]? = some x ∧ x.graphId = g ∧ x.runId ≠ none := by
  obtain ⟨graph,owner,last⟩ := Option.bind_eq_some_iff.mp performed
  obtain ⟨_,v,x,_,found,mine,_,_,rfl⟩ := Lifecycle.invocationOk (Option.some.inj last)
  exact ⟨Lifecycle.bound x g v.runs,Slots.setSame found,mine,by simp [Lifecycle.bound]⟩

theorem admissionWorld {runtime : Runtime.State V} {call : Call V (World V)}
    (stepped : Runtime.step values s.runtime (admission g state context) = some runtime)
    (performed : NodeGraph.perform values.copyable s.runtime.world (.beginInvocation g state context) = some call) :
    runtime.world = PyError.stateOf call := by
  simp only [Runtime.step,admission,isPublic,if_true,performed] at stepped
  cases call with
  | ok w => cases Option.some.inj stepped; rfl
  | error raised => cases Option.some.inj stepped; rfl

theorem admitSound (sound : Sound g s) (created : s.pc = .created)
    (taken : launch values g state context s = some t) : Sound g t := by
  obtain ⟨runtime,stepped,rest⟩ := Option.bind_eq_some_iff.mp taken
  obtain ⟨call,performed,last⟩ := Option.bind_eq_some_iff.mp rest
  have went := Runtime.stepCases stepped
  have ready := Moves.readyStep sound.ready went
  have world := admissionWorld stepped performed
  cases call with
  | ok w =>
    cases Option.some.inj last
    obtain ⟨x,found,mine,started⟩ := admittedContext performed
    refine ⟨ready,sound.channel,fun at_ => (by cases at_),fun none_ => (by cases none_),
      fun at_ => (by cases at_),?_,fun _ _ _ out => (by cases out),fun _ _ _ out => (by cases out)⟩
    intro e has
    cases Option.some.inj has
    exact ⟨x,by rw [world]; exact found,mine,started⟩
  | error raised =>
    cases Option.some.inj last
    have kept := soundRuntime sound ready (Moves.stepPersists sound.ready went)
    exact soundRefused kept created rfl

theorem entered (sound : Sound g s) (going : s.pc ≠ .created) (open_ : ∀ left, s.pc ≠ .ended left) :
    ∃ e, s.execution = some e := by
  cases has : s.execution with
  | some e => exact ⟨e,rfl⟩
  | none =>
    rcases sound.idle has with created | ⟨left,done,_⟩
    · exact absurd created going
    · exact absurd done (open_ left)

theorem stepSound {a : Action V C} (sound : Sound g s) (taken : step values g state context s a = some t) :
    Sound g t := by
  cases stepCases taken with
  | goes stepped =>
    have went := Runtime.stepCases stepped
    exact soundRuntime sound (Moves.readyStep sound.ready went) (Moves.stepPersists sound.ready went)
  | ends has mine free stepped ended =>
    have went := Runtime.stepCases stepped
    exact soundMove _ sound has (Moves.readyStep sound.ready went) (Moves.stepPersists sound.ready went) rfl
      (settleDone _)
  | sent has sent =>
    obtain ⟨moved,closed⟩ := Channel.sendSound sound.channel sent
    exact soundChannel sound moved (fun shut => closed.trans shut) (fun _ member => member)
  | unsent => exact sound
  | requests has => exact soundRequest sound has
  | @struck e w has _ _ went =>
    have kept : Managed w ∧ Persists s.runtime.world w := by
      rcases went with ⟨_,rfl⟩ | rfl
      · exact ⟨sound.ready.managed,persistsRefl _⟩
      · exact cancelKeeps sound.ready.managed e.context
    obtain ⟨ready,same⟩ := soundSet e.invocation .ended sound.ready kept.1 kept.2
    exact soundMove _ sound has ready (by rw [same]; exact kept.2) rfl (settleDone _)
  | @callback e has =>
    have kept := soundMove {e with called := true} sound has sound.ready (persistsRefl _) rfl (fun _ => rfl)
    exact soundChannel kept (Channel.closeSound sound.channel) (fun _ => Channel.closeClosed _)
      (fun _ member => member)
  | launches created launched => exact admitSound sound created launched
  | waits yielded empty =>
    obtain ⟨e,has⟩ := entered sound (by rw [yielded]; exact fun at_ => by cases at_)
      (by rw [yielded]; exact fun _ at_ => by cases at_)
    exact soundPc sound has (fun at_ => by cases at_) (fun over_ => by cases over_)
      (fun _ out => by cases out) (fun _ at_ => by cases at_)
  | takes _ took => exact soundTake sound took
  | refuses created asks => exact soundRefused sound created (asksOther asks)
  | leaves has asks =>
    have other := asksOther asks
    exact soundLeave sound has (fun drained => by cases other.symm.trans drained)
      (fun drained => by cases other.symm.trans drained)
  | again has => exact soundRequest sound has
  | joined has joining out =>
    exact soundLeave sound has (fun _ => sound.over_ (by rw [joining]; rfl)) (fun _ => out)
  | cleaned has cleaning =>
    refine soundCleanup sound has ?_ ?_
    · intro drained
      exact sound.over_ (by rw [cleaning]; exact drained)
    · intro drained
      exact sound.answer _ _ has (by rw [cleaning]; rfl) drained

end Step

section Mute
variable {values : Values V} {g : Nat} {state : StateArg V} {context : ContextArg} {s t : State V C}
  {e : Execution V} {left : Left}

/- Nothing more is put into the channel. -/
structure Mute (s t : State V C) : Prop where
  closed : t.channel.closed = true
  put : t.put = s.put

theorem closingClosed {c : Channel C} (closed : c.closed = true) : c.closing = [] := by
  simp [Channel.closing,closed]

theorem cleanupMute (closed : s.channel.closed = true) : Mute s (s.cleanup e left) := by
  unfold State.cleanup
  split
  · refine ⟨Channel.closeClosed _,?_⟩
    show s.put ++ s.channel.closing = s.put
    rw [closingClosed closed,List.append_nil]
  · exact ⟨closed,rfl⟩

theorem requestMute (has : s.execution = some e) (closed : s.channel.closed = true) :
    Mute s (s.request e) := by
  obtain ⟨_,_,channel,_,put⟩ := requested has
  exact ⟨by rw [channel]; exact closed,put⟩

theorem leaveMute (has : s.execution = some e) (closed : s.channel.closed = true) :
    Mute s (s.leave e left) := by
  unfold State.leave
  split
  · exact cleanupMute closed
  · obtain ⟨shut,put⟩ := requestMute has closed
    exact ⟨shut,put⟩

theorem takeMute (closed : s.channel.closed = true) (taken : s.take = some t) : Mute s t := by
  obtain ⟨⟨item,channel⟩,took,rest⟩ := Option.bind_eq_some_iff.mp taken
  obtain ⟨e,has,last⟩ := Option.bind_eq_some_iff.mp rest
  have shut : channel.closed = true := by
    unfold Channel.take at took
    split at took <;> try contradiction
    cases Option.some.inj took
    exact closed
  cases item with
  | chunk x =>
    cases Option.some.inj last
    exact ⟨shut,rfl⟩
  | stop =>
    simp only at last
    split at last
    · cases Option.some.inj last
      obtain ⟨after,put⟩ := leaveMute (s := {s with channel := channel, got := s.got ++ [.stop]}) has shut
      exact ⟨after,put⟩
    · cases Option.some.inj last
      exact ⟨shut,rfl⟩

theorem stepMute {a : Action V C} (closed : s.channel.closed = true)
    (taken : step values g state context s a = some t) : Mute s t := by
  cases stepCases taken with
  | sent _ sent =>
    rw [Channel.send,if_pos closed] at sent
    cases sent
  | requests has => exact requestMute has closed
  | callback =>
    refine ⟨Channel.closeClosed _,?_⟩
    show s.put ++ s.channel.closing = s.put
    rw [closingClosed closed,List.append_nil]
  | launches _ launched =>
    obtain ⟨runtime,_,rest⟩ := Option.bind_eq_some_iff.mp launched
    obtain ⟨call,_,last⟩ := Option.bind_eq_some_iff.mp rest
    cases call <;> cases Option.some.inj last <;> exact ⟨closed,rfl⟩
  | takes _ took => exact takeMute closed took
  | leaves has => exact leaveMute has closed
  | again has => exact requestMute has closed
  | joined has => exact leaveMute has closed
  | cleaned => exact cleanupMute closed
  | _ => exact ⟨closed,rfl⟩

end Mute

section Apart
variable {values : Values V} {g : Nat} {state : StateArg V} {context : ContextArg} {s t : State V C}

def Action.isConsumer : Action V C → Bool
  | .next | .deliver | .cancelConsumer | .close | .throw _ => true
  | _ => false

theorem refusedRuntime {runtime : Runtime.State V} {raised : PyError × World V} (ready : Ready s.runtime)
    (stepped : Runtime.step values s.runtime (admission g state context) = some runtime)
    (performed : NodeGraph.perform values.copyable s.runtime.world (.beginInvocation g state context) =
      some (.error raised)) : runtime = s.runtime := by
  obtain ⟨_,same⟩ := Lifecycle.soundPerform ready.managed performed
  simp only [Runtime.step,admission,isPublic,if_true,performed] at stepped
  cases Option.some.inj stepped
  rw [same]

/- A consumer that asks for the first chunk is admitted, or moves nothing but the
generator. -/
theorem stepApart {a : Action V C} (sound : Sound g s) (taken : step values g state context s a = some t)
    (consumer : a.isConsumer = true) (before : s.execution = none) (after : t.execution = none) :
    t.runtime = s.runtime := by
  have missing : ∀ e, s.execution ≠ some e := fun e has => by cases before.symm.trans has
  cases stepCases taken with
  | launches created launched =>
    obtain ⟨runtime,stepped,rest⟩ := Option.bind_eq_some_iff.mp launched
    obtain ⟨call,performed,last⟩ := Option.bind_eq_some_iff.mp rest
    cases call with
    | ok w => cases Option.some.inj last; cases after
    | error raised =>
      cases Option.some.inj last
      exact refusedRuntime sound.ready stepped performed
  | waits => rfl
  | refuses => rfl
  | takes _ took =>
    obtain ⟨_,_,rest⟩ := Option.bind_eq_some_iff.mp took
    obtain ⟨e,has,_⟩ := Option.bind_eq_some_iff.mp rest
    exact absurd has (missing e)
  | leaves has => exact absurd has (missing _)
  | again has => exact absurd has (missing _)
  | _ => cases consumer

end Apart

section Run
variable {values : Values V} {g m : Nat} {state : StateArg V} {context : ContextArg} {s : State V C}
  {runtime : Runtime.State V}

/- The context of the stream has ended and its graph does not count it as running. -/
def Over (g : Nat) (w : World V) (c : Nat) : Prop := ∃ x graph, w.contexts[c]? = some x ∧ x.graphId = g ∧
  x.status.terminal = true ∧ w.graphs[g]? = some graph ∧ c ∉ graph.contexts

structure Streamed (values : Values V) (g : Nat) (state : StateArg V) (context : ContextArg)
    (s : State V C) : Prop where
  delivered : Channel.chunks s.got <+: Channel.chunks s.put
  marker : s.put.countP Item.isStop = if s.channel.closed then 1 else 0
  deaf : s.channel.closed = true →
    (∀ chunk, send s.channel chunk = .error ⟨.runtimeError,"Cannot write to a closed graph stream."⟩) ∧
    ∀ a t, step values g state context s a = some t → t.channel.closed = true ∧ t.put = s.put
  whole : ∀ left, s.pc = .ended left → left.drained = true →
    Channel.chunks s.got = Channel.chunks s.put ∧ s.channel.closed = true ∧
      ∃ e, s.execution = some e ∧ leftOf e.task = some left
  over_ : ∀ left e, s.pc = .ended left → s.execution = some e →
    s.channel.closed = true ∧ Over g s.runtime.world e.context
  apart : s.execution = none →
    (s.pc = .created ∨ ∃ left, s.pc = .ended left ∧ left.drained = false) ∧
    ∀ a t, step values g state context s a = some t → a.isConsumer = true → t.execution = none →
      t.runtime = s.runtime

theorem soundOver {e : Execution V} {left : Left} (sound : Sound g s) (has : s.execution = some e)
    (done : s.pc = .ended left) : Over g s.runtime.world e.context := by
  obtain ⟨_,x,found,final⟩ := sound.ended e left has done
  obtain ⟨y,same,mine,_⟩ := sound.bound e has
  cases Option.some.inj (found.symm.trans same)
  have owned := sound.ready.managed.owned e.context x found
  rw [mine] at owned
  refine ⟨x,_,found,mine,final,List.getElem?_eq_getElem owned,?_⟩
  intro member
  obtain ⟨z,there,_,running⟩ := (sound.ready.managed.running g _ (List.getElem?_eq_getElem owned) e.context).mp member
  cases Option.some.inj (found.symm.trans there)
  rw [running] at final
  cases final

theorem runSound {r : List (Runtime.Action V)} {acts : List (Action V C)}
    (before : Machine.run (Runtime.step values) (Runtime.initial m) r = some runtime)
    (ran : Machine.run (step values g state context) (start runtime) acts = some s) : Sound g s :=
  Machine.invariant (fun _ _ _ => stepSound) (startSound (Moves.runReady before)) ran

/- Whatever goes on around it. -/
theorem streamed {r : List (Runtime.Action V)} {acts : List (Action V C)}
    (before : Machine.run (Runtime.step values) (Runtime.initial m) r = some runtime)
    (ran : Machine.run (step values g state context) (start runtime) acts = some s) :
    Streamed values g state context s := by
  have sound := runSound before ran
  refine ⟨Channel.gotPrefix sound.channel,Channel.stopOnce sound.channel,?_,?_,?_,?_⟩
  · intro closed
    constructor
    · intro chunk
      simp only [send,Channel.send,closed,if_true]
    · intro a t taken
      obtain ⟨shut,put⟩ := stepMute closed taken
      exact ⟨shut,put⟩
  · intro left done drained
    obtain ⟨all,closed⟩ := Channel.gotStop sound.channel (sound.over_ (by rw [done]; exact drained))
    refine ⟨by rw [all],closed,?_⟩
    cases has : s.execution with
    | none =>
      rcases sound.idle has with created | ⟨other,ended,refused⟩
      · cases done.symm.trans created
      · cases done.symm.trans ended
        cases drained.symm.trans refused
    | some e => exact ⟨e,rfl,sound.answer e left has (by rw [done]; rfl) drained⟩
  · intro left e done has
    exact ⟨(sound.ended e left has done).1,soundOver sound has done⟩
  · intro none_
    exact ⟨sound.idle none_,fun a t taken consumer after => stepApart sound taken consumer none_ after⟩

end Run

def stepNumbers (context : ContextArg) (state : StateArg Nat) :
    State Nat Nat → Action Nat Nat → Option (State Nat Nat) := step Baton.numbers 0 state context

def prepared (r : List (Runtime.Action Nat)) : Runtime.State Nat :=
  (Machine.run (Runtime.step Baton.numbers) (Runtime.initial 1) r).getD (Runtime.initial 1)

def oneContext : List (Runtime.Action Nat) :=
  [.consumer .start,.consumer (.begin 0),.graph (.construct Lifecycle.flow),
    .graph (.createContext 0 (.dict .empty))]

/- The graph is decomposed before the consumer asks for the first chunk. -/
def tooLate : List (Action Nat Nat) := [.runtime (.graph (.decompose 0 true)),.next]

def afterTooLate : State Nat Nat :=
  (Machine.run (stepNumbers (.context 0) .none) (start (prepared oneContext)) tooLate).getD
    (start (Runtime.initial 1))

/- The generator has ended with the refusal; the context is pending, the channel open. -/
theorem refusedStaysPending :
    ¬ ∀ (r : List (Runtime.Action Nat)) (runtime : Runtime.State Nat) (acts : List (Action Nat Nat))
      (s : State Nat Nat) (c : Nat) (left : Left),
      Machine.run (Runtime.step Baton.numbers) (Runtime.initial 1) r = some runtime →
      Machine.run (stepNumbers (.context c) .none) (start runtime) acts = some s →
      s.pc = .ended left → s.channel.closed = true ∧ Over 0 s.runtime.world c := by
  intro claim
  have ended := claim oneContext (prepared oneContext) tooLate afterTooLate 0 (.rejected decomposedError)
    rfl rfl rfl
  exact absurd ended.1 (by decide)

/- Two chunks are written before the run is aborted and one after it has ended. -/
def abortedRun : List (Action Nat Nat) :=
  [.next,.runtime (.invoke 0),.runtime (.invokePut 0),.runtime (.invokeResume 0),.write 7,.write 8,.deliver,
    .runtime (.graph (.abort 0)),.runtime (.wake 0),.callback,.write 9,.next,.next]

def afterAborted : State Nat Nat :=
  (Machine.run (stepNumbers (.context 0) .none) (start (prepared oneContext)) abortedRun).getD
    (start (Runtime.initial 1))

theorem streamedAborted : afterAborted.pc = .ended .exhausted ∧ Channel.chunks afterAborted.got = [7,8] ∧
    afterAborted.execution.isSome = true ∧ Streamed Baton.numbers 0 .none (.context 0) afterAborted :=
  ⟨rfl,rfl,rfl,@streamed Nat Nat Baton.numbers 0 1 .none (.context 0) afterAborted (prepared oneContext)
    oneContext abortedRun rfl rfl⟩

end Apixis.Stream
