import Apixis.Graph.NodeGraph

/-! The lifecycle of contexts over every sequence of operations: running sets are
exact, a context is admitted once, an outcome is never replaced, and what raises
changes nothing. -/
namespace Apixis.Lifecycle
open NodeGraph
open PyError (raiseIf leaving leavingOk raiseIfOk bindOk)

variable {V : Type} {w t u : World V} {x y z : GraphContext V} {c g : Nat} {status : Status}
  {value : GraphContext V → Future V} {graph : Graph}

/- What the runtime fields of a context are in each status. -/
def Shaped (context : GraphContext V) : Prop := match context.status with
  | .pending => context.runId = none ∧ context.completion = none ∧ context.onTerminal = none
  | .running => context.runId.isSome = true ∧ context.completion.isSome = true ∧
      context.onTerminal = some context.graphId
  | _ => context.onTerminal = none ∧ context.runId.isSome = context.completion.isSome ∧
      ∀ f, context.completion = some f → f.done = true

/- The running set of each graph is the set of its running contexts. -/
structure Exact (w : World V) : Prop where
  shaped : ∀ (c : Nat) x, w.contexts[c]? = some x → Shaped x
  owned : ∀ (c : Nat) x, w.contexts[c]? = some x → x.graphId < w.graphs.length
  running : ∀ (g : Nat) graph, w.graphs[g]? = some graph → ∀ c, c ∈ graph.contexts ↔
    ∃ x, w.contexts[c]? = some x ∧ x.graphId = g ∧ x.status = .running
  distinct : ∀ (g : Nat) graph, w.graphs[g]? = some graph → graph.contexts.Nodup

structure Managed (w : World V) : Prop extends Exact w where
  retired : ∀ (g : Nat) graph, w.graphs[g]? = some graph → graph.decomposed = true → graph.contexts = []

/- A context keeps its owner, its run, its outcome and its result. -/
structure Continues (x y : GraphContext V) : Prop where
  graphId : y.graphId = x.graphId
  status : x.status.terminal = true → y.status = x.status
  completion : ∀ f, x.completion = some f → f.done = true → y.completion = some f
  runId : ∀ r, x.runId = some r → y.runId = some r

def Persists (w t : World V) : Prop :=
  ∀ (c : Nat) x, w.contexts[c]? = some x → ∃ y, t.contexts[c]? = some y ∧ Continues x y

theorem continuesRefl (x : GraphContext V) : Continues x x :=
  ⟨rfl,fun _ => rfl,fun _ found _ => found,fun _ found => found⟩

theorem continuesTrans (first : Continues x y) (second : Continues y z) : Continues x z := by
  refine ⟨second.graphId.trans first.graphId,?_,?_,?_⟩
  · intro terminal
    have same := first.status terminal
    rw [← same]
    exact second.status (by rw [same]; exact terminal)
  · intro f found done
    exact second.completion f (first.completion f found done) done
  · intro r found
    exact second.runId r (first.runId r found)

theorem persistsRefl (w : World V) : Persists w w := fun _ x found => ⟨x,found,continuesRefl x⟩

theorem persistsTrans (first : Persists w t) (second : Persists t u) : Persists w u := by
  intro c x found
  obtain ⟨y,there,one⟩ := first c x found
  obtain ⟨z,last,two⟩ := second c y there
  exact ⟨z,last,continuesTrans one two⟩

theorem persistsSet (found : w.contexts[c]? = some x) (goes : Continues x y)
    (contexts : t.contexts = w.contexts.set c y) : Persists w t := by
  intro d z there
  rw [contexts]
  by_cases same : c = d
  · subst same
    cases Option.some.inj (found.symm.trans there)
    exact ⟨y,Slots.setSame found,goes⟩
  · exact ⟨z,by rwa [Slots.setOther same],continuesRefl z⟩

theorem persistsAppend (contexts : t.contexts = w.contexts ++ [y]) : Persists w t := by
  intro d z there
  exact ⟨z,by rw [contexts]; exact Slots.appendOld there,continuesRefl z⟩

theorem activeIff (exact_ : Exact w) (found : w.contexts[c]? = some x)
    (owner : w.graphs[g]? = some graph) : w.isActiveContext g c = true ↔
      x.graphId = g ∧ x.status = .running ∧ graph.decomposed = false := by
  unfold World.isActiveContext
  simp only [owner,found,GraphContext.isActive,Bool.and_eq_true,Bool.not_eq_true',beq_iff_eq,
    List.contains_iff_mem,exact_.running g graph owner]
  constructor
  · rintro ⟨⟨⟨live,mine⟩,_⟩,running⟩
    exact ⟨mine,running,live⟩
  · rintro ⟨mine,running,live⟩
    exact ⟨⟨⟨live,mine⟩,x,rfl,mine,running⟩,running⟩

/- A running context's graph is never decomposed. -/
theorem runningActive (managed : Managed w) (found : w.contexts[c]? = some x)
    (running : x.status = .running) : w.isActiveContext x.graphId c = true := by
  have bound := managed.owned c x found
  have owner := List.getElem?_eq_getElem bound
  refine (activeIff managed.toExact found owner).mpr ⟨rfl,running,?_⟩
  have member := (managed.running _ _ owner c).mpr ⟨x,found,rfl,running⟩
  cases live : (w.graphs[x.graphId]).decomposed with
  | false => rfl
  | true =>
    rw [managed.retired _ _ owner live] at member
    contradiction

/- A change that touches neither owner, status, run, completion nor callback. -/
structure Alike (x y : GraphContext V) : Prop where
  graphId : y.graphId = x.graphId
  runId : y.runId = x.runId
  completion : y.completion = x.completion
  status : y.status = x.status
  onTerminal : y.onTerminal = x.onTerminal

theorem alikeContinues (alike : Alike x y) : Continues x y :=
  ⟨alike.graphId,fun _ => alike.status,fun _ found _ => alike.completion.trans found,
    fun _ found => alike.runId.trans found⟩

theorem alikeShaped (alike : Alike x y) (shaped : Shaped x) : Shaped y := by
  unfold Shaped at shaped ⊢
  rw [alike.status,alike.runId,alike.completion,alike.onTerminal,alike.graphId]
  exact shaped

theorem setExact (exact_ : Exact w) (found : w.contexts[c]? = some x) (shaped : Shaped y)
    (graphId : y.graphId = x.graphId) (status : y.status = x.status) : Exact (w.setContext c y) := by
  refine ⟨?_,?_,?_,exact_.distinct⟩
  · intro d z there
    rcases Slots.setCases there with ⟨_,rfl⟩ | ⟨_,old⟩
    · exact shaped
    · exact exact_.shaped d z old
  · intro d z there
    rcases Slots.setCases there with ⟨_,rfl⟩ | ⟨_,old⟩
    · rw [graphId]; exact exact_.owned c x found
    · exact exact_.owned d z old
  · intro g graph owner d
    rw [exact_.running g graph owner d]
    constructor
    · rintro ⟨z,there,mine,running⟩
      by_cases same : c = d
      · subst same
        cases Option.some.inj (found.symm.trans there)
        exact ⟨y,Slots.setSame found,graphId.trans mine,status.trans running⟩
      · exact ⟨z,(Slots.setOther same).trans there,mine,running⟩
    · rintro ⟨z,there,mine,running⟩
      rcases Slots.setCases there with ⟨same,rfl⟩ | ⟨_,old⟩
      · subst same
        exact ⟨x,found,graphId ▸ mine,status ▸ running⟩
      · exact ⟨z,old,mine,running⟩

theorem setManaged (managed : Managed w) (found : w.contexts[c]? = some x) (shaped : Shaped y)
    (graphId : y.graphId = x.graphId) (status : y.status = x.status) : Managed (w.setContext c y) :=
  ⟨setExact managed.toExact found shaped graphId status,managed.retired⟩

/- A completion that is done stays; one that is not takes the value. -/
def settled (x : GraphContext V) (value : GraphContext V → Future V) : GraphContext V :=
  {x with completion := x.completion.map (fun f => if f.done then f else value x)}

theorem settleCases (found : w.contexts[c]? = some x) (value : GraphContext V → Future V) :
    settle w c value = .ok (w.setContext c (settled x value)) := by
  unfold settle
  rw [found]
  cases completion : x.completion with
  | none =>
    have same : settled x value = x := by
      unfold settled
      rw [completion,Option.map_none,← completion]
    simp only [completion,same,World.setContext,Slots.setEqual found]
  | some f =>
    by_cases done : f.done = true
    · have same : settled x value = x := by
        unfold settled
        rw [completion,Option.map_some,if_pos done,← completion]
      simp only [completion,done,if_true,same,World.setContext,Slots.setEqual found]
    · simp [Future.set,done,settled,completion,PyError.leavingReturned,bind,Except.bind,pure,Except.pure]

def ended (x : GraphContext V) (status : Status) (value : GraphContext V → Future V) :
    GraphContext V := settled {x with status := status, onTerminal := none} value

def endedWorld (w : World V) (c : Nat) (x : GraphContext V) (status : Status)
    (value : GraphContext V → Future V) : World V :=
  {w with
    contexts := w.contexts.set c (ended x status value)
    graphs := match x.onTerminal with
      | some g => discardFrom w.graphs g c
      | none => w.graphs}

theorem concludeCases (exact_ : Exact w) (found : w.contexts[c]? = some x)
    (final : status.terminal = true) (value : GraphContext V → Future V) :
    (conclude w c x status value = .ok w ∧ x.status = status) ∨
    (conclude w c x status value = .ok (endedWorld w c x status value) ∧
      allowed x.status status = true) ∨
    allowed x.status status = false ∧
      ∃ message, conclude w c x status value = .error (⟨.runtimeError,message⟩,w) := by
  have notRunning : status ≠ .running := by rintro rfl; contradiction
  unfold conclude transitionTo
  split
  · rename_i same
    have shaped := exact_.shaped c x found
    have kept : settled x value = x := by
      have done : ∀ f, x.completion = some f → f.done = true := by
        unfold Shaped at shaped
        rw [← same.1] at shaped
        cases status with
        | pending => contradiction
        | running => contradiction
        | failed => exact shaped.2.2
        | aborted => exact shaped.2.2
        | finished => exact shaped.2.2
      unfold settled
      cases completion : x.completion with
      | none => rw [Option.map_none,← completion]
      | some f => rw [Option.map_some,if_pos (done f completion),← completion]
    left
    refine ⟨?_,same.1.symm⟩
    simp only [bind,Except.bind,settleCases found value,kept,World.setContext,Slots.setEqual found]
  · split
    · rename_i known
      right; left
      refine ⟨?_,known⟩
      simp only [bind,Except.bind,World.enter,notRunning,if_false]
      have stored : (w.contexts.set c {x with status := status, onTerminal := none})[c]? =
          some {x with status := status, onTerminal := none} := Slots.setSame found
      cases callback : x.onTerminal with
      | none =>
        simp only
        rw [settleCases (w := w.setContext c _) stored]
        simp only [endedWorld,callback,World.setContext,List.set_set,ended]
      | some g =>
        simp only
        rw [settleCases (w := (w.setContext c _).discard g c) stored]
        simp only [endedWorld,callback,World.setContext,World.discard,List.set_set,ended]
    · rename_i refused
      right; right
      exact ⟨by simpa using refused,_,rfl⟩

theorem endedContinues (permitted : allowed x.status status = true) :
    Continues x (ended x status value) := by
  refine ⟨rfl,?_,?_,fun _ found => found⟩
  · intro terminal
    cases at_ : x.status <;> rw [at_] at permitted terminal <;> contradiction
  · intro f found done
    simp [ended,settled,found,done]

theorem endedShaped (shaped : Shaped x) (permitted : allowed x.status status = true)
    (final : status.terminal = true) (settles : ∀ z, (value z).done = true) :
    Shaped (ended x status value) := by
  have parts : (ended x status value).onTerminal = none ∧
      (ended x status value).runId.isSome = (ended x status value).completion.isSome ∧
      ∀ f, (ended x status value).completion = some f → f.done = true := by
    refine ⟨rfl,?_,?_⟩
    · simp only [ended,settled,Option.isSome_map]
      unfold Shaped at shaped
      cases at_ : x.status <;> rw [at_] at shaped permitted <;> simp_all [allowed]
    · intro f found
      simp only [ended,settled,Option.map_eq_some_iff] at found
      obtain ⟨old,_,rfl⟩ := found
      split
      · assumption
      · exact settles _
  unfold Shaped
  cases status with
  | pending => contradiction
  | running => contradiction
  | failed => exact parts
  | aborted => exact parts
  | finished => exact parts

theorem endedGraphs (exact_ : Exact w) (found : w.contexts[c]? = some x)
    (permitted : allowed x.status status = true)
    (owner : (endedWorld w c x status value).graphs[g]? = some graph) :
    ∃ old, w.graphs[g]? = some old ∧
      graph = {old with contexts := old.contexts.filter (fun d => d != c)} := by
  have shaped := exact_.shaped c x found
  have absent : ∀ old, w.graphs[g]? = some old → (x.status = .running → x.graphId ≠ g) →
      old = {old with contexts := old.contexts.filter (fun d => d != c)} := by
    intro old there elsewhere
    have out : c ∉ old.contexts := by
      intro member
      obtain ⟨y,same,mine,running⟩ := (exact_.running g old there c).mp member
      cases Option.some.inj (found.symm.trans same)
      exact elsewhere running mine
    have same : old.contexts.filter (fun d => d != c) = old.contexts := by
      refine List.filter_eq_self.mpr ?_
      intro d member
      have different : d ≠ c := fun equal => out (equal ▸ member)
      simpa using different
    rw [same]
  unfold Shaped at shaped
  cases at_ : x.status with
  | pending =>
    rw [at_] at shaped
    simp only [endedWorld,shaped.2.2] at owner
    exact ⟨graph,owner,absent graph owner (fun running => by rw [at_] at running; contradiction)⟩
  | running =>
    rw [at_] at shaped
    simp only [endedWorld,shaped.2.2,discardFrom] at owner
    split at owner
    · rename_i mine there
      rcases Slots.setCases owner with ⟨same,rfl⟩ | ⟨other,old⟩
      · subst same
        exact ⟨mine,there,rfl⟩
      · exact ⟨graph,old,absent graph old (fun _ => other)⟩
    · rename_i missing
      have bound := exact_.owned c x found
      rw [List.getElem?_eq_getElem bound] at missing
      contradiction
  | failed => rw [at_] at permitted; cases status <;> contradiction
  | aborted => rw [at_] at permitted; cases status <;> contradiction
  | finished => rw [at_] at permitted; cases status <;> contradiction

theorem discardLength (graphs : List Graph) (g c : Nat) :
    (discardFrom graphs g c).length = graphs.length := by
  unfold discardFrom
  split
  · exact List.length_set
  · rfl

theorem endedLength : (endedWorld w c x status value).graphs.length = w.graphs.length := by
  unfold endedWorld
  cases x.onTerminal with
  | none => rfl
  | some g => exact discardLength w.graphs g c

theorem endedExact (exact_ : Exact w) (found : w.contexts[c]? = some x)
    (permitted : allowed x.status status = true) (final : status.terminal = true)
    (settles : ∀ z, (value z).done = true) : Exact (endedWorld w c x status value) := by
  have shaped := endedShaped (exact_.shaped c x found) permitted final settles
  have stored : (endedWorld w c x status value).contexts = w.contexts.set c (ended x status value) := rfl
  have stopped : (ended x status value).status ≠ .running := by
    intro running
    have same : status = .running := running
    rw [same] at final
    contradiction
  refine ⟨?_,?_,?_,?_⟩
  · intro d z there
    rcases Slots.setCases (stored ▸ there) with ⟨_,rfl⟩ | ⟨_,old⟩
    · exact shaped
    · exact exact_.shaped d z old
  · intro d z there
    rw [endedLength]
    rcases Slots.setCases (stored ▸ there) with ⟨_,rfl⟩ | ⟨_,old⟩
    · exact exact_.owned c x found
    · exact exact_.owned d z old
  · intro g graph owner d
    obtain ⟨old,there,rfl⟩ := endedGraphs exact_ found permitted owner
    simp only [List.mem_filter,exact_.running g old there d,bne_iff_ne,ne_eq]
    constructor
    · rintro ⟨⟨z,known,mine,running⟩,other⟩
      exact ⟨z,by rw [stored,Slots.setOther (Ne.symm other)]; exact known,mine,running⟩
    · rintro ⟨z,known,mine,running⟩
      rcases Slots.setCases (stored ▸ known) with ⟨_,rfl⟩ | ⟨other,before⟩
      · exact absurd running stopped
      · exact ⟨⟨z,before,mine,running⟩,Ne.symm other⟩
  · intro g graph owner
    obtain ⟨old,there,rfl⟩ := endedGraphs exact_ found permitted owner
    exact (exact_.distinct g old there).filter _

theorem endedManaged (managed : Managed w) (found : w.contexts[c]? = some x)
    (permitted : allowed x.status status = true) (final : status.terminal = true)
    (settles : ∀ z, (value z).done = true) : Managed (endedWorld w c x status value) := by
  refine ⟨endedExact managed.toExact found permitted final settles,?_⟩
  intro g graph owner gone
  obtain ⟨old,there,rfl⟩ := endedGraphs managed.toExact found permitted owner
  have none_ := managed.retired g old there gone
  simp only [none_,List.filter_nil]

/- A check never fails with InvalidStateError. -/
def Legal {α : Type} (call : Except PyError α) : Prop :=
  ∀ error, call = .error error → error.kind ≠ .invalidStateError

/- No context but `new` has been given a run. -/
def Starts (new : Option Nat) (w t : World V) : Prop :=
  ∀ (c : Nat) y, t.contexts[c]? = some y → y.runId ≠ none →
    new = some c ∨ ∃ x, w.contexts[c]? = some x ∧ x.runId ≠ none

structure Goes (new : Option Nat) (w t : World V) : Prop where
  managed : Managed t
  persists : Persists w t
  starts : Starts new w t

/- A call that returns keeps what every context has settled; one that raises
changes nothing. -/
def Sound (new : Option Nat) (w : World V) : Call V (World V) → Prop
  | .ok t => Goes new w t
  | .error (error,t) => error.kind ≠ .invalidStateError ∧ t = w

variable {new : Option Nat}

theorem startsSame (contexts : t.contexts = w.contexts) : Starts new w t :=
  fun _ y found started => .inr ⟨y,contexts ▸ found,started⟩

theorem startsSet (found : w.contexts[c]? = some x) (same : y.runId = x.runId)
    (contexts : t.contexts = w.contexts.set c y) : Starts new w t := by
  intro d z there started
  rw [contexts] at there
  rcases Slots.setCases there with ⟨place,rfl⟩ | ⟨_,old⟩
  · subst place
    exact .inr ⟨x,found,same ▸ started⟩
  · exact .inr ⟨z,old,started⟩

theorem startsAppend (idle : y.runId = none) (contexts : t.contexts = w.contexts ++ [y]) :
    Starts new w t := by
  intro d z there started
  rw [contexts] at there
  rcases Slots.appendCases there with ⟨_,rfl⟩ | old
  · exact absurd idle started
  · exact .inr ⟨z,old,started⟩

section Checks
variable {α β : Type}

theorem legalOk (a : α) : Legal (.ok a : Except PyError α) := by
  intro error raised
  contradiction

theorem legalError {error : PyError} (kind : error.kind ≠ .invalidStateError) :
    Legal (.error error : Except PyError α) := by
  intro other raised
  cases raised
  exact kind

theorem legalRaiseIf {bad : Bool} {error : PyError} (kind : error.kind ≠ .invalidStateError) :
    Legal (raiseIf bad error) := by
  intro other raised
  cases bad with
  | false => contradiction
  | true => cases raised; exact kind

theorem legalBind {call : Except PyError α} {f : α → Except PyError β} (first : Legal call)
    (next : ∀ a, Legal (f a)) : Legal (call >>= f) := by
  intro error raised
  cases call with
  | error other => cases raised; exact first _ rfl
  | ok a => exact next a error raised

theorem legalCopy (copyable : V → Bool) (keep : List String) (state : StateDict V) :
    Legal (copyState copyable keep state) :=
  legalBind (legalRaiseIf nofun) (fun _ => legalOk _)

theorem legalCopyAll (copyable : V → Bool) (l : List (Snapshot V)) : Legal (copyAll copyable l) := by
  induction l with
  | nil => exact legalOk _
  | cons snapshot rest ih => exact legalBind (legalCopy copyable [] snapshot.state) (fun _ => ih)

theorem legalPrepare (copyable : V → Bool) (keep : List String) (state : StateArg V) :
    Legal (prepareState copyable keep state) := by
  cases state with
  | dict d => exact legalCopy copyable keep d
  | none => exact legalError nofun
  | other => exact legalError nofun

theorem legalKnown (nodes names : List String) : Legal (Target.checkKnown nodes names) := by
  induction names with
  | nil => exact legalOk _
  | cons name rest ih =>
    unfold Target.checkKnown
    split
    · exact ih
    · exact legalError (by intro bad; cases bad)

theorem legalTarget (nodes : List String) (goto : Goto) : Legal (Target.normaliseTarget nodes goto) := by
  unfold Target.normaliseTarget
  split
  · exact legalError nofun
  · exact legalOk _
  · split
    · exact legalOk _
    · exact legalBind (legalKnown nodes _) (fun _ => legalOk _)
  · split
    · exact legalOk _
    · exact legalBind (legalKnown nodes _) (fun _ => legalOk _)

theorem legalValidateTarget (graph : Graph) (target : Target) (steps : Int) :
    Legal (validateTarget graph target steps) := by
  refine legalBind (legalRaiseIf nofun) (fun _ => ?_)
  refine legalBind (legalTarget _ _) (fun _ => ?_)
  exact legalBind (legalRaiseIf nofun) (fun _ => legalOk _)

theorem legalValidate (g : Nat) (raw : Option (RawSnapshot V)) : Legal (validateSnapshot g raw) := by
  unfold validateSnapshot
  split
  · exact legalError nofun
  · split
    · refine legalBind ?_ (fun _ => legalBind ?_ (fun _ => legalBind ?_ (fun _ => legalBind ?_ (fun _ =>
        legalBind ?_ (fun _ => legalOk _)))))
      · unfold rawGraphId
        split
        · exact legalBind (legalRaiseIf nofun) (fun _ => legalOk _)
        · exact legalError nofun
        · exact legalError nofun
      · unfold rawState
        split
        · exact legalOk _
        · exact legalError nofun
      · unfold rawTarget
        split
        · exact legalOk _
        · exact legalOk _
        · exact legalError nofun
      · unfold rawSteps
        split
        · exact legalBind (legalRaiseIf nofun) (fun _ => legalOk _)
        · exact legalError nofun
      · unfold rawTimestamp
        split
        · exact legalOk _
        · exact legalOk _
        · exact legalError nofun
    · exact legalError nofun

theorem legalValidateAll (g : Nat) (l : List (Option (RawSnapshot V))) : Legal (validateAll g l) := by
  induction l with
  | nil => exact legalOk _
  | cons raw rest ih =>
    exact legalBind (legalValidate g raw) (fun _ => legalBind ih (fun _ => legalOk _))

theorem legalSelect (l : List (Option (RawSnapshot V))) (version : Int) :
    Legal (selectHistory l version) := by
  refine legalBind (legalRaiseIf nofun) (fun _ => ?_)
  split
  · exact legalError nofun
  · exact legalOk _

theorem legalSource (w : World V) (g : Nat) (version : Int) (source : Source V) :
    Legal (sourceHistory w g version source) := by
  cases source with
  | context c =>
    simp only [sourceHistory]
    split
    · exact legalError nofun
    · refine legalBind (legalRaiseIf nofun) (fun _ => ?_)
      exact legalSelect _ version
  | snapshots l => exact legalSelect l version
  | snapshot raw => exact legalOk _
  | nothing => exact legalError nofun
  | other => exact legalError nofun

end Checks

theorem soundSame (managed : Managed w) : Sound new w (.ok w) :=
  ⟨managed,persistsRefl w,startsSame rfl⟩

theorem soundRaise {error : PyError} (kind : error.kind ≠ .invalidStateError) :
    Sound new w (.error (error,w)) := ⟨kind,rfl⟩

theorem soundLeaving {α : Type} {call : Except PyError α} {f : α → Call V (World V)}
    (legal : Legal call) (next : ∀ a, call = .ok a → Sound new w (f a)) :
    Sound new w (leaving w call >>= f) := by
  cases call with
  | error error => exact soundRaise (legal error rfl)
  | ok a => exact next a rfl

theorem soundConclude (managed : Managed w) (found : w.contexts[c]? = some x)
    (final : status.terminal = true) (settles : ∀ z, (value z).done = true) :
    Sound new w (conclude w c x status value) := by
  rcases concludeCases managed.toExact found final value with ⟨done,_⟩ | ⟨done,permitted⟩ | ⟨_,message,raised⟩
  · rw [done]
    exact soundSame managed
  · rw [done]
    exact ⟨endedManaged managed found permitted final settles,
      persistsSet found (endedContinues permitted) rfl,
      startsSet (y := ended x status value) found rfl rfl⟩
  · rw [raised]
    exact soundRaise nofun

theorem soundFinish (managed : Managed w) (found : w.contexts[c]? = some x) : Sound new w (finish w c x) :=
  soundLeaving (legalRaiseIf nofun)
    (fun _ _ => soundConclude managed found rfl (fun _ => rfl))

theorem soundFail (managed : Managed w) (found : w.contexts[c]? = some x) (error : PyError) :
    Sound new w (fail w c x error) := soundConclude managed found rfl (fun _ => rfl)

theorem soundAbort (managed : Managed w) (found : w.contexts[c]? = some x) : Sound new w (abort w c x) :=
  soundConclude managed found rfl (fun _ => rfl)

theorem soundCancel (managed : Managed w) (found : w.contexts[c]? = some x) : Sound new w (cancel w c x) :=
  soundConclude managed found rfl (fun _ => rfl)

structure Fresh (g : Nat) (x : GraphContext V) : Prop where
  graphId : x.graphId = g
  status : x.status = .pending
  runId : x.runId = none
  completion : x.completion = none
  onTerminal : x.onTerminal = none

theorem appendManaged (managed : Managed w) (fresh : Fresh g x) (owner : w.graphs[g]? = some graph) :
    Managed {w with contexts := w.contexts ++ [x]} := by
  refine ⟨⟨?_,?_,?_,managed.distinct⟩,managed.retired⟩
  · intro d z there
    rcases Slots.appendCases there with ⟨_,rfl⟩ | old
    · unfold Shaped
      rw [fresh.status]
      exact ⟨fresh.runId,fresh.completion,fresh.onTerminal⟩
    · exact managed.shaped d z old
  · intro d z there
    rcases Slots.appendCases there with ⟨_,rfl⟩ | old
    · rw [fresh.graphId]
      exact Slots.inside owner
    · exact managed.owned d z old
  · intro h other there d
    rw [managed.running h other there d]
    constructor
    · rintro ⟨z,known,mine,running⟩
      exact ⟨z,Slots.appendOld known,mine,running⟩
    · rintro ⟨z,known,mine,running⟩
      rcases Slots.appendCases known with ⟨_,rfl⟩ | old
      · rw [fresh.status] at running
        contradiction
      · exact ⟨z,old,mine,running⟩

theorem soundAppend (managed : Managed w) (fresh : Fresh g x) (owner : w.graphs[g]? = some graph) :
    Sound new w (.ok {w with contexts := w.contexts ++ [x]}) :=
  ⟨appendManaged managed fresh owner,persistsAppend rfl,startsAppend fresh.runId rfl⟩

theorem soundCreate {copyable : V → Bool} (managed : Managed w) (owner : w.graphs[g]? = some graph)
    (state : StateArg V) : Sound new w (createContext copyable w g graph state) := by
  refine soundLeaving (legalRaiseIf nofun) (fun _ _ => ?_)
  refine soundLeaving (legalPrepare copyable _ state) (fun prepared _ => ?_)
  exact soundAppend managed ⟨rfl,rfl,rfl,rfl,rfl⟩ owner

theorem soundRestore {copyable : V → Bool} (managed : Managed w) (owner : w.graphs[g]? = some graph)
    (source : Source V) (version : Int) :
    Sound new w (restoreContext copyable w g graph source version) := by
  refine soundLeaving (legalRaiseIf nofun) (fun _ _ => ?_)
  refine soundLeaving (legalSource w g version source) (fun raw _ => ?_)
  refine soundLeaving (legalValidateAll g raw) (fun history _ => ?_)
  refine soundLeaving (legalCopyAll copyable history) (fun _ _ => ?_)
  split
  · exact soundRaise nofun
  · exact soundAppend managed ⟨rfl,rfl,rfl,rfl,rfl⟩ owner

theorem validated {raw : Option (RawSnapshot V)} {snapshot : Snapshot V}
    (valid : validateSnapshot g raw = .ok snapshot) : snapshot.graphId = g ∧ 0 ≤ snapshot.steps := by
  unfold validateSnapshot at valid
  split at valid
  · contradiction
  · split at valid
    · simp only [bindOk] at valid
      obtain ⟨owner,mine,_,_,_,_,steps,counted,_,_,last⟩ := valid
      cases last
      refine ⟨?_,?_⟩
      · unfold rawGraphId at mine
        split at mine
        · simp only [bindOk,raiseIfOk,bne_eq_false_iff_eq] at mine
          obtain ⟨_,same,last⟩ := mine
          cases last
          exact same
        · contradiction
        · contradiction
      · unfold rawSteps at counted
        split at counted
        · simp only [bindOk,raiseIfOk] at counted
          obtain ⟨_,positive,last⟩ := counted
          cases last
          simpa using positive
        · contradiction
    · contradiction

theorem validatedAll {raw : List (Option (RawSnapshot V))} {history : List (Snapshot V)}
    (valid : validateAll g raw = .ok history) :
    ∀ snapshot ∈ history, snapshot.graphId = g ∧ 0 ≤ snapshot.steps := by
  induction raw generalizing history with
  | nil =>
    cases valid
    exact fun _ member => absurd member List.not_mem_nil
  | cons head tail ih =>
    simp only [validateAll,bindOk] at valid
    obtain ⟨first,one,rest,more,last⟩ := valid
    cases last
    intro snapshot member
    rcases List.mem_cons.mp member with rfl | later
    · exact validated one
    · exact ih more snapshot later

theorem restoreOk {copyable : V → Bool} {source : Source V} {version : Int}
    (call : restoreContext copyable w g graph source version = .ok t) : ∃ raw history restored,
      graph.decomposed = false ∧ sourceHistory w g version source = .ok raw ∧
      validateAll g raw = .ok history ∧ copyAll copyable history = .ok () ∧
      history.getLast? = some restored ∧
      t = {w with contexts := w.contexts ++ [restoredContext g history restored]} := by
  simp only [restoreContext,ensureNotDecomposed,bindOk,leavingOk,raiseIfOk,exists_const] at call
  obtain ⟨live,raw,sourced,history,valid,_,copied,last⟩ := call
  split at last
  · contradiction
  · rename_i restored latest
    cases last
    exact ⟨raw,history,restored,live,sourced,valid,copied,latest,rfl⟩

def bound (x : GraphContext V) (g run : Nat) : GraphContext V :=
  {x with status := .running, runId := some run, completion := some .pending, onTerminal := some g}

def admittedWorld (w : World V) (g c : Nat) (graph : Graph) (x : GraphContext V) : World V :=
  ⟨w.graphs.set g {graph with contexts := graph.contexts ++ [c]},
    w.contexts.set c (bound x g w.runs),w.runs + 1⟩

theorem admitCases (pending : x.status = .pending) :
    admitContext w g c graph x = .ok (admittedWorld w g c graph x) := by
  simp only [admitContext,transitionTo,pending,Status.terminal,allowed,World.enter,World.setContext,
    World.setGraph,bind,Except.bind,pure,Except.pure,admittedWorld,bound]
  simp

theorem admittedManaged (managed : Managed w) (found : w.contexts[c]? = some x)
    (owner : w.graphs[g]? = some graph) (mine : x.graphId = g) (pending : x.status = .pending)
    (live : graph.decomposed = false) : Managed (admittedWorld w g c graph x) := by
  have absent : c ∉ graph.contexts := by
    intro member
    obtain ⟨y,same,_,running⟩ := (managed.running g graph owner c).mp member
    cases Option.some.inj (found.symm.trans same)
    rw [pending] at running
    contradiction
  refine ⟨⟨?_,?_,?_,?_⟩,?_⟩
  · intro d z there
    rcases Slots.setCases there with ⟨_,rfl⟩ | ⟨_,old⟩
    · exact ⟨rfl,rfl,congrArg some mine.symm⟩
    · exact managed.shaped d z old
  · intro d z there
    simp only [admittedWorld,List.length_set]
    rcases Slots.setCases there with ⟨_,rfl⟩ | ⟨_,old⟩
    · exact managed.owned c x found
    · exact managed.owned d z old
  · intro h other there d
    have elsewhere : ∀ z, w.contexts[d]? = some z → z.status = .running → c ≠ d := by
      rintro z known running rfl
      cases Option.some.inj (found.symm.trans known)
      rw [pending] at running
      contradiction
    have moved : (∃ z, (admittedWorld w g c graph x).contexts[d]? = some z ∧ z.graphId = h ∧
        z.status = .running) ↔ (d = c ∧ h = g) ∨
        ∃ z, w.contexts[d]? = some z ∧ z.graphId = h ∧ z.status = .running := by
      constructor
      · rintro ⟨z,known,owned,running⟩
        rcases Slots.setCases known with ⟨same,rfl⟩ | ⟨_,old⟩
        · exact .inl ⟨same.symm,owned.symm.trans mine⟩
        · exact .inr ⟨z,old,owned,running⟩
      · rintro (⟨rfl,rfl⟩ | ⟨z,known,owned,running⟩)
        · exact ⟨bound x h w.runs,Slots.setSame found,mine,rfl⟩
        · exact ⟨z,(Slots.setOther (elsewhere z known running)).trans known,owned,running⟩
    rw [moved]
    rcases Slots.setCases there with ⟨same,rfl⟩ | ⟨different,old⟩
    · subst same
      rw [List.mem_append,List.mem_singleton,managed.running g graph owner d]
      constructor
      · rintro (old | new)
        · exact .inr old
        · exact .inl ⟨new,rfl⟩
      · rintro (⟨new,_⟩ | old)
        · exact .inr new
        · exact .inl old
    · rw [managed.running h other old d]
      constructor
      · exact .inr
      · rintro (⟨_,same⟩ | old)
        · exact absurd same.symm different
        · exact old
  · intro h other there
    rcases Slots.setCases there with ⟨_,rfl⟩ | ⟨_,old⟩
    · refine (managed.distinct g graph owner).append (List.nodup_singleton c) ?_
      intro d old new
      rw [List.mem_singleton.mp new] at old
      exact absent old
    · exact managed.distinct h other old
  · intro h other there gone
    rcases Slots.setCases there with ⟨_,rfl⟩ | ⟨_,old⟩
    · rw [live] at gone
      contradiction
    · exact managed.retired h other old gone

theorem admittedPersists (managed : Managed w) (found : w.contexts[c]? = some x)
    (pending : x.status = .pending) : Persists w (admittedWorld w g c graph x) := by
  have shaped := managed.shaped c x found
  unfold Shaped at shaped
  rw [pending] at shaped
  have goes : Continues x (bound x g w.runs) := by
    refine ⟨rfl,?_,?_,?_⟩
    · intro terminal
      rw [pending] at terminal
      contradiction
    · intro f known
      rw [shaped.2.1] at known
      contradiction
    · intro r known
      rw [shaped.1] at known
      contradiction
  exact persistsSet found goes rfl

theorem beginWithOk (call : beginWith w g c graph = .ok t) : ∃ x, w.contexts[c]? = some x ∧
    x.graphId = g ∧ x.status = .pending ∧
    (∃ target, validateTarget graph x.targetNodeName x.steps = .ok target) ∧
    t = admittedWorld w g c graph x := by
  unfold beginWith at call
  split at call
  · contradiction
  · rename_i x found
    simp only [bindOk,leavingOk,raiseIfOk,bne_eq_false_iff_eq,exists_const] at call
    obtain ⟨mine,pending,target,valid,last⟩ := call
    rw [admitCases pending] at last
    cases last
    exact ⟨x,found,mine,pending,⟨target,valid⟩,rfl⟩

theorem soundBegin (managed : Managed w) (owner : w.graphs[g]? = some graph)
    (live : graph.decomposed = false) : Sound (some c) w (beginWith w g c graph) := by
  unfold beginWith
  split
  · exact soundRaise nofun
  · rename_i x found
    refine soundLeaving (legalRaiseIf nofun) (fun _ mine => ?_)
    refine soundLeaving (legalRaiseIf nofun) (fun _ waiting => ?_)
    refine soundLeaving (legalValidateTarget _ _ _) (fun _ _ => ?_)
    have mine : x.graphId = g := by simpa using raiseIfOk.mp mine
    have pending : x.status = .pending := by simpa using raiseIfOk.mp waiting
    rw [admitCases pending]
    refine ⟨admittedManaged managed found owner mine pending live,
      admittedPersists managed found pending,?_⟩
    intro d z there started
    rcases Slots.setCases there with ⟨place,_⟩ | ⟨_,old⟩
    · exact .inl (congrArg some place)
    · exact .inr ⟨z,old,started⟩

theorem createOk {copyable : V → Bool} {state : StateArg V}
    (call : createContext copyable w g graph state = .ok t) : ∃ prepared,
      prepareState copyable graph.keepRefKeys state = .ok prepared ∧ graph.decomposed = false ∧
      t = {w with contexts := w.contexts ++ [newContext g graph prepared]} := by
  simp only [createContext,ensureNotDecomposed,bindOk,leavingOk,raiseIfOk,exists_const] at call
  obtain ⟨live,prepared,copied,last⟩ := call
  cases last
  exact ⟨prepared,copied,live,rfl⟩

/- The context an invocation is about, a new one unless one is given. -/
def chosen (w : World V) : ContextArg → Nat
  | .context c => c
  | _ => w.contexts.length

theorem soundInvocation {copyable : V → Bool} (managed : Managed w)
    (owner : w.graphs[g]? = some graph) (state : StateArg V) (context : ContextArg) :
    Sound (some (chosen w context)) w (beginInvocation copyable w g graph state context) := by
  refine soundLeaving (legalRaiseIf nofun) (fun _ checked => ?_)
  have live := raiseIfOk.mp checked
  split
  · rename_i d
    cases created : createContext copyable w g graph (.dict d) with
    | error raised =>
      have sound := @soundCreate V w g graph none copyable managed owner (.dict d)
      rw [created] at sound
      exact sound
    | ok t =>
      obtain ⟨prepared,_,_,rfl⟩ := createOk created
      have fresh : Fresh g (newContext g graph prepared) := ⟨rfl,rfl,rfl,rfl,rfl⟩
      have grown := appendManaged managed fresh owner
      have sound := soundBegin (c := w.contexts.length) grown owner live
      cases begun : beginWith {w with contexts := w.contexts ++ [newContext g graph prepared]} g
          w.contexts.length graph with
      | error raised =>
        rw [begun] at sound
        simp only [bind,Except.bind,begun]
        exact soundRaise sound.1
      | ok u =>
        rw [begun] at sound
        simp only [bind,Except.bind,begun]
        refine ⟨sound.managed,persistsTrans (persistsAppend rfl) sound.persists,?_⟩
        intro c y found started
        rcases sound.starts c y found started with fresh | ⟨z,known,before⟩
        · exact .inl fresh
        · exact startsAppend rfl rfl c z known before
  · exact soundRaise nofun
  · exact soundBegin managed owner live
  · exact soundRaise nofun
  · exact soundRaise nofun

theorem endedGraphsMap (exact_ : Exact w) (found : w.contexts[c]? = some x)
    (permitted : allowed x.status status = true) (g : Nat) :
    (endedWorld w c x status value).graphs[g]? = (w.graphs[g]?).map
      (fun old => {old with contexts := old.contexts.filter (fun d => d != c)}) := by
  cases owner : (endedWorld w c x status value).graphs[g]? with
  | none =>
    have outside := List.getElem?_eq_none_iff.mp owner
    rw [endedLength] at outside
    rw [List.getElem?_eq_none_iff.mpr outside]
    rfl
  | some graph =>
    obtain ⟨old,there,rfl⟩ := endedGraphs exact_ found permitted owner
    rw [there]
    rfl

theorem abortAllRuns {l : List Nat} (exact_ : Exact w) (distinct : l.Nodup)
    (running : ∀ c ∈ l, ∃ x, w.contexts[c]? = some x ∧ x.status = .running) :
    ∃ t, abortAll w l = .ok t ∧ Exact t ∧ Persists w t ∧
      (∀ c : Nat, t.contexts[c]? = (w.contexts[c]?).map
        (fun x => if c ∈ l then ended x .aborted abortResult else x)) ∧
      (∀ g : Nat, t.graphs[g]? = (w.graphs[g]?).map
        (fun old => {old with contexts := old.contexts.filter (fun d => d ∉ l)})) ∧
      t.runs = w.runs := by
  induction l generalizing w with
  | nil => exact ⟨w,rfl,exact_,persistsRefl w,by simp,by simp,rfl⟩
  | cons c rest ih =>
    obtain ⟨x,found,active⟩ := running c List.mem_cons_self
    obtain ⟨fresh,tail⟩ := List.nodup_cons.mp distinct
    have permitted : allowed x.status .aborted = true := by rw [active]; rfl
    have aborted : abort w c x = .ok (endedWorld w c x .aborted abortResult) := by
      rcases @concludeCases V w _ _ .aborted exact_ found rfl abortResult with
        ⟨_,same⟩ | ⟨done,_⟩ | ⟨refused,_⟩
      · rw [active] at same
        contradiction
      · exact done
      · rw [permitted] at refused
        contradiction
    have next := @endedExact V w _ _ _ abortResult exact_ found permitted rfl (fun _ => rfl)
    have goes : Persists w (endedWorld w c x .aborted abortResult) :=
      persistsSet found (endedContinues permitted) rfl
    have stored : (endedWorld w c x .aborted abortResult).contexts =
        w.contexts.set c (ended x .aborted abortResult) := rfl
    have others : ∀ d ∈ rest, ∃ y, (endedWorld w c x .aborted abortResult).contexts[d]? = some y ∧
        y.status = .running := by
      intro d member
      obtain ⟨y,known,there⟩ := running d (List.mem_cons_of_mem c member)
      have different : c ≠ d := fun same => fresh (same ▸ member)
      exact ⟨y,by rw [stored,Slots.setOther different]; exact known,there⟩
    obtain ⟨t,done,last,persists,contexts,graphs,runs⟩ := ih next tail others
    refine ⟨t,?_,last,persistsTrans goes persists,?_,?_,runs⟩
    · simp only [abortAll,found,aborted,bind,Except.bind,done]
    · intro d
      rw [contexts d,stored]
      by_cases same : c = d
      · subst same
        rw [Slots.setSame found,found]
        simp [fresh]
      · rw [Slots.setOther same]
        simp [Ne.symm same]
    · intro g
      rw [graphs g,endedGraphsMap exact_ found permitted g,Option.map_map]
      congr 1
      funext old
      simp only [Function.comp,List.filter_filter,List.mem_cons,not_or]
      congr 1
      refine List.filter_congr ?_
      intro d _
      by_cases same : d = c <;> by_cases inside : d ∈ rest <;> simp [same,inside]

theorem graphExact {new : Graph} (exact_ : Exact w) (owner : w.graphs[g]? = some graph)
    (same : new.contexts = graph.contexts) : Exact (w.setGraph g new) := by
  refine ⟨exact_.shaped,?_,?_,?_⟩
  · intro c x found
    simp only [World.setGraph,List.length_set]
    exact exact_.owned c x found
  · intro h other there d
    rcases Slots.setCases there with ⟨place,rfl⟩ | ⟨_,old⟩
    · subst place
      rw [same]
      exact exact_.running g graph owner d
    · exact exact_.running h other old d
  · intro h other there
    rcases Slots.setCases there with ⟨_,rfl⟩ | ⟨_,old⟩
    · rw [same]
      exact exact_.distinct g graph owner
    · exact exact_.distinct h other old

/- The world once graph `g` is retired. -/
structure Decomposed (w : World V) (g : Nat) (t : World V) : Prop where
  contexts : ∀ c : Nat, t.contexts[c]? = (w.contexts[c]?).map
    (fun x => if x.graphId = g ∧ x.status = .running then ended x .aborted abortResult else x)
  graphs : ∀ h : Nat, t.graphs[h]? = (w.graphs[h]?).map
    (fun old => if h = g then {old with decomposed := true, contexts := []} else old)
  runs : t.runs = w.runs

theorem decomposeRuns (managed : Managed w) (owner : w.graphs[g]? = some graph) :
    ∃ t, abortAll (w.setGraph g {graph with decomposed := true}) graph.contexts = .ok t ∧
      Managed t ∧ Persists w t ∧ Decomposed w g t := by
  have stopped : Exact (w.setGraph g {graph with decomposed := true}) :=
    graphExact managed.toExact owner rfl
  have running : ∀ c ∈ graph.contexts, ∃ x, w.contexts[c]? = some x ∧ x.status = .running := by
    intro c member
    obtain ⟨x,found,_,active⟩ := (managed.running g graph owner c).mp member
    exact ⟨x,found,active⟩
  obtain ⟨t,done,last,persists,contexts,graphs,runs⟩ :=
    abortAllRuns stopped (managed.distinct g graph owner) running
  have changed : ∀ h : Nat, t.graphs[h]? = (w.graphs[h]?).map
      (fun old => if h = g then {old with decomposed := true, contexts := []} else old) := by
    intro h
    rw [graphs h]
    by_cases same : g = h
    · subst same
      simp only [World.setGraph,Slots.setSame owner,owner,Option.map_some,if_true]
      simp
    · simp only [World.setGraph,Slots.setOther same]
      cases there : w.graphs[h]? with
      | none => rfl
      | some old =>
        have apart : old.contexts.filter (fun d => d ∉ graph.contexts) = old.contexts := by
          refine List.filter_eq_self.mpr ?_
          intro d member
          obtain ⟨x,found,mine,_⟩ := (managed.running h old there d).mp member
          have outside : d ∉ graph.contexts := by
            intro inside
            obtain ⟨y,known,other,_⟩ := (managed.running g graph owner d).mp inside
            cases Option.some.inj (found.symm.trans known)
            exact same (other.symm.trans mine)
          simpa using outside
        simp only [Option.map_some,apart,Ne.symm same,if_false]
  refine ⟨t,done,⟨last,?_⟩,persists,?_,changed,runs⟩
  · intro h other there gone
    rw [changed h] at there
    obtain ⟨old,before,rfl⟩ := Option.map_eq_some_iff.mp there
    by_cases same : h = g
    · simp [same]
    · simp only [same,if_false] at gone ⊢
      exact managed.retired h old before gone
  · intro c
    rw [contexts c]
    simp only [World.setGraph]
    cases found : w.contexts[c]? with
    | none => rfl
    | some x =>
      have member : c ∈ graph.contexts ↔ x.graphId = g ∧ x.status = .running := by
        rw [managed.running g graph owner c]
        constructor
        · rintro ⟨y,known,parts⟩
          cases Option.some.inj (found.symm.trans known)
          exact parts
        · rintro parts
          exact ⟨x,found,parts⟩
      simp only [Option.map_some,member]

theorem soundDecompose (managed : Managed w) (owner : w.graphs[g]? = some graph) (force : Bool) :
    Sound new w (decompose w g graph force) := by
  unfold decompose
  split
  · exact soundSame managed
  · refine soundLeaving (legalRaiseIf nofun) (fun _ _ => ?_)
    obtain ⟨t,done,last,persists,gone⟩ := decomposeRuns managed owner
    rw [done]
    refine ⟨last,persists,?_⟩
    intro c y found started
    rw [gone.contexts c] at found
    obtain ⟨x,before,rfl⟩ := Option.map_eq_some_iff.mp found
    refine .inr ⟨x,before,?_⟩
    split at started <;> exact started

theorem soundConstruct (managed : Managed w) (definition : Definition) :
    Sound new w (construct w definition) := by
  refine soundLeaving (legalTarget _ _) (fun entryPoint _ => ?_)
  refine ⟨⟨⟨managed.shaped,?_,?_,?_⟩,?_⟩,fun c x found => ⟨x,found,continuesRefl x⟩,startsSame rfl⟩
  · intro c x found
    have bound := managed.owned c x found
    simp only [List.length_append]
    omega
  · intro h other there d
    rcases Slots.appendCases there with ⟨place,rfl⟩ | old
    · constructor
      · intro member
        contradiction
      · rintro ⟨x,found,mine,_⟩
        have bound := managed.owned d x found
        omega
    · exact managed.running h other old d
  · intro h other there
    rcases Slots.appendCases there with ⟨_,rfl⟩ | old
    · exact List.nodup_nil
    · exact managed.distinct h other old
  · intro h other there gone
    rcases Slots.appendCases there with ⟨_,rfl⟩ | old
    · rfl
    · exact managed.retired h other old gone

theorem soundMaxSteps (managed : Managed w) (owner : w.graphs[g]? = some graph) (steps : Int) :
    Sound new w (setMaxSteps w g graph steps) := by
  refine soundLeaving (legalRaiseIf nofun) (fun _ _ => ?_)
  refine ⟨⟨graphExact managed.toExact owner rfl,?_⟩,fun c x found => ⟨x,found,continuesRefl x⟩,
    startsSame rfl⟩
  intro h other there gone
  rcases Slots.setCases there with ⟨_,rfl⟩ | ⟨_,old⟩
  · exact managed.retired g graph owner gone
  · exact managed.retired h other old gone

theorem cancelDone {f : Future V} (done : f.done = true) : f.cancel = f := by
  simp [Future.cancel,done]

theorem soundCancelCompletion (managed : Managed w) (found : w.contexts[c]? = some x) :
    Sound new w (.ok (cancelCompletion w c x)) := by
  unfold cancelCompletion
  split
  · rename_i f completion
    have shaped := managed.shaped c x found
    have goes : Continues x {x with completion := some f.cancel} := by
      refine ⟨rfl,fun _ => rfl,?_,fun _ known => known⟩
      intro other known done
      cases Option.some.inj (completion.symm.trans known)
      simp only [cancelDone done]
    have still : Shaped {x with completion := some f.cancel} := by
      unfold Shaped at shaped ⊢
      cases at_ : x.status with
      | pending =>
        rw [at_] at shaped
        rw [shaped.2.1] at completion
        contradiction
      | running =>
        rw [at_] at shaped
        exact ⟨shaped.1,rfl,shaped.2.2⟩
      | _ =>
        rw [at_] at shaped
        refine ⟨shaped.1,by rw [shaped.2.1,completion]; rfl,?_⟩
        intro other known
        have done := shaped.2.2 f completion
        cases known
        rw [cancelDone done]
        exact done
    exact ⟨setManaged managed found still rfl rfl,persistsSet found goes rfl,
      startsSet (y := {x with completion := some f.cancel}) found rfl rfl⟩
  · exact soundSame managed

theorem soundGraphFinish (managed : Managed w) : Sound new w (graphFinish w g c) := by
  unfold graphFinish
  split
  · rename_i x found
    split
    · exact soundFinish managed found
    · exact soundSame managed
  · exact soundSame managed

theorem soundGraphFail (managed : Managed w) (error : PyError) : Sound new w (graphFail w g c error) := by
  unfold graphFail
  split
  · rename_i x found
    split
    · exact soundFail managed found error
    · exact soundSame managed
  · exact soundSame managed

theorem soundGraphAbort (managed : Managed w) (context : ContextArg) :
    Sound new w (graphAbort w g graph context) := by
  refine soundLeaving (legalRaiseIf nofun) (fun _ _ => ?_)
  split
  · rename_i c
    split
    · exact soundSame managed
    · rename_i x found
      split
      · exact soundLeaving (legalRaiseIf nofun) (fun _ _ => soundAbort managed found)
      · exact soundSame managed
  · exact soundRaise nofun

def newRun (w : World V) : Action V → Option Nat
  | .beginInvocation _ _ context => some (chosen w context)
  | _ => none

theorem soundPerform {copyable : V → Bool} {a : Action V} {call : Call V (World V)}
    (managed : Managed w) (performed : perform copyable w a = some call) : Sound (newRun w a) w call := by
  cases a with
  | construct definition =>
    cases performed
    exact soundConstruct managed definition
  | graphFinish g c =>
    cases performed
    exact soundGraphFinish managed
  | graphFail g c error =>
    cases performed
    exact soundGraphFail managed error
  | createContext g state =>
    obtain ⟨graph,owner,last⟩ := Option.bind_eq_some_iff.mp performed
    cases last
    exact soundCreate managed owner state
  | restoreContext g source version =>
    obtain ⟨graph,owner,last⟩ := Option.bind_eq_some_iff.mp performed
    cases last
    exact soundRestore managed owner source version
  | beginInvocation g state context =>
    obtain ⟨graph,owner,last⟩ := Option.bind_eq_some_iff.mp performed
    cases last
    exact soundInvocation managed owner state context
  | graphAbort g context =>
    obtain ⟨graph,owner,last⟩ := Option.bind_eq_some_iff.mp performed
    cases last
    exact soundGraphAbort managed context
  | decompose g force =>
    obtain ⟨graph,owner,last⟩ := Option.bind_eq_some_iff.mp performed
    cases last
    exact soundDecompose managed owner force
  | setMaxSteps g steps =>
    obtain ⟨graph,owner,last⟩ := Option.bind_eq_some_iff.mp performed
    cases last
    exact soundMaxSteps managed owner steps
  | finish c =>
    obtain ⟨x,found,last⟩ := Option.bind_eq_some_iff.mp performed
    cases last
    exact soundFinish managed found
  | fail c error =>
    obtain ⟨x,found,last⟩ := Option.bind_eq_some_iff.mp performed
    cases last
    exact soundFail managed found error
  | abort c =>
    obtain ⟨x,found,last⟩ := Option.bind_eq_some_iff.mp performed
    cases last
    exact soundAbort managed found
  | cancel c =>
    obtain ⟨x,found,last⟩ := Option.bind_eq_some_iff.mp performed
    cases last
    exact soundCancel managed found
  | cancelCompletion c =>
    obtain ⟨x,found,last⟩ := Option.bind_eq_some_iff.mp performed
    cases last
    exact soundCancelCompletion managed found

theorem stepManaged {copyable : V → Bool} {a : Action V} (managed : Managed w)
    (taken : NodeGraph.step copyable w a = some t) : Managed t ∧ Persists w t := by
  obtain ⟨call,performed,rfl⟩ := Option.map_eq_some_iff.mp taken
  have sound := soundPerform managed performed
  cases call with
  | ok u => exact ⟨sound.managed,sound.persists⟩
  | error raised =>
    obtain ⟨_,rfl⟩ := sound
    exact ⟨managed,persistsRefl _⟩

theorem initialManaged : Managed (initial : World V) := by
  refine ⟨⟨?_,?_,?_,?_⟩,?_⟩ <;> simp [initial]

theorem runManaged {copyable : V → Bool} {r : List (Action V)}
    (ran : Machine.run (NodeGraph.step copyable) initial r = some t) : Managed t :=
  Machine.invariant (fun _ _ _ managed taken => (stepManaged managed taken).1) initialManaged ran

theorem runPersists {copyable : V → Bool} {r : List (Action V)} (managed : Managed w)
    (ran : Machine.run (NodeGraph.step copyable) w r = some t) : Persists w t := by
  have both : Managed t ∧ Persists w t := by
    refine Machine.invariant (P := fun u => Managed u ∧ Persists w u) ?_ ⟨managed,persistsRefl w⟩ ran
    rintro s a u ⟨known,goes⟩ taken
    obtain ⟨next,step⟩ := stepManaged known taken
    exact ⟨next,persistsTrans goes step⟩
  exact both.2

theorem mapErrorOk {ε η α : Type} {call : Except ε α} {f : ε → η} {a : α}
    (done : call.mapError f = .ok a) : call = .ok a := by
  cases call with
  | error error => contradiction
  | ok b =>
    cases done
    rfl

theorem invocationOk {copyable : V → Bool} {state : StateArg V} {context : ContextArg}
    (call : beginInvocation copyable w g graph state context = .ok t) :
    graph.decomposed = false ∧ ∃ u x, (u = w ∨ context = .none ∧ ∃ d prepared, state = .dict d ∧
        copyState copyable graph.keepRefKeys d = .ok prepared ∧
        u = {w with contexts := w.contexts ++ [newContext g graph prepared]}) ∧
      u.contexts[chosen w context]? = some x ∧ x.graphId = g ∧ x.status = .pending ∧
      (∃ target, validateTarget graph x.targetNodeName x.steps = .ok target) ∧
      t = admittedWorld u g (chosen w context) graph x := by
  simp only [beginInvocation,ensureNotDecomposed,bindOk,leavingOk,raiseIfOk,exists_const] at call
  obtain ⟨live,rest⟩ := call
  refine ⟨live,?_⟩
  split at rest
  · obtain ⟨u,created,last⟩ := bindOk.mp rest
    obtain ⟨prepared,copied,_,rfl⟩ := createOk created
    obtain ⟨x,found,mine,pending,valid,result⟩ := beginWithOk (mapErrorOk last)
    exact ⟨_,x,.inr ⟨rfl,_,prepared,rfl,copied,rfl⟩,found,mine,pending,valid,result⟩
  · contradiction
  · obtain ⟨x,found,mine,pending,valid,result⟩ := beginWithOk rest
    exact ⟨w,x,.inl rfl,found,mine,pending,valid,result⟩
  · contradiction
  · contradiction

section Admissions
variable (copyable : V → Bool)

def admission (w : World V) (a : Action V) : Option (Nat × Nat) :=
  match a, perform copyable w a with
  | .beginInvocation g _ context, some (.ok _) => some (g,chosen w context)
  | _, _ => none

def admissions : World V → List (Action V) → List (Nat × Nat)
  | _, [] => []
  | w, a :: rest => (admission copyable w a).toList ++ match NodeGraph.step copyable w a with
      | some t => admissions t rest
      | none => []

variable {copyable} {r : List (Action V)} {a : Action V}

theorem admissionsSnoc (ran : Machine.run (NodeGraph.step copyable) w r = some t) :
    admissions copyable w (r ++ [a]) = admissions copyable w r ++ (admission copyable t a).toList := by
  induction r generalizing w with
  | nil =>
    cases Option.some.inj ran
    simp only [admissions,List.nil_append]
    cases NodeGraph.step copyable t a <;> simp
  | cons b rest ih =>
    obtain ⟨m,taken,last⟩ := Machine.runCons.mp ran
    simp only [List.cons_append,admissions,taken,ih last,List.append_assoc]

theorem admissionSome (managed : Managed w) (accepted : admission copyable w a = some (g,c))
    (taken : NodeGraph.step copyable w a = some t) :
    (∀ x, w.contexts[c]? = some x → x.runId = none) ∧ Starts (some c) w t ∧
    ∃ y, t.contexts[c]? = some y ∧ y.graphId = g ∧ y.runId ≠ none := by
  unfold admission at accepted
  split at accepted <;> try contradiction
  rename_i h state context u performed
  cases Option.some.inj accepted
  have result : t = u := by
    simp only [NodeGraph.step,performed,Option.map_some,PyError.stateOf] at taken
    exact (Option.some.inj taken).symm
  subst result
  have sound := soundPerform managed performed
  obtain ⟨graph,owner,last⟩ := Option.bind_eq_some_iff.mp performed
  obtain ⟨_,v,x,grown,found,mine,pending,_,rfl⟩ := invocationOk (Option.some.inj last)
  refine ⟨?_,sound.starts,bound x g v.runs,Slots.setSame found,mine,by simp [bound]⟩
  rcases grown with rfl | ⟨rfl,d,prepared,rfl,copied,rfl⟩
  · intro z known
    cases Option.some.inj (found.symm.trans known)
    have shaped := managed.shaped _ x found
    unfold Shaped at shaped
    rw [pending] at shaped
    exact shaped.1
  · intro z known
    have inside := Slots.inside known
    simp [chosen] at inside

theorem admissionNone (managed : Managed w) (refused : admission copyable w a = none)
    (taken : NodeGraph.step copyable w a = some t) : Starts none w t := by
  obtain ⟨call,performed,rfl⟩ := Option.map_eq_some_iff.mp taken
  have sound := soundPerform managed performed
  cases call with
  | error raised =>
    obtain ⟨_,rfl⟩ := sound
    exact startsSame rfl
  | ok u =>
    have idle : newRun w a = none := by
      unfold admission at refused
      rw [performed] at refused
      cases a <;> simp_all [newRun]
    have starts := sound.starts
    rw [idle] at starts
    exact starts

/- The admissions of a run so far, and the contexts that have a run. -/
structure Recorded (l : List (Nat × Nat)) (w : World V) : Prop where
  runs : ∀ g c, (g,c) ∈ l ↔ ∃ x, w.contexts[c]? = some x ∧ x.graphId = g ∧ x.runId ≠ none
  once : (l.map Prod.snd).Nodup

theorem recordedPersists {l : List (Nat × Nat)} (recorded : Recorded l w) (persists : Persists w t)
    (member : (g,c) ∈ l) : ∃ y, t.contexts[c]? = some y ∧ y.graphId = g ∧ y.runId ≠ none := by
  obtain ⟨x,found,mine,started⟩ := (recorded.runs g c).mp member
  obtain ⟨y,there,goes⟩ := persists c x found
  obtain ⟨run,given⟩ := Option.ne_none_iff_exists'.mp started
  exact ⟨y,there,goes.graphId.trans mine,by rw [goes.runId run given]; simp⟩

theorem recordedStep {l : List (Nat × Nat)} (managed : Managed w) (recorded : Recorded l w)
    (taken : NodeGraph.step copyable w a = some t) :
    Recorded (l ++ (admission copyable w a).toList) t := by
  obtain ⟨_,persists⟩ := stepManaged managed taken
  cases accepted : admission copyable w a with
  | none =>
    have starts := admissionNone managed accepted taken
    simp only [Option.toList_none,List.append_nil]
    refine ⟨?_,recorded.once⟩
    intro g c
    constructor
    · exact recordedPersists recorded persists
    · rintro ⟨y,there,mine,started⟩
      obtain ⟨x,found,before⟩ := (starts c y there started).resolve_left (by simp)
      obtain ⟨z,same,goes⟩ := persists c x found
      cases Option.some.inj (there.symm.trans same)
      exact (recorded.runs g c).mpr ⟨x,found,goes.graphId.symm.trans mine,before⟩
  | some pair =>
    obtain ⟨h,d⟩ := pair
    obtain ⟨unused,starts,y,there,mine,started⟩ := admissionSome managed accepted taken
    have fresh : d ∉ l.map Prod.snd := by
      intro member
      obtain ⟨⟨g,e⟩,inside,same⟩ := List.mem_map.mp member
      cases same
      obtain ⟨x,found,_,before⟩ := (recorded.runs g e).mp inside
      exact before (unused x found)
    refine ⟨?_,?_⟩
    · intro g c
      rw [Option.toList_some,List.mem_append,List.mem_singleton]
      constructor
      · rintro (old | new)
        · exact recordedPersists recorded persists old
        · cases new
          exact ⟨y,there,mine,started⟩
      · rintro ⟨z,known,owner,given⟩
        rcases starts c z known given with new | ⟨x,found,before⟩
        · cases Option.some.inj new
          cases Option.some.inj (there.symm.trans known)
          rw [← mine,owner]
          exact .inr rfl
        · obtain ⟨z',same,goes⟩ := persists c x found
          cases Option.some.inj (known.symm.trans same)
          exact .inl ((recorded.runs g c).mpr ⟨x,found,goes.graphId.symm.trans owner,before⟩)
    · rw [Option.toList_some,List.map_append]
      refine recorded.once.append (List.nodup_singleton d) ?_
      intro e old new
      rw [List.mem_singleton.mp new] at old
      exact fresh old

theorem runRecorded (ran : Machine.run (NodeGraph.step copyable) initial r = some t) :
    Recorded (admissions copyable initial r) t := by
  refine Machine.history (P := fun r t => Recorded (admissions copyable initial r) t) ?_ ?_ ran
  · exact ⟨by simp [admissions,initial],by simp [admissions]⟩
  · intro r m a t before recorded taken
    rw [admissionsSnoc before]
    exact recordedStep (runManaged before) recorded taken

/- In every state that a sequence of operations reaches: each running set is the
set of contexts its graph admitted that are running, none was admitted twice, and
those that have ended have their result. Whatever follows leaves ended contexts
and results alone, and an operation that raises leaves everything alone. -/
theorem contextLifecycle (ran : Machine.run (NodeGraph.step copyable) initial r = some w) :
    (∀ (g : Nat) graph, w.graphs[g]? = some graph → ∀ c, c ∈ graph.contexts ↔
      (g,c) ∈ admissions copyable initial r ∧
        ∃ x, w.contexts[c]? = some x ∧ x.status = .running) ∧
    ((admissions copyable initial r).map Prod.snd).Nodup ∧
    (∀ (c : Nat) x, w.contexts[c]? = some x → x.status.terminal = true →
      (∃ g, (g,c) ∈ admissions copyable initial r) →
        ∃ f, x.completion = some f ∧ f.done = true) ∧
    (∀ more t, Machine.run (NodeGraph.step copyable) w more = some t →
      ∀ (c : Nat) x, w.contexts[c]? = some x → ∃ y, t.contexts[c]? = some y ∧
        (x.status.terminal = true → y.status = x.status) ∧
        ∀ f, x.completion = some f → f.done = true → y.completion = some f) ∧
    ∀ a error t, perform copyable w a = some (.error (error,t)) →
      error.kind ≠ .invalidStateError ∧ t = w := by
  have managed := runManaged ran
  have recorded := runRecorded ran
  refine ⟨?_,recorded.once,?_,?_,?_⟩
  · intro g graph owner c
    rw [managed.running g graph owner c]
    constructor
    · rintro ⟨x,found,mine,running⟩
      have shaped := managed.shaped c x found
      unfold Shaped at shaped
      rw [running] at shaped
      have started : x.runId ≠ none := Option.isSome_iff_ne_none.mp shaped.1
      exact ⟨(recorded.runs g c).mpr ⟨x,found,mine,started⟩,x,found,running⟩
    · rintro ⟨member,x,found,running⟩
      obtain ⟨y,same,mine,_⟩ := (recorded.runs g c).mp member
      cases Option.some.inj (found.symm.trans same)
      exact ⟨x,found,mine,running⟩
  · rintro c x found terminal ⟨g,member⟩
    obtain ⟨y,same,_,started⟩ := (recorded.runs g c).mp member
    cases Option.some.inj (found.symm.trans same)
    have shaped := managed.shaped c x found
    have parts : x.onTerminal = none ∧ x.runId.isSome = x.completion.isSome ∧
        ∀ f, x.completion = some f → f.done = true := by
      unfold Shaped at shaped
      cases at_ : x.status <;> rw [at_] at shaped terminal <;> first | contradiction | exact shaped
    have settled := parts.2.1.symm.trans (Option.isSome_iff_ne_none.mpr started)
    obtain ⟨f,completion⟩ := Option.isSome_iff_exists.mp settled
    exact ⟨f,completion,parts.2.2 f completion⟩
  · intro more t later c x found
    obtain ⟨y,there,goes⟩ := runPersists managed later c x found
    exact ⟨y,there,goes.status,goes.completion⟩
  · intro a error t performed
    exact soundPerform managed performed

end Admissions

def flow : Definition := ⟨["a"],.target (.node "a"),2,false,[],[]⟩

/- One context is cancelled by its caller while it runs and then failed, one is
rejected twice and stays pending, one runs while the graph is decomposed. -/
def attempts : List (Action Nat) :=
  [.construct flow,.beginInvocation 0 (.dict .empty) .none,.cancelCompletion 0,
    .graphFail 0 0 ⟨.valueError,"boom"⟩,.createContext 0 (.dict .empty),.setMaxSteps 0 0,
    .beginInvocation 0 .none (.context 1),.beginInvocation 0 .none (.context 0),.setMaxSteps 0 2,
    .beginInvocation 0 (.dict .empty) .none,.decompose 0 false,.decompose 0 true,.abort 2]

def attempted : World Nat :=
  (Machine.run (NodeGraph.step (fun _ => true)) initial attempts).getD initial

example : attempted.contexts.map GraphContext.status = [.failed,.pending,.aborted] := by decide

theorem contextLifecycleAttempts :
    (∀ (g : Nat) graph, attempted.graphs[g]? = some graph → ∀ c, c ∈ graph.contexts ↔
      (g,c) ∈ admissions (fun _ => true) initial attempts ∧
        ∃ x, attempted.contexts[c]? = some x ∧ x.status = .running) ∧
    ((admissions (fun _ => true) initial attempts).map Prod.snd).Nodup ∧
    (∀ (c : Nat) x, attempted.contexts[c]? = some x → x.status.terminal = true →
      (∃ g, (g,c) ∈ admissions (fun _ => true) initial attempts) →
        ∃ f, x.completion = some f ∧ f.done = true) ∧
    (∀ more t, Machine.run (NodeGraph.step (fun _ => true)) attempted more = some t →
      ∀ (c : Nat) x, attempted.contexts[c]? = some x → ∃ y, t.contexts[c]? = some y ∧
        (x.status.terminal = true → y.status = x.status) ∧
        ∀ f, x.completion = some f → f.done = true → y.completion = some f) ∧
    ∀ a error t, perform (fun _ => true) attempted a = some (.error (error,t)) →
      error.kind ≠ .invalidStateError ∧ t = attempted :=
  contextLifecycle (r := attempts) rfl

end Apixis.Lifecycle
