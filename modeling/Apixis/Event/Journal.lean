import Apixis.Event.Execute

/-! What a run of a dispatch does, one `execute` at a time. Every call of it belongs
to a place of the chain or to a background task, and a step of the machine is a
turn of at most one of them. -/
namespace Apixis.Dispatch

inductive Who where
  | foreground (i : Nat)
  | background (k : Nat)
  deriving DecidableEq, Repr

def Who.isBackground : Who → Bool
  | .foreground _ => false
  | .background _ => true

/- `execute` is entered; it checks the event; a callback is invoked; it ends. The
flags are those of the event at that moment. -/
inductive Mark where
  | reached (failed : Bool)
  | checked (accepted failed : Bool)
  | started (phase : Phase)
  | ended (phase : Phase) (outcome : Outcome)
  deriving DecidableEq, Repr

structure Entry (η : Type) where
  who : Who
  handler : η
  mark : Mark
  deriving DecidableEq, Repr

inductive Stage where
  | unreached
  | inside (pc : ExecutePc)
  | past
  deriving DecidableEq, Repr

variable {η : Type}

def opened (chain : List η) (event : Event η) : State η := {initial chain with event := event}

/- The task has been cancelled, before it began or in the callback it awaited. -/
def State.stopped (s : State η) : Bool := match s.pc with
  | .cleanup _ => true
  | .notifying _ => true
  | .cancelled => true
  | _ => false

def State.handlerOf (s : State η) : Who → Option η
  | .foreground i => s.chain[i]?
  | .background k => (s.backgrounds[k]?).map Background.handler

def BackgroundPc.stage : BackgroundPc → Stage
  | .created => .unreached
  | .execute pc => .inside pc
  | _ => .past

def State.stage (s : State η) : Who → Stage
  | .foreground i => match s.pc with
      | .created => .unreached
      | .visit j => if i < j then .past else .unreached
      | .execute j pc => if i < j then .past else if i = j then .inside pc else .unreached
      | _ => .past
  | .background k => match s.backgrounds[k]? with
      | none => .unreached
      | some task => task.pc.stage

def Next.stage : Next → Stage
  | .go pc => .inside pc
  | _ => .past

def Use.started : Use η → Option Mark
  | .callback _ phase _ => some (.started phase)
  | _ => none

def Next.marks (next : Next) : List Mark := match next with
  | .go (.calling phase _) => [.started phase]
  | _ => []

section Turns
variable (flags : η → Flags)

/- Whose turn an action is, and what it meets. -/
def turn (s : State η) : Action → Option (Who × Mark)
  | .visit => match s.pc with
      | .visit i => match s.chain[i]? with
          | some handler =>
              if (flags handler).background then none
              else some (.foreground i,.reached s.event.hasError)
          | none => none
      | _ => none
  | .gate => match s.pc with
      | .execute i .gate => some (.foreground i,.checked s.event.accepted s.event.hasError)
      | _ => none
  | .callback outcome => match s.pc with
      | .execute i (.calling phase _) => some (.foreground i,.ended phase outcome)
      | _ => none
  | .backgroundBegin k => some (.background k,.reached s.event.hasError)
  | .backgroundGate k => some (.background k,.checked s.event.accepted s.event.hasError)
  | .backgroundCallback k outcome => match s.stage (.background k) with
      | .inside (.calling phase _) => some (.background k,.ended phase outcome)
      | _ => none
  | _ => none

def told (who : Who) (handler : η) (marks : List Mark) : List (Entry η) :=
  marks.map (fun mark => ⟨who,handler,mark⟩)

/- What one step tells: what it meets, and the callbacks it starts. -/
def entries (s : State η) (a : Action) : List (Entry η) :=
  match turn flags s a, step flags s a with
  | some (who,mark), some t => match s.handlerOf who with
      | some handler => told who handler (mark :: (t.uses.drop s.uses.length).filterMap Use.started)
      | none => []
  | _, _ => []

def journal (chain : List η) (event : Event η) (r : List Action) : List (Entry η) :=
  Machine.journal (step flags) (entries flags) (opened chain event) r

/- What the steps of the others do to one call: a cancelled dispatch reaches no more. -/
def Kept (s t : State η) (who : Who) : Prop :=
  t.stage who = s.stage who ∨ s.stage who = .unreached ∧ t.stage who = .past

structure Turn (s t : State η) (who : Who) (handler : η) (next : Next) : Prop where
  holds : s.handlerOf who = some handler
  after : t.stage who = next.stage
  stops : who.isBackground = false → next = .cancelled → t.stopped = true
  others : ∀ other, other ≠ who → Kept s t other

/- One step: a turn of one call, or nothing that any call notices. -/
inductive Moved (s t : State η) : List (Entry η) → Prop where
  | quiet (kept : ∀ who, Kept s t who) (seen : t.event.seen = s.event.seen)
      (errorStack : t.event.errorStack = s.event.errorStack)
      (accepted : s.event.accepted = true → t.event.accepted = true) : Moved s t []
  | enter {who handler} (turn : Turn s t who handler (.go (enter (flags handler) s.event)))
      (fresh : s.stage who = .unreached) (event : t.event = s.event) :
      Moved s t (told who handler
        (.reached s.event.hasError :: (Next.go (enter (flags handler) s.event)).marks))
  | gate {who handler next} (turn : Turn s t who handler next) (inside : s.stage who = .inside .gate)
      (passed : pass (flags handler) handler s.event = (next,t.event)) :
      Moved s t (told who handler (.checked s.event.accepted s.event.hasError :: next.marks))
  | callback {who handler phase parent outcome next} (turn : Turn s t who handler next)
      (inside : s.stage who = .inside (.calling phase parent))
      (settled : settle (flags handler) who.isBackground handler s.event phase parent outcome =
        (next,t.event)) :
      Moved s t (told who handler (.ended phase outcome :: next.marks))

variable {flags : η → Flags} {s t : State η} {a : Action}

theorem usesMarks (next : Next) (handler : η) (background : Bool) :
    (next.use handler background).filterMap Use.started = next.marks := by
  cases next with
  | go pc => cases pc <;> rfl
  | finished => rfl
  | cancelled => rfl

theorem newUses (s : State η) (more : List (Use η)) :
    ((s.note more).uses.drop s.uses.length) = more := List.drop_left

theorem keptBackgrounds (same : t.backgrounds = s.backgrounds) (k : Nat) : Kept s t (.background k) := by
  simp only [Kept,State.stage,same,true_or]

theorem keptForeground (same : t.pc = s.pc) (i : Nat) : Kept s t (.foreground i) := by
  simp only [Kept,State.stage,same,true_or]

theorem nextStage (i : Nat) (next : Next) (at_ : t.pc = next.foreground i) :
    t.stage (.foreground i) = next.stage := by
  simp only [State.stage,at_]
  cases next with
  | go pc => simp [Next.foreground,Next.stage]
  | finished => simp [Next.foreground,Next.stage]
  | cancelled => rfl

theorem othersForeground {i j : Nat} {pc : ExecutePc} (next : Next) (before : s.pc = .execute i pc)
    (at_ : t.pc = next.foreground i) (other : j ≠ i) : Kept s t (.foreground j) := by
  simp only [Kept,State.stage,before,at_]
  rcases Nat.lt_or_gt_of_ne other with below | above
  · refine .inl ?_
    cases next with
    | go pc' => simp [Next.foreground,below]
    | finished => simp [Next.foreground,below,Nat.lt_succ_of_lt below]
    | cancelled => simp [Next.foreground,below]
  · have low : ¬ j < i := by omega
    cases next with
    | go pc' => simp [Next.foreground,low,other]
    | finished =>
      have low' : ¬ j < i + 1 := by omega
      simp [Next.foreground,low,low',other]
    | cancelled => simp [Next.foreground,low,other]

theorem foregroundTurn {i : Nat} {pc : ExecutePc} {handler : η} {next : Next}
    (before : s.pc = .execute i pc) (found : s.chain[i]? = some handler) (event : Event η)
    (uses : List (Use η)) :
    Turn s ({s with pc := next.foreground i, event := event}.note uses) (.foreground i) handler next := by
  refine ⟨found,nextStage i next rfl,?_,?_⟩
  · rintro _ rfl
    rfl
  intro other different
  cases other with
  | foreground j => exact othersForeground next before rfl (fun same => different (by rw [same]))
  | background k => exact keptBackgrounds rfl k

theorem setStage {k : Nat} {task : Background η} (pc : BackgroundPc)
    (found : s.backgrounds[k]? = some task) (uses : List (Use η)) :
    ((s.setBackground k task pc).note uses).stage (.background k) = pc.stage := by
  simp only [State.note,State.setBackground,State.stage,List.getElem?_set_self (Slots.inside found)]

theorem backgroundStage {k : Nat} {task : Background η} (options : Flags) (next : Next)
    (found : s.backgrounds[k]? = some task) :
    (s.backgroundNext options k task next).stage (.background k) = next.stage := by
  cases next with
  | go pc => exact setStage (.execute pc) found _
  | finished => exact setStage .ended found []
  | cancelled =>
    unfold State.backgroundNext
    simp only
    split
    · exact setStage .notifying found _
    · exact setStage .ended found []

theorem backgroundOthers {k l : Nat} (task : Background η) (options : Flags) (next : Next) (other : l ≠ k) :
    (s.backgroundNext options k task next).backgrounds[l]? = s.backgrounds[l]? := by
  have apart : k ≠ l := fun same => other same.symm
  cases next with
  | go pc => simp [State.backgroundNext,State.note,State.setBackground,apart]
  | finished => simp [State.backgroundNext,State.setBackground,apart]
  | cancelled =>
    unfold State.backgroundNext
    simp only
    split <;> simp [State.note,State.setBackground,apart]

theorem backgroundTurn {k : Nat} {task : Background η} {next : Next}
    (found : s.backgrounds[k]? = some task) (options : Flags) (event : Event η) :
    Turn s ({s with event := event}.backgroundNext options k task next) (.background k)
      task.handler next := by
  have fixed := backgroundFixed {s with event := event} options k task next
  refine ⟨by simp only [State.handlerOf,found,Option.map_some],
    backgroundStage (s := {s with event := event}) options next found,fun own => (by cases own),?_⟩
  intro other different
  cases other with
  | foreground i => exact keptForeground fixed.1 i
  | background l =>
    have apart : l ≠ k := fun same => different (by rw [same])
    have same := backgroundOthers (s := {s with event := event}) task options next apart
    refine .inl ?_
    simp only [State.stage]
    rw [same]

theorem backgroundUses (s : State η) (k : Nat) (task : Background η) (options : Flags) (next : Next)
    (event : Event η) :
    ((({s with event := event}.backgroundNext options k task next).uses.drop s.uses.length).filterMap
      Use.started) = next.marks := by
  cases next with
  | go pc =>
    have drops := newUses s (pc.use task.handler true)
    have marks := usesMarks (.go pc) task.handler true
    simp only [State.backgroundNext,State.note,State.setBackground,Next.use] at drops marks ⊢
    rw [drops,marks]
  | finished => simp [State.backgroundNext,State.setBackground,Next.marks]
  | cancelled =>
    unfold State.backgroundNext
    simp only
    split <;> simp [State.note,State.setBackground,Next.marks,Use.started]

theorem entriesTurn {who : Who} {mark : Mark} {handler : η} {next : Next}
    (taken : step flags s a = some t) (turns : turn flags s a = some (who,mark))
    (holds : s.handlerOf who = some handler)
    (uses : (t.uses.drop s.uses.length).filterMap Use.started = next.marks) :
    entries flags s a = told who handler (mark :: next.marks) := by
  simp only [entries,turns,taken,holds,uses]

theorem entriesQuiet (turns : turn flags s a = none) : entries flags s a = [] := by
  simp only [entries,turns]

theorem stoppedStage (stopped : s.stopped = true) (i : Nat) : s.stage (.foreground i) = .past := by
  unfold State.stopped at stopped
  unfold State.stage
  cases at_ : s.pc with
  | created => simp [at_] at stopped
  | visit j => simp [at_] at stopped
  | execute j pc => simp [at_] at stopped
  | cleanup j => rfl
  | notifying j => rfl
  | returned => simp [at_] at stopped
  | cancelled => rfl

theorem keptStopped (before : s.stopped = true) (after : t.stopped = true) (i : Nat) :
    Kept s t (.foreground i) := .inl ((stoppedStage after i).trans (stoppedStage before i).symm)

theorem movedQuiet (kept : ∀ i, Kept s t (.foreground i))
    (backgrounds : ∀ k, Kept s t (.background k)) (event : t.event = s.event) : Moved flags s t [] := by
  refine .quiet ?_ (by rw [event]) (by rw [event]) (by rw [event]; exact id)
  intro who
  cases who with
  | foreground i => exact kept i
  | background k => exact backgrounds k

theorem stepMoved (taken : step flags s a = some t) : Moved flags s t (entries flags s a) := by
  cases stepCases taken with
  | begin pc =>
    rw [entriesQuiet rfl]
    refine movedQuiet ?_ (keptBackgrounds rfl) rfl
    intro i
    simp [Kept,State.stage,pc]
  | kill pc =>
    rw [entriesQuiet rfl]
    refine movedQuiet ?_ (keptBackgrounds rfl) rfl
    intro i
    simp [Kept,State.stage,pc]
  | @finish i pc past =>
    rw [entriesQuiet (by simp only [turn,pc,past])]
    refine movedQuiet ?_ (keptBackgrounds rfl) rfl
    intro j
    simp only [Kept,State.stage,pc]
    split <;> simp
  | @hand i handler pc found background =>
    rw [entriesQuiet (by simp only [turn,pc,found,background,if_true])]
    refine movedQuiet ?_ ?_ rfl
    · intro j
      simp only [Kept,State.stage,pc]
      by_cases below : j < i
      · simp [below,Nat.lt_succ_of_lt below]
      · by_cases same : j < i + 1
        · simp [below,same]
        · simp [below,same]
    · intro k
      refine .inl ?_
      simp only [State.stage]
      rcases Nat.lt_trichotomy k s.backgrounds.length with inside | last | outside
      · rw [List.getElem?_append_left inside]
      · rw [last]
        simp [BackgroundPc.stage]
      · rw [List.getElem?_eq_none (by simp; omega),List.getElem?_eq_none (by omega)]
  | @enter i handler pc found foreground =>
    have turns : turn flags s .visit = some (.foreground i,.reached s.event.hasError) := by
      simp only [turn,pc,found,foreground]
      rfl
    have marks : ((Use.visit handler false :: (enter (flags handler) s.event).use handler false).filterMap
        Use.started) = (Next.go (enter (flags handler) s.event)).marks :=
      usesMarks (.go (enter (flags handler) s.event)) handler false
    have uses := congrArg (fun uses => List.filterMap Use.started uses)
      (newUses s (.visit handler false :: (enter (flags handler) s.event).use handler false))
    rw [entriesTurn taken turns found (uses.trans marks)]
    refine .enter ⟨found,?_,?_,?_⟩ (by simp [State.stage,pc]) rfl
    · simp [State.stage,State.note,Next.stage]
    · intro _ goes
      cases goes
    · intro other different
      cases other with
      | background k => exact keptBackgrounds rfl k
      | foreground j =>
        have apart : j ≠ i := fun same => different (by rw [same])
        refine .inl ?_
        simp [State.stage,State.note,pc,apart]
  | @gate i handler next event pc found passed =>
    have turns : turn flags s .gate = some (.foreground i,.checked s.event.accepted s.event.hasError) := by
      simp only [turn,pc]
    have uses := congrArg (fun uses => List.filterMap Use.started uses) (newUses s (next.use handler false))
    rw [entriesTurn taken turns found (uses.trans (usesMarks next handler false))]
    exact .gate (foregroundTurn pc found event _) (by simp [State.stage,pc]) passed
  | @callback i phase parent handler outcome next event pc found settled =>
    have turns : turn flags s (.callback outcome) = some (.foreground i,.ended phase outcome) := by
      simp only [turn,pc]
    have uses := congrArg (fun uses => List.filterMap Use.started uses) (newUses s (next.use handler false))
    rw [entriesTurn taken turns found (uses.trans (usesMarks next handler false))]
    exact .callback (foregroundTurn pc found event _) (by simp [State.stage,pc]) settled
  | cleaned pc past =>
    rw [entriesQuiet rfl]
    exact movedQuiet (keptStopped (by simp [State.stopped,pc]) rfl) (keptBackgrounds rfl) rfl
  | notify pc found foreground hook =>
    rw [entriesQuiet rfl]
    exact movedQuiet (keptStopped (by simp [State.stopped,pc]) rfl) (keptBackgrounds rfl) rfl
  | skip pc found silent =>
    rw [entriesQuiet rfl]
    exact movedQuiet (keptStopped (by simp [State.stopped,pc]) rfl) (keptBackgrounds rfl) rfl
  | notified pc =>
    rw [entriesQuiet rfl]
    exact movedQuiet (keptStopped (by simp [State.stopped,pc]) rfl) (keptBackgrounds rfl) rfl
  | accept =>
    rw [entriesQuiet rfl]
    exact .quiet (fun who => .inl (by cases who <;> rfl)) rfl rfl (fun _ => rfl)
  | @backgroundBegin k task found pc =>
    have holds : s.handlerOf (.background k) = some task.handler := by
      simp only [State.handlerOf,found,Option.map_some]
    have uses := backgroundUses s k task (flags task.handler)
      (.go (enter (flags task.handler) s.event)) s.event
    rw [entriesTurn taken rfl holds uses]
    exact .enter (backgroundTurn found _ _) (by simp [State.stage,found,pc,BackgroundPc.stage])
      (backgroundFixed s (flags task.handler) k task _).2.2
  | @backgroundGate k task next event found pc passed =>
    have holds : s.handlerOf (.background k) = some task.handler := by
      simp only [State.handlerOf,found,Option.map_some]
    have uses := backgroundUses s k task (flags task.handler) next event
    have fixed := backgroundFixed {s with event := event} (flags task.handler) k task next
    rw [entriesTurn taken rfl holds uses]
    refine .gate (backgroundTurn found _ event) (by simp [State.stage,found,pc,BackgroundPc.stage]) ?_
    rw [fixed.2.2]
    exact passed
  | @backgroundCallback k task phase parent outcome next event found pc settled =>
    have holds : s.handlerOf (.background k) = some task.handler := by
      simp only [State.handlerOf,found,Option.map_some]
    have inside : s.stage (.background k) = .inside (.calling phase parent) := by
      simp [State.stage,found,pc,BackgroundPc.stage]
    have turns : turn flags s (.backgroundCallback k outcome) =
        some (.background k,.ended phase outcome) := by simp only [turn,inside]
    have uses := backgroundUses s k task (flags task.handler) next event
    have fixed := backgroundFixed {s with event := event} (flags task.handler) k task next
    rw [entriesTurn taken turns holds uses]
    refine .callback (backgroundTurn found _ event) inside ?_
    rw [fixed.2.2]
    exact settled
  | @backgroundEnd k task found pc =>
    rw [entriesQuiet rfl]
    refine movedQuiet (keptForeground rfl) ?_ rfl
    intro l
    by_cases same : l = k
    · subst same
      have before : s.stage (.background l) = task.pc.stage := by simp only [State.stage,found]
      have after := setStage .ended found []
      rcases pc with created | notifying
      · exact .inr ⟨before.trans (by rw [created]; rfl),after⟩
      · exact .inl (after.trans (before.trans (by rw [notifying]; rfl)).symm)
    · have apart : k ≠ l := fun eq => same eq.symm
      refine .inl ?_
      simp only [State.stage,State.setBackground,List.getElem?_set_ne apart]

theorem handlerKept {who : Who} {handler : η} (taken : step flags s a = some t)
    (holds : s.handlerOf who = some handler) : t.handlerOf who = some handler := by
  have same : t.chain = s.chain → t.backgrounds = s.backgrounds → t.handlerOf who = some handler := by
    intro chain backgrounds
    cases who with
    | foreground i => simpa only [State.handlerOf,chain] using holds
    | background k => simpa only [State.handlerOf,backgrounds] using holds
  have set : ∀ (k : Nat) (task : Background η) (pc : BackgroundPc), s.backgrounds[k]? = some task →
      t.chain = s.chain → t.backgrounds = s.backgrounds.set k {task with pc := pc} →
      t.handlerOf who = some handler := by
    intro k task pc found chain backgrounds
    cases who with
    | foreground i => simpa only [State.handlerOf,chain] using holds
    | background l =>
      simp only [State.handlerOf,backgrounds] at holds ⊢
      by_cases eq : k = l
      · subst eq
        rw [List.getElem?_set_self (Slots.inside found)]
        rw [found] at holds
        exact holds
      · rw [List.getElem?_set_ne eq]
        exact holds
  have next : ∀ (k : Nat) (task : Background η) (event : Event η) (options : Flags) (next : Next),
      s.backgrounds[k]? = some task →
      t = {s with event := event}.backgroundNext options k task next →
      t.handlerOf who = some handler := by
    intro k task event options next found same
    have chain := chainKept (stepCases taken)
    cases next with
    | go pc => exact set k task (.execute pc) found chain (by rw [same]; rfl)
    | finished => exact set k task .ended found chain (by rw [same]; rfl)
    | cancelled =>
      unfold State.backgroundNext at same
      simp only at same
      split at same
      · exact set k task .notifying found chain (by rw [same]; rfl)
      · exact set k task .ended found chain (by rw [same]; rfl)
  cases stepCases taken with
  | begin pc => exact same rfl rfl
  | kill pc => exact same rfl rfl
  | finish pc past => exact same rfl rfl
  | @hand i handler' pc found background =>
    cases who with
    | foreground j => exact holds
    | background k =>
      obtain ⟨task,there,rfl⟩ := Option.map_eq_some_iff.mp holds
      have still : (s.backgrounds ++ [⟨handler',.created⟩])[k]? = some task := by
        rw [List.getElem?_append_left (Slots.inside there)]
        exact there
      exact Option.map_eq_some_iff.mpr ⟨task,still,rfl⟩
  | enter pc found foreground => exact same rfl rfl
  | gate pc found passed => exact same rfl rfl
  | callback pc found settled => exact same rfl rfl
  | cleaned pc past => exact same rfl rfl
  | notify pc found foreground hook => exact same rfl rfl
  | skip pc found silent => exact same rfl rfl
  | notified pc => exact same rfl rfl
  | accept => exact same rfl rfl
  | backgroundBegin found pc => exact next _ _ s.event _ _ found rfl
  | backgroundGate found pc passed => exact next _ _ _ _ _ found rfl
  | backgroundCallback found pc settled => exact next _ _ _ _ _ found rfl
  | backgroundEnd found pc => exact set _ _ .ended found rfl rfl

def marksOf (who : Who) (entries : List (Entry η)) : List Mark :=
  entries.filterMap (fun entry => if entry.who = who then some entry.mark else none)

theorem marksAppend (who : Who) (l m : List (Entry η)) :
    marksOf who (l ++ m) = marksOf who l ++ marksOf who m := List.filterMap_append

theorem marksOwn (who : Who) (handler : η) (marks : List Mark) :
    marksOf who (told who handler marks) = marks := by
  induction marks with
  | nil => rfl
  | cons mark rest ih =>
    have first : marksOf who (told who handler (mark :: rest)) =
        mark :: marksOf who (told who handler rest) := by simp [marksOf,told]
    rw [first,ih]

theorem marksOther {who other : Who} (different : other ≠ who) (handler : η) (marks : List Mark) :
    marksOf other (told who handler marks) = [] := by
  refine List.filterMap_eq_nil_iff.mpr ?_
  intro entry member
  obtain ⟨mark,_,rfl⟩ := List.mem_map.mp member
  exact if_neg (fun same => different same.symm)

inductive Own (flags : η → Flags) (s t : State η) (who : Who) : List Mark → Prop where
  | rest (kept : Kept s t who) : Own flags s t who []
  | enter {handler} (holds : s.handlerOf who = some handler) (fresh : s.stage who = .unreached)
      (after : t.stage who = .inside (enter (flags handler) s.event)) :
      Own flags s t who (.reached s.event.hasError :: (Next.go (enter (flags handler) s.event)).marks)
  | gate {handler next} (holds : s.handlerOf who = some handler) (inside : s.stage who = .inside .gate)
      (after : t.stage who = next.stage)
      (passed : pass (flags handler) handler s.event = (next,t.event)) :
      Own flags s t who (.checked s.event.accepted s.event.hasError :: next.marks)
  | callback {handler phase parent outcome next} (holds : s.handlerOf who = some handler)
      (inside : s.stage who = .inside (.calling phase parent)) (after : t.stage who = next.stage)
      (stops : who.isBackground = false → next = .cancelled → t.stopped = true)
      (settled : settle (flags handler) who.isBackground handler s.event phase parent outcome =
        (next,t.event)) :
      Own flags s t who (.ended phase outcome :: next.marks)

theorem ownMoved {l : List (Entry η)} (moved : Moved flags s t l) (who : Who) :
    Own flags s t who (marksOf who l) := by
  cases moved with
  | quiet kept seen errorStack accepted => exact .rest (kept who)
  | @enter actor handler turn fresh event =>
    by_cases same : who = actor
    · subst same
      rw [marksOwn]
      exact .enter turn.holds fresh turn.after
    · rw [marksOther same]
      exact .rest (turn.others who same)
  | @gate actor handler next turn inside passed =>
    by_cases same : who = actor
    · subst same
      rw [marksOwn]
      exact .gate turn.holds inside turn.after passed
    · rw [marksOther same]
      exact .rest (turn.others who same)
  | @callback actor handler phase parent outcome next turn inside settled =>
    by_cases same : who = actor
    · subst same
      rw [marksOwn]
      exact .callback turn.holds inside turn.after turn.stops settled
    · rw [marksOther same]
      exact .rest (turn.others who same)

theorem journalStep {chain : List η} {event : Event η} {r : List Action}
    (ran : Machine.run (step flags) (opened chain event) r = some s) :
    journal flags chain event (r ++ [a]) = journal flags chain event r ++ entries flags s a :=
  Machine.journalSnoc ran

theorem ownRun {P : List Mark → State η → Prop} {who : Who} {chain : List η} {event : Event η}
    (start : P [] (opened chain event))
    (keep : ∀ marks new s t a, P marks s → step flags s a = some t → Own flags s t who new →
      P (marks ++ new) t)
    {r : List Action} (ran : Machine.run (step flags) (opened chain event) r = some t) :
    P (marksOf who (journal flags chain event r)) t := by
  refine Machine.history (P := fun r t => P (marksOf who (journal flags chain event r)) t) start ?_ ran
  intro r m a t before known taken
  rw [journalStep before,marksAppend]
  exact keep _ _ m t a known taken (ownMoved (stepMoved taken) who)

def Entry.reachedPlace (entry : Entry η) : Option Nat := match entry.who, entry.mark with
  | .foreground i, .reached _ => some i
  | _, _ => none

def reachedIn : Option (Who × Mark) → List Nat
  | some (.foreground i,.reached _) => [i]
  | _ => []

def isForeground (flags : η → Flags) (chain : List η) (i : Nat) : Bool := match chain[i]? with
  | some handler => !(flags handler).background
  | none => false

/- The places of the foreground handlers among the first `n`. -/
def foregroundPlaces (flags : η → Flags) (chain : List η) (n : Nat) : List Nat :=
  (List.range n).filter (isForeground flags chain)

def State.place (s : State η) : Nat := match s.pc with
  | .visit i => i
  | .execute i _ => i + 1
  | .returned => s.chain.length
  | _ => 0

theorem reachedStarted (who : Who) (handler : η) (uses : List (Use η)) :
    (told who handler (uses.filterMap Use.started)).filterMap Entry.reachedPlace = [] := by
  refine List.filterMap_eq_nil_iff.mpr ?_
  intro entry member
  obtain ⟨mark,there,rfl⟩ := List.mem_map.mp member
  obtain ⟨use,_,started⟩ := List.mem_filterMap.mp there
  cases use with
  | callback other phase background =>
    cases started
    cases who <;> rfl
  | visit other background => cases started
  | clean other notified => cases started
  | backgroundCancelled other => cases started

theorem turnHolds {who : Who} {mark : Mark} (taken : step flags s a = some t)
    (turns : turn flags s a = some (who,mark)) : ∃ handler, s.handlerOf who = some handler := by
  have task : ∀ {k task}, s.backgrounds[k]? = some task → who = .background k →
      ∃ handler, s.handlerOf who = some handler := by
    intro k task found same
    exact ⟨task.handler,by simp only [same,State.handlerOf,found,Option.map_some]⟩
  cases stepCases taken with
  | begin pc => cases turns
  | kill pc => cases turns
  | finish pc past =>
    simp only [turn,pc,past] at turns
    cases turns
  | hand pc found background =>
    simp only [turn,pc,found,background,if_true] at turns
    cases turns
  | @enter i handler pc found foreground =>
    simp only [turn,pc,found,foreground] at turns
    cases turns
    exact ⟨handler,found⟩
  | @gate i handler next event pc found passed =>
    simp only [turn,pc] at turns
    cases turns
    exact ⟨handler,found⟩
  | @callback i phase parent handler outcome next event pc found settled =>
    simp only [turn,pc] at turns
    cases turns
    exact ⟨handler,found⟩
  | cleaned pc past => cases turns
  | notify pc found foreground hook => cases turns
  | skip pc found silent => cases turns
  | notified pc => cases turns
  | accept => cases turns
  | backgroundBegin found pc => cases turns; exact task found rfl
  | backgroundGate found pc passed => cases turns; exact task found rfl
  | backgroundCallback found pc settled =>
    simp only [turn,State.stage,found,pc,BackgroundPc.stage] at turns
    cases turns
    exact task found rfl
  | backgroundEnd found pc => cases turns

theorem reachedEntries (taken : step flags s a = some t) :
    (entries flags s a).filterMap Entry.reachedPlace = reachedIn (turn flags s a) := by
  cases turns : turn flags s a with
  | none =>
    rw [entriesQuiet turns]
    rfl
  | some both =>
    obtain ⟨who,mark⟩ := both
    obtain ⟨handler,holds⟩ := turnHolds taken turns
    have rest := reachedStarted who handler (t.uses.drop s.uses.length)
    have all : entries flags s a =
        ⟨who,handler,mark⟩ :: told who handler ((t.uses.drop s.uses.length).filterMap Use.started) := by
      simp only [entries,turns,taken,holds]
      rfl
    rw [all,List.filterMap_cons,rest]
    cases who <;> cases mark <;> rfl

theorem placesPast (flags : η → Flags) (chain : List η) {i : Nat} (past : chain[i]? = none) :
    foregroundPlaces flags chain chain.length = foregroundPlaces flags chain i := by
  have bound := List.getElem?_eq_none_iff.mp past
  have none_ : ∀ n, foregroundPlaces flags chain (chain.length + n) =
      foregroundPlaces flags chain chain.length := by
    intro n
    induction n with
    | zero => rfl
    | succ n ih =>
      have outside : isForeground flags chain (chain.length + n) = false := by
        simp only [isForeground,List.getElem?_eq_none (Nat.le_add_right _ _)]
      rw [← Nat.add_assoc]
      simp only [foregroundPlaces] at ih ⊢
      rw [List.range_succ,List.filter_append,ih]
      simp [outside]
  obtain ⟨n,rfl⟩ := Nat.exists_eq_add_of_le bound
  exact (none_ n).symm

theorem placesNext (flags : η → Flags) {chain : List η} {i : Nat} {handler : η}
    (found : chain[i]? = some handler) : foregroundPlaces flags chain (i + 1) =
      foregroundPlaces flags chain i ++ if (flags handler).background then [] else [i] := by
  have here : isForeground flags chain i = !(flags handler).background := by
    simp only [isForeground,found]
  simp only [foregroundPlaces,List.range_succ,List.filter_append]
  cases background : (flags handler).background <;> simp [here,background]

theorem nextPlace {i : Nat} (next : Next) (at_ : t.pc = next.foreground i) (running : t.stopped = false) :
    t.place = i + 1 := by
  cases next with
  | go pc => simp only [State.place,at_,Next.foreground]
  | finished => simp only [State.place,at_,Next.foreground]
  | cancelled => simp only [State.stopped,at_,Next.foreground] at running; cases running

theorem stepReaches (taken : step flags s a = some t) (running : t.stopped = false) :
    s.stopped = false ∧ foregroundPlaces flags t.chain t.place =
      foregroundPlaces flags s.chain s.place ++ reachedIn (turn flags s a) := by
  have stays : t.chain = s.chain → t.pc = s.pc → reachedIn (turn flags s a) = [] →
      s.stopped = false ∧ foregroundPlaces flags t.chain t.place =
        foregroundPlaces flags s.chain s.place ++ reachedIn (turn flags s a) := by
    intro chain pc none_
    rw [none_,List.append_nil]
    simp only [State.stopped,pc] at running
    exact ⟨running,by simp only [State.place,chain,pc]⟩
  cases stepCases taken with
  | begin pc => exact ⟨by simp only [State.stopped,pc],by simp only [State.place,pc]; rfl⟩
  | kill pc => cases running
  | finish pc past =>
    refine ⟨by simp only [State.stopped,pc],?_⟩
    simp only [State.place,turn,pc,past,reachedIn,List.append_nil]
    exact placesPast flags s.chain past
  | hand pc found background =>
    refine ⟨by simp only [State.stopped,pc],?_⟩
    simp only [State.place,turn,pc,found,background,if_true,reachedIn]
    rw [placesNext flags found,background]
    rfl
  | enter pc found foreground =>
    refine ⟨by simp only [State.stopped,pc],?_⟩
    simp only [State.place,State.note,turn,pc,found,foreground]
    rw [placesNext flags found,foreground]
    rfl
  | @gate i handler next event pc found passed =>
    refine ⟨by simp only [State.stopped,pc],?_⟩
    rw [nextPlace next rfl running]
    simp only [State.place,State.note,turn,pc,reachedIn,List.append_nil]
  | @callback i phase parent handler outcome next event pc found settled =>
    refine ⟨by simp only [State.stopped,pc],?_⟩
    rw [nextPlace next rfl running]
    simp only [State.place,State.note,turn,pc,reachedIn,List.append_nil]
  | cleaned pc past => cases running
  | notify pc found foreground hook => cases running
  | skip pc found silent => cases running
  | notified pc => cases running
  | accept => exact stays rfl rfl rfl
  | @backgroundBegin k task found pc =>
    have fixed := backgroundFixed s (flags task.handler) k task
      (.go (enter (flags task.handler) s.event))
    exact stays fixed.2.1 fixed.1 rfl
  | @backgroundGate k task next event found pc passed =>
    have fixed := backgroundFixed {s with event := event} (flags task.handler) k task next
    exact stays fixed.2.1 fixed.1 rfl
  | @backgroundCallback k task phase parent outcome next event found pc settled =>
    have fixed := backgroundFixed {s with event := event} (flags task.handler) k task next
    refine stays fixed.2.1 fixed.1 ?_
    have inside : s.stage (.background k) = .inside (.calling phase parent) := by
      simp [State.stage,found,pc,BackgroundPc.stage]
    simp only [turn,inside,reachedIn]
  | backgroundEnd found pc => exact stays rfl rfl rfl

end Turns
end Apixis.Dispatch
