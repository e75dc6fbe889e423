import Apixis.Event.Consumer
import Mathlib.Data.List.Nodup

/-! No event is lost, dispatched twice or acknowledged twice, and dispatch keeps
the order of the puts. What one worker may do rests on the pending slot, so the
workers come first. -/
namespace Apixis.Conservation
open Consumer

variable {ε η : Type} {s t : State ε η} {a : Action ε η} {w v : Nat} {worker other : Worker}
  {item : Item ε} {rest : List (Item ε)} {chain : List η} {pc : WorkerPc}

def pending (s : State ε η) : List (Item ε) := s.pendingDispatch.toList.map Prod.fst

def dispatched (s : State ε η) : List (Item ε) := s.history.dispatched.map Prod.fst

def places (s : State ε η) : List (Item ε) :=
  dispatched s ++ pending s ++ s.queue ++ s.history.cleared ++ s.history.dropped

/- A worker that waits for an event finds the slot empty, one that waits for
capacity finds it filled. -/
def Fits (s : State ε η) : WorkerPc → Prop
  | .getting => s.pendingDispatch = none
  | .acquiring => s.pendingDispatch.isSome
  | _ => True

structure Staffed (s : State ε η) : Prop where
  current : ∀ (w : Nat) (worker : Worker), s.workers[w]? = some worker → worker.live = true →
    s.eventConsumerTask = some w
  started : s.started = s.eventConsumerTask.isSome
  fits : ∀ (w : Nat) (worker : Worker), s.workers[w]? = some worker → worker.live = true →
    Fits s worker.pc

structure Books (s : State ε η) : Prop where
  raised : s.raised = false
  unfinished : s.unfinishedTasks = s.queue.length + (pending s).length
  acknowledged : s.history.acknowledged + s.unfinishedTasks = s.history.put.length
  numbered : s.history.put.map Item.seq = List.range s.history.put.length
  placed : (places s).Perm s.history.put
  ordered : (dispatched s ++ pending s ++ s.queue).Sublist s.history.put

theorem initialStaffed (maxsize : Nat) : Staffed (initial maxsize : State ε η) :=
  ⟨by simp [initial],rfl,by simp [initial]⟩

theorem initialBooks (maxsize : Nat) : Books (initial maxsize : State ε η) :=
  ⟨rfl,rfl,rfl,rfl,List.Perm.nil,List.Sublist.refl _⟩

theorem onlyLive (staffed : Staffed s) (found : s.workers[w]? = some worker)
    (live : worker.live = true) (also : s.workers[v]? = some other) (lives : other.live = true) :
    w = v :=
  Option.some.inj ((staffed.current w worker found live).symm.trans
    (staffed.current v other also lives))

theorem nobodyLive (staffed : Staffed s) (idle : s.eventConsumerTask = none)
    (found : s.workers[w]? = some worker) : worker.live = false := by
  cases live : worker.live with
  | false => rfl
  | true =>
    have current := staffed.current w worker found live
    rw [idle] at current
    contradiction

theorem retired (staffed : Staffed s) (after : Worker) (dead : after.live = false) :
    Staffed {s with workers := s.workers.set w after} := by
  refine ⟨?_,staffed.started,?_⟩
  · intro v other found live
    rcases Slots.setCases found with ⟨_,rfl⟩ | ⟨_,old⟩
    · rw [dead] at live; contradiction
    · exact staffed.current v other old live
  · intro v other found live
    rcases Slots.setCases found with ⟨_,rfl⟩ | ⟨_,old⟩
    · rw [dead] at live; contradiction
    · exact staffed.fits v other old live

def SameStaff (s t : State ε η) : Prop :=
  t.workers = s.workers ∧ t.started = s.started ∧ t.eventConsumerTask = s.eventConsumerTask

theorem movedOn (staffed : Staffed s) (found : s.workers[w]? = some worker)
    (live : worker.live = true) (same : SameStaff s t) (fits : Fits t pc) :
    Staffed (t.setWorker w worker pc) := by
  have mine : ∀ (v : Nat) (other : Worker), (t.setWorker w worker pc).workers[v]? = some other →
      other.live = true → w = v ∧ other = {worker with pc := pc} := by
    intro v other at_ lives
    rcases Slots.setCases at_ with ⟨same_,rfl⟩ | ⟨different,old⟩
    · exact ⟨same_,rfl⟩
    · rw [same.1] at old
      exact absurd (onlyLive staffed found live old lives) different
  refine ⟨?_,?_,?_⟩
  · intro v other at_ lives
    obtain ⟨rfl,_⟩ := mine v other at_ lives
    exact same.2.2.trans (staffed.current w worker found live)
  · have flag := staffed.started
    rw [← same.2.1,← same.2.2] at flag
    exact flag
  · intro v other at_ lives
    obtain ⟨_,rfl⟩ := mine v other at_ lives
    exact fits

theorem workerLive (pc : worker.pc ≠ .ended) (kept : worker.cancelling = false) :
    worker.live = true := by
  simp [Worker.live,pc,kept]

theorem headFits (t : State ε η) : Fits t t.loopHead := by
  unfold State.loopHead
  split
  · trivial
  · split
    · rename_i empty
      exact Option.isNone_iff_eq_none.mp empty
    · rename_i filled
      exact Option.isSome_iff_ne_none.mpr (fun empty => filled (by rw [empty]; rfl))

theorem taskDoneStaff (s : State ε η) : SameStaff s s.taskDone := by
  unfold State.taskDone
  split <;> exact ⟨rfl,rfl,rfl⟩

theorem taskDoneSlot (s : State ε η) : s.taskDone.pendingDispatch = s.pendingDispatch := by
  unfold State.taskDone
  split <;> rfl

theorem cancelStaffed (staffed : Staffed s) : Staffed (s.cancel w) := by
  unfold State.cancel
  split
  · split
    · exact staffed
    · exact retired staffed _ (by simp [Worker.live])
  · exact staffed

theorem clearKeeps (l : List (Item ε)) (count : Nat) (s : State ε η) :
    SameStaff s (clearFrom l count s).2 ∧
    (clearFrom l count s).2.pendingDispatch = s.pendingDispatch := by
  induction l generalizing count s with
  | nil => exact ⟨⟨rfl,rfl,rfl⟩,rfl⟩
  | cons item rest ih =>
    have one : SameStaff s (s.clearOne item rest) := taskDoneStaff _
    have slot : (s.clearOne item rest).pendingDispatch = s.pendingDispatch := taskDoneSlot _
    unfold clearFrom
    simp only
    split
    · exact ⟨one,slot⟩
    · obtain ⟨tail,last⟩ := ih (count + 1) (s.clearOne item rest)
      exact ⟨⟨tail.1.trans one.1,tail.2.1.trans one.2.1,tail.2.2.trans one.2.2⟩,last.trans slot⟩

theorem staffedSame (staffed : Staffed s) (same : SameStaff s t)
    (slot : t.pendingDispatch = s.pendingDispatch) : Staffed t := by
  refine ⟨?_,by rw [same.2.1,same.2.2]; exact staffed.started,?_⟩
  · intro w worker found live
    rw [same.1] at found
    rw [same.2.2]
    exact staffed.current w worker found live
  · intro w worker found live
    rw [same.1] at found
    have fits := staffed.fits w worker found live
    cases pc : worker.pc <;> simp only [pc,Fits,slot] at fits ⊢ <;> exact fits

theorem putStaffed {event : ε} (staffed : Staffed s) (room : s.putNowait event = some t) : Staffed t := by
  unfold State.putNowait at room
  split at room <;> try contradiction
  cases Option.some.inj room
  exact staffedSame staffed ⟨rfl,rfl,rfl⟩ rfl

theorem startStaffed (staffed : Staffed s) : Staffed s.start := by
  unfold State.start
  split
  · exact staffed
  · rename_i idle
    have nobody : s.eventConsumerTask = none := by
      have flag := staffed.started
      cases task : s.eventConsumerTask with
      | none => rfl
      | some w => rw [task] at flag; exact absurd flag idle
    refine ⟨?_,rfl,?_⟩
    · intro w worker found live
      rcases Slots.appendCases found with ⟨rfl,_⟩ | old
      · rfl
      · rw [nobodyLive staffed nobody old] at live; contradiction
    · intro w worker found live
      rcases Slots.appendCases found with ⟨_,rfl⟩ | old
      · trivial
      · rw [nobodyLive staffed nobody old] at live; contradiction

theorem stopStaffed (staffed : Staffed s) : Staffed s.stop := by
  unfold State.stop
  cases task : s.eventConsumerTask with
  | none =>
    refine ⟨?_,rfl,?_⟩
    · intro w worker found live
      rw [nobodyLive staffed task found] at live; contradiction
    · intro w worker found live
      rw [nobodyLive staffed task found] at live; contradiction
  | some w =>
    have only : ∀ (v : Nat) (other : Worker), s.workers[v]? = some other → other.live = true → v = w := by
      intro v other found live
      exact Option.some.inj ((staffed.current v other found live).symm.trans task)
    -- after the cancellation nobody is live, whoever was
    have nobody : ∀ (v : Nat) (other : Worker),
        (({s with eventConsumerTask := none, started := false}).cancel w).workers[v]? = some other →
          other.live = false := by
      intro v other found
      cases live : other.live with
      | false => rfl
      | true =>
        unfold State.cancel at found
        split at found
        · rename_i current at_
          split at found
          · rename_i past
            have same := only v other found live
            subst same
            cases Option.some.inj (at_.symm.trans found)
            simp [Worker.live,past] at live
          · rcases Slots.setCases found with ⟨_,rfl⟩ | ⟨different,old⟩
            · simp [Worker.live] at live
            · exact absurd (only v other old live).symm different
        · rename_i missing
          have same := only v other found live
          subst same
          rw [missing] at found
          contradiction
    have stopped : (({s with eventConsumerTask := none, started := false} : State ε η).cancel w).started =
        (({s with eventConsumerTask := none, started := false} : State ε η).cancel w).eventConsumerTask.isSome := by
      unfold State.cancel
      split
      · split <;> rfl
      · rfl
    refine ⟨?_,stopped,?_⟩
    · intro v other found live
      rw [nobody v other found] at live; contradiction
    · intro v other found live
      rw [nobody v other found] at live; contradiction

theorem stepStaffed (staffed : Staffed s) (taken : step s a = some t) : Staffed t := by
  cases stepCases taken with
  | publish room => exact putStaffed staffed room
  | queueFull => exact staffed
  | clear =>
    obtain ⟨same,slot⟩ := clearKeeps s.queue 0 s
    exact staffedSame staffed same slot
  | start => exact startStaffed staffed
  | stop => exact stopStaffed staffed
  | cancelWorker => exact cancelStaffed staffed
  | begin found pc kept =>
    exact movedOn staffed found (workerLive (by simp [pc]) kept) ⟨rfl,rfl,rfl⟩ (headFits s)
  | dequeue found pc kept queue =>
    rename_i resolution
    have live := workerLive (by simp [pc]) kept
    cases resolution with
    | resolved chain => exact movedOn staffed found live ⟨rfl,rfl,rfl⟩ rfl
    | failed => exact movedOn staffed found live (taskDoneStaff _) (headFits _)
    | fatal => exact movedOn staffed found live (taskDoneStaff _) trivial
  | launchNone found pc kept nothing =>
    exact movedOn staffed found (workerLive (by simp [pc]) kept) ⟨rfl,rfl,rfl⟩ trivial
  | launch found pc kept slot =>
    rename_i preparation
    have live := workerLive (by simp [pc]) kept
    cases preparation with
    | launched => exact movedOn staffed found live (taskDoneStaff _) (headFits _)
    | failed => exact movedOn staffed found live (taskDoneStaff _) (headFits _)
    | fatal => exact movedOn staffed found live (taskDoneStaff _) trivial
  | unwind found pc asked => exact retired staffed _ (by simp [Worker.live])
  | @currentDone w worker found pc current =>
    have dead : ∀ (v : Nat) (other : Worker),
        (s.workers.set w {worker with settled := true})[v]? = some other → other.live = false := by
      intro v other at_
      rcases Slots.setCases at_ with ⟨_,rfl⟩ | ⟨different,old⟩
      · simp [Worker.live,pc]
      · cases live : other.live with
        | false => rfl
        | true =>
          have same := staffed.current v other old live
          exact absurd (Option.some.inj (current.symm.trans same)) different
    refine ⟨?_,rfl,?_⟩
    · intro v other at_ live
      rw [dead v other at_] at live; contradiction
    · intro v other at_ live
      rw [dead v other at_] at live; contradiction
  | oldDone found pc old => exact retired staffed _ (by simp [Worker.live,pc])

theorem booksSame (books : Books s) (workers : List Worker) (task : Option Nat) (started : Bool) :
    Books {s with workers := workers, eventConsumerTask := task, started := started} :=
  ⟨books.raised,books.unfinished,books.acknowledged,books.numbered,books.placed,books.ordered⟩

theorem putBooks {event : ε} (books : Books s) (room : s.putNowait event = some t) : Books t := by
  unfold State.putNowait at room
  split at room <;> try contradiction
  cases Option.some.inj room
  have unfinished := books.unfinished
  have acknowledged := books.acknowledged
  have numbered := books.numbered
  have placed := books.placed
  have ordered := books.ordered
  simp only [places,dispatched,pending] at unfinished placed ordered
  refine ⟨books.raised,?_,?_,?_,?_,?_⟩
  · simp only [pending,List.length_append,List.length_singleton]
    omega
  · simp only [List.length_append,List.length_singleton]
    omega
  · simp only [List.map_append,List.length_append,List.length_singleton,List.range_succ,numbered,
      List.map_cons,List.map_nil]
  · simp only [places,dispatched,pending]
    have tail := placed.append_right [⟨s.history.put.length,event⟩]
    refine List.Perm.trans ?_ tail
    simp only [List.append_assoc]
    refine List.Perm.append_left _ (List.Perm.append_left _ (List.Perm.append_left _ ?_))
    rw [← List.append_assoc s.history.cleared]
    exact List.perm_append_comm
  · simp only [dispatched,pending]
    rw [← List.append_assoc]
    exact ordered.append (List.Sublist.refl _)

/- One acknowledgement for one event that leaves the queue and the slot. What the
rest of the state has become must still be made up of the events put. -/
theorem acknowledge (raised : s.raised = false) (numbered : s.history.put.map Item.seq = List.range s.history.put.length)
    (unfinished : s.unfinishedTasks = s.queue.length + (pending s).length + 1)
    (acknowledged : s.history.acknowledged + s.unfinishedTasks = s.history.put.length)
    (placed : (places s).Perm s.history.put)
    (ordered : (dispatched s ++ pending s ++ s.queue).Sublist s.history.put) : Books s.taskDone := by
  have some_ : s.unfinishedTasks ≠ 0 := by omega
  simp only [State.taskDone,some_,if_false]
  refine ⟨raised,?_,?_,numbered,placed,ordered⟩
  · show s.unfinishedTasks - 1 = s.queue.length + (pending s).length
    omega
  · show s.history.acknowledged + 1 + (s.unfinishedTasks - 1) = s.history.put.length
    omega

theorem dropTaskDone (s : State ε η) (item : Item ε) : s.taskDone.drop item = (s.drop item).taskDone := by
  unfold State.taskDone State.drop
  split <;> rfl

theorem clearOneBooks (books : Books s) (queue : s.queue = item :: rest) :
    Books (s.clearOne item rest) := by
  have unfinished := books.unfinished
  have placed := books.placed
  have ordered := books.ordered
  simp only [places,dispatched,pending,queue] at unfinished placed ordered
  refine acknowledge books.raised books.numbered ?_ books.acknowledged ?_ ?_
  · simp only [pending]
    simp only [List.length_cons] at unfinished
    omega
  · simp only [places,dispatched,pending]
    refine List.Perm.trans ?_ placed
    simp only [List.append_assoc,List.cons_append,List.nil_append]
    refine List.Perm.append_left _ (List.Perm.append_left _ ?_)
    have moved : (rest ++ (s.history.cleared ++ item :: s.history.dropped)).Perm
        (item :: (rest ++ (s.history.cleared ++ s.history.dropped))) := by
      rw [← List.append_assoc,← List.append_assoc]
      exact List.perm_middle
    exact moved
  · simp only [dispatched,pending]
    exact List.Sublist.trans (List.Sublist.append_left (List.sublist_cons_self item rest) _) ordered

theorem clearOneQueue (s : State ε η) (item : Item ε) (rest : List (Item ε)) :
    (s.clearOne item rest).queue = rest := by
  unfold State.clearOne State.taskDone
  split <;> rfl

theorem clearFromBooks (l : List (Item ε)) (count : Nat) (books : Books s) (queue : s.queue = l) :
    Books (clearFrom l count s).2 ∧ (clearFrom l count s).2.queue = [] ∧
    (clearFrom l count s).1 = count + l.length := by
  induction l generalizing count s with
  | nil => exact ⟨books,queue,rfl⟩
  | cons item rest ih =>
    have one := clearOneBooks books queue
    obtain ⟨later,empty,counted⟩ := ih (count + 1) one (clearOneQueue s item rest)
    unfold clearFrom
    simp only [one.raised,Bool.false_eq_true,if_false]
    refine ⟨later,empty,?_⟩
    rw [counted,List.length_cons]
    omega

theorem workerBooks (books : Books s) : Books (s.setWorker w worker pc) :=
  booksSame books _ _ _

theorem cancelBooks (books : Books s) : Books (s.cancel w) := by
  unfold State.cancel
  split
  · split
    · exact books
    · exact booksSame books _ _ _
  · exact books

theorem stopBooks (books : Books s) : Books s.stop := by
  unfold State.stop
  split
  · exact booksSame books _ _ _
  · exact cancelBooks (booksSame books s.workers none false)

theorem startBooks (books : Books s) : Books s.start := by
  unfold State.start
  split
  · exact books
  · exact booksSame books _ _ _

theorem lastFirst (l m n : List (Item ε)) :
    (l ++ (m ++ (n ++ [item]))).Perm (item :: (l ++ (m ++ n))) := by
  rw [← List.append_assoc m,← List.append_assoc l,← List.append_assoc l]
  exact List.perm_append_singleton item _

theorem dequeueBooks (books : Books s) (empty : s.pendingDispatch = none)
    (queue : s.queue = item :: rest) (resolution : Resolution η) :
    Books (s.dequeue w worker item rest resolution) := by
  have unfinished := books.unfinished
  have placed := books.placed
  have ordered := books.ordered
  simp only [places,dispatched,pending,queue,empty,Option.toList_none,List.map_nil,List.append_nil,
    List.length_nil,List.length_cons] at unfinished placed ordered
  have gone : Books ({s with queue := rest}.taskDone.drop item) := by
    rw [dropTaskDone]
    refine acknowledge books.raised books.numbered ?_ books.acknowledged ?_ ?_
    · simp only [pending,State.drop,empty,Option.toList_none,List.map_nil,List.length_nil]
      omega
    · simp only [places,dispatched,pending,State.drop,empty,Option.toList_none,List.map_nil,
        List.append_nil]
      refine List.Perm.trans ?_ placed
      simp only [List.append_assoc,List.cons_append]
      exact List.Perm.append_left _ (lastFirst _ _ _)
    · simp only [dispatched,pending,State.drop,empty,Option.toList_none,List.map_nil,List.append_nil]
      exact List.Sublist.trans (List.Sublist.append_left (List.sublist_cons_self item rest) _) ordered
  cases resolution with
  | resolved chain =>
    refine workerBooks ⟨books.raised,?_,books.acknowledged,books.numbered,?_,?_⟩
    · simp only [pending,Option.toList_some,List.map_cons,List.map_nil,List.length_singleton]
      omega
    · simpa [places,dispatched,pending] using placed
    · simpa [dispatched,pending] using ordered
  | failed => exact workerBooks gone
  | fatal => exact workerBooks gone

theorem launchBooks (books : Books s) (slot : s.pendingDispatch = some (item,chain))
    (preparation : Preparation) : Books (s.launch w worker item chain preparation) := by
  have unfinished := books.unfinished
  have placed := books.placed
  have ordered := books.ordered
  simp only [places,dispatched,pending,slot,Option.toList_some,List.map_cons,List.map_nil,
    List.length_singleton] at unfinished placed ordered
  have gone : Books ({s with pendingDispatch := none}.taskDone.drop item) := by
    rw [dropTaskDone]
    refine acknowledge books.raised books.numbered ?_ books.acknowledged ?_ ?_
    · simp only [pending,State.drop,Option.toList_none,List.map_nil,List.length_nil]
      omega
    · simp only [places,dispatched,pending,State.drop,Option.toList_none,List.map_nil,List.append_nil]
      refine List.Perm.trans ?_ placed
      simp only [List.append_assoc,List.cons_append,List.nil_append]
      exact List.Perm.append_left _ (lastFirst _ _ _)
    · simp only [dispatched,pending,State.drop,Option.toList_none,List.map_nil,List.append_nil]
      refine List.Sublist.trans (List.Sublist.append_right ?_ _) ordered
      exact List.sublist_append_left _ _
  cases preparation with
  | launched =>
    refine workerBooks (acknowledge books.raised books.numbered ?_ books.acknowledged ?_ ?_)
    · simp only [pending,Option.toList_none,List.map_nil,List.length_nil]
      omega
    · simpa [places,dispatched,pending] using placed
    · simpa [dispatched,pending] using ordered
  | failed => exact workerBooks gone
  | fatal => exact workerBooks gone

theorem stepBooks (staffed : Staffed s) (books : Books s) (taken : step s a = some t) : Books t := by
  cases stepCases taken with
  | publish room => exact putBooks books room
  | queueFull => exact books
  | clear => exact (clearFromBooks s.queue 0 books rfl).1
  | start => exact startBooks books
  | stop => exact stopBooks books
  | cancelWorker => exact cancelBooks books
  | begin found pc kept => exact workerBooks books
  | dequeue found pc kept queue =>
    have empty := staffed.fits _ _ found (workerLive (by simp [pc]) kept)
    rw [pc] at empty
    exact dequeueBooks books empty queue _
  | launchNone found pc kept nothing =>
    have filled := staffed.fits _ _ found (workerLive (by simp [pc]) kept)
    rw [pc] at filled
    simp [Fits,nothing] at filled
  | launch found pc kept slot => exact launchBooks books slot _
  | unwind found pc asked => exact workerBooks books
  | currentDone found pc current => exact booksSame books _ _ _
  | oldDone found pc old => exact booksSame books _ _ _

def Accounted (s : State ε η) : Prop := Staffed s ∧ Books s

theorem initialAccounted (maxsize : Nat) : Accounted (initial maxsize : State ε η) :=
  ⟨initialStaffed maxsize,initialBooks maxsize⟩

theorem stepAccounted (known : Accounted s) (taken : step s a = some t) : Accounted t :=
  ⟨stepStaffed known.1 taken,stepBooks known.1 known.2 taken⟩

theorem runAccounted {maxsize : Nat} {r : List (Action ε η)}
    (ran : Machine.run step (initial maxsize) r = some s) : Accounted s :=
  Machine.invariant (fun _ _ _ => stepAccounted) (initialAccounted maxsize) ran

inductive Passes (s : State ε η) : Action ε η → List (Item ε) → Option (Item ε × List η) → Prop where
  | kept {b : Action ε η} (idle : ∀ u, b ≠ .launch u .launched) :
      Passes s b s.queue s.pendingDispatch
  | put {via : Publication} {new : Item ε} :
      Passes s (.publish via new.event) (s.queue ++ [new]) s.pendingDispatch
  | cleared : Passes s .clear [] s.pendingDispatch
  | resolved {u : Nat} {head : Item ε} {tail : List (Item ε)} {handlers : List η}
      (queue : s.queue = head :: tail) (free : s.pendingDispatch = none) :
      Passes s (.dequeue u (.resolved handlers)) tail (some (head,handlers))
  | unresolved {u : Nat} {head : Item ε} {tail : List (Item ε)} {resolution : Resolution η}
      (queue : s.queue = head :: tail) (lost : ∀ handlers, resolution ≠ .resolved handlers) :
      Passes s (.dequeue u resolution) tail s.pendingDispatch
  | launched {u : Nat} {head : Item ε} {handlers : List η}
      (pending : s.pendingDispatch = some (head,handlers)) :
      Passes s (.launch u .launched) s.queue none
  | unprepared {u : Nat} {head : Item ε} {handlers : List η} {preparation : Preparation}
      (pending : s.pendingDispatch = some (head,handlers)) (lost : preparation ≠ .launched) :
      Passes s (.launch u preparation) s.queue none

theorem taskDoneQueue (s : State ε η) : s.taskDone.queue = s.queue := by
  unfold State.taskDone
  split <;> rfl

theorem passes (known : Accounted s) (taken : step s a = some t) :
    Passes s a t.queue t.pendingDispatch := by
  cases stepCases taken with
  | publish room =>
    rename_i via event
    unfold State.putNowait at room
    split at room <;> try contradiction
    cases Option.some.inj room
    exact @Passes.put ε η s via ⟨s.history.put.length,event⟩
  | queueFull => exact .kept nofun
  | clear =>
    obtain ⟨_,empty,_⟩ := clearFromBooks s.queue 0 known.2 rfl
    obtain ⟨_,slot⟩ := clearKeeps s.queue 0 s
    simp only [State.clear,empty,slot]
    exact .cleared
  | start =>
    unfold State.start
    split <;> exact .kept nofun
  | stop =>
    have queue : s.stop.queue = s.queue ∧ s.stop.pendingDispatch = s.pendingDispatch := by
      unfold State.stop State.cancel
      split
      · exact ⟨rfl,rfl⟩
      · simp only
        split
        · split <;> exact ⟨rfl,rfl⟩
        · exact ⟨rfl,rfl⟩
    rw [queue.1,queue.2]
    exact .kept nofun
  | cancelWorker =>
    unfold State.cancel
    split
    · split <;> exact .kept nofun
    · exact .kept nofun
  | begin found pc kept => exact .kept nofun
  | dequeue found pc kept queue =>
    rename_i w worker item rest resolution
    have free := known.1.fits _ _ found (workerLive (by simp [pc]) kept)
    rw [pc] at free
    cases resolution with
    | resolved chain => exact .resolved queue free
    | failed =>
      have slot : (({s with queue := rest}).taskDone.drop item).pendingDispatch = s.pendingDispatch :=
        taskDoneSlot _
      have left : (({s with queue := rest}).taskDone.drop item).queue = rest := taskDoneQueue _
      simp only [State.dequeue,State.setWorker,slot,left]
      exact .unresolved queue nofun
    | fatal =>
      have slot : (({s with queue := rest}).taskDone.drop item).pendingDispatch = s.pendingDispatch :=
        taskDoneSlot _
      have left : (({s with queue := rest}).taskDone.drop item).queue = rest := taskDoneQueue _
      simp only [State.dequeue,State.setWorker,slot,left]
      exact .unresolved queue nofun
  | launchNone found pc kept nothing =>
    have filled := known.1.fits _ _ found (workerLive (by simp [pc]) kept)
    rw [pc] at filled
    simp [Fits,nothing] at filled
  | launch found pc kept slot =>
    rename_i w worker item chain preparation
    cases preparation with
    | launched =>
      simp only [State.launch,State.setWorker,taskDoneSlot,taskDoneQueue]
      exact .launched slot
    | failed =>
      simp only [State.launch,State.setWorker,State.drop,taskDoneSlot,taskDoneQueue]
      exact .unprepared slot nofun
    | fatal =>
      simp only [State.launch,State.setWorker,State.drop,taskDoneSlot,taskDoneQueue]
      exact .unprepared slot nofun
  | unwind found pc asked => exact .kept nofun
  | currentDone found pc current => exact .kept nofun
  | oldDone found pc old => exact .kept nofun

theorem fewLive (staffed : Staffed s) : s.workers.countP Worker.live ≤ 1 := by
  refine Slots.countFew Worker.live ?_
  intro w v worker other found also live lives
  exact onlyLive staffed found live also lives

def taken (s : State ε η) : Action ε η → List ε
  | .publish _ event => if s.queue.length < s.maxsize then [event] else []
  | _ => []

theorem taskDonePut (s : State ε η) : s.taskDone.history.put = s.history.put := by
  unfold State.taskDone
  split <;> rfl

theorem cancelPut (s : State ε η) (w : Nat) : (s.cancel w).history.put = s.history.put := by
  unfold State.cancel
  split <;> try rfl
  split <;> rfl

theorem clearFromPut (items : List (Item ε)) (count : Nat) (s : State ε η) :
    (clearFrom items count s).2.history.put = s.history.put := by
  induction items generalizing count s with
  | nil => rfl
  | cons item rest ih =>
    have one : (s.clearOne item rest).history.put = s.history.put := taskDonePut _
    simp only [clearFrom]
    split
    · exact one
    · rw [ih,one]

theorem stepPut (went : step s a = some t) :
    t.history.put.map Item.event = s.history.put.map Item.event ++ taken s a := by
  have aside : t.history.put = s.history.put → taken s a = [] →
      t.history.put.map Item.event = s.history.put.map Item.event ++ taken s a := by
    intro same none_
    rw [same,none_,List.append_nil]
  cases stepCases went with
  | publish room =>
    unfold State.putNowait at room
    split at room <;> try contradiction
    rename_i below
    cases Option.some.inj room
    simp [taken,below]
  | queueFull full =>
    unfold State.putNowait at full
    split at full <;> try contradiction
    rename_i above
    exact aside rfl (if_neg above)
  | clear => exact aside (clearFromPut _ _ _) rfl
  | start =>
    refine aside ?_ rfl
    unfold State.start
    split <;> rfl
  | stop =>
    refine aside ?_ rfl
    unfold State.stop
    simp only
    split
    · rfl
    · exact cancelPut _ _
  | cancelWorker => exact aside (cancelPut _ _) rfl
  | begin found pc kept => exact aside rfl rfl
  | @dequeue w worker item rest resolution found pc kept queue =>
    refine aside ?_ rfl
    cases resolution with
    | resolved chain => rfl
    | failed => exact taskDonePut {s with queue := rest}
    | fatal => exact taskDonePut {s with queue := rest}
  | launchNone found pc kept nothing => exact aside rfl rfl
  | @launch w worker item chain preparation found pc kept pending =>
    refine aside ?_ rfl
    cases preparation with
    | launched => exact taskDonePut _
    | failed => exact taskDonePut {s with pendingDispatch := none}
    | fatal => exact taskDonePut {s with pendingDispatch := none}
  | unwind found pc asked => exact aside rfl rfl
  | currentDone found pc current => exact aside rfl rfl
  | oldDone found pc old => exact aside rfl rfl

theorem runPut {m : Nat} {r : List (Action ε η)} (ran : Machine.run step (initial m) r = some s) :
    s.history.put.map Item.event = Machine.journal step taken (initial m) r := by
  refine Machine.history (P := fun r s => s.history.put.map Item.event = Machine.journal step taken (initial m) r)
    rfl ?_ ran
  intro r s a t before sofar went
  rw [Machine.journalSnoc before,← sofar]
  exact stepPut went

theorem putNodup (books : Books s) : s.history.put.Nodup := by
  have distinct : (s.history.put.map Item.seq).Nodup := by
    rw [books.numbered]
    exact List.nodup_range
  exact List.Nodup.of_map _ distinct

theorem eventsConserved {m : Nat} {r : List (Action ε η)}
    (ran : Machine.run step (initial m) r = some s) :
    s.workers.countP Worker.live ≤ 1 ∧
    s.history.put.map Item.event = Machine.journal step taken (initial m) r ∧
    s.history.put.Nodup ∧ (places s).Perm s.history.put ∧
    s.unfinishedTasks = s.queue.length + (if s.pendingDispatch.isSome then 1 else 0) ∧
    s.history.acknowledged =
      (dispatched s).length + s.history.cleared.length + s.history.dropped.length ∧
    s.raised = false ∧
    (dispatched s ++ pending s ++ s.queue).Sublist s.history.put := by
  obtain ⟨staffed,books⟩ := runAccounted ran
  have unfinished := books.unfinished
  have acknowledged := books.acknowledged
  have total := books.placed.length_eq
  simp only [places,List.length_append] at total
  refine ⟨fewLive staffed,runPut ran,putNodup books,books.placed,?_,by omega,books.raised,books.ordered⟩
  rw [unfinished]
  cases slot : s.pendingDispatch <;> simp [pending,slot]

/- The consumer is stopped while event 7 waits for capacity; its replacement
launches it before event 8, while the old worker is still unwinding. -/
def handOver : List (Consumer.Action Nat Nat) :=
  [.start,.begin 0,.publish .put 7,.publish .postEvent 8,.dequeue 0 (.resolved [3]),.stop,.start,
    .begin 1,.launch 1 .launched,.dequeue 1 .failed,.unwind 0,.onConsumerDone 0,
    .publish .putNowait 9,.clear]

def handedOver : State Nat Nat :=
  ⟨2,[],0,none,[⟨.ended,true,true⟩,⟨.getting,false,false⟩],some 1,true,false,
    ⟨[⟨0,7⟩,⟨1,8⟩,⟨2,9⟩],[(⟨0,7⟩,[3])],[⟨2,9⟩],[⟨1,8⟩],3⟩⟩

theorem eventsConservedHandOver :
    handedOver.workers.countP Worker.live ≤ 1 ∧
    handedOver.history.put.map Item.event = Machine.journal step taken (initial 2) handOver ∧
    handedOver.history.put.Nodup ∧ (places handedOver).Perm handedOver.history.put ∧
    handedOver.unfinishedTasks =
      handedOver.queue.length + (if handedOver.pendingDispatch.isSome then 1 else 0) ∧
    handedOver.history.acknowledged = (dispatched handedOver).length +
      handedOver.history.cleared.length + handedOver.history.dropped.length ∧
    handedOver.raised = false ∧
    (dispatched handedOver ++ pending handedOver ++ handedOver.queue).Sublist handedOver.history.put :=
  eventsConserved (m := 2) (r := handOver) (by decide)

end Apixis.Conservation
