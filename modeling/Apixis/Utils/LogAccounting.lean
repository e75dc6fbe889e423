import Apixis.Utils.Logger
import Apixis.Library.Slots
import Mathlib.Data.List.Nodup
import Mathlib.Data.List.Perm.Basic

/-! Where the records of a logger are: evicted, buffered, or in one batch; and what the
flush worker does not miss. -/
namespace Apixis.Logger
open Fifo (weight)

section Batch
variable {b t : Batch} {fate : Fate}

/- What a thread has done for its batch, and still has to do. -/
structure Batch.Sound (b : Batch) : Prop where
  names : (b.written ++ b.pending).map Prod.fst = (Batch.groups b.cache).map Prod.fst
  written : ∀ name lines, (name,lines) ∈ b.written → lines <+: Batch.lines b.cache name
  pending : ∀ name lines, (name,lines) ∈ b.pending → lines = Batch.lines b.cache name
  complete : b.failed = false → ∀ name lines, (name,lines) ∈ b.written → lines = Batch.lines b.cache name

theorem detachedSound (cache : List Record) : (Batch.detached cache).Sound where
  names := rfl
  written := fun _ _ member => by cases member
  pending := fun _ _ member => Grouping.groupOf member
  complete := fun _ _ _ member => by cases member

theorem writeCache (moved : b.write fate = some t) : t.cache = b.cache := by
  unfold Batch.write at moved
  split at moved <;> try contradiction
  split at moved <;> try contradiction
  cases Option.some.inj moved
  cases fate <;> rfl

theorem groupDone {name : String} {messages lines : List String} {rest : List (String × List String)}
    {failed : Bool} (sound : b.Sound) (pending : b.pending = (name,messages) :: rest)
    (part : lines <+: messages) (whole : failed = false → b.failed = false ∧ lines = messages) :
    Batch.Sound {b with written := b.written ++ [(name,lines)], pending := rest, failed := failed} := by
  have own := sound.pending name messages (by rw [pending]; exact List.mem_cons_self)
  have names := sound.names
  rw [pending] at names
  refine ⟨?_,?_,?_,?_⟩
  · rw [← names]
    simp
  · intro other some_ member
    rcases List.mem_append.mp member with before | new
    · exact sound.written other some_ before
    · cases List.mem_singleton.mp new
      exact own ▸ part
  · intro other some_ member
    exact sound.pending other some_ (by rw [pending]; exact List.mem_cons_of_mem _ member)
  · intro clean other some_ member
    obtain ⟨before,same⟩ := whole clean
    rcases List.mem_append.mp member with old | new
    · exact sound.complete before other some_ old
    · cases List.mem_singleton.mp new
      exact same.trans own

theorem writeSound (sound : b.Sound) (moved : b.write fate = some t) : t.Sound := by
  unfold Batch.write at moved
  split at moved <;> try contradiction
  split at moved <;> try contradiction
  rename_i name messages rest pending
  cases Option.some.inj moved
  cases fate with
  | written => exact groupDone sound pending (List.prefix_refl _) (fun clean => ⟨clean,rfl⟩)
  | partly n => exact groupDone sound pending (List.take_prefix _ _) (fun clean => by cases clean)
  | raised => exact ⟨sound.names,sound.written,sound.pending,sound.complete⟩

end Batch

section Store
variable {limit : Nat} {max_cache_size : Int} {s t : Store}

def Store.detached (s : Store) : List Record := (s.batches.map Batch.cache).flatten

structure Store.Sound (limit : Nat) (s : Store) : Prop where
  size : s.log_cache_size = weight (fun r => r.message.length) s.log_cache
  bounded : s.log_cache.length ≤ limit
  placed : (s.evicted ++ (s.detached ++ s.log_cache)).Perm s.logged
  numbered : s.logged.map Record.number = List.range s.logged.length
  buffered : s.log_cache.Sublist s.logged
  batches : ∀ b ∈ s.batches, b.Sound ∧ b.cache.Sublist s.logged
  crossing : s.crossed = true → s.log_cache ≠ []

theorem initialSound (limit : Nat) : initial.store.Sound limit where
  size := rfl
  bounded := Nat.zero_le _
  placed := .refl _
  numbered := rfl
  buffered := .refl _
  batches := fun _ member => by cases member
  crossing := fun crossed => by cases crossed

theorem roomSize {size : Int} (sound : s.Sound limit) (record : Record)
    (made : s.room limit = some size) :
    size + record.message.length =
      weight (fun r => r.message.length) (Fifo.push limit s.log_cache record) := by
  unfold Store.room at made
  split at made
  · rename_i full
    cases cached : s.log_cache with
    | nil => rw [cached] at made; cases made
    | cons oldest rest =>
      rw [cached] at made full
      cases Option.some.inj made
      rw [Fifo.pushFull full,Fifo.weightAppend,sound.size,cached]
      simp only [weight]
      omega
  · rename_i other
    cases Option.some.inj made
    rw [Fifo.pushRoom (Nat.lt_of_le_of_ne sound.bounded other),Fifo.weightAppend,sound.size]
    simp only [weight]
    omega

theorem roomPositive {size : Int} (made : s.room limit = some size) (bounded : s.log_cache.length ≤ limit) :
    0 < limit := by
  unfold Store.room at made
  split at made
  · rename_i full
    cases cached : s.log_cache with
    | nil => rw [cached] at made; cases made
    | cons oldest rest =>
      rw [← full,cached]
      exact Nat.succ_pos _
  · omega

theorem placedPush {evicted detached cache logged : List Record} {record : Record}
    (placed : (evicted ++ (detached ++ cache)).Perm logged) :
    ((evicted ++ Fifo.dropped limit cache record) ++ (detached ++ Fifo.push limit cache record)).Perm
      (logged ++ [record]) := by
  have moved := (List.perm_append_comm_assoc (Fifo.dropped limit cache record) detached
    (Fifo.push limit cache record)).append_left evicted
  rw [Fifo.droppedPush] at moved
  rw [List.append_assoc]
  refine moved.trans ?_
  rw [← List.append_assoc detached,← List.append_assoc evicted]
  exact placed.append_right [record]

theorem logSound {name message : String} {crossing : Bool} (sound : s.Sound limit)
    (moved : s.log limit max_cache_size name message = some (t,crossing)) : t.Sound limit := by
  obtain ⟨size,made,last⟩ := Option.bind_eq_some_iff.mp moved
  cases Option.some.inj last
  refine ⟨roomSize sound ⟨s.logged.length,name,message⟩ made,Fifo.pushBounded,?_,?_,?_,?_,?_⟩
  · exact placedPush sound.placed
  · simp [sound.numbered,List.range_succ]
  · exact Fifo.pushSublist.trans (sound.buffered.append (.refl _))
  · intro b member
    have before := sound.batches b member
    exact ⟨before.1,before.2.trans (List.sublist_append_left _ _)⟩
  · intro _
    exact Fifo.pushNonempty (roomPositive made sound.bounded)

theorem detachSound {k : Nat} (sound : s.Sound limit) (moved : s.detach = some (t,k)) : t.Sound limit := by
  unfold Store.detach at moved
  split at moved <;> try contradiction
  cases Option.some.inj moved
  refine ⟨rfl,Nat.zero_le _,?_,sound.numbered,List.nil_sublist _,?_,fun crossed => by cases crossed⟩
  · simpa [Store.detached,Batch.detached] using sound.placed
  · intro b member
    rcases List.mem_append.mp member with before | new
    · exact sound.batches b before
    · cases List.mem_singleton.mp new
      exact ⟨detachedSound _,sound.buffered⟩

theorem writtenSound {k : Nat} {fate : Fate} (sound : s.Sound limit) (moved : s.write k fate = some t) :
    t.Sound limit := by
  obtain ⟨b,there,rest⟩ := Option.bind_eq_some_iff.mp moved
  obtain ⟨next,written,last⟩ := Option.bind_eq_some_iff.mp rest
  cases Option.some.inj last
  have before := sound.batches b (List.mem_of_getElem? there)
  refine ⟨sound.size,sound.bounded,?_,sound.numbered,sound.buffered,?_,sound.crossing⟩
  · show (s.evicted ++ (((s.batches.set k next).map Batch.cache).flatten ++ s.log_cache)).Perm s.logged
    rw [Slots.mapSet Batch.cache there (writeCache written)]
    exact sound.placed
  · intro other member
    rcases List.mem_or_eq_of_mem_set member with old | rfl
    · exact sound.batches other old
    · exact ⟨writeSound before.1 written,by rw [writeCache written]; exact before.2⟩

theorem logCrossed {name message : String} {crossing : Bool}
    (moved : s.log limit max_cache_size name message = some (t,crossing)) :
    t.crossed = (s.crossed || crossing) := by
  obtain ⟨_,_,last⟩ := Option.bind_eq_some_iff.mp moved
  cases Option.some.inj last
  rfl

theorem writtenHistory {k : Nat} {fate : Fate} (moved : s.write k fate = some t) :
    t.crossed = s.crossed ∧ t.evicted = s.evicted ∧ t.logged = s.logged := by
  obtain ⟨_,_,rest⟩ := Option.bind_eq_some_iff.mp moved
  obtain ⟨_,_,last⟩ := Option.bind_eq_some_iff.mp rest
  cases Option.some.inj last
  exact ⟨rfl,rfl,rfl⟩

theorem detachedClear {k : Nat} (moved : s.detach = some (t,k)) : t.crossed = false := by
  unfold Store.detach at moved
  split at moved <;> try contradiction
  cases Option.some.inj moved
  rfl

theorem emptyClear (sound : s.Sound limit) (nothing : s.detach = none) : s.crossed = false := by
  unfold Store.detach at nothing
  split at nothing <;> try contradiction
  rename_i empty
  exact Bool.not_eq_true _ ▸ fun crossed => sound.crossing crossed empty

end Store

section Flush
variable {limit : Nat} {s : State} {k : Nat}

def Flushed (s t : Store) : Prop := t = s ∨ ∃ b, s.detach = some (t,b)

theorem flushedSound {s t : Store} (sound : s.Sound limit) (moved : Flushed s t) : t.Sound limit := by
  rcases moved with rfl | ⟨b,moved⟩
  · exact sound
  · exact detachSound sound moved

theorem flushedHistory {s t : Store} (moved : Flushed s t) : t.evicted = s.evicted ∧ t.logged = s.logged := by
  rcases moved with rfl | ⟨b,moved⟩
  · exact ⟨rfl,rfl⟩
  · unfold Store.detach at moved
    split at moved <;> try contradiction
    cases Option.some.inj moved
    exact ⟨rfl,rfl⟩

theorem finishFlushed (s : State) (k : Nat) : Flushed s.store (s.finish k).store := by
  unfold State.finish
  split
  · rename_i store b moved
    exact .inr ⟨b,moved⟩
  · exact .inl rfl

theorem awakenFlushed (s : State) (k : Nat) : Flushed s.store (s.awaken k).store := by
  unfold State.awaken
  split
  · rename_i store b moved
    exact .inr ⟨b,moved⟩
  · split
    · exact .inl rfl
    · exact finishFlushed {s with flush_event := false} k

theorem loopFlushed (s : State) (k : Nat) : Flushed s.store (s.loop k).store := by
  unfold State.loop
  split
  · split
    · exact awakenFlushed s k
    · exact .inl rfl
  · exact finishFlushed s k

theorem lastFlushed (s : State) : Flushed s.store s.lastFlush.store := by
  unfold State.lastFlush
  split
  · rename_i store b moved
    exact .inr ⟨b,moved⟩
  · exact .inl rfl

/- A threshold that has been reached leaves the event set, and a set event leaves no
worker asleep. -/
structure Roused (s : State) : Prop where
  flagged : s.store.crossed = true → s.flush_event = true
  woken : s.flush_event = true → ∀ (k : Nat) (w : Bool), s.workers[k]? = some (.waiting w) → w = true

theorem rousedSet (s : State) : Roused s.setEvent where
  flagged := fun _ => rfl
  woken := by
    intro _ k w found
    rw [State.setEvent,List.getElem?_map] at found
    obtain ⟨before,_,same⟩ := Option.map_eq_some_iff.mp found
    cases before with
    | waiting old => cases same; rfl
    | _ => cases same

theorem rousedWorker {worker : Worker} (roused : Roused s)
    (own : ∀ w, worker = .waiting w → s.flush_event = false) : Roused (s.setWorker k worker) where
  flagged := roused.flagged
  woken := by
    intro set j w found
    rcases Slots.setCases found with ⟨_,same⟩ | ⟨_,old⟩
    · cases (own w same.symm).symm.trans set
    · exact roused.woken set j w old

theorem rousedStore {store : Store} (roused : Roused s) (moved : Flushed s.store store) :
    Roused {s with store := store} where
  flagged := by
    rcases moved with rfl | ⟨b,moved⟩
    · exact roused.flagged
    · intro crossed
      cases (detachedClear moved).symm.trans crossed
  woken := roused.woken

theorem rousedFinish (roused : Roused s) : Roused (s.finish k) := by
  unfold State.finish
  split
  · rename_i store b moved
    exact rousedWorker (rousedStore roused (.inr ⟨b,moved⟩)) (fun w other => by cases other)
  · exact rousedWorker roused (fun w other => by cases other)

theorem rousedClear {s : State} (clear : s.store.crossed = false) : Roused {s with flush_event := false} where
  flagged := fun crossed => by cases clear.symm.trans crossed
  woken := fun set => by cases set

theorem rousedAwaken (sound : s.store.Sound limit) : Roused (s.awaken k) := by
  unfold State.awaken
  split
  · rename_i store b moved
    exact rousedWorker (rousedClear (s := {s with store := store}) (detachedClear moved))
      (fun w other => by cases other)
  · rename_i nothing
    have clear := rousedClear (emptyClear sound nothing)
    split
    · exact rousedWorker clear (fun _ _ => rfl)
    · exact rousedFinish clear

theorem rousedLoop (sound : s.store.Sound limit) (roused : Roused s) : Roused (s.loop k) := by
  unfold State.loop
  split
  · split
    · exact rousedAwaken sound
    · rename_i unset
      exact rousedWorker roused (fun _ _ => Bool.not_eq_true _ ▸ unset)
  · exact rousedFinish roused

theorem rousedLast (roused : Roused s) : Roused s.lastFlush := by
  unfold State.lastFlush
  split
  · rename_i store b moved
    have kept := rousedStore roused (.inr ⟨b,moved⟩)
    exact ⟨kept.flagged,kept.woken⟩
  · exact ⟨roused.flagged,roused.woken⟩

end Flush

section Step
variable {limit : Nat} {max_cache_size : Int} {s t : State} {a : Action}

inductive Stored (limit : Nat) (max_cache_size : Int) (s : Store) : Action → Store → Prop where
  | log {name message : String} {crossing : Bool} {t : Store}
      (moved : s.log limit max_cache_size name message = some (t,crossing)) :
      Stored limit max_cache_size s (.log name message) t
  | write {b : Nat} {fate : Fate} {t : Store} (moved : s.write b fate = some t) :
      Stored limit max_cache_size s (.write b fate) t
  | flush {a : Action} {t : Store} (other : ∀ name message, a ≠ .log name message)
      (moved : Flushed s t) : Stored limit max_cache_size s a t

theorem stepStored (taken : step limit max_cache_size s a = some t) :
    Stored limit max_cache_size s.store a t.store := by
  cases stepCases taken with
  | log moved => exact .log moved
  | crosses moved => exact .log moved
  | write moved => exact .write moved
  | flush moved => exact .flush (fun _ _ => by simp) (.inr ⟨_,moved⟩)
  | nothing => exact .flush (fun _ _ => by simp) (.inl rfl)
  | start => exact .flush (fun _ _ => by simp) (.inl rfl)
  | again _ already =>
    rcases already with ⟨rfl,_⟩ | ⟨rfl,_⟩ <;> exact .flush (fun _ _ => by simp) (.inl rfl)
  | stop => exact .flush (fun _ _ => by simp) (.inl rfl)
  | stopAlone => exact .flush (fun _ _ => by simp) (lastFlushed {s with running := false}.setEvent)
  | joined => exact .flush (fun _ _ => by simp) (lastFlushed {s with flush_task := none})
  | unjoined _ _ _ left =>
    rcases left with ⟨rfl,_⟩ | rfl <;> exact .flush (fun _ _ => by simp) (.inl rfl)
  | flushed _ left => rcases left with ⟨rfl,_⟩ | rfl <;> exact .flush (fun _ _ => by simp) (.inl rfl)
  | loop => exact .flush (fun _ _ => by simp) (loopFlushed s _)
  | awaken => exact .flush (fun _ _ => by simp) (awakenFlushed s _)
  | finish => exact .flush (fun _ _ => by simp) (.inl rfl)
  | cancelWorker => exact .flush (fun _ _ => by simp) (.inl rfl)

theorem storedSound {u v : Store} (sound : u.Sound limit) (stored : Stored limit max_cache_size u a v) :
    v.Sound limit := by
  cases stored with
  | log moved => exact logSound sound moved
  | write moved => exact writtenSound sound moved
  | flush other moved => exact flushedSound sound moved

theorem rousedAside (roused : Roused s) (store : t.store = s.store)
    (flag : t.flush_event = s.flush_event) (workers : t.workers = s.workers) : Roused t := by
  obtain ⟨flagged,woken⟩ := roused
  constructor
  · rw [store,flag]
    exact flagged
  · rw [flag,workers]
    exact woken

theorem stepRoused (sound : s.store.Sound limit) (roused : Roused s)
    (taken : step limit max_cache_size s a = some t) : Roused t := by
  cases stepCases taken with
  | @log _ _ store moved =>
    refine ⟨?_,roused.woken⟩
    intro crossed
    have before : store.crossed = true := crossed
    rw [logCrossed moved,Bool.or_false] at before
    exact roused.flagged before
  | crosses => exact rousedSet _
  | flush moved => exact rousedStore roused (.inr ⟨_,moved⟩)
  | @write _ _ store moved =>
    refine ⟨?_,roused.woken⟩
    intro crossed
    have before : store.crossed = true := crossed
    rw [(writtenHistory moved).1] at before
    exact roused.flagged before
  | start =>
    refine ⟨roused.flagged,?_⟩
    intro set k w found
    rcases Slots.appendCases found with ⟨_,other⟩ | old
    · cases other
    · exact roused.woken set k w old
  | nothing => exact roused
  | again => exact roused
  | stop => exact rousedAside (rousedSet {s with running := false}) rfl rfl rfl
  | stopAlone => exact rousedLast (rousedSet {s with running := false})
  | joined => exact rousedLast (rousedAside roused rfl rfl rfl)
  | unjoined => exact rousedAside roused rfl rfl rfl
  | flushed => exact rousedAside roused rfl rfl rfl
  | loop => exact rousedLoop sound roused
  | awaken => exact rousedAwaken sound
  | finish => exact rousedWorker roused (fun w other => by cases other)
  | cancelWorker => exact rousedWorker roused (fun w other => by cases other)

structure Kept (limit : Nat) (s : State) : Prop where
  sound : s.store.Sound limit
  roused : Roused s

theorem runKept {acts : List Action} (ran : Machine.run (step limit max_cache_size) initial acts = some s) :
    Kept limit s := by
  refine Machine.invariant ?_ ⟨initialSound limit,⟨(fun crossed => by cases crossed),(fun set => by cases set)⟩⟩ ran
  intro m a t kept taken
  exact ⟨storedSound kept.sound (stepStored taken),stepRoused kept.sound kept.roused taken⟩

end Step

section Places
variable {limit : Nat} {max_cache_size : Int} {s t : Store} {r : Record}

def Action.call : Action → Option (String × String)
  | .log name message => some (name,message)
  | _ => none

inductive Place where
  | evicted
  | buffered
  | detached (b : Nat)
  deriving DecidableEq, Repr

def Store.contents (s : Store) : Place → List Record
  | .evicted => s.evicted
  | .buffered => s.log_cache
  | .detached b => (s.batches[b]?).elim [] Batch.cache

/- All places in a row, and where each of them stands there. -/
def Store.row (s : Store) : List (List Record) := s.evicted :: s.log_cache :: s.batches.map Batch.cache

def Place.position : Place → Nat
  | .evicted => 0
  | .buffered => 1
  | .detached b => b + 2

theorem rowPlaced (sound : s.Sound limit) : s.row.flatten.Perm s.logged :=
  (List.perm_append_comm.append_left s.evicted).trans sound.placed

theorem rowContents {place : Place} (inside : r ∈ s.contents place) :
    s.row[place.position]? = some (s.contents place) := by
  cases place with
  | evicted | buffered => rfl
  | detached b =>
    simp only [Store.contents] at inside ⊢
    cases found : s.batches[b]? with
    | none => rw [found] at inside; cases inside
    | some batch => simp [Store.row,Place.position,found]

theorem placed (sound : s.Sound limit) : r ∈ s.logged ↔ ∃ place, r ∈ s.contents place := by
  rw [← (rowPlaced sound).mem_iff,List.mem_flatten]
  constructor
  · rintro ⟨records,member,inside⟩
    rcases List.mem_cons.mp member with rfl | member
    · exact ⟨.evicted,inside⟩
    rcases List.mem_cons.mp member with rfl | member
    · exact ⟨.buffered,inside⟩
    obtain ⟨batch,there,rfl⟩ := List.mem_map.mp member
    obtain ⟨b,found⟩ := List.mem_iff_getElem?.mp there
    refine ⟨.detached b,?_⟩
    rw [Store.contents,found]
    exact inside
  · rintro ⟨place,inside⟩
    exact ⟨_,List.mem_of_getElem? (rowContents inside),inside⟩

theorem loggedNodup (sound : s.Sound limit) : s.logged.Nodup :=
  List.Nodup.of_map Record.number (by rw [sound.numbered]; exact List.nodup_range)

theorem samePlace (sound : s.Sound limit) {p q : Place} (first : r ∈ s.contents p)
    (second : r ∈ s.contents q) : p = q := by
  have apart := (rowPlaced sound).nodup_iff.mpr (loggedNodup sound)
  have same := Slots.flattenPlace apart (rowContents first) (rowContents second) first second
  cases p <;> cases q <;> simp [Place.position] at same <;> simp [same]

theorem onePlace (sound : s.Sound limit) (logged : r ∈ s.logged) : ∃! place, r ∈ s.contents place := by
  obtain ⟨place,inside⟩ := (placed sound).mp logged
  exact ⟨place,inside,fun other same => samePlace sound same inside⟩

theorem storedLogged {a : Action} (stored : Stored limit max_cache_size s a t) :
    t.logged.map (fun r => (r.name,r.message)) =
      s.logged.map (fun r => (r.name,r.message)) ++ a.call.toList := by
  cases stored with
  | log moved =>
    obtain ⟨_,_,last⟩ := Option.bind_eq_some_iff.mp moved
    cases Option.some.inj last
    rw [List.map_append]
    rfl
  | write moved =>
    rw [(writtenHistory moved).2.2]
    exact (List.append_nil _).symm
  | flush other moved =>
    rw [(flushedHistory moved).2]
    cases a with
    | log name message => exact absurd rfl (other name message)
    | _ => exact (List.append_nil _).symm

end Places

section Alone
variable {limit : Nat} {max_cache_size : Int} {s t : State} {k : Nat}

/- Only `flush_task` is alive, and it has ended once a `stop` has let the lock go. -/
structure Alone (s : State) : Prop where
  task : ∀ (k : Nat) (w : Worker), s.workers[k]? = some w → w.alive = true → s.flush_task = some k
  idle : s.running = false → s.lock ≠ .joining → ∀ w ∈ s.workers, w.alive = false
  held : s.lock ≠ .free → s.running = false

theorem aloneAside (alone : Alone s) (task : t.flush_task = s.flush_task) (running : t.running = s.running)
    (lock : t.lock = s.lock) (workers : t.workers = s.workers) : Alone t := by
  obtain ⟨own,idle,held⟩ := alone
  rw [← task,← workers] at own
  rw [← running,← lock,← workers] at idle
  rw [← running,← lock] at held
  exact ⟨own,idle,held⟩

theorem aloneWorker {worker next : Worker} (alone : Alone s) (there : s.workers[k]? = some worker)
    (alive : worker.alive = true) : Alone (s.setWorker k next) where
  task := by
    intro j w found live
    rcases Slots.setCases found with ⟨rfl,_⟩ | ⟨_,old⟩
    · exact alone.task k worker there alive
    · exact alone.task j w old live
  idle := by
    intro stopped other
    have dead := alone.idle stopped other worker (List.mem_of_getElem? there)
    cases alive.symm.trans dead
  held := alone.held

theorem aloneFinish {worker : Worker} (alone : Alone s) (there : s.workers[k]? = some worker)
    (alive : worker.alive = true) : Alone (s.finish k) := by
  unfold State.finish
  split
  · rename_i store b _
    exact aloneWorker (s := {s with store := store}) (aloneAside alone rfl rfl rfl rfl) there alive
  · exact aloneWorker alone there alive

theorem aloneAwaken {worker : Worker} (alone : Alone s) (there : s.workers[k]? = some worker)
    (alive : worker.alive = true) : Alone (s.awaken k) := by
  have cleared : ∀ store, Alone {s with store := store, flush_event := false} := fun _ =>
    aloneAside alone rfl rfl rfl rfl
  unfold State.awaken
  split
  · exact aloneWorker (cleared _) there alive
  · split
    · exact aloneWorker (cleared _) there alive
    · exact aloneFinish (cleared _) there alive

theorem aloneLoop {worker : Worker} (alone : Alone s) (there : s.workers[k]? = some worker)
    (alive : worker.alive = true) : Alone (s.loop k) := by
  unfold State.loop
  split
  · split
    · exact aloneAwaken alone there alive
    · exact aloneWorker alone there alive
  · exact aloneFinish alone there alive

theorem aliveWake (w : Worker) : w.wake.alive = w.alive := by cases w <;> rfl

theorem aloneSet (alone : Alone s) : Alone s.setEvent where
  task := by
    intro k w found live
    rw [State.setEvent,List.getElem?_map] at found
    obtain ⟨before,there,rfl⟩ := Option.map_eq_some_iff.mp found
    exact alone.task k before there (aliveWake before ▸ live)
  idle := by
    intro stopped other w member
    obtain ⟨before,there,rfl⟩ := List.mem_map.mp member
    exact (aliveWake before).trans (alone.idle stopped other before there)
  held := alone.held

/- The worker a `stop` waits for has ended, and nobody else is alive. -/
theorem endedIdle {how : Ended} (alone : Alone s) (task : s.flush_task = some k)
    (ended : workerEnded s k = some how) : ∀ w ∈ s.workers, w.alive = false := by
  intro w member
  obtain ⟨j,found⟩ := List.mem_iff_getElem?.mp member
  by_contra live
  have own := alone.task j w found (by simpa using live)
  cases Option.some.inj (task.symm.trans own)
  rw [workerEnded,found] at ended
  cases w with
  | ended _ => exact live rfl
  | _ => cases ended

theorem aloneIdle (stopped : s.running = false) (dead : ∀ w ∈ s.workers, w.alive = false) : Alone s where
  task := by
    intro k w found live
    cases live.symm.trans (dead w (List.mem_of_getElem? found))
  idle := fun _ _ => dead
  held := fun _ => stopped

theorem aloneLast (stopped : s.running = false) (dead : ∀ w ∈ s.workers, w.alive = false) :
    Alone s.lastFlush := by
  unfold State.lastFlush
  split
  · exact aloneIdle stopped dead
  · exact aloneIdle stopped dead

theorem stepAlone {a : Action} (alone : Alone s) (taken : step limit max_cache_size s a = some t) :
    Alone t := by
  cases stepCases taken with
  | log => exact aloneAside alone rfl rfl rfl rfl
  | crosses => exact aloneSet (aloneAside alone rfl rfl rfl rfl)
  | flush => exact aloneAside alone rfl rfl rfl rfl
  | nothing => exact alone
  | write => exact aloneAside alone rfl rfl rfl rfl
  | start free stopped =>
    have dead := alone.idle stopped (by rw [free]; exact fun at_ => by cases at_)
    refine ⟨?_,fun other => (by cases other),fun held => absurd free held⟩
    intro j w found live
    rcases Slots.appendCases found with ⟨rfl,_⟩ | old
    · rfl
    · cases live.symm.trans (dead w (List.mem_of_getElem? old))
  | again => exact alone
  | stop => exact ⟨(aloneSet alone).task,fun _ other => absurd rfl other,fun _ => rfl⟩
  | stopAlone free running none_ =>
    refine aloneLast rfl ?_
    intro w member
    obtain ⟨k,found⟩ := List.mem_iff_getElem?.mp member
    by_contra live
    cases none_.symm.trans ((aloneSet alone).task k w found (by simpa using live))
  | joined lock task ended =>
    have stopped := alone.held (by rw [lock]; exact fun at_ => by cases at_)
    have dead := endedIdle alone task ended
    exact aloneLast stopped dead
  | unjoined lock task ended =>
    have stopped := alone.held (by rw [lock]; exact fun at_ => by cases at_)
    have dead := endedIdle alone task ended
    exact aloneIdle stopped dead
  | flushed lock =>
    have stopped := alone.held (by rw [lock]; exact fun at_ => by cases at_)
    exact aloneIdle stopped (alone.idle stopped (by rw [lock]; exact fun at_ => by cases at_))
  | loop there ready =>
    refine aloneLoop alone there ?_
    rcases ready with rfl | ⟨b,rfl,_⟩ <;> rfl
  | awaken there => exact aloneAwaken alone there rfl
  | finish there => exact aloneWorker alone there rfl
  | cancelWorker there alive => exact aloneWorker alone there alive

end Alone

section Accounts
variable {limit : Nat} {max_cache_size : Int} {s : State}

theorem runLogged {acts : List Action} (ran : Machine.run (step limit max_cache_size) initial acts = some s) :
    s.store.logged.map (fun r => (r.name,r.message)) = acts.filterMap Action.call := by
  refine Machine.history (P := fun r m =>
    m.store.logged.map (fun x => (x.name,x.message)) = r.filterMap Action.call) rfl ?_ ran
  intro r m a t _ before taken
  rw [storedLogged (stepStored taken),before,List.filterMap_append]
  cases called : a.call <;> simp [called]

/- A batch is a part of what has been logged, in that order. Each logger's lines in it
are written once, from the first one on, and all of them where nothing fails. -/
structure InOrder (logged : List Record) (b : Batch) : Prop where
  part : b.cache.Sublist logged
  once : (b.written.map Prod.fst).Nodup
  lines : ∀ name lines, (name,lines) ∈ b.written → lines <+: Batch.lines b.cache name
  all : b.ended = true → b.raised = false → b.failed = false → ∀ r ∈ b.cache,
    (r.name,Batch.lines b.cache r.name) ∈ b.written

/- A sleeping worker goes on at once when a threshold has been reached, and takes the
whole buffer. -/
structure Woken (limit : Nat) (max_cache_size : Int) (s : State) (k : Nat) : Prop where
  flag : s.flush_event = true
  takes : ∃ t, step limit max_cache_size s (.worker k) = some t ∧ t.store.log_cache = [] ∧
    t.store.batches = s.store.batches ++ [Batch.detached s.store.log_cache]

/- A batch that has not ended can be written on, and a file that does not fail gets all
lines of the next logger. After enough such files the batch has ended. -/
structure Writes (limit : Nat) (max_cache_size : Int) (s : State) (i : Nat) (b : Batch) : Prop where
  next : b.ended = false → ∃ name t after, step limit max_cache_size s (.write i .written) = some t ∧
    t.store.batches = s.store.batches.set i after ∧ after.cache = b.cache ∧ name ∉ b.written.map Prod.fst ∧
    after.written = b.written ++ [(name,Batch.lines b.cache name)]
  ends : b.raised = false → ∃ n t after,
    Machine.run (step limit max_cache_size) s (List.replicate n (.write i .written)) = some t ∧
    t.store.batches[i]? = some after ∧ after.cache = b.cache ∧ after.ended = true ∧
    (b.failed = false → ∀ r ∈ b.cache, (r.name,Batch.lines b.cache r.name) ∈ after.written)

structure Accounted (limit : Nat) (max_cache_size : Int) (s : State) : Prop where
  size : s.store.log_cache_size = weight (fun r => r.message.length) s.store.log_cache
  bounded : s.store.log_cache.length ≤ limit
  onePlace : ∀ r ∈ s.store.logged, ∃! place, r ∈ s.store.contents place
  evicts : ∀ a t, step limit max_cache_size s a = some t → t.store.evicted = s.store.evicted ∨
    (a.call.isSome = true ∧ s.store.log_cache.length = limit ∧ ∃ oldest rest,
      s.store.log_cache = oldest :: rest ∧ t.store.evicted = s.store.evicted ++ [oldest])
  batches : ∀ (i : Nat) b, s.store.batches[i]? = some b → InOrder s.store.logged b ∧ Writes limit max_cache_size s i b
  single : ∀ (j k : Nat) v w, s.workers[j]? = some v → s.workers[k]? = some w → v.alive = true → w.alive = true → j = k
  woken : ∀ (k : Nat) (w : Bool), s.workers[k]? = some (.waiting w) → s.store.crossed = true →
    Woken limit max_cache_size s k

end Accounts

/- A full buffer loses its oldest record while the worker still sleeps, and wakes it. Its
batch is written; of another one that `flush` has taken, one logger is still to come when
the buffer is full again. -/
def filled : List Action :=
  [.start,.worker 0,.log "first" "discarded",.log "second" "kept",.log "first" "kept too",.log "second" "last",
    .worker 0,.write 0 .written,.log "first" "later",.write 0 .written,.worker 0,.log "second" "later too",
    .flush,.write 1 .written,.log "first" "a",.log "first" "b",.log "second" "c"]

end Apixis.Logger
