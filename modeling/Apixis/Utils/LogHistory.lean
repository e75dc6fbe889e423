import Apixis.Utils.LogAccounting
import Apixis.Utils.LogFiles
import Mathlib.Data.String.Basic

/-! From the buffer to the files and back: what a reader of a logger's files finds of
what has been logged. -/
namespace Apixis.LogHistory
open Logger (Batch Record Store Fate Worker Alone)
open LogFiles (Day Disk Folder folder join series chunk isFull january february)

section Serial
variable {buffer : Nat} {max_cache_size : Int} {s t : Logger.State} {a : Logger.Action} {k : Nat}

/- Flushes are left to the worker and to `stop`, and neither is cancelled. -/
def Orderly : Logger.Action → Bool
  | .flush => false
  | .cancelStop => false
  | .cancelWorker _ => false
  | _ => true

/- Somebody waits for the thread that writes batch `b`. -/
def Awaited (s : Logger.State) (b : Nat) : Prop :=
  s.lock = .flushing b ∨
    ∃ (k : Nat) (worker : Worker), s.workers[k]? = some worker ∧ (worker = .writing b ∨ worker = .finishing b)

def Settled (s : Store) : Prop := ∀ (b : Nat) (batch : Batch), s.batches[b]? = some batch → batch.ended = true

/- Only the last batch may still have something to be written. -/
structure Serial (s : Logger.State) : Prop where
  awaited : ∀ (b : Nat) (batch : Batch), s.store.batches[b]? = some batch → batch.ended = false → Awaited s b
  last : ∀ (b : Nat) (batch : Batch), s.store.batches[b]? = some batch → batch.ended = false →
    b+1 = s.store.batches.length

/- The batches stay as they are, or there is one more, which is waited for. -/
def Adds (s : Store) (t : Logger.State) : Prop :=
  t.store.batches = s.batches ∨ ∃ cache, t.store.batches = s.batches ++ [Batch.detached cache] ∧
    Awaited t s.batches.length

theorem serialAdds {u : Store} (settled : Settled u) (adds : Adds u t) : Serial t := by
  rcases adds with same | ⟨cache,more,awaited⟩
  · constructor <;> intro b batch there live <;> rw [same] at there <;>
      cases live.symm.trans (settled b batch there)
  · constructor <;> intro b batch there live <;> rw [more] at there <;>
      rcases Slots.appendCases there with ⟨rfl,_⟩ | old
    · exact awaited
    · cases live.symm.trans (settled b batch old)
    · rw [more,List.length_append]
      rfl
    · cases live.symm.trans (settled b batch old)

theorem detachAdds {store : Store} {b : Nat} (moved : s.store.detach = some (store,b)) :
    b = s.store.batches.length ∧ store.batches = s.store.batches ++ [Batch.detached s.store.log_cache] := by
  unfold Store.detach at moved
  split at moved <;> try contradiction
  cases Option.some.inj moved
  exact ⟨rfl,rfl⟩

theorem finishAdds {worker : Worker} (there : s.workers[k]? = some worker) : Adds s.store (s.finish k) := by
  unfold Logger.State.finish
  split
  · rename_i store b moved
    obtain ⟨rfl,more⟩ := detachAdds moved
    exact .inr ⟨_,more,.inr ⟨k,_,Slots.setSame there,.inr rfl⟩⟩
  · exact .inl rfl

theorem awakenAdds {worker : Worker} (there : s.workers[k]? = some worker) : Adds s.store (s.awaken k) := by
  unfold Logger.State.awaken
  split
  · rename_i store b moved
    obtain ⟨rfl,more⟩ := detachAdds moved
    exact .inr ⟨_,more,.inr ⟨k,_,Slots.setSame there,.inl rfl⟩⟩
  · split
    · exact .inl rfl
    · exact finishAdds (s := {s with flush_event := false}) there

theorem loopAdds {worker : Worker} (there : s.workers[k]? = some worker) : Adds s.store (s.loop k) := by
  unfold Logger.State.loop
  split
  · split
    · exact awakenAdds there
    · exact .inl rfl
  · exact finishAdds there

theorem lastAdds (s : Logger.State) : Adds s.store s.lastFlush := by
  unfold Logger.State.lastFlush
  split
  · rename_i store b moved
    obtain ⟨rfl,more⟩ := detachAdds moved
    exact .inr ⟨_,more,.inl rfl⟩
  · exact .inl rfl

theorem settledDead (serial : Serial s) (dead : ∀ w ∈ s.workers, w.alive = false)
    (lock : ∀ b, s.lock ≠ .flushing b) : Settled s.store := by
  intro b batch there
  by_contra live
  rcases serial.awaited b batch there (by simpa using live) with held | ⟨k,worker,found,writes⟩
  · exact lock b held
  · have alive := dead worker (List.mem_of_getElem? found)
    rcases writes with rfl | rfl <;> cases alive

theorem settledWorker {worker : Worker} (serial : Serial s) (alone : Alone s)
    (there : s.workers[k]? = some worker) (alive : worker.alive = true)
    (done : ∀ b, worker = .writing b ∨ worker = .finishing b → Logger.batchEnded s b = true) :
    Settled s.store := by
  intro b batch found
  by_contra live
  rcases serial.awaited b batch found (by simpa using live) with held | ⟨j,other,place,writes⟩
  · have stopped := alone.held (by rw [held]; exact fun free => by cases free)
    have dead := alone.idle stopped (by rw [held]; exact fun joining => by cases joining) worker
      (List.mem_of_getElem? there)
    cases alive.symm.trans dead
  · have awake : other.alive = true := by rcases writes with rfl | rfl <;> rfl
    have own := (alone.task j other place awake).symm.trans (alone.task k worker there alive)
    cases Option.some.inj own
    cases Option.some.inj (place.symm.trans there)
    have ended := done b writes
    rw [Logger.batchEnded,found] at ended
    exact live ended

theorem wakeWrites {b : Nat} {worker : Worker} (writes : worker = .writing b ∨ worker = .finishing b) :
    worker.wake = .writing b ∨ worker.wake = .finishing b := by
  rcases writes with rfl | rfl
  · exact .inl rfl
  · exact .inr rfl

theorem serialAside (serial : Serial s) (batches : t.store.batches = s.store.batches)
    (kept : ∀ b, Awaited s b → Awaited t b) : Serial t := by
  constructor <;> intro b batch there live <;> rw [batches] at there
  · exact kept b (serial.awaited b batch there live)
  · rw [batches]
    exact serial.last b batch there live

theorem awaitedSet {b : Nat} (awaited : Awaited s b) : Awaited s.setEvent b := by
  rcases awaited with held | ⟨k,worker,there,writes⟩
  · exact .inl held
  · refine .inr ⟨k,worker.wake,?_,wakeWrites writes⟩
    rw [Logger.State.setEvent,List.getElem?_map,there]
    rfl

theorem writeLive {b t : Batch} {fate : Fate} (moved : b.write fate = some t) : b.ended = false := by
  unfold Batch.write at moved
  split at moved <;> try contradiction
  rename_i quiet
  split at moved <;> try contradiction
  rename_i pending
  simp [Batch.ended,quiet,pending]

theorem writeSerial {b : Nat} {fate : Fate} {store : Store} (serial : Serial s)
    (moved : s.store.write b fate = some store) : Serial {s with store := store} := by
  obtain ⟨batch,there,rest⟩ := Option.bind_eq_some_iff.mp moved
  obtain ⟨next,written,last⟩ := Option.bind_eq_some_iff.mp rest
  cases Option.some.inj last
  have before := writeLive written
  constructor <;> intro c other found live <;> rcases Slots.setCases found with ⟨rfl,_⟩ | ⟨_,old⟩
  · exact serial.awaited b batch there before
  · exact serial.awaited c other old live
  · rw [List.length_set]
    exact serial.last b batch there before
  · rw [List.length_set]
    exact serial.last c other old live

theorem logBatches {name message : String} {crossing : Bool} {u v : Store}
    (moved : u.log buffer max_cache_size name message = some (v,crossing)) : v.batches = u.batches := by
  obtain ⟨_,_,last⟩ := Option.bind_eq_some_iff.mp moved
  cases Option.some.inj last
  rfl

theorem stepSerial (orderly : Orderly a = true) (alone : Alone s) (serial : Serial s)
    (taken : Logger.step buffer max_cache_size s a = some t) : Serial t := by
  cases Logger.stepCases taken with
  | log moved => exact serialAside serial (logBatches moved) (fun _ awaited => awaited)
  | crosses moved => exact serialAside serial (logBatches moved) (fun _ awaited => awaitedSet awaited)
  | flush => cases orderly
  | nothing => cases orderly
  | write moved => exact writeSerial serial moved
  | start =>
    refine serialAside serial rfl ?_
    rintro b (held | ⟨k,worker,there,writes⟩)
    · exact .inl held
    · exact .inr ⟨k,worker,Slots.appendOld there,writes⟩
  | again => exact serial
  | stop free =>
    refine serialAside serial rfl ?_
    intro b awaited
    rcases awaitedSet awaited with held | writes
    · cases free.symm.trans held
    · exact .inr writes
  | stopAlone free running none_ =>
    have dead : ∀ w ∈ s.workers, w.alive = false := by
      intro w member
      obtain ⟨k,found⟩ := List.mem_iff_getElem?.mp member
      by_contra live
      cases none_.symm.trans (alone.task k w found (by simpa using live))
    have settled := settledDead serial dead (by rw [free]; exact fun b other => by cases other)
    exact serialAdds (u := s.store) settled (lastAdds {s with running := false}.setEvent)
  | joined lock task ended =>
    have settled := settledDead serial (Logger.endedIdle alone task ended)
      (by rw [lock]; exact fun b other => by cases other)
    exact serialAdds (u := s.store) settled (lastAdds {s with flush_task := none})
  | unjoined lock task ended =>
    have settled := settledDead serial (Logger.endedIdle alone task ended)
      (by rw [lock]; exact fun b other => by cases other)
    exact serialAdds settled (.inl rfl)
  | @flushed _ c lock left =>
    have written : Logger.batchEnded s c = true := by
      rcases left with ⟨_,written⟩ | rfl
      · exact written
      · cases orderly
    refine serialAdds (u := s.store) ?_ (.inl rfl)
    intro b batch there
    by_contra live
    rcases serial.awaited b batch there (by simpa using live) with held | ⟨k,worker,found,writes⟩
    · cases lock.symm.trans held
      rw [Logger.batchEnded,there] at written
      exact live written
    · have stopped := alone.held (by rw [lock]; exact fun free => by cases free)
      have dead := alone.idle stopped (by rw [lock]; exact fun joining => by cases joining) worker
        (List.mem_of_getElem? found)
      rcases writes with rfl | rfl <;> cases dead
  | loop there ready =>
    refine serialAdds (settledWorker serial alone there ?_ ?_) (loopAdds there)
    · rcases ready with rfl | ⟨b,rfl,_⟩ <;> rfl
    · intro b writes
      rcases ready with rfl | ⟨c,rfl,written⟩ <;> rcases writes with same | same <;> cases same
      exact written
  | awaken there =>
    refine serialAdds (settledWorker serial alone there rfl ?_) (awakenAdds there)
    intro b writes
    rcases writes with same | same <;> cases same
  | finish there written =>
    refine serialAdds (settledWorker serial alone there rfl ?_) (.inl rfl)
    intro b writes
    rcases writes with same | same <;> cases same
    exact written
  | cancelWorker => cases orderly

end Serial

section Lines
variable {messages : List String} {m rest : List Char}

def written (messages : List String) : List Char := messages.flatMap (fun message => message.toList ++ ['\n'])

/- What a reader sees as lines. -/
def readLines : List Char → List (List Char)
  | [] => []
  | c :: rest =>
      if c = '\n' then [] :: readLines rest
      else match readLines rest with
        | [] => [[c]]
        | line :: others => (c :: line) :: others

theorem chunkWritten (some_ : messages ≠ []) : chunk messages = written messages := by
  induction messages with
  | nil => exact absurd rfl some_
  | cons message others ih =>
    cases others with
    | nil => simp [chunk,written]
    | cons next others =>
      have tail := ih (List.cons_ne_nil _ _)
      unfold chunk written at tail ⊢
      rw [List.map_cons,List.map_cons,List.intercalate_cons_cons,← List.map_cons,List.flatMap_cons,← tail]
      simp only [List.append_assoc]

theorem readLine (plain : '\n' ∉ m) : readLines (m ++ '\n' :: rest) = m :: readLines rest := by
  induction m with
  | nil => rfl
  | cons c m ih =>
    have other : c ≠ '\n' := fun same => plain (same ▸ List.mem_cons_self)
    rw [List.cons_append,readLines,if_neg other,ih (fun inside => plain (List.mem_cons_of_mem _ inside))]

/- What has been written is read back line by line. -/
theorem readWritten (plain : ∀ message ∈ messages, '\n' ∉ message.toList) :
    readLines (written messages) = messages.map String.toList := by
  induction messages with
  | nil => rfl
  | cons message others ih =>
    rw [written,List.flatMap_cons,List.append_assoc,List.singleton_append,
      readLine (plain message List.mem_cons_self),List.map_cons]
    exact congrArg _ (ih (fun other member => plain other (List.mem_cons_of_mem _ member)))

end Lines

/- Lines of one logger that have been written to a file on one day. -/
structure Entry where
  name : String
  today : Day
  messages : List String
  deriving DecidableEq

structure State where
  logger : Logger.State
  disk : Disk
  /- A record of what has been written, read by nothing. -/
  journal : List Entry
  deriving DecidableEq

/- What happens, the date at that moment, and how far a write that fails has come. -/
structure Action where
  logger : Logger.Action
  today : Day
  reached : Nat
  deriving DecidableEq

section Step
variable (buffer : Nat) (max_cache_size : Int) (limit : Nat) (base : String)

/- One round of the loop in `_flush_to_disk`. -/
def flushGroup (disk : Disk) (name : String) (messages : List String) (today : Day) (reached : Nat) : Option Disk :=
  if messages = [] then some disk
  else do
    let (disk,log_file) ← disk.getLogFile limit name (join base name) today
    some (disk.append log_file ((chunk messages).take reached))

def nextGroup (s : Store) (b : Nat) : Option (String × List String) := do
  let batch ← s.batches[b]?
  batch.pending.head?

def writeDisk (disk : Disk) (name : String) (messages : List String) (today : Day) (reached : Nat) :
    Fate → Option Disk
  | .written => flushGroup limit base disk name messages today (chunk messages).length
  | .partly _ => flushGroup limit base disk name messages today reached
  | .raised => some disk

def step (s : State) (a : Action) : Option State := do
  let logger ← Logger.step buffer max_cache_size s.logger a.logger
  match a.logger with
  | .write b fate => do
      let (name,messages) ← nextGroup s.logger.store b
      let disk ← writeDisk limit base s.disk name messages a.today a.reached fate
      some ⟨logger,disk,if messages = [] then s.journal else s.journal ++ [⟨name,a.today,messages⟩]⟩
  | _ => some {s with logger := logger}

end Step

/- A process begins with what is on the disk and remembers nothing of it. -/
def initial (files : Dict String (List Char)) : State := ⟨Logger.initial,⟨files,Dict.empty,Dict.empty⟩,[]⟩

section Disk
variable {buffer : Nat} {max_cache_size : Int} {limit : Nat} {base : String}
  {disk next : Disk} {place : Folder} {day today : Day} {name : String} {messages : List String}

/- The text of one day, read from the first file to the last. -/
def dayText (files : Dict String (List Char)) (place : Folder) (day : Day) : List Char :=
  Segments.contents (series files place day) files.entries.length

def reading (files : Dict String (List Char)) (place : Folder) (days : List Day) : List Char :=
  days.flatMap (dayText files place)

theorem seriesMissing {files : Dict String (List Char)} {n : Nat}
    (gapless : Segments.Gapless (isFull limit) (series files place day)) (beyond : files.entries.length ≤ n) :
    series files place day n = none := by
  obtain ⟨j,missing,_,below⟩ := LogFiles.seriesEnds files place day 0
  refine Option.eq_none_iff_forall_ne_some.mpr ?_
  intro text there
  by_cases same : j = n
  · cases (same ▸ missing).symm.trans there
  · obtain ⟨old,before,_⟩ := gapless n text there j (by omega)
    cases missing.symm.trans before

theorem dayTextMore {files : Dict String (List Char)} {n : Nat}
    (gapless : Segments.Gapless (isFull limit) (series files place day)) (more : files.entries.length ≤ n) :
    Segments.contents (series files place day) n = dayText files place day :=
  Segments.contentsMissing (fun _ beyond => seriesMissing gapless beyond) more

theorem flushGroupText (sound : disk.Sound limit base) (some_ : messages ≠ [])
    (flushed : flushGroup limit base disk name messages today (chunk messages).length = some next) :
    next.Sound limit base ∧ ∀ place day, dayText next.files place day = dayText disk.files place day ++
      if folder (join base name) = place ∧ today = day then written messages else [] := by
  rw [flushGroup,if_neg some_] at flushed
  obtain ⟨⟨chosen,log_file⟩,got,last⟩ := Option.bind_eq_some_iff.mp flushed
  cases Option.some.inj last
  obtain ⟨index,found,kept⟩ := LogFiles.getLogFileSound sound got
  obtain ⟨rfl,files,closed,room⟩ := found
  rw [← files] at closed room
  have after := @LogFiles.appendSound limit base (written messages) _ today chosen kept index closed
  rw [List.take_length,chunkWritten some_]
  refine ⟨after,?_⟩
  intro place day
  rw [← files]
  generalize size : (Disk.append chosen ((folder (join base name)).path today index) (written messages)).files.entries.length
    + chosen.files.entries.length + index + 1 = n
  rw [← dayTextMore (after.gapless place day) (show _ ≤ n by omega),
    ← dayTextMore (kept.gapless place day) (show _ ≤ n by omega)]
  have missing : ∀ j, index < j → series chosen.files (folder (join base name)) today j = none :=
    fun j => Segments.lastOpen (kept.gapless _ today) room
  unfold Disk.append
  rw [LogFiles.seriesSet]
  by_cases same : place = folder (join base name) ∧ day = today
  · obtain ⟨rfl,rfl⟩ := same
    rw [if_pos ⟨rfl,rfl⟩,if_pos ⟨rfl,rfl⟩]
    exact Segments.contentsPut missing (by omega)
  · rw [if_neg same,if_neg (fun other => same ⟨other.1.symm,other.2.symm⟩),List.append_nil]

end Disk

section Batches
variable {b : Batch} {name : String}

def linesFor (name : String) (b : Batch) : List String := (b.written.filter (fun e => e.1 = name)).flatMap Prod.snd

def Clean (s : Store) : Prop := ∀ b ∈ s.batches, b.failed = false ∧ b.raised = false

theorem writtenApart (sound : b.Sound) : (b.written.map Prod.fst).Nodup := by
  have apart : ((b.written ++ b.pending).map Prod.fst).Nodup := by
    rw [sound.names]
    exact Dict.distinct _
  rw [List.map_append] at apart
  exact (List.nodup_append.mp apart).1

theorem linesForGet (sound : b.Sound) (name : String) :
    linesFor name b = ((Dict.mk b.written (writtenApart sound)).get name).getD [] := by
  have own := Dict.entriesOf (Dict.mk b.written (writtenApart sound)) name
  rw [linesFor,List.flatMap_def,own]
  cases (Dict.mk b.written (writtenApart sound)).get name <;> simp

theorem linesForPart (sound : b.Sound) (name : String) : linesFor name b <+: Batch.lines b.cache name := by
  rw [linesForGet sound]
  cases found : (Dict.mk b.written (writtenApart sound)).get name with
  | none => exact List.nil_prefix
  | some lines => exact sound.written name lines (Dict.memEntry.mp found)

theorem linesForAll (sound : b.Sound) (clean : b.failed = false) (done : b.pending = []) (name : String) :
    linesFor name b = Batch.lines b.cache name := by
  rw [linesForGet sound]
  cases found : (Dict.mk b.written (writtenApart sound)).get name with
  | some lines => exact sound.complete clean name lines (Dict.memEntry.mp found)
  | none =>
    have names := sound.names
    rw [done,List.append_nil] at names
    have unknown : name ∉ (Batch.groups b.cache).map Prod.fst := names ▸ Dict.getNone.mp found
    refine (List.map_eq_nil_iff.mpr (List.filter_eq_nil_iff.mpr ?_)).symm
    intro r member same
    obtain ⟨group,inside⟩ := Grouping.groupExists Record.name Record.message member
    rw [of_decide_eq_true same] at inside
    exact unknown (List.mem_map_of_mem (f := Prod.fst) inside)

theorem partAll {f g : Batch → List String} {l : List Batch} (part : ∀ b ∈ l, f b <+: g b)
    (last : ∀ i b, l[i]? = some b → f b ≠ g b → i+1 = l.length) : l.flatMap f <+: l.flatMap g := by
  induction l with
  | nil => exact List.prefix_refl _
  | cons b rest ih =>
    rw [List.flatMap_cons,List.flatMap_cons]
    by_cases same : f b = g b
    · rw [same]
      refine (List.prefix_append_right_inj _).mpr (ih (fun c member => part c (List.mem_cons_of_mem _ member)) ?_)
      intro i c there different
      have place := last (i+1) c there different
      rw [List.length_cons] at place
      omega
    · have alone := last 0 b rfl same
      rw [List.length_cons] at alone
      rw [List.length_eq_zero_iff.mp (show rest.length = 0 by omega)]
      simpa using part b List.mem_cons_self

theorem linesDetached (s : Store) (name : String) :
    Grouping.under Record.name Record.message name s.detached =
      s.batches.flatMap (fun b => Batch.lines b.cache name) := by
  unfold Store.detached Batch.lines Grouping.under
  induction s.batches with
  | nil => rfl
  | cons b rest ih =>
    rw [List.map_cons,List.flatten_cons,List.filter_append,List.map_append,ih,List.flatMap_cons]

end Batches

section Order
variable {buffer : Nat} {max_cache_size : Int} {s t : Store} {a : Logger.Action}

/- What has been detached and what is still buffered comes in the order of the calls. -/
def Ordered (s : Store) : Prop := (s.detached ++ s.log_cache).Sublist s.logged

theorem flushedOrdered (ordered : Ordered s) (moved : Logger.Flushed s t) : Ordered t := by
  rcases moved with rfl | ⟨b,moved⟩
  · exact ordered
  · unfold Store.detach at moved
    split at moved <;> try contradiction
    cases Option.some.inj moved
    unfold Ordered Store.detached at ordered ⊢
    simpa [Batch.detached] using ordered

theorem writtenOrdered {k : Nat} {fate : Fate} (ordered : Ordered s) (moved : s.write k fate = some t) :
    Ordered t := by
  obtain ⟨b,there,rest⟩ := Option.bind_eq_some_iff.mp moved
  obtain ⟨next,written,last⟩ := Option.bind_eq_some_iff.mp rest
  cases Option.some.inj last
  show (((s.batches.set k next).map Batch.cache).flatten ++ s.log_cache).Sublist s.logged
  rw [Slots.mapSet Batch.cache there (Logger.writeCache written)]
  exact ordered

theorem logOrdered {name message : String} {crossing : Bool} (ordered : Ordered s)
    (moved : s.log buffer max_cache_size name message = some (t,crossing)) : Ordered t := by
  obtain ⟨size,made,last⟩ := Option.bind_eq_some_iff.mp moved
  cases Option.some.inj last
  show (s.detached ++ Fifo.push buffer s.log_cache _).Sublist (s.logged ++ [_])
  have pushed := (@Fifo.pushSublist Record buffer s.log_cache ⟨s.logged.length,name,message⟩).append_left s.detached
  rw [← List.append_assoc] at pushed
  exact pushed.trans (ordered.append (.refl _))

theorem storedOrdered (ordered : Ordered s) (stored : Logger.Stored buffer max_cache_size s a t) : Ordered t := by
  cases stored with
  | log moved => exact logOrdered ordered moved
  | write moved => exact writtenOrdered ordered moved
  | flush other moved => exact flushedOrdered ordered moved

end Order

section Run
variable {buffer : Nat} {max_cache_size : Int} {limit : Nat} {base name : String} {s t : State} {a : Action}
  {acts : List Action} {files : Dict String (List Char)}

inductive Step (buffer : Nat) (max_cache_size : Int) (limit : Nat) (base : String) (s : State) (a : Action) :
    State → Prop where
  | write {b fate batch group rest disk logger}
      (act : a.logger = .write b fate)
      (moved : Logger.step buffer max_cache_size s.logger a.logger = some logger)
      (there : s.logger.store.batches[b]? = some batch) (pending : batch.pending = group :: rest)
      (wrote : writeDisk limit base s.disk group.1 group.2 a.today a.reached fate = some disk) :
      Step buffer max_cache_size limit base s a
        ⟨logger,disk,if group.2 = [] then s.journal else s.journal ++ [⟨group.1,a.today,group.2⟩]⟩
  | other {logger} (aside : ∀ b fate, a.logger ≠ .write b fate)
      (moved : Logger.step buffer max_cache_size s.logger a.logger = some logger) :
      Step buffer max_cache_size limit base s a {s with logger := logger}

theorem stepCases (taken : step buffer max_cache_size limit base s a = some t) :
    Step buffer max_cache_size limit base s a t := by
  obtain ⟨logger,moved,rest⟩ := Option.bind_eq_some_iff.mp taken
  split at rest
  · rename_i b fate act
    obtain ⟨group,next,rest⟩ := Option.bind_eq_some_iff.mp rest
    obtain ⟨disk,wrote,last⟩ := Option.bind_eq_some_iff.mp rest
    obtain ⟨batch,there,head⟩ := Option.bind_eq_some_iff.mp next
    obtain ⟨tail,pending⟩ := List.head?_eq_some_iff.mp head
    cases Option.some.inj last
    exact .write act moved there pending wrote
  · rename_i aside
    cases Option.some.inj rest
    exact .other aside moved

/- Nothing comes in the way: flushes come one after the other, no write fails, messages
are single lines, and no other logger writes to the folder of this one. -/
structure Quiet (base name : String) (a : Action) : Prop where
  orderly : Orderly a.logger = true
  whole : ∀ b fate, a.logger = .write b fate → fate = .written
  line : ∀ other message, a.logger = .log other message → '\n' ∉ message.toList ∧
    (folder (join base other) = folder (join base name) → other = name)

structure Queued (s : Logger.State) : Prop where
  alone : Alone s
  serial : Serial s
  ordered : Ordered s.store
  clean : Clean s.store

/- The files, and how they follow from what has been written. -/
structure Filed (limit : Nat) (base : String) (files : Dict String (List Char)) (acts : List Action) (s : State) :
    Prop where
  disk : s.disk.Sound limit base
  text : ∀ place day, dayText s.disk.files place day = dayText files place day ++
    (s.journal.filter (fun e => folder (join base e.name) = place ∧ e.today = day)).flatMap
      (fun e => written e.messages)
  lines : ∀ name, (s.journal.filter (fun e => e.name = name)).flatMap Entry.messages =
    s.logger.store.batches.flatMap (linesFor name)
  days : (s.journal.map Entry.today).Sublist (acts.map Action.today)
  source : ∀ e ∈ s.journal, e.messages ≠ [] ∧
    ∀ m ∈ e.messages, (e.name,m) ∈ s.logger.store.logged.map (fun r => (r.name,r.message))

theorem writeClean {store : Store} {b : Nat} {u : Store} (clean : Clean u) (moved : u.write b .written = some store) :
    Clean store := by
  obtain ⟨batch,there,rest⟩ := Option.bind_eq_some_iff.mp moved
  obtain ⟨next,written,last⟩ := Option.bind_eq_some_iff.mp rest
  cases Option.some.inj last
  have before := clean batch (List.mem_of_getElem? there)
  have after : next.failed = batch.failed ∧ next.raised = batch.raised := by
    unfold Batch.write at written
    split at written <;> try contradiction
    split at written <;> try contradiction
    cases Option.some.inj written
    exact ⟨rfl,rfl⟩
  intro other member
  rcases List.mem_or_eq_of_mem_set member with old | rfl
  · exact clean other old
  · exact ⟨after.1.trans before.1,after.2.trans before.2⟩

theorem storedClean {u v : Store} {a : Logger.Action} (clean : Clean u)
    (whole : ∀ b fate, a = .write b fate → fate = .written) (stored : Logger.Stored buffer max_cache_size u a v) :
    Clean v := by
  cases stored with
  | log moved =>
    unfold Clean
    rw [logBatches moved]
    exact clean
  | @write b fate _ moved =>
    cases whole b fate rfl
    exact writeClean clean moved
  | flush other moved =>
    rcases moved with rfl | ⟨b,moved⟩
    · exact clean
    · unfold Store.detach at moved
      split at moved <;> try contradiction
      cases Option.some.inj moved
      intro batch member
      rcases List.mem_append.mp member with old | new
      · exact clean batch old
      · cases List.mem_singleton.mp new
        exact ⟨rfl,rfl⟩

theorem stepQueued {u v : Logger.State} (queued : Queued u) (quiet : Quiet base name a)
    (moved : Logger.step buffer max_cache_size u a.logger = some v) : Queued v where
  alone := Logger.stepAlone queued.alone moved
  serial := stepSerial quiet.orderly queued.alone queued.serial moved
  ordered := storedOrdered queued.ordered (Logger.stepStored moved)
  clean := storedClean queued.clean quiet.whole (Logger.stepStored moved)

theorem loggedKept {u v : Store} {a : Logger.Action} (stored : Logger.Stored buffer max_cache_size u a v)
    {x : String × String} (inside : x ∈ u.logged.map (fun r => (r.name,r.message))) :
    x ∈ v.logged.map (fun r => (r.name,r.message)) := by
  rw [Logger.storedLogged stored]
  exact List.mem_append_left _ inside

theorem linesAside {u v : Store} {a : Logger.Action} (aside : ∀ b fate, a ≠ .write b fate)
    (stored : Logger.Stored buffer max_cache_size u a v) (name : String) :
    v.batches.flatMap (linesFor name) = u.batches.flatMap (linesFor name) := by
  cases stored with
  | log moved => rw [logBatches moved]
  | write => exact absurd rfl (aside _ _)
  | flush other moved =>
    rcases moved with rfl | ⟨b,moved⟩
    · rfl
    · unfold Store.detach at moved
      split at moved <;> try contradiction
      cases Option.some.inj moved
      rw [List.flatMap_append]
      exact List.append_nil _

theorem linesWrite {u v : Logger.State} {b : Nat} {batch : Batch} {group : String × List String}
    {rest : List (String × List String)} (serial : Serial u) (there : u.store.batches[b]? = some batch)
    (pending : batch.pending = group :: rest) (moved : u.store.write b .written = some v.store) (name : String) :
    v.store.batches.flatMap (linesFor name) =
      u.store.batches.flatMap (linesFor name) ++ if group.1 = name then group.2 else [] := by
  obtain ⟨own,found,last⟩ := Option.bind_eq_some_iff.mp moved
  cases Option.some.inj (there.symm.trans found)
  obtain ⟨next,wrote,last⟩ := Option.bind_eq_some_iff.mp last
  have live := writeLive wrote
  unfold Batch.write at wrote
  split at wrote <;> try contradiction
  rw [pending] at wrote
  cases Option.some.inj wrote
  obtain ⟨front,before,after⟩ := Slots.setLast (y := {batch with
    written := batch.written ++ [group], pending := rest}) there (serial.last b batch there live)
  rw [← Option.some.inj last]
  show (u.store.batches.set b {batch with written := batch.written ++ [group], pending := rest}).flatMap _ = _
  rw [after,before,List.flatMap_append,List.flatMap_append,List.append_assoc]
  congr 1
  by_cases same : group.1 = name <;> simp [linesFor,same]

theorem groupSource {u : Store} {b : Nat} {batch : Batch} {group : String × List String}
    {rest : List (String × List String)} {x : String} (sound : u.Sound buffer)
    (there : u.batches[b]? = some batch) (pending : batch.pending = group :: rest) (inside : x ∈ group.2) :
    (group.1,x) ∈ u.logged.map (fun r => (r.name,r.message)) := by
  obtain ⟨own,part⟩ := sound.batches batch (List.mem_of_getElem? there)
  have lines := own.pending group.1 group.2 (by rw [pending]; exact List.mem_cons_self)
  rw [lines] at inside
  obtain ⟨r,member,rfl⟩ := List.mem_map.mp inside
  obtain ⟨cached,same⟩ := List.mem_filter.mp member
  rw [← of_decide_eq_true same]
  exact List.mem_map_of_mem (f := fun r => (r.name,r.message)) (part.subset cached)

theorem writeFiled {logger : Logger.State} {disk : Disk} {b : Nat} {batch : Batch} {group : String × List String}
    {rest : List (String × List String)} (sound : s.logger.store.Sound buffer) (queued : Queued s.logger)
    (filed : Filed limit base files acts s) (act : a.logger = .write b .written)
    (moved : Logger.step buffer max_cache_size s.logger a.logger = some logger)
    (there : s.logger.store.batches[b]? = some batch) (pending : batch.pending = group :: rest)
    (wrote : writeDisk limit base s.disk group.1 group.2 a.today a.reached .written = some disk) :
    Filed limit base files (acts ++ [a])
      ⟨logger,disk,if group.2 = [] then s.journal else s.journal ++ [⟨group.1,a.today,group.2⟩]⟩ := by
  have stored := Logger.stepStored moved
  have stage : s.logger.store.write b .written = some logger.store := by
    rw [act] at moved
    obtain ⟨store,stage,last⟩ := Option.map_eq_some_iff.mp moved
    cases last
    exact stage
  have lines := linesWrite queued.serial there pending stage
  have days : ((acts ++ [a]).map Action.today) = acts.map Action.today ++ [a.today] := List.map_append
  by_cases empty : group.2 = []
  · rw [if_pos empty]
    simp only [writeDisk,flushGroup,if_pos empty] at wrote
    cases Option.some.inj wrote
    refine ⟨filed.disk,filed.text,?_,?_,fun e member => ⟨(filed.source e member).1,?_⟩⟩
    · intro name
      rw [lines name,empty,filed.lines name]
      simp
    · rw [days]
      exact filed.days.trans (List.sublist_append_left _ _)
    · exact fun m inside => loggedKept stored ((filed.source e member).2 m inside)
  · rw [if_neg empty]
    obtain ⟨kept,texts⟩ := flushGroupText filed.disk empty wrote
    refine ⟨kept,?_,?_,?_,?_⟩
    · intro place day
      rw [texts,filed.text,List.filter_append,List.flatMap_append,List.append_assoc]
      by_cases same : folder (join base group.1) = place ∧ a.today = day <;> simp [same]
    · intro name
      rw [lines name,List.filter_append,List.flatMap_append,filed.lines name]
      by_cases same : group.1 = name <;> simp [same]
    · rw [days,List.map_append]
      exact filed.days.append (.refl _)
    · intro e member
      rcases List.mem_append.mp member with old | new
      · exact ⟨(filed.source e old).1,fun m inside => loggedKept stored ((filed.source e old).2 m inside)⟩
      · cases List.mem_singleton.mp new
        exact ⟨empty,fun m inside => loggedKept stored (groupSource sound there pending inside)⟩

theorem stepFiled (sound : s.logger.store.Sound buffer) (queued : Queued s.logger)
    (filed : Filed limit base files acts s) (quiet : Quiet base name a)
    (taken : step buffer max_cache_size limit base s a = some t) : Filed limit base files (acts ++ [a]) t := by
  cases stepCases taken with
  | write act moved there pending wrote =>
    cases quiet.whole _ _ act
    exact writeFiled sound queued filed act moved there pending wrote
  | other aside moved =>
    have stored := Logger.stepStored moved
    refine ⟨filed.disk,filed.text,?_,?_,?_⟩
    · intro name
      rw [linesAside aside stored name]
      exact filed.lines name
    · rw [List.map_append]
      exact filed.days.trans (List.sublist_append_left _ _)
    · intro e member
      exact ⟨(filed.source e member).1,fun m inside => loggedKept stored ((filed.source e member).2 m inside)⟩

theorem stepLogger (taken : step buffer max_cache_size limit base s a = some t) :
    Logger.step buffer max_cache_size s.logger a.logger = some t.logger := by
  cases stepCases taken with
  | write act moved there pending wrote => exact moved
  | other aside moved => exact moved

theorem runLogger (ran : Machine.run (step buffer max_cache_size limit base) s acts = some t) :
    Machine.run (Logger.step buffer max_cache_size) s.logger (acts.map Action.logger) = some t.logger := by
  induction acts generalizing s with
  | nil => cases Option.some.inj ran; rfl
  | cons a rest ih =>
    obtain ⟨m,first,last⟩ := Machine.runCons.mp ran
    exact Machine.runCons.mpr ⟨m.logger,stepLogger first,ih last⟩

theorem runFiled (found : Disk.Sound limit base ⟨files,Dict.empty,Dict.empty⟩)
    (quiet : ∀ a ∈ acts, Quiet base name a)
    (ran : Machine.run (step buffer max_cache_size limit base) (initial files) acts = some s) :
    Queued s.logger ∧ Filed limit base files acts s := by
  revert quiet
  refine Machine.history (P := fun r m => (∀ a ∈ r, Quiet base name a) → Queued m.logger ∧
    Filed limit base files r m) ?_ ?_ ran
  · intro _
    refine ⟨⟨Logger.aloneIdle rfl (fun _ member => by cases member),⟨?_,?_⟩,List.nil_sublist _,?_⟩,
      ⟨found,fun _ _ => (List.append_nil _).symm,fun _ => rfl,List.nil_sublist _,?_⟩⟩
    · intro b batch there
      cases there
    · intro b batch there
      cases there
    · intro b member
      cases member
    · intro e member
      cases member
  · intro r m a t before kept taken quiet
    have own := quiet a (List.mem_append_right _ List.mem_cons_self)
    obtain ⟨queued,filed⟩ := kept (fun b member => quiet b (List.mem_append_left _ member))
    have sound := (Logger.runKept (runLogger before)).sound
    exact ⟨stepQueued queued own (stepLogger taken),stepFiled sound queued filed own taken⟩

/- What a reader finds: what was there before, and then the lines of the records that
left the buffer, in the order of the calls and each of them once. -/
structure ReadBack (files : Dict String (List Char)) (base name : String) (days : List Day) (s : State) : Prop where
  text : ∃ text, reading s.disk.files (folder (join base name)) days =
      reading files (folder (join base name)) days ++ text ∧
    (readLines text).map String.ofList <+: Grouping.under Record.name Record.message name s.logger.store.detached ∧
    (Settled s.logger.store → (readLines text).map String.ofList =
      Grouping.under Record.name Record.message name s.logger.store.detached)
  ordered : (s.logger.store.detached ++ s.logger.store.log_cache).Sublist s.logger.store.logged
  placed : (s.logger.store.evicted ++ (s.logger.store.detached ++ s.logger.store.log_cache)).Perm
    s.logger.store.logged

theorem linesDetachedPart (sound : s.logger.store.Sound buffer) (queued : Queued s.logger) (name : String) :
    s.logger.store.batches.flatMap (linesFor name) <+:
        Grouping.under Record.name Record.message name s.logger.store.detached ∧
      (Settled s.logger.store → s.logger.store.batches.flatMap (linesFor name) =
        Grouping.under Record.name Record.message name s.logger.store.detached) := by
  have ended : ∀ b ∈ s.logger.store.batches, b.ended = true → linesFor name b = Batch.lines b.cache name := by
    intro b member done
    obtain ⟨whole,quiet⟩ := queued.clean b member
    have nothing : b.pending = [] := by simpa [Batch.ended,quiet] using done
    exact linesForAll (sound.batches b member).1 whole nothing name
  rw [linesDetached]
  constructor
  · refine partAll (fun b member => linesForPart (sound.batches b member).1 name) ?_
    intro i b there different
    refine queued.serial.last i b there ?_
    by_contra done
    exact different (ended b (List.mem_of_getElem? there) (by simpa using done))
  · intro settled
    refine List.flatMap_congr ?_
    intro b member
    obtain ⟨i,there⟩ := List.mem_iff_getElem?.mp member
    exact ended b member (settled i b there)

theorem entryCalled {e : Entry} {m : String}
    (ran : Machine.run (step buffer max_cache_size limit base) (initial files) acts = some s)
    (filed : Filed limit base files acts s) (member : e ∈ s.journal) (inside : m ∈ e.messages) :
    ∃ a ∈ acts, a.logger = .log e.name m := by
  have logged := (filed.source e member).2 m inside
  rw [Logger.runLogged (runLogger ran)] at logged
  obtain ⟨call,called,same⟩ := List.mem_filterMap.mp logged
  obtain ⟨a,own,rfl⟩ := List.mem_map.mp called
  refine ⟨a,own,?_⟩
  cases act : a.logger with
  | log other message =>
    rw [act] at same
    cases Option.some.inj same
    rfl
  | _ =>
    rw [act] at same
    cases same

theorem journalOwn (ran : Machine.run (step buffer max_cache_size limit base) (initial files) acts = some s)
    (quiet : ∀ a ∈ acts, Quiet base name a) (filed : Filed limit base files acts s) :
    s.journal.filter (fun e => folder (join base e.name) = folder (join base name)) =
      s.journal.filter (fun e => e.name = name) := by
  refine List.filter_congr ?_
  intro e member
  rw [decide_eq_decide]
  refine ⟨?_,fun same => by rw [same]⟩
  intro same
  obtain ⟨m,inside⟩ := List.exists_mem_of_ne_nil _ (filed.source e member).1
  obtain ⟨a,own,act⟩ := entryCalled ran filed member inside
  exact ((quiet a own).line e.name m act).2 same

/- The days of the journal, read one after the other, are the journal. -/
theorem daysWritten {days : List Day} (filed : Filed limit base files acts s)
    (clock : (acts.map (fun a => a.today.text)).Pairwise (· ≤ ·)) (sorted : (days.map Day.text).Pairwise (· < ·))
    (known : ∀ a ∈ acts, a.today ∈ days) (place : Folder) :
    days.flatMap (fun day => (s.journal.filter (fun e => folder (join base e.name) = place ∧ e.today = day)).flatMap
      (fun e => written e.messages)) =
      (s.journal.filter (fun e => folder (join base e.name) = place)).flatMap (fun e => written e.messages) := by
  have chosen : ((s.journal.filter (fun e => folder (join base e.name) = place)).map Entry.today).Sublist
      (acts.map Action.today) := (List.filter_sublist.map Entry.today).trans filed.days
  have ordered : (((s.journal.filter (fun e => folder (join base e.name) = place)).map Entry.today).map
      Day.text).Pairwise (· ≤ ·) :=
    List.Pairwise.sublist (chosen.map Day.text) (by simpa [Function.comp_def] using clock)
  have inOrder := Segments.chaptersInOrder Day.text Entry.today sorted
    (by simpa [Function.comp_def] using ordered) (by
      intro e member
      obtain ⟨a,own,same⟩ := List.mem_map.mp (chosen.subset (List.mem_map_of_mem (f := Entry.today) member))
      exact same ▸ known a own)
  rw [← inOrder,List.flatMap_assoc]
  refine congrArg (fun f => days.flatMap f) ?_
  funext day
  rw [List.filter_filter]
  simp only [Bool.decide_and,Bool.and_comm]

theorem readBack {days : List Day} (found : Disk.Sound limit base ⟨files,Dict.empty,Dict.empty⟩)
    (ran : Machine.run (step buffer max_cache_size limit base) (initial files) acts = some s)
    (quiet : ∀ a ∈ acts, Quiet base name a) (clock : (acts.map (fun a => a.today.text)).Pairwise (· ≤ ·))
    (sorted : (days.map Day.text).Pairwise (· < ·)) (known : ∀ a ∈ acts, a.today ∈ days)
    (earlier : ∀ d ∈ days, dayText files (folder (join base name)) d ≠ [] → ∀ a ∈ acts, d.text ≤ a.today.text) :
    ReadBack files base name days s := by
  obtain ⟨queued,filed⟩ := runFiled found quiet ran
  have sound := (Logger.runKept (runLogger ran)).sound
  have lines : days.flatMap (fun day => (s.journal.filter
      (fun e => folder (join base e.name) = folder (join base name) ∧ e.today = day)).flatMap
        (fun e => written e.messages)) = written (s.logger.store.batches.flatMap (linesFor name)) := by
    rw [daysWritten filed clock sorted known,journalOwn ran quiet filed,← filed.lines name,written,List.flatMap_assoc]
    rfl
  have plain : ∀ m ∈ s.logger.store.batches.flatMap (linesFor name), '\n' ∉ m.toList := by
    intro m inside
    rw [← filed.lines name] at inside
    obtain ⟨e,member,inside⟩ := List.mem_flatMap.mp inside
    obtain ⟨a,own,act⟩ := entryCalled ran filed (List.mem_of_mem_filter member) inside
    exact ((quiet a own).line e.name m act).1
  obtain ⟨part,whole⟩ := linesDetachedPart sound queued name
  refine ⟨⟨written (s.logger.store.batches.flatMap (linesFor name)),?_,?_⟩,queued.ordered,sound.placed⟩
  · rw [← lines,reading,reading,← Segments.chaptersAppend Day.text sorted]
    · exact congrArg (fun f => days.flatMap f) (funext (filed.text _))
    · intro d _ e inside some_ old
      obtain ⟨c,within⟩ := List.exists_mem_of_ne_nil _ some_
      obtain ⟨entry,member,_⟩ := List.mem_flatMap.mp within
      obtain ⟨own,same⟩ := List.mem_filter.mp member
      obtain ⟨a,act,today⟩ := List.mem_map.mp (filed.days.subset (List.mem_map_of_mem (f := Entry.today) own))
      rw [← (of_decide_eq_true same).2,← today]
      exact earlier e inside old a act
  · rw [readWritten plain,List.map_map]
    have back : String.ofList ∘ String.toList = id := by
      funext text
      exact String.ofList_toList
    rw [back,List.map_id]
    exact ⟨part,whole⟩

end Run

section Sample
variable {base name : String} {a : Action}

def quiet (base name : String) : Logger.Action → Bool
  | .write _ fate => fate == .written
  | .log other message => !message.toList.contains '\n' &&
      (decide (folder (join base other) ≠ folder (join base name)) || other == name)
  | act => Orderly act

theorem quietOf (checked : quiet base name a.logger = true) : Quiet base name a := by
  constructor
  · cases act : a.logger <;> simp_all [quiet,Orderly]
  · intro b fate act
    simpa [act,quiet] using checked
  · intro other message act
    rw [act,quiet,Bool.and_eq_true,Bool.or_eq_true] at checked
    refine ⟨by simpa using checked.1,fun same => ?_⟩
    rcases checked.2 with apart | own
    · exact absurd same (of_decide_eq_true apart)
    · simpa using own

/- What an earlier process has left, which was stopped in the middle of a line. -/
def left : Dict String (List Char) :=
  ((Machine.run (LogFiles.step 8 "/var/log") LogFiles.initial LogFiles.interrupted).getD LogFiles.initial).disk.files

/- The worker writes a full buffer; after midnight it writes the rest before it ends. -/
def overnight : List Action :=
  [⟨.start,january,0⟩,⟨.worker 0,january,0⟩,⟨.log "app" "third",january,0⟩,⟨.log "app" "fourth",january,0⟩,
    ⟨.worker 0,january,0⟩,⟨.write 0 .written,january,0⟩,⟨.log "app" "fifth",january,0⟩,⟨.stop,february,0⟩,
    ⟨.worker 0,february,0⟩,⟨.write 1 .written,february,0⟩,⟨.worker 0,february,0⟩,⟨.joined,february,0⟩]

theorem leftSound : Disk.Sound 8 "/var/log" ⟨left,Dict.empty,Dict.empty⟩ := by
  have ran : Machine.run (LogFiles.step 8 "/var/log") LogFiles.initial LogFiles.interrupted =
      some ((Machine.run (LogFiles.step 8 "/var/log") LogFiles.initial LogFiles.interrupted).getD
        LogFiles.initial) := rfl
  have apart : Machine.Steps (LogFiles.step 8 "/var/log") LogFiles.Apart LogFiles.initial LogFiles.interrupted :=
    Machine.stepsOfDecide (by decide +kernel)
  exact ⟨(LogFiles.runSound ran apart).gapless,fun _ _ _ date => by cases date⟩

theorem readBackOvernight : ∃ s, Machine.run (step 2 512 8 "/var/log") (initial left) overnight = some s ∧
    reading left (folder "/var/log/app") [january,february] = "first\nsec".toList ∧
    reading s.disk.files (folder "/var/log/app") [january,february] = "first\nsecthird\nfourth\nfifth\n".toList ∧
    ReadBack left "/var/log" "app" [january,february] s := by
  have ran : ∃ s, Machine.run (step 2 512 8 "/var/log") (initial left) overnight = some s ∧
      reading left (folder "/var/log/app") [january,february] = "first\nsec".toList ∧
      reading s.disk.files (folder "/var/log/app") [january,february] =
        "first\nsecthird\nfourth\nfifth\n".toList := ⟨_,rfl,by decide,by decide +kernel⟩
  obtain ⟨s,ran,before,after⟩ := ran
  have calls : ∀ a ∈ overnight, quiet "/var/log" "app" a.logger = true := by decide
  refine ⟨s,ran,before,after,readBack leftSound ran (fun a member => quietOf (calls a member)) ?_ ?_ ?_ ?_⟩
  · decide
  · decide
  · decide
  · decide

end Sample

end Apixis.LogHistory
