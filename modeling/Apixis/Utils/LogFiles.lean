import Apixis.Library.Fifo
import Apixis.Library.Machine
import Apixis.Library.Segments
import Apixis.Library.Slots
import Apixis.Library.Dict

/-! The files behind `_flush_to_disk`: which one `_get_log_file` picks, and what the
threads that append to them leave on the disk. -/
namespace Apixis.LogFiles
open Segments (Closed Gapless Open)

/- What `strftime("%Y-%m-%d")` gives. -/
structure Day where
  text : String
  plain : ∀ c ∈ text.toList, c.isDigit = true ∨ c = '-'
  deriving DecidableEq

def join (path other : String) : String :=
  if other.toList.head? = some '/' then other
  else if path.toList = [] ∨ path.toList.getLast? = some '/' then path ++ other
  else path ++ "/" ++ other

def filename (today : Day) (index : Nat) : String :=
  if index = 0 then today.text ++ ".log" else today.text ++ "_" ++ index.repr ++ ".log"

def logFile (log_dir : String) (today : Day) (index : Nat) : String := join log_dir (filename today index)

/- `os.path.getsize`: the file is UTF-8. -/
def getsize (text : List Char) : Nat := Fifo.weight Char.utf8Size text

def isFull (limit : Nat) (text : List Char) : Bool := decide (limit ≤ getsize text)

structure Disk where
  files : Dict String (List Char)
  current_log_file_index : Dict String Nat
  current_log_date : Dict String Day
  deriving DecidableEq

namespace Disk

/- The index begins again when the date changes. -/
def newDay (s : Disk) (logger_name : String) (today : Day) : Disk :=
  if s.current_log_date.get logger_name = some today then s
  else {s with
    current_log_date := s.current_log_date.set logger_name today
    current_log_file_index := s.current_log_file_index.set logger_name 0}

/- `_get_log_file`. There are fewer files on the disk than rounds the loop is given. -/
def getLogFile (limit : Nat) (s : Disk) (logger_name log_dir : String) (today : Day) :
    Option (Disk × String) := do
  let s := s.newDay logger_name today
  let index := (s.current_log_file_index.get logger_name).getD 0
  let index ← Segments.seek (isFull limit) (fun i => s.files.get (logFile log_dir today i))
    (s.files.entries.length+1) index
  some ({s with current_log_file_index := s.current_log_file_index.set logger_name index},
    logFile log_dir today index)

/- Opened for appending, a file that is missing is made. -/
def append (s : Disk) (log_file : String) (text : List Char) : Disk :=
  {s with files := s.files.set log_file ((s.files.get log_file).getD [] ++ text)}

end Disk

/- The lines as they are written: joined, and a last line feed. -/
def chunk (messages : List String) : List Char :=
  ['\n'].intercalate (messages.map String.toList) ++ ['\n']

/- Where a thread is on its way through `_get_log_file`, and after it. -/
inductive Pc where
  | check
  | date
  | reset
  | read
  | probe (index : Nat)
  | size (index : Nat)
  | store (index : Nat)
  | opening (log_file : String)
  | writing (log_file : String)
  deriving DecidableEq, Repr

def Pc.choosing : Pc → Bool
  | .opening _ => false
  | .writing _ => false
  | _ => true

/- The system calls, which may fail. -/
def Pc.calls : Pc → Bool
  | .size _ => true
  | .opening _ => true
  | .writing _ => true
  | _ => false

/- A thread at the lines of one logger, with the text that it has still to write. -/
structure Thread where
  logger_name : String
  today : Day
  text : List Char
  pc : Pc
  deriving DecidableEq

structure State where
  disk : Disk
  threads : List Thread
  deriving DecidableEq

inductive Action where
  /- A thread has come to the lines of one logger and has looked at the clock. -/
  | come (logger_name : String) (messages : List String) (today : Day)
  /- One of the threads does the next thing, up to the opening of its file. -/
  | advance (k : Nat)
  /- It writes some more characters. -/
  | append (k : Nat) (count : Nat)
  /- It has written all, or has met an error. -/
  | leave (k : Nat)
  /- The process ends, whatever its threads are at, and another one begins. -/
  | restart
  deriving DecidableEq

section Step
variable (limit : Nat) (base : String)

def Thread.file (w : Thread) (index : Nat) : String := logFile (join base w.logger_name) w.today index

/- Each read and each write of the two dictionaries, and each look at the disk, is a step. -/
def Thread.advance (disk : Disk) (w : Thread) : Option (Disk × Pc) := match w.pc with
  | .check => some (disk,if disk.current_log_date.get w.logger_name = some w.today then .read else .date)
  | .date => some ({disk with current_log_date := disk.current_log_date.set w.logger_name w.today},.reset)
  | .reset => some ({disk with current_log_file_index := disk.current_log_file_index.set w.logger_name 0},.read)
  | .read => some (disk,.probe ((disk.current_log_file_index.get w.logger_name).getD 0))
  | .probe index => some (disk,if (disk.files.get (w.file base index)).isNone then .store index else .size index)
  | .size index => (disk.files.get (w.file base index)).map (fun text =>
      (disk,if isFull limit text then .probe (index+1) else .store index))
  | .store index => some ({disk with
      current_log_file_index := disk.current_log_file_index.set w.logger_name index},.opening (w.file base index))
  | .opening log_file => some (disk.append log_file [],.writing log_file)
  | .writing _ => none

def step (s : State) : Action → Option State
  | .come logger_name messages today =>
      if messages = [] then some s
      else some {s with threads := s.threads ++ [⟨logger_name,today,chunk messages,.check⟩]}
  | .advance k => do
      let w ← s.threads[k]?
      let (disk,pc) ← w.advance limit base s.disk
      some ⟨disk,s.threads.set k {w with pc := pc}⟩
  | .append k count => do
      let w ← s.threads[k]?
      match w.pc with
      | .writing log_file =>
          some ⟨s.disk.append log_file (w.text.take count),s.threads.set k {w with text := w.text.drop count}⟩
      | _ => none
  | .leave k => do
      let w ← s.threads[k]?
      if w.pc.calls then some {s with threads := s.threads.eraseIdx k} else none
  | .restart => some ⟨{s.disk with current_log_file_index := Dict.empty, current_log_date := Dict.empty},[]⟩

end Step

def initial : State := ⟨⟨Dict.empty,Dict.empty,Dict.empty⟩,[]⟩

section Names

/- What a path has in front of the file name: nothing, or something with a slash at its end. -/
structure Folder where
  text : String
  closed : text.toList = [] ∨ text.toList.getLast? = some '/'
  deriving DecidableEq

def folder (path : String) : Folder :=
  if closed : path.toList = [] ∨ path.toList.getLast? = some '/' then ⟨path,closed⟩
  else ⟨path ++ "/",.inr (by simp)⟩

def Folder.path (place : Folder) (today : Day) (index : Nat) : String := place.text ++ filename today index

def series (files : Dict String (List Char)) (place : Folder) (today : Day) (index : Nat) : Option (List Char) :=
  files.get (place.path today index)

def ending (index : Nat) : List Char :=
  if index = 0 then ".log".toList else '_' :: index.repr.toList ++ ".log".toList

theorem filenameEnding (today : Day) (index : Nat) :
    (filename today index).toList = today.text.toList ++ ending index := by
  unfold filename ending
  split <;> simp

theorem endingHead (index : Nat) : ∃ c rest, ending index = c :: rest ∧ (c = '.' ∨ c = '_') := by
  unfold ending
  split
  · exact ⟨'.',_,rfl,.inl rfl⟩
  · exact ⟨'_',_,rfl,.inr rfl⟩

theorem endingApart {i j : Nat} (same : ending i = ending j) : i = j := by
  unfold ending at same
  split at same <;> split at same
  · rename_i a b
    exact a.trans b.symm
  · cases same
  · cases same
  · have digits := List.append_cancel_right (List.cons.inj same).2
    rw [Nat.toList_repr,Nat.toList_repr] at digits
    have value := congrArg (fun l => Nat.ofDigitChars 10 l 0) digits
    simpa using value

theorem plainEnding {today : Day} {c : Char} (inside : c ∈ today.text.toList) : c ≠ '.' ∧ c ≠ '_' ∧ c ≠ '/' := by
  rcases today.plain c inside with digit | rfl
  · refine ⟨?_,?_,?_⟩ <;> rintro rfl <;> cases digit
  · decide

theorem noSlash (today : Day) (index : Nat) : '/' ∉ (filename today index).toList := by
  rw [filenameEnding,List.mem_append]
  rintro (inside | inside)
  · exact (plainEnding inside).2.2 rfl
  · unfold ending at inside
    split at inside
    · revert inside
      decide
    · rw [Nat.toList_repr] at inside
      rcases List.mem_append.mp inside with front | back
      · rcases List.mem_cons.mp front with slash | digit
        · cases slash
        · cases Nat.isDigit_of_mem_toDigits (by decide) (by decide) digit
      · revert back
        decide

/- Two texts are cut alike if none of the first parts can be the longer one. -/
theorem cutAlike {a b c d : List Char} (same : a ++ b = c ++ d)
    (left : ∀ m, c = a ++ m → b = m ++ d → m = []) (right : ∀ m, a = c ++ m → d = m ++ b → m = []) :
    a = c ∧ b = d := by
  rcases List.append_eq_append_iff.mp same with ⟨m,first,second⟩ | ⟨m,first,second⟩
  · cases left m first second
    exact ⟨by simpa using first.symm,second⟩
  · cases right m first second
    exact ⟨by simpa using first,second.symm⟩

theorem dayEnds {d e : Day} {m rest : List Char} {index : Nat} (longer : e.text.toList = d.text.toList ++ m)
    (rest_ : ending index = m ++ rest) : m = [] := by
  obtain ⟨c,tail,head,mark⟩ := endingHead index
  cases m with
  | nil => rfl
  | cons x m =>
    cases (List.cons.inj (head.symm.trans rest_)).1
    have inside : c ∈ e.text.toList := by
      rw [longer]
      exact List.mem_append_right _ List.mem_cons_self
    obtain ⟨dot,line,_⟩ := plainEnding inside
    exact absurd mark (not_or.mpr ⟨dot,line⟩)

theorem filenameApart {d e : Day} {i j : Nat} (same : filename d i = filename e j) : d = e ∧ i = j := by
  have texts := congrArg String.toList same
  rw [filenameEnding,filenameEnding] at texts
  obtain ⟨days,endings⟩ := cutAlike texts (fun m longer => dayEnds longer) (fun m longer => dayEnds longer)
  obtain ⟨_,_⟩ := d
  obtain ⟨_,_⟩ := e
  cases String.toList_injective days
  exact ⟨rfl,endingApart endings⟩

theorem folderEnds {place : Folder} {a b d : List Char} {m : List Char} (longer : place.text.toList = a ++ m)
    (rest : b = m ++ d) (plain : '/' ∉ b) : m = [] := by
  rcases place.closed with empty | slash
  · exact (List.append_eq_nil_iff.mp (longer.symm.trans empty)).2
  · by_contra some_
    rw [longer,List.getLast?_append_of_ne_nil _ some_] at slash
    exact plain (rest ▸ List.mem_append_left _ (List.mem_of_getLast? slash))

theorem pathApart {p q : Folder} {d e : Day} {i j : Nat} (same : p.path d i = q.path e j) :
    p = q ∧ d = e ∧ i = j := by
  have texts := congrArg String.toList same
  rw [Folder.path,Folder.path,String.toList_append,String.toList_append] at texts
  obtain ⟨places,names⟩ := cutAlike texts
    (fun m longer rest => folderEnds longer rest (noSlash d i))
    (fun m longer rest => folderEnds longer rest (noSlash e j))
  obtain ⟨_,_⟩ := p
  obtain ⟨_,_⟩ := q
  cases String.toList_injective places
  exact ⟨rfl,filenameApart (String.toList_injective names)⟩

theorem logFilePath (log_dir : String) (today : Day) (index : Nat) :
    logFile log_dir today index = (folder log_dir).path today index := by
  have plain : (filename today index).toList.head? ≠ some '/' := by
    intro slash
    exact noSlash today index (List.mem_of_head? slash)
  unfold logFile join folder Folder.path
  rw [if_neg plain]
  split <;> rfl

end Names

section Files
variable {limit : Nat} {base : String} {files : Dict String (List Char)} {text : List Char}
  {place other : Folder} {today day : Day} {i : Nat}

theorem seriesSet : series (files.set (place.path today i) text) other day =
    if other = place ∧ day = today then Segments.put (series files other day) i text
    else series files other day := by
  funext j
  rw [series,Dict.getSet]
  split
  · rename_i same
    obtain ⟨rfl,rfl,rfl⟩ := pathApart same
    rw [if_pos ⟨rfl,rfl⟩,Segments.putSame]
  · rename_i apart
    split
    · rename_i same
      obtain ⟨rfl,rfl⟩ := same
      have different : j ≠ i := by
        rintro rfl
        exact apart rfl
      rw [Segments.putOther different]
      rfl
    · rfl

theorem getsizeAppend (text more : List Char) : getsize (text ++ more) = getsize text + getsize more :=
  Fifo.weightAppend _ text more

theorem fullGrows {more : List Char} (full : isFull limit text = true) : isFull limit (text ++ more) = true := by
  rw [isFull,decide_eq_true_eq] at full ⊢
  rw [getsizeAppend]
  omega

theorem seriesEnds (files : Dict String (List Char)) (place : Folder) (today : Day) (i : Nat) :
    ∃ n, series files place today n = none ∧ i ≤ n ∧ n < i + (files.entries.length+1) := by
  by_contra none_
  have occupied : ∀ n, i ≤ n → n < i + (files.entries.length+1) → series files place today n ≠ none :=
    fun n reach below missing => none_ ⟨n,missing,reach,below⟩
  have names : ((List.range (files.entries.length+1)).map (fun j => place.path today (i+j))).Nodup := by
    refine List.Nodup.map ?_ List.nodup_range
    intro a b same
    have number := (pathApart same).2.2
    omega
  have inside : ∀ x ∈ (List.range (files.entries.length+1)).map (fun j => place.path today (i+j)), x ∈ files.keys := by
    intro x member
    obtain ⟨j,below,rfl⟩ := List.mem_map.mp member
    have bound := List.mem_range.mp below
    by_contra fresh
    exact occupied (i+j) (by omega) (by omega) (Dict.getNone.mpr fresh)
  have fits := (List.subperm_of_subset names inside).length_le
  rw [List.length_map,List.length_range,Dict.keys,List.length_map] at fits
  omega

/- The remembered index is not beyond the last file of the remembered day. -/
def Disk.Remembered (limit : Nat) (base : String) (s : Disk) (name : String) : Prop :=
  ∀ day index, s.current_log_date.get name = some day → s.current_log_file_index.get name = some index →
    Closed (isFull limit) (series s.files (folder (join base name)) day) index

/- Every day's files are full up to the last one. -/
structure Disk.Sound (limit : Nat) (base : String) (s : Disk) : Prop where
  gapless : ∀ place day, Gapless (isFull limit) (series s.files place day)
  remembered : ∀ name, s.Remembered limit base name

variable {s t : Disk} {name : String} {log_file : String}

theorem newDayFiles (s : Disk) (name : String) (today : Day) : (s.newDay name today).files = s.files := by
  unfold Disk.newDay
  split <;> rfl

theorem newDayDate : (s.newDay name today).current_log_date.get name = some today := by
  unfold Disk.newDay
  split
  · rename_i same
    exact same
  · exact Dict.getSetSame _ _ _

theorem newDayRemembered {other : String} (kept : s.Remembered limit base other) :
    (s.newDay name today).Remembered limit base other := by
  unfold Disk.newDay
  split
  · exact kept
  · intro day index date found
    rw [Dict.getSet] at date found
    split at found
    · cases Option.some.inj found
      exact Segments.closedZero
    · rename_i apart
      rw [if_neg apart] at date
      exact kept day index date found

/- What `_get_log_file` has found: the last file of the day, or the place of the next. -/
structure Found (limit : Nat) (s t : Disk) (place : Folder) (today : Day) (log_file : String) (index : Nat) :
    Prop where
  path : log_file = place.path today index
  files : t.files = s.files
  closed : Closed (isFull limit) (series s.files place today) index
  room : Open (isFull limit) (series s.files place today) index

theorem getLogFileFound (kept : s.Remembered limit base name)
    (got : s.getLogFile limit name (join base name) today = some (t,log_file)) :
    ∃ index, Found limit s t (folder (join base name)) today log_file index := by
  obtain ⟨index,sought,last⟩ := Option.bind_eq_some_iff.mp got
  cases Option.some.inj last
  have kept : (s.newDay name today).Remembered limit base name := newDayRemembered kept
  have same : (fun i => (s.newDay name today).files.get (logFile (join base name) today i)) =
      series s.files (folder (join base name)) today := by
    funext i
    rw [newDayFiles,logFilePath]
    rfl
  rw [same] at sought
  have begun : Closed (isFull limit) (series s.files (folder (join base name)) today)
      (((s.newDay name today).current_log_file_index.get name).getD 0) := by
    cases found : (s.newDay name today).current_log_file_index.get name with
    | none => exact Segments.closedZero
    | some index =>
      have closed := kept today index newDayDate found
      rwa [newDayFiles] at closed
  obtain ⟨closed,room⟩ := Segments.seekSound sought begun
  exact ⟨index,logFilePath _ _ _,newDayFiles s name today,closed,room⟩

theorem getLogFileSound (sound : s.Sound limit base)
    (got : s.getLogFile limit name (join base name) today = some (t,log_file)) :
    ∃ index, Found limit s t (folder (join base name)) today log_file index ∧ t.Sound limit base := by
  obtain ⟨index,found⟩ := getLogFileFound (sound.remembered name) got
  refine ⟨index,found,by rw [found.files]; exact sound.gapless,?_⟩
  obtain ⟨number,_,last⟩ := Option.bind_eq_some_iff.mp got
  cases Option.some.inj last
  intro other day i date got
  have kept : (s.newDay name today).Remembered limit base other := newDayRemembered (sound.remembered other)
  have date : (s.newDay name today).current_log_date.get other = some day := date
  have got : ((s.newDay name today).current_log_file_index.set name number).get other = some i := got
  rw [Dict.getSet] at got
  split at got
  · rename_i same
    cases Option.some.inj got
    rw [same,newDayDate] at date
    cases Option.some.inj date
    obtain ⟨_,_,numbers⟩ := pathApart (found.path.symm.trans (logFilePath _ _ _))
    subst numbers
    rw [same]
    exact found.files ▸ found.closed
  · exact kept day i date got

theorem getLogFileReturns (limit : Nat) (s : Disk) (name log_dir : String) (today : Day) :
    ∃ t log_file, s.getLogFile limit name log_dir today = some (t,log_file) := by
  have same : (fun i => (s.newDay name today).files.get (logFile log_dir today i)) =
      series s.files (folder log_dir) today := by
    funext i
    rw [newDayFiles,logFilePath]
    rfl
  obtain ⟨n,missing,reach,below⟩ := seriesEnds s.files (folder log_dir) today
    (((s.newDay name today).current_log_file_index.get name).getD 0)
  rw [← newDayFiles s name today] at below
  obtain ⟨index,sought⟩ := Segments.seekEnds (isFull limit) missing reach below
  exact ⟨_,_,Option.bind_eq_some_iff.mpr ⟨index,by rw [same]; exact sought,rfl⟩⟩

/- Nothing that is there is lost, and nothing that is full gets room. -/
theorem closedAppend {path : Folder} (closed : Closed (isFull limit) (series s.files other day) i) {index : Nat} :
    Closed (isFull limit) (series (s.append (path.path today index) text).files other day) i := by
  unfold Disk.append
  rw [seriesSet]
  split
  · rename_i same
    refine Segments.closedPut closed ?_
    intro old there full
    obtain ⟨rfl,rfl⟩ := same
    have there : s.files.get (other.path day index) = some old := there
    rw [there]
    exact fullGrows full
  · exact closed

theorem appendGapless (gapless : ∀ place day, Gapless (isFull limit) (series s.files place day)) {index : Nat}
    (closed : Closed (isFull limit) (series s.files place today) index) :
    ∀ other day, Gapless (isFull limit) (series (s.append (place.path today index) text).files other day) := by
  intro other day
  unfold Disk.append
  rw [seriesSet]
  split
  · rename_i same
    obtain ⟨rfl,rfl⟩ := same
    refine Segments.gaplessPut (gapless other day) closed ?_
    intro old there full
    have there : s.files.get (other.path day index) = some old := there
    rw [there]
    exact fullGrows full
  · exact gapless other day

theorem appendSound (sound : s.Sound limit base) {index : Nat}
    (closed : Closed (isFull limit) (series s.files place today) index) :
    (s.append (place.path today index) text).Sound limit base :=
  ⟨appendGapless sound.gapless closed,
    fun name day number date found => closedAppend (sound.remembered name day number date found)⟩

end Files

section Run
variable {limit : Nat} {base : String} {s t : State} {a : Action} {disk next : Disk} {w u : Thread} {pc : Pc} {k : Nat}

/- What a thread knows where it is: the day is the one that is remembered, and before
its number there are full files only. -/
def Thread.Knows (limit : Nat) (base : String) (disk : Disk) (w : Thread) : Prop := match w.pc with
  | .check => True
  | .date => True
  | .reset => disk.current_log_date.get w.logger_name = some w.today
  | .read => disk.current_log_date.get w.logger_name = some w.today
  | .probe i => disk.current_log_date.get w.logger_name = some w.today ∧
      Closed (isFull limit) (series disk.files (folder (join base w.logger_name)) w.today) i
  | .size i => disk.current_log_date.get w.logger_name = some w.today ∧
      Closed (isFull limit) (series disk.files (folder (join base w.logger_name)) w.today) i
  | .store i => disk.current_log_date.get w.logger_name = some w.today ∧
      Closed (isFull limit) (series disk.files (folder (join base w.logger_name)) w.today) i
  | .opening log_file => ∃ place today index, log_file = Folder.path place today index ∧
      Closed (isFull limit) (series disk.files place today) index
  | .writing log_file => ∃ place today index, log_file = Folder.path place today index ∧
      Closed (isFull limit) (series disk.files place today) index

def Thread.chooses (name : String) (w : Thread) : Bool := w.logger_name == name && w.pc.choosing

structure Sound (limit : Nat) (base : String) (s : State) : Prop where
  gapless : ∀ place day, Gapless (isFull limit) (series s.disk.files place day)
  /- Between its two assignments a thread leaves the index of the day before. -/
  remembered : ∀ name, (∀ w ∈ s.threads, w.logger_name = name → w.pc ≠ .reset) →
    s.disk.Remembered limit base name
  knows : ∀ w ∈ s.threads, w.Knows limit base s.disk
  alone : ∀ name, s.threads.countP (Thread.chooses name) ≤ 1

/- Nobody begins to choose a file for a logger while somebody else is at it. -/
def Apart (s : State) : Action → Prop
  | .come name messages _ => messages = [] ∨ s.threads.countP (Thread.chooses name) = 0
  | _ => True

instance (s : State) (a : Action) : Decidable (Apart s a) := by
  unfold Apart
  split <;> infer_instance

def Keeps (limit : Nat) (s t : Disk) : Prop := ∀ place day i, Closed (isFull limit) (series s.files place day) i →
  Closed (isFull limit) (series t.files place day) i

theorem keepsFiles (same : next.files = disk.files) : Keeps limit disk next := fun _ _ _ closed => same ▸ closed

theorem keepsAppend {log_file : String} {text : List Char} {place : Folder} {today : Day} {index : Nat}
    (path : log_file = place.path today index) : Keeps limit disk (disk.append log_file text) :=
  fun _ _ _ closed => path ▸ closedAppend closed

theorem knowsKept (keeps : Keeps limit disk next) (dated : w.pc.choosing = true →
    next.current_log_date.get w.logger_name = disk.current_log_date.get w.logger_name)
    (knows : w.Knows limit base disk) : w.Knows limit base next := by
  unfold Thread.Knows at knows ⊢
  cases at_ : w.pc with
  | check => trivial
  | date => trivial
  | reset | read =>
    rw [at_] at knows dated
    exact (dated rfl).trans knows
  | probe i | size i | store i =>
    rw [at_] at knows dated
    exact ⟨(dated rfl).trans knows.1,keeps _ _ i knows.2⟩
  | opening log_file | writing log_file =>
    rw [at_] at knows
    obtain ⟨place,today,index,path,closed⟩ := knows
    exact ⟨place,today,index,path,keeps place today index closed⟩

theorem rememberedKept {name : String} (keeps : Keeps limit disk next)
    (dates : next.current_log_date.get name = disk.current_log_date.get name)
    (indices : next.current_log_file_index.get name = disk.current_log_file_index.get name)
    (kept : disk.Remembered limit base name) : next.Remembered limit base name := by
  intro day index date found
  rw [dates] at date
  rw [indices] at found
  exact keeps _ _ _ (kept day index date found)

structure Advanced (limit : Nat) (base : String) (disk : Disk) (w : Thread) (next : Disk) (pc : Pc) : Prop where
  keeps : Keeps limit disk next
  gapless : ∀ place day, Gapless (isFull limit) (series next.files place day)
  knows : Thread.Knows limit base next {w with pc := pc}
  choosing : pc.choosing = true → w.pc.choosing = true
  aside : ∀ name, (name = w.logger_name → w.pc.choosing = false) →
    next.current_log_date.get name = disk.current_log_date.get name ∧
    next.current_log_file_index.get name = disk.current_log_file_index.get name
  remembered : w.pc.choosing = true → pc ≠ .reset → next.Remembered limit base w.logger_name

theorem advanced (gapless : ∀ place day, Gapless (isFull limit) (series disk.files place day))
    (knows : w.Knows limit base disk)
    (remembered : w.pc.choosing = true → w.pc ≠ .reset → disk.Remembered limit base w.logger_name)
    (moved : w.advance limit base disk = some (next,pc)) : Advanced limit base disk w next pc := by
  have aside : ∀ name, (name = w.logger_name → w.pc.choosing = false) → w.pc.choosing = true →
      name ≠ w.logger_name := by
    intro name apart choosing same
    cases (apart same).symm.trans choosing
  unfold Thread.Knows at knows
  cases at_ : w.pc with
  | check =>
    simp only [Thread.advance,at_] at moved
    cases Option.some.inj moved
    rw [at_] at remembered
    refine ⟨keepsFiles rfl,gapless,?_,fun _ => by rw [at_]; rfl,fun _ _ => ⟨rfl,rfl⟩,fun _ _ => remembered rfl (fun same => by cases same)⟩
    by_cases dated : disk.current_log_date.get w.logger_name = some w.today
    · rw [if_pos dated]
      exact dated
    · rw [if_neg dated]
      trivial
  | date =>
    simp only [Thread.advance,at_] at moved
    cases Option.some.inj moved
    refine ⟨keepsFiles rfl,gapless,Dict.getSetSame _ _ _,fun _ => by rw [at_]; rfl,?_,fun _ other => absurd rfl other⟩
    intro name apart
    exact ⟨Dict.getSetOther (aside name apart (by rw [at_]; rfl)),rfl⟩
  | reset =>
    simp only [Thread.advance,at_] at moved
    cases Option.some.inj moved
    rw [at_] at knows
    refine ⟨keepsFiles rfl,gapless,knows,fun _ => by rw [at_]; rfl,?_,?_⟩
    · intro name apart
      exact ⟨rfl,Dict.getSetOther (aside name apart (by rw [at_]; rfl))⟩
    · intro _ _ day index _ found
      cases (Dict.getSetSame _ _ _).symm.trans found
      exact Segments.closedZero
  | read =>
    simp only [Thread.advance,at_] at moved
    cases Option.some.inj moved
    rw [at_] at knows
    have kept := remembered (by rw [at_]; rfl) (fun same => by cases at_.symm.trans same)
    refine ⟨keepsFiles rfl,gapless,⟨knows,?_⟩,fun _ => by rw [at_]; rfl,fun _ _ => ⟨rfl,rfl⟩,fun _ _ => kept⟩
    cases found : disk.current_log_file_index.get w.logger_name with
    | none => exact Segments.closedZero
    | some index => exact kept w.today index knows found
  | probe i =>
    simp only [Thread.advance,at_] at moved
    cases Option.some.inj moved
    rw [at_] at knows
    have kept := remembered (by rw [at_]; rfl) (fun same => by cases at_.symm.trans same)
    refine ⟨keepsFiles rfl,gapless,?_,fun _ => by rw [at_]; rfl,fun _ _ => ⟨rfl,rfl⟩,fun _ _ => kept⟩
    by_cases missing : (disk.files.get (w.file base i)).isNone = true
    · rw [if_pos missing]
      exact knows
    · rw [if_neg missing]
      exact knows
  | size i =>
    simp only [Thread.advance,at_] at moved
    obtain ⟨text,there,last⟩ := Option.map_eq_some_iff.mp moved
    cases last
    rw [at_] at knows
    have kept := remembered (by rw [at_]; rfl) (fun same => by cases at_.symm.trans same)
    refine ⟨keepsFiles rfl,gapless,?_,fun _ => by rw [at_]; rfl,fun _ _ => ⟨rfl,rfl⟩,fun _ _ => kept⟩
    have there : series disk.files (folder (join base w.logger_name)) w.today i = some text := by
      rw [series,← logFilePath]
      exact there
    by_cases full : isFull limit text = true
    · rw [if_pos full]
      exact ⟨knows.1,Segments.closedNext knows.2 there full⟩
    · rw [if_neg full]
      exact knows
  | store i =>
    simp only [Thread.advance,at_] at moved
    cases Option.some.inj moved
    rw [at_] at knows
    refine ⟨keepsFiles rfl,gapless,⟨_,w.today,i,logFilePath _ _ _,knows.2⟩,fun choosing => (by cases choosing),?_,?_⟩
    · intro name apart
      exact ⟨rfl,Dict.getSetOther (aside name apart (by rw [at_]; rfl))⟩
    · intro _ _ day index date found
      cases (Dict.getSetSame _ _ _).symm.trans found
      cases knows.1.symm.trans date
      exact knows.2
  | opening log_file =>
    simp only [Thread.advance,at_] at moved
    cases Option.some.inj moved
    rw [at_] at knows
    obtain ⟨place,today,index,path,closed⟩ := knows
    refine ⟨keepsAppend path,?_,⟨place,today,index,path,keepsAppend path place today index closed⟩,fun choosing => (by cases choosing),
      fun _ _ => ⟨rfl,rfl⟩,fun choosing => by rw [at_] at choosing; cases choosing⟩
    rw [path]
    exact appendGapless gapless closed
  | writing log_file =>
    simp only [Thread.advance,at_] at moved
    cases moved

theorem comeSound {name : String} {messages : List String} {today : Day} (sound : Sound limit base s)
    (apart : s.threads.countP (Thread.chooses name) = 0) :
    Sound limit base {s with threads := s.threads ++ [⟨name,today,chunk messages,.check⟩]} := by
  refine ⟨sound.gapless,?_,?_,?_⟩
  · intro other free
    exact sound.remembered other (fun w member => free w (List.mem_append_left _ member))
  · intro w member
    rcases List.mem_append.mp member with old | new
    · exact sound.knows w old
    · cases List.mem_singleton.mp new
      trivial
  · intro other
    rw [Slots.countAppend]
    by_cases same : name = other
    · subst same
      rw [apart]
      split <;> omega
    · have less := sound.alone other
      simpa [Thread.chooses,same] using less

theorem advanceSound (sound : Sound limit base s) (there : s.threads[k]? = some w)
    (moved : w.advance limit base s.disk = some (next,pc)) :
    Sound limit base ⟨next,s.threads.set k {w with pc := pc}⟩ := by
  -- somebody else at the same logger is past its choice
  have single : ∀ (i : Nat) u, s.threads[i]? = some u → u.logger_name = w.logger_name → u.pc.choosing = true →
      w.pc.choosing = true → i = k := by
    intro i u found name choosing own
    exact Slots.countUnique (Thread.chooses w.logger_name) (sound.alone w.logger_name) found there
      (by simp [Thread.chooses,name,choosing]) (by simp [Thread.chooses,own])
  have step := advanced sound.gapless (sound.knows w (List.mem_of_getElem? there)) (by
    intro choosing notReset
    refine sound.remembered _ ?_
    intro u member name resets
    obtain ⟨i,found⟩ := List.mem_iff_getElem?.mp member
    cases single i u found name (by rw [resets]; rfl) choosing
    cases Option.some.inj (there.symm.trans found)
    exact notReset resets) moved
  refine ⟨step.gapless,?_,?_,?_⟩
  · intro name free
    have mine := free {w with pc := pc} (List.mem_of_getElem? (Slots.setSame there))
    by_cases own : name = w.logger_name ∧ w.pc.choosing = true
    · obtain ⟨rfl,choosing⟩ := own
      exact step.remembered choosing (mine rfl)
    · have apart : name = w.logger_name → w.pc.choosing = false :=
        fun same => by simpa [same] using own
      obtain ⟨dates,indices⟩ := step.aside name apart
      refine rememberedKept step.keeps dates indices (sound.remembered name ?_)
      intro u member same resets
      obtain ⟨i,found⟩ := List.mem_iff_getElem?.mp member
      by_cases place : k = i
      · subst place
        cases Option.some.inj (there.symm.trans found)
        have late := apart same.symm
        rw [resets] at late
        cases late
      · exact free u (List.mem_of_getElem? ((Slots.setOther place).trans found)) same resets
  · intro u member
    obtain ⟨i,found⟩ := List.mem_iff_getElem?.mp member
    rcases Slots.setCases found with ⟨_,rfl⟩ | ⟨other,old⟩
    · exact step.knows
    · refine knowsKept step.keeps ?_ (sound.knows u (List.mem_of_getElem? old))
      intro choosing
      refine (step.aside u.logger_name ?_).1
      intro same
      by_contra own
      exact other (single i u old same choosing (by simpa using own)).symm
  · intro name
    have counted := Slots.countSet (y := {w with pc := pc}) (Thread.chooses name) there
    have less := sound.alone name
    have back : Thread.chooses name {w with pc := pc} = true → Thread.chooses name w = true := by
      intro chooses
      simp only [Thread.chooses,Bool.and_eq_true] at chooses ⊢
      exact ⟨chooses.1,step.choosing chooses.2⟩
    show (s.threads.set k {w with pc := pc}).countP (Thread.chooses name) ≤ 1
    cases after : Thread.chooses name {w with pc := pc} with
    | false =>
      rw [after] at counted
      simp only [Bool.false_eq_true,if_false] at counted
      omega
    | true =>
      rw [after,back after] at counted
      simp only [if_true] at counted
      omega

theorem appendSoundRun {log_file : String} {count : Nat} (sound : Sound limit base s)
    (there : s.threads[k]? = some w) (writes : w.pc = .writing log_file) :
    Sound limit base ⟨s.disk.append log_file (w.text.take count),s.threads.set k {w with text := w.text.drop count}⟩ := by
  have knows := sound.knows w (List.mem_of_getElem? there)
  have own := knows
  rw [Thread.Knows,writes] at own
  obtain ⟨place,today,index,path,closed⟩ := own
  have keeps : Keeps limit s.disk (s.disk.append log_file (w.text.take count)) := keepsAppend path
  have same : ∀ name, Thread.chooses name {w with text := w.text.drop count} = Thread.chooses name w := fun _ => rfl
  refine ⟨by rw [path]; exact appendGapless sound.gapless closed,?_,?_,?_⟩
  · intro name free
    refine rememberedKept keeps rfl rfl (sound.remembered name ?_)
    intro u member name resets
    obtain ⟨i,found⟩ := List.mem_iff_getElem?.mp member
    by_cases place : k = i
    · subst place
      cases Option.some.inj (there.symm.trans found)
      cases resets.symm.trans writes
    · exact free u (List.mem_of_getElem? ((Slots.setOther place).trans found)) name resets
  · intro u member
    obtain ⟨i,found⟩ := List.mem_iff_getElem?.mp member
    rcases Slots.setCases found with ⟨_,rfl⟩ | ⟨_,old⟩
    · exact knowsKept keeps (fun _ => rfl) (show Thread.Knows limit base s.disk {w with text := _} from knows)
    · exact knowsKept keeps (fun _ => rfl) (sound.knows u (List.mem_of_getElem? old))
  · intro name
    rw [Slots.countSetSame (Thread.chooses name) there (same name)]
    exact sound.alone name

theorem leaveSound (sound : Sound limit base s) (there : s.threads[k]? = some w) (calls : w.pc.calls = true) :
    Sound limit base {s with threads := s.threads.eraseIdx k} := by
  refine ⟨sound.gapless,?_,fun u member => sound.knows u (List.mem_of_mem_eraseIdx member),?_⟩
  · intro name free
    refine sound.remembered name ?_
    intro u member same resets
    obtain ⟨i,found⟩ := List.mem_iff_getElem?.mp member
    by_cases place : i = k
    · subst place
      cases Option.some.inj (there.symm.trans found)
      rw [resets] at calls
      cases calls
    · exact free u (List.mem_eraseIdx_iff_getElem?.mpr ⟨i,place,found⟩) same resets
  · intro name
    exact Nat.le_trans ((List.eraseIdx_sublist _ _).countP_le) (sound.alone name)

theorem stepSound (apart : Apart s a) (sound : Sound limit base s) (taken : step limit base s a = some t) :
    Sound limit base t := by
  cases a with
  | come name messages today =>
    simp only [step] at taken
    split at taken <;> cases Option.some.inj taken
    · exact sound
    · rename_i some_
      exact comeSound sound (apart.resolve_left some_)
  | advance k =>
    obtain ⟨w,there,rest⟩ := Option.bind_eq_some_iff.mp taken
    obtain ⟨⟨next,pc⟩,moved,last⟩ := Option.bind_eq_some_iff.mp rest
    cases Option.some.inj last
    exact advanceSound sound there moved
  | append k count =>
    obtain ⟨w,there,rest⟩ := Option.bind_eq_some_iff.mp taken
    split at rest <;> try contradiction
    rename_i log_file writes
    cases Option.some.inj rest
    exact appendSoundRun sound there writes
  | leave k =>
    obtain ⟨w,there,rest⟩ := Option.bind_eq_some_iff.mp taken
    split at rest <;> try contradiction
    rename_i calls
    cases Option.some.inj rest
    exact leaveSound sound there calls
  | restart =>
    cases Option.some.inj taken
    refine ⟨sound.gapless,fun _ _ _ _ date => ?_,fun _ member => (by cases member),fun _ => Nat.zero_le _⟩
    cases date

theorem runSound {acts : List Action} (ran : Machine.run (step limit base) initial acts = some s)
    (apart : Machine.Steps (step limit base) Apart initial acts) : Sound limit base s := by
  refine Machine.invariantSteps (fun _ _ _ => stepSound) apart ⟨?_,?_,?_,?_⟩ ran
  · intro place day i text there
    cases there
  · intro name _ day index date
    cases date
  · intro w member
    cases member
  · intro name
    exact Nat.zero_le _

section Alone
variable {w : Thread} {b goal : Pc} {disk mid next : Disk}

/- A thread that goes on alone, whatever the others are at. -/
def Goes (limit : Nat) (base : String) (w : Thread) (disk : Disk) (pc : Pc) (next : Disk) (last : Pc) : Prop :=
  ∃ n, ∀ threads k, threads[k]? = some {w with pc := pc} →
    Machine.run (step limit base) ⟨disk,threads⟩ (List.replicate n (.advance k)) =
      some ⟨next,threads.set k {w with pc := last}⟩

theorem goesStay : Goes limit base w disk pc disk pc :=
  ⟨0,fun _ _ there => by rw [Slots.setEqual there]; rfl⟩

theorem goesNext (moved : Thread.advance limit base disk {w with pc := pc} = some (mid,b))
    (later : Goes limit base w mid b next goal) : Goes limit base w disk pc next goal := by
  obtain ⟨n,rest⟩ := later
  refine ⟨n+1,?_⟩
  intro threads k there
  have one : step limit base ⟨disk,threads⟩ (.advance k) = some ⟨mid,threads.set k {w with pc := b}⟩ := by
    simp [step,there,moved]
  rw [List.replicate_succ]
  refine Machine.runCons.mpr ⟨_,one,?_⟩
  rw [rest _ k (Slots.setSame there),List.set_set]

theorem goesSeek {fuel i index : Nat}
    (sought : Segments.seek (isFull limit) (fun i => disk.files.get (w.file base i)) fuel i = some index)
    (later : Goes limit base w disk (.store index) next goal) : Goes limit base w disk (.probe i) next goal := by
  induction fuel generalizing i with
  | zero => cases sought
  | succ fuel ih =>
    simp only [Segments.seek] at sought
    split at sought
    · rename_i missing
      cases Option.some.inj sought
      refine goesNext (b := .store index) ?_ later
      have missing : disk.files.get (Thread.file base {w with pc := .probe index} index) = none := missing
      simp [Thread.advance,missing]
    · rename_i text there
      have looked : Thread.advance limit base disk {w with pc := .probe i} = some (disk,.size i) := by
        have there : disk.files.get (Thread.file base {w with pc := .probe i} i) = some text := there
        simp [Thread.advance,there]
      have there : disk.files.get (Thread.file base {w with pc := .size i} i) = some text := there
      refine goesNext looked ?_
      split at sought
      · rename_i full
        exact goesNext (b := .probe (i+1)) (by simp [Thread.advance,there,full]) (ih sought)
      · rename_i room
        cases Option.some.inj sought
        exact goesNext (b := .store index) (by simp [Thread.advance,there,room]) later

theorem goesRead {fuel index : Nat}
    (sought : Segments.seek (isFull limit) (fun i => disk.files.get (w.file base i)) fuel
      ((disk.current_log_file_index.get w.logger_name).getD 0) = some index) :
    Goes limit base w disk .read
      (Disk.append {disk with current_log_file_index := disk.current_log_file_index.set w.logger_name index}
        (w.file base index) []) (.writing (w.file base index)) :=
  goesNext rfl (goesSeek sought (goesNext rfl (goesNext rfl goesStay)))

/- `getLogFile` is what a thread does that is alone at it. -/
theorem goesChoose {log_file : String}
    (got : disk.getLogFile limit w.logger_name (join base w.logger_name) w.today = some (next,log_file)) :
    Goes limit base w disk .check (next.append log_file []) (.writing log_file) := by
  obtain ⟨index,sought,last⟩ := Option.bind_eq_some_iff.mp got
  cases Option.some.inj last
  have reads := @goesRead limit base w (disk.newDay w.logger_name w.today) _ index sought
  by_cases dated : disk.current_log_date.get w.logger_name = some w.today
  · have same : disk.newDay w.logger_name w.today = disk := if_pos dated
    have checks : Thread.advance limit base disk {w with pc := .check} =
        some (disk.newDay w.logger_name w.today,.read) := by simp [Thread.advance,dated,same]
    exact goesNext checks reads
  · have differs : disk.newDay w.logger_name w.today = _ := if_neg dated
    have checks : Thread.advance limit base disk {w with pc := .check} = some (disk,.date) := by
      simp [Thread.advance,dated]
    have resets : Thread.advance limit base
        {disk with current_log_date := disk.current_log_date.set w.logger_name w.today} {w with pc := .reset} =
        some (disk.newDay w.logger_name w.today,.read) := by rw [differs]; rfl
    exact goesNext checks (goesNext rfl (goesNext resets reads))

end Alone

/- All files of a day are full but the last one. A thread that comes to the lines of a
logger finds that one, if nobody else is choosing for this logger. -/
structure Rotated (limit : Nat) (base : String) (s : State) : Prop where
  gapless : ∀ place day, Gapless (isFull limit) (series s.disk.files place day)
  found : ∀ name today, s.threads.countP (Thread.chooses name) = 0 → ∃ t log_file index,
    s.disk.getLogFile limit name (join base name) today = some (t,log_file) ∧
    Found limit s.disk t (folder (join base name)) today log_file index ∧
    (∀ j, index < j → series s.disk.files (folder (join base name)) today j = none) ∧
    ∀ messages, messages ≠ [] → ∃ n, Machine.run (step limit base) s
      (.come name messages today :: List.replicate n (.advance s.threads.length)) =
        some ⟨t.append log_file [],s.threads ++ [⟨name,today,chunk messages,.writing log_file⟩]⟩

theorem rotates {acts : List Action} (ran : Machine.run (step limit base) initial acts = some s)
    (apart : Machine.Steps (step limit base) Apart initial acts) : Rotated limit base s := by
  have sound := runSound ran apart
  refine ⟨sound.gapless,?_⟩
  intro name today free
  have kept : s.disk.Remembered limit base name := by
    refine sound.remembered name ?_
    intro w member same resets
    have none_ := List.countP_eq_zero.mp free w member
    simp [Thread.chooses,same,resets,Pc.choosing] at none_
  obtain ⟨t,log_file,got⟩ := getLogFileReturns limit s.disk name (join base name) today
  obtain ⟨index,found⟩ := getLogFileFound kept got
  refine ⟨t,log_file,index,got,found,fun j => Segments.lastOpen (sound.gapless _ today) found.room,?_⟩
  intro messages some_
  obtain ⟨n,goes⟩ := goesChoose (w := ⟨name,today,chunk messages,.check⟩) got
  refine ⟨n,Machine.runCons.mpr ⟨_,if_neg some_,?_⟩⟩
  rw [goes _ s.threads.length Slots.appendNew]
  simp

end Run

def january : Day := ⟨"2026-01-31",by simp⟩

/- A thread comes to the line of a logger and goes on alone until it has opened its file. -/
def visit (k : Nat) (message : String) (today : Day) (steps : Nat) : List Action :=
  .come "app" [message] today :: List.replicate steps (.advance k)

/- Two threads choose the same file; the process ends before the second one is done. -/
def interrupted : List Action := visit 0 "first" january 7 ++ visit 1 "second" january 6 ++
  [.append 0 3,.append 0 3,.leave 0,.append 0 3,.restart] ++ visit 0 "third" january 9

theorem rotatesInterrupted : ∃ s, Machine.run (step 8 "/var/log") initial interrupted = some s ∧
    s.disk.files.keys = ["/var/log/app/2026-01-31.log","/var/log/app/2026-01-31_1.log"] ∧
    s.threads.map Thread.pc = [.writing "/var/log/app/2026-01-31_1.log"] ∧
    Rotated 8 "/var/log" s := by
  have ran : ∃ s, Machine.run (step 8 "/var/log") initial interrupted = some s ∧
      s.disk.files.keys = ["/var/log/app/2026-01-31.log","/var/log/app/2026-01-31_1.log"] ∧
      s.threads.map Thread.pc = [.writing "/var/log/app/2026-01-31_1.log"] := ⟨_,rfl,by decide,by decide⟩
  obtain ⟨s,ran,files,chosen⟩ := ran
  exact ⟨s,ran,files,chosen,rotates ran (Machine.stepsOfDecide (by decide +kernel))⟩

def february : Day := ⟨"2026-02-01",by simp⟩

/- A thread of the day before stores its number after the new day has begun, and the next
one leaves a file out. -/
example : (Machine.run (step 8 "/var/log") initial (visit 0 "a long line" january 7 ++ [.append 0 12,.leave 0] ++
    visit 0 "old" january 5 ++ visit 1 "new" february 7 ++ [.advance 0] ++ visit 2 "next" february 5)).map
      (fun s => s.disk.files.entries.map (fun e => (e.1,getsize e.2))) =
    some [("/var/log/app/2026-01-31.log",12),("/var/log/app/2026-02-01.log",0),("/var/log/app/2026-02-01_1.log",0)] := by
  decide +kernel

section Size
variable {limit largest threads : Nat} {base : String} {s t : State} {a : Action} {path : String} {w : Thread}
  {disk : Disk} {pc : Pc} {k : Nat}

def Thread.chosen (base : String) (w : Thread) : Option String := match w.pc with
  | .store index => some (w.file base index)
  | .opening log_file => some log_file
  | .writing log_file => some log_file
  | _ => none

def Thread.brings (base path : String) (w : Thread) : Nat :=
  if w.chosen base = some path then getsize w.text else 0

def brought (base : String) (s : State) (path : String) : Nat := Slots.total (Thread.brings base path) s.threads

def Allowed (largest threads : Nat) (s : State) : Action → Prop
  | .come _ messages _ => s.threads.length < threads ∧ getsize (chunk messages) ≤ largest
  | _ => True

instance (s : State) (a : Action) : Decidable (Allowed largest threads s a) := by
  unfold Allowed
  split <;> infer_instance

/- A file with room, or one that grows by those who chose it while it had room. -/
def Fits (limit largest threads : Nat) (base : String) (s : State) (path : String) : Prop :=
  ∀ text, s.disk.files.get path = some text →
    getsize text < limit ∨ getsize text + brought base s path ≤ (limit - 1) + largest * threads

structure Bounded (limit largest threads : Nat) (base : String) (s : State) : Prop where
  few : s.threads.length ≤ threads
  short : ∀ w ∈ s.threads, getsize w.text ≤ largest
  fits : ∀ path, Fits limit largest threads base s path

theorem getsizeCut (text : List Char) (n : Nat) : getsize (text.take n) + getsize (text.drop n) = getsize text := by
  rw [← getsizeAppend,List.take_append_drop]

theorem bringsFew (short : getsize w.text ≤ largest) (base path : String) : w.brings base path ≤ largest := by
  unfold Thread.brings
  split
  · exact short
  · exact Nat.zero_le _

theorem broughtFew (few : s.threads.length ≤ threads) (short : ∀ w ∈ s.threads, getsize w.text ≤ largest)
    (base path : String) : brought base s path ≤ largest * threads :=
  Nat.le_trans (Slots.totalFew fun w member => bringsFew (short w member) base path) (Nat.mul_le_mul_left largest few)

theorem comeBounded {name : String} {messages : List String} {today : Day}
    (bounded : Bounded limit largest threads base s) (room : s.threads.length < threads)
    (small : getsize (chunk messages) ≤ largest) :
    Bounded limit largest threads base {s with threads := s.threads ++ [⟨name,today,chunk messages,.check⟩]} := by
  refine ⟨by simpa using Nat.succ_le_of_lt room,?_,?_⟩
  · intro w member
    rcases List.mem_append.mp member with old | new
    · exact bounded.short w old
    · cases List.mem_singleton.mp new
      exact small
  · intro path text there
    have same : brought base {s with threads := s.threads ++ [⟨name,today,chunk messages,.check⟩]} path =
        brought base s path := by
      simp [brought,Slots.totalAppend,Slots.total,Thread.brings,Thread.chosen]
    rw [same]
    exact bounded.fits path text there

theorem advanceChosen (moved : w.advance limit base s.disk = some (disk,pc)) (path : String) :
    Thread.chosen base {w with pc := pc} = w.chosen base ∨
      ∀ text, disk.files.get path = some text → Thread.chosen base {w with pc := pc} = some path →
        getsize text < limit := by
  cases at_ : w.pc <;> simp only [Thread.advance,at_] at moved
  case size i =>
    obtain ⟨text,there,last⟩ := Option.map_eq_some_iff.mp moved
    cases last
    by_cases full : isFull limit text = true
    · rw [if_pos full]
      exact .inl (by simp [Thread.chosen,at_])
    · rw [if_neg full]
      refine .inr ?_
      intro other found mine
      cases Option.some.inj mine
      cases there.symm.trans found
      simpa [isFull] using full
  case probe i =>
    cases Option.some.inj moved
    by_cases missing : (s.disk.files.get (w.file base i)).isNone = true
    · rw [if_pos missing]
      refine .inr ?_
      intro other found mine
      cases Option.some.inj mine
      have found : s.disk.files.get (w.file base i) = some other := found
      rw [found] at missing
      cases missing
    · rw [if_neg missing]
      exact .inl (by simp [Thread.chosen,at_])
  case check =>
    cases Option.some.inj moved
    refine .inl ?_
    split <;> simp [Thread.chosen,at_]
  all_goals
    cases moved <;> exact .inl (by simp [Thread.chosen,at_])

theorem advanceFiles (moved : w.advance limit base s.disk = some (disk,pc)) {text : List Char}
    (found : disk.files.get path = some text) : s.disk.files.get path = some text ∨ text = [] := by
  cases at_ : w.pc <;> simp only [Thread.advance,at_] at moved
  case opening log_file =>
    cases Option.some.inj moved
    have found : (s.disk.files.set log_file _).get path = some text := found
    rw [Dict.getSet] at found
    split at found
    · rename_i same
      subst same
      cases old : s.disk.files.get path with
      | none =>
        rw [old] at found
        exact .inr (Option.some.inj found).symm
      | some before =>
        rw [old] at found
        exact .inl (by simpa using found)
    · exact .inl found
  case size i =>
    obtain ⟨_,_,last⟩ := Option.map_eq_some_iff.mp moved
    cases last
    exact .inl found
  all_goals
    cases moved <;> exact .inl found

theorem broughtSet {u : Thread} (there : s.threads[k]? = some w) (next : Disk) (base path : String) :
    brought base ⟨next,s.threads.set k u⟩ path + w.brings base path = brought base s path + u.brings base path :=
  Slots.totalSet (Thread.brings base path) there

theorem advanceBounded (bounded : Bounded limit largest threads base s) (there : s.threads[k]? = some w)
    (moved : w.advance limit base s.disk = some (disk,pc)) :
    Bounded limit largest threads base ⟨disk,s.threads.set k {w with pc := pc}⟩ := by
  have few : (s.threads.set k {w with pc := pc}).length ≤ threads := by
    rw [List.length_set]
    exact bounded.few
  have short : ∀ u ∈ s.threads.set k {w with pc := pc}, getsize u.text ≤ largest := by
    intro u member
    rcases List.mem_or_eq_of_mem_set member with old | rfl
    · exact bounded.short u old
    · exact bounded.short w (List.mem_of_getElem? there)
  refine ⟨few,short,?_⟩
  intro path text found
  have counted := broughtSet (u := {w with pc := pc}) there disk base path
  -- the file is there already, or is made now and empty
  rcases advanceFiles moved found with old | rfl
  · by_cases mine : Thread.chosen base {w with pc := pc} = some path
    · rcases advanceChosen moved path with same | room
      · have equal : Thread.brings base path {w with pc := pc} = w.brings base path := by
          unfold Thread.brings
          rw [same]
        rw [equal] at counted
        rw [Nat.add_right_cancel counted]
        exact bounded.fits path text old
      · exact .inl (room text found mine)
    · have none_ : Thread.brings base path {w with pc := pc} = 0 := if_neg mine
      rcases bounded.fits path text old with small | fits
      · exact .inl small
      · exact .inr (by omega)
  · have most := broughtFew (s := ⟨disk,s.threads.set k {w with pc := pc}⟩) few short base path
    refine .inr ?_
    show 0 + _ ≤ _
    omega

theorem appendBounded {count : Nat} {log_file : String} (bounded : Bounded limit largest threads base s)
    (there : s.threads[k]? = some w) (writes : w.pc = .writing log_file) :
    Bounded limit largest threads base
      ⟨s.disk.append log_file (w.text.take count),s.threads.set k {w with text := w.text.drop count}⟩ := by
  have cut := getsizeCut w.text count
  refine ⟨by rw [List.length_set]; exact bounded.few,?_,?_⟩
  · intro u member
    rcases List.mem_or_eq_of_mem_set member with old | rfl
    · exact bounded.short u old
    · have small := bounded.short w (List.mem_of_getElem? there)
      show getsize (w.text.drop count) ≤ largest
      omega
  · intro path text found
    have counted := broughtSet (u := {w with text := w.text.drop count}) there
      (s.disk.append log_file (w.text.take count)) base path
    have most := broughtFew bounded.few bounded.short base path
    have found : (s.disk.files.set log_file _).get path = some text := found
    rw [Dict.getSet] at found
    by_cases same : path = log_file
    · subst same
      rw [if_pos rfl] at found
      cases Option.some.inj found
      have before : w.brings base path = getsize w.text := if_pos (by simp [Thread.chosen,writes])
      have after : Thread.brings base path {w with text := w.text.drop count} = getsize (w.text.drop count) :=
        if_pos (by simp [Thread.chosen,writes])
      rw [before,after] at counted
      rw [getsizeAppend]
      refine .inr ?_
      cases old : s.disk.files.get path with
      | none =>
        show 0 + _ + _ ≤ _
        omega
      | some text =>
        rw [Option.getD_some]
        rcases bounded.fits path text old with small | fits <;> omega
    · rw [if_neg same] at found
      have before : w.brings base path = 0 := if_neg (by simp [Thread.chosen,writes,Ne.symm same])
      rcases bounded.fits path text found with small | fits
      · exact .inl small
      · have after : Thread.brings base path {w with text := w.text.drop count} = 0 :=
          if_neg (by simp [Thread.chosen,writes,Ne.symm same])
        exact .inr (by omega)

theorem stepBounded (allowed : Allowed largest threads s a) (bounded : Bounded limit largest threads base s)
    (taken : step limit base s a = some t) : Bounded limit largest threads base t := by
  cases a with
  | come name messages today =>
    simp only [step] at taken
    split at taken <;> cases Option.some.inj taken
    · exact bounded
    · exact comeBounded bounded allowed.1 allowed.2
  | advance k =>
    obtain ⟨w,there,rest⟩ := Option.bind_eq_some_iff.mp taken
    obtain ⟨⟨next,pc⟩,moved,last⟩ := Option.bind_eq_some_iff.mp rest
    cases Option.some.inj last
    exact advanceBounded bounded there moved
  | append k count =>
    obtain ⟨w,there,rest⟩ := Option.bind_eq_some_iff.mp taken
    split at rest <;> try contradiction
    rename_i log_file writes
    cases Option.some.inj rest
    exact appendBounded bounded there writes
  | leave k =>
    obtain ⟨w,there,rest⟩ := Option.bind_eq_some_iff.mp taken
    split at rest <;> try contradiction
    cases Option.some.inj rest
    refine ⟨Nat.le_trans (List.length_eraseIdx_le _ _) bounded.few,
      fun u member => bounded.short u (List.mem_of_mem_eraseIdx member),?_⟩
    intro path text found
    have less : brought base {s with threads := s.threads.eraseIdx k} path ≤ brought base s path := Slots.totalErase _
    rcases bounded.fits path text found with small | fits
    · exact .inl small
    · exact .inr (by omega)
  | restart =>
    cases Option.some.inj taken
    refine ⟨Nat.zero_le _,fun _ member => (by cases member),?_⟩
    intro path text found
    rcases bounded.fits path text found with small | fits
    · exact .inl small
    · refine .inr ?_
      show getsize text + 0 ≤ _
      omega

/- However many threads choose and write at once, no file grows beyond the limit by more
than what each of them may still bring. -/
theorem bounded {acts : List Action} (ran : Machine.run (step limit base) initial acts = some s)
    (allowed : Machine.Steps (step limit base) (Allowed largest threads) initial acts) :
    ∀ text, s.disk.files.get path = some text → getsize text ≤ (limit - 1) + largest * threads := by
  intro text there
  have start : Bounded limit largest threads base initial := by
    refine ⟨Nat.zero_le _,fun _ member => (by cases member),?_⟩
    intro path text there
    cases there
  have kept := Machine.invariantSteps (fun _ _ _ => stepBounded) allowed start ran
  rcases kept.fits path text there with small | fits <;> omega

theorem boundedInterrupted : ∃ s, Machine.run (step 8 "/var/log") initial interrupted = some s ∧
    s.disk.files.get "/var/log/app/2026-01-31.log" = some "first\nsec".toList ∧
    getsize "first\nsec".toList ≤ 7 + 7 * 2 := by
  have ran : ∃ s, Machine.run (step 8 "/var/log") initial interrupted = some s ∧
      s.disk.files.get "/var/log/app/2026-01-31.log" = some "first\nsec".toList := ⟨_,rfl,by decide⟩
  obtain ⟨s,ran,text⟩ := ran
  have allowed : Machine.Steps (step 8 "/var/log") (Allowed 7 2) initial interrupted :=
    Machine.stepsOfDecide (by decide +kernel)
  exact ⟨s,ran,text,bounded ran allowed _ text⟩

end Size

end Apixis.LogFiles
