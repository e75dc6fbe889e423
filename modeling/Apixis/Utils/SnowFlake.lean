import Apixis.Library.Machine
import Apixis.Utils.PyError
import Mathlib.Algebra.Order.Ring.Int
import Mathlib.Data.Int.Order.Basic
import Mathlib.Tactic.Positivity
import Mathlib.Tactic.Ring

/-! The generator of default namespaces: `SnowFlakeM1` on a clock that may stand still and
may go back. A call reads the clock once, and again and again while it waits for a later
tick. -/
namespace Apixis.SnowFlake
open PyError (raiseIf)

structure Options where
  baseTime : Int
  workerId : Int
  workerIdBitLength : Nat
  seqBitLength : Nat
  maxSeqNumber : Int
  minSeqNumber : Int
  topOverCostCount : Int
  deriving DecidableEq, Repr

def Options.default (workerId : Int) : Options := ⟨1582136402000,workerId,6,6,0,5,2000⟩

structure Config where
  baseTime : Int
  workerId : Int
  workerIdBitLength : Nat
  seqBitLength : Nat
  maxSeqNumber : Int
  minSeqNumber : Int
  topOverCostCount : Int
  deriving DecidableEq, Repr

/- `SnowFlakeM1.__init__`, but for the state below. -/
def configure (options : Options) : Config :=
  let seqBitLength := if options.seqBitLength = 0 then 6 else options.seqBitLength
  { baseTime := if options.baseTime = 0 then 1582136402000 else options.baseTime
    workerId := options.workerId
    workerIdBitLength := if options.workerIdBitLength = 0 then 6 else options.workerIdBitLength
    seqBitLength := seqBitLength
    maxSeqNumber := if options.maxSeqNumber ≤ 0 then 2 ^ seqBitLength - 1 else options.maxSeqNumber
    minSeqNumber := options.minSeqNumber
    topOverCostCount := options.topOverCostCount }

structure State where
  currentSeqNumber : Int
  lastTimeTick : Int
  turnBackTimeTick : Int
  turnBackIndex : Int
  isOverCost : Bool
  overCostCountInOneTerm : Int
  deriving DecidableEq, Repr

def State.initial (config : Config) : State := ⟨config.minSeqNumber,0,0,0,false,0⟩

/- What the clock gives to one call: the tick it reads first, and those it reads while it
waits. -/
structure Readings where
  now : Int
  later : List Int
  deriving DecidableEq, Repr

/- `int(1e64)`, which is not a power of ten. -/
def modulus : Int := 10000000000000000213204190094543968723012578712679649467743338496

section Generator
variable (config : Config)

/- The number that holds a tick, the worker and a number within the tick. -/
def compose (useTimeTick number : Int) : Int :=
  (useTimeTick * 2 ^ (config.workerIdBitLength + config.seqBitLength) +
    config.workerId * 2 ^ config.seqBitLength + number) % modulus

def calcId (s : State) (useTimeTick : Int) : Int × State :=
  (compose config useTimeTick (s.currentSeqNumber + 1),{s with currentSeqNumber := s.currentSeqNumber + 1})

def calcTurnBackId (s : State) (useTimeTick : Int) : Int × State :=
  (compose config useTimeTick s.turnBackIndex,{s with turnBackTimeTick := s.turnBackTimeTick - 1})

/- The loop of `__get_next_time_tick`; none while it goes on. -/
def nextTimeTick (lastTimeTick : Int) : List Int → Option Int
  | [] => none
  | tick :: rest => if tick ≤ lastTimeTick then nextTimeTick lastTimeTick rest else some tick

def nextOverCostId (s : State) (readings : Readings) : Option (Int × State) :=
  if s.lastTimeTick < readings.now then
    let t := {s with
      lastTimeTick := readings.now, currentSeqNumber := config.minSeqNumber, isOverCost := false,
      overCostCountInOneTerm := 0}
    some (calcId config t t.lastTimeTick)
  else if config.topOverCostCount ≤ s.overCostCountInOneTerm then do
    let tick ← nextTimeTick s.lastTimeTick readings.later
    let t := {s with
      lastTimeTick := tick, currentSeqNumber := config.minSeqNumber, isOverCost := false,
      overCostCountInOneTerm := 0}
    some (calcId config t t.lastTimeTick)
  else if config.maxSeqNumber < s.currentSeqNumber then
    let t := {s with
      lastTimeTick := s.lastTimeTick + 1, currentSeqNumber := config.minSeqNumber, isOverCost := true,
      overCostCountInOneTerm := s.overCostCountInOneTerm + 1}
    some (calcId config t t.lastTimeTick)
  else some (calcId config s s.lastTimeTick)

/- The clock is behind. The four numbers below the sequence are used in turn. -/
def turnBack (s : State) : State :=
  if s.turnBackTimeTick < 1 then
    let index := s.turnBackIndex + 1
    {s with turnBackTimeTick := s.lastTimeTick - 1, turnBackIndex := if 4 < index then 1 else index}
  else s

def nextNormalId (s : State) (now : Int) : Int × State :=
  if now < s.lastTimeTick then
    let t := turnBack s
    calcTurnBackId config t t.turnBackTimeTick
  else
    let t := {s with turnBackTimeTick := min s.turnBackTimeTick 0}
    if t.lastTimeTick < now then
      let u := {t with lastTimeTick := now, currentSeqNumber := config.minSeqNumber}
      calcId config u u.lastTimeTick
    else if config.maxSeqNumber < t.currentSeqNumber then
      let u := {t with
        lastTimeTick := t.lastTimeTick + 1, currentSeqNumber := config.minSeqNumber, isOverCost := true,
        overCostCountInOneTerm := 1}
      calcId config u u.lastTimeTick
    else calcId config t t.lastTimeTick

/- `next_id`, which holds a lock throughout. -/
def nextId (s : State) (readings : Readings) : Option (Int × State) :=
  if s.isOverCost then nextOverCostId config s readings else some (nextNormalId config s readings.now)

end Generator

def setIdGenerator (options : Options) : Except PyError (Config × State) := do
  raiseIf (options.baseTime < 100000) ⟨.valueError,"base time error."⟩
  return (configure options,.initial (configure options))

/- `DefaultIdGenerator.next_id` -/
def next (snowflake : Option (Config × State)) (readings : Readings) : Except PyError (Option (Int × Config × State)) :=
  match snowflake with
  | none => .error ⟨.valueError,"please set id generator at first."⟩
  | some (config,s) => .ok ((nextId config s readings).map (fun given => (given.1,config,given.2)))

/- An id, and its turn if the clock was behind. A turn goes on as long as it has ticks left. -/
structure Issue where
  id : Int
  behind : Option Nat
  deriving DecidableEq, Repr

/- The generator with what it has given, the turns in which the clock was behind and the
highest tick read. -/
structure Journal where
  state : State
  turns : Nat
  highest : Int
  issued : List Issue
  deriving DecidableEq, Repr

def Journal.initial (config : Config) : Journal := ⟨.initial config,0,0,[]⟩

def isBehind (s : State) (now : Int) : Bool := !s.isOverCost && now < s.lastTimeTick

def step (config : Config) (j : Journal) (readings : Readings) : Option Journal := do
  let (id,state) ← nextId config j.state readings
  let behind := isBehind j.state readings.now
  let turns := if behind && j.state.turnBackTimeTick < 1 then j.turns + 1 else j.turns
  some ⟨state,turns,(readings.now :: readings.later).foldl max j.highest,
    j.issued ++ [⟨id,if behind then some turns else none⟩]⟩

section Served
variable {config : Config} {j : Journal}

end Served

structure Fit (config : Config) : Prop where
  worker : 0 ≤ config.workerId ∧ config.workerId < 2 ^ config.workerIdBitLength
  reserved : 4 ≤ config.minSeqNumber
  lower : config.minSeqNumber ≤ config.maxSeqNumber
  upper : config.maxSeqNumber < 2 ^ config.seqBitLength

theorem defaultAccepted {workerId : Int} (few : 0 ≤ workerId ∧ workerId < 64) :
    setIdGenerator (.default workerId) = .ok (configure (.default workerId),.initial (configure (.default workerId))) ∧
      Fit (configure (.default workerId)) :=
  ⟨rfl,few,by simp [configure,Options.default],by simp [configure,Options.default],by simp [configure,Options.default]⟩

/- The clock shows no time before `base_time`. -/
def InRange (limit : Int) (readings : Readings) : Prop := ∀ tick ∈ readings.now :: readings.later, 0 ≤ tick ∧ tick ≤ limit

def ahead (config : Config) : Int := max 1 config.topOverCostCount

def Room (config : Config) (tick : Int) : Prop :=
  (tick + 1) * 2 ^ (config.workerIdBitLength + config.seqBitLength) < modulus

/- What an id holds. A number goes from 1 to the full `2 ^ seqBitLength`, so the id has to
be read one lower. -/
def tickOf (config : Config) (id : Int) : Int := (id - 1) / 2 ^ (config.workerIdBitLength + config.seqBitLength)
def workerOf (config : Config) (id : Int) : Int := (id - 1) / 2 ^ config.seqBitLength % 2 ^ config.workerIdBitLength
def numberOf (config : Config) (id : Int) : Int := (id - 1) % 2 ^ config.seqBitLength + 1

def workerField (config : Config) (id : Int) : Int := id / 2 ^ config.seqBitLength % 2 ^ config.workerIdBitLength

variable {config : Config} {s t : State} {readings : Readings} {id tick number limit : Int}

theorem decoded {A B worker : Int} (positive : 0 < A) (wide : 0 < B) (inside : 0 ≤ worker ∧ worker < A)
    (few : 1 ≤ number ∧ number ≤ B) :
    (tick * (A * B) + worker * B + number - 1) / (A * B) = tick ∧
    (tick * (A * B) + worker * B + number - 1) / B % A = worker ∧
    (tick * (A * B) + worker * B + number - 1) % B + 1 = number := by
  have low : (tick * (A * B) + worker * B + number - 1) / B = tick * A + worker := by
    rw [show tick * (A * B) + worker * B + number - 1 = (number - 1) + (tick * A + worker) * B by ring,
      Int.add_mul_ediv_right _ _ wide.ne',Int.ediv_eq_zero_of_lt (by omega) (by omega),zero_add]
  refine ⟨?_,?_,?_⟩
  · rw [mul_comm A B,← Int.ediv_ediv_of_nonneg wide.le,mul_comm B A,low,add_comm,Int.add_mul_ediv_right _ _ positive.ne',
      Int.ediv_eq_zero_of_lt inside.1 inside.2,zero_add]
  · rw [low,add_comm,Int.add_mul_emod_self_right]
    exact Int.emod_eq_of_lt inside.1 inside.2
  · rw [show tick * (A * B) + worker * B + number - 1 = (number - 1) + (tick * A + worker) * B by ring,
      Int.add_mul_emod_self_right,Int.emod_eq_of_lt (by omega) (by omega)]
    omega

/- Within its bounds an id wraps around nowhere, and can be read. -/
structure Legible (config : Config) (tick number : Int) : Prop where
  early : 0 ≤ tick
  room : Room config tick
  number : 1 ≤ number ∧ number ≤ 2 ^ config.seqBitLength

theorem composed (fit : Fit config) (legible : Legible config tick number) : compose config tick number =
    tick * (2 ^ config.workerIdBitLength * 2 ^ config.seqBitLength) + config.workerId * 2 ^ config.seqBitLength + number := by
  have wide : (0 : Int) < 2 ^ config.seqBitLength := by positivity
  have room := legible.room
  unfold Room at room
  rw [pow_add] at room
  unfold compose
  rw [pow_add]
  have low : 0 ≤ config.workerId * 2 ^ config.seqBitLength := mul_nonneg fit.worker.1 wide.le
  have high : config.workerId * 2 ^ config.seqBitLength ≤ (2 ^ config.workerIdBitLength - 1) * 2 ^ config.seqBitLength :=
    mul_le_mul_of_nonneg_right (by have := fit.worker.2; omega) wide.le
  have above : 0 ≤ tick * (2 ^ config.workerIdBitLength * 2 ^ config.seqBitLength) := mul_nonneg legible.early (by positivity)
  have numbers := legible.number
  rw [sub_mul,one_mul] at high
  rw [add_mul,one_mul] at room
  exact Int.emod_eq_of_lt (by omega) (by omega)

theorem composeDecodes (fit : Fit config) (legible : Legible config tick number) :
    tickOf config (compose config tick number) = tick ∧ workerOf config (compose config tick number) = config.workerId ∧
    numberOf config (compose config tick number) = number := by
  rw [composed fit legible,tickOf,workerOf,numberOf,pow_add]
  exact decoded (by positivity) (by positivity) fit.worker legible.number

/- The full number carries into the bits of the worker. -/
theorem composeCarries (fit : Fit config) (legible : Legible config tick number) :
    workerField config (compose config tick number) =
      if number = 2 ^ config.seqBitLength then (config.workerId + 1) % 2 ^ config.workerIdBitLength else config.workerId := by
  have wide : (0 : Int) < 2 ^ config.seqBitLength := by positivity
  have numbers := legible.number
  have split : compose config tick number =
      number + (config.workerId + tick * 2 ^ config.workerIdBitLength) * 2 ^ config.seqBitLength := by
    rw [composed fit legible]
    ring
  rw [workerField,split,Int.add_mul_ediv_right _ _ wide.ne']
  split_ifs with full
  · rw [full,Int.ediv_self wide.ne',← add_assoc,Int.add_mul_emod_self_right,add_comm]
  · rw [Int.ediv_eq_zero_of_lt (by omega) (by omega),zero_add,Int.add_mul_emod_self_right]
    exact Int.emod_eq_of_lt fit.worker.1 fit.worker.2

structure Ordinary (config : Config) (s : State) (readings : Readings) (id : Int) (t : State) : Prop where
  composed : id = compose config t.lastTimeTick t.currentSeqNumber
  later : s.lastTimeTick < t.lastTimeTick ∧ t.currentSeqNumber = config.minSeqNumber + 1 ∨
    t.lastTimeTick = s.lastTimeTick ∧ t.currentSeqNumber = s.currentSeqNumber + 1 ∧ s.currentSeqNumber ≤ config.maxSeqNumber
  index : t.turnBackIndex = s.turnBackIndex
  turn : t.turnBackTimeTick ≤ s.turnBackTimeTick
  drift : t.lastTimeTick ∈ readings.now :: readings.later ∧ t.isOverCost = false ∨
    t.lastTimeTick = s.lastTimeTick ∧ t.isOverCost = s.isOverCost ∧ t.overCostCountInOneTerm = s.overCostCountInOneTerm ∨
    t.lastTimeTick = s.lastTimeTick + 1 ∧ t.isOverCost = true ∧
      (s.isOverCost = false ∧ t.overCostCountInOneTerm = 1 ∨ s.isOverCost = true ∧
        s.overCostCountInOneTerm < config.topOverCostCount ∧ t.overCostCountInOneTerm = s.overCostCountInOneTerm + 1)

theorem nextTick {last : Int} {later : List Int} (found : nextTimeTick last later = some tick) : tick ∈ later ∧ last < tick := by
  induction later with
  | nil => cases found
  | cons head rest ih =>
    unfold nextTimeTick at found
    split at found
    · obtain ⟨inside,after⟩ := ih found
      exact ⟨List.mem_cons_of_mem _ inside,after⟩
    · cases found
      exact ⟨List.mem_cons_self,by omega⟩

theorem overCostOrdinary (risen : s.isOverCost = true) (given : nextOverCostId config s readings = some (id,t)) :
    Ordinary config s readings id t := by
  unfold nextOverCostId at given
  split at given
  · rename_i ahead
    cases given
    exact ⟨rfl,.inl ⟨ahead,rfl⟩,rfl,le_rfl,.inl ⟨List.mem_cons_self,rfl⟩⟩
  · split at given
    · simp only [bind,Option.bind_eq_some_iff] at given
      obtain ⟨tick,found,given⟩ := given
      cases given
      obtain ⟨inside,after⟩ := nextTick found
      exact ⟨rfl,.inl ⟨after,rfl⟩,rfl,le_rfl,.inl ⟨List.mem_cons_of_mem _ inside,rfl⟩⟩
    · rename_i few
      split at given
      · cases given
        exact ⟨rfl,.inl ⟨by simp,rfl⟩,rfl,le_rfl,.inr (.inr ⟨rfl,rfl,.inr ⟨risen,by omega,rfl⟩⟩)⟩
      · rename_i room
        cases given
        exact ⟨rfl,.inr ⟨rfl,rfl,by omega⟩,rfl,le_rfl,.inr (.inl ⟨rfl,rfl,rfl⟩)⟩

theorem normalOrdinary (normal : s.isOverCost = false) (level : ¬ readings.now < s.lastTimeTick)
    (given : nextNormalId config s readings.now = (id,t)) : Ordinary config s readings id t := by
  unfold nextNormalId at given
  rw [if_neg level] at given
  have turn : min s.turnBackTimeTick 0 ≤ s.turnBackTimeTick := min_le_left _ _
  dsimp only at given
  split at given
  · rename_i ahead
    cases given
    exact ⟨rfl,.inl ⟨ahead,rfl⟩,rfl,turn,.inl ⟨List.mem_cons_self,normal⟩⟩
  · split at given
    · cases given
      exact ⟨rfl,.inl ⟨by simp,rfl⟩,rfl,turn,.inr (.inr ⟨rfl,rfl,.inl ⟨normal,rfl⟩⟩)⟩
    · rename_i room
      cases given
      exact ⟨rfl,.inr ⟨rfl,rfl,by omega⟩,rfl,turn,.inr (.inl ⟨rfl,rfl,rfl⟩)⟩

theorem nextOrdinary (given : nextId config s readings = some (id,t)) (level : isBehind s readings.now = false) :
    Ordinary config s readings id t := by
  unfold nextId at given
  split at given
  · rename_i risen
    exact overCostOrdinary risen given
  · rename_i normal
    have free : s.isOverCost = false := by simpa using normal
    refine normalOrdinary free ?_ (Option.some.inj given)
    simpa [isBehind,free] using level

theorem nextBehind (given : nextId config s readings = some (id,t)) (behind : isBehind s readings.now = true) :
    s.isOverCost = false ∧ readings.now < s.lastTimeTick ∧
    id = compose config (turnBack s).turnBackTimeTick (turnBack s).turnBackIndex ∧
    t = {turnBack s with turnBackTimeTick := (turnBack s).turnBackTimeTick - 1} := by
  simp only [isBehind,Bool.and_eq_true,Bool.not_eq_true',decide_eq_true_eq] at behind
  obtain ⟨normal,late⟩ := behind
  simp only [nextId,normal,Bool.false_eq_true,if_false,nextNormalId,late,if_true,calcTurnBackId,Option.some.injEq,Prod.mk.injEq] at given
  exact ⟨normal,late,given.1.symm,given.2.symm⟩

def Drift (config : Config) (s : State) (highest : Int) : Prop :=
  if s.isOverCost then s.lastTimeTick ≤ highest + s.overCostCountInOneTerm ∧ s.overCostCountInOneTerm ≤ ahead config
  else s.lastTimeTick ≤ highest

/- An id of the sequence: above the reserved numbers, up to where the generator is. -/
def InSequence (config : Config) (s : State) (id : Int) : Prop :=
  ∃ tick number, id = compose config tick number ∧ 0 ≤ tick ∧ config.minSeqNumber < number ∧ number ≤ config.maxSeqNumber + 1 ∧
    (tick < s.lastTimeTick ∨ tick = s.lastTimeTick ∧ number ≤ s.currentSeqNumber)

def indexOf (turn : Nat) : Int := ((turn - 1) % 4 : Nat) + 1

/- An id of a turn in which the clock was behind: its ticks go down. -/
def InTurn (config : Config) (s : State) (turns turn : Nat) (id : Int) : Prop :=
  1 ≤ turn ∧ turn ≤ turns ∧ ∃ tick, id = compose config tick (indexOf turn) ∧ 0 ≤ tick ∧ tick < s.lastTimeTick ∧
    (turn = turns → s.turnBackTimeTick < tick)

def Placed (config : Config) (s : State) (turns : Nat) (issue : Issue) : Prop :=
  match issue.behind with
  | none => InSequence config s issue.id
  | some turn => InTurn config s turns turn issue.id

/- Ids of the sequence go up; an id comes again only four turns later. -/
def Follows (first second : Issue) : Prop :=
  (first.behind = none → second.behind = none → first.id < second.id) ∧
  (first.id = second.id → ∃ turn later, first.behind = some turn ∧ second.behind = some later ∧ turn + 4 ≤ later)

structure Holds (config : Config) (limit : Int) (j : Journal) : Prop where
  clock : 0 ≤ j.highest ∧ j.highest ≤ limit
  tick : 0 ≤ j.state.lastTimeTick
  drift : Drift config j.state j.highest
  number : config.minSeqNumber ≤ j.state.currentSeqNumber ∧ j.state.currentSeqNumber ≤ config.maxSeqNumber + 1
  index : j.state.turnBackIndex = if j.turns = 0 then 0 else indexOf j.turns
  turn : 1 ≤ j.state.turnBackTimeTick → 1 ≤ j.turns ∧ j.state.turnBackTimeTick < j.state.lastTimeTick
  placed : ∀ issue ∈ j.issued, Placed config j.state j.turns issue
  follows : j.issued.Pairwise Follows

variable {j k : Journal} {issue : Issue} {turns turn : Nat} {highest : Int}

theorem initialHolds (fit : Fit config) (positive : 0 ≤ limit) : Holds config limit (.initial config) := by
  have lower := fit.lower
  refine ⟨⟨le_rfl,positive⟩,le_rfl,?_,⟨le_rfl,?_⟩,rfl,?_,by simp [Journal.initial],.nil⟩
  · simp [Drift,Journal.initial,State.initial]
  · show config.minSeqNumber ≤ config.maxSeqNumber + 1
    omega
  · intro one
    simp [Journal.initial,State.initial] at one

theorem driftTick (drift : Drift config s highest) : s.lastTimeTick ≤ highest + ahead config := by
  have one : 1 ≤ ahead config := le_max_left _ _
  unfold Drift at drift
  split at drift
  · omega
  · omega

theorem roomBelow {limit : Int} (room : Room config limit) (low : tick ≤ limit) : Room config tick := by
  unfold Room at room ⊢
  refine lt_of_le_of_lt (mul_le_mul_of_nonneg_right (by omega) (by positivity)) room

theorem sequenceLegible (fit : Fit config) (room : Room config s.lastTimeTick)
    (early : 0 ≤ tick) (number_ : config.minSeqNumber < number ∧ number ≤ config.maxSeqNumber + 1) (below : tick ≤ s.lastTimeTick) :
    Legible config tick number := by
  have reserved := fit.reserved
  have upper := fit.upper
  exact ⟨early,roomBelow room below,by omega,by omega⟩

theorem indexRange (turn : Nat) : 1 ≤ indexOf turn ∧ indexOf turn ≤ 4 := by
  unfold indexOf
  omega

theorem turnLegible (turn : Nat) (fit : Fit config) (room : Room config s.lastTimeTick) (early : 0 ≤ tick) (below : tick < s.lastTimeTick) :
    Legible config tick (indexOf turn) := by
  have range := indexRange turn
  have reserved := fit.reserved
  have lower := fit.lower
  have upper := fit.upper
  exact ⟨early,roomBelow room below.le,range.1,by omega⟩

/- Whether an id belongs to the sequence shows in its number. -/
theorem apartNumbers (fit : Fit config) (room : Room config s.lastTimeTick) {other : Int}
    (sequence : InSequence config s id) (behind : InTurn config s turns turn other) : id ≠ other := by
  obtain ⟨tick,number,rfl,early,above,below,place⟩ := sequence
  obtain ⟨_,_,tick',rfl,early',below',_⟩ := behind
  intro same
  have one := (composeDecodes fit (sequenceLegible fit room early ⟨above,below⟩ (by omega))).2.2
  have two := (composeDecodes fit (turnLegible turn fit room early' below')).2.2
  rw [same,two] at one
  have range := indexRange turn
  have reserved := fit.reserved
  omega

theorem highestLe (ticks : List Int) (highest : Int) :
    highest ≤ ticks.foldl max highest ∧ (∀ tick ∈ ticks, tick ≤ ticks.foldl max highest) ∧
    ∀ limit, highest ≤ limit → (∀ tick ∈ ticks, tick ≤ limit) → ticks.foldl max highest ≤ limit := by
  induction ticks generalizing highest with
  | nil => exact ⟨le_rfl,by simp,fun _ low _ => low⟩
  | cons head rest ih =>
    obtain ⟨grows,covers,least⟩ := ih (max highest head)
    refine ⟨(le_max_left _ _).trans grows,?_,?_⟩
    · intro tick member
      rcases List.mem_cons.mp member with rfl | later
      · exact (le_max_right _ _).trans grows
      · exact covers tick later
    · intro limit low all
      refine least limit (max_le low (all head List.mem_cons_self)) ?_
      exact fun tick later => all tick (List.mem_cons_of_mem _ later)

theorem stepCases (taken : step config j readings = some k) :
    ∃ id, nextId config j.state readings = some (id,k.state) ∧
      k.highest = (readings.now :: readings.later).foldl max j.highest ∧
      ((isBehind j.state readings.now = false ∧ k.turns = j.turns ∧ k.issued = j.issued ++ [⟨id,none⟩]) ∨
      (isBehind j.state readings.now = true ∧ k.turns = (if j.state.turnBackTimeTick < 1 then j.turns + 1 else j.turns) ∧
        k.issued = j.issued ++ [⟨id,some k.turns⟩])) := by
  simp only [step,bind,Option.bind_eq_some_iff] at taken
  obtain ⟨⟨id,state⟩,given,taken⟩ := taken
  cases taken
  refine ⟨id,given,rfl,?_⟩
  cases isBehind j.state readings.now with
  | false => exact .inl ⟨rfl,rfl,rfl⟩
  | true => exact .inr ⟨rfl,by simp,rfl⟩

theorem placedKept (tick : s.lastTimeTick < t.lastTimeTick ∨ t.lastTimeTick = s.lastTimeTick ∧ s.currentSeqNumber ≤ t.currentSeqNumber)
    (turn : t.turnBackTimeTick ≤ s.turnBackTimeTick) (placed : Placed config s turns issue) : Placed config t turns issue := by
  unfold Placed at placed ⊢
  split at placed
  · obtain ⟨tick_,number,same,early,above,below,place⟩ := placed
    exact ⟨tick_,number,same,early,above,below,by omega⟩
  · obtain ⟨first,last,tick_,same,early,below,down⟩ := placed
    exact ⟨first,last,tick_,same,early,by omega,fun now => by have := down now; omega⟩

theorem driftKept {highest' : Int} (ordinary : Ordinary config s readings id t) (drift : Drift config s highest)
    (grows : highest ≤ highest') (covers : ∀ tick ∈ readings.now :: readings.later, tick ≤ highest') : Drift config t highest' := by
  have one : 1 ≤ ahead config := le_max_left _ _
  have top : config.topOverCostCount ≤ ahead config := le_max_right _ _
  unfold Drift at drift ⊢
  rcases ordinary.drift with ⟨inside,normal⟩ | ⟨tick,risen,count⟩ | ⟨tick,risen,⟨normal,count⟩ | ⟨was,few,count⟩⟩
  · rw [normal]
    simpa using covers _ inside
  · rw [risen,tick,count]
    split at drift
    · rename_i is_
      rw [if_pos is_]
      omega
    · rename_i is_
      rw [if_neg is_]
      omega
  · rw [normal] at drift
    simp only [Bool.false_eq_true,if_false] at drift
    rw [risen,if_pos rfl]
    omega
  · rw [was,if_pos rfl] at drift
    rw [risen,if_pos rfl]
    omega

theorem composeLt {tick' number' : Int} (fit : Fit config) (one : Legible config tick number) (two : Legible config tick' number')
    (lower : tick < tick' ∨ tick = tick' ∧ number < number') : compose config tick number < compose config tick' number' := by
  rw [composed fit one,composed fit two]
  have wide : (0 : Int) < 2 ^ config.seqBitLength := by positivity
  have unit : (2 : Int) ^ config.seqBitLength ≤ 2 ^ config.workerIdBitLength * 2 ^ config.seqBitLength :=
    le_mul_of_one_le_left wide.le (one_le_pow₀ (by norm_num))
  have first := one.number
  have second := two.number
  rcases lower with less | ⟨rfl,less⟩
  · have step : (tick + 1) * (2 ^ config.workerIdBitLength * 2 ^ config.seqBitLength) ≤
        tick' * (2 ^ config.workerIdBitLength * 2 ^ config.seqBitLength) :=
      mul_le_mul_of_nonneg_right (by omega) (by positivity)
    rw [add_mul,one_mul] at step
    omega
  · omega

theorem lastRoom (room : Room config (limit + ahead config)) (holds : Holds config limit j) : Room config j.state.lastTimeTick := by
  refine roomBelow room ?_
  have tick := driftTick holds.drift
  have clock := holds.clock
  omega

theorem ordinaryFollows (fit : Fit config) (room' : Room config t.lastTimeTick) (ordinary : Ordinary config s readings id t)
    (number_ : config.minSeqNumber ≤ s.currentSeqNumber) (early : 0 ≤ t.lastTimeTick)
    (placed : Placed config s turns issue) : Follows issue ⟨id,none⟩ := by
  have lower := fit.lower
  have here : config.minSeqNumber < t.currentSeqNumber ∧ t.currentSeqNumber ≤ config.maxSeqNumber + 1 := by
    rcases ordinary.later with ⟨_,number⟩ | ⟨_,number,few⟩
    · omega
    · omega
  have last := sequenceLegible fit room' early here le_rfl
  have now : InSequence config t id := ⟨_,_,ordinary.composed,early,here.1,here.2,.inr ⟨rfl,le_rfl⟩⟩
  have kept : Placed config t turns issue := by
    refine placedKept ?_ ordinary.turn placed
    rcases ordinary.later with ⟨tick,_⟩ | ⟨tick,number,_⟩
    · exact .inl tick
    · exact .inr ⟨tick,by omega⟩
  cases behind : issue.behind with
  | none =>
    rw [Placed,behind] at placed
    obtain ⟨tick,number,same,first,above,below,place⟩ := placed
    have less : issue.id < id := by
      rw [same,ordinary.composed]
      refine composeLt fit (sequenceLegible fit room' first ⟨above,below⟩ ?_) last ?_
      · rcases ordinary.later with ⟨after,_⟩ | ⟨after,_,_⟩ <;> omega
      · rcases ordinary.later with ⟨after,_⟩ | ⟨after,_,_⟩ <;> omega
    exact ⟨fun _ _ => less,fun equal => absurd equal less.ne⟩
  | some turn =>
    rw [Placed,behind] at kept
    refine ⟨fun none_ => ?_,fun equal => absurd equal.symm (apartNumbers fit room' now kept)⟩
    rw [behind] at none_
    cases none_

theorem ordinaryHolds (fit : Fit config) (room : Room config (limit + ahead config)) (holds : Holds config limit j) (within : InRange limit readings)
    (taken : step config j readings = some k) (level : isBehind j.state readings.now = false) : Holds config limit k := by
  obtain ⟨id,given,highest,⟨_,turns,issued⟩ | ⟨behind,_⟩⟩ := stepCases taken
  · have ordinary := nextOrdinary given level
    obtain ⟨grows,covers,least⟩ := highestLe (readings.now :: readings.later) j.highest
    rw [← highest] at grows covers least
    have lower := fit.lower
    have clock := holds.clock
    have number := holds.number
    have drift : Drift config k.state k.highest := driftKept ordinary holds.drift grows covers
    have tick : j.state.lastTimeTick ≤ k.state.lastTimeTick := by
      rcases ordinary.later with ⟨after,_⟩ | ⟨after,_,_⟩ <;> omega
    have early : 0 ≤ k.state.lastTimeTick := holds.tick.trans tick
    have limited : k.highest ≤ limit := least limit clock.2 (fun tick member => (within tick member).2)
    have room' : Room config k.state.lastTimeTick := by
      refine roomBelow room ?_
      have last := driftTick drift
      omega
    have here : config.minSeqNumber < k.state.currentSeqNumber ∧ k.state.currentSeqNumber ≤ config.maxSeqNumber + 1 := by
      rcases ordinary.later with ⟨_,number⟩ | ⟨_,number,few⟩
      · omega
      · omega
    refine ⟨⟨by omega,limited⟩,early,drift,⟨here.1.le,here.2⟩,?_,?_,?_,?_⟩
    · rw [ordinary.index,turns]
      exact holds.index
    · intro one
      have turn := ordinary.turn
      obtain ⟨first,below⟩ := holds.turn (by omega)
      exact ⟨turns ▸ first,by omega⟩
    · intro issue member
      rw [issued] at member
      rcases List.mem_append.mp member with old | new
      · rw [turns]
        refine placedKept ?_ ordinary.turn (holds.placed issue old)
        rcases ordinary.later with ⟨after,_⟩ | ⟨after,number,_⟩
        · exact .inl after
        · exact .inr ⟨after,by omega⟩
      · cases List.mem_singleton.mp new
        exact ⟨_,_,ordinary.composed,early,here.1,here.2,.inr ⟨rfl,le_rfl⟩⟩
    · rw [issued]
      refine List.pairwise_append.mpr ⟨holds.follows,List.pairwise_singleton _ _,?_⟩
      intro old inside new last
      cases List.mem_singleton.mp last
      exact ordinaryFollows fit room' ordinary number.1 early (holds.placed old inside)
  · rw [behind] at level
    cases level

theorem turnBackCases (holds : Holds config limit j) (late : readings.now < j.state.lastTimeTick) (now : 0 ≤ readings.now)
    (turns : k.turns = if j.state.turnBackTimeTick < 1 then j.turns + 1 else j.turns) :
    1 ≤ k.turns ∧ j.turns ≤ k.turns ∧ (turnBack j.state).turnBackIndex = indexOf k.turns ∧
    0 ≤ (turnBack j.state).turnBackTimeTick ∧ (turnBack j.state).turnBackTimeTick < j.state.lastTimeTick ∧
    (k.turns = j.turns → (turnBack j.state).turnBackTimeTick = j.state.turnBackTimeTick) ∧
    (turnBack j.state).lastTimeTick = j.state.lastTimeTick ∧
    (turnBack j.state).currentSeqNumber = j.state.currentSeqNumber ∧
    (turnBack j.state).isOverCost = j.state.isOverCost ∧
    (turnBack j.state).overCostCountInOneTerm = j.state.overCostCountInOneTerm := by
  have index := holds.index
  unfold turnBack
  split at turns
  · rename_i fresh
    rw [if_pos fresh]
    refine ⟨by omega,by omega,?_,by dsimp only; omega,by dsimp only; omega,fun same => absurd same (by omega),rfl,rfl,rfl,rfl⟩
    dsimp only
    rw [index,turns]
    unfold indexOf
    split
    · rename_i none_
      rw [none_]
      rfl
    · omega
  · rename_i goes
    obtain ⟨first,below⟩ := holds.turn (by omega)
    rw [if_neg goes]
    refine ⟨by omega,by omega,?_,by omega,below,fun _ => rfl,rfl,rfl,rfl,rfl⟩
    rw [index,turns,if_neg (by omega)]

/- An id of a turn is none of the sequence, and none of the last three turns. -/
theorem behindFollows {later : Nat} (fit : Fit config) (room : Room config s.lastTimeTick) (early : 0 ≤ tick)
    (below : tick < s.lastTimeTick) (grown : turns ≤ later) (down : later = turns → tick = s.turnBackTimeTick)
    (placed : Placed config s turns issue) : Follows issue ⟨compose config tick (indexOf later),some later⟩ := by
  have own := composeDecodes fit (turnLegible later fit room early below)
  constructor
  · intro _ none_
    cases none_
  intro equal
  cases behind : issue.behind with
  | none =>
    rw [Placed,behind] at placed
    obtain ⟨tick',number,same,first,above,below',place⟩ := placed
    have other := composeDecodes fit (sequenceLegible fit room first ⟨above,below'⟩ (by omega))
    rw [← same,equal,own.2.2] at other
    have range := indexRange later
    have reserved := fit.reserved
    have number_ := other.2.2
    omega
  | some turn =>
    rw [Placed,behind] at placed
    obtain ⟨one,most,tick',same,first,below',decreasing⟩ := placed
    have other := composeDecodes fit (turnLegible turn fit room first below')
    rw [← same,equal] at other
    have ticks : tick = tick' := own.1.symm.trans other.1
    have indices : indexOf later = indexOf turn := own.2.2.symm.trans other.2.2
    refine ⟨turn,later,rfl,rfl,?_⟩
    have different : turn ≠ later := by
      intro again
      have now := down (by omega)
      have lower := decreasing (by omega)
      omega
    unfold indexOf at indices
    omega

theorem behindHolds (fit : Fit config) (room : Room config (limit + ahead config)) (holds : Holds config limit j)
    (within : InRange limit readings) (taken : step config j readings = some k)
    (behind : isBehind j.state readings.now = true) : Holds config limit k := by
  obtain ⟨id,given,highest,⟨level,_⟩ | ⟨_,turns,issued⟩⟩ := stepCases taken
  · rw [behind] at level
    cases level
  · obtain ⟨normal,late,made,state⟩ := nextBehind given behind
    have now : 0 ≤ readings.now := (within _ List.mem_cons_self).1
    obtain ⟨first,grown,index,early,below,same,tick,number,risen,count⟩ := turnBackCases holds late now turns
    obtain ⟨grows,covers,least⟩ := highestLe (readings.now :: readings.later) j.highest
    rw [← highest] at grows covers least
    have clock := holds.clock
    have limited : k.highest ≤ limit := least limit clock.2 (fun tick member => (within tick member).2)
    have room' := lastRoom room holds
    have tick' : k.state.lastTimeTick = j.state.lastTimeTick := by rw [state]; exact tick
    have turn : k.state.turnBackTimeTick = (turnBack j.state).turnBackTimeTick - 1 := by rw [state]
    rw [index] at made
    refine ⟨⟨by omega,limited⟩,by rw [tick']; exact holds.tick,?_,?_,?_,?_,?_,?_⟩
    · have drift := holds.drift
      unfold Drift at drift ⊢
      rw [normal] at drift
      have flat : k.state.isOverCost = false := by rw [state]; exact risen.trans normal
      rw [flat,tick']
      simp only [Bool.false_eq_true,if_false] at drift ⊢
      omega
    · rw [state]
      dsimp only
      rw [number]
      exact holds.number
    · rw [if_neg (by omega),state]
      exact index
    · intro one
      exact ⟨first,by omega⟩
    · intro issue member
      rw [issued] at member
      rcases List.mem_append.mp member with old | new
      · have placed := holds.placed issue old
        unfold Placed at placed ⊢
        split at placed
        · obtain ⟨tick_,number_,own,first_,above,below_,place⟩ := placed
          refine ⟨tick_,number_,own,first_,above,below_,?_⟩
          rw [tick',show k.state.currentSeqNumber = j.state.currentSeqNumber by rw [state]; exact number]
          exact place
        · obtain ⟨one,most,tick_,own,first_,below_,down⟩ := placed
          refine ⟨one,by omega,tick_,own,first_,by omega,fun current => ?_⟩
          have again : k.turns = j.turns := by omega
          have lower := down (by omega)
          have continues := same again
          omega
      · cases List.mem_singleton.mp new
        exact ⟨first,le_rfl,_,made,early,by omega,fun _ => by omega⟩
    · rw [issued]
      refine List.pairwise_append.mpr ⟨holds.follows,List.pairwise_singleton _ _,?_⟩
      intro old inside new last
      cases List.mem_singleton.mp last
      rw [made]
      exact behindFollows fit room' early below grown same (holds.placed old inside)

theorem stepHolds (fit : Fit config) (room : Room config (limit + ahead config)) (holds : Holds config limit j)
    (within : InRange limit readings) (taken : step config j readings = some k) : Holds config limit k := by
  cases behind : isBehind j.state readings.now with
  | false => exact ordinaryHolds fit room holds within taken behind
  | true => exact behindHolds fit room holds within taken behind

theorem runHolds {calls : List Readings} (fit : Fit config) (positive : 0 ≤ limit) (room : Room config (limit + ahead config))
    (within : ∀ readings ∈ calls, InRange limit readings) (ran : Machine.run (step config) (.initial config) calls = some j) :
    Holds config limit j :=
  Machine.invariantWhere (fun _ _ _ inside holds taken => stepHolds fit room holds inside taken) within
    (initialHolds fit positive) ran

/- The generator of the process, on a clock that goes back once. -/
def process : Config := configure (.default 23)
def backOnce : List Readings := [⟨100,[]⟩,⟨100,[]⟩,⟨90,[]⟩,⟨95,[]⟩,⟨100,[]⟩,⟨120,[]⟩]

theorem processFit : Fit process := (defaultAccepted (by decide)).2
theorem processRoom : Room process (10 ^ 15 + ahead process) := by
  unfold Room
  decide
theorem backInRange : ∀ readings ∈ backOnce, InRange (10 ^ 15) readings := by
  unfold InRange
  decide

theorem backRuns : ∃ j, Machine.run (step process) (.initial process) backOnce = some j ∧ j.turns = 1 := ⟨_,rfl,rfl⟩

theorem issuedDecodes (fit : Fit config) (room : Room config (limit + ahead config)) (holds : Holds config limit j)
    (member : issue ∈ j.issued) : workerOf config issue.id = config.workerId ∧
      0 ≤ tickOf config issue.id ∧ tickOf config issue.id ≤ j.highest + ahead config ∧
      match issue.behind with
      | none => config.minSeqNumber < numberOf config issue.id ∧ numberOf config issue.id ≤ config.maxSeqNumber + 1
      | some turn => numberOf config issue.id = indexOf turn := by
  have room' := lastRoom room holds
  have tick := driftTick holds.drift
  have placed := holds.placed issue member
  unfold Placed at placed
  split at placed
  · obtain ⟨tick_,number_,same,early,above,below,place⟩ := placed
    obtain ⟨ticks,worker,numbers⟩ := composeDecodes fit (sequenceLegible fit room' early ⟨above,below⟩ (by omega))
    rw [same,worker,ticks,numbers]
    exact ⟨rfl,early,by omega,above,below⟩
  · rename_i turn _
    obtain ⟨_,_,tick_,same,early,below,_⟩ := placed
    obtain ⟨ticks,worker,numbers⟩ := composeDecodes fit (turnLegible turn fit room' early below)
    rw [same,worker,ticks,numbers]
    exact ⟨rfl,early,by omega,rfl⟩

theorem issuedCarries (fit : Fit config) (room : Room config (limit + ahead config)) (holds : Holds config limit j)
    (member : issue ∈ j.issued) : workerField config issue.id =
      if numberOf config issue.id = 2 ^ config.seqBitLength then (config.workerId + 1) % 2 ^ config.workerIdBitLength
      else config.workerId := by
  have room' := lastRoom room holds
  have placed := holds.placed issue member
  unfold Placed at placed
  split at placed
  · obtain ⟨tick_,number_,same,early,above,below,place⟩ := placed
    have readable := sequenceLegible fit room' early ⟨above,below⟩ (by omega)
    rw [same,composeCarries fit readable,(composeDecodes fit readable).2.2]
  · rename_i turn _
    obtain ⟨_,_,tick_,same,early,below,_⟩ := placed
    have readable := turnLegible turn fit room' early below
    rw [same,composeCarries fit readable,(composeDecodes fit readable).2.2]

/- An id can be read one lower: its worker, a tick at most `top_over_cost_count` ahead of
the clock, and its number, from which one sees whether it belongs to a turn, and to which.
As it stands, the bits of the worker show the next one where the number is full. -/
theorem legible {calls : List Readings} (fit : Fit config) (positive : 0 ≤ limit) (room : Room config (limit + ahead config))
    (within : ∀ readings ∈ calls, InRange limit readings) (ran : Machine.run (step config) (.initial config) calls = some j) :
    ∀ issue ∈ j.issued, workerOf config issue.id = config.workerId ∧
      0 ≤ tickOf config issue.id ∧ tickOf config issue.id ≤ j.highest + ahead config ∧
      (match issue.behind with
      | none => config.minSeqNumber < numberOf config issue.id ∧ numberOf config issue.id ≤ config.maxSeqNumber + 1
      | some turn => numberOf config issue.id = indexOf turn) ∧
      workerField config issue.id =
        if numberOf config issue.id = 2 ^ config.seqBitLength then (config.workerId + 1) % 2 ^ config.workerIdBitLength
        else config.workerId := by
  intro issue member
  have holds := runHolds fit positive room within ran
  obtain ⟨worker,early,tick,number⟩ := issuedDecodes fit room holds member
  exact ⟨worker,early,tick,number,issuedCarries fit room holds member⟩

theorem legibleBack : ∃ j, Machine.run (step process) (.initial process) backOnce = some j ∧
    ∀ issue ∈ j.issued, workerOf process issue.id = 23 ∧ tickOf process issue.id ≤ j.highest + 2000 := by
  obtain ⟨j,ran,_⟩ := backRuns
  refine ⟨j,ran,fun issue member => ?_⟩
  obtain ⟨worker,_,tick,_,_⟩ := legible processFit (by decide) processRoom backInRange ran issue member
  exact ⟨worker,tick⟩

/- Generators with workers of their own never give the same id. -/
theorem workersApart {other : Config} {j' : Journal} {calls calls' : List Readings} {limit' : Int}
    (fit : Fit config) (fit' : Fit other) (positive : 0 ≤ limit) (positive' : 0 ≤ limit')
    (room : Room config (limit + ahead config)) (room' : Room other (limit' + ahead other))
    (within : ∀ readings ∈ calls, InRange limit readings) (within' : ∀ readings ∈ calls', InRange limit' readings)
    (ran : Machine.run (step config) (.initial config) calls = some j)
    (ran' : Machine.run (step other) (.initial other) calls' = some j')
    (widths : other.workerIdBitLength = config.workerIdBitLength ∧ other.seqBitLength = config.seqBitLength)
    (different : other.workerId ≠ config.workerId) :
    ∀ issue ∈ j.issued, ∀ issue' ∈ j'.issued, issue.id ≠ issue'.id := by
  intro issue member issue' member' same
  have one := (issuedDecodes fit room (runHolds fit positive room within ran) member).1
  have two := (issuedDecodes fit' room' (runHolds fit' positive' room' within' ran') member').1
  unfold workerOf at one two
  rw [widths.1,widths.2,← same,one] at two
  exact different two.symm

theorem otherRuns : ∃ j, Machine.run (step (configure (.default 24))) (.initial (configure (.default 24))) backOnce = some j := ⟨_,rfl⟩

theorem workersApartBack : ∃ j j', Machine.run (step process) (.initial process) backOnce = some j ∧
    Machine.run (step (configure (.default 24))) (.initial (configure (.default 24))) backOnce = some j' ∧
    ∀ issue ∈ j.issued, ∀ issue' ∈ j'.issued, issue.id ≠ issue'.id := by
  obtain ⟨j,ran,_⟩ := backRuns
  obtain ⟨j',ran'⟩ := otherRuns
  have fit' : Fit (configure (.default 24)) := (defaultAccepted (by decide)).2
  have room' : Room (configure (.default 24)) (10 ^ 15 + ahead (configure (.default 24))) := by
    unfold Room
    decide
  exact ⟨j,j',ran,ran',workersApart processFit fit' (by decide) (by decide) processRoom room' backInRange backInRange ran ran'
    ⟨rfl,rfl⟩ (by decide)⟩

end Apixis.SnowFlake
