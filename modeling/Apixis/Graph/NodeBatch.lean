import Apixis.Graph.ParallelNode
import Apixis.Library.Cancellation
import Apixis.Library.Gather

/-! One batch on the event loop: a task for each node, with the deadline of the node,
inside it a task for each branch of a `ParallelNode`, and the task of `_execute_node`
that waits for the nodes. An action is at most what one of them runs between two awaits. -/
namespace Apixis.NodeBatch
open ApplyCommand ParallelNode
open Cancellation (Ended Scope)
open NodeGraph (StateDict copyState)

variable {V : Type}

/- One function, one for each branch, or an `execute` of another class. -/
inductive Shape where
  | regular
  | parallel (branches : Nat)
  | custom
  deriving DecidableEq, Repr

structure Job where
  name : String
  shape : Shape
  timeout : Option Node.Seconds
  deriving DecidableEq

/- How code has ended that a task awaits; `escaped` ends no task here. -/
abbrev Own (α : Type) := Ended Unit Raised α

abbrev Branches (V : Type) := Gather.State Raised (Command V)

structure Deadline where
  seconds : Node.Seconds
  scope : Scope
  deriving DecidableEq

/- What `_execute_one_node` keeps while the node executes. -/
structure Execution (V : Type) where
  input : StateDict V
  deadline : Option Deadline
  branches : Option (Branches V)
  deriving DecidableEq

inductive Stage (V : Type) where
  | created
  | running (execution : Execution V)
  | ended (branches : Option (Branches V))
  deriving DecidableEq

/- The task of a node, with the requests to cancel it. -/
structure Member (V : Type) where
  job : Job
  requests : Nat
  stage : Stage V
  deriving DecidableEq

structure State (V : Type) where
  outer : Gather.State Raised (Result V)
  members : List (Member V)
  deriving DecidableEq

inductive Action (V : Type) where
  /- The task of a node starts and copies the live state. -/
  | start (i : Nat) (state : StateDict V)
  | functionEnds (i : Nat) (how : Own (Returns V))
  | executeEnds (i : Nat) (how : Own (Result V))
  | branchEnds (i j : Nat) (how : Own (Returns V))
  | branchNotify (i : Nat)
  | branchWake (i : Nat)
  | expire (i : Nat)
  | notify
  | cancel
  | wake
  deriving DecidableEq

def promiseOf {α : Type} : Own α → Promise Raised α
  | .returned value => .result value
  | .raised error => .exception error
  | .cancelled _ => .cancelled
  | .escaped => .pending

/- `wrapped` of `_wrap_func`. -/
def wrapped {α β : Type} (normalise : α → Except Raised β) : Own α → Own β
  | .returned value => match normalise value with
      | .ok made => .returned made
      | .error error => .raised error
  | .raised error => .raised error
  | .cancelled why => .cancelled why
  | .escaped => .escaped

def commandResult (given : Returns V) : Except Raised (Result V) := (normaliseRegular given).map .command

/- What `ParallelNode.execute` makes of the end of its gathering. -/
def joined : Gather.Ending Raised (Command V) → Own (Result V)
  | .returned commands => .returned (.commands (commands.map some))
  | .failed (.raised error) => .raised error
  | .failed .cancelled => .cancelled ()

def Execution.cancel (x : Execution V) : Execution V :=
  {x with branches := x.branches.map (fun branches => (Gather.step branches .cancel).getD branches)}

def Member.cancel (m : Member V) : Member V :=
  match m.stage with
  | .created => {m with requests := m.requests + 1}
  | .running x => {m with requests := m.requests + 1, stage := .running x.cancel}
  | .ended _ => m

def Member.execution (m : Member V) : Option (Execution V) :=
  match m.stage with
  | .running x => some x
  | _ => none

/- The clause for `TimeoutError`. -/
def exceptTimeout {α : Type} (message : String) (expired : Bool) : Own α → Own α
  | .raised (.timeoutError own) => .raised (.timeoutError (if expired then message else own))
  | other => other

def isAsked {ε α : Type} (before after : List (Gather.Child ε α)) (i : Nat) : Bool :=
  match before[i]?,after[i]? with
  | some b, some a => b.asked < a.asked
  | _, _ => false

def ask {ε α : Type} (before after : List (Gather.Child ε α)) (members : List (Member V)) : List (Member V) :=
  members.mapIdx (fun i m => if isAsked before after i then m.cancel else m)

def State.put (s : State V) (i : Nat) (m : Member V) : State V := {s with members := s.members.set i m}

def State.close (s : State V) (i : Nat) (m : Member V) (branches : Option (Branches V)) (own : Own (Result V)) :
    Option (State V) := do
  let outer ← Gather.step s.outer (.finish i (promiseOf own))
  some ⟨outer,s.members.set i {m with stage := .ended branches}⟩

def State.wait (s : State V) (a : Gather.Action Raised (Result V)) : Option (State V) := do
  let outer ← Gather.step s.outer a
  some ⟨outer,ask s.outer.children outer.children s.members⟩

section Step
variable (text : Node.Seconds → String) (copyable : V → Bool) (keepRefKeys : List String)

def timedOut (job : Job) (seconds : Node.Seconds) : String :=
  "Graph node `" ++ job.name ++ "` timed out after " ++ text seconds ++ " seconds."

def leave {α : Type} (job : Job) (deadline : Option Deadline) (requests : Nat) (own : Own α) : Own α :=
  match deadline with
  | none => own
  | some ⟨seconds,scope⟩ =>
      exceptTimeout (timedOut text job seconds) scope.expiring (scope.leave (.timeoutError "") requests own).2

/- The first part of `_execute_one_node`. A task that has been cancelled before it starts
runs none of it. -/
def begin (m : Member V) (state : StateDict V) : Except (Own (Result V)) (Execution V) :=
  if 0 < m.requests then .error (.cancelled ())
  else match copyState copyable keepRefKeys state with
    | .error error => .error (.raised (.error error))
    | .ok input => .ok ⟨input,m.job.timeout.map (fun seconds => ⟨seconds,Scope.enter m.requests⟩),
        match m.job.shape with
        | .parallel k => some (Gather.initial k)
        | _ => none⟩

def step (s : State V) : Action V → Option (State V)
  | .start i state => do
      let m ← s.members[i]?
      match m.stage with
      | .created => match begin copyable keepRefKeys m state with
          | .error own => s.close i m none own
          | .ok x => some (s.put i {m with stage := .running x})
      | _ => none
  | .functionEnds i how => do
      let m ← s.members[i]?
      let x ← m.execution
      if m.job.shape = .regular then
        s.close i m none (leave text m.job x.deadline m.requests (wrapped commandResult how))
      else none
  | .executeEnds i how => do
      let m ← s.members[i]?
      let x ← m.execution
      if m.job.shape = .custom then s.close i m none (leave text m.job x.deadline m.requests how)
      else none
  | .branchEnds i j how => do
      let m ← s.members[i]?
      let x ← m.execution
      let branches ← x.branches
      let next ← Gather.step branches (.finish j (promiseOf (wrapped normaliseBranch how)))
      some (s.put i {m with stage := .running {x with branches := some next}})
  | .branchNotify i => do
      let m ← s.members[i]?
      let x ← m.execution
      let branches ← x.branches
      let next ← Gather.step branches .notify
      some (s.put i {m with stage := .running {x with branches := some next}})
  | .branchWake i => do
      let m ← s.members[i]?
      let x ← m.execution
      let branches ← x.branches
      let next ← Gather.step branches .wake
      match next.phase with
      | .ended how => s.close i m (some next) (leave text m.job x.deadline m.requests (joined how))
      | _ => some (s.put i {m with stage := .running {x with branches := some next}})
  | .expire i => do
      let m ← s.members[i]?
      let x ← m.execution
      let deadline ← x.deadline
      if deadline.scope.expiring then none
      else
        let expired : Deadline := {deadline with scope := {deadline.scope with expiring := true}}
        some (s.put i ({m with stage := .running {x with deadline := some expired}} : Member V).cancel)
  | .notify => s.wait .notify
  | .cancel => s.wait .cancel
  | .wake => s.wait .wake

end Step

def initial (jobs : List Job) : State V :=
  ⟨Gather.initial jobs.length,jobs.map (fun job => ⟨job,0,.created⟩)⟩

/- Code that a task runs ends cancelled only if the task has been asked to end. -/
def Polite (s : State V) : Action V → Prop
  | .functionEnds i how => how.isCancelled = true → ∃ m, s.members[i]? = some m ∧ 0 < m.requests
  | .executeEnds i how => how.isCancelled = true → ∃ m, s.members[i]? = some m ∧ 0 < m.requests
  | .branchEnds i j how => how.isCancelled = true → ∃ m x branches child, s.members[i]? = some m ∧
      m.execution = some x ∧ x.branches = some branches ∧ branches.children[j]? = some child ∧ 0 < child.asked
  | _ => True

def Gave (r : List (Action V)) (i j : Nat) (p : Promise Raised (Command V)) : Prop :=
  ∃ how, .branchEnds i j how ∈ r ∧ p = promiseOf (wrapped normaliseBranch how)

structure Inner (polite : Prop) (r : List (Action V)) (i k requests : Nat)
    (q : List (Gather.Action Raised (Command V))) (branches : Branches V) : Prop where
  ran : Machine.run Gather.step (Gather.initial k) q = some branches
  gave : ∀ j p, .finish j p ∈ q → Gave r i j p
  struck : .cancel ∈ q → 0 < requests
  polite : polite → Machine.Steps Gather.step Gather.Polite (Gather.initial k) q

/- A task is asked to end by the waiting task, and once more when its deadline expires. -/
def Timed (r : List (Action V)) (i asked : Nat) (job : Job) (requests : Nat) : Option Deadline → Prop
  | none => job.timeout = none ∧ requests = asked
  | some ⟨seconds,scope⟩ => job.timeout = some seconds ∧ scope.cancelling = 0 ∧
      (scope.expiring = true ↔ .expire i ∈ r) ∧ requests = asked + if scope.expiring then 1 else 0

inductive Gives (polite : Prop) (r : List (Action V)) (i : Nat) (job : Job) (requests : Nat) :
    Option (Branches V) → Own (Result V) → Prop where
  | function {how : Own (Returns V)} : job.shape = .regular → .functionEnds i how ∈ r →
      (polite → how.isCancelled = true → 0 < requests) →
      Gives polite r i job requests none (wrapped commandResult how)
  | execute {how : Own (Result V)} : job.shape = .custom → .executeEnds i how ∈ r →
      (polite → how.isCancelled = true → 0 < requests) → Gives polite r i job requests none how
  | branches {k : Nat} {q : List (Gather.Action Raised (Command V))} {branches : Branches V}
      {how : Gather.Ending Raised (Command V)} : job.shape = .parallel k → Inner polite r i k requests q branches →
      branches.phase = .ended how → Gives polite r i job requests (some branches) (joined how)

/- A parallel node that executes waits for its branches; other nodes have none. -/
def BranchesHold (polite : Prop) (r : List (Action V)) (i : Nat) (job : Job) (requests : Nat)
    (b : Option (Branches V)) : Prop :=
  match job.shape with
  | .parallel k => ∃ q branches, b = some branches ∧ Inner polite r i k requests q branches ∧
      ∀ how, branches.phase ≠ .ended how
  | _ => b = none

section Invariant
variable (text : Node.Seconds → String) (copyable : V → Bool) (keepRefKeys : List String)

inductive Past (polite : Prop) (r : List (Action V)) (i asked : Nat) (job : Job) (requests : Nat) :
    Option (Branches V) → Promise Raised (Result V) → Prop where
  | early : 0 < asked → Past polite r i asked job requests none .cancelled
  | uncopied {state : StateDict V} {error : PyError} : .start i state ∈ r →
      copyState copyable keepRefKeys state = .error error →
      Past polite r i asked job requests none (.exception (.error error))
  | left {deadline : Option Deadline} {branches : Option (Branches V)} {own : Own (Result V)} :
      Gives polite r i job requests branches own → Timed r i asked job requests deadline →
      Past polite r i asked job requests branches (promiseOf (leave text job deadline requests own))

structure Live (polite : Prop) (r : List (Action V)) (i asked : Nat) (m : Member V) (x : Execution V) : Prop where
  timed : Timed r i asked m.job m.requests x.deadline
  branches : BranchesHold polite r i m.job m.requests x.branches

def MemberHolds (polite : Prop) (r : List (Action V)) (i : Nat) (m : Member V)
    (child : Gather.Child Raised (Result V)) : Prop :=
  match m.stage with
  | .created => child.promise = .pending ∧ m.requests = child.asked ∧ .expire i ∉ r
  | .running x => child.promise = .pending ∧ Live polite r i child.asked m x
  | .ended branches => child.promise.done = true ∧
      Past text copyable keepRefKeys polite r i child.asked m.job m.requests branches child.promise

structure Holds (polite : Prop) (jobs : List Job) (r : List (Action V)) (s : State V) : Prop where
  planned : s.members.map Member.job = jobs
  outer : ∃ q, Machine.run Gather.step (Gather.initial jobs.length) q = some s.outer ∧
    (.cancel ∈ q → .cancel ∈ r) ∧ (polite → Machine.Steps Gather.step Gather.Polite (Gather.initial jobs.length) q)
  members : ∀ i m child, s.members[i]? = some m → s.outer.children[i]? = some child →
    MemberHolds text copyable keepRefKeys polite r i m child

end Invariant

variable {text : Node.Seconds → String} {copyable : V → Bool} {keepRefKeys : List String} {polite polite' : Prop}
  {jobs : List Job} {job : Job} {r : List (Action V)} {a : Action V} {s t : State V} {i k asked requests : Nat}
  {m m' : Member V} {x : Execution V} {child : Gather.Child Raised (Result V)} {branches : Branches V}
  {own : Own (Result V)} {deadline : Option Deadline} {q : List (Gather.Action Raised (Command V))}

theorem gaveKept {j : Nat} {p : Promise Raised (Command V)} (gave : Gave r i j p) : Gave (r ++ [a]) i j p := by
  obtain ⟨how,ended,same⟩ := gave
  exact ⟨how,List.mem_append_left _ ended,same⟩

theorem innerKept (weaker : polite' → polite) (inner : Inner polite r i k requests q branches) :
    Inner polite' (r ++ [a]) i k requests q branches :=
  ⟨inner.ran,fun j p member => gaveKept (inner.gave j p member),inner.struck,fun polite => inner.polite (weaker polite)⟩

theorem expireKept (other : a ≠ .expire i) : (.expire i ∈ r ++ [a] ↔ .expire i ∈ r) := by
  rw [List.mem_append,List.mem_singleton]
  exact or_iff_left (fun same => other same.symm)

theorem timedKept (other : a ≠ .expire i) (timed : Timed r i asked job requests deadline) :
    Timed (r ++ [a]) i asked job requests deadline := by
  cases deadline with
  | none => exact timed
  | some deadline =>
    obtain ⟨limit,entered,expired,count⟩ := timed
    exact ⟨limit,entered,expired.trans (expireKept other).symm,count⟩

theorem givesKept {ended : Option (Branches V)} (weaker : polite' → polite) (gives : Gives polite r i job requests ended own) :
    Gives polite' (r ++ [a]) i job requests ended own := by
  cases gives with
  | function shape given asked =>
    exact .function shape (List.mem_append_left _ given) (fun polite => asked (weaker polite))
  | execute shape given asked =>
    exact .execute shape (List.mem_append_left _ given) (fun polite => asked (weaker polite))
  | branches shape inner at_ => exact .branches shape (innerKept weaker inner) at_

theorem pastKept {ended : Option (Branches V)} {p : Promise Raised (Result V)} (weaker : polite' → polite)
    (other : a ≠ .expire i) (past : Past text copyable keepRefKeys polite r i asked job requests ended p) :
    Past text copyable keepRefKeys polite' (r ++ [a]) i asked job requests ended p := by
  cases past with
  | early struck => exact .early struck
  | uncopied started failed => exact .uncopied (List.mem_append_left _ started) failed
  | left gives timed => exact .left (givesKept weaker gives) (timedKept other timed)

theorem branchesKept {b : Option (Branches V)} (weaker : polite' → polite)
    (branches : BranchesHold polite r i job requests b) : BranchesHold polite' (r ++ [a]) i job requests b := by
  unfold BranchesHold at branches ⊢
  split at branches
  · obtain ⟨q,g,there,inner,more⟩ := branches
    exact ⟨q,g,there,innerKept weaker inner,more⟩
  · exact branches

theorem liveKept (weaker : polite' → polite) (other : a ≠ .expire i) (live : Live polite r i asked m x) :
    Live polite' (r ++ [a]) i asked m x :=
  ⟨timedKept other live.timed,branchesKept weaker live.branches⟩

theorem memberKept (weaker : polite' → polite) (other : a ≠ .expire i)
    (holds : MemberHolds text copyable keepRefKeys polite r i m child) :
    MemberHolds text copyable keepRefKeys polite' (r ++ [a]) i m child := by
  unfold MemberHolds at holds ⊢
  cases stage : m.stage with
  | created =>
    rw [stage] at holds
    exact ⟨holds.1,holds.2.1,fun expired => holds.2.2 ((expireKept other).mp expired)⟩
  | running x =>
    rw [stage] at holds
    exact ⟨holds.1,liveKept weaker other holds.2⟩
  | ended branches =>
    rw [stage] at holds
    exact ⟨holds.1,pastKept weaker other holds.2⟩

theorem promiseCancelled {α : Type} {own : Own α} : promiseOf own = .cancelled ↔ own.isCancelled = true := by
  cases own <;> simp [promiseOf,Ended.isCancelled]

theorem wrappedCancelled {α β : Type} (normalise : α → Except Raised β) (how : Own α) :
    (wrapped normalise how).isCancelled = how.isCancelled := by
  cases how with
  | returned value =>
    simp only [wrapped]
    cases normalise value <;> rfl
  | _ => rfl

/- Whoever ends cancelled out of the timeout scope has been asked to by another. -/
theorem leaveCancelled (timed : Timed r i asked job requests deadline)
    (left : (leave text job deadline requests own).isCancelled = true) :
    own.isCancelled = true ∧ (0 < requests → 0 < asked) := by
  cases deadline with
  | none => exact ⟨left,fun positive => timed.2 ▸ positive⟩
  | some deadline =>
    obtain ⟨seconds,scope⟩ := deadline
    obtain ⟨_,entered,_,count⟩ := timed
    simp only [leave] at left
    cases late : scope.expiring with
    | false =>
      rw [late] at count
      simp only [Scope.leave,late] at left
      refine ⟨?_,fun positive => by simp at count; omega⟩
      cases own with
      | raised error => cases error <;> cases left
      | _ => exact left
    | true =>
      rw [late] at count
      simp only [Scope.leave,late,if_true,entered] at left
      cases own with
      | returned value => cases left
      | raised error => cases error <;> cases left
      | escaped => cases left
      | cancelled why =>
        refine ⟨rfl,fun _ => ?_⟩
        simp only at left
        split at left
        · cases left
        · simp at count
          omega

theorem givesAsked {ended : Option (Branches V)} (gives : Gives polite r i job requests ended own) (well : polite)
    (struck : own.isCancelled = true) : 0 < requests := by
  cases gives with
  | function _ _ asked => exact asked well (by rwa [wrappedCancelled] at struck)
  | execute _ _ asked => exact asked well struck
  | @branches k q branches how _ inner at_ =>
    by_cases calm : Gather.Action.cancel ∈ q
    · exact inner.struck calm
    · have fine := Gather.politeEnds calm (inner.polite well) inner.ran at_
      cases how with
      | returned commands => cases struck
      | failed cause =>
        cases cause with
        | raised error => cases struck
        | cancelled => exact absurd rfl fine

theorem pastAsked {ended : Option (Branches V)} {p : Promise Raised (Result V)}
    (past : Past text copyable keepRefKeys polite r i asked job requests ended p) (well : polite) (struck : p = .cancelled) :
    0 < asked := by
  cases past with
  | early early => exact early
  | uncopied _ _ => cases struck
  | left gives timed =>
    obtain ⟨own,outside⟩ := leaveCancelled timed (promiseCancelled.mp struck)
    exact outside (givesAsked gives well own)

section Steps
variable (weaker : polite' → polite)
include weaker

theorem closeHolds {ended : Option (Branches V)} (holds : Holds text copyable keepRefKeys polite jobs r s)
    (found : s.members[i]? = some m) (other : ∀ k, a ≠ .expire k)
    (past : ∀ child, s.outer.children[i]? = some child →
      Past text copyable keepRefKeys polite' (r ++ [a]) i child.asked m.job m.requests ended (promiseOf own))
    (taken : s.close i m ended own = some t) : Holds text copyable keepRefKeys polite' jobs (r ++ [a]) t := by
  simp only [State.close,bind,Option.bind_eq_some_iff] at taken
  obtain ⟨outer,finished,taken⟩ := taken
  cases taken
  obtain ⟨child,there,_,done,children⟩ := Gather.finishCases finished
  obtain ⟨q,ran,struck,well⟩ := holds.outer
  refine ⟨?_,⟨q ++ [.finish i (promiseOf own)],Machine.runSnoc.mpr ⟨_,ran,finished⟩,?_,?_⟩,?_⟩
  · have same : ({m with stage := .ended ended} : Member V).job = m.job := rfl
    exact (Slots.mapSet Member.job found same).trans holds.planned
  · intro member
    rcases List.mem_append.mp member with old | new
    · exact List.mem_append_left _ (struck old)
    · cases List.mem_singleton.mp new
  · intro polite
    refine (Machine.stepsAppend ran).mpr ⟨well (weaker polite),?_,fun _ _ => trivial⟩
    intro j same
    injection same with place cancelled
    subst place
    exact ⟨child,there,pastAsked (past child there) polite cancelled⟩
  · intro j m' child' at_ beside
    rw [children] at beside
    rcases Slots.setCases at_ with ⟨rfl,rfl⟩ | ⟨different,old⟩
    · rw [Slots.setSame there] at beside
      cases Option.some.inj beside
      exact ⟨done,past child there⟩
    · rw [Slots.setOther different] at beside
      exact memberKept weaker (other j) (holds.members j m' child' old beside)

theorem putHolds (holds : Holds text copyable keepRefKeys polite jobs r s) (found : s.members[i]? = some m)
    (other : ∀ j, j ≠ i → a ≠ .expire j) (same : m'.job = m.job)
    (holds' : ∀ child, s.outer.children[i]? = some child →
      MemberHolds text copyable keepRefKeys polite' (r ++ [a]) i m' child) :
    Holds text copyable keepRefKeys polite' jobs (r ++ [a]) (s.put i m') := by
  obtain ⟨q,ran,struck,well⟩ := holds.outer
  refine ⟨?_,⟨q,ran,fun member => List.mem_append_left _ (struck member),fun polite => well (weaker polite)⟩,?_⟩
  · exact (Slots.mapSet Member.job found same).trans holds.planned
  · intro j m'' child at_ beside
    rcases Slots.setCases at_ with ⟨rfl,rfl⟩ | ⟨different,old⟩
    · exact holds' child beside
    · exact memberKept weaker (other j (Ne.symm different)) (holds.members j m'' child old beside)

end Steps

theorem waitingDone (holds : MemberHolds text copyable keepRefKeys polite r i m child) :
    child.done = true ↔ ∃ branches, m.stage = .ended branches := by
  unfold MemberHolds at holds
  cases stage : m.stage with
  | created =>
    rw [stage] at holds
    simp [Gather.Child.done,holds.1,Promise.done]
  | running x =>
    rw [stage] at holds
    simp [Gather.Child.done,holds.1,Promise.done]
  | ended branches =>
    rw [stage] at holds
    exact ⟨fun _ => ⟨branches,rfl⟩,fun _ => holds.1⟩

theorem innerCancel (inner : Inner polite r i k requests q branches) (more : ∀ how, branches.phase ≠ .ended how) :
    ∃ next, (Gather.step branches .cancel).getD branches = next ∧ (∀ how, next.phase ≠ .ended how) ∧
      Inner polite r i k (requests + 1) (q ++ [.cancel]) next := by
  obtain ⟨next,taken,open_⟩ := Gather.cancelTaken more
  refine ⟨next,by rw [taken]; rfl,open_,Machine.runSnoc.mpr ⟨_,inner.ran,taken⟩,?_,fun _ => Nat.succ_pos _,?_⟩
  · intro j p member
    rcases List.mem_append.mp member with old | new
    · exact inner.gave j p old
    · cases List.mem_singleton.mp new
  · intro well
    refine (Machine.stepsAppend inner.ran).mpr ⟨inner.polite well,?_,fun _ _ => trivial⟩
    intro j same
    cases same

theorem cancelBranches (branches : BranchesHold polite r i job requests x.branches) :
    BranchesHold polite r i job (requests + 1) x.cancel.branches := by
  unfold BranchesHold at branches ⊢
  split at branches
  · obtain ⟨q,g,there,inner,more⟩ := branches
    obtain ⟨next,taken,open_,inner⟩ := innerCancel inner more
    refine ⟨_,next,?_,inner,open_⟩
    rw [Execution.cancel,there,Option.map_some,taken]
  · rw [Execution.cancel,branches]
    rfl

theorem askHolds (holds : MemberHolds text copyable keepRefKeys polite r i m child) :
    MemberHolds text copyable keepRefKeys polite r i (if decide (child.asked < child.ask.asked) then m.cancel else m) child.ask := by
  have stage := waitingDone holds
  by_cases done : child.done = true
  · obtain ⟨branches,ended⟩ := stage.mp done
    rw [show child.ask = child from by rw [Gather.Child.ask,if_pos done]]
    simpa using holds
  · have asked : child.ask = {child with asked := child.asked + 1} := by
      rw [Gather.Child.ask,if_neg (by simpa using done)]
    rw [asked]
    simp only [Nat.lt_succ_self,decide_true,if_true]
    unfold MemberHolds at holds
    cases at_ : m.stage with
    | created =>
      rw [at_] at holds
      simp only [MemberHolds,Member.cancel,at_]
      exact ⟨holds.1,by rw [holds.2.1],holds.2.2⟩
    | running x =>
      rw [at_] at holds
      obtain ⟨pending,live⟩ := holds
      simp only [MemberHolds,Member.cancel,at_]
      refine ⟨pending,?_,cancelBranches live.branches⟩
      have timed := live.timed
      show Timed r i (child.asked + 1) m.job (m.requests + 1) x.deadline
      cases deadline : x.deadline with
      | none =>
        rw [deadline] at timed
        exact ⟨timed.1,by rw [timed.2]⟩
      | some d =>
        rw [deadline] at timed
        obtain ⟨limit,entered,expired,count⟩ := timed
        exact ⟨limit,entered,expired,by rw [count]; omega⟩
    | ended branches => exact absurd (stage.mpr ⟨branches,at_⟩) done

theorem cancelJob (m : Member V) : m.cancel.job = m.job := by
  unfold Member.cancel
  split <;> rfl

theorem isAskedSome {before after : List (Gather.Child Raised (Result V))} {child' : Gather.Child Raised (Result V)}
    (old : before[i]? = some child) (new : after[i]? = some child') :
    isAsked before after i = decide (child.asked < child'.asked) := by
  rw [isAsked,old,new]

theorem waitHolds {b : Gather.Action Raised (Result V)} (weaker : polite' → polite)
    (holds : Holds text copyable keepRefKeys polite jobs r s) (quiet : ∀ k, a ≠ .expire k)
    (other : ∀ i how, b ≠ .finish i how) (struck : b = .cancel → a = .cancel) (taken : s.wait b = some t) :
    Holds text copyable keepRefKeys polite' jobs (r ++ [a]) t := by
  simp only [State.wait,bind,Option.bind_eq_some_iff] at taken
  obtain ⟨outer,waited,taken⟩ := taken
  cases taken
  obtain ⟨q,ran,asked,well⟩ := holds.outer
  refine ⟨?_,⟨q ++ [b],Machine.runSnoc.mpr ⟨_,ran,waited⟩,?_,?_⟩,?_⟩
  · rw [← holds.planned]
    refine List.ext_getElem? ?_
    intro i
    rw [List.getElem?_map,ask,List.getElem?_mapIdx,List.getElem?_map]
    cases s.members[i]? with
    | none => rfl
    | some m =>
      simp only [Option.map_some]
      split
      · rw [cancelJob]
      · rfl
  · intro member
    rcases List.mem_append.mp member with old | new
    · exact List.mem_append_left _ (asked old)
    · rw [struck (List.mem_singleton.mp new).symm]
      exact List.mem_append_right _ List.mem_cons_self
  · intro polite
    refine (Machine.stepsAppend ran).mpr ⟨well (weaker polite),?_,fun _ _ => trivial⟩
    intro j same
    exact absurd same (other j .cancelled)
  · intro i m child at_ beside
    rw [ask,List.getElem?_mapIdx] at at_
    obtain ⟨m,old,rfl⟩ := Option.map_eq_some_iff.mp at_
    rcases Gather.askCases other waited with same | same
    · rw [same] at beside ⊢
      rw [isAskedSome beside beside]
      simpa using memberKept weaker (quiet i) (holds.members i m child old beside)
    · rw [same] at beside ⊢
      rw [List.getElem?_map] at beside
      obtain ⟨child,before,rfl⟩ := Option.map_eq_some_iff.mp beside
      rw [isAskedSome before (by rw [List.getElem?_map,before]; rfl)]
      exact askHolds (memberKept weaker (quiet i) (holds.members i m child old before))

theorem runningHolds (holds : MemberHolds text copyable keepRefKeys polite r i m child) (at_ : m.execution = some x) :
    m.stage = .running x ∧ child.promise = .pending ∧ Live polite r i child.asked m x := by
  unfold Member.execution at at_
  split at at_
  · rename_i y stage
    cases at_
    unfold MemberHolds at holds
    rw [stage] at holds
    exact ⟨stage,holds.1,holds.2⟩
  · cases at_

theorem liveBranches (live : Live polite r i asked m x) (there : x.branches = some branches) :
    ∃ k q, m.job.shape = .parallel k ∧ Inner polite r i k m.requests q branches ∧ ∀ how, branches.phase ≠ .ended how := by
  have inner := live.branches
  unfold BranchesHold at inner
  split at inner
  · rename_i k shape
    obtain ⟨q,own,found,inner,more⟩ := inner
    cases Option.some.inj (there.symm.trans found)
    exact ⟨k,q,shape,inner,more⟩
  · rw [there] at inner
    cases inner

theorem innerStep {b : Gather.Action Raised (Command V)} {next : Branches V} (inner : Inner polite r i k requests q branches)
    (weaker : polite' → polite) (gave : ∀ j p, b = .finish j p → Gave (r ++ [a]) i j p) (other : b ≠ .cancel)
    (well : polite' → Gather.Polite branches b) (taken : Gather.step branches b = some next) :
    Inner polite' (r ++ [a]) i k requests (q ++ [b]) next := by
  refine ⟨Machine.runSnoc.mpr ⟨_,inner.ran,taken⟩,?_,?_,?_⟩
  · intro j p member
    rcases List.mem_append.mp member with old | new
    · exact gaveKept (inner.gave j p old)
    · exact gave j p (List.mem_singleton.mp new).symm
  · intro member
    rcases List.mem_append.mp member with old | new
    · exact inner.struck old
    · exact absurd (List.mem_singleton.mp new).symm other
  · intro polite
    exact (Machine.stepsAppend inner.ran).mpr ⟨inner.polite (weaker polite),well polite,fun _ _ => trivial⟩

theorem branchPut {b : Gather.Action Raised (Command V)} {next : Branches V} (weaker : polite' → polite)
    (holds : Holds text copyable keepRefKeys polite jobs r s) (found : s.members[i]? = some m)
    (at_ : m.execution = some x) (there : x.branches = some branches) (quiet : ∀ k, a ≠ .expire k)
    (gave : ∀ j p, b = .finish j p → Gave (r ++ [a]) i j p) (other : b ≠ .cancel)
    (well : polite' → Gather.Polite branches b) (taken : Gather.step branches b = some next)
    (more : (∀ how, branches.phase ≠ .ended how) → ∀ how, next.phase ≠ .ended how) :
    Holds text copyable keepRefKeys polite' jobs (r ++ [a])
      (s.put i {m with stage := .running {x with branches := some next}}) := by
  refine putHolds weaker holds found (fun j _ => quiet j) (by rfl) ?_
  intro child beside
  obtain ⟨_,pending,live⟩ := runningHolds (holds.members i m child found beside) at_
  obtain ⟨k,q,shape,inner,open_⟩ := liveBranches live there
  refine ⟨pending,timedKept (quiet i) live.timed,?_⟩
  simp only [BranchesHold,shape]
  exact ⟨_,next,rfl,innerStep inner weaker gave other well taken,more open_⟩

theorem leaveHolds {ended : Option (Branches V)} (weaker : polite' → polite)
    (holds : Holds text copyable keepRefKeys polite jobs r s) (found : s.members[i]? = some m)
    (at_ : m.execution = some x) (quiet : ∀ k, a ≠ .expire k)
    (gives : ∀ child, s.outer.children[i]? = some child → Live polite r i child.asked m x →
      Gives polite' (r ++ [a]) i m.job m.requests ended own)
    (taken : s.close i m ended (leave text m.job x.deadline m.requests own) = some t) :
    Holds text copyable keepRefKeys polite' jobs (r ++ [a]) t := by
  refine closeHolds weaker holds found quiet ?_ taken
  intro child beside
  obtain ⟨_,_,live⟩ := runningHolds (holds.members i m child found beside) at_
  exact .left (gives child beside live) (timedKept (quiet i) live.timed)

theorem startHolds {state : StateDict V} (weaker : polite' → polite)
    (holds : Holds text copyable keepRefKeys polite jobs r s)
    (taken : step text copyable keepRefKeys s (.start i state) = some t) :
    Holds text copyable keepRefKeys polite' jobs (r ++ [.start i state]) t := by
  simp only [step,bind,Option.bind_eq_some_iff] at taken
  obtain ⟨m,found,taken⟩ := taken
  have quiet : ∀ k, Action.start i state ≠ .expire k := by simp
  have here : .start i state ∈ r ++ [.start i state] := List.mem_append_right _ List.mem_cons_self
  split at taken
  · rename_i stage
    have known : ∀ child, s.outer.children[i]? = some child →
        child.promise = .pending ∧ m.requests = child.asked ∧ .expire i ∉ r := by
      intro child beside
      have own := holds.members i m child found beside
      rwa [MemberHolds,stage] at own
    unfold begin at taken
    split at taken
    · rename_i own begun
      split at begun
      · rename_i struck
        cases begun
        refine closeHolds weaker holds found quiet (fun child beside => ?_) taken
        rw [(known child beside).2.1] at struck
        exact .early struck
      · split at begun
        · rename_i error failed
          cases begun
          exact closeHolds weaker holds found quiet (fun child beside => .uncopied here failed) taken
        · cases begun
    · rename_i x begun
      split at begun
      · cases begun
      · rename_i calm
        split at begun
        · cases begun
        · rename_i input copied
          cases begun
          cases taken
          refine putHolds weaker holds found (fun j _ => quiet j) (by rfl) ?_
          intro child beside
          obtain ⟨pending,count,early⟩ := known child beside
          have zero : m.requests = 0 := by omega
          refine ⟨pending,?_,?_⟩
          · cases limit : m.job.timeout with
            | none => exact ⟨limit,count⟩
            | some seconds =>
              refine ⟨limit,zero,?_,count⟩
              simp only [Scope.enter,Bool.false_eq_true,false_iff]
              intro expired
              exact early ((expireKept (quiet i)).mp expired)
          · unfold BranchesHold
            cases shape : m.job.shape with
            | regular => rfl
            | custom => rfl
            | parallel k =>
              refine ⟨[],Gather.initial k,rfl,⟨rfl,by simp,by simp,fun _ => trivial⟩,?_⟩
              intro how
              simp [Gather.initial]
  · cases taken

theorem expireHolds (weaker : polite' → polite) (holds : Holds text copyable keepRefKeys polite jobs r s)
    (taken : step text copyable keepRefKeys s (.expire i) = some t) :
    Holds text copyable keepRefKeys polite' jobs (r ++ [.expire i]) t := by
  simp only [step,bind,Option.bind_eq_some_iff] at taken
  obtain ⟨m,found,x,at_,d,limited,taken⟩ := taken
  split at taken
  · cases taken
  · rename_i early
    cases taken
    refine putHolds weaker holds found (fun j different => by simp [Ne.symm different]) (cancelJob _) ?_
    intro child beside
    obtain ⟨_,pending,live⟩ := runningHolds (holds.members i m child found beside) at_
    obtain ⟨limit,entered,expired,count⟩ : Timed r i child.asked m.job m.requests (some d) := limited ▸ live.timed
    refine ⟨pending,⟨limit,entered,?_,?_⟩,branchesKept weaker (cancelBranches live.branches)⟩
    · simp
    · show m.requests + 1 = child.asked + 1
      rw [count]
      simp [early]

theorem stepHolds (weaker : polite' → polite) (well : polite' → Polite s a)
    (holds : Holds text copyable keepRefKeys polite jobs r s)
    (taken : step text copyable keepRefKeys s a = some t) :
    Holds text copyable keepRefKeys polite' jobs (r ++ [a]) t := by
  have here : a ∈ r ++ [a] := List.mem_append_right _ List.mem_cons_self
  cases a with
  | start i state => exact startHolds weaker holds taken
  | functionEnds i how =>
    simp only [step,bind,Option.bind_eq_some_iff] at taken
    obtain ⟨m,found,x,at_,taken⟩ := taken
    split at taken
    · rename_i shape
      refine leaveHolds weaker holds found at_ (by simp) (fun child beside live => ?_) taken
      refine .function shape here (fun polite struck => ?_)
      obtain ⟨own,same,asked⟩ := well polite struck
      cases Option.some.inj (found.symm.trans same)
      exact asked
    · cases taken
  | executeEnds i how =>
    simp only [step,bind,Option.bind_eq_some_iff] at taken
    obtain ⟨m,found,x,at_,taken⟩ := taken
    split at taken
    · rename_i shape
      refine leaveHolds weaker holds found at_ (by simp) (fun child beside live => ?_) taken
      refine .execute shape here (fun polite struck => ?_)
      obtain ⟨own,same,asked⟩ := well polite struck
      cases Option.some.inj (found.symm.trans same)
      exact asked
    · cases taken
  | branchEnds i j how =>
    simp only [step,bind,Option.bind_eq_some_iff] at taken
    obtain ⟨m,found,x,at_,branches,there,next,finished,taken⟩ := taken
    cases taken
    refine branchPut weaker holds found at_ there (by simp) ?_ (by simp) ?_ finished
      (fun open_ => by rwa [Gather.phaseKept (by simp) finished])
    · intro k p same
      cases same
      exact ⟨how,here,rfl⟩
    · intro polite k same
      injection same with place cancelled
      subst place
      obtain ⟨m',x',branches',child,found',at',there',beside,asked⟩ :=
        well polite (by rw [← wrappedCancelled normaliseBranch]; exact promiseCancelled.mp cancelled)
      cases Option.some.inj (found.symm.trans found')
      cases Option.some.inj (at_.symm.trans at')
      cases Option.some.inj (there.symm.trans there')
      exact ⟨child,beside,asked⟩
  | branchNotify i =>
    simp only [step,bind,Option.bind_eq_some_iff] at taken
    obtain ⟨m,found,x,at_,branches,there,next,told,taken⟩ := taken
    cases taken
    exact branchPut weaker holds found at_ there (by simp) (by simp) (by simp) (fun _ k same => by cases same) told
      (fun open_ => by rwa [Gather.phaseKept (by simp) told])
  | branchWake i =>
    simp only [step,bind,Option.bind_eq_some_iff] at taken
    obtain ⟨m,found,x,at_,branches,there,next,woken,taken⟩ := taken
    split at taken
    · rename_i how ended
      refine leaveHolds weaker holds found at_ (by simp) (fun child beside live => ?_) taken
      obtain ⟨k,q,shape,inner,_⟩ := liveBranches live there
      exact .branches shape (innerStep inner weaker (by simp) (by simp) (fun _ k same => by cases same) woken) ended
    · rename_i more
      cases taken
      exact branchPut weaker holds found at_ there (by simp) (by simp) (by simp) (fun _ k same => by cases same) woken
        (fun _ how at_ => more how at_)
  | expire i => exact expireHolds weaker holds taken
  | notify => exact waitHolds weaker holds (by simp) (by simp) (by simp) taken
  | cancel => exact waitHolds weaker holds (by simp) (by simp) (by simp) taken
  | wake => exact waitHolds weaker holds (by simp) (by simp) (by simp) taken

/- Every action of the run that ends code as cancelled ends code that has been asked to. -/
def PoliteRun (text : Node.Seconds → String) (copyable : V → Bool) (keepRefKeys : List String) (jobs : List Job)
    (r : List (Action V)) : Prop :=
  Machine.Steps (step text copyable keepRefKeys) Polite (initial jobs) r

theorem initialHolds : Holds text copyable keepRefKeys polite jobs [] (initial jobs : State V) := by
  refine ⟨?_,⟨[],rfl,by simp,fun _ => trivial⟩,?_⟩
  · exact List.map_map.trans (List.map_id jobs)
  · intro i m child found beside
    simp only [initial,List.getElem?_map] at found
    obtain ⟨job,_,rfl⟩ := Option.map_eq_some_iff.mp found
    rw [List.eq_of_mem_replicate (List.mem_of_getElem? beside)]
    exact ⟨rfl,rfl,by simp⟩

theorem runHolds (ran : Machine.run (step text copyable keepRefKeys) (initial jobs) r = some s) :
    Holds text copyable keepRefKeys (PoliteRun text copyable keepRefKeys jobs r) jobs r s := by
  refine Machine.history (P := fun r s => Holds text copyable keepRefKeys (PoliteRun text copyable keepRefKeys jobs r) jobs r s)
    initialHolds ?_ ran
  intro r m a t before holds taken
  exact stepHolds (fun well => (Machine.stepsSnoc well before).1) (fun well => (Machine.stepsSnoc well before).2) holds taken

end Apixis.NodeBatch
