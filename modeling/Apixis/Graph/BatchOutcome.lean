import Apixis.Graph.BatchDraining

/-! How a batch ends: with nothing left running, with the results in the order of its
nodes and of their branches whatever ended first, or with a failure that somebody has
caused. -/
namespace Apixis.NodeBatch
open ApplyCommand ParallelNode
open Cancellation (Ended Scope)
open NodeGraph (StateDict copyState)

variable {V : Type} {text : Node.Seconds → String} {copyable : V → Bool} {keepRefKeys : List String} {polite : Prop}
  {jobs : List Job} {job : Job} {r : List (Action V)} {s t : State V} {i k asked requests : Nat} {m : Member V}
  {x : Execution V} {branches : Branches V} {own : Own (Result V)} {how : Gather.Ending Raised (Result V)}
  {deadline : Option Deadline} {q : List (Gather.Action Raised (Command V))} {ended : Option (Branches V)}
  {p : Promise Raised (Result V)}

section Sample

def lateRun : List (Action Nat) := [.start 0 .empty,.start 1 .empty,.expire 0,.functionEnds 0 (.cancelled ())]
def lateRest : List (Action Nat) := [.notify,.wake,.branchEnds 1 0 (.cancelled ()),.branchEnds 1 1 (gave 2),
  .branchNotify 1,.branchNotify 1,.branchWake 1,.notify,.wake]

def fetchResults : List (Result Nat) :=
  [.command ⟨some (Dict.empty.set "n" (.value 0)),.none⟩,
    .commands [some ⟨some (Dict.empty.set "n" (.value 1)),.none⟩,some ⟨some (Dict.empty.set "n" (.value 2)),.none⟩]]

theorem fetchEnds : ∃ s, Machine.run fetchStep (initial fetchJobs) fetchRun = some s ∧
    s.outer.phase = .ended (.returned fetchResults) := ⟨_,rfl,rfl⟩

def lateError : Raised := .timeoutError "Graph node `fetch` timed out after 5 seconds."

theorem lateFails : ∃ s child other, Machine.run fetchStep (initial fetchJobs) lateRun = some s ∧
    s.outer.children = [child,other] ∧ child.promise = .exception lateError ∧ other.promise = .pending ∧
    ∃ m, s.members[0]? = some m ∧ m.job.name = "fetch" ∧ m.job.timeout = some ⟨5,by decide⟩ :=
  ⟨_,_,_,rfl,rfl,rfl,rfl,_,rfl,rfl,rfl⟩

theorem lateEnds : ∃ s, Machine.run fetchStep (initial fetchJobs) (lateRun ++ lateRest) = some s ∧
    s.outer.phase = .ended (.failed (.raised lateError)) := ⟨_,rfl,rfl⟩

end Sample

theorem pastBranches (past : Past text copyable keepRefKeys polite r i asked job requests ended p) :
    ∀ branches ∈ ended, Gather.AllDone branches.children := by
  intro branches member
  cases past with
  | early _ => cases member
  | uncopied _ _ => cases member
  | left gives _ =>
    cases gives with
    | function _ _ _ => cases member
    | execute _ _ _ => cases member
    | branches _ inner at_ =>
      cases member
      exact Gather.endedDone (Gather.runHolds inner.ran) at_

/- Once the waiting task goes on its way, no task of a node runs and no task of a branch. -/
theorem nothingLeft (ran : Machine.run (step text copyable keepRefKeys) (initial jobs) r = some s)
    (at_ : s.outer.phase = .ended how) :
    ∀ m ∈ s.members, ∃ ended, m.stage = .ended ended ∧ ∀ branches ∈ ended, ∀ child ∈ branches.children, child.done = true := by
  intro m member
  have holds := runHolds ran
  obtain ⟨i,found⟩ := List.getElem?_of_mem member
  obtain ⟨_,child,beside,own⟩ := memberOf holds found
  obtain ⟨q,outer,_,_⟩ := holds.outer
  have done := Gather.endedDone (Gather.runHolds outer) at_ child (List.mem_of_getElem? beside)
  obtain ⟨ended,stage⟩ := (waitingDone own).mp done
  refine ⟨ended,stage,?_⟩
  rw [MemberHolds,stage] at own
  exact pastBranches own.2

theorem nothingLeftFetch : ∃ s, Machine.run fetchStep (initial fetchJobs) fetchRun = some s ∧
    ∀ m ∈ s.members, ∃ ended, m.stage = .ended ended ∧
      ∀ branches ∈ ended, ∀ child ∈ branches.children, child.done = true := by
  obtain ⟨s,ran,at_⟩ := fetchEnds
  exact ⟨s,ran,nothingLeft ran at_⟩

/- What the code of every node and of every branch does when it is left alone. -/
structure Answers (V : Type) where
  function : Nat → Own (Returns V)
  execute : Nat → Own (Result V)
  branch : Nat → Nat → Own (Returns V)

def valueOf {α : Type} : Own α → Option α
  | .returned value => some value
  | _ => none

/- The values of `f` from `start` on, one after the other, if there are all of them. -/
def collectFrom {α : Type} (f : Nat → Option α) (start : Nat) : Nat → Option (List α)
  | 0 => some []
  | count + 1 => do
      let value ← f start
      let rest ← collectFrom f (start + 1) count
      return value :: rest

/- One node on its own: its function, or one branch after the other. -/
def plainNode (answers : Answers V) (i : Nat) (job : Job) : Option (Result V) :=
  match job.shape with
  | .regular => valueOf (wrapped commandResult (answers.function i))
  | .custom => valueOf (answers.execute i)
  | .parallel k => (collectFrom (fun j => valueOf (wrapped normaliseBranch (answers.branch i j))) 0 k).map
      (fun commands => .commands (commands.map some))

def plain (answers : Answers V) (jobs : List Job) : Option (List (Result V)) :=
  collectFrom (fun i => (jobs[i]?).bind (plainNode answers i)) 0 jobs.length

/- Code that ends as it does when left alone, unless it ends cancelled. -/
def Follows (answers : Answers V) : Action V → Prop
  | .functionEnds i how => how = answers.function i ∨ how.isCancelled = true
  | .executeEnds i how => how = answers.execute i ∨ how.isCancelled = true
  | .branchEnds i j how => how = answers.branch i j ∨ how.isCancelled = true
  | _ => True

theorem collectAll {α : Type} {f : Nat → Option α} {start count : Nat} {values : List α} :
    collectFrom f start count = some values ↔
      values.length = count ∧ ∀ j value, values[j]? = some value → f (start + j) = some value := by
  induction count generalizing start values with
  | zero =>
    rw [collectFrom,Option.some.injEq]
    constructor
    · rintro rfl
      simp
    · rintro ⟨none_,_⟩
      exact (List.length_eq_zero_iff.mp none_).symm
  | succ count ih =>
    simp only [collectFrom,bind,Option.bind_eq_some_iff]
    constructor
    · rintro ⟨first,here,rest,later,made⟩
      cases made
      obtain ⟨size,each⟩ := ih.mp later
      refine ⟨by simp [size],?_⟩
      intro j value found
      cases j with
      | zero =>
        cases Option.some.inj found
        exact here
      | succ j =>
        rw [← each j value (by simpa using found)]
        congr 1
        omega
    · rintro ⟨size,each⟩
      cases values with
      | nil => simp at size
      | cons first rest =>
        refine ⟨first,each 0 first rfl,rest,ih.mpr ⟨by simpa using size,?_⟩,rfl⟩
        intro j value found
        rw [← each (j + 1) value (by simpa using found)]
        congr 1
        omega

theorem promiseResult {α : Type} {own : Own α} {value : α} : promiseOf own = .result value ↔ own = .returned value := by
  cases own <;> simp [promiseOf]

theorem promiseException {α : Type} {own : Own α} {error : Raised} : promiseOf own = .exception error ↔ own = .raised error := by
  cases own <;> simp [promiseOf]

theorem leaveReturned {value : Result V} (left : leave text job deadline requests own = .returned value) : own = .returned value := by
  cases deadline with
  | none => exact left
  | some deadline =>
    obtain ⟨seconds,scope⟩ := deadline
    simp only [leave,Scope.leave] at left
    split at left
    · cases own with
      | returned given => exact left
      | raised error => cases error <;> cases left
      | escaped => cases left
      | cancelled why =>
        simp only at left
        split at left <;> cases left
    · cases own with
      | returned given => exact left
      | raised error => cases error <;> cases left
      | escaped => cases left
      | cancelled why => cases left

/- A deadline that has not expired leaves no trace. -/
theorem leaveEarly (timed : Timed r i asked job requests deadline) (early : .expire i ∉ r) :
    leave text job deadline requests own = own := by
  cases deadline with
  | none => rfl
  | some deadline =>
    obtain ⟨seconds,scope⟩ := deadline
    obtain ⟨_,_,expired,_⟩ := timed
    have late : scope.expiring = false := by
      rw [Bool.eq_false_iff]
      exact fun late => early (expired.mp late)
    simp only [leave,Scope.leave,late]
    cases own with
    | raised error => cases error <;> rfl
    | _ => rfl

section Plain
variable {answers : Answers V}

theorem wrappedFollows {α β : Type} {normalise : α → Except Raised β} {how answer : Own α} (follows : how = answer ∨ how.isCancelled = true)
    (alive : (wrapped normalise how).isCancelled = false) : wrapped normalise how = wrapped normalise answer := by
  rcases follows with rfl | struck
  · rfl
  · rw [wrappedCancelled,struck] at alive
    cases alive

theorem givesPlain {result : Result V} (follows : ∀ a ∈ r, Follows answers a)
    (gives : Gives polite r i job requests ended own) (returned : own = .returned result) :
    plainNode answers i job = some result := by
  cases gives with
  | function shape given _ =>
    rw [wrappedFollows (follows _ given) (by rw [returned]; rfl)] at returned
    simp only [plainNode,shape,returned,valueOf]
  | execute shape given _ =>
    rcases follows _ given with answer | struck
    · simp only [plainNode,shape,← answer,returned,valueOf]
    · rw [returned] at struck
      cases struck
  | @branches k q branches how shape inner at_ =>
    have all := (Gather.endedAll inner.ran at_).2
    cases how with
    | failed cause => cases cause <;> cases returned
    | returned commands =>
      cases returned
      have collected : collectFrom (fun j => valueOf (wrapped normaliseBranch (answers.branch i j))) 0 k = some commands := by
        refine collectAll.mpr ⟨all.1,?_⟩
        intro j command found
        obtain ⟨how,given,same⟩ := inner.gave j _ ((all.2 j command).mp found)
        have made := promiseResult.mp same.symm
        rw [wrappedFollows (follows _ given) (by rw [made]; rfl)] at made
        rw [Nat.zero_add,made]
        rfl
      simp only [plainNode,shape,collected,Option.map_some]

theorem givesRaised {error : Raised} (follows : ∀ a ∈ r, Follows answers a)
    (gives : Gives polite r i job requests ended own) (raised : own = .raised error) : plainNode answers i job = none := by
  cases gives with
  | function shape given _ =>
    rw [wrappedFollows (follows _ given) (by rw [raised]; rfl)] at raised
    simp only [plainNode,shape,raised,valueOf]
  | execute shape given _ =>
    rcases follows _ given with answer | struck
    · simp only [plainNode,shape,← answer,raised,valueOf]
    · rw [raised] at struck
      cases struck
  | @branches k q branches how shape inner at_ =>
    have all := (Gather.endedAll inner.ran at_).2
    cases how with
    | returned commands => cases raised
    | failed cause =>
      cases cause with
      | cancelled => cases raised
      | raised cause =>
        cases raised
        obtain ⟨j,finished⟩ := all
        obtain ⟨how,given,same⟩ := inner.gave j _ finished
        have made := promiseException.mp same.symm
        rw [wrappedFollows (follows _ given) (by rw [made]; rfl)] at made
        have place : j < k := by
          obtain ⟨_,there⟩ := ((Gather.runHolds inner.ran).recorded j _).mp finished
          have inside := Slots.inside there
          rwa [Gather.promises,List.length_map,(Gather.runHolds inner.ran).size] at inside
        simp only [plainNode,shape,Option.map_eq_none_iff]
        rw [Option.eq_none_iff_forall_ne_some]
        intro commands collected
        obtain ⟨size,each⟩ := collectAll.mp collected
        have value := each j _ (List.getElem?_eq_getElem (size.symm ▸ place))
        rw [Nat.zero_add,made] at value
        cases value

theorem finished {o : List (Gather.Action Raised (Result V))} (holds : Holds text copyable keepRefKeys polite jobs r s)
    (ran : Machine.run Gather.step (Gather.initial jobs.length) o = some s.outer) (told : .finish i p ∈ o) :
    ∃ job asked requests ended, jobs[i]? = some job ∧
      Past text copyable keepRefKeys polite r i asked job requests ended p := by
  obtain ⟨done,there⟩ := ((Gather.runHolds ran).recorded i p).mp told
  rw [Gather.promises,List.getElem?_map] at there
  obtain ⟨child,beside,rfl⟩ := Option.map_eq_some_iff.mp there
  have inside : i < jobs.length := (Gather.runHolds ran).size ▸ Slots.inside beside
  obtain ⟨m,child',found,beside',job,own⟩ := memberAt holds inside
  cases Option.some.inj (beside.symm.trans beside')
  obtain ⟨ended,stage⟩ := (waitingDone own).mp done
  rw [MemberHolds,stage] at own
  exact ⟨m.job,child.asked,m.requests,ended,job,own.2⟩

/- Results come in the order of the nodes, and are those of one node after the other:
which ends first, what is asked to end and which deadlines expire decides only whether
there are any. -/
theorem endsPlain {results : List (Result V)} (ran : Machine.run (step text copyable keepRefKeys) (initial jobs) r = some s)
    (follows : ∀ a ∈ r, Follows answers a) (at_ : s.outer.phase = .ended (.returned results)) :
    plain answers jobs = some results := by
  have holds := runHolds ran
  obtain ⟨o,outer,_,_⟩ := holds.outer
  have all := (Gather.endedAll outer at_).2
  refine collectAll.mpr ⟨all.1,?_⟩
  intro i result found
  obtain ⟨job,asked,requests,ended,there,past⟩ := finished holds outer ((all.2 i result).mp found)
  rw [Nat.zero_add,there,Option.bind_some]
  generalize told : (Promise.result result : Promise Raised (Result V)) = p at past
  cases past with
  | early _ => cases told
  | uncopied _ _ => cases told
  | left gives timed => exact givesPlain follows gives (leaveReturned (promiseResult.mp told.symm))

/- Nobody cancels, no deadline expires, every copy succeeds and code ends as cancelled
only when it has been asked to end. -/
structure Undisturbed (text : Node.Seconds → String) (copyable : V → Bool) (keepRefKeys : List String)
    (jobs : List Job) (r : List (Action V)) : Prop where
  calm : .cancel ∉ r
  early : ∀ i, .expire i ∉ r
  polite : PoliteRun text copyable keepRefKeys jobs r
  copied : ∀ i state, .start i state ∈ r → ∃ input, copyState copyable keepRefKeys state = .ok input

theorem undisturbedInward {acts : List (Action V)} (ran : Machine.run (step text copyable keepRefKeys) (initial jobs) r = some s)
    (undisturbed : Undisturbed text copyable keepRefKeys jobs r) (inward : ∀ a ∈ acts, Inward a) :
    Undisturbed text copyable keepRefKeys jobs (r ++ acts) := by
  have polite : ∀ a ∈ acts, ∀ s : State V, Polite s a := by
    intro a member s
    have own := inward a member
    cases a <;> trivial
  refine ⟨?_,?_,(Machine.stepsAppend ran).mpr ⟨undisturbed.polite,Machine.stepsAll polite⟩,?_⟩
  · exact fun member => (List.mem_append.mp member).elim undisturbed.calm (inward _)
  · exact fun i member => (List.mem_append.mp member).elim (undisturbed.early i) (inward _)
  · intro i state member
    rcases List.mem_append.mp member with old | new
    · exact undisturbed.copied i state old
    · cases inward _ new

theorem followsInward {acts : List (Action V)} (follows : ∀ a ∈ r, Follows answers a) (inward : ∀ a ∈ acts, Inward a) :
    ∀ a ∈ r ++ acts, Follows answers a := by
  intro a member
  rcases List.mem_append.mp member with old | new
  · exact follows a old
  · have own := inward a new
    cases a <;> trivial

/- Undisturbed code that returns on its own returns in a batch. -/
theorem plainEnds {results : List (Result V)} (ran : Machine.run (step text copyable keepRefKeys) (initial jobs) r = some s)
    (follows : ∀ a ∈ r, Follows answers a) (undisturbed : Undisturbed text copyable keepRefKeys jobs r)
    (returned : plain answers jobs = some results) (at_ : s.outer.phase = .ended how) : how = .returned results := by
  have holds := runHolds ran
  obtain ⟨o,outer,struck,well⟩ := holds.outer
  have all := (Gather.endedAll outer at_).2
  cases how with
  | returned own =>
    rw [endsPlain ran follows at_] at returned
    rw [Option.some.inj returned]
  | failed cause =>
    cases cause with
    | cancelled =>
      exact absurd rfl (Gather.politeEnds (fun inside => undisturbed.calm (struck inside)) (well undisturbed.polite) outer at_)
    | raised error =>
      obtain ⟨i,told⟩ := all
      obtain ⟨job,asked,requests,ended,there,past⟩ := finished holds outer told
      generalize same : (Promise.exception error : Promise Raised (Result V)) = p at past
      cases past with
      | early _ => cases same
      | uncopied started failed =>
        obtain ⟨input,ok⟩ := undisturbed.copied i _ started
        rw [ok] at failed
        cases failed
      | left gives timed =>
        rw [leaveEarly timed (undisturbed.early i)] at same
        have none_ := givesRaised follows gives (promiseException.mp same.symm)
        obtain ⟨size,each⟩ := collectAll.mp returned
        have value := each i _ (List.getElem?_eq_getElem (size.symm ▸ Slots.inside there))
        rw [Nat.zero_add,there,Option.bind_some,none_] at value
        cases value

/- A batch and one node after the other. Once the nodes have nothing left to do, an
undisturbed batch comes to its end with these results, in whatever order the event loop
goes. -/
theorem agrees {answers : Answers V} (ran : Machine.run (step text copyable keepRefKeys) (initial jobs) r = some s)
    (follows : ∀ a ∈ r, Follows answers a) :
    (∀ results, s.outer.phase = .ended (.returned results) → plain answers jobs = some results) ∧
    (Undisturbed text copyable keepRefKeys jobs r → ∀ results, plain answers jobs = some results →
      (∀ how, s.outer.phase = .ended how → how = .returned results) ∧
      ((∀ m ∈ s.members, Quiet m) →
        (∃ acts t, (∀ a ∈ acts, Inward a) ∧ Machine.run (step text copyable keepRefKeys) s acts = some t ∧
          t.outer.phase = .ended (.returned results)) ∧
        ∀ acts t, (∀ a ∈ acts, Inward a) → Machine.run (step text copyable keepRefKeys) s acts = some t →
          acts.length ≤ s.rank ∧ ((∀ a, Inward a → step text copyable keepRefKeys t a = none) →
            t.outer.phase = .ended (.returned results)))) := by
  refine ⟨fun results => endsPlain ran follows,?_⟩
  intro undisturbed results returned
  refine ⟨fun how => plainEnds ran follows undisturbed returned,?_⟩
  intro quiet
  obtain ⟨⟨acts,t,how,inward,later,at_⟩,ends⟩ := drains ran quiet
  have further : ∀ {acts : List (Action V)} {t : State V} {how : Gather.Ending Raised (Result V)}, (∀ a ∈ acts, Inward a) →
      Machine.run (step text copyable keepRefKeys) s acts = some t → t.outer.phase = .ended how →
      t.outer.phase = .ended (.returned results) := by
    intro acts t how inward later at_
    rw [at_,plainEnds (Machine.runAppend.mpr ⟨s,ran,later⟩) (followsInward follows inward)
      (undisturbedInward ran undisturbed inward) returned at_]
  refine ⟨⟨acts,t,inward,later,further inward later at_⟩,?_⟩
  intro acts t inward later
  obtain ⟨few,over_⟩ := ends acts t inward later
  refine ⟨few,fun still => ?_⟩
  obtain ⟨how,at_⟩ := over_ still
  exact further inward later at_

end Plain

def fetchAnswers : Answers Nat := ⟨fun _ => gave 0,fun _ => .returned .other,fun _ j => gave (j + 1)⟩

theorem agreesFetch : plain fetchAnswers fetchJobs = some fetchResults ∧
    ∃ s, Machine.run fetchStep (initial fetchJobs) fetchQuiet = some s ∧
      (∀ how, s.outer.phase = .ended how → how = .returned fetchResults) ∧
      (∃ acts t, (∀ a ∈ acts, Inward a) ∧ Machine.run fetchStep s acts = some t ∧
        t.outer.phase = .ended (.returned fetchResults)) ∧
      ∀ acts t, (∀ a ∈ acts, Inward a) → Machine.run fetchStep s acts = some t →
        acts.length ≤ s.rank ∧
        ((∀ a, Inward a → fetchStep t a = none) → t.outer.phase = .ended (.returned fetchResults)) := by
  obtain ⟨s,ran,_,still⟩ := quietFetch
  have returned : plain fetchAnswers fetchJobs = some fetchResults := by rfl
  have follows : ∀ a ∈ fetchQuiet, Follows fetchAnswers a := by simp [fetchQuiet,fetchRun,Follows,fetchAnswers]
  have polite : ∀ a ∈ fetchQuiet, ∀ s, Polite s a := by simp [fetchQuiet,fetchRun,Polite,gave,Ended.isCancelled]
  have copied : ∀ state : StateDict Nat, ∃ input, copyState (fun _ => true) [] state = .ok input := by
    intro state
    refine ⟨state,?_⟩
    simp [copyState,PyError.raiseIf,pure,Except.pure,bind,Except.bind]
  have undisturbed : Undisturbed (fun _ => "5") (fun _ => true) [] fetchJobs fetchQuiet :=
    ⟨by simp [fetchQuiet,fetchRun],by simp [fetchQuiet,fetchRun],Machine.stepsAll polite,fun _ state _ => copied state⟩
  obtain ⟨same,ends⟩ := (agrees ran follows).2 undisturbed fetchResults returned
  exact ⟨returned,s,ran,same,ends (fun m member => quietOf (List.all_eq_true.mp still m member))⟩

/- What the code of a node has given, from what its functions have. A parallel node ends as
cancelled after its task has been asked to end, or because a branch has ended so. -/
inductive Produced (r : List (Action V)) (i asked : Nat) (job : Job) : Own (Result V) → Prop where
  | function {how : Own (Returns V)} : job.shape = .regular → .functionEnds i how ∈ r →
      Produced r i asked job (wrapped commandResult how)
  | execute {how : Own (Result V)} : job.shape = .custom → .executeEnds i how ∈ r → Produced r i asked job how
  | returned {k : Nat} {commands : List (Command V)} : job.shape = .parallel k → commands.length = k →
      (∀ j command, commands[j]? = some command → Gave r i j (.result command)) →
      Produced r i asked job (.returned (.commands (commands.map some)))
  | raised {j k : Nat} {error : Raised} : job.shape = .parallel k → Gave r i j (.exception error) →
      Produced r i asked job (.raised error)
  | cancelled {k : Nat} : job.shape = .parallel k →
      (0 < asked ∨ .expire i ∈ r ∨ ∃ j, Gave r i j .cancelled) → Produced r i asked job (.cancelled ())

theorem timedRequests (timed : Timed r i asked job requests deadline) (struck : 0 < requests) : 0 < asked ∨ .expire i ∈ r := by
  cases deadline with
  | none => exact .inl (timed.2 ▸ struck)
  | some deadline =>
    obtain ⟨seconds,scope⟩ := deadline
    obtain ⟨_,_,expired,count⟩ := timed
    cases late : scope.expiring with
    | true => exact .inr (expired.mp late)
    | false =>
      rw [late] at count
      exact .inl (by simpa [count] using struck)

theorem givesProduced (gives : Gives polite r i job requests ended own) (timed : Timed r i asked job requests deadline) :
    Produced r i asked job own := by
  cases gives with
  | function shape given _ => exact .function shape given
  | execute shape given _ => exact .execute shape given
  | @branches k q branches how shape inner at_ =>
    have all := (Gather.endedAll inner.ran at_).2
    cases how with
    | returned commands =>
      exact .returned shape all.1 (fun j command found => inner.gave j _ ((all.2 j command).mp found))
    | failed cause =>
      cases cause with
      | cancelled =>
        refine .cancelled shape ?_
        rcases all with struck | ⟨j,told⟩
        · exact (timedRequests timed (inner.struck struck)).imp_right .inl
        · exact .inr (.inr ⟨j,inner.gave j _ told⟩)
      | raised error =>
        obtain ⟨j,told⟩ := all
        exact .raised shape (inner.gave j _ told)

/- What becomes of the end of a node's code when its deadline has expired and others have
asked its task to end so many times. -/
def relabelled {α : Type} (message : String) (asked : Nat) : Own α → Own α
  | .raised (.timeoutError _) => .raised (.timeoutError message)
  | .cancelled why => if asked = 0 then .raised (.timeoutError message) else .cancelled why
  | other => other

open Classical in
/- A deadline is to blame for a TimeoutError and for a cancellation that nobody else has
asked for, if it has expired; everything else, and everything before, stays as it is. -/
theorem deadlineDecides {child : Gather.Child Raised (Result V)} {seconds : Node.Seconds}
    (ran : Machine.run (step text copyable keepRefKeys) (initial jobs) r = some s)
    (found : s.members[i]? = some m) (beside : s.outer.children[i]? = some child) (done : child.done = true)
    (limit : m.job.timeout = some seconds) :
    (child.promise = .cancelled ∧ 0 < child.asked) ∨
    (∃ state error, .start i state ∈ r ∧ copyState copyable keepRefKeys state = .error error ∧
      child.promise = .exception (.error error)) ∨
    ∃ own, Produced r i child.asked m.job own ∧ child.promise = promiseOf
      (if .expire i ∈ r then relabelled (timedOut text m.job seconds) child.asked own else own) := by
  obtain ⟨_,child',beside',holds⟩ := memberOf (runHolds ran) found
  cases Option.some.inj (beside.symm.trans beside')
  obtain ⟨ended,stage⟩ := (waitingDone holds).mp done
  rw [MemberHolds,stage] at holds
  obtain ⟨_,past⟩ := holds
  generalize told : child.promise = p at past
  cases past with
  | early asked => exact .inl ⟨rfl,asked⟩
  | uncopied started failed => exact .inr (.inl ⟨_,_,started,failed,rfl⟩)
  | @left deadline _ own gives timed =>
    refine .inr (.inr ⟨own,givesProduced gives timed,congrArg promiseOf ?_⟩)
    by_cases late : .expire i ∈ r
    · rw [if_pos late]
      cases deadline with
      | none =>
        rw [timed.1] at limit
        cases limit
      | some deadline =>
        obtain ⟨other,scope⟩ := deadline
        obtain ⟨same,entered,expired,count⟩ := timed
        cases Option.some.inj (same.symm.trans limit)
        have expiring := expired.mpr late
        rw [expiring,if_pos rfl] at count
        simp only [leave,Scope.leave,expiring,if_true,entered,count,Nat.add_sub_cancel,Nat.le_zero]
        cases own with
        | returned value => rfl
        | raised error => cases error <;> rfl
        | escaped => rfl
        | cancelled why =>
          by_cases none_ : child.asked = 0
          · simp only [none_,if_true,exceptTimeout,relabelled]
          · simp only [none_,if_false,exceptTimeout,relabelled]
    · rw [if_neg late,leaveEarly timed late]

theorem deadlineDecidesLate : ∃ (s : State Nat) (child : Gather.Child Raised (Result Nat)) (m : Member Nat), Machine.run fetchStep (initial fetchJobs) lateRun = some s ∧
    child.promise = .exception lateError ∧
    ((child.promise = .cancelled ∧ 0 < child.asked) ∨
    (∃ state error, .start 0 state ∈ lateRun ∧ copyState (fun _ => true) [] state = .error error ∧
      child.promise = .exception (.error error)) ∨
    ∃ own, Produced lateRun 0 child.asked m.job own ∧
      child.promise = promiseOf (relabelled (timedOut (fun _ => "5") m.job ⟨5,by decide⟩) child.asked own)) := by
  obtain ⟨s,child,other,ran,children,promise,_,m,found,_,limit⟩ := lateFails
  refine ⟨s,child,m,ran,promise,?_⟩
  have done : child.done = true := by rw [Gather.Child.done,promise]; rfl
  have decided := deadlineDecides ran found (by rw [children]; rfl) done limit
  have late : Action.expire 0 ∈ lateRun := by simp [lateRun]
  simpa only [late,if_true] using decided

inductive Blame (text : Node.Seconds → String) (copyable : V → Bool) (keepRefKeys : List String) (jobs : List Job)
    (r : List (Action V)) : Raised → Prop where
  | copy {i : Nat} {state : StateDict V} {error : PyError} : .start i state ∈ r →
      copyState copyable keepRefKeys state = .error error → Blame text copyable keepRefKeys jobs r (.error error)
  | node {i asked : Nat} {job : Job} {error : Raised} : jobs[i]? = some job → Produced r i asked job (.raised error) →
      Blame text copyable keepRefKeys jobs r error
  | deadline {i : Nat} {job : Job} {seconds : Node.Seconds} : jobs[i]? = some job → job.timeout = some seconds →
      .expire i ∈ r → Blame text copyable keepRefKeys jobs r (.timeoutError (timedOut text job seconds))

theorem leaveRaised {error : Raised} (timed : Timed r i asked job requests deadline)
    (left : leave text job deadline requests own = .raised error) :
    own = .raised error ∨ ∃ seconds, job.timeout = some seconds ∧ .expire i ∈ r ∧ error = .timeoutError (timedOut text job seconds) := by
  cases deadline with
  | none => exact .inl left
  | some deadline =>
    obtain ⟨seconds,scope⟩ := deadline
    obtain ⟨limit,entered,expired,count⟩ := timed
    by_cases late : scope.expiring = true
    · simp only [leave,Scope.leave,late,if_true] at left
      refine (em (own = .raised error)).imp id (fun other => ⟨seconds,limit,expired.mp late,?_⟩)
      cases own with
      | returned value => cases left
      | escaped => cases left
      | raised cause =>
        cases cause with
        | timeoutError message =>
          cases left
          rfl
        | error e =>
          cases left
          exact absurd rfl other
        | invalidReturns message =>
          cases left
          exact absurd rfl other
      | cancelled why =>
        simp only at left
        split at left
        · cases left
          rfl
        · cases left
    · have whole : Timed r i asked job requests (some ⟨seconds,scope⟩) := ⟨limit,entered,expired,count⟩
      rw [leaveEarly whole (fun inside => late (expired.mpr inside))] at left
      exact .inl left

/- An error that leaves a batch is one of its nodes' own, or the one of a deadline that
has expired; a CancelledError leaves it only if the batch itself has been cancelled. -/
theorem blamed {cause : Gather.Failure Raised}
    (ran : Machine.run (step text copyable keepRefKeys) (initial jobs) r = some s)
    (at_ : s.outer.phase = .ended (.failed cause)) :
    (∀ error, cause = .raised error → Blame text copyable keepRefKeys jobs r error) ∧
    (cause = .cancelled → PoliteRun text copyable keepRefKeys jobs r → .cancel ∈ r) := by
  have holds := runHolds ran
  obtain ⟨o,outer,struck,well⟩ := holds.outer
  constructor
  · rintro error rfl
    obtain ⟨i,told⟩ := (Gather.endedAll outer at_).2
    obtain ⟨job,asked,requests,ended,there,past⟩ := finished holds outer told
    generalize same : (Promise.exception error : Promise Raised (Result V)) = p at past
    cases past with
    | early _ => cases same
    | uncopied started failed =>
      cases same
      exact .copy started failed
    | left gives timed =>
      rcases leaveRaised timed (promiseException.mp same.symm) with own | ⟨seconds,limit,expired,rfl⟩
      · exact .node there (own ▸ givesProduced gives timed)
      · exact .deadline there limit expired
  · rintro rfl polite
    by_cases calm : Gather.Action.cancel ∈ o
    · exact struck calm
    · exact absurd rfl (Gather.politeEnds calm (well polite) outer at_)

theorem blamedLate : Blame (fun _ => "5") (fun _ => true) [] fetchJobs (lateRun ++ lateRest) lateError := by
  obtain ⟨s,ran,at_⟩ := lateEnds
  exact (blamed ran at_).1 lateError rfl

theorem outerStep {a : Action V} (taken : step text copyable keepRefKeys s a = some t) :
    t.outer = s.outer ∨ ∃ b, Gather.step s.outer b = some t.outer ∧ (b = .cancel → a = .cancel) := by
  have closes : ∀ {i : Nat} {m : Member V} {ended : Option (Branches V)} {own : Own (Result V)},
      s.close i m ended own = some t → ∃ b, Gather.step s.outer b = some t.outer ∧ (b = .cancel → a = .cancel) := by
    intro i m ended own closed
    simp only [State.close,bind,Option.bind_eq_some_iff] at closed
    obtain ⟨outer,told,closed⟩ := closed
    cases closed
    exact ⟨_,told,by simp⟩
  have waits : ∀ {b : Gather.Action Raised (Result V)}, s.wait b = some t → (b = .cancel → a = .cancel) →
      ∃ b, Gather.step s.outer b = some t.outer ∧ (b = .cancel → a = .cancel) := by
    intro b waited cancels
    simp only [State.wait,bind,Option.bind_eq_some_iff] at waited
    obtain ⟨outer,woken,waited⟩ := waited
    cases waited
    exact ⟨b,woken,cancels⟩
  cases a with
  | start i state =>
    simp only [step,bind,Option.bind_eq_some_iff] at taken
    obtain ⟨m,_,taken⟩ := taken
    split at taken
    · split at taken
      · exact .inr (closes taken)
      · cases taken
        exact .inl rfl
    · cases taken
  | functionEnds i how | executeEnds i how =>
    simp only [step,bind,Option.bind_eq_some_iff] at taken
    obtain ⟨m,_,x,_,taken⟩ := taken
    split at taken
    · exact .inr (closes taken)
    · cases taken
  | branchEnds i j how | branchNotify i =>
    simp only [step,bind,Option.bind_eq_some_iff] at taken
    obtain ⟨m,_,x,_,branches,_,next,_,taken⟩ := taken
    cases taken
    exact .inl rfl
  | branchWake i =>
    simp only [step,bind,Option.bind_eq_some_iff] at taken
    obtain ⟨m,_,x,_,branches,_,next,_,taken⟩ := taken
    split at taken
    · exact .inr (closes taken)
    · cases taken
      exact .inl rfl
  | expire i =>
    simp only [step,bind,Option.bind_eq_some_iff] at taken
    obtain ⟨m,_,x,_,deadline,_,taken⟩ := taken
    split at taken
    · cases taken
    · cases taken
      exact .inl rfl
  | notify => exact .inr (waits taken (by simp))
  | cancel => exact .inr (waits taken (by simp))
  | wake => exact .inr (waits taken (by simp))

theorem outerRun (ran : Machine.run (step text copyable keepRefKeys) s r = some t) :
    ∃ o, Machine.run Gather.step s.outer o = some t.outer ∧ (.cancel ∈ o → .cancel ∈ r) := by
  induction r generalizing s with
  | nil =>
    cases ran
    exact ⟨[],rfl,by simp⟩
  | cons a rest ih =>
    obtain ⟨n,taken,ran⟩ := Machine.runCons.mp ran
    obtain ⟨o,outer,struck⟩ := ih ran
    have later : .cancel ∈ o → .cancel ∈ a :: rest := fun inside => List.mem_cons_of_mem a (struck inside)
    rcases outerStep taken with same | ⟨b,one,cancels⟩
    · exact ⟨o,same ▸ outer,later⟩
    · refine ⟨b :: o,Machine.runCons.mpr ⟨_,one,outer⟩,?_⟩
      intro member
      rcases List.mem_cons.mp member with here | inside
      · rw [cancels here.symm]
        exact List.mem_cons_self
      · exact later inside

/- The node that fails first decides how a batch fails that nobody cancels, however the
others end afterwards. -/
theorem failsFirst {r' : List (Action V)} {child : Gather.Child Raised (Result V)}
    (ran : Machine.run (step text copyable keepRefKeys) (initial jobs) r = some s)
    (beside : s.outer.children[i]? = some child) (failed : Gather.failing child.promise = true)
    (only : ∀ j other, s.outer.children[j]? = some other → Gather.failing other.promise = true → j = i)
    (later : Machine.run (step text copyable keepRefKeys) s r' = some t) (calm : .cancel ∉ r ++ r')
    (at_ : t.outer.phase = .ended how) : ∃ cause, how = .failed cause ∧ child.promise = cause.promise := by
  obtain ⟨o,outer,struck⟩ := outerRun ran
  obtain ⟨o',outer',struck'⟩ := outerRun later
  have recorded := (Gather.runHolds outer).recorded
  have told : .finish i child.promise ∈ o := by
    refine (recorded i _).mpr ⟨Gather.failingDone failed,?_⟩
    rw [Gather.promises,List.getElem?_map,beside]
    rfl
  have inside : child.promise ∈ Gather.failures o :=
    List.mem_filterMap.mpr ⟨_,told,by simp only [failed,if_true]⟩
  have same : ∀ p ∈ Gather.failures o, p = child.promise := by
    intro p member
    obtain ⟨a,there,made⟩ := List.mem_filterMap.mp member
    cases a with
    | finish j how =>
      simp only at made
      split at made
      · rename_i fails
        cases made
        obtain ⟨_,found⟩ := (recorded j _).mp there
        rw [Gather.promises,List.getElem?_map] at found
        obtain ⟨other,beside',rfl⟩ := Option.map_eq_some_iff.mp found
        cases only j other beside' fails
        cases Option.some.inj (beside.symm.trans beside')
        rfl
      · cases made
    | notify | cancel | wake => cases made
  have head : (Gather.failures (o ++ o')).head? = some child.promise := by
    cases fails : Gather.failures o with
    | nil =>
      rw [fails] at inside
      cases inside
    | cons p rest =>
      rw [Gather.failures,List.filterMap_append,← Gather.failures,fails,List.cons_append,List.head?_cons]
      rw [same p (fails ▸ List.mem_cons_self)]
  have quiet : Gather.Action.cancel ∉ o ++ o' := by
    intro member
    refine calm (List.mem_append.mpr ?_)
    exact (List.mem_append.mp member).imp struck struck'
  have first := Gather.runFirst quiet (Machine.runAppend.mpr ⟨_,outer,outer'⟩)
  simp only [Gather.First,at_] at first
  cases how with
  | returned values =>
    rw [show Gather.failures (o ++ o') = [] from first] at head
    cases head
  | failed cause =>
    refine ⟨cause,rfl,?_⟩
    rw [show (Gather.failures (o ++ o')).head? = some cause.promise from first] at head
    exact (Option.some.inj head).symm

theorem failsFirstLate : ∃ s t how, Machine.run fetchStep (initial fetchJobs) lateRun = some s ∧
    Machine.run fetchStep s lateRest = some t ∧ t.outer.phase = .ended how ∧
    ∃ cause, how = .failed cause ∧ (.exception lateError : Promise Raised (Result Nat)) = cause.promise := by
  obtain ⟨t,ran,at_⟩ := lateEnds
  obtain ⟨s,first,later⟩ := Machine.runAppend.mp ran
  obtain ⟨s',child,other,ran',children,promise,pending,_⟩ := lateFails
  cases Option.some.inj (first.symm.trans ran')
  refine ⟨s,t,_,first,later,at_,?_⟩
  rw [← promise]
  have beside : s.outer.children[0]? = some child := by rw [children]; rfl
  refine failsFirst first beside (by rw [promise]; rfl) ?_ later (by simp [lateRun,lateRest]) at_
  intro j beside found fails
  rw [children] at found
  cases j with
  | zero => rfl
  | succ j =>
    cases j with
    | zero =>
      cases Option.some.inj found
      rw [pending] at fails
      cases fails
    | succ j => cases found

theorem wrappedReturned {α β : Type} {normalise : α → Except Raised β} {how : Own α} {made : β}
    (returned : wrapped normalise how = .returned made) : ∃ given, how = .returned given ∧ normalise given = .ok made := by
  cases how with
  | returned given =>
    simp only [wrapped] at returned
    split at returned
    · rename_i same
      cases returned
      exact ⟨given,rfl,same⟩
    · cases returned
  | _ => cases returned

theorem producedFormed {result : Result V} (produced : Produced r i asked job own)
    (normal : ∀ given, job.shape = .custom → .executeEnds i (.returned given) ∈ r → ∃ value, normaliseResult value = .ok given)
    (returned : own = .returned result) : FormedResult result := by
  cases produced with
  | execute shape gave =>
    rw [returned] at gave
    obtain ⟨value,made⟩ := normal result shape gave
    exact resultFormed made
  | function _ _ =>
    obtain ⟨given,_,made⟩ := wrappedReturned returned
    unfold commandResult at made
    cases one : normaliseRegular given with
    | error error =>
      rw [one] at made
      cases made
    | ok command =>
      rw [one] at made
      cases made
      exact commandFormed (oneFormed one)
  | @returned k commands _ _ all =>
    cases returned
    refine commandsFormed ?_
    intro command member
    obtain ⟨j,found⟩ := List.getElem?_of_mem member
    obtain ⟨how,_,same⟩ := all j command found
    obtain ⟨given,_,made⟩ := wrappedReturned (promiseResult.mp same.symm)
    exact oneFormed made
  | raised _ _ => cases returned
  | cancelled _ => cases returned

/- `apply_command` never finds fault with the form of what a batch has returned, where an
`execute` of another class returns what `_normalise_result` has made: it refuses a copy, a
conflict or a merge, or it commits. -/
theorem commitsFormed {values : Values V} {graph : NodeGraph.Compiled} {results : List (Result V)} {target : Target}
    {names : List String} {state kept : StateDict V} {e : PyError}
    (ran : Machine.run (step text copyable keepRefKeys) (initial jobs) r = some s)
    (at_ : s.outer.phase = .ended (.returned results))
    (normal : ∀ i job result, jobs[i]? = some job → job.shape = .custom → .executeEnds i (.returned result) ∈ r →
      ∃ value, normaliseResult value = .ok result)
    (named : Target.normaliseTargets target = .ok names) (each : names.length = jobs.length)
    (failed : commitBatch values graph results target state = .error (e,kept)) : Refusal values graph names e := by
  have holds := runHolds ran
  obtain ⟨o,outer,_,_⟩ := holds.outer
  have all := (Gather.endedAll outer at_).2
  refine commitRefused named (all.1.trans each.symm) ?_ failed
  intro result member
  obtain ⟨i,found⟩ := List.getElem?_of_mem member
  obtain ⟨job,asked,requests,ended,there,past⟩ := finished holds outer ((all.2 i result).mp found)
  generalize told : (Promise.result result : Promise Raised (Result V)) = p at past
  cases past with
  | early _ => cases told
  | uncopied _ _ => cases told
  | left gives timed =>
    exact producedFormed (givesProduced gives timed) (fun given => normal i job given there)
      (leaveReturned (promiseResult.mp told.symm))

/- A node of another class beside a regular one, with a list of commands for the same field. -/
def toolJobs : List Job := [⟨"fetch",.regular,none⟩,⟨"tool",.custom,none⟩]
def toolReturns : Returns Nat := .list [.mapping (Dict.empty.set "n" (.value 1))]
def toolResults : List (Result Nat) :=
  [.command ⟨some (Dict.empty.set "n" (.value 0)),.none⟩,.commands [some ⟨some (Dict.empty.set "n" (.value 1)),.none⟩]]

def toolRun : List (Action Nat) := [.start 0 .empty,.start 1 .empty,
  .executeEnds 1 (.returned (.commands [some ⟨some (Dict.empty.set "n" (.value 1)),.none⟩])),.functionEnds 0 (gave 0),
  .notify,.notify,.wake]

def fetchValues : Values Nat := ⟨fun _ => true,fun _ => none,fun _ => "int"⟩
def toolGraph : NodeGraph.Compiled := ⟨["fetch","tool"],.node "fetch",false,[],[]⟩

theorem toolEnds : ∃ s, Machine.run fetchStep (initial toolJobs) toolRun = some s ∧
    s.outer.phase = .ended (.returned toolResults) := ⟨_,rfl,rfl⟩

theorem toolConflicts : ∃ kept, commitBatch fetchValues toolGraph toolResults (.batch ["fetch","tool"]) .empty =
    .error (conflictError "tool" "n",kept) := ⟨_,rfl⟩

theorem commitsFormedTool : Refusal fetchValues toolGraph ["fetch","tool"] (conflictError "tool" "n") := by
  obtain ⟨s,ran,at_⟩ := toolEnds
  obtain ⟨kept,failed⟩ := toolConflicts
  refine commitsFormed ran at_ ?_ rfl rfl failed
  intro i job result _ _ gave
  have same : i = 1 ∧ result = .commands [some ⟨some (Dict.empty.set "n" (.value 1)),.none⟩] := by
    simpa [toolRun] using gave
  exact ⟨toolReturns,by rw [same.2]; rfl⟩

end Apixis.NodeBatch
