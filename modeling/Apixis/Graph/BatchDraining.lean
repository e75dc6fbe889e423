import Apixis.Graph.NodeBatch

/-! That a batch ends. What its nodes have to do is theirs; the rest are steps of the event
loop, which cannot go on for ever and cannot stop short of the end. -/
namespace Apixis.NodeBatch
open ApplyCommand ParallelNode
open Cancellation (Scope)

variable {V : Type} {text : Node.Seconds → String} {copyable : V → Bool} {keepRefKeys : List String} {polite : Prop}
  {jobs : List Job} {job : Job} {r : List (Action V)} {s t : State V} {i requests : Nat} {m : Member V}
  {x : Execution V} {branches next : Branches V} {own : Own (Result V)} {deadline : Option Deadline}
  {ended : Option (Branches V)} {p : Promise Raised (Result V)} {a : Action V}

theorem memberAt (holds : Holds text copyable keepRefKeys polite jobs r s) (inside : i < jobs.length) :
    ∃ m child, s.members[i]? = some m ∧ s.outer.children[i]? = some child ∧ jobs[i]? = some m.job ∧
      MemberHolds text copyable keepRefKeys polite r i m child := by
  obtain ⟨q,ran,_,_⟩ := holds.outer
  have size := (Gather.runHolds ran).size
  have count := congrArg List.length holds.planned
  rw [List.length_map] at count
  obtain ⟨m,found⟩ : ∃ m, s.members[i]? = some m := ⟨_,List.getElem?_eq_getElem (count.symm ▸ inside)⟩
  obtain ⟨child,beside⟩ : ∃ child, s.outer.children[i]? = some child := ⟨_,List.getElem?_eq_getElem (size.symm ▸ inside)⟩
  refine ⟨m,child,found,beside,?_,holds.members i m child found beside⟩
  rw [← holds.planned,List.getElem?_map,found]
  rfl

theorem memberOf (holds : Holds text copyable keepRefKeys polite jobs r s) (found : s.members[i]? = some m) :
    i < jobs.length ∧ ∃ child, s.outer.children[i]? = some child ∧ MemberHolds text copyable keepRefKeys polite r i m child := by
  have inside : i < jobs.length := by
    rw [← holds.planned,List.length_map]
    exact Slots.inside found
  obtain ⟨m',child,found',beside,_,own⟩ := memberAt holds inside
  cases Option.some.inj (found.symm.trans found')
  exact ⟨inside,child,beside,own⟩

/- Nothing is left to be done by code of the nodes: a node has ended, or is parallel and
all its branches have. -/
def Quiet (m : Member V) : Prop :=
  m.stage ≠ .created ∧ ∀ x, m.execution = some x → ∃ branches, x.branches = some branches ∧ Gather.AllDone branches.children

/- Steps of the event loop alone. -/
def Inward : Action V → Prop
  | .notify | .wake | .branchNotify _ | .branchWake _ => True
  | _ => False

/- Steps the event loop can still take for a node: none ends but that of its branches. -/
def Member.rank (m : Member V) : Nat :=
  match m.execution.bind Execution.branches with
  | some branches => branches.rank + 1
  | none => 0

def State.rank (s : State V) : Nat := s.outer.rank + Slots.total Member.rank s.members

theorem liveRank (at_ : m.execution = some x) (there : x.branches = some branches) : m.rank = branches.rank + 1 := by
  simp only [Member.rank,at_,Option.bind_some,there]

theorem liveNext (m : Member V) (x : Execution V) :
    ({m with stage := .running {x with branches := some next}} : Member V).rank = next.rank + 1 := rfl

theorem cancelRank (m : Member V) : m.cancel.rank = m.rank := by
  obtain ⟨job,requests,stage⟩ := m
  cases stage with
  | created => rfl
  | ended branches => rfl
  | running x =>
    obtain ⟨input,deadline,own⟩ := x
    cases own with
    | none => rfl
    | some branches =>
      refine congrArg Nat.succ (?_ : ((Gather.step branches .cancel).getD branches).rank = branches.rank)
      cases taken : Gather.step branches .cancel with
      | none => rfl
      | some next => exact Gather.cancelRank taken

theorem askRank (before after : List (Gather.Child Raised (Result V))) (members : List (Member V)) :
    Slots.total Member.rank (ask before after members) = Slots.total Member.rank members := by
  refine Slots.totalMapIdx ?_
  intro i m
  split
  · exact cancelRank m
  · rfl

/- No step of the event loop can be taken for ever. -/
theorem stepDown (inward : Inward a) (taken : step text copyable keepRefKeys s a = some t) : t.rank < s.rank := by
  cases a with
  | notify =>
    simp only [step,State.wait,bind,Option.bind_eq_some_iff] at taken
    obtain ⟨outer,told,taken⟩ := taken
    cases taken
    have down := Gather.notifyDown told
    simp only [State.rank,askRank]
    omega
  | wake =>
    simp only [step,State.wait,bind,Option.bind_eq_some_iff] at taken
    obtain ⟨outer,woken,taken⟩ := taken
    cases taken
    have down := Gather.wakeDown woken
    simp only [State.rank,askRank]
    omega
  | branchNotify i =>
    simp only [step,bind,Option.bind_eq_some_iff] at taken
    obtain ⟨m,found,x,at_,branches,there,next,told,taken⟩ := taken
    cases taken
    have down := Gather.notifyDown told
    have moved := Slots.totalSet Member.rank (y := {m with stage := .running {x with branches := some next}}) found
    rw [liveRank at_ there,liveNext] at moved
    simp only [State.rank,State.put]
    omega
  | branchWake i =>
    simp only [step,bind,Option.bind_eq_some_iff] at taken
    obtain ⟨m,found,x,at_,branches,there,next,woken,taken⟩ := taken
    have down := Gather.wakeDown woken
    split at taken
    · simp only [State.close,bind,Option.bind_eq_some_iff] at taken
      obtain ⟨outer,closed,taken⟩ := taken
      cases taken
      have told := Gather.finishRank closed
      have moved := Slots.totalSet Member.rank (y := {m with stage := .ended (some next)}) found
      have over_ : ({m with stage := .ended (some next)} : Member V).rank = 0 := rfl
      rw [liveRank at_ there,over_] at moved
      simp only [State.rank]
      omega
    · cases taken
      have moved := Slots.totalSet Member.rank (y := {m with stage := .running {x with branches := some next}}) found
      rw [liveRank at_ there,liveNext] at moved
      simp only [State.rank,State.put]
      omega
  | start | functionEnds | executeEnds | branchEnds | expire | cancel => cases inward

section Quiet

theorem quietEnded (stage : m.stage = .ended ended) : Quiet m := by
  refine ⟨by rw [stage]; simp,?_⟩
  intro x at_
  rw [Member.execution,stage] at at_
  cases at_

theorem quietRunning (stage : m.stage = .running x) (there : x.branches = some branches)
    (all : Gather.AllDone branches.children) : Quiet m := by
  refine ⟨by rw [stage]; simp,?_⟩
  intro y at_
  rw [Member.execution,stage] at at_
  cases at_
  exact ⟨branches,there,all⟩

theorem innerQuiet {b : Gather.Action Raised (Command V)} (all : Gather.AllDone branches.children)
    (other : ∀ i how, b ≠ .finish i how) (taken : Gather.step branches b = some next) : Gather.AllDone next.children := by
  rcases Gather.askCases other taken with same | asked
  · rwa [same]
  · rw [asked]
    exact Gather.askAll.mpr all

theorem quietCancel (quiet : Quiet m) : Quiet m.cancel := by
  unfold Member.cancel
  cases stage : m.stage with
  | created => exact absurd stage quiet.1
  | ended branches => exact quiet
  | running x =>
    obtain ⟨branches,there,all⟩ := quiet.2 x (by rw [Member.execution,stage])
    have there' : x.cancel.branches = some ((Gather.step branches .cancel).getD branches) := by
      simp only [Execution.cancel,there,Option.map_some]
    refine quietRunning rfl there' ?_
    cases taken : Gather.step branches .cancel with
    | none => exact all
    | some next => exact innerQuiet all (by simp) taken

/- The event loop gives the code of the nodes nothing to do. -/
theorem stepQuiet (inward : Inward a) (quiet : ∀ m ∈ s.members, Quiet m)
    (taken : step text copyable keepRefKeys s a = some t) : ∀ m ∈ t.members, Quiet m := by
  have waits : ∀ {b : Gather.Action Raised (Result V)}, s.wait b = some t → ∀ m ∈ t.members, Quiet m := by
    intro b waited m member
    simp only [State.wait,bind,Option.bind_eq_some_iff] at waited
    obtain ⟨outer,_,waited⟩ := waited
    cases waited
    obtain ⟨i,inside,rfl⟩ := List.mem_mapIdx.mp member
    split
    · exact quietCancel (quiet _ (List.getElem_mem inside))
    · exact quiet _ (List.getElem_mem inside)
  have exchanged : ∀ {i : Nat} {m' : Member V}, Quiet m' → ∀ m ∈ s.members.set i m', Quiet m := by
    intro i m' still m member
    rcases List.mem_or_eq_of_mem_set member with old | rfl
    · exact quiet m old
    · exact still
  have inner : ∀ {i : Nat} {m : Member V} {x : Execution V} {branches : Branches V}, s.members[i]? = some m → m.execution = some x →
      x.branches = some branches → Gather.AllDone branches.children := by
    intro i m x branches found at_ there
    obtain ⟨own,there',all⟩ := (quiet m (List.mem_of_getElem? found)).2 x at_
    cases Option.some.inj (there.symm.trans there')
    exact all
  cases a with
  | notify => exact waits taken
  | wake => exact waits taken
  | branchNotify i =>
    simp only [step,bind,Option.bind_eq_some_iff] at taken
    obtain ⟨m,found,x,at_,branches,there,next,told,taken⟩ := taken
    cases taken
    exact exchanged (quietRunning rfl rfl (innerQuiet (inner found at_ there) (by simp) told))
  | branchWake i =>
    simp only [step,bind,Option.bind_eq_some_iff] at taken
    obtain ⟨m,found,x,at_,branches,there,next,woken,taken⟩ := taken
    split at taken
    · simp only [State.close,bind,Option.bind_eq_some_iff] at taken
      obtain ⟨outer,_,taken⟩ := taken
      cases taken
      exact exchanged (quietEnded rfl)
    · cases taken
      exact exchanged (quietRunning rfl rfl (innerQuiet (inner found at_ there) (by simp) woken))
  | start | functionEnds | executeEnds | branchEnds | expire | cancel => cases inward

end Quiet

theorem joinedDone (how : Gather.Ending Raised (Command V)) :
    (promiseOf (leave text job deadline requests (joined how))).done = true := by
  have kept : ∀ own : Own (Result V), own ≠ .escaped → (promiseOf (leave text job deadline requests own)).done = true := by
    intro own real
    cases deadline with
    | none => cases own <;> first | rfl | exact absurd rfl real
    | some deadline =>
      simp only [leave,Scope.leave]
      split
      · cases own with
        | returned value => rfl
        | raised error => cases error <;> rfl
        | escaped => exact absurd rfl real
        | cancelled why =>
          simp only
          split <;> rfl
      · cases own with
        | returned value => rfl
        | raised error => cases error <;> rfl
        | escaped => exact absurd rfl real
        | cancelled why => rfl
  refine kept (joined how) ?_
  cases how with
  | returned commands => simp [joined]
  | failed cause => cases cause <;> simp [joined]

theorem finishTaken {child : Gather.Child Raised (Result V)} (beside : s.outer.children[i]? = some child)
    (open_ : child.done = false) (done : p.done = true) : ∃ outer, Gather.step s.outer (.finish i p) = some outer := by
  simp [Gather.step,beside,open_,done]

section Still
variable (still : ∀ a, Inward a → step text copyable keepRefKeys s a = none)
include still

/- A node with nothing left to do has ended once the event loop has nothing left either. -/
theorem stillMember (holds : Holds text copyable keepRefKeys polite jobs r s) (found : s.members[i]? = some m)
    (quiet : Quiet m) : ∃ ended, m.stage = .ended ended := by
  cases stage : m.stage with
  | created => exact absurd stage quiet.1
  | ended branches => exact ⟨branches,rfl⟩
  | running x =>
    have at_ : m.execution = some x := by rw [Member.execution,stage]
    obtain ⟨branches,there,all⟩ := quiet.2 x at_
    obtain ⟨_,child,beside,own⟩ := memberOf holds found
    obtain ⟨_,pending,live⟩ := runningHolds own at_
    obtain ⟨k,q,shape,inner,more⟩ := liveBranches live there
    rcases Gather.goesOn (Gather.runHolds inner.ran) all more with ⟨next,told⟩ | ⟨next,how,woken,over_⟩
    · have none_ := still (.branchNotify i) trivial
      simp only [step,found,at_,there,told,bind,Option.bind_some] at none_
      cases none_
    · have open_ : child.done = false := by rw [Gather.Child.done,pending]; rfl
      obtain ⟨outer,closed⟩ := finishTaken beside open_ (@joinedDone V text m.job m.requests x.deadline how)
      have none_ := still (.branchWake i) trivial
      simp only [step,found,at_,there,woken,over_,State.close,closed,bind,Option.bind_some] at none_
      cases none_

theorem stillEnded (holds : Holds text copyable keepRefKeys polite jobs r s) (quiet : ∀ m ∈ s.members, Quiet m) :
    ∃ how, s.outer.phase = .ended how := by
  obtain ⟨o,outer,_,_⟩ := holds.outer
  have known := Gather.runHolds outer
  have all : Gather.AllDone s.outer.children := by
    intro child member
    obtain ⟨i,beside⟩ := List.getElem?_of_mem member
    obtain ⟨m,child',found,beside',_,own⟩ := memberAt holds (known.size ▸ Slots.inside beside)
    cases Option.some.inj (beside.symm.trans beside')
    exact (waitingDone own).mpr (stillMember still holds found (quiet m (List.mem_of_getElem? found)))
  by_contra open_
  rcases Gather.goesOn known all (fun how at_ => open_ ⟨how,at_⟩) with ⟨next,told⟩ | ⟨next,how,woken,_⟩
  · have none_ := still .notify trivial
    simp only [step,State.wait,told,bind,Option.bind_some] at none_
    cases none_
  · have none_ := still .wake trivial
    simp only [step,State.wait,woken,bind,Option.bind_some] at none_
    cases none_

end Still

/- The task that waits for a batch waits for the code of its nodes alone: with nothing
left to be done by that, the event loop takes it to its end, in whatever order it goes. -/
theorem drains (ran : Machine.run (step text copyable keepRefKeys) (initial jobs) r = some s)
    (quiet : ∀ m ∈ s.members, Quiet m) :
    (∃ acts t how, (∀ a ∈ acts, Inward a) ∧ Machine.run (step text copyable keepRefKeys) s acts = some t ∧
      t.outer.phase = .ended how) ∧
    ∀ acts t, (∀ a ∈ acts, Inward a) → Machine.run (step text copyable keepRefKeys) s acts = some t →
      acts.length ≤ s.rank ∧
      ((∀ a, Inward a → step text copyable keepRefKeys t a = none) → ∃ how, t.outer.phase = .ended how) := by
  have down : ∀ (s : State V) (a : Action V) (t : State V), Inward a → step text copyable keepRefKeys s a = some t →
      t.rank < s.rank := fun _ _ _ => stepDown
  have ends : ∀ acts t, (∀ a ∈ acts, Inward a) → Machine.run (step text copyable keepRefKeys) s acts = some t →
      (∀ a, Inward a → step text copyable keepRefKeys t a = none) → ∃ how, t.outer.phase = .ended how := by
    intro acts t inward later still
    refine stillEnded still (runHolds (Machine.runAppend.mpr ⟨s,ran,later⟩)) ?_
    exact Machine.invariantWhere (P := fun s => ∀ m ∈ s.members, Quiet m) (fun _ _ _ => stepQuiet) inward quiet later
  constructor
  · obtain ⟨acts,t,inward,later,still⟩ := Machine.exhaust down s
    obtain ⟨how,over_⟩ := ends acts t inward later still
    exact ⟨acts,t,how,inward,later,over_⟩
  · intro acts t inward later
    have few := Machine.runFew down inward later
    exact ⟨by omega,ends acts t inward later⟩

section Sample

/- A node beside a parallel one, which runs out of time or returns. -/
def fetchJobs : List Job := [⟨"fetch",.regular,some ⟨5,by decide⟩⟩,⟨"score",.parallel 2,none⟩]
def fetchStep : State Nat → Action Nat → Option (State Nat) := step (fun _ => "5") (fun _ => true) []
def gave (n : Nat) : Own (Returns Nat) := .returned (.one (.mapping (Dict.empty.set "n" (.value n))))

def fetchRun : List (Action Nat) := [.start 0 .empty,.start 1 .empty,.branchEnds 1 1 (gave 2),.functionEnds 0 (gave 0),
  .branchEnds 1 0 (gave 1),.branchNotify 1,.branchNotify 1,.branchWake 1,.notify,.notify,.wake]

/- The code of the first node has ended, and that of both branches of the second. -/
def fetchQuiet : List (Action Nat) := fetchRun.take 5

def quiet (m : Member V) : Bool :=
  match m.stage with
  | .created => false
  | .running x => (x.branches.map (fun branches => branches.children.all Gather.Child.done)).getD false
  | .ended _ => true

theorem quietOf (still : quiet m = true) : Quiet m := by
  unfold quiet at still
  split at still
  · cases still
  · rename_i x stage
    refine ⟨by rw [stage]; simp,?_⟩
    intro y at_
    rw [Member.execution,stage] at at_
    cases at_
    cases there : x.branches with
    | none =>
      rw [there] at still
      cases still
    | some branches =>
      rw [there] at still
      exact ⟨branches,rfl,List.all_eq_true.mp still⟩
  · rename_i branches stage
    refine ⟨by rw [stage]; simp,?_⟩
    intro y at_
    rw [Member.execution,stage] at at_
    cases at_

theorem quietFetch : ∃ s, Machine.run fetchStep (initial fetchJobs) fetchQuiet = some s ∧ s.outer.phase = .waiting ∧
    s.members.all quiet = true := ⟨_,rfl,rfl,rfl⟩

theorem drainsFetch : ∃ s, Machine.run fetchStep (initial fetchJobs) fetchQuiet = some s ∧
    (∃ acts t how, (∀ a ∈ acts, Inward a) ∧ Machine.run fetchStep s acts = some t ∧ t.outer.phase = .ended how) ∧
    ∀ acts t, (∀ a ∈ acts, Inward a) → Machine.run fetchStep s acts = some t →
      acts.length ≤ s.rank ∧ ((∀ a, Inward a → fetchStep t a = none) → ∃ how, t.outer.phase = .ended how) := by
  obtain ⟨s,ran,_,still⟩ := quietFetch
  exact ⟨s,ran,drains ran (fun m member => quietOf (List.all_eq_true.mp still m member))⟩

end Sample

end Apixis.NodeBatch
