import Apixis.Graph.ApplyCommand
import Apixis.Library.Loop
import Mathlib.Tactic.Ring

/-! What a graph is for: a sequential interpreter of its batches that knows no
events, tasks or attempts. A batch runs every node on its own copy of one state,
applies the commands in order, counts one step and follows the collected target. -/
namespace Apixis.Interpreter
open NodeGraph ApplyCommand

variable {V : Type}

/- What a batch starts from. -/
structure Config (V : Type) where
  state : StateDict V
  target : Target
  steps : Int
  deriving DecidableEq

/- The nodes of a graph, as functions of the state they receive. -/
abbrev Behaviour (V : Type) := String → StateDict V → Except PyError (Result V)

section Batch
variable (values : Values V) (behave : Behaviour V) (compiled : Compiled) (maxSteps : Int)

def advance (config : Config V) (results : List (Result V)) : Option (Config V) :=
  match Target.normaliseTargets config.target with
  | .error _ => none
  | .ok names => match commitBatch values compiled results (.batch names) config.state with
      | .error _ => none
      | .ok (next,state) => match Target.normaliseTarget compiled.nodes (.target next) with
          | .error _ => none
          | .ok target => some ⟨state,target,config.steps + 1⟩

def executeOne (state : StateDict V) (name : String) : Except PyError (Result V) := do
  let own ← copyState values.copyable compiled.keepRefKeys state
  behave name own

def executeAll (state : StateDict V) : List String → Except PyError (List (Result V))
  | [] => .ok []
  | name :: rest => do
      let result ← executeOne values behave compiled state name
      let results ← executeAll state rest
      return result :: results

/- One batch; none if it fails, if the budget is used up or at the end marker. -/
def follow (config : Config V) : Option (Config V) :=
  if config.target = .node END ∨ maxSteps ≤ config.steps then none
  else match Target.normaliseTargets config.target with
    | .error _ => none
    | .ok names => match executeAll values behave compiled config.state names with
        | .error _ => none
        | .ok results => advance values compiled config results

/- The state and the step count that a batch leaves which is not followed. -/
def leftover (config : Config V) : StateDict V × Int :=
  if maxSteps ≤ config.steps then (config.state,config.steps)
  else match Target.normaliseTargets config.target with
    | .error _ => (config.state,config.steps)
    | .ok names => match executeAll values behave compiled config.state names with
      | .error _ => (config.state,config.steps)
      | .ok results => match commitBatch values compiled results (.batch names) config.state with
        | .error (_,state) => (state,config.steps)
        | .ok (_,state) => (state,config.steps + 1)

def interpret (config : Config V) : Loop.Ending (Config V) :=
  Loop.run (fun config => config.target == .node END) (follow values behave compiled maxSteps)
    (fun config => (maxSteps - config.steps).toNat) config

end Batch

variable {values : Values V} {behave : Behaviour V} {compiled : Compiled} {maxSteps : Int}
  {config next : Config V} {results : List (Result V)} {n : Nat}

theorem advanceSteps (went : advance values compiled config results = some next) :
    next.steps = config.steps + 1 := by
  unfold advance at went
  split at went <;> try contradiction
  split at went <;> try contradiction
  split at went <;> try contradiction
  cases went
  rfl

theorem advanceNormal (went : advance values compiled config results = some next) :
    Target.Normal compiled.nodes next.target := by
  unfold advance at went
  split at went <;> try contradiction
  split at went <;> try contradiction
  split at went <;> try contradiction
  rename_i normalised
  cases went
  exact Target.normaliseNormal normalised

theorem followSome (went : follow values behave compiled maxSteps config = some next) :
    config.target ≠ .node END ∧ config.steps < maxSteps ∧ next.steps = config.steps + 1 := by
  unfold follow at went
  split at went <;> try contradiction
  rename_i open_
  obtain ⟨more,budget⟩ := not_or.mp open_
  split at went <;> try contradiction
  split at went <;> try contradiction
  exact ⟨more,not_le.mp budget,advanceSteps went⟩

theorem followNormal (went : follow values behave compiled maxSteps config = some next) :
    Target.Normal compiled.nodes next.target := by
  unfold follow at went
  split at went <;> try contradiction
  split at went <;> try contradiction
  split at went <;> try contradiction
  exact advanceNormal went

theorem followShrinks : ∀ one two : Config V, follow values behave compiled maxSteps one = some two →
    (maxSteps - two.steps).toNat < (maxSteps - one.steps).toNat := by
  intro one two went
  obtain ⟨_,budget,steps⟩ := followSome went
  omega

theorem followOpen : ∀ one two : Config V, follow values behave compiled maxSteps one = some two →
    (one.target == .node END) = false := by
  intro one two went
  simpa using (followSome went).1

theorem interpretUnfold : interpret values behave compiled maxSteps config =
    if config.target = .node END then .finished config
    else match follow values behave compiled maxSteps config with
      | some next => interpret values behave compiled maxSteps next
      | none => .failed := by
  rw [interpret,Loop.runUnfold followShrinks]
  simp only [beq_iff_eq]
  cases follow values behave compiled maxSteps config <;> rfl

theorem interpretAhead (reached : Loop.ahead (follow values behave compiled maxSteps) n config = some next) :
    interpret values behave compiled maxSteps config = interpret values behave compiled maxSteps next :=
  Loop.runAhead followShrinks followOpen reached

theorem aheadSteps (reached : Loop.ahead (follow values behave compiled maxSteps) n config = some next) :
    next.steps = config.steps + n := by
  induction n generalizing config with
  | zero => cases reached; simp
  | succ n ih =>
    obtain ⟨m,first,rest⟩ := Option.bind_eq_some_iff.mp reached
    obtain ⟨_,_,one⟩ := followSome first
    rw [ih rest,one]
    push_cast
    ring

theorem executeRaised {state : StateDict V} {names : List String} {name : String} {error : PyError}
    (member : name ∈ names)
    (raised : executeOne values behave compiled state name = .error error) :
    ∃ first, executeAll values behave compiled state names = .error first := by
  induction names with
  | nil => contradiction
  | cons head tail ih =>
    cases does : executeOne values behave compiled state head with
    | error first =>
      refine ⟨first,?_⟩
      simp only [executeAll,does]
      rfl
    | ok result =>
      rcases List.mem_cons.mp member with rfl | later
      · rw [does] at raised
        contradiction
      · obtain ⟨first,rest⟩ := ih later
        refine ⟨first,?_⟩
        simp only [executeAll,does,rest]
        rfl

def Falters (values : Values V) (behave : Behaviour V) (compiled : Compiled) (config : Config V) : Prop :=
  ∃ names error, Target.normaliseTargets config.target = .ok names ∧
    executeAll values behave compiled config.state names = .error error

theorem followRaised {names : List String} {error : PyError}
    (named : Target.normaliseTargets config.target = .ok names)
    (raised : executeAll values behave compiled config.state names = .error error) :
    follow values behave compiled maxSteps config = none := by
  simp only [follow,named,raised,ite_self]

theorem faltersLeft (falters : Falters values behave compiled config) :
    follow values behave compiled maxSteps config = none ∧
    leftover values behave compiled maxSteps config = (config.state,config.steps) := by
  obtain ⟨names,error,named,raised⟩ := falters
  refine ⟨followRaised named raised,?_⟩
  simp only [leftover,named,raised,ite_self]

theorem followReturned {names : List String} (more : config.target ≠ .node END)
    (budget : config.steps < maxSteps) (named : Target.normaliseTargets config.target = .ok names)
    (returned : executeAll values behave compiled config.state names = .ok results) :
    follow values behave compiled maxSteps config = advance values compiled config results := by
  have open_ : ¬ (config.target = .node END ∨ maxSteps ≤ config.steps) :=
    not_or.mpr ⟨more,not_le.mpr budget⟩
  simp only [follow,open_,if_false,named,returned]

theorem interpretFinished (past : config.target = .node END) :
    interpret values behave compiled maxSteps config = .finished config := by
  rw [interpretUnfold,if_pos past]

theorem interpretFailed (more : config.target ≠ .node END)
    (fails : follow values behave compiled maxSteps config = none) :
    interpret values behave compiled maxSteps config = .failed := by
  rw [interpretUnfold,if_neg more,fails]

end Apixis.Interpreter
