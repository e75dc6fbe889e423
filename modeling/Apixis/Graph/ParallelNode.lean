import Apixis.Graph.ApplyCommand
import Apixis.Graph.Node

/-! What the functions of a node may return and the commands a node makes of it, for a
`Node`, for the branches of a `ParallelNode` and for nodes of other classes; the
constructor of `ParallelNode`. -/
namespace Apixis.ParallelNode
open ApplyCommand
open PyError (raiseIf)

/- InvalidNodeReturnsError and TimeoutError beside the other exceptions. -/
inductive Raised where
  | error (e : PyError)
  | invalidReturns (message : String)
  | timeoutError (message : String)
  deriving DecidableEq, Repr

/- One value a function has returned: a command, whose update may be no mapping, a
mapping, or an object of another type. -/
inductive Returned (V : Type) where
  | command (update : Option (Dict String (Update V))) (goto : Goto)
  | mapping (entries : Dict String (Update V))
  | other (typeName : String)
  deriving DecidableEq

/- A list in a list is an object of type `list`. -/
inductive Returns (V : Type) where
  | one (value : Returned V)
  | list (values : List (Returned V))
  deriving DecidableEq

variable {V : Type}

def normaliseSingleResult : Returned V → Except Raised (Command V)
  | .command none _ => .error (.invalidReturns "Command.update must be a dict.")
  | .command (some update) goto =>
      if Target.isValidGoto goto then .ok ⟨some update,goto⟩
      else .error (.invalidReturns "Command.goto must be a string or None, or a list of strings.")
  | .mapping entries => .ok ⟨some entries,.none⟩
  | .other typeName => .error (.invalidReturns
      ("Node functions must return a dict or Command, or list[Command], got " ++ typeName ++ "."))

/- `BaseNode._normalise_result` -/
def normaliseResult : Returns V → Except Raised (Result V)
  | .one value => do
      let command ← normaliseSingleResult value
      return .command command
  | .list values => do
      let commands ← values.mapM normaliseSingleResult
      return .commands (commands.map some)

def normaliseOne (message : String) : Returns V → Except Raised (Command V)
  | .one value => normaliseSingleResult value
  | .list _ => .error (.invalidReturns message)

/- `Node._normalise_result` -/
def normaliseRegular : Returns V → Except Raised (Command V) :=
  normaliseOne "Regular node functions must return a dict or Command, not list[Command]."

/- `ParallelNode._normalise_result` -/
def normaliseBranch : Returns V → Except Raised (Command V) :=
  normaliseOne "Parallel node branch functions must return a dict or Command, not list[Command]."

section Constructor
variable {F : Type}

def functionOf : Node.Candidate F → Option F
  | .callable func _ _ => some func
  | .unusable => none

/- `ParallelNode.__init__`, where a missing name is no string and missing functions are
no list or tuple. -/
def init (funcs : Option (List (Node.Candidate F))) (name : Option String) (timeout : Node.Value) :
    Except PyError (Node.BaseNode F) :=
  match name with
  | none | some "" => .error ⟨.valueError,"A parallel graph node requires a name."⟩
  | some name => match funcs with
      | none => .error ⟨.typeError,"Parallel node functions must be a list or tuple."⟩
      | some funcs => do
          raiseIf funcs.isEmpty ⟨.valueError,"A parallel graph node requires at least one function."⟩
          raiseIf (funcs.any (fun func => (functionOf func).isNone))
            ⟨.valueError,"Every parallel graph node branch must be callable."⟩
          let timeout ← Node.normaliseTimeout timeout
          .ok ⟨"ParallelNode",some name,funcs.filterMap functionOf,timeout⟩

theorem functionsKept {funcs : List (Node.Candidate F)}
    (callable : ∀ func ∈ funcs, (functionOf func).isSome = true) :
    (funcs.filterMap functionOf).map some = funcs.map functionOf := by
  induction funcs with
  | nil => rfl
  | cons head tail ih =>
    obtain ⟨func,found⟩ := Option.isSome_iff_exists.mp (callable head List.mem_cons_self)
    have rest := ih (fun other member => callable other (List.mem_cons_of_mem _ member))
    rw [List.filterMap_cons_some found,List.map_cons,List.map_cons,rest,found]

/- A parallel node that has been constructed has a name, at least one branch, and a
branch for each function in the order in which they were given. -/
theorem initBranches {funcs : Option (List (Node.Candidate F))} {name : Option String} {timeout : Node.Value}
    {node : Node.BaseNode F} (made : init funcs name timeout = .ok node) :
    node.name = name ∧ name ≠ some "" ∧ node.func ≠ [] ∧
    ∃ given, funcs = some given ∧ node.func.map some = given.map functionOf := by
  unfold init at made
  split at made
  · cases made
  · cases made
  · rename_i name named
    split at made
    · cases made
    · rename_i given
      simp only [PyError.bindOk,PyError.raiseIfOk] at made
      obtain ⟨_,some_,_,callable,kept,_,made⟩ := made
      cases made
      have each : ∀ func ∈ given, (functionOf func).isSome = true := by
        intro func member
        have one := List.any_eq_false.mp callable func member
        simpa [Option.isSome_iff_ne_none] using one
      have same := functionsKept each
      refine ⟨rfl,fun empty => named (Option.some.inj empty),?_,given,rfl,same⟩
      intro none_
      rw [show given.filterMap functionOf = [] from none_] at same
      cases given with
      | nil => cases some_
      | cons head tail => cases same

end Constructor

/- A command that `apply_command` takes as it is. -/
def Formed (command : Command V) : Prop := command.update.isSome = true ∧ Target.isValidGoto command.goto = true

def FormedResult (result : Result V) : Prop := ∃ group, commandGroup result = .ok group ∧ ∀ command ∈ group, Formed command

variable {value : Returned V} {given : Returns V} {command : Command V} {result : Result V} {cause : Raised}
  {commands : List (Command V)}

theorem singleFormed (made : normaliseSingleResult value = .ok command) : Formed command := by
  unfold normaliseSingleResult at made
  split at made
  · cases made
  · split at made
    · rename_i valid
      cases made
      exact ⟨rfl,valid⟩
    · cases made
  · cases made
    exact ⟨rfl,rfl⟩
  · cases made

theorem oneFormed {message : String} (made : normaliseOne message given = .ok command) : Formed command := by
  cases given with
  | one value => exact singleFormed made
  | list values => cases made

theorem groupOf (commands : List (Command V)) : commandGroup (.commands (commands.map some)) = .ok commands := by
  have all : allCommands (commands.map some) = some commands := by
    induction commands with
    | nil => rfl
    | cons head tail ih => simp only [List.map_cons,allCommands,ih,Option.map_some]
  simp only [commandGroup,all]

theorem commandFormed (formed : Formed command) : FormedResult (.command command) := by
  refine ⟨[command],rfl,?_⟩
  intro other member
  rwa [List.mem_singleton.mp member]

theorem commandsFormed (formed : ∀ command ∈ commands, Formed command) : FormedResult (.commands (commands.map some)) :=
  ⟨commands,groupOf commands,formed⟩

theorem allSingle {values : List (Returned V)} (made : values.mapM normaliseSingleResult = .ok commands) :
    List.Forall₂ (fun value command => normaliseSingleResult value = .ok command) values commands := by
  induction values generalizing commands with
  | nil =>
    cases made
    exact .nil
  | cons head tail ih =>
    rw [List.mapM_cons] at made
    simp only [PyError.bindOk] at made
    obtain ⟨first,here,rest,later,made⟩ := made
    cases made
    exact .cons here (ih later)

theorem resultFormed (made : normaliseResult given = .ok result) : FormedResult result := by
  cases given with
  | one value =>
    obtain ⟨command,single,made⟩ := PyError.bindOk.mp made
    cases made
    exact commandFormed (singleFormed single)
  | list values =>
    obtain ⟨commands,all,made⟩ := PyError.bindOk.mp made
    cases made
    refine commandsFormed ?_
    intro command member
    obtain ⟨i,inside,rfl⟩ := List.getElem_of_mem member
    have each := (List.forall₂_iff_get.mp (allSingle all)).2 i ((allSingle all).length_eq ▸ inside) inside
    exact singleFormed each

/- Why `apply_command` may refuse commands that are formed. -/
inductive Refusal (values : Values V) (graph : NodeGraph.Compiled) (names : List String) : PyError → Prop where
  | copy : Refusal values graph names ⟨.copyError,"cannot copy state"⟩
  | conflict {node key : String} : node ∈ names → key ∉ graph.autoMergeKeys → Refusal values graph names (conflictError node key)
  | merge {key : String} {current update : V} {e : PyError} : key ∈ graph.autoMergeKeys →
      merged values key current update = .error e → Refusal values graph names e

section Commit
variable {values : Values V} {graph : NodeGraph.Compiled} {names : List String} {node : String} {batch left : Batch V} {e : PyError}

theorem noteRefused {key : String} (inside : node ∈ names) (failed : noteKey graph node key batch = .error e) :
    Refusal values graph names e := by
  unfold noteKey at failed
  split at failed
  · cases failed
  · rename_i normal
    split at failed
    · cases failed
      exact .conflict inside (by simpa using normal)
    · cases failed

theorem storedRefused {state : NodeGraph.StateDict V} {key : String} {update : Update V}
    (failed : stored values graph state key update = .error e) : Refusal values graph names e := by
  cases update with
  | reset v => cases failed
  | value v =>
    simp only [stored] at failed
    split at failed
    · rename_i auto
      split at failed
      · exact .merge (by simpa using auto) failed
      · cases failed
    · cases failed

theorem entryRefused {entry : String × Update V} (inside : node ∈ names)
    (failed : applyEntry values graph node batch entry = .error (e,left)) : Refusal values graph names e := by
  simp only [applyEntry,PyError.bindError,PyError.leavingError] at failed
  rcases failed with ⟨noted,_⟩ | ⟨_,_,⟨refused,_⟩ | ⟨_,_,failed⟩⟩
  · exact noteRefused inside noted
  · exact storedRefused refused
  · cases failed

theorem entriesRefused {entries : List (String × Update V)} (inside : node ∈ names)
    (failed : applyEntries values graph node batch entries = .error (e,left)) : Refusal values graph names e := by
  induction entries generalizing batch with
  | nil => cases failed
  | cons head tail ih =>
    rcases PyError.bindError.mp failed with first | ⟨next,_,later⟩
    · exact entryRefused inside first
    · exact ih later

theorem copyRefused {update : Dict String (Update V)} (failed : copyUpdate values graph update = .error e) :
    Refusal values graph names e := by
  simp only [copyUpdate,NodeGraph.copyState,PyError.bindError,raiseIf] at failed
  rcases failed with failed | ⟨_,_,failed⟩
  · split at failed
    · cases failed
      exact .copy
    · cases failed
  · cases failed

theorem gotoTaken {goto : Goto} (batch : Batch V) (valid : Target.isValidGoto goto = true) :
    ∃ next, collectGoto batch goto = .ok next := by
  unfold collectGoto
  split
  · cases valid
  · exact ⟨_,rfl⟩
  · exact ⟨_,rfl⟩
  · split <;> exact ⟨_,rfl⟩

theorem oneRefused (inside : node ∈ names) (formed : Formed command)
    (failed : applyOne values graph node batch command = .error (e,left)) : Refusal values graph names e := by
  obtain ⟨update,given⟩ := Option.isSome_iff_exists.mp formed.1
  simp only [applyOne,given,PyError.bindError,PyError.leavingError] at failed
  rcases failed with ⟨uncopied,_⟩ | ⟨_,_,wrote | ⟨written,_,goto,_⟩⟩
  · exact copyRefused uncopied
  · exact entriesRefused inside wrote
  · obtain ⟨next,taken⟩ := gotoTaken written formed.2
    rw [taken] at goto
    cases goto

theorem groupRefused (inside : node ∈ names) (formed : ∀ command ∈ commands, Formed command)
    (failed : applyGroup values graph node batch commands = .error (e,left)) : Refusal values graph names e := by
  induction commands generalizing batch with
  | nil => cases failed
  | cons head tail ih =>
    rcases PyError.bindError.mp failed with first | ⟨next,_,later⟩
    · exact oneRefused inside (formed head List.mem_cons_self) first
    · exact ih (fun command member => formed command (List.mem_cons_of_mem _ member)) later

theorem groupsRefused {groups : List (String × List (Command V))}
    (formed : ∀ group ∈ groups, group.1 ∈ names ∧ ∀ command ∈ group.2, Formed command)
    (failed : applyGroups values graph batch groups = .error (e,left)) : Refusal values graph names e := by
  induction groups generalizing batch with
  | nil => cases failed
  | cons head tail ih =>
    obtain ⟨inside,commands⟩ := formed head List.mem_cons_self
    rcases PyError.bindError.mp failed with first | ⟨next,_,later⟩
    · exact groupRefused inside commands first
    · exact ih (fun group member => formed group (List.mem_cons_of_mem _ member)) later

theorem groupsFormed {results : List (Result V)} (formed : ∀ result ∈ results, FormedResult result) :
    ∃ groups, commandGroups results = .ok groups ∧ ∀ group ∈ groups, ∀ command ∈ group, Formed command := by
  induction results with
  | nil => exact ⟨[],rfl,by simp⟩
  | cons head tail ih =>
    obtain ⟨group,here,commands⟩ := formed head List.mem_cons_self
    obtain ⟨groups,later,rest⟩ := ih (fun result member => formed result (List.mem_cons_of_mem _ member))
    refine ⟨group :: groups,?_,List.forall_mem_cons.mpr ⟨commands,rest⟩⟩
    simp only [commandGroups,here,later]
    rfl

/- What nodes make of the values of their functions is refused for what it says, never
for its form. -/
theorem commitRefused {results : List (Result V)} {target : Target} {state kept : NodeGraph.StateDict V}
    (named : Target.normaliseTargets target = .ok names) (count : results.length = names.length)
    (formed : ∀ result ∈ results, FormedResult result)
    (failed : commitBatch values graph results target state = .error (e,kept)) : Refusal values graph names e := by
  obtain ⟨groups,grouped,commands⟩ := groupsFormed formed
  have normal : normaliseCommandGroups results names = .ok groups := by
    simp only [normaliseCommandGroups,count,bne_self_eq_false,raiseIf,grouped]
    rfl
  simp only [commitBatch,named,normal,PyError.leavingReturned,bind,Except.bind] at failed
  split at failed
  · cases failed
  · rename_i error batch raised
    cases failed
    refine groupsRefused ?_ raised
    rintro ⟨node,group⟩ member
    obtain ⟨left,right⟩ := List.of_mem_zip member
    exact ⟨left,commands group right⟩

end Commit

end Apixis.ParallelNode
