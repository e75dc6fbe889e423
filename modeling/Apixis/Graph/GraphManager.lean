import Apixis.Graph.Node
import Apixis.Graph.Target
import Apixis.Library.Dict
import Apixis.Library.Machine
import Mathlib.Logic.Function.Basic

/-! `GraphManager.add_node` and `add_nodes` over node instances that several managers
may share. A registration that raises is to change nothing. -/
namespace Apixis.GraphManager
open Node
open PyError (raiseIf raiseIfOk leaving leavingError stateOf)

variable {F : Type}

structure State (F : Type) where
  instances : Nat → BaseNode F
  /- How many instances there are; the next one gets this number. -/
  made : Nat
  /- `_nodes` of each manager. -/
  nodes : Nat → Dict String Nat

inductive Argument (F : Type) where
  | node (i : Nat)
  | function (func : Candidate F)
  deriving DecidableEq

namespace State

def make (s : State F) (node : BaseNode F) : State F :=
  {s with instances := Function.update s.instances s.made node, made := s.made + 1}

def setName (s : State F) (i : Nat) (name : String) : State F :=
  {s with instances := Function.update s.instances i {s.instances i with name := some name}}

def setTimeout (s : State F) (i : Nat) (value : Value) : Except PyError (State F) := do
  let timeout ← normaliseTimeout value
  .ok {s with instances := Function.update s.instances i {s.instances i with timeout := timeout}}

def setNode (s : State F) (m : Nat) (name : String) (i : Nat) : State F :=
  {s with nodes := Function.update s.nodes m ((s.nodes m).set name i)}

end State

def nodeOf (s : State F) (node_func : Argument F) (node_name : Option String) (timeout : Value) :
    Except (PyError × State F) (State F × Nat) :=
  match node_func, node_name with
  | .node i, some name => .ok (s.setName i name,i)
  | .node i, none => .ok (s,i)
  | .function func, _ => do
      let node ← leaving s (init func node_name timeout)
      .ok (s.make node,s.made)

/- A passed node takes over a timeout that is given. -/
def retime (s : State F) (i : Nat) (passed : Bool) (timeout : Value) : Except PyError (State F) :=
  if passed && timeout != .none then s.setTimeout i timeout else .ok s

def register (s : State F) (m i : Nat) (passed : Bool) (timeout : Value) : Except PyError (State F) := do
  let name ← getAttribute (s.instances i).typeName "name" (s.instances i).name
  raiseIf (name = END) ⟨.valueError,"`" ++ name ++ "` is a reserved graph node name."⟩
  raiseIf (name ∈ (s.nodes m).keys) ⟨.valueError,"Node `" ++ name ++ "` is already registered."⟩
  let s ← retime s i passed timeout
  .ok (s.setNode m name i)

def Argument.isNode : Argument F → Bool
  | .node _ => true
  | .function _ => false

def addNode (s : State F) (m : Nat) (node_func : Argument F) (node_name : Option String)
    (timeout : Value) : Except (PyError × State F) (State F) := do
  let (s,i) ← nodeOf s node_func node_name timeout
  leaving s (register s m i node_func.isNode timeout)

def addNodes (s : State F) (m : Nat) : List (Argument F) → Except (PyError × State F) (State F)
  | [] => .ok s
  | node_func :: rest => do
      let s ← addNode s m node_func none .none
      addNodes s m rest

def Argument.exists_ (s : State F) : Argument F → Bool
  | .node i => i < s.made
  | .function _ => true

inductive Action (F : Type) where
  /- A caller makes an instance of its own, of any class. -/
  | construct (node : BaseNode F)
  | addNode (m : Nat) (node_func : Argument F) (node_name : Option String) (timeout : Value)
  | addNodes (m : Nat) (node_list : List (Argument F))

def step (s : State F) : Action F → Option (State F)
  | .construct node => some (s.make node)
  | .addNode m node_func node_name timeout =>
      if node_func.exists_ s then some (stateOf (addNode s m node_func node_name timeout)) else none
  | .addNodes m node_list =>
      if node_list.all (fun node_func => node_func.exists_ s) then
        some (stateOf (addNodes s m node_list))
      else none

def initial : State F := ⟨fun _ => ⟨"",none,[],none⟩,0,fun _ => Dict.empty⟩

section State
variable {s : State F} {m i j : Nat} {name : String}

theorem makeOther {node : BaseNode F} (before : j < s.made) :
    (s.make node).instances j = s.instances j :=
  Function.update_of_ne (Nat.ne_of_lt before) _ _

theorem nameOfSame : ((s.setName i name).instances i).name = some name := by
  simp only [State.setName,Function.update_self]

theorem timeoutOfNamed (j : Nat) : ((s.setName i name).instances j).timeout = (s.instances j).timeout := by
  by_cases same : j = i
  · subst same
    simp only [State.setName,Function.update_self]
  · simp only [State.setName,Function.update_of_ne same]

theorem nameOfOther (other : j ≠ i) :
    ((s.setName i name).instances j).name = (s.instances j).name := by
  simp only [State.setName,Function.update_of_ne other]

theorem nameKept (same : (s.instances i).name = some name) (j : Nat) :
    ((s.setName i name).instances j).name = (s.instances j).name := by
  by_cases own : j = i
  · subst own
    rw [nameOfSame,same]
  · exact nameOfOther own

end State

section Register
variable {s t : State F} {m i : Nat} {passed : Bool} {timeout : Value}

structure Registrable (s : State F) (m i : Nat) (passed : Bool) (timeout : Value) (name : String) : Prop where
  named : (s.instances i).name = some name
  free : name ≠ END
  new : name ∉ (s.nodes m).keys
  usable : passed = true → Usable timeout

theorem timeoutSet : (∃ t, s.setTimeout i timeout = .ok t) ↔ Usable timeout := by
  rw [← timeoutStored]
  constructor
  · rintro ⟨t,set⟩
    obtain ⟨kept,stored,_⟩ := PyError.bindOk.mp set
    exact ⟨kept,stored⟩
  · rintro ⟨kept,stored⟩
    exact ⟨_,PyError.bindOk.mpr ⟨kept,stored,rfl⟩⟩

theorem retimed (passed : Bool) (timeout : Value) :
    (∃ t, retime s i passed timeout = .ok t) ↔ (passed = true → Usable timeout) := by
  unfold retime
  by_cases sets : (passed && timeout != .none) = true
  · rw [if_pos sets,timeoutSet]
    rw [Bool.and_eq_true] at sets
    exact ⟨fun usable _ => usable,fun usable => usable sets.1⟩
  · rw [if_neg sets]
    refine ⟨fun _ => ?_,fun _ => ⟨s,rfl⟩⟩
    rintro rfl
    have none_ : timeout = .none := by simpa using sets
    rw [none_]
    trivial

theorem registered (done : register s m i passed timeout = .ok t) :
    ∃ name mid, Registrable s m i passed timeout name ∧
      retime s i passed timeout = .ok mid ∧ t = mid.setNode m name i := by
  obtain ⟨name,named,done⟩ := PyError.bindOk.mp done
  obtain ⟨_,free,done⟩ := PyError.bindOk.mp done
  obtain ⟨_,new,done⟩ := PyError.bindOk.mp done
  obtain ⟨mid,set,last⟩ := PyError.bindOk.mp done
  have own : (s.instances i).name = some name := by
    cases has : (s.instances i).name with
    | none => rw [has] at named; cases named
    | some own => rw [has] at named; cases named; rfl
  have usable := (retimed passed timeout).mp ⟨mid,set⟩
  cases Except.ok.inj last
  exact ⟨name,mid,⟨own,of_decide_eq_false (raiseIfOk.mp free),of_decide_eq_false (raiseIfOk.mp new),usable⟩,
    set,rfl⟩

theorem registers {name : String} (can : Registrable s m i passed timeout name) :
    ∃ t, register s m i passed timeout = .ok t := by
  obtain ⟨mid,set⟩ := (retimed (s := s) (i := i) passed timeout).mpr can.usable
  refine ⟨mid.setNode m name i,PyError.bindOk.mpr ⟨name,?_,?_⟩⟩
  · rw [can.named]
    rfl
  · refine PyError.bindOk.mpr ⟨(),raiseIfOk.mpr (decide_eq_false can.free),?_⟩
    refine PyError.bindOk.mpr ⟨(),raiseIfOk.mpr (decide_eq_false can.new),?_⟩
    exact PyError.bindOk.mpr ⟨mid,set,rfl⟩

end Register

section AddNode
variable {s t : State F} {m : Nat} {node_func : Argument F} {node_name : Option String} {timeout : Value}

/- What a call that raises leaves behind: a passed node with the name it was given,
or a new node that nobody registers. -/
theorem raisedCases {error : PyError} (raised : addNode s m node_func node_name timeout = .error (error,t)) :
    t = s ∨ (∃ func node, node_func = .function func ∧ t = s.make node) ∨
      ∃ i name, node_func = .node i ∧ node_name = some name ∧ t = s.setName i name ∧
        ¬ Registrable t m i true timeout name := by
  rcases PyError.bindError.mp raised with early | ⟨⟨mid,i⟩,found,late⟩
  · cases node_func with
    | function func =>
      rcases PyError.bindError.mp early with refused | ⟨node,_,impossible⟩
      · exact .inl (leavingError.mp refused).2
      · cases impossible
    | node i => cases node_name <;> cases early
  · obtain ⟨refused,rfl⟩ := leavingError.mp late
    cases node_func with
    | function func =>
      obtain ⟨node,_,last⟩ := PyError.bindOk.mp found
      cases Except.ok.inj last
      exact .inr (.inl ⟨func,node,rfl,rfl⟩)
    | node j =>
      cases node_name with
      | none => cases found; exact .inl rfl
      | some name =>
        cases found
        refine .inr (.inr ⟨i,name,rfl,rfl,rfl,?_⟩)
        intro can
        obtain ⟨r,done⟩ := registers can
        rw [Argument.isNode,done] at refused
        cases refused

/- A call that renames a passed node and then refuses it raises. -/
theorem renamedRaises {i : Nat} {name : String}
    (refused : ¬ Registrable (s.setName i name) m i true timeout name) :
    ∃ error, addNode s m (.node i) (some name) timeout = .error (error,s.setName i name) := by
  cases entered : register (s.setName i name) m i true timeout with
  | error error => exact ⟨error,PyError.bindError.mpr (.inr ⟨_,rfl,leavingError.mpr ⟨entered,rfl⟩⟩)⟩
  | ok t =>
    obtain ⟨own,_,can,_,_⟩ := registered entered
    have same := Option.some.inj (nameOfSame.symm.trans can.named)
    rw [← same] at can
    exact absurd can refused

structure Unchanged (s t : State F) (m : Nat) (node_func : Argument F) : Prop where
  nodes : t.nodes m = s.nodes m
  passed : ∀ i, node_func = .node i →
    (t.instances i).name = (s.instances i).name ∧ (t.instances i).timeout = (s.instances i).timeout
  others : ∀ k name i, (s.nodes k).get name = some i →
    (t.instances i).name = (s.instances i).name ∧ (t.instances i).timeout = (s.instances i).timeout

/- The call gives a passed node no new name, or one it can be registered under. -/
def Keeps (s : State F) (m : Nat) (timeout : Value) : Argument F → Option String → Prop
  | .node i, some name => (s.instances i).name = some name ∨
      (name ≠ END ∧ name ∉ (s.nodes m).keys ∧ Usable timeout)
  | _, _ => True

instance : Decidable (Keeps s m timeout node_func node_name) := by
  unfold Keeps
  split <;> infer_instance

def Known (s : State F) : Prop := ∀ k name i, (s.nodes k).get name = some i → i < s.made

theorem unchanged (known : Known s) {error : PyError} (keeps : Keeps s m timeout node_func node_name)
    (raised : addNode s m node_func node_name timeout = .error (error,t)) :
    Unchanged s t m node_func := by
  rcases raisedCases raised with rfl | ⟨func,node,rfl,rfl⟩ | ⟨i,name,rfl,rfl,rfl,refused⟩
  · exact ⟨rfl,fun _ _ => ⟨rfl,rfl⟩,fun _ _ _ _ => ⟨rfl,rfl⟩⟩
  · refine ⟨rfl,fun i own => (by cases own),?_⟩
    intro k name i has
    rw [makeOther (known k name i has)]
    exact ⟨rfl,rfl⟩
  · have same : (s.instances i).name = some name := by
      rcases keeps with same | ⟨free,new,usable⟩
      · exact same
      · exact absurd ⟨nameOfSame,free,new,fun _ => usable⟩ refused
    exact ⟨rfl,fun j _ => ⟨nameKept same j,timeoutOfNamed j⟩,fun _ _ j _ => ⟨nameKept same j,timeoutOfNamed j⟩⟩

theorem nodeFound {i : Nat} (there : node_func.exists_ s = true)
    (found : nodeOf s node_func node_name timeout = .ok (t,i)) :
    t.nodes = s.nodes ∧ s.made ≤ t.made ∧ i < t.made := by
  cases node_func with
  | function func =>
    obtain ⟨node,_,last⟩ := PyError.bindOk.mp found
    cases Except.ok.inj last
    exact ⟨rfl,Nat.le_succ _,Nat.lt_succ_self _⟩
  | node j =>
    have made : j < s.made := of_decide_eq_true there
    cases node_name <;> cases found <;> exact ⟨rfl,Nat.le_refl _,made⟩

theorem retimeKeeps {i : Nat} {passed : Bool} (set : retime s i passed timeout = .ok t) :
    t.nodes = s.nodes ∧ t.made = s.made := by
  unfold retime at set
  split at set
  · obtain ⟨kept,_,last⟩ := PyError.bindOk.mp set
    cases Except.ok.inj last
    exact ⟨rfl,rfl⟩
  · cases Except.ok.inj set
    exact ⟨rfl,rfl⟩

theorem returned (there : node_func.exists_ s = true)
    (done : addNode s m node_func node_name timeout = .ok t) :
    s.made ≤ t.made ∧
      ∃ name i, i < t.made ∧ t.nodes = Function.update s.nodes m ((s.nodes m).set name i) := by
  obtain ⟨⟨mid,i⟩,found,last⟩ := PyError.bindOk.mp done
  obtain ⟨name,r,_,set,rfl⟩ := registered (PyError.leavingOk.mp last)
  obtain ⟨nodes,grown,made⟩ := nodeFound there found
  obtain ⟨entries,same⟩ := retimeKeeps set
  refine ⟨?_,name,i,?_,?_⟩
  · show s.made ≤ r.made
    rw [same]
    exact grown
  · show i < r.made
    rw [same]
    exact made
  · show Function.update r.nodes m ((r.nodes m).set name i) = _
    rw [entries,nodes]

theorem addNodeKnown (m : Nat) (node_name : Option String) (timeout : Value) (known : Known s)
    (there : node_func.exists_ s = true) :
    Known (stateOf (addNode s m node_func node_name timeout)) ∧
      s.made ≤ (stateOf (addNode s m node_func node_name timeout)).made := by
  cases call : addNode s m node_func node_name timeout with
  | error raised =>
    obtain ⟨error,t⟩ := raised
    rcases raisedCases call with rfl | ⟨func,node,rfl,rfl⟩ | ⟨i,name,rfl,rfl,rfl,_⟩
    · exact ⟨known,Nat.le_refl _⟩
    · exact ⟨fun k name i has => Nat.lt_succ_of_lt (known k name i has),Nat.le_succ _⟩
    · exact ⟨known,Nat.le_refl _⟩
  | ok t =>
    obtain ⟨grown,name,i,made,nodes⟩ := returned there call
    refine ⟨?_,grown⟩
    intro k other j has
    rw [stateOf,nodes,Function.update_apply] at has
    split at has
    · rw [Dict.getSet] at has
      split at has
      · cases Option.some.inj has
        exact made
      · exact Nat.lt_of_lt_of_le (known m other j has) grown
    · exact Nat.lt_of_lt_of_le (known k other j has) grown

end AddNode

section Run
variable {s t : State F}

theorem existsMono {node_func : Argument F} (grown : s.made ≤ t.made)
    (there : node_func.exists_ s = true) : node_func.exists_ t = true := by
  cases node_func with
  | function func => rfl
  | node i => exact decide_eq_true (Nat.lt_of_lt_of_le (of_decide_eq_true there) grown)

theorem addNodesKnown {m : Nat} {node_list : List (Argument F)} (known : Known s)
    (there : ∀ node_func ∈ node_list, node_func.exists_ s = true) :
    Known (stateOf (addNodes s m node_list)) := by
  induction node_list generalizing s with
  | nil => exact known
  | cons node_func rest ih =>
    obtain ⟨after,grown⟩ := addNodeKnown m none .none known (there node_func List.mem_cons_self)
    rw [addNodes]
    cases call : addNode s m node_func none .none with
    | error raised =>
      rw [call] at after
      exact after
    | ok mid =>
      rw [call] at after grown
      exact ih after (fun other member =>
        existsMono grown (there other (List.mem_cons_of_mem _ member)))

theorem stepKnown {a : Action F} (known : Known s) (taken : step s a = some t) : Known t := by
  cases a with
  | construct node =>
    cases Option.some.inj taken
    exact fun k name i has => Nat.lt_succ_of_lt (known k name i has)
  | addNode m node_func node_name timeout =>
    simp only [step] at taken
    split at taken <;> try contradiction
    rename_i there
    cases Option.some.inj taken
    exact (addNodeKnown m node_name timeout known there).1
  | addNodes m node_list =>
    simp only [step] at taken
    split at taken <;> try contradiction
    rename_i there
    cases Option.some.inj taken
    exact addNodesKnown known (List.all_eq_true.mp there)

theorem reachedKnown {acts : List (Action F)} (ran : Machine.run step initial acts = some s) : Known s :=
  Machine.invariant (fun _ _ _ => stepKnown) (fun k name i has => by cases has) ran

/- A registration that raises changes nothing exactly where it renames no node that
it then refuses. -/
theorem failedUnchanged {acts : List (Action F)} (ran : Machine.run step initial acts = some s) (m : Nat)
    (node_func : Argument F) (node_name : Option String) (timeout : Value) :
    (∀ error t, addNode s m node_func node_name timeout = .error (error,t) →
      Unchanged s t m node_func) ↔ Keeps s m timeout node_func node_name := by
  constructor
  · intro holds
    cases node_func with
    | function func => trivial
    | node i =>
      cases node_name with
      | none => trivial
      | some name =>
        by_cases can : Registrable (s.setName i name) m i true timeout name
        · exact .inr ⟨can.free,can.new,can.usable rfl⟩
        · obtain ⟨error,raised⟩ := renamedRaises can
          have kept := ((holds error _ raised).passed i rfl).1
          rw [nameOfSame] at kept
          exact .inl kept.symm
  · intro keeps error t raised
    exact unchanged (reachedKnown ran) keeps raised

end Run

/- A node that the first manager has under its own name is offered to the second. -/
def offered : List (Action Nat) :=
  [.construct ⟨"ParallelNode",some "fetch",[1,2],none⟩,.addNode 0 (.node 0) none .none,
    .addNode 1 (.function (.callable 3 "function" (some "plan"))) none .none]

def shared : State Nat := (Machine.run step initial offered).getD initial

/- The name is taken there: the call raises and the node has lost the name it had. -/
theorem failedRenames :
    ¬ ∀ (acts : List (Action Nat)) (s : State Nat) (m : Nat) (node_func : Argument Nat)
      (node_name : Option String) (timeout : Value), Machine.run step initial acts = some s →
      ∀ error t, addNode s m node_func node_name timeout = .error (error,t) →
        Unchanged s t m node_func := by
  intro claim
  have kept := (claim offered shared 1 (.node 0) (some "plan") .none rfl _ _ rfl).passed 0 rfl
  exact absurd kept.1 (by decide)

theorem failedUnchangedUnnamed :
    (∃ error t, addNode shared 1 (.node 0) none (.float .nan) = .error (error,t)) ∧
    ∀ error t, addNode shared 1 (.node 0) none (.float .nan) = .error (error,t) →
      Unchanged shared t 1 (.node 0) :=
  ⟨⟨_,_,rfl⟩,(@failedUnchanged Nat shared offered rfl 1 (.node 0) none (.float .nan)).mpr trivial⟩

end Apixis.GraphManager
