import Mathlib.Logic.Function.Basic

/-! Variables that belong to a task, bound and put back block by block: that each has the
value of the innermost block around the code, or around the code that created the task. -/
namespace Apixis.ContextVars

variable {K V : Type} [DecidableEq K]

structure Token (K V : Type) where
  key : K
  old : V

structure Vars (K V : Type) where
  values : K → V
  tokens : List (Token K V)

def Vars.set (vars : Vars K V) (binding : K × V) : Vars K V :=
  ⟨Function.update vars.values binding.1 binding.2,⟨binding.1,vars.values binding.1⟩ :: vars.tokens⟩

def Vars.reset (vars : Vars K V) : Option (Vars K V) :=
  match vars.tokens with
  | [] => none
  | token :: rest => some ⟨Function.update vars.values token.key token.old,rest⟩

def Vars.copy (vars : Vars K V) : Vars K V := ⟨vars.values,[]⟩

def find (root : K → V) : List (K × V) → K → V
  | [], key => root key
  | (bound,value) :: around, key => if bound = key then value else find root around key

def Keeps (root : K → V) (outer : List (K × V)) : List (K × V) → List (Token K V) → Prop
  | [], [] => True
  | (key,_) :: own, token :: rest =>
      token = ⟨key,find root (own ++ outer) key⟩ ∧ Keeps root outer own rest
  | _, _ => False

/- A task in the blocks `own` that has been created inside `outer`. -/
structure Sees (root : K → V) (vars : Vars K V) (own outer : List (K × V)) : Prop where
  values : ∀ key, vars.values key = find root (own ++ outer) key
  tokens : Keeps root outer own vars.tokens

variable {root : K → V} {vars : Vars K V} {own outer : List (K × V)} {binding : K × V} {key : K}

theorem copySees (sees : Sees root vars own outer) : Sees root vars.copy [] (own ++ outer) :=
  ⟨sees.values,trivial⟩

theorem setSees (sees : Sees root vars own outer) : Sees root (vars.set binding) (binding :: own) outer := by
  refine ⟨?_,by rw [sees.values],sees.tokens⟩
  intro key
  by_cases same : key = binding.1
  · subst same
    simp [Vars.set,find]
  · simp only [Vars.set,Function.update_of_ne same,List.cons_append,find,if_neg (Ne.symm same)]
    exact sees.values key

theorem resetSees (sees : Sees root vars (binding :: own) outer) :
    ∃ after, vars.reset = some after ∧ Sees root after own outer := by
  obtain ⟨values,tokens⟩ := vars
  cases tokens with
  | nil => exact sees.tokens.elim
  | cons token rest =>
    obtain ⟨same,kept⟩ := sees.tokens
    refine ⟨_,rfl,?_,kept⟩
    intro key
    subst same
    by_cases same : key = binding.1
    · subst same
      exact Function.update_self _ _ _
    · simp only [Function.update_of_ne same]
      have now := sees.values key
      simp only [List.cons_append,find,if_neg (Ne.symm same)] at now
      exact now

theorem setReset : (vars.set binding).reset = some vars := by
  simp [Vars.set,Vars.reset]

end Apixis.ContextVars
