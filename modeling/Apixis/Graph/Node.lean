import Apixis.Utils.PyError
import Mathlib.Algebra.Order.Field.Rat

/-! Graph nodes as registration sees them: `BaseNode` with its timeout setter, and
the constructor of `Node`. -/
namespace Apixis.Node
open PyError (raiseIf)

inductive Float where
  | finite (q : ℚ)
  | inf
  | negInf
  | nan
  deriving DecidableEq

inductive Value where
  | none
  | bool (b : Bool)
  | int (n : Int)
  | float (x : Float)
  | other
  deriving DecidableEq

structure Seconds where
  value : ℚ
  positive : 0 < value
  deriving DecidableEq

/- `name` is missing until somebody assigns it: the class only declares it. -/
structure BaseNode (F : Type) where
  typeName : String
  name : Option String
  func : List F
  timeout : Option Seconds
  deriving DecidableEq

/- A natural number cut to 53 bits, ties to even. -/
def rounded (a : Nat) : Nat :=
  let unit := 2 ^ (a.log2 - 52)
  let cut := a / unit
  let rest := a % unit
  (if unit < 2 * rest ∨ (2 * rest = unit ∧ cut % 2 = 1) then cut + 1 else cut) * unit

def fits (n : Int) : Bool := (rounded n.natAbs).log2 < 1024

/- `float(n)`: the nearest double, if there is one. -/
def float (n : Int) : Except PyError ℚ :=
  if fits n then .ok (n.sign * rounded n.natAbs)
  else .error ⟨.overflowError,"int too large to convert to float"⟩

def normalised (q : ℚ) : Option Seconds := if positive : 0 < q then some ⟨q,positive⟩ else none

def normaliseTimeout : Value → Except PyError (Option Seconds)
  | .none => .ok none
  | .bool _ | .other => .error ⟨.typeError,"Node timeout must be a number or None."⟩
  | .int n => (float n).map normalised
  | .float (.finite q) => .ok (normalised q)
  | .float _ => .error ⟨.valueError,"Node timeout must be finite."⟩

def Usable : Value → Prop
  | .none | .float (.finite _) => True
  | .int n => fits n = true
  | .bool _ | .other | .float _ => False

instance (v : Value) : Decidable (Usable v) := by
  unfold Usable
  split <;> infer_instance

theorem timeoutStored {v : Value} : (∃ kept, normaliseTimeout v = .ok kept) ↔ Usable v := by
  cases v with
  | none | bool _ | other => simp [normaliseTimeout,Usable]
  | int n =>
    simp only [normaliseTimeout,Usable,float]
    cases fits n <;> simp [Except.map]
  | float x => cases x <;> simp [normaliseTimeout,Usable]

example : normaliseTimeout (.float (.finite (-1))) = .ok none := by decide

/- A callable has a `__name__` or not. -/
inductive Candidate (F : Type) where
  | callable (func : F) (typeName : String) (name : Option String)
  | unusable
  deriving DecidableEq

def getAttribute (typeName field : String) : Option String → Except PyError String
  | some value => .ok value
  | none => .error ⟨.attributeError,
      "'" ++ typeName ++ "' object has no attribute '" ++ field ++ "'"⟩

/- `name or func.__name__` -/
def chosenName (typeName : String) (own : Option String) (name : Option String) : Except PyError String :=
  match name with
  | some name => if name = "" then getAttribute typeName "__name__" own else .ok name
  | none => getAttribute typeName "__name__" own

def init {F : Type} (func : Candidate F) (name : Option String) (timeout : Value) :
    Except PyError (BaseNode F) :=
  match func with
  | .unusable => .error ⟨.valueError,"A graph node requires a callable function."⟩
  | .callable func typeName own => do
      let name ← chosenName typeName own name
      raiseIf (name = "") ⟨.valueError,"A graph node requires a name."⟩
      let timeout ← normaliseTimeout timeout
      .ok ⟨"Node",some name,[func],timeout⟩

end Apixis.Node
