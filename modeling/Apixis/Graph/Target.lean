import Apixis.Utils.PyError

/-! Execution targets: `_is_valid_goto`, `_normalise_target` and
`_normalise_targets`. -/
namespace Apixis
open PyError (raiseIf)

def END : String := "__end__"

/- A node name, or the batch of nodes a list names. -/
inductive Target where
  | node (name : String)
  | batch (names : List String)
  deriving DecidableEq, Repr

/- What a command or an entry point may give: nothing, a target, or neither. -/
inductive Goto where
  | none
  | target (t : Target)
  | other
  deriving DecidableEq, Repr

namespace Target

def isValidGoto : Goto → Bool
  | .other => false
  | _ => true

def checkKnown (nodes : List String) : List String → Except PyError Unit
  | [] => .ok ()
  | name :: rest =>
      if nodes.contains name then checkKnown nodes rest
      else .error ⟨.valueError,"Unknown graph node `" ++ name ++ "`."⟩

/- Drop the end marker from a list and keep the first of equal names. -/
def distinctNames (names : List String) : List String := (names.filter (fun name => name != END)).eraseDups

def normaliseTarget (nodes : List String) : Goto → Except PyError Target
  | .other => .error ⟨.typeError,"Graph target must be a string, None, or list of strings."⟩
  | .none => .ok (.node END)
  | .target (.node name) =>
      if name = END then .ok (.node END)
      else do
        checkKnown nodes [name]
        return .node name
  | .target (.batch names) =>
      if distinctNames names = [] then .ok (.node END)
      else do
        checkKnown nodes (distinctNames names)
        return .batch (distinctNames names)

def normaliseTargets : Target → Except PyError (List String)
  | .node name => .ok [name]
  | .batch [] => .error ⟨.typeError,"Graph target must be a string or non-empty list of strings."⟩
  | .batch (name :: rest) => .ok (name :: rest)

/- A target as `_normalise_target` returns it. -/
def Normal (nodes : List String) : Target → Prop
  | .node name => name = END ∨ name ∈ nodes
  | .batch names => names ≠ [] ∧ distinctNames names = names ∧ ∀ name ∈ names, name ∈ nodes

variable {nodes names : List String} {t : Target} {g : Goto}

theorem knownAll {u : Unit} : checkKnown nodes names = .ok u ↔ ∀ name ∈ names, name ∈ nodes := by
  induction names with
  | nil => simp [checkKnown]
  | cons name rest ih =>
    unfold checkKnown
    by_cases known : name ∈ nodes
    · simp [known,ih]
    · simp [known]

theorem nodupFirsts (l : List String) : l.eraseDups.Nodup := by
  induction length : l.length using Nat.strongRecOn generalizing l with
  | ind n ih =>
    cases l with
    | nil => simp
    | cons name rest =>
      rw [List.eraseDups_cons,List.nodup_cons]
      refine ⟨by simp,?_⟩
      have shorter := List.length_filter_le (fun b => !b == name) rest
      exact ih _ (by simp only [List.length_cons] at length; omega) _ rfl

theorem firstsOfNodup {l : List String} (distinct : l.Nodup) : l.eraseDups = l := by
  induction l with
  | nil => rfl
  | cons name rest ih =>
    obtain ⟨fresh,tail⟩ := List.nodup_cons.mp distinct
    have same : rest.filter (fun b => !b == name) = rest := by
      refine List.filter_eq_self.mpr ?_
      intro b member
      have different : b ≠ name := fun equal => fresh (equal ▸ member)
      simpa using different
    rw [List.eraseDups_cons,same,ih tail]

theorem distinctTwice (names : List String) :
    distinctNames (distinctNames names) = distinctNames names := by
  have noEnd : (distinctNames names).filter (fun name => name != END) = distinctNames names := by
    refine List.filter_eq_self.mpr ?_
    intro name member
    exact (List.mem_filter.mp (List.mem_eraseDups.mp member)).2
  conv => lhs; rw [distinctNames,noEnd]
  exact firstsOfNodup (nodupFirsts _)

theorem normaliseNormal (normalised : normaliseTarget nodes g = .ok t) : Normal nodes t := by
  unfold normaliseTarget at normalised
  split at normalised
  · contradiction
  · cases normalised; exact .inl rfl
  · split at normalised
    · cases normalised; exact .inl rfl
    · obtain ⟨u,known,last⟩ := PyError.bindOk.mp normalised
      cases last
      exact .inr (knownAll.mp known _ List.mem_cons_self)
  · rename_i names
    split at normalised
    · cases normalised; exact .inl rfl
    · rename_i some_
      obtain ⟨u,known,last⟩ := PyError.bindOk.mp normalised
      cases last
      exact ⟨some_,distinctTwice names,knownAll.mp known⟩

/- Normalising again changes nothing. -/
theorem normaliseStable (normal : Normal nodes t) : normaliseTarget nodes (.target t) = .ok t := by
  cases t with
  | node name =>
    rcases normal with rfl | known
    · rfl
    · by_cases ended : name = END
      · simp [normaliseTarget,ended]
      · have all : checkKnown nodes [name] = .ok () := knownAll.mpr (by simpa using known)
        simp only [normaliseTarget,ended,if_false,all,bind,Except.bind,pure,Except.pure]
  | batch names =>
    obtain ⟨some_,same,known⟩ := normal
    have all : checkKnown nodes names = .ok () := knownAll.mpr known
    simp only [normaliseTarget,same,some_,if_false,all,bind,Except.bind,pure,Except.pure]

theorem normaliseTargetsNormal (normal : Normal nodes t) (more : t ≠ .node END) :
    ∃ names, normaliseTargets t = .ok names ∧ names ≠ [] ∧ names.Nodup ∧
      ∀ name ∈ names, name ∈ nodes := by
  cases t with
  | node name =>
    refine ⟨[name],rfl,by simp,by simp,?_⟩
    intro other member
    rw [List.mem_singleton.mp member]
    exact normal.resolve_left (fun ended => more (by rw [ended]))
  | batch names =>
    obtain ⟨some_,same,known⟩ := normal
    cases names with
    | nil => exact absurd rfl some_
    | cons name rest =>
      refine ⟨name :: rest,rfl,some_,?_,known⟩
      rw [← same]
      exact nodupFirsts _

end Target
end Apixis
