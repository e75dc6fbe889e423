import Mathlib.Data.List.Forall2

/-! Objects that refer to one another. A store is the list of all objects ever made,
an address is a position in it; what a value shows is all that can be reached from
it, with its sharing and its cycles. -/
namespace Apixis.Heap

inductive Value (A : Type) where
  | atom (a : A)
  | ref (p : Nat)
  deriving DecidableEq, Repr

/- The label is everything about an object but the values it holds. -/
structure Object (L A : Type) where
  label : L
  slots : List (Value A)
  deriving DecidableEq, Repr

abbrev Store (L A : Type) := List (Object L A)

variable {L A : Type} {h h' : Store L A} {v w : Value A} {p q n : Nat} {o : Object L A}

inductive Reach (h : Store L A) (v : Value A) : Nat → Prop where
  | root {p : Nat} (same : v = .ref p) : Reach h v p
  | slot {p q : Nat} {o : Object L A} (before : Reach h v p) (found : h[p]? = some o)
      (points : .ref q ∈ o.slots) : Reach h v q

/- The part of a store that belongs together: nothing in it points outside. -/
def ClosedIn (h : Store L A) (S : Nat → Prop) : Prop :=
  ∀ p o, S p → h[p]? = some o → ∀ q, .ref q ∈ o.slots → S q

theorem reachAtom {a : A} : ¬ Reach h (.atom a) p := by
  intro reached
  induction reached with
  | root same => cases same
  | slot _ _ _ ih => exact ih

theorem reachTrans (first : Reach h v p) (second : Reach h (.ref p) q) : Reach h v q := by
  induction second with
  | root same => cases same; exact first
  | slot _ found points ih => exact .slot ih found points

theorem reachClosed {S : Nat → Prop} (closed : ClosedIn h S) (start : ∀ p, v = .ref p → S p)
    (reached : Reach h v p) : S p := by
  induction reached with
  | root same => exact start _ same
  | slot _ found points ih => exact closed _ _ ih found _ points

theorem reachAgree (same : ∀ p, Reach h v p → h'[p]? = h[p]?) : Reach h' v p ↔ Reach h v p := by
  have forth : ∀ p, Reach h' v p → Reach h v p := by
    intro p reached
    induction reached with
    | root start => exact .root start
    | slot _ found points ih => exact .slot ih ((same _ ih).symm.trans found) points
  refine ⟨forth p,?_⟩
  intro reached
  induction reached with
  | root start => exact .root start
  | slot before found points ih => exact .slot ih ((same _ before).trans found) points

/- What can be seen of a value, down to a depth. -/
inductive Tree (L A : Type) where
  | hidden
  | atom (a : A)
  | node (label : L) (children : List (Tree L A))

def view (h : Store L A) : Nat → Value A → Tree L A
  | 0, _ => .hidden
  | _ + 1, .atom a => .atom a
  | n + 1, .ref p => match h[p]? with
      | some o => .node o.label (o.slots.map (view h n))
      | none => .hidden

theorem viewAgree (same : ∀ p, Reach h v p → h'[p]? = h[p]?) : view h' n v = view h n v := by
  induction n generalizing v with
  | zero => rfl
  | succ n ih =>
    cases v with
    | atom a => rfl
    | ref p =>
      simp only [view,same p (.root rfl)]
      cases found : h[p]? with
      | none => rfl
      | some o =>
        simp only [Tree.node.injEq,true_and]
        refine List.map_congr_left ?_
        intro x member
        refine ih ?_
        intro q reached
        cases x with
        | atom a => exact absurd reached reachAtom
        | ref r => exact same q (reachTrans (.slot (.root rfl) found member) reached)

inductive Tree.All (P : L → Prop) : Tree L A → Prop where
  | hidden : Tree.All P .hidden
  | atom (a : A) : Tree.All P (.atom a)
  | node {label : L} {children : List (Tree L A)} (own : P label) (each : ∀ t ∈ children, Tree.All P t) :
      Tree.All P (.node label children)

theorem viewAll {P : L → Prop} (there : ∀ p, Reach h v p → p < h.length) :
    (∀ n, (view h n v).All P) ↔ ∀ p o, Reach h v p → h[p]? = some o → P o.label := by
  constructor
  · intro all
    have below : ∀ p, Reach h v p → ∀ n, (view h n (.ref p)).All P := by
      intro p reached
      induction reached with
      | root same => exact same ▸ all
      | slot _ found points ih =>
        intro n
        have parent := ih (n + 1)
        simp only [view,found] at parent
        cases parent with
        | node _ each => exact each _ (List.mem_map_of_mem points)
    intro p o reached found
    have own := below p reached 1
    simp only [view,found] at own
    cases own with
    | node own _ => exact own
  · intro labels n
    induction n generalizing v with
    | zero => exact .hidden
    | succ n ih =>
      cases v with
      | atom a => exact .atom a
      | ref p =>
        simp only [view]
        cases found : h[p]? with
        | none => exact .hidden
        | some o =>
          refine .node (labels p o (.root rfl) found) ?_
          intro t member
          obtain ⟨x,inside,rfl⟩ := List.mem_map.mp member
          have lower : ∀ q, Reach h x q → Reach h (.ref p) q := by
            intro q reached
            cases x with
            | atom a => exact absurd reached reachAtom
            | ref r => exact reachTrans (.slot (.root rfl) found inside) reached
          exact ih (fun q reached => there q (lower q reached)) (fun q o reached => labels q o (lower q reached))

/- The value that stands for another one under a renaming of addresses. -/
def Stands (m : Nat → Option Nat) : Value A → Value A → Prop
  | .atom a, .atom b => a = b
  | .ref p, .ref q => m p = some q
  | _, _ => False

/- `q` holds what `p` holds, renamed. -/
def Renamed (old new : Store L A) (m : Nat → Option Nat) (p q : Nat) : Prop :=
  ∃ o slots, old[p]? = some o ∧ new[q]? = some ⟨o.label,slots⟩ ∧ List.Forall₂ (Stands m) o.slots slots

/- `w` looks in the new store as `v` does in the old one, sharing included. -/
structure Twin (old new : Store L A) (m : Nat → Option Nat) (v w : Value A) : Prop where
  stands : Stands m v w
  renamed : ∀ p q, m p = some q → Renamed old new m p q
  apart : ∀ p p' q, m p = some q → m p' = some q → p = p'

variable {old new : Store L A} {m : Nat → Option Nat}

theorem standsMono {m' : Nat → Option Nat} (more : ∀ p q, m p = some q → m' p = some q)
    (stands : Stands m v w) : Stands m' v w := by
  cases v <;> cases w <;> first | exact stands | exact more _ _ stands

theorem twinView (twin : Twin old new m v w) (n : Nat) : view new n w = view old n v := by
  induction n generalizing v w with
  | zero => rfl
  | succ n ih =>
    cases v with
    | atom a => cases w with
      | atom b => cases twin.stands; rfl
      | ref q => exact absurd twin.stands id
    | ref p => cases w with
      | atom b => exact absurd twin.stands id
      | ref q =>
        obtain ⟨o,slots,before,after,each⟩ := twin.renamed p q twin.stands
        simp only [view,before,after]
        congr 1
        clear before after
        generalize o.slots = olds at each
        induction each with
        | nil => rfl
        | @cons x y xs ys here _ rest =>
          simp only [List.map_cons,List.cons.injEq]
          exact ⟨ih ⟨here,twin.renamed,twin.apart⟩,rest⟩

theorem forallLeft {R : Value A → Value A → Prop} {l r : List (Value A)} {x : Value A}
    (each : List.Forall₂ R l r) (member : x ∈ l) : ∃ y ∈ r, R x y := by
  induction each with
  | nil => cases member
  | @cons a b as bs here _ ih =>
    rcases List.mem_cons.mp member with rfl | later
    · exact ⟨b,List.mem_cons_self,here⟩
    · obtain ⟨y,inside,related⟩ := ih later
      exact ⟨y,List.mem_cons_of_mem _ inside,related⟩

theorem forallAt {α β : Type} {R : α → β → Prop} {l : List α} {r : List β} {i : Nat} {x : α}
    (each : List.Forall₂ R l r) (found : l[i]? = some x) : ∃ y, r[i]? = some y ∧ R x y := by
  induction each generalizing i with
  | nil => cases found
  | @cons a b as bs here _ ih =>
    cases i with
    | zero => cases Option.some.inj found; exact ⟨b,rfl,here⟩
    | succ i => exact ih found

theorem forallMem {α β : Type} {R S : α → β → Prop} {l : List α} {r : List β} (each : List.Forall₂ R l r)
    (imp : ∀ x y, x ∈ l → R x y → S x y) : List.Forall₂ S l r := by
  induction each with
  | nil => exact .nil
  | cons here _ ih =>
    exact .cons (imp _ _ List.mem_cons_self here) (ih (fun x y member => imp x y (List.mem_cons_of_mem _ member)))

theorem standsRef {x : Value A} (stands : Stands m (.ref p) x) : ∃ q, x = .ref q ∧ m p = some q := by
  cases x with
  | atom a => exact absurd stands id
  | ref q => exact ⟨q,rfl,stands⟩

theorem standsBack {x : Value A} (stands : Stands m x (.ref q)) : ∃ p, x = .ref p ∧ m p = some q := by
  cases x with
  | atom a => exact absurd stands id
  | ref p => exact ⟨p,rfl,stands⟩

/- A value and its twin reach the same objects, renamed. -/
theorem twinReach (twin : Twin old new m v w) (reached : Reach old v p) :
    ∃ q, m p = some q ∧ Reach new w q := by
  induction reached with
  | root same =>
    obtain ⟨q,there,renamed⟩ := standsRef (same ▸ twin.stands)
    exact ⟨q,renamed,.root there⟩
  | slot _ found points ih =>
    obtain ⟨q,renamed,reached⟩ := ih
    obtain ⟨o,slots,before,after,each⟩ := twin.renamed _ q renamed
    cases Option.some.inj (before.symm.trans found)
    obtain ⟨y,inside,stands⟩ := forallLeft each points
    obtain ⟨r,rfl,named⟩ := standsRef stands
    exact ⟨r,named,.slot reached after inside⟩

theorem twinBack (twin : Twin old new m v w) (reached : Reach new w q) :
    ∃ p, m p = some q ∧ Reach old v p := by
  induction reached with
  | root same =>
    obtain ⟨p,there,renamed⟩ := standsBack (same ▸ twin.stands)
    exact ⟨p,renamed,.root there⟩
  | slot _ found points ih =>
    obtain ⟨p,renamed,reached⟩ := ih
    obtain ⟨o,slots,before,after,each⟩ := twin.renamed p _ renamed
    cases Option.some.inj (after.symm.trans found)
    obtain ⟨y,inside,stands⟩ := forallLeft each.flip points
    obtain ⟨r,rfl,named⟩ := standsBack stands
    exact ⟨r,named,.slot reached before inside⟩

end Apixis.Heap
