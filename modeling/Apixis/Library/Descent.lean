import Apixis.Library.Slots
import Mathlib.Order.Monotone.Basic
import Mathlib.Order.WellFounded

/-! What comes to rest in an execution without end: a quantity that never grows in
a well-founded order, and the entries of a store of which only so many are marked
and each of which can be worked on only so often. -/
namespace Apixis.Descent

variable {κ : Type*} [PartialOrder κ] [WellFoundedLT κ]

/- What never goes up in a well-founded order stops going down. -/
theorem settles {κ : Type*} [PartialOrder κ] [WellFoundedLT κ] {f : Nat → κ}
    (down : ∀ n, f (n + 1) ≤ f n) : ∃ N, ∀ n ≥ N, f n = f N := by
  obtain ⟨_,⟨N,rfl⟩,least⟩ := WellFounded.has_min wellFounded_lt (Set.range f) ⟨f 0,0,rfl⟩
  refine ⟨N,?_⟩
  intro n late
  have lower := antitone_nat_of_succ_le down late
  exact lower.eq_of_not_lt (least (f n) ⟨n,rfl⟩)

theorem settlesBelow {f : Nat → Nat} {bound : Nat} (up : ∀ n, f n ≤ f (n + 1)) (few : ∀ n, f n ≤ bound) :
    ∃ N, ∀ n ≥ N, f n = f N := by
  have down : ∀ n, bound - f (n + 1) ≤ bound - f n := by
    intro n
    have more := up n
    omega
  obtain ⟨N,still⟩ := settles (f := fun n => bound - f n) down
  refine ⟨N,?_⟩
  intro n late
  have same := still n late
  have one := few n
  have two := few N
  omega

theorem settlesAll {k : Nat} {P : Nat → Nat → Prop} (each : ∀ i < k, ∃ N, ∀ n ≥ N, P i n) :
    ∃ N, ∀ i < k, ∀ n ≥ N, P i n := by
  induction k with
  | zero => exact ⟨0,by simp⟩
  | succ k ih =>
    obtain ⟨N,before⟩ := ih (fun i small => each i (Nat.lt_succ_of_lt small))
    obtain ⟨K,last⟩ := each k (Nat.lt_succ_self k)
    refine ⟨max N K,?_⟩
    intro i small n late
    rcases Nat.lt_succ_iff_lt_or_eq.mp small with less | rfl
    · exact before i less n (le_trans (le_max_left N K) late)
    · exact last n (le_trans (le_max_right N K) late)

theorem settlesSteps {f : Nat → κ} {P : Nat → Prop} (down : ∀ n, f (n + 1) ≤ f n)
    (less : ∀ n, P n → f (n + 1) < f n) : ∃ N, ∀ n ≥ N, ¬ P n := by
  obtain ⟨N,still⟩ := settles down
  refine ⟨N,?_⟩
  intro n late here
  have moved := less n here
  rw [still n late,still (n + 1) (Nat.le_succ_of_le late)] at moved
  exact lt_irrefl _ moved

section Store
variable {α : Type*} {l l' : List α}

theorem countGrown {marked : α → Bool} (kept : ∀ (i : Nat) x, l[i]? = some x → ∃ y, l'[i]? = some y ∧ marked y = marked x) :
    l'.countP marked = l.countP marked + (l'.drop l.length).countP marked := by
  induction l generalizing l' with
  | nil => simp
  | cons head tail ih =>
    obtain ⟨y,first,same⟩ := kept 0 head rfl
    cases l' with
    | nil => simp at first
    | cons head' tail' =>
      cases Option.some.inj first
      have rest : tail'.countP marked = tail.countP marked + (tail'.drop tail.length).countP marked :=
        ih (fun i x found => kept (i + 1) x found)
      simp only [List.countP_cons,List.length_cons,List.drop_succ_cons,rest,same]
      omega

/- Where the marked entries are bounded in number and every step on an entry makes
its measure smaller, the marked entries come to rest. -/
theorem storeSettles (store : Nat → List α) (marked : α → Bool) (measure : α → κ)
    (works : Nat → Nat → Prop) {bound : Nat}
    (kept : ∀ n (i : Nat) x, (store n)[i]? = some x → ∃ y, (store (n + 1))[i]? = some y ∧
      marked y = marked x ∧ measure y ≤ measure x ∧ (works n i → measure y < measure x))
    (few : ∀ n, (store n).countP marked ≤ bound) :
    ∃ N, ∀ n ≥ N, ∀ (i : Nat) x, (store n)[i]? = some x → marked x = true → ¬ works n i := by
  have grown : ∀ n, (store (n + 1)).countP marked = (store n).countP marked +
      ((store (n + 1)).drop (store n).length).countP marked := by
    intro n
    refine countGrown ?_
    intro i x found
    obtain ⟨y,there,same,_⟩ := kept n i x found
    exact ⟨y,there,same⟩
  obtain ⟨N,still⟩ := settlesBelow (fun n => by rw [grown n]; exact Nat.le_add_right _ _) few
  have present : ∀ n (i : Nat) x, (store N)[i]? = some x → ∃ y, (store (N + n))[i]? = some y := by
    intro n
    induction n with
    | zero => exact fun i x found => ⟨x,found⟩
    | succ n ih =>
      intro i x found
      obtain ⟨y,there⟩ := ih i x found
      obtain ⟨z,next,_⟩ := kept (N + n) i y there
      exact ⟨z,next⟩
  -- from `N` on no marked entry is new
  have old : ∀ n (i : Nat) x, (store (N + n))[i]? = some x → marked x = true → i < (store N).length := by
    intro n
    induction n with
    | zero => exact fun i x found _ => Slots.inside found
    | succ n ih =>
      intro i y there mark
      have more := grown (N + n)
      rw [show N + n + 1 = N + (n + 1) from rfl,still (N + (n + 1)) (by omega),still (N + n) (by omega)] at more
      have none_ : ((store (N + (n + 1))).drop (store (N + n)).length).countP marked = 0 := by omega
      by_cases inside : i < (store (N + n)).length
      · obtain ⟨y',next,same,_⟩ := kept (N + n) i _ (List.getElem?_eq_getElem inside)
        cases Option.some.inj (next.symm.trans there)
        exact ih i _ (List.getElem?_eq_getElem inside) (same.symm.trans mark)
      · have late : ((store (N + (n + 1))).drop (store (N + n)).length)[i - (store (N + n)).length]? = some y := by
          rw [List.getElem?_drop,show (store (N + n)).length + (i - (store (N + n)).length) = i by omega]
          exact there
        have one := Slots.countPositive marked late mark
        omega
  have each : ∀ i < (store N).length, ∃ K, ∀ n ≥ K, ¬ works (N + n) i := by
    intro i inside
    have here : ∀ n, ∃ y, (store (N + n))[i]? = some y :=
      fun n => present n i _ (List.getElem?_eq_getElem inside)
    choose entry entries using here
    have moves : ∀ n, measure (entry (n + 1)) ≤ measure (entry n) ∧
        (works (N + n) i → measure (entry (n + 1)) < measure (entry n)) := by
      intro n
      obtain ⟨y,next,_,most,less⟩ := kept (N + n) i _ (entries n)
      cases Option.some.inj (next.symm.trans (entries (n + 1)))
      exact ⟨most,less⟩
    exact settlesSteps (f := fun n => measure (entry n)) (P := fun n => works (N + n) i)
      (fun n => (moves n).1) (fun n => (moves n).2)
  obtain ⟨K,rest⟩ := settlesAll each
  refine ⟨N + K,?_⟩
  intro n late i x found mark
  obtain ⟨k,rfl⟩ : ∃ k, n = N + k := ⟨n - N,by omega⟩
  exact rest i (old k i x found mark) k (by omega)

end Store
end Apixis.Descent
