import Mathlib.Data.List.Count

/-! Lists used as stores: a position is an identity, entries are replaced in
place or appended and never removed. Counting over such a store moves by what
the replaced entry gives up and the new one brings. -/
namespace Apixis.Slots

universe u
variable {α : Type u} {l : List α} {i j : Nat} {x y z : α}

theorem inside (found : l[i]? = some x) : i < l.length :=
  (List.getElem?_eq_some_iff.mp found).1

theorem setSame (found : l[i]? = some x) : (l.set i y)[i]? = some y := by
  simp [inside found]

theorem setOther (different : i ≠ j) : (l.set i y)[j]? = l[j]? := by
  simp [different]

theorem setCases (found : (l.set i y)[j]? = some z) :
    (i = j ∧ z = y) ∨ (i ≠ j ∧ l[j]? = some z) := by
  by_cases same : i = j
  · subst same
    rw [List.getElem?_set] at found
    simp only [if_true] at found
    split at found
    · exact .inl ⟨rfl,(Option.some.inj found).symm⟩
    · contradiction
  · exact .inr ⟨same,by rwa [setOther same] at found⟩

theorem appendCases (found : (l ++ [y])[j]? = some z) :
    (j = l.length ∧ z = y) ∨ l[j]? = some z := by
  rw [List.getElem?_append] at found
  split at found
  · exact .inr found
  · rename_i outside
    have bound := inside found
    simp only [List.length_singleton] at bound
    have place : j = l.length := by omega
    subst place
    exact .inl ⟨rfl,by simpa using found.symm⟩

theorem appendNew : (l ++ [y])[l.length]? = some y := by simp

theorem appendOld (found : l[j]? = some z) : (l ++ [y])[j]? = some z := by
  rw [List.getElem?_append_left (inside found)]
  exact found

theorem mapSet {β : Type u} (f : α → β) (found : l[i]? = some x) (same : f y = f x) :
    (l.set i y).map f = l.map f := by
  induction l generalizing i with
  | nil => rfl
  | cons head tail ih =>
    cases i with
    | zero =>
      cases Option.some.inj found
      rw [List.set_cons_zero,List.map_cons,List.map_cons,same]
    | succ i =>
      rw [List.set_cons_succ,List.map_cons,List.map_cons,ih (by simpa using found)]

theorem flattenPlace {lists : List (List α)} {a b : List α} (apart : lists.flatten.Nodup)
    (first : lists[i]? = some a) (second : lists[j]? = some b) (inFirst : x ∈ a) (inSecond : x ∈ b) :
    i = j := by
  induction lists generalizing i j with
  | nil => cases first
  | cons head tail ih =>
    rw [List.flatten_cons,List.nodup_append] at apart
    obtain ⟨_,rest,disjoint⟩ := apart
    have later : ∀ {k : Nat} {c : List α}, tail[k]? = some c → x ∈ c → x ∈ tail.flatten := fun found member =>
      List.mem_flatten.mpr ⟨_,List.mem_of_getElem? found,member⟩
    cases i with
    | zero =>
      cases Option.some.inj first
      cases j with
      | zero => rfl
      | succ j => exact absurd rfl (disjoint x inFirst x (later (by simpa using second) inSecond))
    | succ i =>
      have found : tail[i]? = some a := by simpa using first
      cases j with
      | zero =>
        cases Option.some.inj second
        exact absurd rfl (disjoint x inSecond x (later found inFirst))
      | succ j => rw [ih rest found (by simpa using second)]

theorem countSet (p : α → Bool) (found : l[i]? = some x) :
    (l.set i y).countP p + (if p x then 1 else 0) = l.countP p + (if p y then 1 else 0) := by
  induction l generalizing i with
  | nil => simp at found
  | cons head tail ih =>
    cases i with
    | zero =>
      cases Option.some.inj found
      simp only [List.set_cons_zero,List.countP_cons]
      omega
    | succ i =>
      have rest := ih (i := i) (by simpa using found)
      simp only [List.set_cons_succ,List.countP_cons]
      omega

theorem countSetSame (p : α → Bool) (found : l[i]? = some x) (same : p y = p x) :
    (l.set i y).countP p = l.countP p := by
  have moved := countSet (y := y) p found
  rw [same] at moved
  omega

theorem countAppend (p : α → Bool) : (l ++ [y]).countP p = l.countP p + (if p y then 1 else 0) := by
  simp [List.countP_append,List.countP_cons]

theorem countPositive (p : α → Bool) (found : l[i]? = some x) (good : p x = true) :
    0 < l.countP p :=
  List.countP_pos_iff.mpr ⟨x,List.mem_of_getElem? found,good⟩

theorem countUnique (p : α → Bool) (few : l.countP p ≤ 1) (first : l[i]? = some x)
    (second : l[j]? = some y) (left : p x = true) (right : p y = true) : i = j := by
  induction l generalizing i j with
  | nil => simp at first
  | cons head tail ih =>
    simp only [List.countP_cons] at few
    cases i with
    | zero =>
      cases Option.some.inj first
      cases j with
      | zero => rfl
      | succ j =>
        have more := countPositive (l := tail) (i := j) p (by simpa using second) right
        simp only [left,if_true] at few
        omega
    | succ i =>
      cases j with
      | zero =>
        cases Option.some.inj second
        have more := countPositive (l := tail) (i := i) p (by simpa using first) left
        simp only [right,if_true] at few
        omega
      | succ j =>
        have same := ih (i := i) (j := j) (by omega) (by simpa using first) (by simpa using second)
        rw [same]

theorem countFew (p : α → Bool) (unique : ∀ (i j : Nat) (x y : α), l[i]? = some x → l[j]? = some y →
    p x = true → p y = true → i = j) : l.countP p ≤ 1 := by
  induction l with
  | nil => simp
  | cons head tail ih =>
    have few := ih (fun i j x y hx hy px py =>
      Nat.succ.inj (unique (i + 1) (j + 1) x y (by simpa using hx) (by simpa using hy) px py))
    simp only [List.countP_cons]
    cases good : p head with
    | false => simpa using few
    | true =>
      have none_ : tail.countP p = 0 := by
        refine List.countP_eq_zero.mpr ?_
        intro y member py
        obtain ⟨j,found⟩ := List.getElem?_of_mem member
        have same := unique 0 (j + 1) head y rfl (by simpa using found) good py
        omega
      simp [none_]

def total (f : α → Nat) : List α → Nat
  | [] => 0
  | x :: rest => f x + total f rest

theorem totalAppend (f : α → Nat) {m : List α} : total f (l ++ m) = total f l + total f m := by
  induction l with
  | nil => simp only [List.nil_append,total,Nat.zero_add]
  | cons head tail ih => simp only [List.cons_append,total,ih,Nat.add_assoc]

theorem totalSet (f : α → Nat) (found : l[i]? = some x) : total f (l.set i y) + f x = total f l + f y := by
  induction l generalizing i with
  | nil => simp at found
  | cons head tail ih =>
    cases i with
    | zero =>
      cases Option.some.inj found
      simp only [List.set_cons_zero,total]
      omega
    | succ i =>
      have rest := ih (i := i) (by simpa using found)
      simp only [List.set_cons_succ,total]
      omega

theorem totalErase (f : α → Nat) : total f (l.eraseIdx i) ≤ total f l := by
  induction l generalizing i with
  | nil => exact Nat.le_refl _
  | cons head tail ih =>
    cases i with
    | zero =>
      simp only [List.eraseIdx_cons_zero,total]
      omega
    | succ i =>
      have rest := ih (i := i)
      simp only [List.eraseIdx_cons_succ,total]
      omega

theorem totalFew {f : α → Nat} {m : Nat} (few : ∀ x ∈ l, f x ≤ m) : total f l ≤ m * l.length := by
  induction l with
  | nil => exact Nat.zero_le _
  | cons head tail ih =>
    have first := few head List.mem_cons_self
    have rest := ih (fun x member => few x (List.mem_cons_of_mem head member))
    simp only [total,List.length_cons,Nat.mul_add]
    omega

theorem totalMapIdx {f : α → Nat} {g : Nat → α → α} (same : ∀ i x, f (g i x) = f x) :
    total f (l.mapIdx g) = total f l := by
  induction l generalizing g with
  | nil => rfl
  | cons head tail ih =>
    rw [List.mapIdx_cons]
    simp only [total,same,ih (fun i x => same (i + 1) x)]

theorem setLast (found : l[i]? = some x) (last : i+1 = l.length) :
    ∃ front, l = front ++ [x] ∧ l.set i y = front ++ [y] := by
  rcases List.eq_nil_or_concat l with rfl | ⟨front,z,rfl⟩
  · cases found
  · rw [List.concat_eq_append] at found last ⊢
    have place : i = front.length := by simpa using last
    subst place
    cases Option.some.inj (appendNew.symm.trans found)
    exact ⟨front,rfl,by simp⟩

theorem setEqual (found : l[i]? = some x) : l.set i x = l := by
  apply List.ext_getElem?
  intro j
  by_cases same : i = j
  · subst same
    rw [setSame found,found]
  · exact setOther same

end Apixis.Slots
