import Apixis.Library.Buckets
import Mathlib.Data.List.Infix

/-! Who comes before whom in a list, and in the order over buckets. Precedence
survives a filter that keeps both, so changing one item disturbs no other pair. -/
namespace Apixis.Precedence

variable {α κ : Type} {l before after : List α} {a b c : α}

def Before (l : List α) (a b : α) : Prop := [a,b].Sublist l

def Next (l : List α) (a b : α) : Prop := [a,b] <:+: l

instance [DecidableEq α] (l : List α) (a b : α) : Decidable (Before l a b) :=
  inferInstanceAs (Decidable ([a,b].Sublist l))

theorem beforeFilter {p : α → Bool} (left : p a = true) (right : p b = true) :
    Before (l.filter p) a b ↔ Before l a b := by
  constructor
  · intro kept
    exact kept.trans List.filter_sublist
  · intro both
    have kept := both.filter p
    rw [List.filter_cons_of_pos left,List.filter_cons_of_pos right] at kept
    exact kept

theorem beforeAppend (left : a ∈ before) (right : b ∈ after) : Before (before ++ after) a b :=
  (List.singleton_sublist.mpr left).append (List.singleton_sublist.mpr right)

theorem beforeGet {i j : Nat} (left : l[i]? = some a) (right : l[j]? = some b) (less : i < j) :
    Before l a b := by
  induction l generalizing i j with
  | nil => simp at left
  | cons head tail ih =>
    cases j with
    | zero => omega
    | succ j =>
      have later : tail[j]? = some b := by simpa using right
      cases i with
      | zero =>
        cases Option.some.inj left
        exact (List.singleton_sublist.mpr (List.mem_of_getElem? later)).cons_cons _
      | succ i => exact (ih (by simpa using left) later (by omega)).cons head

theorem beforeInside (both : Before l a b) : Before (before ++ l ++ after) a b :=
  (both.trans (List.sublist_append_right before l)).trans (List.sublist_append_left _ after)

theorem nextInside (both : Next l a b) : Next (before ++ l ++ after) a b :=
  both.trans (List.infix_append before l after)

theorem nextBefore (next : Next l a b) : Before l a b := next.sublist

theorem beforeThrough (distinct : l.Nodup) (early : Before l a c) (next : Next l b c) (other : a ≠ b) :
    Before l a b := by
  obtain ⟨front,rest,split⟩ := next
  have shape : l = front ++ b :: c :: rest := by simp [← split]
  subst shape
  have apart := List.nodup_append.mp distinct
  have inside : a ∈ front := by
    obtain ⟨x,y,whole,left,right⟩ := List.sublist_append_iff.mp early
    cases x with
    | cons head tail =>
      have same : head = a := by
        simp only [List.cons_append,List.cons.injEq] at whole
        exact whole.1.symm
      exact same ▸ left.subset List.mem_cons_self
    | nil =>
      have skip : Before (c :: rest) a c := by
        rw [List.nil_append] at whole
        rw [← whole] at right
        rcases List.cons_sublist_iff.mp right with ⟨u,v,cut,member,tail⟩
        cases u with
        | nil => simp at member
        | cons head more =>
          simp only [List.cons_append,List.cons.injEq] at cut
          obtain ⟨rfl,cut⟩ := cut
          rcases List.mem_cons.mp member with same | deep
          · exact absurd same other
          · rw [cut]
            exact beforeAppend deep (List.singleton_sublist.mp tail)
      have once : (c :: rest).Nodup := (List.nodup_cons.mp apart.2.1).2
      have twice : c ∈ rest := by
        rcases List.sublist_cons_iff.mp skip with deep | ⟨tail,whole,deep⟩
        · exact deep.subset (List.mem_cons_of_mem _ List.mem_cons_self)
        · simp only [List.cons.injEq] at whole
          rw [← whole.2] at deep
          exact deep.subset List.mem_cons_self
      exact absurd twice (List.nodup_cons.mp once).1
  exact beforeAppend inside List.mem_cons_self

theorem beforeLast (member : a ∈ l) : Before (l ++ [b]) a b :=
  beforeAppend member List.mem_cons_self

theorem flatMapPerm {β : Type} {f : α → List β} {l' : List α} (perm : l.Perm l')
    (alone : l.Pairwise (fun a b => f a = [] ∨ f b = [])) : l.flatMap f = l'.flatMap f := by
  induction perm with
  | nil => rfl
  | cons a tail ih => rw [List.flatMap_cons,List.flatMap_cons,ih (List.pairwise_cons.mp alone).2]
  | swap a b rest =>
    simp only [List.flatMap_cons]
    rcases (List.pairwise_cons.mp alone).1 a List.mem_cons_self with empty | empty <;> simp [empty]
  | trans first second ihFirst ihSecond =>
    have middle := (first.pairwise_iff (fun either => either.symm)).mp alone
    rw [ihFirst alone,ihSecond middle]

section Buckets
variable [LinearOrder κ] {d : Dict κ (List α)} {j k : κ} {x y : α}

/- A bucket stands whole between the greater keys and the smaller ones. -/
theorem orderSplit (known : k ∈ d.keys) : ∃ above below,
    Buckets.order d = above ++ Buckets.bucket d k ++ below ∧
    (∀ j x, k < j → x ∈ Buckets.bucket d j → x ∈ above) ∧
    ∀ j x, j < k → x ∈ Buckets.bucket d j → x ∈ below := by
  have strict := Buckets.descendingStrict d.keysNodup
  have perm := Buckets.descendingPerm d.keys
  obtain ⟨front,rest,split⟩ := List.append_of_mem (perm.mem_iff.mpr known)
  refine ⟨front.flatMap (Buckets.bucket d),rest.flatMap (Buckets.bucket d),?_,?_,?_⟩
  · rw [Buckets.order,split,List.flatMap_append,List.flatMap_cons,List.append_assoc]
  all_goals
    intro j x less inside
    have listed : j ∈ Buckets.descending d.keys := by
      rw [perm.mem_iff]
      by_contra missing
      rw [Buckets.bucketNone j missing] at inside
      exact List.not_mem_nil inside
    rw [split] at listed strict
    obtain ⟨_,later,crossing⟩ := List.pairwise_append.mp strict
    refine List.mem_flatMap.mpr ⟨j,?_,inside⟩
    rcases List.mem_append.mp listed with early | late
  · exact early
  · rcases List.mem_cons.mp late with same | deep
    · exact absurd same (ne_of_gt less)
    · exact absurd ((List.pairwise_cons.mp later).1 j deep) (lt_asymm less)
  · exact absurd (crossing j early k List.mem_cons_self) (lt_asymm less)
  · rcases List.mem_cons.mp late with same | deep
    · exact absurd same (ne_of_lt less)
    · exact deep

theorem bucketKnown (inside : x ∈ Buckets.bucket d k) : k ∈ d.keys := by
  by_contra missing
  rw [Buckets.bucketNone k missing] at inside
  exact List.not_mem_nil inside

theorem greaterBefore (left : x ∈ Buckets.bucket d j) (right : y ∈ Buckets.bucket d k) (less : k < j) :
    Before (Buckets.order d) x y := by
  obtain ⟨above,below,split,greater,_⟩ := orderSplit (bucketKnown right)
  rw [split,List.append_assoc]
  exact beforeAppend (greater j x less left) (List.mem_append_left _ right)

theorem bucketBefore (both : Before (Buckets.bucket d k) x y) : Before (Buckets.order d) x y := by
  obtain ⟨above,below,split,_⟩ := orderSplit (bucketKnown (both.subset List.mem_cons_self))
  rw [split]
  exact beforeInside both

theorem bucketNext (both : Next (Buckets.bucket d k) x y) : Next (Buckets.order d) x y := by
  obtain ⟨above,below,split,_⟩ := orderSplit (bucketKnown (both.subset List.mem_cons_self))
  rw [split]
  exact nextInside both

end Buckets
end Apixis.Precedence
