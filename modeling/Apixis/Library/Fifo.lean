import Mathlib.Data.List.Perm.Basic

/-! A queue of bounded length: what is pushed into a full one drives the oldest item
out. -/
namespace Apixis.Fifo

variable {α : Type} {limit : Nat} {q r : List α} {x y : α}

def push (limit : Nat) (q : List α) (x : α) : List α := (q ++ [x]).drop (q.length + 1 - limit)

def dropped (limit : Nat) (q : List α) (x : α) : List α := (q ++ [x]).take (q.length + 1 - limit)

theorem droppedPush (limit : Nat) (q : List α) (x : α) : dropped limit q x ++ push limit q x = q ++ [x] :=
  List.take_append_drop _ _

theorem pushBounded : (push limit q x).length ≤ limit := by
  simp only [push,List.length_drop,List.length_append,List.length_singleton]
  omega

theorem pushSublist : (push limit q x).Sublist (q ++ [x]) := List.drop_sublist _ _

theorem pushNonempty (positive : 0 < limit) : push limit q x ≠ [] := by
  intro empty
  have length := congrArg List.length empty
  simp only [push,List.length_drop,List.length_append,List.length_singleton,List.length_nil] at length
  omega

theorem pushRoom (room : q.length < limit) : push limit q x = q ++ [x] := by
  rw [push,Nat.sub_eq_zero_of_le room,List.drop_zero]

theorem pushFull (full : (y :: q).length = limit) : push limit (y :: q) x = q ++ [x] := by
  rw [push,full,Nat.add_sub_cancel_left]
  rfl

def weight (size : α → Nat) : List α → Nat
  | [] => 0
  | x :: rest => size x + weight size rest

theorem weightAppend (size : α → Nat) (q r : List α) :
    weight size (q ++ r) = weight size q + weight size r := by
  induction q with
  | nil => simp [weight]
  | cons x rest ih => rw [List.cons_append,weight,weight,ih,Nat.add_assoc]

end Apixis.Fifo
