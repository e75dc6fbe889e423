import Mathlib.Data.List.Nodup

/-! Dictionaries that keep the order in which their keys first appeared. That no
key appears twice is part of the value. -/
namespace Apixis

structure Dict (κ β : Type) where
  entries : List (κ × β)
  distinct : (entries.map Prod.fst).Nodup
  deriving DecidableEq, Repr

namespace Dict
variable {κ β : Type}

def keys (d : Dict κ β) : List κ := d.entries.map Prod.fst
def empty : Dict κ β := ⟨[],List.nodup_nil⟩

theorem keysNodup (d : Dict κ β) : d.keys.Nodup := d.distinct

variable [DecidableEq κ]

def get (d : Dict κ β) (k : κ) : Option β := (d.entries.find? (fun e => e.1 = k)).map Prod.snd

def replaced (k : κ) (v : β) (e : κ × β) : κ × β := if e.1 = k then (k,v) else e

theorem replacedKeys (k : κ) (v : β) (l : List (κ × β)) :
    (l.map (replaced k v)).map Prod.fst = l.map Prod.fst := by
  rw [List.map_map]
  refine List.map_congr_left ?_
  intro e _
  simp only [Function.comp,replaced]
  split
  · rename_i same; exact same.symm
  · rfl

/- `d[k] = v`: a known key keeps its place, a new one goes last. -/
def set (d : Dict κ β) (k : κ) (v : β) : Dict κ β :=
  if known : k ∈ d.keys then
    ⟨d.entries.map (replaced k v),by rw [replacedKeys]; exact d.distinct⟩
  else ⟨d.entries ++ [(k,v)],by
    rw [List.map_append]
    refine d.distinct.append (List.nodup_singleton k) ?_
    intro x old new
    rw [List.mem_singleton.mp new] at old
    exact known old⟩

def erase (d : Dict κ β) (k : κ) : Dict κ β :=
  ⟨d.entries.filter (fun e => e.1 ≠ k),d.distinct.sublist (List.filter_sublist.map Prod.fst)⟩

theorem memEntry {d : Dict κ β} {k : κ} {v : β} : d.get k = some v ↔ (k,v) ∈ d.entries := by
  obtain ⟨entries,distinct⟩ := d
  simp only [get]
  induction entries with
  | nil => simp
  | cons head tail ih =>
    rw [List.map_cons,List.nodup_cons] at distinct
    have rest := ih distinct.2
    obtain ⟨j,w⟩ := head
    simp only [List.find?_cons,List.mem_cons,Prod.mk.injEq]
    by_cases same : j = k
    · subst same
      have absent : (j,v) ∉ tail := fun later =>
        distinct.1 (List.mem_map_of_mem (f := Prod.fst) later : (j,v).1 ∈ tail.map Prod.fst)
      simp [absent,eq_comm]
    · simp [same,Ne.symm same,rest]

theorem getIsSome {d : Dict κ β} {k : κ} : (d.get k).isSome = true ↔ k ∈ d.keys := by
  rw [Option.isSome_iff_exists]
  constructor
  · intro found
    obtain ⟨v,found⟩ := found
    exact List.mem_map_of_mem (f := Prod.fst) (memEntry.mp found)
  · intro member
    obtain ⟨e,inside,same⟩ := List.mem_map.mp member
    exact ⟨e.2,memEntry.mpr (same ▸ inside)⟩

theorem getNone {d : Dict κ β} {k : κ} : d.get k = none ↔ k ∉ d.keys := by
  rw [← getIsSome,Option.not_isSome_iff_eq_none]

theorem keyOf {d : Dict κ β} {k : κ} {v : β} (found : d.get k = some v) : k ∈ d.keys :=
  getIsSome.mp (by rw [found]; rfl)

theorem memSet {d : Dict κ β} {k j : κ} {v w : β} :
    (j,w) ∈ (d.set k v).entries ↔ (j = k ∧ w = v) ∨ (j ≠ k ∧ (j,w) ∈ d.entries) := by
  unfold set
  split
  · rename_i known
    simp only [List.mem_map]
    constructor
    · intro member
      obtain ⟨e,inside,moved⟩ := member
      unfold replaced at moved
      split at moved
      · cases moved; exact .inl ⟨rfl,rfl⟩
      · rename_i other
        rw [moved] at inside other
        exact .inr ⟨other,inside⟩
    · intro place
      rcases place with ⟨rfl,rfl⟩ | ⟨other,old⟩
      · obtain ⟨e,inside,same⟩ := List.mem_map.mp known
        exact ⟨e,inside,by rw [replaced,if_pos same]⟩
      · exact ⟨(j,w),old,by rw [replaced,if_neg other]⟩
  · rename_i fresh
    simp only [List.mem_append,List.mem_singleton,Prod.mk.injEq]
    constructor
    · intro member
      rcases member with old | new
      · refine .inr ⟨?_,old⟩
        intro same
        subst same
        exact fresh (List.mem_map_of_mem (f := Prod.fst) old)
      · exact .inl new
    · intro place
      rcases place with new | ⟨_,old⟩
      · exact .inr new
      · exact .inl old

theorem getSet (d : Dict κ β) (k j : κ) (v : β) :
    (d.set k v).get j = if j = k then some v else d.get j := by
  refine Option.ext ?_
  intro w
  rw [memEntry,memSet]
  by_cases same : j = k
  · simp [same,eq_comm]
  · simp [same,memEntry]

theorem getSetSame (d : Dict κ β) (k : κ) (v : β) : (d.set k v).get k = some v := by
  rw [getSet,if_pos rfl]

theorem getSetOther {d : Dict κ β} {k j : κ} {v : β} (different : j ≠ k) :
    (d.set k v).get j = d.get j := by
  rw [getSet,if_neg different]

theorem getErase (d : Dict κ β) (k j : κ) :
    (d.erase k).get j = if j = k then none else d.get j := by
  refine Option.ext ?_
  intro w
  rw [memEntry]
  by_cases same : j = k
  · simp [erase,same]
  · simp [erase,same,memEntry]

theorem getEraseSame (d : Dict κ β) (k : κ) : (d.erase k).get k = none := by
  rw [getErase,if_pos rfl]

theorem getEraseOther {d : Dict κ β} {k j : κ} (different : j ≠ k) :
    (d.erase k).get j = d.get j := by
  rw [getErase,if_neg different]

theorem getEmpty (k : κ) : (empty : Dict κ β).get k = none := rfl

theorem memKeysSet {d : Dict κ β} {k j : κ} {v : β} : j ∈ (d.set k v).keys ↔ j = k ∨ j ∈ d.keys := by
  rw [← getIsSome,← getIsSome,getSet]
  by_cases same : j = k <;> simp [same]

theorem keysSet (d : Dict κ β) (k : κ) (v : β) :
    (d.set k v).keys = if k ∈ d.keys then d.keys else d.keys ++ [k] := by
  unfold set
  split
  · exact replacedKeys k v d.entries
  · rw [keys,List.map_append]
    rfl

theorem entriesOf (d : Dict κ β) (k : κ) :
    (d.entries.filter (fun e => e.1 = k)).map Prod.snd = (d.get k).toList := by
  obtain ⟨entries,distinct⟩ := d
  simp only [get]
  induction entries with
  | nil => rfl
  | cons head tail ih =>
    rw [List.map_cons,List.nodup_cons] at distinct
    by_cases same : head.1 = k
    · have none_ : tail.filter (fun e => e.1 = k) = [] := by
        refine List.filter_eq_nil_iff.mpr ?_
        intro e member equal
        rw [decide_eq_true_eq] at equal
        exact distinct.1 (same ▸ equal ▸ List.mem_map_of_mem (f := Prod.fst) member)
      rw [List.filter_cons_of_pos (by simpa using same),none_,List.find?_cons_of_pos (by simpa using same)]
      rfl
    · rw [List.filter_cons_of_neg (by simpa using same),List.find?_cons_of_neg (by simpa using same)]
      exact ih distinct.2

end Dict
end Apixis
