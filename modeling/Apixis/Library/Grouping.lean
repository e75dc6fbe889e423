import Apixis.Library.Dict

/-! The items of a list under their keys, each group in the order of the list. -/
namespace Apixis.Grouping

variable {α β κ : Type} [DecidableEq κ]

/- `d.setdefault(k, []).append(v)` -/
def add (d : Dict κ (List β)) (k : κ) (v : β) : Dict κ (List β) := d.set k ((d.get k).getD [] ++ [v])

def grouped (key : α → κ) (value : α → β) (d : Dict κ (List β)) : List α → Dict κ (List β)
  | [] => d
  | x :: rest => grouped key value (add d (key x) (value x)) rest

def under (key : α → κ) (value : α → β) (k : κ) (l : List α) : List β :=
  (l.filter (fun x => key x = k)).map value

variable {key : α → κ} {value : α → β} {d : Dict κ (List β)} {k : κ} {l : List α} {group : List β}

theorem getAdd (d : Dict κ (List β)) (j k : κ) (v : β) :
    (add d k v).get j = if j = k then some ((d.get k).getD [] ++ [v]) else d.get j :=
  Dict.getSet d k j _

theorem groupedGet (key : α → κ) (value : α → β) (d : Dict κ (List β)) (k : κ) (l : List α) :
    ((grouped key value d l).get k).getD [] = (d.get k).getD [] ++ under key value k l := by
  induction l generalizing d with
  | nil => simp [grouped,under]
  | cons x rest ih =>
    rw [grouped,ih,getAdd]
    by_cases same : key x = k
    · subst same
      simp [under]
    · simp [under,same,Ne.symm same]

theorem groupedKeys (key : α → κ) (value : α → β) (d : Dict κ (List β)) (k : κ) (l : List α) :
    k ∈ (grouped key value d l).keys ↔ k ∈ d.keys ∨ ∃ x ∈ l, key x = k := by
  induction l generalizing d with
  | nil => simp [grouped]
  | cons x rest ih =>
    rw [grouped,ih,add,Dict.memKeysSet]
    simp only [List.exists_mem_cons_iff]
    constructor
    · rintro ((same | before) | later)
      · exact .inr (.inl same.symm)
      · exact .inl before
      · exact .inr (.inr later)
    · rintro (before | same | later)
      · exact .inl (.inr before)
      · exact .inl (.inl same.symm)
      · exact .inr later

theorem groupOf (member : (k,group) ∈ (grouped key value Dict.empty l).entries) :
    group = under key value k l := by
  have got := groupedGet key value Dict.empty k l
  rw [Dict.memEntry.mpr member,Dict.getEmpty] at got
  exact got

theorem groupExists (key : α → κ) (value : α → β) {x : α} (member : x ∈ l) :
    ∃ group, (key x,group) ∈ (grouped key value Dict.empty l).entries := by
  have known := (groupedKeys key value Dict.empty (key x) l).mpr (.inr ⟨x,member,rfl⟩)
  obtain ⟨entry,inside,same⟩ := List.mem_map.mp known
  exact ⟨entry.2,same ▸ inside⟩

end Apixis.Grouping
