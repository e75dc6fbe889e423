import Apixis.Library.DeepCopy

/-! Objects that fall into regions no reference leaves. Whoever works inside one
region, and whatever is copied into it, leaves the other ones as they are. -/
namespace Apixis.Heap

variable {L A R : Type} {h h' : Store L A} {region region' : Nat → R} {r s : R} {v : Value A} {p n : Nat}
  {o : Object L A}

/- An atom, or a reference to an object of the region. -/
def Lies (h : Store L A) (region : Nat → R) (r : R) (v : Value A) : Prop :=
  ∀ p, v = .ref p → p < h.length ∧ region p = r

/- An object holds only values of its own region. -/
def Layout (h : Store L A) (region : Nat → R) : Prop :=
  ∀ p o, h[p]? = some o → ∀ v ∈ o.slots, Lies h region (region p) v

/- The objects there were are as they were, where they were. -/
structure Grown (h h' : Store L A) (region region' : Nat → R) : Prop where
  front : h <+: h'
  same : ∀ p < h.length, region' p = region p
  layout : Layout h' region'

def placed (region : Nat → R) (n : Nat) (r : R) (p : Nat) : R := if p < n then region p else r

theorem placedOld (small : p < n) : placed region n r p = region p := if_pos small
theorem placedNew (large : n ≤ p) : placed region n r p = r := if_neg (Nat.not_lt.mpr large)

theorem liesAtom {a : A} : Lies h region r (.atom a) := fun _ same => (nomatch same)

theorem liesReach (layout : Layout h region) (lies : Lies h region r v) (reached : Reach h v p) :
    p < h.length ∧ region p = r := by
  induction reached with
  | root same => exact lies _ same
  | slot _ found points ih =>
    obtain ⟨inside,own⟩ := layout _ _ found _ points _ rfl
    exact ⟨inside,own.trans ih.2⟩

theorem liesGrown (grown : Grown h h' region region') (lies : Lies h region r v) : Lies h' region' r v := by
  intro p same
  obtain ⟨inside,own⟩ := lies p same
  exact ⟨inside.trans_le grown.front.length_le,(grown.same p inside).trans own⟩

theorem grownRefl (layout : Layout h region) : Grown h h region region := ⟨List.prefix_refl _,fun _ _ => rfl,layout⟩

theorem grownTrans {h'' : Store L A} {region'' : Nat → R} (first : Grown h h' region region')
    (second : Grown h' h'' region' region'') : Grown h h'' region region'' :=
  ⟨first.front.trans second.front,
    fun p inside => (second.same p (inside.trans_le first.front.length_le)).trans (first.same p inside),second.layout⟩

section Set
variable (layout : Layout h region) (own : region p = r) (holds : ∀ v ∈ o.slots, Lies h region r v)

theorem liesSet {x : Value A} (lies : Lies h region s x) : Lies (h.set p o) region s x := by
  intro q same
  rw [List.length_set]
  exact lies q same

include layout own holds in
theorem layoutSet : Layout (h.set p o) region := by
  intro q x found v member
  rw [List.getElem?_set] at found
  split at found
  · rename_i same
    subst same
    split at found
    · cases found
      exact own.symm ▸ liesSet (holds v member)
    · cases found
  · exact liesSet (layout q x found v member)

end Set

theorem grownAlloc (layout : Layout h region) (holds : ∀ v ∈ o.slots, Lies h region r v) :
    ∃ region', Grown h (h ++ [o]) region region' ∧ Lies (h ++ [o]) region' r (.ref h.length) := by
  have front : h <+: h ++ [o] := List.prefix_append _ _
  have moved : ∀ s v, Lies h region s v → Lies (h ++ [o]) (placed region h.length r) s v := by
    intro s v lies p same
    obtain ⟨inside,own⟩ := lies p same
    exact ⟨inside.trans_le front.length_le,(placedOld inside).trans own⟩
  refine ⟨placed region h.length r,⟨front,fun p inside => placedOld inside,?_⟩,?_⟩
  · intro p x found v member
    by_cases old : p < h.length
    · rw [List.getElem?_append_left old] at found
      rw [placedOld old]
      exact moved _ _ (layout p x found v member)
    · have last : p = h.length := by
        have size := (List.getElem?_eq_some_iff.mp found).1
        rw [List.length_append,List.length_singleton] at size
        omega
      subst last
      rw [List.getElem?_append_right (Nat.le_refl _),Nat.sub_self] at found
      cases found
      rw [placedNew (Nat.le_refl _)]
      exact moved _ _ (holds v member)
  · intro p same
    cases same
    exact ⟨by simp,placedNew (Nat.le_refl _)⟩

theorem grownCopies {m : Nat → Option Nat} {vs ws : List (Value A)} (duplicate : Duplicate h h' m vs ws)
    (layout : Layout h region) (r : R) :
    ∃ region', Grown h h' region region' ∧ ∀ w ∈ ws, Lies h' region' r w := by
  have stands : ∀ v w, Stands m v w → Lies h' (placed region h.length r) r w := by
    rintro v w stands q rfl
    obtain ⟨p,_,known⟩ := standsBack stands
    obtain ⟨low,high⟩ := duplicate.fresh p q known
    exact ⟨high,placedNew low⟩
  refine ⟨placed region h.length r,⟨duplicate.kept,fun p inside => placedOld inside,?_⟩,?_⟩
  · intro q x found v member
    by_cases old : q < h.length
    · rw [frontSame duplicate.kept old] at found
      rw [placedOld old]
      intro p same
      obtain ⟨inside,own⟩ := layout q x found v member p same
      exact ⟨inside.trans_le duplicate.kept.length_le,(placedOld inside).trans own⟩
    · have low : h.length ≤ q := Nat.not_lt.mp old
      obtain ⟨p,known⟩ := duplicate.onto q low (List.getElem?_eq_some_iff.mp found).1
      obtain ⟨y,slots,_,after,each⟩ := duplicate.renamed p q known
      cases Option.some.inj (after.symm.trans found)
      obtain ⟨z,_,same⟩ := forallLeft each.flip member
      rw [placedNew low]
      exact stands z v same
  · intro w member
    obtain ⟨v,_,twin⟩ := forallLeft duplicate.twins.flip member
    exact stands v w twin.stands

section Copy
variable {copyable : L → Bool} {w : Value A}

/- What a copy brings: it lies where it was put, looks like the original and can
itself be copied. -/
theorem grownDeepcopy (layout : Layout h region) (r : R) (done : deepcopy copyable h v = some (w,h')) :
    ∃ region', Grown h h' region region' ∧ Lies h' region' r w ∧ Copyable copyable h' w ∧
      ∀ n, view h' n w = view h n v := by
  obtain ⟨m,duplicate⟩ := deepcopySpec done
  obtain ⟨twin,_⟩ := List.forall₂_cons.mp duplicate.twins
  obtain ⟨region',grown,copies⟩ := grownCopies duplicate layout r
  have may : Copyable copyable h v := deepcopyIff.mp ⟨w,h',done⟩
  have again := duplicateCopyable duplicate (fun x member => List.mem_singleton.mp member ▸ may)
  exact ⟨region',grown,copies w (List.mem_singleton.mpr rfl),again w (List.mem_singleton.mpr rfl),twinView twin⟩

theorem grownDeepcopyAll {vs ws : List (Value A)} (layout : Layout h region) (r : R)
    (done : deepcopyAll copyable h vs = some (ws,h')) :
    ∃ region', Grown h h' region region' ∧ (∀ w ∈ ws, Lies h' region' r w ∧ Copyable copyable h' w) ∧
      List.Forall₂ (fun v w => ∀ n, view h' n w = view h n v) vs ws := by
  obtain ⟨m,duplicate⟩ := deepcopyAllSpec done
  obtain ⟨region',grown,copies⟩ := grownCopies duplicate layout r
  have again := duplicateCopyable duplicate (deepcopyAllIff.mp ⟨ws,h',done⟩)
  exact ⟨region',grown,fun w member => ⟨copies w member,again w member⟩,
    duplicate.twins.imp (fun _ _ twin => twinView twin)⟩

end Copy
end Apixis.Heap
