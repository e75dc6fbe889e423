import Apixis.Library.Heap
import Mathlib.Data.Finset.Card
import Mathlib.Logic.Function.Basic

/-! Copying a value with all that it reaches. A memo of what has been copied keeps
sharing and cycles, and makes the recursion end. -/
namespace Apixis.Heap

structure Copying (L A : Type) where
  cells : Store L A
  memo : Nat → Option Nat

variable {L A : Type}

def Copying.start (h : Store L A) : Copying L A := ⟨h,fun _ => none⟩

/- The copy is known, still empty, before what it holds is copied. -/
def Copying.enter (s : Copying L A) (p : Nat) (label : L) : Copying L A :=
  ⟨s.cells ++ [⟨label,[]⟩],Function.update s.memo p (some s.cells.length)⟩

def Copying.fill (s : Copying L A) (q : Nat) (o : Object L A) : Copying L A :=
  {s with cells := s.cells.set q o}

def copySlots (copyOne : Copying L A → Value A → Option (Value A × Copying L A)) :
    Copying L A → List (Value A) → Option (List (Value A) × Copying L A)
  | s, [] => some ([],s)
  | s, v :: rest => do
      let (w,t) ← copyOne s v
      let (ws,u) ← copySlots copyOne t rest
      some (w :: ws,u)

section Copy
variable (copyable : L → Bool) (base : Store L A)

/- What is copied is read in the store as it was: nothing there changes. -/
def copyValue : Nat → Copying L A → Value A → Option (Value A × Copying L A)
  | _, s, .atom a => some (.atom a,s)
  | 0, _, .ref _ => none
  | fuel + 1, s, .ref p => match s.memo p with
      | some q => some (.ref q,s)
      | none => match base[p]? with
          | none => none
          | some o => if copyable o.label then do
                let (slots,t) ← copySlots (copyValue fuel) (s.enter p o.label) o.slots
                some (.ref s.cells.length,t.fill s.cells.length ⟨o.label,slots⟩)
              else none

def deepcopyAll (vs : List (Value A)) : Option (List (Value A) × Store L A) := do
  let (ws,t) ← copySlots (copyValue copyable base (base.length + 1)) (.start base) vs
  some (ws,t.cells)

def deepcopy (v : Value A) : Option (Value A × Store L A) := do
  let (w,t) ← copyValue copyable base (base.length + 1) (.start base) v
  some (w,t.cells)

structure Sound (s : Copying L A) : Prop where
  above : base <+: s.cells
  inside : ∀ p q, s.memo p = some q → base.length ≤ q ∧ q < s.cells.length
  apart : ∀ p p' q, s.memo p = some q → s.memo p' = some q → p = p'
  onto : ∀ q, base.length ≤ q → q < s.cells.length → ∃ p, s.memo p = some q

def Complete (t : Copying L A) (p q : Nat) : Prop :=
  Renamed base t.cells t.memo p q ∧ ∀ o, base[p]? = some o → copyable o.label = true

/- What a stretch of copying does: it adds complete copies. -/
structure Progress (s t : Copying L A) : Prop where
  cells : s.cells <+: t.cells
  memo : ∀ p q, s.memo p = some q → t.memo p = some q
  added : ∀ p q, t.memo p = some q → s.memo p = some q ∨
    (s.cells.length ≤ q ∧ Complete copyable base t p q)

end Copy

variable {copyable : L → Bool} {base : Store L A} {s t u : Copying L A} {v w : Value A} {p q : Nat}
  {o : Object L A}

theorem frontGet {l r : Store L A} {i : Nat} {x : Object L A} (front : l <+: r) (found : l[i]? = some x) :
    r[i]? = some x := by
  obtain ⟨rest,rfl⟩ := front
  rw [List.getElem?_append_left (List.getElem?_eq_some_iff.mp found).1]
  exact found

theorem frontSame {l r : Store L A} {i : Nat} (front : l <+: r) (inside : i < l.length) : r[i]? = l[i]? := by
  obtain ⟨rest,rfl⟩ := front
  exact List.getElem?_append_left inside

theorem completeMono (cells : s.cells <+: t.cells) (memo : ∀ p q, s.memo p = some q → t.memo p = some q)
    (complete : Complete copyable base s p q) : Complete copyable base t p q := by
  obtain ⟨⟨o,slots,before,after,each⟩,may⟩ := complete
  exact ⟨⟨o,slots,before,frontGet cells after,each.imp (fun _ _ => standsMono memo)⟩,may⟩

theorem progressRefl : Progress copyable base s s :=
  ⟨List.prefix_refl _,fun _ _ known => known,fun _ _ known => .inl known⟩

theorem progressTrans (first : Progress copyable base s t) (second : Progress copyable base t u) :
    Progress copyable base s u := by
  refine ⟨first.cells.trans second.cells,fun p q known => second.memo p q (first.memo p q known),?_⟩
  intro p q known
  rcases second.added p q known with before | ⟨late,complete⟩
  · rcases first.added p q before with old | ⟨late,complete⟩
    · exact .inl old
    · exact .inr ⟨late,completeMono second.cells second.memo complete⟩
  · exact .inr ⟨first.cells.length_le.trans late,complete⟩

def Copies (copyable : L → Bool) (base : Store L A)
    (copyOne : Copying L A → Value A → Option (Value A × Copying L A)) : Prop :=
  ∀ s v w t, Sound base s → copyOne s v = some (w,t) →
    Sound base t ∧ Progress copyable base s t ∧ Stands t.memo v w

theorem copySlotsSpec {copyOne : Copying L A → Value A → Option (Value A × Copying L A)}
    (one : Copies copyable base copyOne) {vs ws : List (Value A)} (sound : Sound base s)
    (done : copySlots copyOne s vs = some (ws,t)) :
    Sound base t ∧ Progress copyable base s t ∧ List.Forall₂ (Stands t.memo) vs ws := by
  induction vs generalizing s ws t with
  | nil =>
    cases done
    exact ⟨sound,progressRefl,.nil⟩
  | cons v rest ih =>
    simp only [copySlots,Option.bind_eq_bind,Option.bind_eq_some_iff] at done
    obtain ⟨⟨w,m⟩,first,⟨ws',u⟩,second,last⟩ := done
    cases Option.some.inj last
    obtain ⟨soundOne,progressOne,stands⟩ := one _ _ _ _ sound first
    obtain ⟨soundAll,progressAll,each⟩ := ih soundOne second
    exact ⟨soundAll,progressTrans progressOne progressAll,.cons (standsMono progressAll.memo stands) each⟩

theorem enterSound (sound : Sound base s) (fresh : s.memo p = none) (label : L) : Sound base (s.enter p label) := by
  have size : (s.enter p label).cells.length = s.cells.length + 1 := by simp [Copying.enter]
  refine ⟨sound.above.trans (List.prefix_append _ _),?_,?_,?_⟩
  · intro r q known
    rw [size]
    by_cases same : r = p
    · simp only [Copying.enter,same,Function.update_self,Option.some.injEq] at known
      subst known
      exact ⟨sound.above.length_le,Nat.lt_succ_self _⟩
    · simp only [Copying.enter,Function.update_of_ne same] at known
      obtain ⟨low,high⟩ := sound.inside r q known
      exact ⟨low,Nat.lt_succ_of_lt high⟩
  · intro r r' q one two
    have old : ∀ x, x ≠ p → (s.enter p label).memo x = some q → q < s.cells.length := by
      intro x other known
      simp only [Copying.enter,Function.update_of_ne other] at known
      exact (sound.inside x q known).2
    have new : (s.enter p label).memo p = some q → q = s.cells.length := by
      intro known
      simpa only [Copying.enter,Function.update_self,Option.some.injEq,eq_comm] using known
    by_cases same : r = p
    · by_cases same' : r' = p
      · rw [same,same']
      · have here := new (same ▸ one)
        have there := old r' same' two
        omega
    · by_cases same' : r' = p
      · have here := new (same' ▸ two)
        have there := old r same one
        omega
      · simp only [Copying.enter,Function.update_of_ne same] at one
        simp only [Copying.enter,Function.update_of_ne same'] at two
        exact sound.apart r r' q one two
  · intro q low high
    rw [size] at high
    by_cases old : q < s.cells.length
    · obtain ⟨r,known⟩ := sound.onto q low old
      have other : r ≠ p := by
        intro same
        rw [same,fresh] at known
        cases known
      exact ⟨r,by simpa only [Copying.enter,Function.update_of_ne other] using known⟩
    · obtain rfl : q = s.cells.length := by omega
      exact ⟨p,by simp [Copying.enter]⟩

theorem fillSpec {slots : List (Value A)} (sound : Sound base s) (fresh : s.memo p = none) (found : base[p]? = some o) (may : copyable o.label = true)
    (inner : Sound base t) (progress : Progress copyable base (s.enter p o.label) t)
    (each : List.Forall₂ (Stands t.memo) o.slots slots) :
    Sound base (t.fill s.cells.length ⟨o.label,slots⟩) ∧
    Progress copyable base s (t.fill s.cells.length ⟨o.label,slots⟩) ∧ t.memo p = some s.cells.length := by
  obtain ⟨rest,split_⟩ := progress.cells
  have cells : t.cells = s.cells ++ ⟨o.label,[]⟩ :: rest := by
    rw [← split_]
    simp [Copying.enter]
  have filled : (t.fill s.cells.length ⟨o.label,slots⟩).cells = s.cells ++ ⟨o.label,slots⟩ :: rest := by
    simp only [Copying.fill,cells]
    rw [List.set_append_right _ _ (Nat.le_refl _),Nat.sub_self,List.set_cons_zero]
  have size : (t.fill s.cells.length ⟨o.label,slots⟩).cells.length = t.cells.length := by
    simp [Copying.fill]
  have own : t.memo p = some s.cells.length := progress.memo p _ (by simp [Copying.enter])
  have prior : ∀ r q, s.memo r = some q → t.memo r = some q := by
    intro r q known
    refine progress.memo r q ?_
    have other : r ≠ p := by
      intro same
      rw [same,fresh] at known
      cases known
    simpa only [Copying.enter,Function.update_of_ne other] using known
  refine ⟨⟨?_,?_,inner.apart,?_⟩,⟨?_,prior,?_⟩,own⟩
  · rw [filled]
    exact sound.above.trans (List.prefix_append _ _)
  · rw [size]
    exact inner.inside
  · rw [size]
    exact inner.onto
  · rw [filled]
    exact List.prefix_append _ _
  · intro r q known
    rcases progress.added r q known with before | ⟨late,complete⟩
    · by_cases same : r = p
      · subst same
        cases Option.some.inj (own.symm.trans known)
        refine .inr ⟨Nat.le_refl _,⟨o,slots,found,?_,each⟩,?_⟩
        · rw [filled,List.getElem?_append_right (Nat.le_refl _),Nat.sub_self]
          rfl
        · intro o' found'
          cases Option.some.inj (found.symm.trans found')
          exact may
      · simp only [Copying.enter,Function.update_of_ne same] at before
        exact .inl before
    · obtain ⟨⟨o',slots',before,after,each'⟩,may'⟩ := complete
      have above : s.cells.length + 1 ≤ q := by simpa [Copying.enter] using late
      refine .inr ⟨by omega,⟨o',slots',before,?_,each'⟩,may'⟩
      simp only [Copying.fill]
      rw [List.getElem?_set_ne (by omega)]
      exact after

theorem copyValueSpec (fuel : Nat) : Copies copyable base (copyValue copyable base fuel) := by
  induction fuel with
  | zero =>
    intro s v w t sound done
    cases v with
    | atom a => cases done; exact ⟨sound,progressRefl,rfl⟩
    | ref p => cases done
  | succ fuel ih =>
    intro s v w t sound done
    cases v with
    | atom a => cases done; exact ⟨sound,progressRefl,rfl⟩
    | ref p =>
      simp only [copyValue] at done
      cases known : s.memo p with
      | some q =>
        rw [known] at done
        cases done
        exact ⟨sound,progressRefl,known⟩
      | none =>
        rw [known] at done
        cases found : base[p]? with
        | none => simp [found] at done
        | some o =>
          simp only [found] at done
          split at done <;> try contradiction
          rename_i may
          simp only [Option.bind_eq_bind,Option.bind_eq_some_iff] at done
          obtain ⟨⟨slots,u⟩,inside,last⟩ := done
          cases Option.some.inj last
          obtain ⟨inner,progress,each⟩ := copySlotsSpec ih (enterSound sound known o.label) inside
          obtain ⟨outer,all,own⟩ := fillSpec sound known found may inner progress each
          exact ⟨outer,all,own⟩

theorem startSound : Sound base (.start base) :=
  ⟨List.prefix_refl _,fun _ _ known => (nomatch known),fun _ _ _ known => (nomatch known),
    fun _ low high => absurd high (Nat.not_lt.mpr low)⟩

/- From the start on, everything in the memo is a complete copy and new. -/
theorem startRenamed (progress : Progress copyable base (.start base) t) (known : t.memo p = some q) :
    Renamed base t.cells t.memo p q := by
  rcases progress.added p q known with old | ⟨_,complete⟩
  · cases old
  · exact complete.1

theorem startTwin (sound : Sound base t) (progress : Progress copyable base (.start base) t) (stands : Stands t.memo v w) :
    Twin base t.cells t.memo v w :=
  ⟨stands,fun _ _ => startRenamed progress,sound.apart⟩

/- The values copied together look as the originals do and share as they do; the old
objects are as they were and every object of the copies is new. -/
structure Duplicate (base new : Store L A) (m : Nat → Option Nat) (vs ws : List (Value A)) : Prop where
  kept : base <+: new
  fresh : ∀ p q, m p = some q → base.length ≤ q ∧ q < new.length
  onto : ∀ q, base.length ≤ q → q < new.length → ∃ p, m p = some q
  renamed : ∀ p q, m p = some q → Renamed base new m p q
  twins : List.Forall₂ (Twin base new m) vs ws

theorem deepcopyAllSpec {vs ws : List (Value A)} {new : Store L A}
    (done : deepcopyAll copyable base vs = some (ws,new)) : ∃ m, Duplicate base new m vs ws := by
  simp only [deepcopyAll,Option.bind_eq_bind,Option.bind_eq_some_iff] at done
  obtain ⟨⟨ws',t⟩,copied,last⟩ := done
  cases Option.some.inj last
  obtain ⟨sound,progress,each⟩ := copySlotsSpec (copyValueSpec _) startSound copied
  exact ⟨t.memo,sound.above,sound.inside,sound.onto,fun _ _ => startRenamed progress,each.imp (fun _ _ => startTwin sound progress)⟩

theorem deepcopySpec {new : Store L A} (done : deepcopy copyable base v = some (w,new)) :
    ∃ m, Duplicate base new m [v] [w] := by
  simp only [deepcopy,Option.bind_eq_bind,Option.bind_eq_some_iff] at done
  obtain ⟨⟨w',t⟩,copied,last⟩ := done
  cases Option.some.inj last
  obtain ⟨sound,progress,stands⟩ := copyValueSpec _ _ _ _ _ startSound copied
  exact ⟨t.memo,sound.above,sound.inside,sound.onto,fun _ _ => startRenamed progress,.cons (startTwin sound progress stands) .nil⟩

def left (base : Store L A) (s : Copying L A) : Nat :=
  ((Finset.range base.length).filter (fun p => s.memo p = none)).card

theorem leftMono (memo : ∀ p q, s.memo p = some q → t.memo p = some q) : left base t ≤ left base s := by
  refine Finset.card_le_card ?_
  intro p member
  obtain ⟨inside,none_⟩ := Finset.mem_filter.mp member
  refine Finset.mem_filter.mpr ⟨inside,?_⟩
  cases known : s.memo p with
  | none => rfl
  | some q =>
    have later := memo p q known
    rw [none_] at later
    cases later

theorem leftEnter (label : L) (found : base[p]? = some o) (fresh : s.memo p = none) :
    left base (s.enter p label) < left base s := by
  have inside : p ∈ (Finset.range base.length).filter (fun p => s.memo p = none) :=
    Finset.mem_filter.mpr ⟨Finset.mem_range.mpr (List.getElem?_eq_some_iff.mp found).1,fresh⟩
  refine lt_of_le_of_lt (Finset.card_le_card (t := Finset.erase _ p) ?_) (Finset.card_erase_lt_of_mem inside)
  intro r member
  obtain ⟨small,none_⟩ := Finset.mem_filter.mp member
  have other : r ≠ p := by
    intro same
    simp [Copying.enter,same] at none_
  simp only [Copying.enter,Function.update_of_ne other] at none_
  exact Finset.mem_erase.mpr ⟨other,Finset.mem_filter.mpr ⟨small,none_⟩⟩

/- All that a value reaches is there and may be copied. -/
def Copyable (copyable : L → Bool) (base : Store L A) (v : Value A) : Prop :=
  ∀ p, Reach base v p → ∃ o, base[p]? = some o ∧ copyable o.label = true

theorem copyableRef : Copyable copyable base (.ref p) ↔
    ∃ o, base[p]? = some o ∧ copyable o.label = true ∧ ∀ v ∈ o.slots, Copyable copyable base v := by
  constructor
  · intro may
    obtain ⟨o,found,own⟩ := may p (.root rfl)
    refine ⟨o,found,own,?_⟩
    intro v member r reached
    cases v with
    | atom a => exact absurd reached reachAtom
    | ref q => exact may r (reachTrans (.slot (.root rfl) found member) reached)
  · rintro ⟨o,found,own,below⟩ r reached
    have split_ : r = p ∨ ∃ v ∈ o.slots, Reach base v r := by
      induction reached with
      | root same => cases same; exact .inl rfl
      | slot _ there points ih =>
        rcases ih with rfl | ⟨v,member,before⟩
        · cases Option.some.inj (found.symm.trans there)
          exact .inr ⟨_,points,.root rfl⟩
        · exact .inr ⟨v,member,.slot before there points⟩
    rcases split_ with rfl | ⟨v,member,before⟩
    · exact ⟨o,found,own⟩
    · exact below v member r before

theorem copySlotsSome {copyOne : Copying L A → Value A → Option (Value A × Copying L A)} {fuel : Nat}
    (one : Copies copyable base copyOne)
    (some_ : ∀ s v, Sound base s → left base s < fuel → Copyable copyable base v → ∃ w t, copyOne s v = some (w,t))
    {vs : List (Value A)} (sound : Sound base s) (room : left base s < fuel)
    (all : ∀ v ∈ vs, Copyable copyable base v) : ∃ ws t, copySlots copyOne s vs = some (ws,t) := by
  induction vs generalizing s with
  | nil => exact ⟨[],s,rfl⟩
  | cons v rest ih =>
    obtain ⟨w,t,first⟩ := some_ s v sound room (all v List.mem_cons_self)
    obtain ⟨after,progress,_⟩ := one _ _ _ _ sound first
    obtain ⟨ws,u,second⟩ := ih after (lt_of_le_of_lt (leftMono progress.memo) room)
      (fun x member => all x (List.mem_cons_of_mem _ member))
    refine ⟨w :: ws,u,?_⟩
    simp only [copySlots,first,second,Option.bind_eq_bind,Option.bind_some]

theorem copyValueSome (fuel : Nat) : ∀ s v, Sound base s → left base s < fuel → Copyable copyable base v →
    ∃ w t, copyValue copyable base fuel s v = some (w,t) := by
  induction fuel with
  | zero => exact fun s v _ none_ => absurd none_ (Nat.not_lt_zero _)
  | succ fuel ih =>
    intro s v sound room may
    cases v with
    | atom a => exact ⟨.atom a,s,rfl⟩
    | ref p =>
      cases known : s.memo p with
      | some q => exact ⟨.ref q,s,by simp only [copyValue,known]⟩
      | none =>
        obtain ⟨o,found,own,below⟩ := copyableRef.mp may
        have less := leftEnter o.label found known
        obtain ⟨slots,t,inside⟩ := copySlotsSome (copyValueSpec fuel) ih (enterSound sound known o.label)
          (by omega) below
        refine ⟨.ref s.cells.length,t.fill s.cells.length ⟨o.label,slots⟩,?_⟩
        simp only [copyValue,known,found,own,if_true,inside,Option.bind_eq_bind,Option.bind_some]

theorem startRoom : left base (.start base) < base.length + 1 := by
  refine Nat.lt_succ_of_le ?_
  refine (Finset.card_filter_le _ _).trans ?_
  rw [Finset.card_range]

theorem twinCopyable (sound : Sound base t) (progress : Progress copyable base (.start base) t)
    (stands : Stands t.memo v w) : Copyable copyable base v := by
  intro p reached
  obtain ⟨q,known,_⟩ := twinReach (startTwin sound progress stands) reached
  rcases progress.added p q known with old | ⟨_,complete⟩
  · cases old
  · obtain ⟨⟨o,_,found,_⟩,may⟩ := complete
    exact ⟨o,found,may o found⟩

/- A copy can be copied again. -/
theorem duplicateCopyable {m : Nat → Option Nat} {new : Store L A} {vs ws : List (Value A)}
    (duplicate : Duplicate base new m vs ws) (all : ∀ v ∈ vs, Copyable copyable base v) :
    ∀ w ∈ ws, Copyable copyable new w := by
  intro w member q reached
  obtain ⟨v,inside,twin⟩ := forallLeft duplicate.twins.flip member
  obtain ⟨p,known,before⟩ := twinBack twin reached
  obtain ⟨o,slots,found,copied,_⟩ := duplicate.renamed p q known
  obtain ⟨o',found',own⟩ := all v inside p before
  cases Option.some.inj (found.symm.trans found')
  exact ⟨_,copied,own⟩

theorem copyableAgree {h' : Store L A} (same : ∀ p, Reach base v p → h'[p]? = base[p]?)
    (may : Copyable copyable base v) : Copyable copyable h' v := by
  intro p reached
  have before := (reachAgree same).mp reached
  rw [same p before]
  exact may p before

/- Copying fails for nothing but an object that cannot be copied. -/
theorem deepcopyAllIff {vs : List (Value A)} :
    (∃ ws new, deepcopyAll copyable base vs = some (ws,new)) ↔ ∀ v ∈ vs, Copyable copyable base v := by
  constructor
  · rintro ⟨ws,new,done⟩ v member
    simp only [deepcopyAll,Option.bind_eq_bind,Option.bind_eq_some_iff] at done
    obtain ⟨⟨ws',t⟩,copied,last⟩ := done
    obtain ⟨sound,progress,each⟩ := copySlotsSpec (copyValueSpec _) startSound copied
    obtain ⟨w,_,stands⟩ := forallLeft each member
    exact twinCopyable sound progress stands
  · intro all
    obtain ⟨ws,t,copied⟩ := copySlotsSome (copyValueSpec (base.length + 1)) (copyValueSome (base.length + 1))
      startSound startRoom all
    exact ⟨ws,t.cells,by simp only [deepcopyAll,copied,Option.bind_eq_bind,Option.bind_some]⟩

theorem deepcopyIff : (∃ w new, deepcopy copyable base v = some (w,new)) ↔ Copyable copyable base v := by
  constructor
  · rintro ⟨w,new,done⟩
    simp only [deepcopy,Option.bind_eq_bind,Option.bind_eq_some_iff] at done
    obtain ⟨⟨w',t⟩,copied,_⟩ := done
    obtain ⟨sound,progress,stands⟩ := copyValueSpec _ _ _ _ _ startSound copied
    exact twinCopyable sound progress stands
  · intro may
    obtain ⟨w,t,copied⟩ := copyValueSome (base.length + 1) (.start base) v startSound startRoom may
    exact ⟨w,t.cells,by simp only [deepcopy,copied,Option.bind_eq_bind,Option.bind_some]⟩

end Apixis.Heap
